import NanoLance.Transaction

/-!
# The Fragment Reuse Index

A deferred compaction leaves the indices as they are, holding the addresses
rows had before it, and records in the fragment reuse index how to translate
those addresses. The index holds one version per compaction, and a reader
applies them oldest first.

A version is turned into a remap step before it is used. A step knows, for
each fragment the compaction replaced, which of its rows survived and how many
rows its group wrote before them, so the new address of a row is found by its
rank among the surviving rows of its group. The steps refuse versions whose
parts contradict each other; their checks are kept with their messages.

Coverage is translated group by group. A group a segment covers whole swaps
its old fragments for its new ones, and a group it covers in part just loses
them.

## Main definitions

* `rowAddress`, `fragmentOf`, `offsetOf`: Row addresses.
* `buildStep`: A version turned into a remap step.

## Theorems

* `fragmentOf_rowAddress`, `offsetOf_rowAddress`, `rowAddress_eta`: The parts
  of an address.
* `mem_remapGroup`: What a group makes of coverage.
-/

namespace NanoLance

open List Lib

/-- `(fragment << 32) | offset`. -/
def rowAddress (fragment offset : Nat) : Nat := fragment * 2 ^ 32 + offset

def fragmentOf (address : Nat) : Nat := address / 2 ^ 32

def offsetOf (address : Nat) : Nat := address % 2 ^ 32

theorem fragmentOf_rowAddress (fragment offset : Nat) (h : offset < 2 ^ 32) :
    fragmentOf (rowAddress fragment offset) = fragment := by
  unfold fragmentOf rowAddress
  omega

theorem offsetOf_rowAddress (fragment offset : Nat) (h : offset < 2 ^ 32) :
    offsetOf (rowAddress fragment offset) = offset := by
  unfold offsetOf rowAddress
  omega

theorem rowAddress_eta (address : Nat) :
    rowAddress (fragmentOf address) (offsetOf address) = address := by
  unfold rowAddress fragmentOf offsetOf
  omega

theorem offsetOf_lt (address : Nat) : offsetOf address < 2 ^ 32 :=
  Nat.mod_lt _ (by decide)

/-- A new fragment of a group, with the rows the group wrote before it. -/
structure NewRange where
  fragment : Nat
  rowsBefore : Nat
  physical : Nat
  deriving DecidableEq, Repr

/-- The fragments a group replaced and those it wrote, empty ones not among the ranges. -/
structure RemapGroup where
  newRanges : List NewRange := []
  oldIds : List Nat := []
  newIds : List Nat := []
  deriving DecidableEq, Repr

/-- A replaced fragment: its group, the surviving rows of the group before it, and the offsets of
    its own that survived, ascending. -/
structure OldFragment where
  group : Nat
  rowsBefore : Nat
  physical : Nat
  kept : List Nat
  deriving DecidableEq, Repr

/-- One version of the index, ready to translate addresses. -/
structure RemapStep where
  groups : List RemapGroup := []
  frags : List (Nat × OldFragment) := []
  deriving DecidableEq, Repr

def RemapStep.find? (step : RemapStep) (id : Nat) : Option OldFragment :=
  (step.frags.find? (fun e => e.1 = id)).map Prod.snd

/-- The ranges of a group's new fragments and the rows in them. -/
def rangesOf : List (Nat × Nat) → Nat → List NewRange × Nat
  | [], total => ([], total)
  | (id, physical) :: rest, total =>
    if physical = 0 then rangesOf rest total
    else
      let others := rangesOf rest (total + physical)
      ({ fragment := id % 2 ^ 32, rowsBefore := total, physical := physical } :: others.1, others.2)

/-- The replaced fragments of a group, each taking its rows out of the surviving ones; what is left
    over, and the rows taken, come back. -/
def oldFragmentsOf (group : Nat) : List (Nat × Nat) → List Nat → List Nat → Nat →
    List (Nat × OldFragment) → Except String (List (Nat × OldFragment) × List Nat × Nat)
  | [], _, changed, before, frags => .ok (frags, changed, before)
  | (id, physical) :: rest, seen, changed, before, frags => do
    ensure (id ∉ seen) s!"fragment reuse index: old fragment {id} listed twice"
    let kept := (changed.filter (fun a => fragmentOf a = id % 2 ^ 32)).map offsetOf
    ensure (kept.getLast?.all (· < physical))
      s!"fragment reuse index: a row beyond old fragment {id}"
    ensure (!frags.any (fun e => e.1 = id % 2 ^ 32))
      s!"fragment reuse index: old fragment {id} in two groups"
    oldFragmentsOf group rest (id :: seen) (changed.filter (fun a => fragmentOf a ≠ id % 2 ^ 32))
      (before + kept.length)
      (frags ++ [(id % 2 ^ 32,
        { group := group, rowsBefore := before, physical := physical, kept := kept })])

/-- One group added to a step. The surviving rows are stored as a set, so they
    come back ascending. -/
def addGroup (step : RemapStep) (raw : ReuseGroup) : Except String RemapStep := do
  let (ranges, total) := rangesOf raw.newFragments 0
  let (frags, left, rewritten) ← oldFragmentsOf step.groups.length raw.oldFragments []
    (ascending raw.changedRowAddrs) 0 step.frags
  ensure left.isEmpty "fragment reuse index: rewritten rows from fragments not in their group"
  ensure (rewritten = total)
    (s!"fragment reuse index: a group rewrote {rewritten} rows into fragments holding " ++
      toString total)
  return { step with
    frags := frags
    groups := step.groups ++ [{
      newRanges := ranges
      oldIds := raw.oldFragments.map (fun f => f.1 % 2 ^ 32)
      newIds := raw.newFragments.map (fun f => f.1 % 2 ^ 32) }] }

def addGroups : List ReuseGroup → RemapStep → Except String RemapStep
  | [], step => .ok step
  | raw :: rest, step => do
    let next ← addGroup step raw
    addGroups rest next

def buildStep (version : ReuseVersion) : Except String RemapStep :=
  addGroups version.groups {}

/-- An address after one step, `none` when the compaction deleted the row. -/
def resolveStep (step : RemapStep) (address : Nat) : Option Nat :=
  match step.find? (fragmentOf address) with
  | none => some address -- not rewritten by this version
  | some old =>
    if old.physical ≤ offsetOf address then some address
    else
      let pos := (old.kept.takeWhile (· < offsetOf address)).length
      if old.kept[pos]? ≠ some (offsetOf address) then none
      else
        let index := old.rowsBefore + pos
        let ranges := (step.groups.getD old.group {}).newRanges
        (ranges.takeWhile (fun r => r.rowsBefore ≤ index)).getLast?.map
          (fun target => rowAddress target.fragment (index - target.rowsBefore))

/-- An address translated through every step, `none` when a compaction deleted the row. -/
def resolve : List RemapStep → Nat → Option Nat
  | [], address => some address
  | step :: rest, address => (resolveStep step address).bind (resolve rest)

/-- The group is covered whole: each of its fragments is erased from the
    coverage, and there is one. -/
def coversWhole (covered old : List Nat) : Bool :=
  let removed := (old.dedup.filter (fun id => id ∈ covered)).length
  removed = old.length && removed ≠ 0

/-- Coverage after one group. -/
def remapGroup (covered : List Nat) (group : List Nat × List Nat) : List Nat :=
  let rest := covered.filter (fun id => id ∉ group.1)
  if coversWhole covered group.1 then ascending (rest ++ group.2) else rest

/-- Coverage after every group, ascending. -/
def remapCoverage (ids : List Nat) (groups : List (List Nat × List Nat)) : List Nat :=
  groups.foldl remapGroup (ascending ids)

/-- The fragment reuse index a manifest is read with: the newest, the last one of equals. -/
def newestReuse (indices : List IndexMetadata) : Option IndexMetadata :=
  indices.foldl (fun newest index =>
    if index.name = fragReuseIndex &&
        newest.all (fun n => n.datasetVersion ≤ index.datasetVersion) then some index
    else newest) none

/-- The versions of a fragment reuse index. Those of an external one are read from its file. -/
def reuseVersions (external : Nat → Except String (List ReuseVersion)) (index : IndexMetadata) :
    Except String (List ReuseVersion) :=
  match index.details with
  | .reuseInline versions => .ok versions
  | .reuseExternal => external index.uuid
  | .bytes _ => .error s!"index '{index.name}' is not a fragment reuse index"

def buildSteps : List ReuseVersion → Except String (List RemapStep)
  | [] => .ok []
  | version :: rest => do
    let step ← buildStep version
    let steps ← buildSteps rest
    return step :: steps

/-- The remap steps of a manifest, `none` when it has no fragment reuse index. -/
def loadReuse (external : Nat → Except String (List ReuseVersion)) (m : Manifest) :
    Except String (Option (List RemapStep)) :=
  match newestReuse m.indices with
  | none => .ok none
  | some index => do
    let versions ← reuseVersions external index
    let steps ← buildSteps versions
    return some steps

/-- Coverage as a reader of the fragment reuse index sees it. -/
def reuseCoverage (steps : Option (List RemapStep)) (ids : List Nat) : List Nat :=
  match steps with
  | none => ids
  | some [] => ids
  | some steps => remapCoverage ids ((steps.flatMap (·.groups)).map (fun g => (g.oldIds, g.newIds)))

/-- The versions a new entry continues. -/
def priorVersions : Option IndexMetadata → Except String (List ReuseVersion)
  | none => .ok []
  | some prior =>
    match prior.details with
    | .reuseInline versions => .ok versions
    | .reuseExternal =>
      .error "the fragment reuse index keeps its versions in an external file: not written yet"
    | .bytes _ => .error "the fragment reuse index's details are malformed"

/-- The index entry after a deferred compaction at `version`: the prior one's
    versions and one more. -/
def fragmentReuseIndexEntry (prior : Option IndexMetadata) (version : Nat)
    (groups : List ReuseGroup) (coverage : List Nat) (uuid now : Nat) :
    Except String IndexMetadata := do
  let versions ← priorVersions prior
  return {
    uuid := uuid
    name := fragReuseIndex
    datasetVersion := version
    fragmentIds := ascending coverage
    detailsTypeUrl := "/lance.table.FragmentReuseIndexDetails"
    details := .reuseInline (versions ++ [{ datasetVersion := version, groups := groups }])
    indexVersion := 3
    createdAt := now }

/-- The entry a manifest is read with is one of its own, and there is one when it has any. -/
theorem newestReuse_spec (indices : List IndexMetadata) :
    (newestReuse indices = none → ∀ i ∈ indices, i.name ≠ fragReuseIndex) ∧
      ∀ i, newestReuse indices = some i → i ∈ indices ∧ i.name = fragReuseIndex := by
  -- The newest so far is one of the entries seen, and there is one once one was seen.
  have hfold : ∀ (rest seen : List IndexMetadata) (newest : Option IndexMetadata),
      (newest = none → ∀ i ∈ seen, i.name ≠ fragReuseIndex) →
      (∀ i, newest = some i → i ∈ seen ∧ i.name = fragReuseIndex) →
      let result := rest.foldl (fun newest index =>
        if index.name = fragReuseIndex &&
            newest.all (fun n => n.datasetVersion ≤ index.datasetVersion) then some index
        else newest) newest
      (result = none → ∀ i ∈ seen ++ rest, i.name ≠ fragReuseIndex) ∧
        ∀ i, result = some i → i ∈ seen ++ rest ∧ i.name = fragReuseIndex := by
    intro rest
    induction rest with
    | nil => grind
    | cons x rest ih =>
      intro seen newest hnone hsome
      have hstep := ih (seen ++ [x]) (if x.name = fragReuseIndex &&
          newest.all (fun n => n.datasetVersion ≤ x.datasetVersion) then some x else newest) ?_ ?_
      · grind
      · intro h i hi
        split at h
        · cases h
        · grind
      · grind
  have h := hfold indices [] none (fun _ => forall_mem_nil _)
    (fun _ h => nomatch h)
  rw [nil_append] at h
  exact h

/-- A group is covered whole when it names each fragment once and the coverage has them all. -/
theorem coversWhole_iff (covered old : List Nat) :
    coversWhole covered old = true ↔ old ≠ [] ∧ old.Nodup ∧ ∀ id ∈ old, id ∈ covered := by
  unfold coversWhole
  simp only [Bool.and_eq_true, decide_eq_true_eq]
  constructor
  · rintro ⟨hlen, hpos⟩
    have hfilter := length_filter_le (fun id => decide (id ∈ covered)) old.dedup
    have hdedup : old.dedup.length ≤ old.length := (dedup_sublist old).length_le
    -- Both inequalities are equalities, so nothing was dropped on the way.
    have hnodup : old.dedup = old := (dedup_sublist old).eq_of_length (by omega)
    have hall := length_filter_eq_length_iff.mp
      (show (old.dedup.filter (fun id => decide (id ∈ covered))).length = old.dedup.length by omega)
    refine ⟨?_, dedup_eq_self.mp hnodup, fun id hid => ?_⟩
    · rintro rfl
      exact hpos rfl
    · exact of_decide_eq_true (hall id (mem_dedup.mpr hid))
  · rintro ⟨hne, hnodup, hall⟩
    have hfilter : old.dedup.filter (fun id => decide (id ∈ covered)) = old := by
      rw [dedup_eq_self.mpr hnodup]
      exact filter_eq_self.mpr (fun id hid => decide_eq_true (hall id hid))
    grind

theorem mem_remapGroup (covered : List Nat) (group : List Nat × List Nat) (id : Nat) :
    id ∈ remapGroup covered group ↔
      (id ∈ covered ∧ id ∉ group.1) ∨ (coversWhole covered group.1 = true ∧ id ∈ group.2) := by
  unfold remapGroup
  grind [mem_ascending]

theorem mem_foldl_remapGroup_keep (id : Nat) :
    ∀ (groups : List (List Nat × List Nat)) (covered : List Nat),
    (∀ g ∈ groups, id ∉ g.1 ∧ id ∉ g.2) → (id ∈ groups.foldl remapGroup covered ↔ id ∈ covered) := by
  intro groups
  induction groups with
  | nil => exact fun covered _ => Iff.rfl
  | cons g rest ih =>
    intro covered h
    rcases h g (.head _) with ⟨hold, hnew⟩
    rw [foldl_cons, ih _ (fun x hx => h x (.tail _ hx)), mem_remapGroup]
    simp [hold, hnew]

variable {id : Nat} {group : List Nat × List Nat}

theorem mem_foldl_remapGroup : ∀ (groups : List (List Nat × List Nat))
    (covered : List Nat), id ∈ groups.foldl remapGroup covered →
      (id ∈ covered ∧ ∀ g ∈ groups, id ∉ g.1) ∨ ∃ g ∈ groups, id ∈ g.2 := by
  intro groups
  induction groups with
  | nil => exact fun covered hin => .inl ⟨hin, nofun⟩
  | cons g rest ih =>
    intro covered hin
    rcases ih _ hin with ⟨hstep, hrest⟩ | ⟨k, hk, hid⟩
    · rcases (mem_remapGroup covered g id).mp hstep with ⟨hcov, hnot⟩ | ⟨-, hnew⟩
      · exact .inl ⟨hcov, forall_mem_cons.mpr ⟨hnot, hrest⟩⟩
      · exact .inr ⟨g, mem_cons_self, hnew⟩
    · exact .inr ⟨k, mem_cons_of_mem g hk, hid⟩

section

variable (id : Nat) (groups : List (List Nat × List Nat)) (ids : List Nat)

/-- What is covered afterwards was covered before and is in no group, or is a fragment a group
    wrote. -/
theorem mem_remapCoverage (h : id ∈ remapCoverage ids groups) :
    (id ∈ ids ∧ ∀ g ∈ groups, id ∉ g.1) ∨ ∃ g ∈ groups, id ∈ g.2 := by
  rcases mem_foldl_remapGroup groups _ h with ⟨hin, hnot⟩ | hnew
  · exact .inl ⟨(mem_ascending id ids).mp hin, hnot⟩
  · exact .inr hnew

/-- Groups that name no covered fragment leave the coverage as it is. -/
theorem mem_remapCoverage_same (h : ∀ g ∈ groups, ∀ x ∈ g.1, x ∉ ids) :
    id ∈ remapCoverage ids groups ↔ id ∈ ids := by
  have hfold : ∀ (gs : List (List Nat × List Nat)) (covered : List Nat),
      (∀ g ∈ gs, ∀ x ∈ g.1, x ∉ covered) →
        ∀ x, (x ∈ gs.foldl remapGroup covered ↔ x ∈ covered) := by
    intro gs
    induction gs with
    | nil => exact fun covered _ x => Iff.rfl
    | cons g rest ih =>
      intro covered hout x
      have hg := hout g (.head _)
      -- A group covered whole would have a covered fragment.
      have hstep : ∀ y, (y ∈ remapGroup covered g ↔ y ∈ covered) := by
        intro y
        rw [mem_remapGroup, coversWhole_iff]
        constructor
        · rintro (⟨hin, -⟩ | ⟨⟨hne, -, hall⟩, -⟩)
          · exact hin
          · rcases exists_mem_of_ne_nil _ hne with ⟨z, hz⟩
            exact absurd (hall z hz) (hg z hz)
        · exact fun hin => .inl ⟨hin, fun hc => hg y hc hin⟩
      rw [foldl_cons, ih _ (fun k hk z hz hin => ?_) x, hstep]
      exact hout k (.tail _ hk) z hz ((hstep z).mp hin)
  rw [remapCoverage, hfold groups _ (fun g hg x hx hin => h g hg x hx ((mem_ascending x ids).mp hin)),
    mem_ascending]

/-- A fragment no group names is covered afterwards exactly when it was. -/
theorem mem_remapCoverage_keep (h : ∀ g ∈ groups, id ∉ g.1 ∧ id ∉ g.2) :
    id ∈ remapCoverage ids groups ↔ id ∈ ids := by
  rw [remapCoverage, mem_foldl_remapGroup_keep id groups _ h, mem_ascending]

end

/-- Groups are told apart by their fragments: no two of them share an old one, and what one wrote
    none of them replaced. -/
structure GroupsApart (groups : List (List Nat × List Nat)) : Prop where
  old : groups.Pairwise (fun g h => ∀ id ∈ g.1, id ∉ h.1)
  new : groups.Pairwise (fun g h => ∀ id ∈ g.2, id ∉ h.2)
  fresh : ∀ g ∈ groups, ∀ h ∈ groups, ∀ id ∈ g.2, id ∉ h.1

/-- Whether a group is covered whole is not changed by the groups before it. -/
theorem coversWhole_remapGroup (covered : List Nat) {g h : List Nat × List Nat}
    (hold : ∀ id ∈ g.1, id ∉ h.1) (hfresh : ∀ id ∈ g.2, id ∉ h.1) :
    coversWhole (remapGroup covered g) h.1 = coversWhole covered h.1 := by
  rw [Bool.eq_iff_iff, coversWhole_iff, coversWhole_iff]
  grind [mem_remapGroup]

theorem mem_foldl_remapGroup_new (hid : id ∈ group.2) :
    ∀ (groups : List (List Nat × List Nat)) (covered : List Nat), GroupsApart groups →
      group ∈ groups → id ∉ covered →
      (id ∈ groups.foldl remapGroup covered ↔ coversWhole covered group.1 = true) := by
  intro groups
  induction groups with
  | nil => exact nofun
  | cons g rest ih =>
    intro covered hap hmem hcov
    rcases pairwise_cons.mp hap.old with ⟨hold, holds⟩
    rcases pairwise_cons.mp hap.new with ⟨hnew, hnews⟩
    have hrest : GroupsApart rest :=
      ⟨holds, hnews, fun a ha b hb => hap.fresh a (.tail _ ha) b (.tail _ hb)⟩
    rw [foldl_cons]
    rcases mem_cons.mp hmem with rfl | hin
    · -- The group itself: what it leaves of the fragment, the later ones do not touch.
      rw [mem_foldl_remapGroup_keep id rest _ (fun h hh => ⟨hap.fresh group (.head _) h
        (.tail _ hh) id hid, hnew h hh id hid⟩), mem_remapGroup]
      simp [hcov, hid]
    · have hg : id ∉ g.2 := fun hc => hnew group hin id hc hid
      have hcov' : id ∉ remapGroup covered g := by simp [mem_remapGroup, hcov, hg]
      rw [ih _ hrest hin hcov', coversWhole_remapGroup covered (hold group hin)
        (fun x hx => hap.fresh g (.head _) group hmem x hx)]

/-- A fragment a group wrote is covered afterwards exactly when the group was covered whole. -/
theorem mem_remapCoverage_new {ids : List Nat} {groups : List (List Nat × List Nat)}
    (hapart : GroupsApart groups) (hgroup : group ∈ groups) (hid : id ∈ group.2) (hids : id ∉ ids) :
    id ∈ remapCoverage ids groups ↔ coversWhole ids group.1 = true := by
  have hasc : coversWhole (ascending ids) group.1 = coversWhole ids group.1 := by
    grind [coversWhole_iff, mem_ascending]
  rw [remapCoverage, mem_foldl_remapGroup_new hid groups _ hapart hgroup
    (fun h => hids ((mem_ascending id ids).mp h)), hasc]

end NanoLance
