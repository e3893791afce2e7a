import NanoLance.Conflicts
import NanoLance.FragReuse

/-!
# Committing a Compaction

A compaction rewrites the live rows of some fragments into new ones and then
commits in two versions. The first reserves the ids of the new fragments; the
second, made on top of it, is the rewrite itself. Between the two another
writer may commit, so the rewritten fragments are compared with the ones the
rows were read from before each of them.

What the rewrite does to the indices depends on how it remaps them. An eager
compaction takes the rewritten fragments out of the coverage of every index. A
deferred one moves the coverage to the new fragments, leaves the index files
alone, and adds a version to the fragment reuse index. The prior versions it
continues are those of the version the compaction was planned from.

A commit that finds its version taken is rebased: its operation is derived
from the change, checked against the operation of every version since, and
applied to the latest one.
-/

namespace NanoLance

open List Lib

/-- The deletion vectors of a dataset's deletion files, by fragment. -/
abbrev DeletionVectors := Nat → DeletionFile → Except String (List Nat)

/-- The offsets deleted from a fragment. -/
def deletedRows (vectors : DeletionVectors) (f : DataFragment) : Except String (List Nat) :=
  match f.deletionFile with
  | none => .ok []
  | some d => vectors f.id d

/-- The row of a fragment exists and is not deleted. -/
def liveRow (vectors : DeletionVectors) (f : DataFragment) (offset : Nat) : Bool :=
  offset < f.physicalRows &&
    match deletedRows vectors f with
    | .ok deleted => offset ∉ deleted
    | .error _ => false

/-- One task's result: the fragments whose rows were read, and the fragments they were written to,
    without ids yet. -/
structure CompactionRewrite where
  oldFragmentIds : List Nat
  newFragments : List DataFragment
  deriving DecidableEq, Repr

/-- The rewrites of a compaction, and the uuid and time its index entry takes. -/
structure Compaction where
  rewrites : List CompactionRewrite
  uuid : Nat := 0
  now : Nat := 0
  deriving DecidableEq, Repr

/-- The fragments a compaction replaces. -/
def Compaction.rewritten (c : Compaction) : List Nat :=
  c.rewrites.flatMap (·.oldFragmentIds)

/-- The fragments a compaction wrote, in order. -/
def Compaction.created (c : Compaction) : List DataFragment :=
  c.rewrites.flatMap (·.newFragments)

/-- The first rewritten fragment that `current` does not hold as `original` does. -/
def changedRewrite (original current : Manifest) (rewritten : List Nat) : Option Nat :=
  rewritten.find? (fun id =>
    current.fragment? id = none || current.fragment? id ≠ original.fragment? id)

def checkUnchanged (original current : Manifest) (rewritten : List Nat) : Except String Unit :=
  match changedRewrite original current rewritten with
  | none => .ok ()
  | some id => .error s!"commit conflict: fragment {id} changed during the compaction"

/-- The high-water mark raised to an id. -/
def noteFragmentId (m : Manifest) (id : Nat) : Manifest :=
  if m.maxFragmentId.all (· < id) then { m with maxFragmentId := some (id % 2 ^ 32) } else m

/-- The version that reserves ids for `count` new fragments. -/
def reserveManifest (original : Manifest) (count : Nat) : Manifest :=
  if count = 0 then original
  else noteFragmentId original (nextFragmentId original + count - 1)

/-- The first of the ids reserved below the high-water mark. The mark is 32-bit and the count is
    64-bit. -/
def firstNewId (reserved : Manifest) (count : Nat) : Nat :=
  ((reserved.maxFragmentId.getD 0 + 1) % 2 ^ 32 + 2 ^ 64 - count) % 2 ^ 64

/-- The addresses of a fragment's live rows. -/
def liveAddresses (f : DataFragment) (deleted : List Nat) : List Nat :=
  ((range f.physicalRows).filter (fun offset => offset ∉ deleted)).map (rowAddress f.id)

/-- The surviving rows and the digests of the fragments a rewrite replaces. -/
def oldDigests (vectors : DeletionVectors) (original : Manifest) :
    List Nat → Except String (List Nat × List (Nat × Nat))
  | [] => .ok ([], [])
  | id :: rest =>
    match original.fragment? id with
    | none => .error s!"fragment {id} is not in version {original.version}"
    | some f => do
      let deleted ← deletedRows vectors f
      let others ← oldDigests vectors original rest
      return (liveAddresses f deleted ++ others.1, (f.id, f.physicalRows) :: others.2)

/-- The groups of a compaction, the new fragments numbered from `next` on. -/
def compactionGroups (vectors : DeletionVectors) (original : Manifest) :
    List CompactionRewrite → Nat → Except String (List ReuseGroup)
  | [], _ => .ok []
  | rewrite :: rest, next => do
    let old ← oldDigests vectors original rewrite.oldFragmentIds
    let others ← compactionGroups vectors original rest (next + rewrite.newFragments.length)
    return {
      changedRowAddrs := old.1
      oldFragments := old.2
      newFragments := (numberFrom rewrite.newFragments next).map (fun f => (f.id, f.physicalRows)) }
        :: others

/-- The fragments a group replaced. -/
def ReuseGroup.oldIds (g : ReuseGroup) : List Nat := g.oldFragments.map Prod.fst

/-- The fragments a group wrote. -/
def ReuseGroup.newIds (g : ReuseGroup) : List Nat := g.newFragments.map Prod.fst

/-- The groups as coverage sees them, ids cut to 32 bits. -/
def coverageGroups (groups : List ReuseGroup) : List (List Nat × List Nat) :=
  groups.map (fun g =>
    (g.oldFragments.map (fun f => f.1 % 2 ^ 32), g.newFragments.map (fun f => f.1 % 2 ^ 32)))

def remapIndex (groups : List (List Nat × List Nat)) (index : IndexMetadata) : IndexMetadata :=
  if isSystemIndex index || !index.hasFragmentBitmap then index
  else
    let ids := remapCoverage index.fragmentIds groups
    { index with
      fragmentIds := ids
      fragmentBitmapChanged := index.fragmentBitmapChanged || ids ≠ index.fragmentIds }

/-- The fragment reuse index a compaction continues: the last one of the version it was planned
    from. -/
def priorReuse (original : Manifest) : Option IndexMetadata :=
  original.indices.reverse.find? (fun i => i.name = fragReuseIndex)

/-- The coverage of the new entry: the new fragments, and the prior entry's less those rewritten. -/
def reuseEntryCoverage (prior : Option IndexMetadata) (groups : List ReuseGroup)
    (rewritten : List Nat) : List Nat :=
  groups.flatMap (fun g => g.newFragments.map (fun f => f.1 % 2 ^ 32)) ++
    ((prior.map (·.fragmentIds)).getD []).filter (fun id => id ∉ rewritten)

/-- The indices after the rewrite. -/
def compactionIndices (vectors : DeletionVectors) (defer : Bool) (original reserved : Manifest)
    (c : Compaction) : Except String (List IndexMetadata) :=
  if defer then do
    let groups ← compactionGroups vectors original c.rewrites
      (firstNewId reserved c.created.length)
    let prior := priorReuse original
    let entry ← fragmentReuseIndexEntry prior (reserved.version + 1) groups
      (reuseEntryCoverage prior groups c.rewritten) c.uuid c.now
    let remapped := reserved.indices.map (remapIndex (coverageGroups groups))
    return remapped.filter (fun i => i.name ≠ fragReuseIndex) ++ [entry]
  else .ok (dropFragmentsFromIndices reserved.indices c.rewritten)

/-- The rewrite's version, made on top of the reserving one. -/
def compactionManifest (vectors : DeletionVectors) (defer : Bool) (original reserved : Manifest)
    (c : Compaction) : Except String Manifest := do
  checkUnchanged original reserved c.rewritten
  let created := numberFrom c.created (firstNewId reserved c.created.length)
  let fragments := reserved.fragments.filter (fun f => f.id ∉ c.rewritten) ++ created
  let flags := fun (word : BitVec 64) =>
    if fragments.any (fun f => f.deletionFile.isSome) then word
    else setFlag word flagDeletionFiles false
  let indices ← compactionIndices vectors defer original reserved c
  return { reserved with
    version := reserved.version + 1
    fragments := sortFragments fragments
    indices := indices
    readerFeatureFlags := flags reserved.readerFeatureFlags
    writerFeatureFlags := flags reserved.writerFeatureFlags }

/-- The operation of a reserving commit. -/
def reserveOperation (count : Nat) : Operation :=
  { kind := .reserveFragments, reserve := count % 2 ^ 32 }

/-- The operation of a rewriting commit, read off the change: one group of the fragments replaced
    and those replacing them. -/
def deriveRewrite (parent next : Manifest) : Operation :=
  let inParent := fun (f : DataFragment) => (lastWithId parent.fragments f.id).isSome
  let changed := next.fragments.filter (fun f =>
    inParent f && lastWithId parent.fragments f.id ≠ some f)
  let added := next.fragments.filter (fun f => !inParent f)
  let gone := parent.fragments.filter (fun f => !next.fragments.any (fun g => g.id = f.id))
  { kind := .rewrite
    groups := [{
      oldFragments := gone ++ changed.filterMap (fun f => lastWithId parent.fragments f.id)
      newFragments := changed ++ added }] }

/-- The verdict on a change against one version committed since. -/
def concurrentVerdict (mine theirs : Operation) (version : Nat) : Except String Unit :=
  let ours := operationName mine.kind
  let other := if theirs.kind = .clone then "Clone" else operationName theirs.kind
  match checkTxn mine theirs with
  | .compatible => .ok ()
  | .retryable =>
    .error (s!"commit conflict: Retryable commit conflict for version {version}: This {ours} " ++
      s!"transaction was preempted by concurrent transaction {other} at version {version}. " ++
      "Please retry.")
  | .incompatible =>
    .error (s!"Incompatible transaction: This {ours} transaction is incompatible with concurrent " ++
      s!"transaction {other} at version {version}.")

/-- The verdict against every version since, in order. -/
def classifyConcurrent (mine : Operation) : List Operation → Nat → Except String Unit
  | [], _ => .ok ()
  | theirs :: rest, version => do
    concurrentVerdict mine theirs version
    classifyConcurrent mine rest (version + 1)

/-- A commit read at `readVersion` made again on the latest version, over the operations committed
    since. -/
def rebaseCommit (readVersion : Nat) (latest ours : Manifest) (mine : Operation)
    (theirs : List Operation) : Except String Manifest := do
  classifyConcurrent mine theirs (readVersion + 1)
  let rebased ← rebaseOperation latest ours mine theirs (latest.version + 1)
  let flags := fun (word : BitVec 64) =>
    if rebased.fragments.any (fun f => f.deletionFile.isSome) then setFlag word flagDeletionFiles true
    else word
  return { rebased with
    version := latest.version + 1
    readerFeatureFlags := flags rebased.readerFeatureFlags
    writerFeatureFlags := flags rebased.writerFeatureFlags }

/-- The reserving commit: after the version it was read at, or rebased when
    others committed since. -/
def reserveIds (original latest : Manifest) (theirs : List Operation) (count : Nat) :
    Except String Manifest :=
  let reserve := { reserveManifest original count with version := original.version + 1 }
  if theirs.isEmpty then .ok reserve
  else rebaseCommit original.version latest reserve (reserveOperation count) theirs

/-- Every fragment of the compaction is in the version it was planned from. -/
def checkPlanned (original : Manifest) (c : Compaction) : Except String Unit :=
  match c.rewritten.find? (fun id => original.fragment? id = none) with
  | none => .ok ()
  | some id => .error s!"fragment {id} is not in version {original.version}"

/-- A compaction planned from `original` and committed after `theirs`, which left `latest`. No
    writer takes the version after the reserving one. -/
def compactCommit (vectors : DeletionVectors) (defer : Bool) (original latest : Manifest)
    (theirs : List Operation) (c : Compaction) : Except String Manifest :=
  if c.rewrites.all (fun r => r.oldFragmentIds.isEmpty) then .ok latest
  else do
    Lib.ensure (!(defer && isStable original))
      "defer_index_remap is not supported on a dataset with stable row ids"
    checkPlanned original c
    checkUnchanged original latest c.rewritten
    let reserved ← reserveIds original latest theirs c.created.length
    compactionManifest vectors defer original reserved c

variable (vectors : DeletionVectors) (groups : List (List Nat × List Nat)) (f : DataFragment)

theorem liveRow_lt (offset : Nat) (h : liveRow vectors f offset = true) :
    offset < f.physicalRows := by grind [liveRow]

/-- Without a deletion file every row is live. -/
theorem liveRow_of_no_deletions (offset : Nat) (h : f.deletionFile = none) :
    liveRow vectors f offset = decide (offset < f.physicalRows) := by
  simp [liveRow, deletedRows, h]

theorem checkUnchanged_eq_ok (original current : Manifest) (rewritten : List Nat) (u : Unit) :
    checkUnchanged original current rewritten = .ok u ↔
      ∀ id ∈ rewritten, current.fragment? id ≠ none ∧
        current.fragment? id = original.fragment? id := by
  unfold checkUnchanged changedRewrite
  cases hfind : rewritten.find? (fun id =>
      current.fragment? id = none || current.fragment? id ≠ original.fragment? id) with
  | none => grind
  | some id => grind

variable {count next : Nat} {latest out m original : Manifest} {theirs : List Operation}

variable {ours : Manifest}

/-- A rebased reservation keeps the latest version's indices, and its fragments up to files of
    nothing but tombstones. -/
theorem rebaseCommit_reserve {readVersion : Nat}
    (h : rebaseCommit readVersion latest ours (reserveOperation count) theirs = .ok out) :
    out.indices = latest.indices ∧
      out.fragments = (sortFragments latest.fragments).map dropTombstoneFiles ∧
      out.fields = latest.fields ∧ out.version = latest.version + 1 ∧
      out.maxFragmentId = highWater
        (some ((latest.maxFragmentId.getD 0 + count % 2 ^ 32) % 2 ^ 32)) out.fragments := by
  simp only [rebaseCommit, bind_eq_ok, pure_eq_ok] at h
  rcases h with ⟨_, -, rebased, hrebased, rfl⟩
  simp only [rebaseOperation, reserveOperation, renumbered, reduceCtorEq, if_false,
    Bool.or_self, decide_false, Bool.and_false, Bool.not_false, bind_eq_ok,
    pure_eq_ok, ensure_eq_ok, Bool.false_eq_true] at hrebased
  rcases hrebased with ⟨_, -, next, hnext, rfl⟩
  simp only [applyOperation, operationValid, applyKind, bind_eq_ok, pure_eq_ok] at hnext
  rcases hnext with ⟨_, -, applied, happlied, rfl⟩
  cases happlied
  exact ⟨rfl, rfl, rfl, rfl, rfl⟩

/-- A rebased rewrite keeps the latest version's indices, and not its own: the operation it is
    rebased as names no index. -/
theorem rebaseCommit_rewrite {readVersion : Nat} {parent next : Manifest}
    (h : rebaseCommit readVersion latest ours (deriveRewrite parent next) theirs = .ok out) :
    out.indices = latest.indices ∧ out.version = latest.version + 1 := by
  simp only [rebaseCommit, bind_eq_ok, pure_eq_ok] at h
  rcases h with ⟨_, -, rebased, hrebased, rfl⟩
  simp only [rebaseOperation, deriveRewrite, renumbered, reduceCtorEq, if_false,
    Bool.or_self, decide_false, Bool.and_false, Bool.not_false, bind_eq_ok,
    pure_eq_ok, ensure_eq_ok, Bool.false_eq_true] at hrebased
  rcases hrebased with ⟨_, -, made, hmade, rfl⟩
  simp only [applyOperation, operationValid, applyKind, applyRewrite, applyRewritten,
    bind_eq_ok, pure_eq_ok, Except.ok.injEq] at hmade
  rcases hmade with ⟨_, -, applied, ⟨fragments, -, indices, rfl, rfl⟩, rfl⟩
  exact ⟨rfl, rfl⟩

theorem numberFrom_append (a b : List DataFragment) (next : Nat) :
    numberFrom (a ++ b) next = numberFrom a next ++ numberFrom b (next + a.length) := by
  induction a generalizing next with
  | nil => rfl
  | cons f rest ih =>
    rw [cons_append, numberFrom, numberFrom, ih, length_cons, cons_append]
    congr 3
    omega

/-- A numbered fragment is one of those given but for its id. -/
theorem mem_numberFrom (fragments : List DataFragment) (next : Nat) (f : DataFragment)
    (hf : f ∈ numberFrom fragments next) :
    (∃ g ∈ fragments, f = { g with id := f.id }) ∧ next ≤ f.id ∧
      f.id < next + fragments.length := by
  have hid : f.id ∈ (numberFrom fragments next).map (·.id) := mem_map_of_mem hf
  rw [numberFrom_ids, mem_range'_1] at hid
  refine ⟨?_, hid⟩
  clear hid
  induction fragments generalizing next with
  | nil => nomatch hf
  | cons g rest ih => grind [numberFrom]

theorem rowAddress_injective (fragment : Nat) : Function.Injective (rowAddress fragment) := by
  intro a b h
  unfold rowAddress at h
  omega

theorem liveAddresses_nodup (deleted : List Nat) :
    (liveAddresses f deleted).Nodup :=
  (nodup_range.filter _).map (rowAddress_injective f.id)

theorem fragment_id (m : Manifest) (id : Nat) (f : DataFragment) (h : m.fragment? id = some f) :
    f.id = id :=
  key_of_find h

/-- Distinct ids tell fragments apart. -/
theorem fragment_iff (hids : (m.fragments.map (·.id)).Nodup) (id : Nat) (f : DataFragment) :
    m.fragment? id = some f ↔ f ∈ m.fragments ∧ f.id = id :=
  find_key_iff id hids f

section

variable (vectors : DeletionVectors) {original : Manifest}

/-- The addresses of the live rows of a fragment. -/
def liveRowsOf (f : DataFragment) : List Nat :=
  ((range f.physicalRows).filter (liveRow vectors f)).map (rowAddress f.id)

variable {ids : List Nat}

/-- The digests are those of the fragments named. -/
theorem oldDigests_spec {out : List Nat × List (Nat × Nat)}
    (h : oldDigests vectors original ids = .ok out) :
    ∃ olds : List DataFragment, olds.map (·.id) = ids ∧
      (∀ f ∈ olds, original.fragment? f.id = some f) ∧
      out = (olds.flatMap (liveRowsOf vectors), olds.map (fun f => (f.id, f.physicalRows))) := by
  induction ids generalizing out with
  | nil =>
    cases h
    exact ⟨[], rfl, forall_mem_nil _, rfl⟩
  | cons id rest ih =>
    rw [oldDigests] at h
    cases hfind : original.fragment? id with
    | none => grind
    | some f =>
      rw [hfind] at h
      simp only [bind_eq_ok, pure_eq_ok] at h
      rcases h with ⟨deleted, hdel, others, hothers, rfl⟩
      rcases ih hothers with ⟨olds, rfl, hfound, rfl⟩
      have hid := fragment_id original id f hfind
      have hlive : liveAddresses f deleted = liveRowsOf vectors f := by
        refine congrArg (map _) (filter_congr (fun offset hoffset => ?_))
        rw [liveRow, hdel, decide_eq_true (mem_range.mp hoffset), Bool.true_and]
      refine ⟨f :: olds, by rw [map_cons, hid], forall_mem_cons.mpr ⟨hid ▸ hfind, hfound⟩, ?_⟩
      rw [hlive, flatMap_cons, map_cons]

theorem oldDigests_ids {out : List Nat × List (Nat × Nat)}
    (h : oldDigests vectors original ids = .ok out) : out.2.map Prod.fst = ids := by
  rcases oldDigests_spec vectors h with ⟨olds, rfl, -, rfl⟩
  rw [map_map]
  rfl

theorem mem_liveRowsOf (a : Nat) (hrows : f.physicalRows ≤ 2 ^ 32) :
    a ∈ liveRowsOf vectors f ↔ fragmentOf a = f.id ∧ liveRow vectors f (offsetOf a) = true := by
  unfold liveRowsOf liveRow
  grind [fragmentOf_rowAddress, offsetOf_rowAddress, rowAddress_eta]

theorem oldDigests_ok {out : List Nat × List (Nat × Nat)}
    (hrows : ∀ id ∈ ids, ∀ f, original.fragment? id = some f → f.physicalRows ≤ 2 ^ 32)
    (h : oldDigests vectors original ids = .ok out) :
    (∀ a, a ∈ out.1 ↔ fragmentOf a ∈ ids ∧ ∃ f, original.fragment? (fragmentOf a) = some f ∧
      liveRow vectors f (offsetOf a) = true) ∧ (ids.Nodup → out.1.Nodup) := by
  rcases oldDigests_spec vectors h with ⟨olds, rfl, hfound, rfl⟩
  have hlive : ∀ f ∈ olds, ∀ a, a ∈ liveRowsOf vectors f ↔ fragmentOf a = f.id ∧
      liveRow vectors f (offsetOf a) = true := fun f hf a =>
    mem_liveRowsOf f vectors a (hrows f.id (mem_map_of_mem hf) f (hfound f hf))
  refine ⟨fun a => ?_, fun hn => nodup_flatMap.mpr ⟨fun f _ => ?_, ?_⟩⟩
  · rw [mem_flatMap]
    grind
  · exact (nodup_range.filter _).map (rowAddress_injective f.id)
  · -- Rows of different fragments have different addresses.
    refine (pairwise_map.mp hn).imp_of_mem (fun {f g} hf hg hne a ha hb => hne ?_)
    exact ((hlive f hf a).mp ha).1.symm.trans ((hlive g hg a).mp hb).1

/-- The groups of a compaction, one for each rewrite in order. -/
theorem compactionGroups_ok :
    ∀ (rewrites : List CompactionRewrite) (next : Nat) (groups : List ReuseGroup),
    compactionGroups vectors original rewrites next = .ok groups →
      groups.flatMap (·.newFragments) =
        (numberFrom (rewrites.flatMap (·.newFragments)) next).map (fun f => (f.id, f.physicalRows)) ∧
      List.Forall₂ (fun r g =>
        oldDigests vectors original r.oldFragmentIds = .ok (g.changedRowAddrs, g.oldFragments) ∧
          g.newFragments.map Prod.snd = r.newFragments.map (·.physicalRows)) rewrites groups := by
  intro rewrites
  induction rewrites with
  | nil =>
    intro next groups h
    cases h
    exact ⟨rfl, List.Forall₂.nil⟩
  | cons r rest ih =>
    intro next groups h
    simp only [compactionGroups, bind_eq_ok, pure_eq_ok] at h
    rcases h with ⟨old, hold, others, hothers, rfl⟩
    rcases ih _ others hothers with ⟨hnew, hforall⟩
    refine ⟨?_, List.Forall₂.cons ⟨hold, ?_⟩ hforall⟩
    · rw [flatMap_cons, flatMap_cons, hnew, numberFrom_append, map_append]
    · rw [map_map]
      exact numberFrom_map (fun f id => rfl) _ _

/-- The groups replace the fragments rewritten, and write fragments numbered one after the other. -/
theorem compactionGroups_ids {rewrites : List CompactionRewrite} {groups : List ReuseGroup}
    (h : compactionGroups vectors original rewrites next = .ok groups) :
    groups.flatMap (·.oldIds) = rewrites.flatMap (·.oldFragmentIds) ∧
      groups.flatMap (·.newIds) =
        range' next (rewrites.flatMap (·.newFragments)).length := by
  rcases compactionGroups_ok vectors rewrites next groups h with ⟨hnew, hpairs⟩
  refine ⟨flatMap_eq_of_forall₂ (hpairs.imp (fun r g hrg => (oldDigests_ids _ hrg.1).symm)), ?_⟩
  have hfst := congrArg (map Prod.fst) hnew
  rw [map_flatMap, map_map] at hfst
  exact hfst.trans (numberFrom_ids _ next)

end

/-- Coverage sees groups of 32-bit ids as they are. -/
theorem coverageGroups_small {groups : List ReuseGroup}
    (hold : ∀ g ∈ groups, ∀ id ∈ g.oldIds, id < 2 ^ 32)
    (hnew : ∀ g ∈ groups, ∀ id ∈ g.newIds, id < 2 ^ 32) :
    coverageGroups groups = groups.map (fun g => (g.oldIds, g.newIds)) := by
  unfold coverageGroups
  refine map_congr_left (fun g hg => ?_)
  refine Prod.ext (map_congr_left (fun n hn => ?_)) (map_congr_left (fun n hn => ?_))
  · exact Nat.mod_eq_of_lt (hold g hg n.1 (mem_map_of_mem hn))
  · exact Nat.mod_eq_of_lt (hnew g hg n.1 (mem_map_of_mem hn))

/-- A step built from a version has the version's groups. -/
theorem addGroups_groups : ∀ (raws : List ReuseGroup) (step out : RemapStep),
    addGroups raws step = .ok out → out.groups.map (fun g => (g.oldIds, g.newIds)) =
      step.groups.map (fun g => (g.oldIds, g.newIds)) ++ coverageGroups raws := by
  intro raws
  induction raws with
  | nil =>
    intro step out h
    cases h
    exact (append_nil _).symm
  | cons raw rest ih =>
    intro step out h
    simp only [addGroups, addGroup, bind_eq_ok, pure_eq_ok] at h
    rcases h with ⟨next, ⟨parts, -, _, -, _, -, rfl⟩, hrest⟩
    rw [ih _ out hrest, map_append, append_assoc]
    rfl

theorem buildSteps_groups : ∀ (versions : List ReuseVersion) (steps : List RemapStep),
    buildSteps versions = .ok steps →
      (steps.flatMap (·.groups)).map (fun g => (g.oldIds, g.newIds)) =
        coverageGroups (versions.flatMap (·.groups)) := by
  intro versions
  induction versions with
  | nil =>
    intro steps h
    cases h
    rfl
  | cons version rest ih =>
    intro steps h
    simp only [buildSteps, buildStep, bind_eq_ok, pure_eq_ok] at h
    rcases h with ⟨step, hstep, others, hothers, rfl⟩
    have hgroups := addGroups_groups version.groups {} step hstep
    rw [flatMap_cons, map_append, hgroups, ih others hothers, flatMap_cons]
    simp [coverageGroups]

/-- Without new fragments it does not matter where their ids start. -/
theorem compactionGroups_next (original : Manifest) :
    ∀ (rewrites : List CompactionRewrite), (∀ r ∈ rewrites, r.newFragments = []) →
    ∀ next other, compactionGroups vectors original rewrites next =
      compactionGroups vectors original rewrites other := by
  intro rewrites
  induction rewrites with
  | nil => exact fun _ _ _ => rfl
  | cons r rest ih =>
    intro hnone next other
    have hr := hnone r (.head _)
    have hrest := ih (fun x hx => hnone x (.tail _ hx))
      (next + r.newFragments.length) (other + r.newFragments.length)
    rw [compactionGroups, compactionGroups, hrest, hr]
    rfl

/-- Moving coverage changes nothing else of a segment. -/
theorem remapIndex_keeps (index : IndexMetadata) :
    ∃ ids changed, remapIndex groups index =
      { index with fragmentIds := ids, fragmentBitmapChanged := changed } := by
  unfold remapIndex
  split
  · exact ⟨index.fragmentIds, index.fragmentBitmapChanged, rfl⟩
  · exact ⟨_, _, rfl⟩

theorem remapCoverage_nil : remapCoverage [] groups = [] := by
  have hgroup : ∀ g : List Nat × List Nat, remapGroup [] g = [] := by
    intro g
    refine eq_nil_iff_forall_not_mem.mpr (fun id hid => ?_)
    rw [mem_remapGroup, coversWhole_iff] at hid
    rcases hid with ⟨h, -⟩ | ⟨⟨hne, -, hall⟩, -⟩
    · exact not_mem_nil h
    · rcases exists_mem_of_ne_nil g.1 hne with ⟨x, hx⟩
      exact not_mem_nil (hall x hx)
  unfold remapCoverage
  show groups.foldl remapGroup [] = []
  induction groups with
  | nil => rfl
  | cons g rest ih => rw [foldl_cons, hgroup, ih]

theorem remapIndex_ids {s : IndexMetadata} (hsystem : isSystemIndex s = false)
    (hunknown : s.hasFragmentBitmap = false → s.fragmentIds = []) :
    (remapIndex groups s).fragmentIds = remapCoverage s.fragmentIds groups := by
  unfold remapIndex
  grind [remapCoverage_nil]

/-- What a reserving commit leaves: the latest version but for files of nothing but tombstones, with
    ids reserved after the last one used. -/
structure Reserves (latest reserved : Manifest) (count : Nat) : Prop where
  indices : reserved.indices = latest.indices
  fields : reserved.fields = latest.fields
  rows : ∃ tidy : DataFragment → DataFragment, (tidy = id ∨ tidy = dropTombstoneFiles) ∧
    ∀ g, g ∈ reserved.fragments ↔ ∃ f ∈ latest.fragments, g = tidy f
  ids : (reserved.fragments.map (·.id)).Perm (latest.fragments.map (·.id))
  first : 0 < count → firstNewId reserved count = nextFragmentId latest

variable {reserved : Manifest}

theorem firstNewId_eq (hcount : 0 < count) (hroom : next + count ≤ 2 ^ 32 - 1)
    (hmark : reserved.maxFragmentId = some (next + count - 1)) :
    firstNewId reserved count = next := by
  unfold firstNewId
  rw [hmark, Option.getD_some]
  omega

/-- A reservation changes the high-water mark only. -/
theorem reserveManifest_keeps (m : Manifest) (count : Nat) :
    ∃ mark, reserveManifest m count = { m with maxFragmentId := mark } := by
  unfold reserveManifest noteFragmentId
  split
  · exact ⟨m.maxFragmentId, rfl⟩
  · split
    · exact ⟨_, rfl⟩
    · exact ⟨m.maxFragmentId, rfl⟩

/-- The mark is below the ids reserved, so it is raised to the last of them. -/
theorem reserveManifest_mark (hcount : 0 < count) (hroom : nextFragmentId m + count ≤ 2 ^ 32 - 1) :
    (reserveManifest m count).maxFragmentId = some (nextFragmentId m + count - 1) := by
  unfold reserveManifest noteFragmentId
  rw [if_neg (by omega), if_pos]
  · grind
  · cases hm : m.maxFragmentId with
    | none => rfl
    | some top =>
      have := mark_lt_nextFragmentId hm
      exact decide_eq_true (by omega)

theorem highWater_of_le (top : Nat) (fragments : List DataFragment) (htop : top < 2 ^ 32)
    (h : ∀ f ∈ fragments, f.id ≤ top) : highWater (some top) fragments = some top := by
  unfold highWater
  simp only [Option.isNone_some, Bool.false_and, Bool.false_eq_true, if_false, Option.getD_some,
    Option.some.injEq]
  have hfold : fragments.foldl (fun maxId f => max maxId f.id) top = top := by
    clear htop
    induction fragments with
    | nil => rfl
    | cons f rest ih =>
      rw [foldl_cons, Nat.max_eq_left (h f (.head _))]
      exact ih (fun g hg => h g (.tail _ hg))
  rw [hfold]
  omega

/-- A reservation is right when it is made on the version it was read at, and otherwise when the
    latest version's high-water mark is. -/
theorem reserveIds_ok (hsame : theirs = [] → latest = original)
    (hmark : theirs ≠ [] → latest.maxFragmentId = some (nextFragmentId latest - 1) ∧
      0 < nextFragmentId latest) (hroom : nextFragmentId latest + count ≤ 2 ^ 32 - 1)
    (h : reserveIds original latest theirs count = .ok reserved) :
    Reserves latest reserved count := by
  unfold reserveIds at h
  by_cases hnone : theirs = []
  · rw [hnone, isEmpty_nil, if_pos rfl, Except.ok.injEq] at h
    rw [← hsame hnone] at h
    subst h
    rcases reserveManifest_keeps latest count with ⟨mark, hkeep⟩
    refine ⟨by rw [hkeep], by rw [hkeep], ⟨id, .inl rfl, fun g => ?_⟩, ?_, fun hcount => ?_⟩
    · simp [id_eq, hkeep]
    · simp [hkeep]
    · exact firstNewId_eq hcount hroom (reserveManifest_mark hcount hroom)
  · rcases hmark hnone with ⟨htop, hpos⟩
    rw [if_neg (by simpa using hnone)] at h
    rcases rebaseCommit_reserve h with ⟨hindices, hfrags, hfields, -, hmax⟩
    refine ⟨hindices, hfields, ⟨dropTombstoneFiles, .inr rfl, fun g => ?_⟩, ?_, fun hcount => ?_⟩
    · grind [mem_sortFragments]
    · rw [hfrags, map_map]
      exact (perm_insertionSort _ latest.fragments).map _
    · refine firstNewId_eq hcount hroom ?_
      have hsum : (latest.maxFragmentId.getD 0 + count % 2 ^ 32) % 2 ^ 32 =
          nextFragmentId latest + count - 1 := by
        rw [htop, Option.getD_some]
        omega
      rw [hmax, hsum]
      refine highWater_of_le _ _ (by omega) (fun f hf => ?_)
      rw [hfrags, mem_map] at hf
      rcases hf with ⟨g, hg, rfl⟩
      have hlt := lt_nextFragmentId ((mem_sortFragments g _).mp hg)
      show g.id ≤ _
      omega

/-- What a compaction that commits went through. -/
theorem compactCommit_ok {vectors : DeletionVectors} {defer : Bool} {c : Compaction}
    (hwork : c.rewrites.all (fun r => r.oldFragmentIds.isEmpty) = false)
    (h : compactCommit vectors defer original latest theirs c = .ok out) :
    (∀ id ∈ c.rewritten, latest.fragment? id ≠ none ∧ latest.fragment? id = original.fragment? id) ∧
      ∃ reserved, reserveIds original latest theirs c.created.length = .ok reserved ∧
        compactionManifest vectors defer original reserved c = .ok out := by
  rw [compactCommit, hwork, if_neg (by simp only [Bool.false_eq_true, not_false_eq_true])] at h
  simp only [bind_eq_ok] at h
  rcases h with ⟨_, -, _, -, _, hunchanged, reserved, hreserved, hout⟩
  exact ⟨(checkUnchanged_eq_ok original latest c.rewritten _).mp hunchanged,
    reserved, hreserved, hout⟩

end NanoLance
