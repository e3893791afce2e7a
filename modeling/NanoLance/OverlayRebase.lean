import NanoLance.Conflicts
import NanoLance.Transaction

/-!
# Overlays Across a Rebase

A DataOverlay commits new values for some rows of some fragments. A Delete or
an Update made from the version before it is compatible with it by the
conflict table and is rebased onto the version it made. The rebase puts the
change's own fragments in place of the latest ones, and those come from the
base, where the overlays were not yet.

Both operations are followed by what they make of the fragment with an id.
`overlaid_fragment` says what a DataOverlay adds to it, and
`rebased_fragment` what the rebased change leaves of it: the fragment the
change carries for the id where it has one, the latest fragment where it does
not. The overlays survive exactly when the change carries no fragment that the
DataOverlay added to.

## Theorems

* `rebase_keeps_overlays_iff`: A rebase keeps the overlays exactly when the
  change updates none of the fragments given one.
* `deletion_loses_overlay`: A deletion from an overlaid fragment loses the
  overlay.
-/

namespace NanoLance

open List Lib

/-- An overlay with the commit's version in place of its own. -/
def stampOverlay (version : Nat) : OverlayMessage → OverlayMessage
  | .decoded o => .decoded { o with committedVersion := version }
  | .malformed e => .malformed e

/-- The overlays a DataOverlay adds to the fragment with an id. -/
def addedOverlays (version : Nat) (groups : List (Nat × List OverlayMessage)) (id : Nat) :
    List OverlayMessage :=
  (groups.filter (fun g => g.1 = id)).flatMap (fun g => g.2.map (stampOverlay version))

/-- The fragment a Delete or an Update carries for an id: the last one listed for a Delete, the
    first for an Update. -/
def carried (op : Operation) (id : Nat) : Option DataFragment :=
  if op.kind = .delete then lastWithId op.updatedFragments id
  else op.updatedFragments.find? (fun f => f.id = id)

/-- A change made from a base: each fragment it carries is one of the base's with other files or
    deletions, so it has the overlays the base's has. -/
def MadeFrom (base : Manifest) (op : Operation) : Prop :=
  ∀ u ∈ op.updatedFragments, ∃ b, base.fragment? u.id = some b ∧ u.overlays = b.overlays

/-- Every fragment of `latest` still present in `result` carries, in order, all the overlays it
    carries in `latest`. -/
def OverlaysKept (latest result : Manifest) : Prop :=
  ∀ id f g, latest.fragment? id = some f → result.fragment? id = some g →
    f.overlays.Sublist g.overlays

/-- No fragment the change updates and does not remove is given an overlay. -/
def overlaysMissed (ours theirs : Operation) : Bool :=
  theirs.overlayGroups.all (fun g =>
    g.2.isEmpty || g.1 ∈ ours.removedIds || g.1 ∉ ours.updatedFragments.map (·.id))

theorem finish_fragments (m : Manifest) (stable : Bool) :
    (finish m stable).fragments = (sortFragments m.fragments).map dropTombstoneFiles := rfl

theorem finish_fragment (m : Manifest) (stable : Bool) (id : Nat) :
    (finish m stable).fragment? id = (m.fragment? id).map dropTombstoneFiles := by
  rw [Manifest.fragment?, finish_fragments,
    find_map_key (fun f : DataFragment => f.id) dropTombstoneFiles (fun _ => rfl),
    find_sortFragments, Manifest.fragment?]

variable {version : Nat}

theorem appendFragmentOverlays_ok :
    ∀ (overlays : List OverlayMessage) (f g : DataFragment),
      appendFragmentOverlays version overlays f = .ok g →
      g = { f with overlays := f.overlays ++ overlays.map (stampOverlay version) } := by
  intro overlays
  induction overlays with
  | nil =>
    intro f g h
    rw [appendFragmentOverlays, Except.ok.injEq] at h
    rw [← h, map_nil, append_nil]
  | cons o rest ih =>
    intro f g h
    cases o with
    | malformed e => rw [appendFragmentOverlays] at h; exact absurd h (by simp)
    | decoded o =>
      simp only [appendFragmentOverlays, bind_eq_ok] at h
      rcases h with ⟨_, _, hrest⟩
      rw [ih _ g hrest, map_cons, stampOverlay]
      simp

/-- A DataOverlay's groups add their overlays to the fragments they name and leave the others as
    they are. -/
theorem applyOverlayGroups_find :
    ∀ (groups : List (Nat × List OverlayMessage)) (fragments next : List DataFragment),
      applyOverlayGroups version groups fragments = .ok next → ∀ id,
      next.find? (fun f => f.id = id) = (fragments.find? (fun f => f.id = id)).map
        (fun f => { f with overlays := f.overlays ++ addedOverlays version groups id }) := by
  intro groups
  induction groups with
  | nil =>
    intro fragments next h id
    rw [applyOverlayGroups, Except.ok.injEq] at h
    simp [← h, addedOverlays]
  | cons group rest ih =>
    intro fragments next h id
    rcases group with ⟨gid, overlays⟩
    rw [applyOverlayGroups] at h
    cases hfind : fragments.find? (fun f => f.id = gid) with
    | none => rw [hfind] at h; exact absurd h (by simp)
    | some f =>
      simp only [hfind, bind_eq_ok] at h
      rcases h with ⟨overlaid, happ, hrest⟩
      have heq := appendFragmentOverlays_ok overlays f overlaid happ
      have hfid : f.id = gid := key_of_find hfind
      rw [ih _ next hrest id]
      by_cases hid : gid = id
      · -- The group's own fragment: its overlays, then those of later groups.
        subst hid
        rw [find_modifyFirst_self (fun f : DataFragment => f.id) (fun _ => overlaid) gid
          (fun _ _ => by rw [heq]; exact hfid), hfind]
        simp [heq, addedOverlays]
      · rw [find_modifyFirst_other ?_]
        · simp [addedOverlays, hid]
        · intro x hx
          rw [of_decide_eq_true hx, heq]
          exact ⟨hid, by rw [hfid]; exact hid⟩

variable {latest : Manifest}

/-- What a DataOverlay makes of the fragment with an id. -/
theorem overlaid_fragment {base : Manifest} {theirs : Operation}
    (hkind : theirs.kind = .dataOverlay)
    (h : applyOperation (some base) theirs false version = .ok latest) (id : Nat) :
    latest.fragment? id = (base.fragment? id).map (fun f =>
      dropTombstoneFiles
        { f with overlays := f.overlays ++ addedOverlays version theirs.overlayGroups id }) := by
  simp only [applyOperation, applyKind, hkind, bind_eq_ok, pure_eq_ok] at h
  rcases h with ⟨_, _, applied, ⟨fragments, hgroups, rfl⟩, rfl⟩
  rw [finish_fragment]
  have hfind := applyOverlayGroups_find _ _ _ hgroups id
  simp only [Manifest.fragment?] at hfind ⊢
  rw [hfind, Option.map_map]
  rfl

/-- The fragment with an id after a substitution. -/
theorem find_substitute (removed : List Nat) (updated : Nat → Option DataFragment)
    (hid : ∀ id u, updated id = some u → u.id = id) (id : Nat) (fragments : List DataFragment) :
    (substitute removed updated fragments).find? (fun f => f.id = id) =
      if id ∈ removed then none
      else (fragments.find? (fun f => f.id = id)).map (fun f => (updated id).getD f) := by
  have hkeep : ∀ f : DataFragment, ((updated f.id).getD f).id = f.id := by
    intro f
    cases hu : updated f.id with
    | none => rfl
    | some u => exact hid f.id u hu
  induction fragments with
  | nil => simp only [substitute, filter_nil, map_nil, find?_nil, Option.map_none, ite_self]
  | cons x rest ih =>
    rw [substitute] at ih ⊢
    by_cases hx : x.id ∈ removed
    · grind
    · grind

variable {op : Operation} {id : Nat}

theorem carried_id {u : DataFragment} (h : carried op id = some u) :
    u.id = id ∧ u ∈ op.updatedFragments := by
  rw [carried] at h
  split at h
  · exact ⟨key_of_find h, mem_reverse.mp (mem_of_find?_eq_some h)⟩
  · exact ⟨key_of_find h, mem_of_find?_eq_some h⟩

theorem carried_isSome (op : Operation) (id : Nat) (h : id ∈ op.updatedFragments.map (·.id)) :
    ∃ u, carried op id = some u := by
  rcases mem_map.mp h with ⟨u, hu, huid⟩
  rw [carried]
  split
  · refine Option.isSome_iff_exists.mp (find?_isSome.mpr ⟨u, mem_reverse.mpr hu, ?_⟩)
    simpa only [decide_eq_true_eq] using huid
  · refine Option.isSome_iff_exists.mp (find?_isSome.mpr ⟨u, hu, ?_⟩)
    simpa only [decide_eq_true_eq] using huid

/-- Fragments without an id are numbered from the next one on, and the others keep theirs. -/
theorem assignIds_above {bound : Nat} : ∀ (fragments : List DataFragment) (next : Nat),
    bound ≤ next → (∀ f ∈ fragments, f.id = 0 ∨ bound ≤ f.id) →
    ∀ g ∈ (assignIds fragments next).1, bound ≤ g.id := by
  intro fragments
  induction fragments with
  | nil => exact fun _ _ _ => forall_mem_nil _
  | cons x rest ih =>
    intro next hnext hids g hg
    have hrest : ∀ f ∈ rest, f.id = 0 ∨ bound ≤ f.id :=
      fun f hf => hids f (.tail _ hf)
    rw [assignIds] at hg
    grind

theorem assignIds_ge {fragments : List DataFragment} {next : Nat}
    (hzero : ∀ f ∈ fragments, f.id = 0) : ∀ g ∈ (assignIds fragments next).1, next ≤ g.id :=
  assignIds_above fragments next (le_refl next) (fun f hf => .inl (hzero f hf))

variable {result : Manifest}

/-- What a rebased Delete makes of a fragment of the latest version. -/
theorem deleted_fragment (id : Nat) (hkind : op.kind = .delete)
    (h : applyOperation (some latest) op false version = .ok result) :
    result.fragment? id = if id ∈ op.removedIds then none
      else (latest.fragment? id).map (fun f => dropTombstoneFiles ((carried op id).getD f)) := by
  simp only [applyOperation, applyKind, hkind, bind_eq_ok, pure_eq_ok, Except.ok.injEq] at h
  rcases h with ⟨_, _, applied, rfl, rfl⟩
  have hfind := find_substitute op.removedIds (lastWithId op.updatedFragments)
    (fun id u hu => key_of_find hu) id latest.fragments
  rw [finish_fragment]
  simp only [Manifest.fragment?, carried, hkind, if_true] at hfind ⊢
  have hfrag : (applyDelete (startManifest (some latest) op) op).fragments
      = substitute op.removedIds (lastWithId op.updatedFragments) latest.fragments := rfl
  rw [hfrag, hfind]
  split
  · rfl
  · rw [Option.map_map]
    rfl

/-- What a rebased Update makes of a fragment of the latest version. The fragments it adds are
    numbered above the latest ones, so no lookup of an old id meets them. -/
theorem updated_fragment (hkind : op.kind = .update) (hstable : isStable latest = false)
    (hzero : ∀ f ∈ op.fragments, f.id = 0)
    (h : applyOperation (some latest) op false version = .ok result) {f : DataFragment}
    (hf : latest.fragment? id = some f) :
    result.fragment? id = if id ∈ op.removedIds then none
      else some (dropTombstoneFiles ((carried op id).getD f)) := by
  have hstable' : isStable (startManifest (some latest) op) = false := hstable
  simp only [applyOperation, applyKind, hkind, applyUpdate, updateFragments, appendFragments,
    hstable', bind_eq_ok, pure_eq_ok, Except.ok.injEq, Bool.false_and, Bool.or_false,
    Bool.false_eq_true, if_false] at h
  rcases h with ⟨_, _, _, ⟨kept, rfl, _, rfl, rfl⟩, rfl⟩
  have hold : id < nextFragmentId latest := by
    have hlt := lt_nextFragmentId (mem_of_find?_eq_some hf)
    rwa [key_of_find hf] at hlt
  have hnew : (assignIds op.fragments (nextFragmentId latest)).1.find? (fun f => f.id = id)
      = none := by
    rw [find?_eq_none]
    intro g hg hgid
    have hge := assignIds_ge hzero g hg
    grind
  have hfind := find_substitute op.removedIds
    (fun id => op.updatedFragments.find? (fun f => f.id = id))
    (fun id u hu => key_of_find hu) id latest.fragments
  rw [Manifest.fragment?] at hf
  rw [hf, Option.map_some] at hfind
  rw [finish_fragment, Manifest.fragment?]
  grind [retainIndices, startManifest, carried]

/-- What a rebased Delete or Update makes of a fragment of the latest version: gone where the change
    removes it, the change's own where it carries one. -/
theorem rebased_fragment (latest made result : Manifest) (ours : Operation)
    (theirs : List Operation) (version id : Nat)
    (hkind : ours.kind = .delete ∨ ours.kind = .update)
    (h : rebaseOperation latest made ours theirs version = .ok result)
    (f : DataFragment) (hf : latest.fragment? id = some f) :
    result.fragment? id = if id ∈ ours.removedIds then none
      else some (dropTombstoneFiles ((carried ours id).getD f)) := by
  rcases hkind with hkind | hkind
  · simp only [rebaseOperation, hkind, reduceCtorEq, if_false, bind_eq_ok, pure_eq_ok] at h
    rcases h with ⟨_, _, next, happly, rfl⟩
    have hsame : renumbered ours = ours := by simp [renumbered, hkind]
    rw [hsame] at happly
    rw [deleted_fragment id hkind happly, hf, Option.map_some]
  · simp only [rebaseOperation, hkind, reduceCtorEq, if_false, bind_eq_ok, pure_eq_ok,
      ensure_eq_ok] at h
    rcases h with ⟨_, hstable, next, happly, rfl⟩
    have hren : (renumbered ours).removedIds = ours.removedIds ∧
        carried (renumbered ours) id = carried ours id ∧ (renumbered ours).kind = .update ∧
        ∀ f ∈ (renumbered ours).fragments, f.id = 0 := by
      simp [renumbered, carried, hkind]
    rcases hren with ⟨hrem, hcar, hk, hzero⟩
    have hst : isStable latest = false := by simpa using hstable
    rw [updated_fragment hk hst hzero happly hf, hrem,
      hcar]

/-- A DataOverlay adds nothing to a fragment exactly when every group that names it is empty. -/
theorem addedOverlays_eq_nil (version : Nat) (groups : List (Nat × List OverlayMessage)) (id : Nat) :
    addedOverlays version groups id = [] ↔ ∀ g ∈ groups, g.1 = id → g.2 = [] := by
  simp [addedOverlays]

/-- A compatible Delete or Update made from the base of a DataOverlay, rebased over it, keeps the
    overlays of every fragment exactly when it updates none of the fragments the DataOverlay adds
    to. -/
theorem rebase_keeps_overlays_iff (base latest made result : Manifest) (ours theirs : Operation)
    (version version' : Nat) (htheirs : theirs.kind = .dataOverlay)
    (hours : ours.kind = .delete ∨ ours.kind = .update) (hmade : MadeFrom base ours)
    (hlatest : applyOperation (some base) theirs false version = .ok latest)
    (_hverdict : checkTxn ours theirs = .compatible ∨
      checkTxnWithAffectedRows ours theirs base = .compatible)
    (hrebase : rebaseOperation latest made ours [theirs] version' = .ok result) :
    OverlaysKept latest result ↔ overlaysMissed ours theirs = true := by
  have hover := overlaid_fragment htheirs hlatest
  have hreb := rebased_fragment latest made result ours [theirs] version'
  simp only [overlaysMissed, all_eq_true, Bool.or_eq_true, decide_eq_true_eq, List.isEmpty_iff]
  constructor
  · intro hkept g hg
    by_cases hrem : g.1 ∈ ours.removedIds
    · exact .inl (.inr hrem)
    by_cases hupd : g.1 ∈ ours.updatedFragments.map (·.id)
    · -- The change carries the base's fragment, which has none of the new overlays.
      rcases carried_isSome ours g.1 hupd with ⟨u, hu⟩
      rcases carried_id hu with ⟨huid, humem⟩
      rcases hmade u humem with ⟨b, hb, hub⟩
      rw [huid] at hb
      have hf := hover g.1
      rw [hb, Option.map_some] at hf
      have hg' := hreb g.1 hours hrebase _ hf
      rw [if_neg hrem, hu, Option.getD_some] at hg'
      have hsub := hkept g.1 _ _ hf hg'
      simp only [dropTombstoneFiles, hub] at hsub
      have hlen := hsub.length_le
      rw [length_append] at hlen
      have hnil : addedOverlays version theirs.overlayGroups g.1 = [] :=
        eq_nil_of_length_eq_zero (by omega)
      exact .inl (.inl ((addedOverlays_eq_nil _ _ _).mp hnil g hg rfl))
    · exact .inr hupd
  · intro hmiss id f g hf hg
    rw [hreb id hours hrebase f hf] at hg
    by_cases hrem : id ∈ ours.removedIds
    · grind
    rw [if_neg hrem, Option.some.injEq] at hg
    rw [← hg]
    cases hu : carried ours id with
    | none =>
      rw [Option.getD_none]
      exact List.Sublist.refl _
    | some u =>
      rcases carried_id hu with ⟨huid, humem⟩
      rcases hmade u humem with ⟨b, hb, hub⟩
      rw [huid] at hb
      rw [hover id, hb, Option.map_some, Option.some.injEq] at hf
      have hnil : addedOverlays version theirs.overlayGroups id = [] := by
        grind [addedOverlays_eq_nil]
      grind [dropTombstoneFiles]

/-- A dataset of two fragments of one column. -/
def twoFragments : Manifest :=
  { version := 1
    fields := [{ name := "a", id := 0 }]
    fragments :=
      [{ id := 0, physicalRows := 3, files := [{ path := "0.lance", fields := [0] }] },
       { id := 1, physicalRows := 3, files := [{ path := "1.lance", fields := [0] }] }]
    maxFragmentId := some 1 }

/-- New values for the first row of fragment 0. -/
def overlayFirst : Operation :=
  { kind := .dataOverlay
    overlayGroups := [(0, [.decoded
      { dataFile := { path := "o.lance", fields := [0] }, sharedOffsets := [0] }])] }

/-- One row deleted from the fragment with an id. -/
def deleteRowOf (id : Nat) : Operation :=
  { kind := .delete
    updatedFragments := (twoFragments.fragments.filter (fun f => f.id = id)).map
      (fun f => { f with deletionFile := some { readVersion := 1, id := 7, numDeletedRows := 1 } }) }

/-- The version the overlay makes. -/
def overlaidFirst : Manifest :=
  { twoFragments with
    fragments :=
      [{ id := 0, physicalRows := 3, files := [{ path := "0.lance", fields := [0] }],
         overlays := [.decoded { dataFile := { path := "o.lance", fields := [0] },
                                 sharedOffsets := [0], committedVersion := 2 }] },
       { id := 1, physicalRows := 3, files := [{ path := "1.lance", fields := [0] }] }]
    readerFeatureFlags := 64
    writerFeatureFlags := 64 }

theorem overlaidFirst_eq :
    applyOperation (some twoFragments) overlayFirst false 2 = .ok overlaidFirst := by
  rfl

theorem deleteRowOf_madeFrom (id : Nat) : MadeFrom twoFragments (deleteRowOf id) := by
  intro u hu
  rcases mem_map.mp hu with ⟨f, hf, rfl⟩
  have hmem := mem_of_mem_filter hf
  simp only [twoFragments, mem_cons, not_mem_nil, or_false] at hmem
  rcases hmem with rfl | rfl
  · exact ⟨_, rfl, rfl⟩
  · exact ⟨_, rfl, rfl⟩

/-- A deletion from the other fragment keeps the overlay. -/
theorem rebase_keeps_overlays_iff_other_fragment :
    ∃ result, rebaseOperation overlaidFirst twoFragments (deleteRowOf 1) [overlayFirst] 3
      = .ok result ∧ OverlaysKept overlaidFirst result :=
  ⟨_, rfl, (rebase_keeps_overlays_iff twoFragments overlaidFirst twoFragments _ (deleteRowOf 1)
    overlayFirst 2 3 rfl (.inl rfl) (deleteRowOf_madeFrom 1) overlaidFirst_eq
    (.inl (by decide)) rfl).mpr (by decide)⟩

/-- A deletion from the overlaid fragment is compatible, is rebased, and loses the overlay. -/
theorem deletion_loses_overlay :
    MadeFrom twoFragments (deleteRowOf 0) ∧
      applyOperation (some twoFragments) overlayFirst false 2 = .ok overlaidFirst ∧
      checkTxn (deleteRowOf 0) overlayFirst = .compatible ∧
      ∃ result, rebaseOperation overlaidFirst twoFragments (deleteRowOf 0) [overlayFirst] 3
        = .ok result ∧ ¬ OverlaysKept overlaidFirst result := by
  refine ⟨deleteRowOf_madeFrom 0, overlaidFirst_eq, by decide, _, rfl, fun hkept => ?_⟩
  have hsub := hkept 0 _ _ rfl rfl
  exact absurd hsub.length_le (by decide)

end NanoLance
