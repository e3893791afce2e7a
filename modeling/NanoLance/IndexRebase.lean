import NanoLance.OverlayRebase

/-!
# Coverage Across a Rebase

An index built on one version covers fragments whose values it has read. When
another writer commits first, the CreateIndex is applied over that commit, and
the fragments whose indexed values the other change rewrote must not stay in
the index's coverage. The reference is the other order: the index committed
first and the change applied over it, which prunes the coverage of every index
present.

The two orders are computed for each kind of change. Rebasing a CreateIndex
prunes for a concurrent Update only. Applied over the index, a Merge that moved
a field's data file, a DataReplacement of a field above the indexed one, and a
Merge or a Project that dropped an indexed field prune or remove it too, and
none of these pairs is refused. `coverageSurvives` is the condition that none
of the three happens.

## Theorems

* `index_rebase_iff`: Both orders agree exactly when the coverage survives.
* `merged_fragment_stays_covered`: A fragment whose column a merge rewrote stays
  covered by an index rebased over the merge.
-/

namespace NanoLance

open List Lib

/-- The index with a uuid covers a fragment. -/
def Covers (m : Manifest) (uuid id : Nat) : Prop :=
  ∃ i ∈ m.indices, i.uuid = uuid ∧ id ∈ i.fragmentIds

/-- A CreateIndex made from a base: one new index on live fields, covering fragments of the base. -/
structure MakesIndex (base : Manifest) (ours : Operation) (index : IndexMetadata) : Prop where
  kind : ours.kind = .createIndex
  new : ours.newIndices = [index]
  bitmap : index.hasFragmentBitmap = true
  user : isSystemIndex index = false
  live : fieldsLive base.fields index = true
  covered : ∀ id ∈ index.fragmentIds, id < 2 ^ 32 ∧ ∃ f ∈ base.fragments, f.id = id

/-- A uuid that neither an index of the base nor the other change has. -/
structure FreshUuid (base : Manifest) (theirs : Operation) (uuid : Nat) : Prop where
  base : ∀ i ∈ base.indices, i.uuid ≠ uuid
  rewritten : ∀ ri ∈ theirs.rewrittenIndices, ri.oldId ≠ uuid ∧ ri.newId ≠ uuid

/-- The change rewrites the values of an indexed field in a fragment, as far as applying it over the
    index prunes for it. -/
def rewritesCovered (m : Manifest) (theirs : Operation) (index : IndexMetadata) (id : Nat) : Bool :=
  match theirs.kind with
  | .update => touches index theirs.fieldsModified && id ∈ theirs.updatedFragments.map (·.id)
  | .merge => theirs.fragments.any (fun f => f.id = id &&
      (lastWithId m.fragments id).any (fun old => touches index (rewrittenFields old f)))
  | .dataReplacement =>
    touches index (replacedFields m.fields theirs) && id ∈ theirs.replacements.map Prod.fst
  | _ => false

/-- The other change is one a rebase prunes for, or one that rewrites no indexed field in a covered
    fragment and leaves the fields of an index that covers anything in the schema. -/
def coverageSurvives (base : Manifest) (theirs : Operation) (index : IndexMetadata) : Bool :=
  theirs.kind = .update ||
    (index.fragmentIds.all (fun id => !rewritesCovered base theirs index id) &&
      (index.fragmentIds.isEmpty || !theirs.hasSchema || fieldsLive theirs.schema index))

variable {m applied : Manifest} {before : List DataFragment} {theirs : Operation} {stable : Bool}
  {id : Nat} {next indices : List IndexMetadata} {rewritten : List RewrittenIndex} {seen : List Nat}

section

variable (fragments : List DataFragment) (index : IndexMetadata)

/-- The coverage of a new index is cut to the fragments present. -/
theorem presentCoverage_ids :
    (presentCoverage fragments index).fragmentIds
      = index.fragmentIds.filter (fun id => fragments.any (fun f => f.id = id)) := by
  rw [presentCoverage]
  split
  · rfl
  · rename_i hlen
    have heq := not_not.mp hlen
    rw [length_filter_eq_length_iff] at heq
    exact (filter_eq_self.mpr heq).symm

theorem presentCoverage_uuid :
    (presentCoverage fragments index).uuid = index.uuid := by
  rw [presentCoverage]
  split
  · rfl
  · rfl

/-- A new index whose fragments are all present is put in as it is. -/
theorem presentCoverage_self (h : ∀ id ∈ index.fragmentIds, ∃ f ∈ fragments, f.id = id) :
    presentCoverage fragments index = index := by
  rw [presentCoverage]
  split
  · rename_i hlen
    refine absurd ?_ hlen
    rw [length_filter_eq_length_iff]
    grind
  · rfl

/-- One new index of a fresh uuid goes after the indices kept. -/
theorem putNewIndices_fresh {kept : List IndexMetadata} (hfresh : ∀ i ∈ kept, i.uuid ≠ index.uuid)
    (h : putNewIndices fragments [index] kept = .ok next) :
    next = kept ++ [presentCoverage fragments index] := by
  simp only [putNewIndices, bind_eq_ok, Except.ok.injEq] at h
  grind [putIndex, presentCoverage_uuid]

end

/-- Pruning changes nothing of an index but its coverage. -/
theorem pruneIndex_keeps (fragments fieldsModified : List Nat) (index : IndexMetadata) :
    (pruneIndex fragments fieldsModified index).uuid = index.uuid ∧
      (pruneIndex fragments fieldsModified index).name = index.name ∧
      (pruneIndex fragments fieldsModified index).fields = index.fields ∧
      (pruneIndex fragments fieldsModified index).hasFragmentBitmap = index.hasFragmentBitmap := by
  grind [pruneIndex]

variable {index : IndexMetadata} {fields : List Field} {fragments : List DataFragment}
  {version uuid : Nat} {out base latest : Manifest} {groups : List RewriteGroup}

/-- What pruning leaves of an index's coverage. -/
theorem mem_pruneIndex (fragments fieldsModified : List Nat) (id : Nat)
    (hbit : index.hasFragmentBitmap = true) :
    id ∈ (pruneIndex fragments fieldsModified index).fragmentIds ↔
      id ∈ index.fragmentIds ∧ ¬ (touches index fieldsModified = true ∧ id ∈ fragments) := by
  rw [pruneIndex, hbit, Bool.and_true]
  grind

/-- Pruning for no fields or no fragments leaves an index as it is, so the source's early return is
    the same map. -/
theorem pruneUpdatedFields_eq_map (indices : List IndexMetadata)
    (fragments fieldsModified : List Nat) :
    pruneUpdatedFields indices fragments fieldsModified
      = indices.map (pruneIndex fragments fieldsModified) := by
  rw [pruneUpdatedFields]
  split
  · rename_i hnone
    symm
    rw [map_id'' (fun index => ?_)]
    rw [pruneIndex]
    split
    · rename_i htouch
      rw [Bool.or_eq_true, List.isEmpty_iff, List.isEmpty_iff] at hnone
      rcases hnone with rfl | rfl
      · grind [touches]
      · simp
    · rfl
  · rfl

/-- One index through a merge's pruning. -/
def pruneMerged (before : List DataFragment) : List DataFragment → IndexMetadata → IndexMetadata
  | [], index => index
  | f :: rest, index =>
    match lastWithId before f.id with
    | none => pruneMerged before rest index
    | some old => pruneMerged before rest (pruneIndex [f.id] (rewrittenFields old f) index)

theorem pruneMergeRewritten_eq_map :
    ∀ (after : List DataFragment) (indices : List IndexMetadata),
      pruneMergeRewritten before after indices = indices.map (pruneMerged before after) := by
  intro after
  induction after with
  | nil =>
    intro indices
    rw [pruneMergeRewritten]
    exact (map_id'' (fun _ => rfl) indices).symm
  | cons f rest ih =>
    intro indices
    rw [pruneMergeRewritten]
    cases hold : lastWithId before f.id with
    | none => simp only [ih, pruneMerged, hold]
    | some old => simp [ih, pruneUpdatedFields_eq_map, pruneMerged, hold]

theorem pruneMerged_keeps :
    ∀ (after : List DataFragment) (index : IndexMetadata),
      (pruneMerged before after index).uuid = index.uuid ∧
        (pruneMerged before after index).name = index.name ∧
        (pruneMerged before after index).fields = index.fields := by
  intro after
  induction after with
  | nil => exact fun index => ⟨rfl, rfl, rfl⟩
  | cons f rest ih =>
    intro index
    rw [pruneMerged]
    cases lastWithId before f.id with
    | none => exact ih index
    | some old =>
      rcases pruneIndex_keeps [f.id] (rewrittenFields old f) index with ⟨hu, hn, hf, _⟩
      grind

/-- What a merge leaves of an index's coverage: a fragment goes when one of the merge's fragments of
    its id has an indexed field in another file. -/
theorem mem_pruneMerged :
    ∀ (after : List DataFragment) (index : IndexMetadata), index.hasFragmentBitmap = true →
      (id ∈ (pruneMerged before after index).fragmentIds ↔
        id ∈ index.fragmentIds ∧ ∀ f ∈ after, f.id = id → ∀ old, lastWithId before id = some old →
          touches index (rewrittenFields old f) = false) := by
  intro after
  induction after with
  | nil => simp [pruneMerged, implies_true]
  | cons f rest ih =>
    intro index hbit
    rw [pruneMerged]
    cases hold : lastWithId before f.id with
    | none => grind
    | some old =>
      have hkeep := pruneIndex_keeps [f.id] (rewrittenFields old f) index
      have htouch : ∀ l, touches (pruneIndex [f.id] (rewrittenFields old f) index) l
          = touches index l := fun l => by rw [touches, touches, hkeep.2.2.1]
      rw [ih _ (hkeep.2.2.2.trans hbit), mem_pruneIndex _ _ _ hbit, forall_mem_cons]
      simp only [htouch, mem_singleton, not_and]
      constructor
      · grind
      · grind

/-- What applying a change prunes an index for. -/
def pruneBy (m : Manifest) (theirs : Operation) (index : IndexMetadata) : IndexMetadata :=
  match theirs.kind with
  | .update => pruneIndex (theirs.updatedFragments.map (·.id)) theirs.fieldsModified index
  | .merge => pruneMerged m.fragments theirs.fragments index
  | .dataReplacement =>
    pruneIndex (theirs.replacements.map Prod.fst) (replacedFields m.fields theirs) index
  | _ => index

theorem pruneBy_keeps (m : Manifest) (theirs : Operation) (index : IndexMetadata) :
    (pruneBy m theirs index).uuid = index.uuid ∧ (pruneBy m theirs index).name = index.name ∧
      (pruneBy m theirs index).fields = index.fields := by
  have hprune : ∀ fragments fields, (pruneIndex fragments fields index).uuid = index.uuid ∧
      (pruneIndex fragments fields index).name = index.name ∧
      (pruneIndex fragments fields index).fields = index.fields := fun fragments fields =>
    let h := pruneIndex_keeps fragments fields index
    ⟨h.1, h.2.1, h.2.2.1⟩
  rw [pruneBy]
  split
  · exact hprune _ _
  · exact pruneMerged_keeps _ index
  · exact hprune _ _
  · exact ⟨rfl, rfl, rfl⟩

theorem mem_pruneBy (hbit : index.hasFragmentBitmap = true) :
    id ∈ (pruneBy m theirs index).fragmentIds ↔
      id ∈ index.fragmentIds ∧ rewritesCovered m theirs index id = false := by
  rw [pruneBy, rewritesCovered]
  cases theirs.kind with
  | update => simp [mem_pruneIndex, hbit]
  | merge =>
    simp only []
    rw [mem_pruneMerged _ _ hbit, any_eq_false]
    refine and_congr_right fun _ => forall_congr' fun f => forall_congr' fun _ => ?_
    simp only [Bool.and_eq_true, decide_eq_true_eq, Option.any_eq_true, not_and, not_exists,
      Bool.not_eq_true]
  | dataReplacement => simp [mem_pruneIndex, hbit]
  | _ => simp only [and_true]

/-- The index with a uuid, the only one. -/
def Sole (indices : List IndexMetadata) (index : IndexMetadata) : Prop :=
  index ∈ indices ∧ ∀ i ∈ indices, i.uuid = index.uuid → i = index

theorem Sole.append_fresh (kept : List IndexMetadata) (index : IndexMetadata)
    (h : ∀ i ∈ kept, i.uuid ≠ index.uuid) : Sole (kept ++ [index]) index := by
  refine ⟨mem_append_right _ (mem_singleton.mpr rfl), fun i hi hu => ?_⟩
  grind

theorem Sole.map (indices : List IndexMetadata) (index : IndexMetadata)
    (g : IndexMetadata → IndexMetadata) (hg : ∀ i, (g i).uuid = i.uuid) (h : Sole indices index) :
    Sole (indices.map g) (g index) := by
  refine ⟨mem_map.mpr ⟨index, h.1, rfl⟩, fun i hi hu => ?_⟩
  rcases mem_map.mp hi with ⟨j, hj, rfl⟩
  rw [hg, hg] at hu
  rw [h.2 j hj hu]

theorem Sole.covers_iff (h : Sole m.indices index) (id : Nat) :
    Covers m index.uuid id ↔ id ∈ index.fragmentIds := by
  constructor
  · rintro ⟨i, hi, hu, hid⟩
    rwa [h.2 i hi hu] at hid
  · exact fun hid => ⟨index, h.1, rfl, hid⟩

/-- The coverage that survives a commit's upkeep: of a fragment still present, exactly the coverage
    of an index on live fields. -/
theorem retained_covers (hm : m.indices = retainRelevantIndices indices fields fragments)
    (hsole : Sole indices index) (huser : isSystemIndex index = false) (hid : id < 2 ^ 32)
    (hpresent : id ∈ fragments.map (·.id)) :
    Covers m index.uuid id ↔ fieldsLive fields index = true ∧ id ∈ index.fragmentIds := by
  rw [Covers, hm]
  constructor
  · rintro ⟨i, hi, hu, hcov⟩
    have hmem := mem_retainRelevantIndices hi
    have heq := hsole.2 i hmem.1 hu
    grind
  · rintro ⟨hlive, hcov⟩
    refine ⟨index, mem_retain_of_covers hsole.1 ?_ ?_, rfl, hcov⟩
    · rw [hlive, Bool.or_true]
    · grind [coversNothing]

theorem finish_ids :
    id ∈ (finish m stable).fragments.map (·.id) ↔ id ∈ m.fragments.map (·.id) := by
  simp [finish_fragments, mem_sortFragments, dropTombstoneFiles]

theorem substitute_ids (removed : List Nat) (updated : Nat → Option DataFragment)
    (hid : ∀ id u, updated id = some u → u.id = id) (fragments : List DataFragment) :
    (substitute removed updated fragments).map (·.id)
      = (fragments.map (·.id)).filter (fun id => id ∉ removed) := by
  rw [substitute, map_map, filter_map]
  refine map_congr_left fun f _ => ?_
  rw [Function.comp_apply]
  cases hu : updated f.id with
  | none => rfl
  | some u => exact hid f.id u hu

theorem mem_assignIds : ∀ (fragments : List DataFragment) (next : Nat), id < next →
    (id ∈ (assignIds fragments next).1.map (·.id) ↔ ∃ f ∈ fragments, f.id ≠ 0 ∧ f.id = id) := by
  intro fragments
  induction fragments with
  | nil => simp only [assignIds, map_nil, not_mem_nil, false_and, exists_false, implies_true]
  | cons x rest ih =>
    intro next hlt
    rw [assignIds]
    by_cases hx : x.id = 0
    · grind
    · grind

theorem stampMissingRowMeta_ids :
    ∀ (fragments : List DataFragment) (nextRowId : Nat) (out : List DataFragment × Nat),
      stampMissingRowMeta version fragments nextRowId = .ok out →
      out.1.map (·.id) = fragments.map (·.id) := by
  intro fragments
  induction fragments with
  | nil =>
    intro nextRowId out h
    rw [stampMissingRowMeta, Except.ok.injEq] at h
    rw [← h]
  | cons f rest ih =>
    intro nextRowId out h
    simp only [stampMissingRowMeta, bind_eq_ok, pure_eq_ok] at h
    rcases h with ⟨_, _, others, hrest, rfl⟩
    rw [map_cons, map_cons, ih _ others hrest]

/-- Stamping rows changes nothing but row metadata. -/
theorem stampRows_rowMeta {offsets : List Nat} {f g : DataFragment}
    (h : stampRows version offsets f = .ok g) : ∃ rowMeta, g = { f with rowMeta := rowMeta } := by
  rw [stampRows] at h
  split at h
  · rw [Except.ok.injEq] at h
    exact ⟨f.rowMeta, h.symm⟩
  · grind [bind_eq_ok, pure_eq_ok]

theorem stampUpdatedRows_map {β : Type} {key : DataFragment → β}
    (hkey : ∀ f rowMeta, key { f with rowMeta := rowMeta } = key f) :
    ∀ (offsets : List (Nat × (Nat → Except String (List Nat)))) (fragments out : List DataFragment),
      stampUpdatedRows version offsets fragments = .ok out →
      out.map key = fragments.map key := by
  intro offsets
  induction offsets with
  | nil =>
    intro fragments out h
    rw [stampUpdatedRows, Except.ok.injEq] at h
    rw [h]
  | cons entry rest ih =>
    intro fragments out h
    rcases entry with ⟨id, bitmap⟩
    rw [stampUpdatedRows] at h
    cases hfind : fragments.find? (fun f => f.id = id) with
    | none =>
      rw [hfind] at h
      exact ih fragments out h
    | some f =>
      simp only [hfind, bind_eq_ok] at h
      rcases h with ⟨rows, _, stamped, hstamp, hrest⟩
      rcases stampRows_rowMeta hstamp with ⟨rowMeta, rfl⟩
      rw [ih _ out hrest]
      exact map_modifyFirst_find _ _ hfind (hkey f rowMeta)

theorem stampUpdatedRows_ids {offsets : List (Nat × (Nat → Except String (List Nat)))}
    {out : List DataFragment} (h : stampUpdatedRows version offsets fragments = .ok out) :
    out.map (·.id) = fragments.map (·.id) :=
  stampUpdatedRows_map (fun _ _ => rfl) offsets fragments out h

theorem replaceFile_id (fields : List Field) (replaced : List Int) (file : DataFile)
    (f : DataFragment) : (replaceFile fields replaced file f).id = f.id := by
  rw [replaceFile]
  grind

variable {replacements : List (Nat × DataFile)}

/-- What each replacement of files keeps, all of them keep. -/
theorem replaceEach_keeps {replaced : List Int} {P : List DataFragment → Prop}
    {next : List DataFragment}
    (hstep : ∀ r ∈ replacements, ∀ fragments, P fragments → P (modifyFirst (fun f => f.id =
      r.1) (replaceFile fields replaced r.2) fragments))
    (h : replaceEach fields replaced replacements fragments = .ok next) (hP : P fragments) :
    P next := by
  induction replacements generalizing fragments with
  | nil =>
    cases h
    exact hP
  | cons entry rest ih =>
    rw [replaceEach] at h
    split at h
    · cases h
    split at h
    · cases h
    · exact ih (fun r hr => hstep r (.tail _ hr)) h (hstep entry (.head _) _ hP)

theorem replaceEach_ids {replaced : List Int} {next : List DataFragment}
    (h : replaceEach fields replaced replacements fragments = .ok next) :
    next.map (·.id) = fragments.map (·.id) := by
  refine replaceEach_keeps (P := fun l => l.map (·.id) = fragments.map (·.id)) ?_ h rfl
  intro r _ l hl
  rw [map_modifyFirst _ _ (fun x _ => replaceFile_id fields replaced r.2 x), hl]

/-- A merge lists every fragment of its base. -/
theorem mergeValid_ids {op : Operation} {u : Unit} (h : mergeValid m op = .ok u)
    (hid : id ∈ m.fragments.map (·.id)) : id ∈ op.fragments.map (·.id) := by
  simp only [mergeValid, bind_eq_ok] at h
  rcases h with ⟨_, _, h⟩
  split at h
  · cases h
  · simp only [bind_eq_ok, ensure_eq_ok, List.isEmpty_iff, filter_eq_nil_iff] at h
    grind [lastWithId]

theorem appendFragments_ok {next : Manifest} {nextId : Nat}
    (h : appendFragments next fragments nextId stable version = .ok out) :
    out.indices = next.indices ∧ out.fields = next.fields ∧ out.fragments.map (·.id) =
      next.fragments.map (·.id) ++ (assignIds fragments nextId).1.map (·.id) := by
  rw [appendFragments] at h
  cases stable with
  | false => grind [pure_eq_ok]
  | true =>
    simp only [if_true, bind_eq_ok, pure_eq_ok] at h
    rcases h with ⟨stamped, hstamp, rfl⟩
    refine ⟨rfl, rfl, ?_⟩
    rw [map_append, stampMissingRowMeta_ids _ _ stamped hstamp]

/-- The kinds that end with `retainRelevantIndices`. -/
def retains : OpKind → Bool
  | .delete | .update | .merge | .project => true
  | _ => false

/-- The fragments of the base, or given an id by the change, that a change leaves. -/
def fragmentStays (m : Manifest) (theirs : Operation) (id : Nat) : Prop :=
  match theirs.kind with
  | .delete => id ∈ m.fragments.map (·.id) ∧ id ∉ theirs.removedIds
  | .update => (id ∈ m.fragments.map (·.id) ∧ id ∉ theirs.removedIds) ∨
      ∃ f ∈ theirs.fragments, f.id ≠ 0 ∧ f.id = id
  | .merge => id ∈ theirs.fragments.map (·.id)
  | _ => id ∈ m.fragments.map (·.id)

/-- What a change makes of the indices and of the fragments' ids, before the finish: the indices
    pruned for it and, for some kinds, weighed anew. -/
structure Maintains (m : Manifest) (theirs : Operation) (out : Manifest) : Prop where
  fields : out.fields = if theirs.hasSchema then theirs.schema else m.fields
  indices : ∃ fragments : List DataFragment,
    (∀ id, id ∈ fragments.map (·.id) ↔ id ∈ out.fragments.map (·.id)) ∧
      out.indices = if retains theirs.kind then
        retainRelevantIndices (m.indices.map (pruneBy m theirs)) out.fields fragments
      else m.indices.map (pruneBy m theirs)
  ids : theirs.kind ≠ .append → ∀ id, id < nextFragmentId m →
    (id ∈ out.fragments.map (·.id) ↔ fragmentStays m theirs id)

theorem Maintains.finish (h : Maintains m theirs applied) :
    Maintains m theirs (finish applied stable) := by
  rcases h.indices with ⟨fragments, hids, hindices⟩
  refine ⟨h.fields, ⟨fragments, fun id => ?_, hindices⟩, fun hne id hlt => ?_⟩
  · rw [hids, finish_ids]
  · rw [finish_ids, h.ids hne id hlt]

theorem maintains_delete (hkind : theirs.kind = .delete) :
    Maintains m theirs (applyDelete (startManifest (some m) theirs) theirs) := by
  have hids := substitute_ids theirs.removedIds (lastWithId theirs.updatedFragments)
    (fun id u hu => key_of_find hu) m.fragments
  refine ⟨rfl, ⟨_, fun id => Iff.rfl, ?_⟩, fun _ id _ => ?_⟩
  · have hid : m.indices.map (pruneBy m theirs) = m.indices :=
      map_id'' (fun index => by rw [pruneBy, hkind]) _
    rw [hid, hkind]
    rfl
  · have hout : (applyDelete (startManifest (some m) theirs) theirs).fragments
        = substitute theirs.removedIds (lastWithId theirs.updatedFragments) m.fragments := rfl
    rw [hout, hids, fragmentStays, hkind, mem_filter, decide_eq_true_eq]

theorem maintains_update (hkind : theirs.kind = .update)
    (h : applyUpdate (startManifest (some m) theirs) theirs (nextFragmentId m) stable version = .ok
      applied) : Maintains m theirs applied := by
  have hids := substitute_ids theirs.removedIds
    (fun id => theirs.updatedFragments.find? (fun f => f.id = id))
    (fun id u hu => key_of_find hu) m.fragments
  simp only [applyUpdate, bind_eq_ok, pure_eq_ok] at h
  rcases h with ⟨kept, hkept, added, hadd, rfl⟩
  rcases appendFragments_ok hadd with ⟨hindices, hfields, hfrag⟩
  have hkeptIds : kept.map (·.id)
      = (m.fragments.map (·.id)).filter (fun id => id ∉ theirs.removedIds) := by
    rw [updateFragments] at hkept
    split at hkept
    · rw [stampUpdatedRows_ids hkept]
      exact hids
    · rw [Except.ok.injEq] at hkept
      rw [← hkept]
      exact hids
  refine ⟨hfields, ⟨added.fragments, fun id => Iff.rfl, ?_⟩, fun _ id hlt => ?_⟩
  · have hmap : m.indices.map (pruneBy m theirs) = added.indices := by
      rw [hindices, pruneUpdatedFields_eq_map]
      refine map_congr_left fun index _ => ?_
      rw [pruneBy, hkind]
    rw [hmap, hkind]
    rfl
  · have hout : (retainIndices added).fragments = added.fragments := rfl
    rw [hout, hfrag, mem_append, mem_assignIds _ _ hlt, hkeptIds, mem_filter,
      fragmentStays, hkind, decide_eq_true_eq]

theorem maintains_merge (hkind : theirs.kind = .merge) :
    Maintains m theirs (applyMerge (startManifest (some m) theirs) theirs) := by
  refine ⟨rfl, ⟨theirs.fragments, fun id => Iff.rfl, ?_⟩, fun _ id _ => ?_⟩
  · have hmap : m.indices.map (pruneBy m theirs)
        = pruneMergeRewritten m.fragments theirs.fragments m.indices := by
      simp [pruneMergeRewritten_eq_map, pruneBy, hkind]
    rw [hmap, hkind]
    rfl
  · rw [fragmentStays, hkind]
    rfl

theorem maintains_project (hkind : theirs.kind = .project) :
    Maintains m theirs (applyProject (startManifest (some m) theirs)) := by
  refine ⟨rfl, ⟨_, fun id => Iff.rfl, ?_⟩, fun _ id _ => ?_⟩
  · have hid : m.indices.map (pruneBy m theirs) = m.indices :=
      map_id'' (fun index => by rw [pruneBy, hkind]) _
    rw [hid, hkind]
    rfl
  · have hout : (applyProject (startManifest (some m) theirs)).fragments
        = m.fragments.map (keepFiles (startManifest (some m) theirs).fields) := rfl
    rw [hout, fragmentStays, hkind, map_map]
    rfl

theorem maintains_dataReplacement (hkind : theirs.kind = .dataReplacement)
    (h : dataReplacement (startManifest (some m) theirs) theirs = .ok applied) :
    Maintains m theirs applied := by
  have hfields : (startManifest (some m) theirs).fields = m.fields := by
    simp [startManifest, Operation.hasSchema, hkind]
  simp only [dataReplacement, bind_eq_ok, pure_eq_ok] at h
  rcases h with ⟨_, _, fragments, hrep, rfl⟩
  have hids := replaceEach_ids hrep
  refine ⟨rfl, ⟨fragments, fun id => Iff.rfl, ?_⟩, fun _ id _ => ?_⟩
  · rw [pruneUpdatedFields_eq_map, hkind, hfields]
    refine map_congr_left fun index _ => ?_
    rw [pruneBy, hkind]
  · rw [hids, fragmentStays, hkind]
    rfl

theorem maintains_append (stable : Bool) (version : Nat) (hkind : theirs.kind = .append)
    (h : appendFragments (startManifest (some m) theirs) theirs.fragments (nextFragmentId m) stable
      version = .ok applied) : Maintains m theirs applied := by
  rcases appendFragments_ok h with ⟨hindices, hfields, _⟩
  refine ⟨hfields, ⟨applied.fragments, fun id => Iff.rfl, ?_⟩, fun hne => absurd hkind hne⟩
  have hid : m.indices.map (pruneBy m theirs) = m.indices :=
    map_id'' (fun index => by rw [pruneBy, hkind]) _
  rw [hid, hkind, hindices]
  rfl

/-- The kinds of change an index may be rebased over, a rewrite apart. -/
abbrev rebasedKinds : List OpKind :=
  [.append, .delete, .update, .merge, .dataReplacement, .project]

theorem applied_maintains
    (hkind : theirs.kind ∈ rebasedKinds)
    (h : applyOperation (some m) theirs false version = .ok out) : Maintains m theirs out := by
  simp only [applyOperation, Option.map_some, Option.getD_some, bind_eq_ok, pure_eq_ok] at h
  rcases h with ⟨_, _, applied, happlied, rfl⟩
  apply Maintains.finish
  rw [applyKind] at happlied
  simp only [rebasedKinds, mem_cons, not_mem_nil, or_false] at hkind
  rcases hkind with hk | hk | hk | hk | hk | hk <;> rw [hk] at happlied <;>
    simp only [Except.ok.injEq] at happlied
  · exact maintains_append _ version hk happlied
  · exact happlied ▸ maintains_delete hk
  · exact maintains_update hk happlied
  · exact happlied ▸ maintains_merge hk
  · exact maintains_dataReplacement hk happlied
  · exact happlied ▸ maintains_project hk

theorem recalculateBitmap_pairwise {old out ids : List Nat}
    (h : recalculateBitmap old groups out = .ok ids) : ids.Pairwise (· < ·) := by
  induction groups generalizing out with
  | nil =>
    rw [recalculateBitmap, Except.ok.injEq] at h
    exact h ▸ ascending_pairwise out
  | cons g rest ih =>
    simp only [recalculateBitmap] at h
    split at h
    · exact ih h
    split at h
    · cases h
    · exact ih h

/-- What each rewritten index keeps, all of them keep. -/
theorem applyRewritten_keeps {P : List IndexMetadata → Prop}
    (hstep : ∀ ri ∈ rewritten, ∀ (indices : List IndexMetadata) (index : IndexMetadata), index.uuid
      = ri.newId → index.fragmentIds.Pairwise (· < ·) → P indices → P (modifyFirst (fun i => i.uuid
      = ri.oldId) (fun _ => index) indices))
    (h : applyRewritten groups rewritten seen indices = .ok next) (hP : P indices) : P next := by
  induction rewritten generalizing seen indices with
  | nil =>
    cases h
    exact hP
  | cons ri rest ih =>
    have hrest := fun r hr => hstep r (.tail _ hr)
    rw [applyRewritten] at h
    split at h
    · cases h
    split at h
    · exact ih hrest h hP
    · next old _ =>
      rcases (bind_eq_ok _ _ _).mp h with ⟨ids, hids, h⟩
      refine ih hrest h (hstep ri (.head _) _ _ rfl ?_ hP)
      exact recalculateBitmap_pairwise hids

/-- A rewrite keeps every index whose uuid it does not name. -/
theorem applyRewritten_sole (hne : ∀ ri ∈ rewritten, ri.oldId ≠ index.uuid ∧ ri.newId ≠ index.uuid)
    (h : applyRewritten groups rewritten seen indices = .ok next) (hsole : Sole indices index) :
    Sole next index := by
  refine applyRewritten_keeps (P := (Sole · index)) (fun ri hri l new hnew _ hl => ⟨?_, ?_⟩) h hsole
  · refine mem_modifyFirst_of_not _ _ hl.1 ?_
    exact decide_eq_false (fun heq => (hne ri hri).1 heq.symm)
  · intro i hi hu
    rcases mem_modifyFirst _ _ hi with hmem | ⟨x, _, _, heq⟩
    · exact hl.2 i hmem hu
    · exact absurd (hnew.symm.trans (heq ▸ hu)) (hne ri hri).2

/-- An index after a rewrite is one of before, or one the rewrite names. -/
theorem mem_applyRewritten (h : applyRewritten groups rewritten seen indices = .ok next) :
    ∀ i ∈ next,
      i ∈ indices ∨ i.uuid ∈ rewritten.map (·.newId) ∧ i.fragmentIds.Pairwise (· < ·) := by
  refine applyRewritten_keeps (P := fun l => ∀ i ∈ l, i ∈ indices ∨
    i.uuid ∈ rewritten.map (·.newId) ∧ i.fragmentIds.Pairwise (· < ·)) ?_ h (fun i hi => .inl hi)
  intro ri hri l new hnew hids hl i hi
  rcases mem_modifyFirst _ _ hi with hmem | ⟨x, _, _, rfl⟩
  · exact hl i hmem
  · exact .inr ⟨mem_map.mpr ⟨ri, hri, hnew.symm⟩, hids⟩

/-- The indices after a rewrite are those before, rewritten. -/
theorem rewrite_indices (hkind : theirs.kind = .rewrite)
    (h : applyOperation (some m) theirs false version = .ok out) :
    ∃ groups, applyRewritten groups theirs.rewrittenIndices [] m.indices = .ok out.indices := by
  simp only [applyOperation, applyKind, hkind, applyRewrite, bind_eq_ok, pure_eq_ok] at h
  rcases h with ⟨_, _, _, ⟨_, _, indices, hind, rfl⟩, rfl⟩
  exact ⟨_, hind⟩

/-- The other change leaves a fresh uuid fresh. -/
theorem applied_fresh (hfresh : FreshUuid base theirs uuid)
    (hkind : theirs.kind = .rewrite ∨ theirs.kind ∈ rebasedKinds)
    (h : applyOperation (some base) theirs false version = .ok latest) :
    ∀ i ∈ latest.indices, i.uuid ≠ uuid := by
  rcases hkind with hkind | hkind
  · rcases rewrite_indices hkind h with ⟨groups, hind⟩
    intro i hi hu
    rcases mem_applyRewritten hind i hi with hin | ⟨hin, -⟩
    · exact hfresh.base i hin hu
    · rcases mem_map.mp hin with ⟨ri, hri, heq⟩
      exact (hfresh.rewritten ri hri).2 (heq.trans hu)
  · rcases (applied_maintains hkind h).indices with ⟨_, _, hind⟩
    have hpruned : ∀ i ∈ base.indices.map (pruneBy base theirs), i.uuid ≠ uuid := by
      intro i hi
      rcases mem_map.mp hi with ⟨j, hj, rfl⟩
      rw [(pruneBy_keeps base theirs j).1]
      exact hfresh.base j hj
    intro i hi
    rw [hind] at hi
    split at hi
    · exact hpruned i (mem_retainRelevantIndices hi).1
    · exact hpruned i hi

variable {ours : Operation}

/-- A CreateIndex of one index of a fresh uuid. -/
theorem createIndex_ok (hkind : ours.kind = .createIndex) (hnew : ours.newIndices = [index])
    (hfresh : ∀ i ∈ m.indices, i.uuid ≠ index.uuid)
    (h : applyOperation (some m) ours false version = .ok out) :
    (∃ kept, (∀ i ∈ kept, i.uuid ≠ index.uuid) ∧
        out.indices = kept ++ [presentCoverage m.fragments index]) ∧
      out.fields = m.fields ∧
      out.fragments = (sortFragments m.fragments).map dropTombstoneFiles := by
  have hfields : (startManifest (some m) ours).fields = m.fields := by
    simp [startManifest, Operation.hasSchema, hkind]
  simp only [applyOperation, applyKind, hkind, applyCreateIndex, hnew, bind_eq_ok, pure_eq_ok] at h
  rcases h with ⟨_, _, _, ⟨indices, hput, rfl⟩, rfl⟩
  have hkept : ∀ i ∈ (startManifest (some m) ours).indices.filter
      (fun i => i.uuid ∉ ours.removedIndices.map (·.uuid)), i.uuid ≠ index.uuid :=
    fun i hi => hfresh i (mem_of_mem_filter hi)
  exact ⟨⟨_, hkept, putNewIndices_fresh _ index hkept hput⟩, hfields, rfl⟩

/-- An index put back in place of the last one, of the same uuid. -/
theorem putBack_last (next : Manifest) {kept : List IndexMetadata} {cut last : IndexMetadata}
    (id : Nat) (hkept : ∀ i ∈ kept, i.uuid ≠ uuid) (hcut : cut.uuid = uuid)
    (hlast : last.uuid = uuid) :
    Covers { next with indices := putBack [last] (kept ++ [cut]) } uuid id ↔
      id ∈ last.fragmentIds := by
  subst hlast
  have hput : putBack [last] (kept ++ [cut]) = kept ++ [last] := by
    rw [putBack, putBack]
    exact modifyFirst_append _ _ kept (fun i hi => decide_eq_false (hkept i hi))
      (decide_eq_true hcut)
  rw [hput]
  exact Sole.covers_iff (m := { next with indices := kept ++ [last] })
    (Sole.append_fresh kept last hkept) id

/-- The coverage a rebased CreateIndex has: the fragments still present, less those a concurrent
    Update rewrote. -/
theorem rebased_covers {made result : Manifest} (id : Nat) (hkind : ours.kind = .createIndex)
    (hnew : ours.newIndices = [index]) (hbit : index.hasFragmentBitmap = true)
    (hfresh : ∀ i ∈ latest.indices, i.uuid ≠ index.uuid)
    (h : rebaseOperation latest made ours [theirs] version = .ok result) :
    Covers result index.uuid id ↔
      (id ∈ index.fragmentIds ∧ id ∈ latest.fragments.map (·.id)) ∧
        ¬ (theirs.kind = .update ∧ rewritesCovered latest theirs index id = true) := by
  have hsame : renumbered ours = ours := by simp [renumbered, hkind]
  simp only [rebaseOperation, hkind, reduceCtorEq, if_false, if_true, hsame, hnew, bind_eq_ok,
    pure_eq_ok, map_cons, map_nil, mem_singleton] at h
  rcases h with ⟨_, _, next, happly, rfl⟩
  rcases (createIndex_ok hkind hnew hfresh happly).1 with ⟨kept, hkept, hindices⟩
  -- The rebased index stands last; only it is taken out, pruned and put back.
  set cut := presentCoverage latest.fragments index with hcut
  have huuid : cut.uuid = index.uuid := presentCoverage_uuid _ _
  have hmine : (kept ++ [cut]).filter (fun i => i.uuid = index.uuid) = [cut] := by
    rw [filter_append, filter_eq_nil_iff.mpr (fun i hi => by simpa using hkept i hi),
      filter_singleton]
    simp [huuid, cond_true]
  have hcutIds : id ∈ cut.fragmentIds ↔
      id ∈ index.fragmentIds ∧ id ∈ latest.fragments.map (·.id) := by
    simp [presentCoverage_ids, hcut]
  have hcutSame : cut.fields = index.fields ∧ cut.hasFragmentBitmap = index.hasFragmentBitmap := by
    rw [hcut, presentCoverage]
    split
    · exact ⟨rfl, rfl⟩
    · exact ⟨rfl, rfl⟩
  rw [hindices, hmine, pruneByUpdates]
  by_cases hupd : theirs.kind = .update
  · rw [if_pos hupd, pruneByUpdates, pruneUpdatedFields_eq_map, map_cons, map_nil,
      putBack_last next id hkept huuid ((pruneIndex_keeps _ _ _).1.trans huuid),
      mem_pruneIndex _ _ _ (hcutSame.2.trans hbit), hcutIds]
    simp [rewritesCovered, hupd, touches, hcutSame.1]
  · rw [if_neg hupd, pruneByUpdates, putBack_last next id hkept huuid huuid, hcutIds]
    simp [hupd]

/-- A file of nothing but tombstones holds no field. -/
theorem onlyTombstones_not_mem {file : DataFile} {id : Int} (hid : 0 ≤ id)
    (h : onlyTombstones file = true) : id ∉ file.fields := by
  rw [onlyTombstones, Bool.and_eq_true, all_eq_true] at h
  grind [tombstone]

theorem fieldFile_dropTombstoneFiles (f : DataFragment) {id : Int} (hid : 0 ≤ id) :
    fieldFile (dropTombstoneFiles f) id = fieldFile f id := by
  rw [fieldFile, fieldFile, dropTombstoneFiles, ← filter_reverse, find?_filter]
  congr 2
  ext file
  by_cases ht : onlyTombstones file = true
  · rw [ht, decide_eq_false (onlyTombstones_not_mem hid ht)]
    rfl
  · simp [ht]

/-- The files of nothing but tombstones that every commit drops change nothing of which fields a
    merge rewrote. -/
theorem rewrittenFields_dropTombstoneFiles (before after : DataFragment) :
    rewrittenFields (dropTombstoneFiles before) after = rewrittenFields before after := by
  rw [rewrittenFields, rewrittenFields]
  congr 1
  have hfile : ∀ id : Int, (0 ≤ id && (fieldFile after id).isSome &&
          fieldFile after id ≠ fieldFile (dropTombstoneFiles before) id)
        = (0 ≤ id && (fieldFile after id).isSome && fieldFile after id ≠ fieldFile before id) := by
    intro id
    by_cases hid : 0 ≤ id
    · rw [fieldFile_dropTombstoneFiles before hid]
    · rw [decide_eq_false hid, Bool.false_and, Bool.false_and, Bool.false_and]
  simp only [hfile]
  rw [dropTombstoneFiles]
  refine filter_flatMap_filter _ _ _ _ fun file hfil id hmem => ?_
  rw [Bool.not_eq_false'] at hfil
  by_cases hid : 0 ≤ id
  · exact absurd hmem (onlyTombstones_not_mem hid hfil)
  · rw [decide_eq_false hid, Bool.false_and, Bool.false_and]

variable {mid : Manifest}

/-- What a change is seen to rewrite does not depend on whether the base went through a commit of
    its own first. -/
theorem rewritesCovered_committed (theirs : Operation) (index : IndexMetadata) (id : Nat)
    (hfields : mid.fields = base.fields)
    (hfragments : mid.fragments = (sortFragments base.fragments).map dropTombstoneFiles) :
    rewritesCovered mid theirs index id = rewritesCovered base theirs index id := by
  have hlast : lastWithId mid.fragments id
      = (lastWithId base.fragments id).map dropTombstoneFiles := by
    rw [lastWithId, hfragments, ← map_reverse,
      find_map_key (fun f : DataFragment => f.id) dropTombstoneFiles (fun _ => rfl),
      sortFragments, findLast_insertionSort (fun f : DataFragment => f.id), lastWithId]
  rw [rewritesCovered, rewritesCovered, hfields, hlast]
  simp only [Option.any_map, rewrittenFields_dropTombstoneFiles]

theorem fragmentStays_committed (theirs : Operation)
    (hids : id ∈ mid.fragments.map (·.id) ↔ id ∈ base.fragments.map (·.id)) :
    fragmentStays mid theirs id ↔ fragmentStays base theirs id := by
  rw [fragmentStays, fragmentStays, hids]

/-- A change that keeps every fragment of its base. -/
theorem stays_of_base
    (hkind : theirs.kind = .merge ∨ theirs.kind = .dataReplacement ∨ theirs.kind = .project)
    (h : applyOperation (some base) theirs false version = .ok latest)
    (hid : id ∈ base.fragments.map (·.id)) : fragmentStays base theirs id := by
  rw [fragmentStays]
  rcases hkind with hk | hk | hk
  · simp only [applyOperation, operationValid, hk, bind_eq_ok] at h
    rcases h with ⟨u, ⟨_, _, _, _, hvalid⟩, _⟩
    rw [hk]
    exact mergeValid_ids hvalid hid
  · rw [hk]
    exact hid
  · rw [hk]
    exact hid

/-- A change other than an Update that rewrites a covered fragment or carries a schema keeps every
    fragment of its base. -/
theorem keepsBase_kind
    (hkind : theirs.kind ∈ rebasedKinds)
    (hupd : theirs.kind ≠ .update)
    (h : rewritesCovered m theirs index id = true ∨ theirs.hasSchema = true) :
    theirs.kind = .merge ∨ theirs.kind = .dataReplacement ∨ theirs.kind = .project := by
  simp only [rebasedKinds, mem_cons, not_mem_nil, or_false] at hkind
  rcases hkind with hk | hk | hk | hk | hk | hk
  · grind [rewritesCovered, Operation.hasSchema]
  · grind [rewritesCovered, Operation.hasSchema]
  · exact absurd hk hupd
  · exact .inl hk
  · exact .inr (.inl hk)
  · exact .inr (.inr hk)

/-- The coverage of an index through a change applied over it: of a fragment still present, what the
    change neither rewrote nor dropped the fields of. -/
theorem applied_covers {other : Manifest} (id : Nat) (hsole : Sole mid.indices index)
    (hbit : index.hasFragmentBitmap = true) (huser : isSystemIndex index = false)
    (hlive : fieldsLive mid.fields index = true) (hkind : theirs.kind ∈ rebasedKinds)
    (h : applyOperation (some mid) theirs false version = .ok other) (hid : id < 2 ^ 32)
    (hpresent : theirs.kind ≠ .append → id ∈ other.fragments.map (·.id)) :
    Covers other index.uuid id ↔
      (theirs.hasSchema = true → fieldsLive theirs.schema index = true) ∧
        id ∈ index.fragmentIds ∧ rewritesCovered mid theirs index id = false := by
  have hmaint := applied_maintains hkind h
  rcases hmaint.indices with ⟨fragments, hids, hindices⟩
  rcases pruneBy_keeps mid theirs index with ⟨huuid, hname, hfields⟩
  have hpruned : Sole (mid.indices.map (pruneBy mid theirs)) (pruneBy mid theirs index) :=
    Sole.map _ index _ (fun i => (pruneBy_keeps mid theirs i).1) hsole
  have huser' : isSystemIndex (pruneBy mid theirs index) = false := by
    rw [isSystemIndex, hname]
    exact huser
  have hschema : fieldsLive other.fields (pruneBy mid theirs index) = true ↔
      (theirs.hasSchema = true → fieldsLive theirs.schema index = true) := by
    rw [hmaint.fields]
    cases theirs.hasSchema with
    | false => simpa only [fieldsLive, hfields, Bool.false_eq_true, if_false, false_implies,
        iff_true] using hlive
    | true => simp only [fieldsLive, hfields, if_true, true_implies]
  rw [← huuid]
  by_cases hret : retains theirs.kind = true
  · rw [hret, if_pos rfl] at hindices
    have hne : theirs.kind ≠ .append := by
      intro heq
      rw [heq] at hret
      exact absurd hret (by decide)
    rw [retained_covers hindices hpruned huser' hid
      ((hids id).mpr (hpresent hne)), hschema, mem_pruneBy hbit]
  · -- The kinds that weigh no index carry no schema either.
    have hno : theirs.hasSchema = false := by
      rw [Operation.hasSchema]
      cases hk : theirs.kind <;> simp_all only [retains, not_true_eq_false, reduceCtorEq,
        decide_false, Bool.or_self, mem_cons, not_mem_nil, or_self, or_false]
    rw [if_neg hret] at hindices
    rw [Sole.covers_iff (m := other) (hindices ▸ hpruned) id, mem_pruneBy hbit]
    simp [hno]

/-- The kinds of change the two orders are compared for. -/
def comparedKinds : List OpKind :=
  [.rewrite, .append, .delete, .update, .merge, .dataReplacement, .project]

/-- An index committed second covers no fragment that it would not cover had it been committed
    first, exactly when the other change is one a rebase prunes for or leaves the covered values and
    the indexed fields alone. -/
theorem index_rebase_iff (base latest made result mid other : Manifest) (ours theirs : Operation)
    (index : IndexMetadata) (v₁ v₂ v₃ v₄ : Nat) (hours : MakesIndex base ours index)
    (hfresh : FreshUuid base theirs index.uuid) (hkind : theirs.kind ∈ comparedKinds)
    (_hverdict : checkTxn ours theirs = .compatible)
    (hlatest : applyOperation (some base) theirs false v₁ = .ok latest)
    (hrebase : rebaseOperation latest made ours [theirs] v₂ = .ok result)
    (hmid : applyOperation (some base) ours false v₃ = .ok mid)
    (hother : applyOperation (some mid) theirs false v₄ = .ok other) :
    (∀ id, Covers result index.uuid id → Covers other index.uuid id) ↔
      coverageSurvives base theirs index = true := by
  rw [comparedKinds, mem_cons] at hkind
  have hlatestFresh := applied_fresh hfresh hkind hlatest
  have hresult := fun id => rebased_covers id hours.kind hours.new hours.bitmap hlatestFresh hrebase
  rcases createIndex_ok hours.kind hours.new hfresh.base hmid with
    ⟨⟨kept, hkept, hindices⟩, hfields, hfragments⟩
  have hbase : ∀ id ∈ index.fragmentIds, id ∈ base.fragments.map (·.id) := by
    intro id hid
    rcases (hours.covered id hid).2 with ⟨f, hf, hfid⟩
    exact mem_map.mpr ⟨f, hf, hfid⟩
  rw [presentCoverage_self base.fragments index (fun id hid => (hours.covered id hid).2)] at hindices
  have hsole : Sole mid.indices index := hindices ▸ Sole.append_fresh kept index hkept
  rcases hkind with hk | hk
  · -- A rewrite leaves the index as it is.
    rcases rewrite_indices hk hother with ⟨groups, hrw⟩
    have hsole' := applyRewritten_sole hfresh.rewritten hrw hsole
    have hsurvive : coverageSurvives base theirs index = true := by
      simp [coverageSurvives, rewritesCovered, Operation.hasSchema, hk]
    simp only [hsurvive, iff_true]
    intro id hcov
    exact (hsole'.covers_iff id).mpr ((hresult id).mp hcov).1.1
  · have hids : ∀ id, id ∈ mid.fragments.map (·.id) ↔ id ∈ base.fragments.map (·.id) := by
      simp [mem_sortFragments, dropTombstoneFiles, hfragments]
    have hmaint := applied_maintains hk hlatest
    have hmaint' := applied_maintains hk hother
    have hpresent : ∀ id ∈ index.fragmentIds, theirs.kind ≠ .append →
        (id ∈ latest.fragments.map (·.id) ↔ fragmentStays base theirs id) ∧
          (id ∈ other.fragments.map (·.id) ↔ fragmentStays base theirs id) := by
      intro id hid hne
      rcases mem_map.mp (hbase id hid) with ⟨f, hf, rfl⟩
      rcases mem_map.mp ((hids f.id).mpr (hbase f.id hid)) with ⟨g, hg, hgid⟩
      have hlt := hgid ▸ lt_nextFragmentId hg
      exact ⟨hmaint.ids hne f.id (lt_nextFragmentId hf), (hmaint'.ids hne f.id hlt).trans
        (fragmentStays_committed theirs (hids f.id))⟩
    have hcovers := fun id hid hstay => applied_covers id hsole
      hours.bitmap hours.user (hfields ▸ hours.live) hk hother hid hstay
    simp only [rewritesCovered_committed theirs index _ hfields hfragments] at hcovers
    by_cases hupd : theirs.kind = .update
    · -- A rebase prunes for an Update just as the Update itself does.
      have hsurvive : coverageSurvives base theirs index = true := by simp [coverageSurvives, hupd]
      simp only [hsurvive, iff_true]
      intro id hcov
      rcases (hresult id).mp hcov with ⟨⟨hid, hin⟩, hno⟩
      refine (hcovers id (hours.covered id hid).1 (fun hne => ?_)).mpr ⟨?_, hid, ?_⟩
      · exact (hpresent id hid hne).2.mpr ((hpresent id hid hne).1.mp hin)
      · simp [Operation.hasSchema, hupd]
      · simpa only [rewritesCovered, hupd, true_and, Bool.not_eq_true] using hno
    · have hresult' : ∀ id, Covers result index.uuid id ↔
          id ∈ index.fragmentIds ∧ id ∈ latest.fragments.map (·.id) := by simp [hresult, hupd]
      constructor
      · intro hall
        -- A change that could rewrite or drop anything keeps every fragment.
        have hcovered : ∀ id ∈ index.fragmentIds,
            (rewritesCovered base theirs index id = true ∨ theirs.hasSchema = true) →
              (theirs.hasSchema = true → fieldsLive theirs.schema index = true) ∧
                rewritesCovered base theirs index id = false := by
          intro id hid hcase
          have hk' := keepsBase_kind hk hupd hcase
          have hne : theirs.kind ≠ .append := by
            rcases hk' with h | h | h <;> rw [h] <;> decide
          have hstay := stays_of_base hk' hlatest (hbase id hid)
          have hin := (hpresent id hid hne).1.mpr hstay
          have hcov := (hcovers id (hours.covered id hid).1
            (fun _ => (hpresent id hid hne).2.mpr hstay)).mp
            (hall id ((hresult' id).mpr ⟨hid, hin⟩))
          exact ⟨hcov.1, hcov.2.2⟩
        rw [coverageSurvives, Bool.or_eq_true, Bool.and_eq_true]
        refine .inr ⟨?_, ?_⟩
        · grind
        · cases hcov : index.fragmentIds with
          | nil => rfl
          | cons id rest =>
            have hid : id ∈ index.fragmentIds := hcov ▸ mem_cons_self
            grind
      · intro hsurvive id hcov
        rcases (hresult' id).mp hcov with ⟨hid, hin⟩
        rw [coverageSurvives, decide_eq_false hupd, Bool.false_or, Bool.and_eq_true,
          all_eq_true] at hsurvive
        refine (hcovers id (hours.covered id hid).1 (fun hne => ?_)).mpr ⟨?_, hid, ?_⟩
        · exact (hpresent id hid hne).2.mpr ((hpresent id hid hne).1.mp hin)
        · grind
        · simpa only [Bool.not_eq_true'] using hsurvive.1 id hid

/-- An index on the column of `twoFragments`, over both fragments. -/
def columnIndex : IndexMetadata :=
  { uuid := 7, name := "a_idx", fields := [0], datasetVersion := 1, hasFragmentBitmap := true,
    fragmentIds := [0, 1] }

def createColumnIndex : Operation :=
  { kind := .createIndex, newIndices := [columnIndex] }

/-- `twoFragments` with the index committed. -/
def indexedFragments : Manifest :=
  { twoFragments with indices := [columnIndex] }

theorem createColumnIndex_makes : MakesIndex twoFragments createColumnIndex columnIndex := by
  refine ⟨rfl, rfl, rfl, by decide, by decide, ?_⟩
  decide

/-- A merge that gives each fragment of `twoFragments` a second column, and the first fragment
    `path` for its first one. -/
def mergeColumn (path : String) : Operation :=
  { kind := .merge
    schema := [{ name := "a", id := 0 }, { name := "b", id := 1 }]
    fragments :=
      [{ id := 0, physicalRows := 3, files := [{ path := path, fields := [0] },
          { path := "2.lance", fields := [1] }] },
       { id := 1, physicalRows := 3, files := [{ path := "1.lance", fields := [0] },
          { path := "3.lance", fields := [1] }] }] }

theorem mergeColumn_fresh (path : String) : FreshUuid twoFragments (mergeColumn path) 7 :=
  ⟨nofun, nofun⟩

/-- A merge that only adds a column leaves both orders agreeing. -/
theorem index_rebase_iff_added_column :
    ∃ latest result other,
      applyOperation (some twoFragments) createColumnIndex false 2 = .ok indexedFragments ∧
        applyOperation (some twoFragments) (mergeColumn "0.lance") false 2 = .ok latest ∧
        rebaseOperation latest indexedFragments createColumnIndex [mergeColumn "0.lance"] 3
          = .ok result ∧
        applyOperation (some indexedFragments) (mergeColumn "0.lance") false 3 = .ok other ∧
        ∀ id, Covers result 7 id → Covers other 7 id :=
  ⟨_, _, _, rfl, rfl, rfl, rfl, (index_rebase_iff twoFragments _ indexedFragments _
    indexedFragments _ createColumnIndex (mergeColumn "0.lance") columnIndex 2 3 2 3
    createColumnIndex_makes (mergeColumn_fresh _) (by decide) (by decide) rfl rfl rfl rfl).mpr
    (by decide)⟩

/-- A merge that rewrote the indexed column of fragment 0 is compatible with the index. Rebased over
    it the index covers the fragment; applied over the index the merge takes the fragment out of its
    coverage. -/
theorem merged_fragment_stays_covered :
    MakesIndex twoFragments createColumnIndex columnIndex ∧
      FreshUuid twoFragments (mergeColumn "n.lance") 7 ∧
      checkTxn createColumnIndex (mergeColumn "n.lance") = .compatible ∧
      ∃ latest result other,
        applyOperation (some twoFragments) createColumnIndex false 2 = .ok indexedFragments ∧
          applyOperation (some twoFragments) (mergeColumn "n.lance") false 2 = .ok latest ∧
          rebaseOperation latest indexedFragments createColumnIndex [mergeColumn "n.lance"] 3
            = .ok result ∧
          applyOperation (some indexedFragments) (mergeColumn "n.lance") false 3 = .ok other ∧
          Covers result 7 0 ∧ ¬ Covers other 7 0 := by
  refine ⟨createColumnIndex_makes, mergeColumn_fresh _, by decide, _, _, _, rfl, rfl, rfl, rfl,
    ⟨columnIndex, ?_, rfl, by decide⟩, ?_⟩
  · exact mem_singleton.mpr rfl
  · rintro ⟨i, hi, _, hid⟩
    have heq : i = { columnIndex with fragmentIds := [1], fragmentBitmapChanged := true } :=
      mem_singleton.mp hi
    rw [heq] at hid
    exact absurd hid (by decide)

end NanoLance
