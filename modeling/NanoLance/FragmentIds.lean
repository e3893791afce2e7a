import NanoLance.CommitVersion
import NanoLance.IndexRebase
import NanoLance.Lib.Runs

/-!
# Fragment Ids over a Dataset's History

Four code paths number fragments: `apply_operation` (a fragment that arrives
with id 0 takes the next id, an overwrite's take it whatever they came with), a
rebase (which sends the ids back to 0 first), a writer's append or overwrite,
and none at all where a version is restored. A history is the list of versions
a dataset has had, the latest first, and a run makes one commit after another.

The high-water mark is what keeps ids from being handed out twice: it is at
least every id any version had (`SoundHistory`), it is carried through overwrites
and restores, and every path numbers above it. `follows_applied`,
`follows_built` and `follows_restored` say of each path what one commit does,
and `fragment_ids_fresh` puts the runs together.

An index may cover a fragment that is added with it: a Rewrite that wrote an
index anew moves the index's coverage to the fragments it wrote.

## Theorems

* `fragment_ids_fresh`: Ids ascend in every version and are never reused.
* `rewritten_index_covers_added`: A remapped index covers an added fragment.
-/

namespace NanoLance

open List Lib

/-- The ids an operation gives to the fragments it adds. -/
def addedIds (nextId : Nat) (op : Operation) : List Nat :=
  match op.kind with
  | .append | .update => (assignIds op.fragments nextId).1.map (·.id)
  | .overwrite => (numberFrom op.fragments nextId).map (·.id)
  | .rewrite => (assignGroupIds op.groups nextId).flatMap (fun g => g.newFragments.map (·.id))
  | _ => []

/-- The fragments of an operation as they arrive: those to be added without an id, and a merge's
    with the ids of the fragments they replace. -/
def Arrives (base : Option Manifest) (op : Operation) : Prop :=
  match op.kind with
  | .append | .update => ∀ f ∈ op.fragments, f.id = 0
  | .rewrite => ∀ g ∈ op.groups, ∀ f ∈ g.newFragments, f.id = 0
  | .merge => (op.fragments.map (·.id)).Nodup ∧
      ∀ f ∈ op.fragments, ∃ m, base = some m ∧ f.id ∈ m.fragments.map (·.id)
  | _ => True

/-- The next fragment id of a dataset that may not exist yet. -/
def nextIdOf (base : Option Manifest) : Nat := (base.map nextFragmentId).getD 0

/-- An id at most the version's high-water mark. -/
def Below (m : Manifest) (id : Nat) : Prop := ∃ top, m.maxFragmentId = some top ∧ id ≤ top

variable (base : Option Manifest) (latest : Manifest) (op : Operation) (next : Manifest)
  (version : Nat)

variable {applied m : Manifest} {nextId : Nat} {stable : Bool} {i : IndexMetadata}
  {history : List Manifest} {commit : FragmentCommit}

section Numbering

theorem numberFrom_groups : ∀ (groups : List RewriteGroup) (next : Nat),
    (∀ g ∈ groups, ∀ f ∈ g.newFragments, f.id = 0) →
    (assignGroupIds groups next).flatMap (fun g => g.newFragments.map (·.id)) =
      range' next (groups.flatMap (·.newFragments)).length := by
  intro groups
  induction groups with
  | nil => exact fun next _ => rfl
  | cons g rest ih =>
    intro next hzero
    rcases forall_mem_cons.mp hzero with ⟨hg, hrest⟩
    have hlast : (assignIds g.newFragments next).2 = next + g.newFragments.length := by
      clear ih hrest hzero
      generalize g.newFragments = fragments at hg
      induction fragments generalizing next with
      | nil => rfl
      | cons f more ihf =>
        rcases forall_mem_cons.mp hg with ⟨hf, hmore⟩
        rw [assignIds, if_pos hf, length_cons]
        grind
    rw [assignGroupIds, flatMap_cons, flatMap_cons, length_append]
    simp only []
    rw [assignIds_zero _ _ hg, numberFrom_ids, hlast, ih _ hrest, range'_append_1]

/-- Added ids are new ones, one after the other. -/
theorem addedIds_eq {base : Option Manifest} (nextId : Nat) {op : Operation}
    (h : Arrives base op) : ∃ count, addedIds nextId op = range' nextId count := by
  unfold Arrives at h
  unfold addedIds
  cases hkind : op.kind with
  | append | update =>
    rw [hkind] at h
    exact ⟨op.fragments.length, by rw [assignIds_zero _ _ h, numberFrom_ids]⟩
  | overwrite => exact ⟨op.fragments.length, numberFrom_ids op.fragments nextId⟩
  | rewrite =>
    rw [hkind] at h
    exact ⟨_, numberFrom_groups op.groups nextId h⟩
  | _ => exact ⟨0, rfl⟩

/-- The ids of the groups' fragments, put in place of the old ones group by group. A later group may
    replace what an earlier one added. -/
theorem applyGroups_ids : ∀ (groups : List RewriteGroup) (fragments out : List DataFragment),
    applyGroups groups fragments = .ok out →
    (fragments.map (·.id) ++ groups.flatMap (fun g => g.newFragments.map (·.id))).Nodup →
    (out.map (·.id)).Nodup ∧ ∀ id ∈ out.map (·.id), id ∈ fragments.map (·.id) ∨
      id ∈ groups.flatMap (fun g => g.newFragments.map (·.id)) := by
  intro groups
  induction groups with
  | nil => grind [applyGroups]
  | cons g rest ih =>
    intro fragments out h hnodup
    rw [applyGroups] at h
    split at h
    · cases h
    · rw [flatMap_cons, ← append_assoc] at hnodup
      have hsub : ((fragments.filter (fun f => f.id ∉ g.oldFragments.map (·.id)) ++
          g.newFragments).map (·.id)).Sublist
            (fragments.map (·.id) ++ g.newFragments.map (·.id)) := by
        rw [map_append]
        exact (filter_sublist.map _).append_right _
      rcases ih _ out h (hnodup.sublist (hsub.append_right _)) with ⟨hout, hids⟩
      refine ⟨hout, fun id hid => ?_⟩
      rw [flatMap_cons, mem_append]
      rcases hids id hid with hold | hnew
      · rcases mem_append.mp (hsub.subset hold) with hin | hin
        · exact .inl hin
        · exact .inr (.inl hin)
      · exact .inr (.inr hnew)

theorem applyOverlayGroups_ids {version : Nat} :
    ∀ (groups : List (Nat × List OverlayMessage)) (fragments out : List DataFragment),
      applyOverlayGroups version groups fragments = .ok out →
      out.map (·.id) = fragments.map (·.id) := by
  intro groups
  induction groups with
  | nil =>
    intro fragments out h
    rw [applyOverlayGroups, Except.ok.injEq] at h
    rw [h]
  | cons group rest ih =>
    intro fragments out h
    rcases group with ⟨id, overlays⟩
    rw [applyOverlayGroups] at h
    cases hfind : fragments.find? (fun f => f.id = id) with
    | none => rw [hfind] at h; cases h
    | some f =>
      simp only [hfind, bind_eq_ok] at h
      rcases h with ⟨overlaid, happ, hrest⟩
      have heq := appendFragmentOverlays_ok overlays f overlaid happ
      have hfid : f.id = id := key_of_find hfind
      rw [ih _ out hrest, map_modifyFirst]
      intro x hx
      rw [heq, of_decide_eq_true hx]
      exact hfid

theorem updateFragments_ids {op : Operation} {version : Nat} {kept : List DataFragment}
    (h : updateFragments next op stable version = .ok kept) :
    kept.map (·.id) = (next.fragments.map (·.id)).filter (fun id => id ∉ op.removedIds) := by
  have hids := substitute_ids op.removedIds
    (fun id => op.updatedFragments.find? (fun f => f.id = id))
    (fun id u hu => key_of_find hu) next.fragments
  unfold updateFragments at h
  simp only [] at h
  split at h
  · rw [stampUpdatedRows_ids h, hids]
  · rw [← Except.ok.inj h, hids]

/-- The ids an operation leaves: distinct, each one of the base's or given out by the operation. -/
theorem applyKind_ids {base : Option Manifest} {next : Manifest} {op : Operation} {version : Nat}
    (hbase : ∀ m, base = some m → next.fragments = m.fragments) (harrives : Arrives base op)
    (hnodup : (next.fragments.map (·.id) ++ addedIds nextId op).Nodup)
    (h : applyKind next op nextId stable version = .ok applied) :
    (applied.fragments.map (·.id)).Nodup ∧ ∀ id ∈ applied.fragments.map (·.id),
      id ∈ next.fragments.map (·.id) ∨ id ∈ addedIds nextId op := by
  have hold : (next.fragments.map (·.id)).Nodup := hnodup.sublist (sublist_append_left _ _)
  have hsame : applied.fragments.map (·.id) = next.fragments.map (·.id) →
      (applied.fragments.map (·.id)).Nodup ∧ ∀ id ∈ applied.fragments.map (·.id),
        id ∈ next.fragments.map (·.id) ∨ id ∈ addedIds nextId op := by grind
  unfold applyKind at h
  cases hkind : op.kind with
  | append =>
    simp only [hkind] at h
    rcases appendFragments_ok h with ⟨-, -, hids⟩
    grind [addedIds]
  | delete =>
    simp only [hkind, Except.ok.injEq] at h
    have hids : applied.fragments.map (·.id) =
        (next.fragments.map (·.id)).filter (fun id => id ∉ op.removedIds) := by
      rw [← h]
      exact substitute_ids op.removedIds (lastWithId op.updatedFragments)
        (fun id u hu => key_of_find hu) next.fragments
    grind
  | update =>
    simp only [hkind, applyUpdate, bind_eq_ok, pure_eq_ok] at h
    rcases h with ⟨kept, hkept, out, hout, rfl⟩
    rcases appendFragments_ok hout with ⟨-, -, hids⟩
    have hall : (retainIndices out).fragments.map (·.id) =
        (next.fragments.map (·.id)).filter (fun id => id ∉ op.removedIds) ++
          (assignIds op.fragments nextId).1.map (·.id) :=
      hids.trans (by rw [updateFragments_ids next hkept])
    grind [addedIds]
  | overwrite =>
    have hids : applied.fragments.map (·.id) = (numberFrom op.fragments nextId).map (·.id) := by
      cases stable with
      | true =>
        simp only [hkind, applyOverwrite, if_true, bind_eq_ok, pure_eq_ok] at h
        rcases h with ⟨added, hadded, bases, -, rfl⟩
        exact stampMissingRowMeta_ids _ _ added hadded
      | false => grind [applyOverwrite, bind_eq_ok, pure_eq_ok]
    grind [addedIds]
  | rewrite =>
    simp only [hkind, applyRewrite, bind_eq_ok, pure_eq_ok] at h
    rcases h with ⟨fragments, hfragments, indices, -, rfl⟩
    simp only [addedIds, hkind] at hnodup ⊢
    exact applyGroups_ids _ _ fragments hfragments hnodup
  | merge =>
    simp only [hkind, Except.ok.injEq] at h
    simp only [Arrives, hkind] at harrives
    rw [← h]
    refine ⟨harrives.1, fun id hid => .inl ?_⟩
    rcases mem_map.mp hid with ⟨f, hf, rfl⟩
    rcases harrives.2 f hf with ⟨m, hm, hin⟩
    rw [hbase m hm]
    exact hin
  | project =>
    simp only [hkind, Except.ok.injEq] at h
    refine hsame ?_
    rw [← h]
    exact map_map.trans (map_congr_left fun f _ => rfl)
  | reserveFragments => grind
  | updateConfig => grind [applyUpdateConfig, bind_eq_ok, pure_eq_ok]
  | createIndex => grind [applyCreateIndex, bind_eq_ok, pure_eq_ok]
  | dataReplacement =>
    simp only [hkind, dataReplacement, bind_eq_ok, pure_eq_ok] at h
    rcases h with ⟨_, -, fragments, hfragments, rfl⟩
    exact hsame (replaceEach_ids hfragments)
  | updateBases => grind [bind_eq_ok, pure_eq_ok]
  | dataOverlay =>
    simp only [hkind, bind_eq_ok, pure_eq_ok] at h
    rcases h with ⟨fragments, hfragments, rfl⟩
    exact hsame (applyOverlayGroups_ids _ _ fragments hfragments)
  | restore | clone => grind

end Numbering

section Coverage

theorem mem_pruneUpdatedFields {indices : List IndexMetadata} {fragments fieldsModified : List Nat}
    (hi : i ∈ pruneUpdatedFields indices fragments fieldsModified) :
    ∃ j ∈ indices, i.fragmentIds.Sublist j.fragmentIds := by
  unfold pruneUpdatedFields at hi
  split at hi
  · exact ⟨i, hi, List.Sublist.refl _⟩
  · rcases mem_map.mp hi with ⟨j, hj, rfl⟩
    refine ⟨j, hj, ?_⟩
    unfold pruneIndex
    split
    · exact filter_sublist
    · exact List.Sublist.refl _

theorem mem_pruneMergeRewritten (before : List DataFragment) :
    ∀ (after : List DataFragment) (indices : List IndexMetadata) (i : IndexMetadata),
      i ∈ pruneMergeRewritten before after indices →
      ∃ j ∈ indices, i.fragmentIds.Sublist j.fragmentIds := by
  intro after
  induction after with
  | nil => exact fun indices i hi => ⟨i, hi, List.Sublist.refl _⟩
  | cons f rest ih =>
    intro indices i hi
    rw [pruneMergeRewritten] at hi
    split at hi
    · exact ih indices i hi
    · rcases ih _ i hi with ⟨j, hj, hcov⟩
      rcases mem_pruneUpdatedFields hj with ⟨k, hk, hcov'⟩
      exact ⟨k, hk, hcov.trans hcov'⟩

/-- New indices cover fragments that are there. -/
theorem mem_putNewIndices (fragments : List DataFragment) :
    ∀ (created indices out : List IndexMetadata), putNewIndices fragments created indices = .ok out →
      ∀ i ∈ out, i ∈ indices ∨ ∀ id ∈ i.fragmentIds, id ∈ fragments.map (·.id) := by
  intro created
  induction created with
  | nil => grind [putNewIndices]
  | cons c rest ih =>
    intro indices out h i hi
    simp only [putNewIndices, bind_eq_ok] at h
    rcases h with ⟨_, -, hrest⟩
    have hpresent : ∀ id ∈ (presentCoverage fragments c).fragmentIds,
        id ∈ fragments.map (·.id) := by simp [presentCoverage_ids]
    rcases ih _ out hrest i hi with hin | hcov
    · unfold putIndex at hin
      split at hin
      · rcases mem_modifyFirst _ _ hin with hin | ⟨x, -, -, rfl⟩
        · exact .inl hin
        · exact .inr hpresent
      · grind
    · exact .inr hcov

/-- What an index an operation leaves covers: part of what one covered, or fragments that were
    there; one that a rewrite wrote anew covers an ascending list. -/
theorem applyKind_covers {next : Manifest} {op : Operation} {version : Nat}
    (h : applyKind next op nextId stable version = .ok applied) (hi : i ∈ applied.indices) :
    (∃ j ∈ next.indices, i.fragmentIds.Sublist j.fragmentIds) ∨
      (∀ id ∈ i.fragmentIds, id ∈ next.fragments.map (·.id)) ∨
      i.uuid ∈ op.rewrittenIndices.map (·.newId) ∧ i.fragmentIds.Pairwise (· < ·) := by
  have hsame : i ∈ next.indices → (∃ j ∈ next.indices, i.fragmentIds.Sublist j.fragmentIds) ∨
      (∀ id ∈ i.fragmentIds, id ∈ next.fragments.map (·.id)) ∨
      i.uuid ∈ op.rewrittenIndices.map (·.newId) ∧ i.fragmentIds.Pairwise (· < ·) :=
    fun hin => .inl ⟨i, hin, List.Sublist.refl _⟩
  unfold applyKind at h
  cases hkind : op.kind with
  | append =>
    simp only [hkind] at h
    rcases appendFragments_ok h with ⟨hind, -, -⟩
    exact hsame (hind ▸ hi)
  | delete =>
    simp only [hkind, Except.ok.injEq] at h
    rw [← h] at hi
    exact hsame (mem_retainRelevantIndices hi).1
  | update =>
    simp only [hkind, applyUpdate, bind_eq_ok, pure_eq_ok] at h
    rcases h with ⟨kept, hkept, out, hout, rfl⟩
    rcases appendFragments_ok hout with ⟨hind, -, -⟩
    have hin := (mem_retainRelevantIndices hi).1
    rw [hind] at hin
    exact .inl (mem_pruneUpdatedFields hin)
  | overwrite =>
    have hnone : applied.indices = [] := by grind [applyOverwrite, bind_eq_ok, pure_eq_ok]
    grind
  | rewrite =>
    simp only [hkind, applyRewrite, bind_eq_ok, pure_eq_ok] at h
    rcases h with ⟨fragments, -, indices, hindices, rfl⟩
    rcases mem_applyRewritten hindices i hi with hin | hnew
    · exact hsame hin
    · exact .inr (.inr hnew)
  | merge =>
    simp only [hkind, Except.ok.injEq] at h
    rw [← h] at hi
    exact .inl (mem_pruneMergeRewritten _ _ _ i (mem_retainRelevantIndices hi).1)
  | project =>
    simp only [hkind, Except.ok.injEq] at h
    rw [← h] at hi
    exact hsame (mem_retainRelevantIndices hi).1
  | reserveFragments => grind
  | updateConfig => grind [applyUpdateConfig, bind_eq_ok, pure_eq_ok]
  | createIndex =>
    simp only [hkind, applyCreateIndex, bind_eq_ok, pure_eq_ok] at h
    rcases h with ⟨indices, hindices, rfl⟩
    rcases mem_putNewIndices _ _ _ indices hindices i hi with hin | hcov
    · exact hsame (mem_of_mem_filter hin)
    · exact .inr (.inl hcov)
  | dataReplacement =>
    simp only [hkind, dataReplacement, bind_eq_ok, pure_eq_ok] at h
    rcases h with ⟨_, -, fragments, -, rfl⟩
    exact .inl (mem_pruneUpdatedFields hi)
  | updateBases => grind [bind_eq_ok, pure_eq_ok]
  | dataOverlay => grind [bind_eq_ok, pure_eq_ok]
  | restore | clone => grind

end Coverage

/-- Coverage below the mark, or in ascending order: either way the next fragment id is above it. -/
def CoverageBounded (m : Manifest) (ids : List Nat) : Prop :=
  (∀ id ∈ ids, Below m id) ∨ ids.Pairwise (· < ·)

/-- A version whose ids ascend and whose mark is above its fragments. -/
structure SoundVersion (m : Manifest) : Prop where
  ascending : (m.fragments.map (·.id)).Pairwise (· < ·)
  used : ∀ f ∈ m.fragments, Below m f.id
  covered : ∀ i ∈ m.indices, CoverageBounded m i.fragmentIds
  small : ∀ top, m.maxFragmentId = some top → top < 2 ^ 32

/-- A version made from another: a sound one, with a mark at least as high, in which the added ids
    are above the other's mark and covered by no index but the remapped ones. -/
structure Follows (base : Option Manifest) (next : Manifest) (added remapped : List Nat) :
    Prop where
  sound : SoundVersion next
  grows : ∀ m, base = some m → ∀ id, Below m id → Below next id
  fresh : ∀ id ∈ added, (∀ m, base = some m → ∀ used, Below m used → used < id) ∧
    ∀ i ∈ next.indices, id ∈ i.fragmentIds → i.uuid ∈ remapped

theorem below_lt_nextFragmentId {id : Nat} (h : Below m id) : id < nextFragmentId m := by
  rcases h with ⟨top, htop, hle⟩
  exact lt_of_le_of_lt hle (mark_lt_nextFragmentId htop)

theorem SoundVersion.covered_lt (m : Manifest) (h : SoundVersion m) (i : IndexMetadata)
    (hi : i ∈ m.indices) (id : Nat) (hid : id ∈ i.fragmentIds) : id < nextFragmentId m := by
  rcases h.covered i hi with hbelow | hasc
  · exact below_lt_nextFragmentId (hbelow id hid)
  · exact covered_lt_nextFragmentId hi hasc hid

/-- The fragments, the mark and the coverage a version is made of, put into one that follows: this
    is the part all ways of committing share. -/
theorem Follows.of_parts {added remapped : List Nat} (hbase : ∀ m, base = some m → SoundVersion m)
    (hids : (next.fragments.map (·.id)).Pairwise (· < ·))
    (hfrom : ∀ f ∈ next.fragments, (∃ m, base = some m ∧ Below m f.id) ∨ f.id ∈ added)
    (hadded : ∀ id ∈ added, (∀ m, base = some m → ∀ used, Below m used → used < id) ∧ id < 2 ^ 32)
    {mark : Option Nat} (hmark : next.maxFragmentId = highWater mark next.fragments)
    (hsmall : ∀ top, mark = some top → top < 2 ^ 32)
    (hkeeps : ∀ m, base = some m → ∀ top, m.maxFragmentId = some top → ∃ top', mark = some top' ∧
      top ≤ top')
    (hcovers : ∀ i ∈ next.indices, ((∃ m, base = some m ∧ ∀ id ∈ i.fragmentIds, Below m id) ∨
      i.fragmentIds.Pairwise (· < ·)) ∧ (i.uuid ∈ remapped ∨ ∀ id ∈ i.fragmentIds, id ∉ added)) :
    Follows base next added remapped := by
  have hlow : ∀ f ∈ next.fragments, f.id < 2 ^ 32 := by
    intro f hf
    rcases hfrom f hf with ⟨m, hm, top, htop, hle⟩ | hin
    · exact lt_of_le_of_lt hle ((hbase m hm).small top htop)
    · exact (hadded f.id hin).2
  rcases highWater_used (by decide) (le_refl _) hsmall hlow with ⟨hold, hall, htop⟩
  rw [← hmark] at hold hall htop
  have hgrows : ∀ m, base = some m → ∀ id, Below m id → Below next id := by
    rintro m hm id ⟨top, hmtop, hle⟩
    rcases hkeeps m hm top hmtop with ⟨top', hmark', hle'⟩
    rcases hold top' hmark' with ⟨new, hnew, hle''⟩
    exact ⟨new, hnew, by omega⟩
  refine ⟨⟨hids, hall, fun i hi => ?_, htop⟩, hgrows, fun id hid => ⟨(hadded id hid).1, ?_⟩⟩
  · rcases (hcovers i hi).1 with ⟨m, hm, hbelow⟩ | hasc
    · exact .inl (fun id hid => hgrows m hm id (hbelow id hid))
    · exact .inr hasc
  · grind

section Commits

variable {enable : Bool}

/-- An operation that went through: its effect on the start manifest, and the finish. -/
theorem applyOperation_ok {version : Nat} {next : Manifest}
    (h : applyOperation base op enable version = .ok next) :
    ∃ stable applied, applyKind (startManifest base op) op (nextIdOf base) stable version =
      .ok applied ∧ next = finish applied stable := by
  simp only [applyOperation, bind_eq_ok, pure_eq_ok] at h
  rcases h with ⟨_, -, applied, happlied, rfl⟩
  exact ⟨_, applied, happlied, rfl⟩

theorem startManifest_keeps :
    (startManifest base op).fragments = ((base.map (·.fragments)).getD []) ∧
      (startManifest base op).indices = ((base.map (·.indices)).getD []) ∧
      (startManifest base op).maxFragmentId = base.bind (·.maxFragmentId) := by
  cases base with
  | none => exact ⟨rfl, rfl, rfl⟩
  | some m => exact ⟨rfl, rfl, rfl⟩

/-- Only a reservation moves the mark before the finish. -/
theorem applyKind_mark {next : Manifest} {op : Operation} {version : Nat}
    (h : applyKind next op nextId stable version = .ok applied) :
    applied.maxFragmentId = if op.kind = .reserveFragments then
      some ((next.maxFragmentId.getD 0 + op.reserve) % 2 ^ 32) else next.maxFragmentId := by
  have happend : ∀ (start out : Manifest) (fragments : List DataFragment),
      appendFragments start fragments nextId stable version = .ok out →
      out.maxFragmentId = start.maxFragmentId := by
    intro start out fragments hout
    grind [appendFragments, bind_eq_ok, pure_eq_ok]
  unfold applyKind at h
  cases hkind : op.kind with
  | append => grind
  | delete | merge | project =>
    simp only [hkind, Except.ok.injEq] at h
    exact h ▸ rfl
  | reserveFragments => grind
  | update =>
    simp only [hkind, applyUpdate, bind_eq_ok, pure_eq_ok] at h
    rcases h with ⟨kept, -, out, hout, rfl⟩
    have hsame := happend _ out op.fragments hout
    exact hsame
  | overwrite => grind [applyOverwrite, bind_eq_ok, pure_eq_ok]
  | rewrite => grind [applyRewrite, bind_eq_ok, pure_eq_ok]
  | updateConfig => grind [applyUpdateConfig, bind_eq_ok, pure_eq_ok]
  | createIndex => grind [applyCreateIndex, bind_eq_ok, pure_eq_ok]
  | dataReplacement => grind [dataReplacement, bind_eq_ok, pure_eq_ok]
  | updateBases => grind [bind_eq_ok, pure_eq_ok]
  | dataOverlay => grind [bind_eq_ok, pure_eq_ok]
  | restore | clone => grind

/-- The finish leaves ids in order. -/
theorem finish_ascending (stable : Bool) (h : (m.fragments.map (·.id)).Nodup) :
    ((finish m stable).fragments.map (·.id)).Pairwise (· < ·) := by
  have hle : ((finish m stable).fragments.map (·.id)).Pairwise (· ≤ ·) := by
    rw [finish_fragments, map_map, pairwise_map]
    exact pairwise_insertionSort (fun a b : DataFragment => a.id ≤ b.id) m.fragments
  have hne : ((finish m stable).fragments.map (·.id)).Pairwise (· ≠ ·) := by
    rw [finish_fragments, map_map]
    exact ((sortFragments_perm m.fragments).map (·.id)).nodup_iff.mpr h
  exact (hle.and hne).imp (fun hboth => lt_of_le_of_ne hboth.1 hboth.2)

/-- An operation applied to a sound version. -/
theorem follows_applied {version : Nat} {next : Manifest}
    (hbase : ∀ m, base = some m → SoundVersion m) (harrives : Arrives base op)
    (hsmall : ∀ id ∈ addedIds (nextIdOf base) op, id < 2 ^ 32)
    (hreserve : op.kind = .reserveFragments → ∀ m, base = some m →
      m.maxFragmentId.getD 0 + op.reserve < 2 ^ 32)
    (h : applyOperation base op enable version = .ok next) :
    Follows base next (addedIds (nextIdOf base) op) (op.rewrittenIndices.map (·.newId)) := by
  rcases applyOperation_ok base op h with ⟨stable, applied, happlied, rfl⟩
  rcases startManifest_keeps base op with ⟨hfragments, hindices, hmax⟩
  rcases addedIds_eq (nextIdOf base) harrives with ⟨count, hrange⟩
  have hstart : ∀ id ∈ (startManifest base op).fragments.map (·.id),
      ∃ m, base = some m ∧ Below m id := by
    intro id hid
    rw [hfragments] at hid
    cases base with
    | none => nomatch hid
    | some m =>
      rcases mem_map.mp hid with ⟨f, hf, rfl⟩
      exact ⟨m, rfl, (hbase m rfl).used f hf⟩
  have hnew : ∀ id ∈ addedIds (nextIdOf base) op, nextIdOf base ≤ id := by grind
  have habove : ∀ id ∈ addedIds (nextIdOf base) op, ∀ m, base = some m →
      ∀ used, used < nextFragmentId m → used < id := by
    rintro id hid m rfl used hused
    exact lt_of_lt_of_le hused (hnew id hid)
  have hnodup : ((startManifest base op).fragments.map (·.id) ++
      addedIds (nextIdOf base) op).Nodup := by
    refine nodup_append.mpr ⟨?_, hrange ▸ nodup_range', fun id hid other hother heq => ?_⟩
    · rw [hfragments]
      cases base with
      | none => exact nodup_nil
      | some m => exact (hbase m rfl).ascending.imp (fun hlt => hlt.ne)
    · rcases hstart id hid with ⟨m, hm, hbelow⟩
      exact absurd heq (habove other hother m hm id (below_lt_nextFragmentId hbelow)).ne
  rcases applyKind_ids
    (fun m hm => by rw [hfragments, hm]; rfl) harrives hnodup happlied with ⟨hdistinct, hfrom⟩
  have hmark := applyKind_mark happlied
  rw [hmax] at hmark
  refine Follows.of_parts base _ hbase (finish_ascending stable hdistinct)
    (fun f hf => ?_) (fun id hid => ⟨fun m hm used hused =>
      habove id hid m hm used (below_lt_nextFragmentId hused), hsmall id hid⟩) rfl
        (fun top htop => ?_) (fun m hm top htop => ?_) (fun i hi => ?_)
  · have hid := (finish_ids).mp (mem_map_of_mem hf)
    exact (hfrom f.id hid).imp_left (hstart f.id)
  · -- The mark before the finish fits in 32 bits.
    rw [hmark] at htop
    split at htop
    · grind
    · cases base with
      | none => cases htop
      | some m => exact (hbase m rfl).small top htop
  · -- And it is not below the base's.
    subst hm
    rw [hmark]
    grind
  · rcases applyKind_covers happlied hi with ⟨j, hj, hsub⟩ | hpresent | hremapped
    · rw [hindices] at hj
      cases base with
      | none => nomatch hj
      | some m =>
        refine ⟨?_, .inr fun id hid hin => ?_⟩
        · exact ((hbase m rfl).covered j hj).imp
            (fun hb => ⟨m, rfl, fun id hid => hb id (hsub.subset hid)⟩)
            (fun hasc => hasc.sublist hsub)
        · have hlt := (hbase m rfl).covered_lt m j hj id (hsub.subset hid)
          exact absurd (habove id hin m rfl id hlt) (lt_irrefl id)
    · refine ⟨?_, .inr fun id hid hin => ?_⟩
      · cases base with
        | none =>
          -- Nothing is there, so nothing is covered.
          have hnil : i.fragmentIds = [] := eq_nil_iff_forall_not_mem.mpr fun id hid =>
            absurd (hfragments ▸ hpresent id hid) not_mem_nil
          exact .inr (hnil ▸ List.Pairwise.nil)
        | some m =>
          refine .inl ⟨m, rfl, fun id hid => ?_⟩
          rcases hstart id (hpresent id hid) with ⟨m', hm', hbelow⟩
          exact Option.some.inj hm' ▸ hbelow
      · grind
    · exact ⟨.inr hremapped.2, .inl hremapped.1⟩

variable {theirs : List Operation}

/-- An append or an update rebased onto a sound version. -/
theorem follows_rebased {made next : Manifest} {op : Operation} {version : Nat}
    (hlatest : SoundVersion latest) (hkind : op.kind = .append ∨ op.kind = .update)
    (hsmall : ∀ id ∈ addedIds (nextFragmentId latest) (renumbered op), id < 2 ^ 32)
    (h : rebaseOperation latest made op theirs version = .ok next) :
    Follows (some latest) next (addedIds (nextFragmentId latest) (renumbered op))
      (op.rewrittenIndices.map (·.newId)) := by
  have hrenumbered : renumbered op =
      { op with fragments := op.fragments.map (fun f => { f with id := 0 }) } := by
    simp [renumbered, hkind]
  have hzero : ∀ f ∈ (renumbered op).fragments, f.id = 0 := by simp [hrenumbered]
  have hsame : (renumbered op).kind = op.kind := by rw [hrenumbered]
  have harrives : Arrives (some latest) (renumbered op) := by grind [Arrives]
  have happly : applyOperation (some latest) (renumbered op) false version = .ok next := by
    grind [rebaseOperation, bind_eq_ok, pure_eq_ok]
  have hfollows := follows_applied (some latest) (renumbered op)
    (fun m hm => Option.some.inj hm ▸ hlatest) harrives hsmall ?_ happly
  · rw [hrenumbered] at hfollows ⊢
    exact hfollows
  · grind

theorem carriedOver_data (prior : Option Manifest) (mode : CommitMode) (request : VersionRequest) :
    (carriedOver version prior mode request).fragments =
        (if mode = .append then (prior.map (·.fragments)).getD [] else []) ∧
      (carriedOver version prior mode request).indices =
        (if mode = .append then (prior.map (·.indices)).getD [] else []) := by
  cases prior with
  | none => cases mode <;> exact ⟨rfl, rfl⟩
  | some m => cases mode <;> exact ⟨rfl, rfl⟩

/-- The first id a writer gives is above the mark. -/
theorem below_lt_firstAddedId (mode : CommitMode) {used : Nat} (h : Below m used) :
    used < firstAddedId (some m) mode := by
  by_cases hmode : mode = .append
  · rw [hmode, firstAddedId_append]
    exact below_lt_nextFragmentId h
  · rcases h with ⟨top, htop, hle⟩
    simp only [firstAddedId, hmode, if_false, htop]
    omega

/-- A writer's append or overwrite of a sound version. -/
theorem follows_built {prior : Option Manifest} {request : VersionRequest} {next : Manifest}
    (hprior : ∀ m, prior = some m → SoundVersion m)
    (h : buildVersion version prior request = .ok next) :
    Follows prior next (range' (firstAddedId prior (effectiveMode prior.isSome request.mode))
      request.fragments.length) [] := by
  rcases buildVersion_ok h with ⟨added, hadded, hsmall, hfragments, hindices, hmark⟩
  generalize effectiveMode prior.isSome request.mode = mode at *
  rcases carriedOver_data version prior mode request with ⟨hstart, hcarried⟩
  rw [hstart] at hfragments
  rw [hcarried] at hindices
  have hkept : ∀ f ∈ (if mode = .append then (prior.map (·.fragments)).getD [] else []),
      ∃ m, prior = some m ∧ f ∈ m.fragments := by
    intro f hf
    split at hf
    · cases prior with
      | none => nomatch hf
      | some m => exact ⟨m, rfl, hf⟩
    · nomatch hf
  have hrange : ∀ id ∈ range' (firstAddedId prior mode) request.fragments.length,
      firstAddedId prior mode ≤ id := fun id hid => (mem_range'_1.mp hid).1
  have hfresh : ∀ id ∈ range' (firstAddedId prior mode) request.fragments.length,
      ∀ m, prior = some m → ∀ used, Below m used → used < id := by
    rintro id hid m rfl used hused
    exact lt_of_lt_of_le (below_lt_firstAddedId mode hused) (hrange id hid)
  refine Follows.of_parts prior next hprior ?_ (fun f hf => ?_)
    (fun id hid => ⟨hfresh id hid, ?_⟩) hmark (fun top htop => ?_) (fun m hm top htop => ?_)
    (fun i hi => ?_)
  · rw [hfragments, map_append, hadded, pairwise_append]
    refine ⟨?_, pairwise_lt_range', fun id hid other hother => ?_⟩
    · split
      · cases prior with
        | none => exact List.Pairwise.nil
        | some m => exact (hprior m rfl).ascending
      · exact List.Pairwise.nil
    · rcases mem_map.mp hid with ⟨f, hf, rfl⟩
      rcases hkept f hf with ⟨m, hm, hin⟩
      exact hfresh other hother m hm f.id ((hprior m hm).used f hin)
  · rw [hfragments] at hf
    rcases mem_append.mp hf with hf | hf
    · rcases hkept f hf with ⟨m, hm, hin⟩
      exact .inl ⟨m, hm, (hprior m hm).used f hin⟩
    · exact .inr (hadded ▸ mem_map_of_mem hf)
  · grind
  · cases prior with
    | none => cases htop
    | some m => exact (hprior m rfl).small top htop
  · exact ⟨top, hm ▸ htop, le_refl top⟩
  · rw [hindices] at hi
    split at hi
    · rename_i hmode
      cases prior with
      | none => nomatch hi
      | some m =>
        refine ⟨((hprior m rfl).covered i hi).imp_left (fun hb => ⟨m, rfl, hb⟩),
          .inr fun id hid hin => ?_⟩
        have hlt := (hprior m rfl).covered_lt m i hi id hid
        grind [firstAddedId_append]
    · nomatch hi

variable {restored : Manifest}

/-- A version that has another's fragments and indices under a mark that is as high as both the
    other's and the latest one's. -/
theorem follows_marked (hrestored : SoundVersion restored)
    (hfragments : next.fragments = restored.fragments) (hindices : next.indices = restored.indices)
    (hsmall : ∀ top, next.maxFragmentId = some top → top < 2 ^ 32)
    (hmarks : ∀ id, Below latest id ∨ Below restored id → Below next id) :
    Follows (some latest) next [] [] := by
  refine ⟨⟨hfragments ▸ hrestored.ascending, fun f hf => ?_, fun i hi => ?_, hsmall⟩,
    fun m hm id hid => hmarks id (.inl (Option.some.inj hm ▸ hid)),
    nofun⟩
  · exact hmarks f.id (.inr (hrestored.used f (hfragments ▸ hf)))
  · exact (hrestored.covered i (hindices ▸ hi)).imp_left
      (fun hb id hid => hmarks id (.inr (hb id hid)))

/-- A restore of one sound version over another. -/
theorem follows_restored {latest next : Manifest} (hrestored : SoundVersion restored)
    (hlatest : SoundVersion latest) (h : restoreManifest version restored latest = .ok next) :
    Follows (some latest) next [] [] := by
  simp only [restoreManifest, bind_eq_ok, pure_eq_ok] at h
  rcases h with ⟨_, -, rfl⟩
  refine follows_marked latest _ hrestored rfl rfl (fun top htop => ?_) ?_
  · simp only [] at htop
    split at htop
    · rename_i id hid
      have hold := hlatest.small id hid
      cases hmark : restored.maxFragmentId with
      | none => simp only [hmark, Option.getD_none, Option.some.injEq] at htop; omega
      | some old =>
        have hother := hrestored.small old hmark
        grind
    · exact hrestored.small top htop
  · rintro id (⟨top, htop, hle⟩ | ⟨top, htop, hle⟩)
    · exact ⟨max (restored.maxFragmentId.getD 0) top, by simp only [htop], by omega⟩
    · cases hmark : latest.maxFragmentId with
      | none => exact ⟨top, by simp only; exact htop, hle⟩
      | some new =>
        exact ⟨max top new, by simp only [htop, Option.getD_some], by omega⟩

/-- A restore rebased onto a later version than the one it was made over. -/
theorem follows_restore_rebased {ours next : Manifest} {op : Operation} {version : Nat}
    (hours : SoundVersion ours) (hlatest : SoundVersion latest) (hkind : op.kind = .restore)
    (h : rebaseOperation latest ours op theirs version = .ok next) :
    Follows (some latest) next [] [] := by
  simp only [rebaseOperation, hkind, if_true, pure_eq_ok] at h
  subst h
  have hsmall : max (latest.maxFragmentId.getD 0) (ours.maxFragmentId.getD 0) < 2 ^ 32 := by
    have hof : ∀ m, SoundVersion m → m.maxFragmentId.getD 0 < 2 ^ 32 := by
      intro m hm
      cases hmark : m.maxFragmentId with
      | none => decide
      | some top => exact hm.small top hmark
    exact max_lt (hof latest hlatest) (hof ours hours)
  refine follows_marked latest _ hours rfl rfl (fun top htop => ?_) ?_
  · grind
  · rintro id (⟨top, htop, hle⟩ | ⟨top, htop, hle⟩)
    all_goals
      refine ⟨_, rfl, ?_⟩
      rw [Nat.mod_eq_of_lt hsmall, htop, Option.getD_some]
      omega

end Commits

/-- A commit to a dataset, over the versions it has had: an operation applied, an append or update
    rebased, a writer's version, a restore, or a restore made when version `read` was the latest and
    rebased since. -/
inductive FragmentCommit where
  | apply (op : Operation) (enableStableRowIds : Bool)
  | rebase (op : Operation) (made : Manifest) (theirs : List Operation)
  | write (request : VersionRequest)
  | restore (version : Nat)
  | rebaseRestore (version read : Nat) (theirs : List Operation)

/-- The ids a commit gave out, with the versions before it and the indices it wrote anew. -/
structure FragmentGrant where
  earlier : List Manifest
  next : Manifest
  ids : List Nat
  remapped : List Nat

/-- Each id is above every fragment id of every earlier version, and no index covers it but one
    written anew. -/
def FragmentGrant.Fresh (g : FragmentGrant) : Prop :=
  ∀ id ∈ g.ids, (∀ m ∈ g.earlier, ∀ f ∈ m.fragments, f.id < id) ∧
    ∀ i ∈ g.next.indices, id ∈ i.fragmentIds → i.uuid ∈ g.remapped

def findVersion (history : List Manifest) (version : Nat) : Except String Manifest :=
  match history.find? (fun m => m.version = version) with
  | some m => .ok m
  | none => .error s!"version {version} not found"

def latestVersion : List Manifest → Except String Manifest
  | [] => .error "no manifest found under _versions"
  | latest :: _ => .ok latest

/-- The version a commit makes, with the ids it gave out. -/
def nextVersion (history : List Manifest) : FragmentCommit → Except String FragmentGrant
  | .apply op enable => do
    let next ← applyOperation history.head? op enable (history.length + 1)
    return ⟨history, next, addedIds (nextIdOf history.head?) op,
      op.rewrittenIndices.map (·.newId)⟩
  | .rebase op made theirs => do
    let latest ← latestVersion history
    let next ← rebaseOperation latest made op theirs (history.length + 1)
    return ⟨history, next, addedIds (nextFragmentId latest) (renumbered op),
      op.rewrittenIndices.map (·.newId)⟩
  | .write request => do
    let next ← buildVersion (history.length + 1) history.head? request
    return ⟨history, next,
      range' (firstAddedId history.head? (effectiveMode history.head?.isSome request.mode))
        request.fragments.length, []⟩
  | .restore version => do
    let restored ← findVersion history version
    let latest ← latestVersion history
    let next ← restoreManifest version restored latest
    return ⟨history, next, [], []⟩
  | .rebaseRestore version read theirs => do
    let restored ← findVersion history version
    let base ← findVersion history read
    let ours ← restoreManifest version restored base
    let latest ← latestVersion history
    let next ← rebaseOperation latest ours { kind := .restore, restoreVersion := version } theirs
      (history.length + 1)
    return ⟨history, next, [], []⟩

/-- A commit: the new version before the others, under the next number. -/
def commitFragments (history : List Manifest) (commit : FragmentCommit) :
    Except String (List Manifest × List FragmentGrant) := do
  let grant ← nextVersion history commit
  return ({ grant.next with version := history.length + 1 } :: history, [grant])

/-- Fragments arrive as they should, and ids stay in 32 bits. -/
def FitsIds (history : List Manifest) : FragmentCommit → Prop
  | .apply op _ => Arrives history.head? op ∧
      (∀ id ∈ addedIds (nextIdOf history.head?) op, id < 2 ^ 32) ∧
      (op.kind = .reserveFragments → ∀ m, history.head? = some m →
        m.maxFragmentId.getD 0 + op.reserve < 2 ^ 32)
  | .rebase op _ _ => (op.kind = .append ∨ op.kind = .update) ∧
      ∀ id ∈ addedIds (nextIdOf history.head?) (renumbered op), id < 2 ^ 32
  | _ => True

/-- Every version is sound, and the latest mark is the highest. -/
structure SoundHistory (history : List Manifest) : Prop where
  versions : ∀ m ∈ history, SoundVersion m
  highest : ∀ latest, history.head? = some latest → ∀ m ∈ history, ∀ id, Below m id →
    Below latest id

theorem findVersion_mem {version : Nat} (h : findVersion history version = .ok m) :
    m ∈ history := by
  unfold findVersion at h
  grind

theorem latestVersion_head (h : latestVersion history = .ok m) :
    history.head? = some m ∧ m ∈ history := by
  cases history with
  | nil => cases h
  | cons latest rest =>
    rw [← Except.ok.inj h]
    exact ⟨rfl, mem_cons_self⟩

/-- What any commit makes of a sound history follows its latest version. -/
theorem nextVersion_follows {grant : FragmentGrant} (hs : SoundHistory history)
    (hfits : FitsIds history commit) (h : nextVersion history commit = .ok grant) :
    grant.earlier = history ∧ Follows history.head? grant.next grant.ids grant.remapped := by
  have hhead : ∀ m, history.head? = some m → SoundVersion m :=
    fun m hm => hs.versions m (mem_of_mem_head? hm)
  cases commit with
  | apply op enable =>
    simp only [nextVersion, bind_eq_ok, pure_eq_ok] at h
    rcases h with ⟨next, hnext, rfl⟩
    exact ⟨rfl, follows_applied history.head? op hhead hfits.1 hfits.2.1 hfits.2.2 hnext⟩
  | rebase op made theirs =>
    simp only [nextVersion, bind_eq_ok, pure_eq_ok] at h
    rcases h with ⟨latest, hlatest, next, hnext, rfl⟩
    rcases latestVersion_head hlatest with ⟨hlast, hmem⟩
    have hsmall := hfits.2
    rw [hlast] at hsmall ⊢
    exact ⟨rfl, follows_rebased latest (hs.versions latest hmem) hfits.1 hsmall hnext⟩
  | write request =>
    simp only [nextVersion, bind_eq_ok, pure_eq_ok] at h
    rcases h with ⟨next, hnext, rfl⟩
    exact ⟨rfl, follows_built _ hhead hnext⟩
  | restore version =>
    simp only [nextVersion, bind_eq_ok, pure_eq_ok] at h
    rcases h with ⟨restored, hrestored, latest, hlatest, next, hnext, rfl⟩
    rcases latestVersion_head hlatest with ⟨hlast, hmem⟩
    rw [hlast]
    exact ⟨rfl, follows_restored version (hs.versions restored (findVersion_mem hrestored))
      (hs.versions latest hmem) hnext⟩
  | rebaseRestore version read theirs =>
    simp only [nextVersion, bind_eq_ok, pure_eq_ok] at h
    rcases h with ⟨restored, hrestored, base, hbase, ours, hours, latest, hlatest, next, hnext, rfl⟩
    rcases latestVersion_head hlatest with ⟨hlast, hmem⟩
    have hmade := follows_restored version (hs.versions restored (findVersion_mem hrestored))
      (hs.versions base (findVersion_mem hbase)) hours
    rw [hlast]
    exact ⟨rfl, follows_restore_rebased latest hmade.sound (hs.versions latest hmem) rfl hnext⟩

/-- The step lemma: a commit keeps the history sound, and the ids it gives out are fresh. -/
theorem commitFragments_sound {history' : List Manifest} {out : List FragmentGrant}
    (hs : SoundHistory history) (hfits : FitsIds history commit)
    (h : commitFragments history commit = .ok (history', out)) :
    SoundHistory history' ∧ ∀ g ∈ out, g.Fresh := by
  simp only [commitFragments, bind_eq_ok, pure_eq_ok, Prod.mk.injEq] at h
  rcases h with ⟨grant, hgrant, rfl, rfl⟩
  rcases nextVersion_follows hs hfits hgrant with ⟨hearlier, hfollows⟩
  have hgrows : ∀ m ∈ history, ∀ id, Below m id → Below grant.next id := by
    intro m hm id hbelow
    cases hlast : history.head? with
    | none => exact absurd hm (head?_eq_none_iff.mp hlast ▸ not_mem_nil)
    | some latest =>
      exact hfollows.grows latest hlast id (hs.highest latest hlast m hm id hbelow)
  refine ⟨⟨fun m hm => ?_, ?_⟩, fun g hg => ?_⟩
  · rcases mem_cons.mp hm with rfl | hin
    · exact ⟨hfollows.sound.ascending, hfollows.sound.used, hfollows.sound.covered,
        hfollows.sound.small⟩
    · exact hs.versions m hin
  · intro latest hlast m hm id hbelow
    rcases Option.some.inj hlast
    rcases mem_cons.mp hm with rfl | hin
    · exact hbelow
    · exact hgrows m hin id hbelow
  · rcases mem_singleton.mp hg with rfl
    intro id hid
    refine ⟨fun m hm f hf => ?_, (hfollows.fresh id hid).2⟩
    rw [hearlier] at hm
    have hbelow := (hs.versions m hm).used f hf
    cases hlast : history.head? with
    | none => exact absurd hm (head?_eq_none_iff.mp hlast ▸ not_mem_nil)
    | some latest =>
      exact (hfollows.fresh id hid).1 latest hlast f.id (hs.highest latest hlast m hm f.id hbelow)

/-- In every run of commits from an empty dataset, ids ascend in each version, and an id given to a
    fragment is above every id any version had and covered by no index but one the same rewrite
    wrote anew. -/
theorem fragment_ids_fresh (commits : List FragmentCommit)
    (hfits : Lib.EveryCommit commitFragments FitsIds [] commits) :
    (∀ m ∈ (Lib.runLog commitFragments [] commits).1,
      (m.fragments.map (·.id)).Pairwise (· < ·)) ∧
      ∀ g ∈ (Lib.runLog commitFragments [] commits).2, g.Fresh := by
  have hstart : SoundHistory [] :=
    ⟨nofun, nofun⟩
  have hrun := runLog_safe
    (fun s a s' out hs hgood hok => commitFragments_sound hs hgood hok) commits []
    hstart hfits
  exact ⟨fun m hm => (hrun.1.versions m hm).ascending, hrun.2⟩

/-- A dataset of one fragment. -/
def createOne : Operation :=
  { kind := .overwrite, schema := [{ name := "a", id := 0 }],
    fragments := [{ id := 0, files := [{ path := "one.lance", fields := [0] }], physicalRows := 1 }] }

/-- An index over its column. -/
def indexOne : Operation :=
  { kind := .createIndex, newIndices := [{ uuid := 1, name := "a_idx", fields := [0],
                                           fragmentIds := [0] }] }

/-- The fragment rewritten, the index with it. -/
def rewriteOne : Operation :=
  { kind := .rewrite,
    groups := [{ oldFragments := [{ id := 0 }],
                 newFragments := [{ id := 0, files := [{ path := "two.lance", fields := [0] }],
                                    physicalRows := 1 }] }],
    rewrittenIndices := [{ oldId := 1, newId := 2 }] }

def rewriteCommits : List FragmentCommit :=
  [.apply createOne false, .apply indexOne false, .apply rewriteOne false]

theorem rewriteOne_arrives : Arrives base rewriteOne := by
  show ∀ g ∈ rewriteOne.groups, ∀ f ∈ g.newFragments, f.id = 0
  decide

theorem rewriteCommits_fit : EveryCommit commitFragments FitsIds [] rewriteCommits := by
  refine And.intro ?_ (And.intro ?_ (And.intro ?_ trivial))
  · exact ⟨trivial, by decide, fun h => absurd h (by decide)⟩
  · exact ⟨trivial, by decide, fun h => absurd h (by decide)⟩
  · exact ⟨rewriteOne_arrives _, by decide, fun h => absurd h (by decide)⟩

theorem fragment_ids_fresh_rewrite :
    (Lib.runLog commitFragments [] rewriteCommits).1.map (·.fragments.map (·.id)) = [[1], [0], [0]] ∧
      ((∀ m ∈ (Lib.runLog commitFragments [] rewriteCommits).1,
        (m.fragments.map (·.id)).Pairwise (· < ·)) ∧
        ∀ g ∈ (Lib.runLog commitFragments [] rewriteCommits).2, g.Fresh) :=
  ⟨by decide, fragment_ids_fresh rewriteCommits rewriteCommits_fit⟩

/-- A rewrite that wrote an index anew leaves it covering the fragment the same rewrite added. -/
theorem rewritten_index_covers_added :
    ∃ g ∈ (Lib.runLog commitFragments [] rewriteCommits).2,
      ∃ id ∈ g.ids, ∃ i ∈ g.next.indices, id ∈ i.fragmentIds := by
  decide

end NanoLance
