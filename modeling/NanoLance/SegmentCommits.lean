import NanoLance.SegmentUpkeep

/-!
# Commits That Build No Segment

Each request but an index creation and an optimize is a commit of the kind
`Carries` describes. The three that go through a transaction share most of the
argument: the indices come out pruned for the change, and the finish drops
files and raises the high-water mark. What is left of each is which fragments
it changes, and that an index it does not prune for has its field's values
unchanged there.

## Theorems

* `fieldCell_dropTombstoneFiles`, `fieldCell_writeColumns`,
  `fieldCell_replaceFile`: Changes to a fragment's files that a field's values
  do not notice.
* `append_carries`, `delete_carries`, `update_carries`, `replace_carries`,
  `compact_carries`: The requests.
-/

namespace NanoLance

open List Lib

theorem isStable_finish (m : Manifest) : isStable (finish m false) = isStable m := by
  unfold isStable finish
  simp only [Bool.false_eq_true, if_false, setFlag_deletions_stable,
    setFlag_stable _ flagDataOverlays _ (by decide) (by decide)]

variable {i : IndexMetadata} {indices : List IndexMetadata} {m m' : Manifest} {field : Int}
  {fields : List Field} {file : DataFile} {f : DataFragment} {c : Compaction} {defer : Bool}
  {deleted : Nat → List Nat} {version : Nat}

theorem mem_retain_reuse (fields : List Field) (fragments : List DataFragment) (hi : i ∈ indices)
    (hname : i.name = fragReuseIndex) : i ∈ retainRelevantIndices indices fields fragments := by
  have hfil : i ∈ indices.filter (fun i => isSystemIndex i || fieldsLive fields i) := by
    grind [isSystemIndex]
  rcases mem_iff_getElem.mp hfil with ⟨n, hn, hget⟩
  rw [retainRelevantIndices]
  refine mem_map.mpr ⟨(i, n), mem_filter.mpr ⟨?_, ?_⟩, rfl⟩
  · rw [mk_mem_zipIdx_iff_getElem?, getElem?_eq_getElem hn, hget]
  · simp [keepSegment, weighed, hname]

theorem isSystemIndex_of_reuse (h : i.name = fragReuseIndex) :
    isSystemIndex i = true := by simp [isSystemIndex, h]

/-- The fragment reuse index reads as before when its entries do and one is left. -/
theorem reuseHistory_kept (m' : Manifest) (hm : FragmentsSound m)
    (hsub : ∀ i ∈ m'.indices, i.name = fragReuseIndex → ∃ j ∈ m.indices, j.name = fragReuseIndex ∧
      i.details = j.details)
    (hkeep : ∀ j ∈ m.indices, j.name = fragReuseIndex → ∃ i ∈ m'.indices, i.name = fragReuseIndex) :
    reuseHistory m' = reuseHistory m := by
  refine reuseHistory_eq (fun i hi hname => ?_) ?_
  · rcases hsub i hi hname with ⟨j, hj, hjname, hdetails⟩
    rw [hdetails, (hm.system j hj (isSystemIndex_of_reuse hjname)).2.1]
  · cases hnew : newestReuse m.indices with
    | none =>
      left
      unfold reuseHistory
      rw [hnew]
    | some j =>
      rcases (newestReuse_spec m.indices).2 j hnew with ⟨hj, hname⟩
      exact .inr (hkeep j hj hname)

section Cells

variable {V : Type} (format : TableFormat V)

/-- A file that does not list the field makes no difference to it. -/
theorem fieldCell_dropTombstoneFiles (f : DataFragment) (hfield : 0 ≤ field) (offset : Nat) :
    fieldCell format (dropTombstoneFiles f) field offset = fieldCell format f field offset := by
  unfold fieldCell dropTombstoneFiles
  rw [find?_filter]
  congr 2
  funext file
  by_cases ht : onlyTombstones file = true
  · rw [ht, decide_eq_false (onlyTombstones_not_mem hfield ht)]
    rfl
  · simp [ht]

/-- Files changed one by one so that each still lists the field or not, under its path, read the
    same. -/
theorem find_map_files (files : List DataFile) (change : DataFile → DataFile) (field : Int)
    (h : ∀ file ∈ files, (field ∈ (change file).fields ↔ field ∈ file.fields) ∧
      (field ∈ file.fields → (change file).path = file.path)) (offset : Nat) :
    ((files.map change).find? (fun file => field ∈ file.fields)).bind
        (fun file => format.cells file.path field offset) =
      (files.find? (fun file => field ∈ file.fields)).bind
        (fun file => format.cells file.path field offset) := by
  induction files with
  | nil => rfl
  | cons file rest ih => grind

/-- A file after the others that does not list the field is not read for it. -/
theorem find_append_file (files : List DataFile) (h : field ∉ file.fields) :
    (files ++ [file]).find? (fun x => field ∈ x.fields) =
      files.find? (fun x => field ∈ x.fields) := by simp [h]

/-- Burying other fields leaves the field where it was. -/
theorem mem_buried {buried : List Int} (fields : List Int) (hfield : 0 ≤ field) (h : field ∉ buried) :
    field ∈ fields.map (fun id => if id ∈ buried then tombstone else id) ↔ field ∈ fields := by
  rw [mem_map]
  grind [tombstone]

theorem fieldCell_writeColumns (file : DataFile) (f : DataFragment) (hfield : 0 ≤ field)
    (h : field ∉ file.fields) (offset : Nat) :
    fieldCell format (writeColumns file f) field offset = fieldCell format f field offset := by
  unfold fieldCell writeColumns
  simp only []
  rw [find_append_file _ h]
  refine find_map_files format f.files _ field (fun old _ => ?_) offset
  exact ⟨mem_buried old.fields hfield h, fun _ => rfl⟩

theorem fieldCell_replaceFile {replaced : List Int} (f : DataFragment) (hfield : 0 ≤ field)
    (hschema : ∃ x ∈ fields, x.id = field) (hfile : field ∉ file.fields) (h : field ∉ replaced)
    (offset : Nat) :
    fieldCell format (replaceFile fields replaced file f) field offset =
      fieldCell format f field offset := by
  -- A file of the replaced fields does not list this one, so swapping its path is not seen.
  have hswap := find_map_files format f.files (fun x =>
    if x.fields = file.fields && x.fileMajorVersion = file.fileMajorVersion &&
        x.fileMinorVersion = file.fileMinorVersion then
      { x with path := file.path, fileSizeBytes := file.fileSizeBytes } else x) field
    (fun x _ => by
      split
      · grind
      · exact ⟨Iff.rfl, fun _ => rfl⟩) offset
  unfold fieldCell replaceFile
  simp only []
  split
  · grind
  · split
    · simp only []
      rw [find_append_file _ hfile, find?_filter]
      -- The live files left out do not list the field either.
      have hlive : (fun a : DataFile => decide (a.fields.any (fun id => fields.any
            (fun x => x.id = id)) = true ∧ field ∈ a.fields)) = fun a => decide (field ∈ a.fields) := by
        funext a
        grind
      simp only [decide_eq_true_eq]
      rw [hlive]
      rw [← hswap]
      refine find_map_files format _ _ field (fun old _ => ?_) offset
      exact ⟨mem_buried old.fields hfield h, fun _ => rfl⟩
    · exact hswap

end Cells

theorem liveRow_congr (vectors : DeletionVectors) {g : DataFragment} (hid : f.id = g.id)
    (hrows : g.physicalRows = f.physicalRows) (hdel : g.deletionFile = f.deletionFile)
    (offset : Nat) : liveRow vectors g offset = liveRow vectors f offset := by
  unfold liveRow deletedRows
  rw [hrows, hdel, hid]

theorem mem_finish (m : Manifest) (stable : Bool) (g : DataFragment) :
    g ∈ (finish m stable).fragments ↔ ∃ f ∈ m.fragments, dropTombstoneFiles f = g := by
  rw [finish_fragments, mem_map]
  simp

theorem finish_nodup (stable : Bool) (h : (m.fragments.map (·.id)).Nodup) :
    ((finish m stable).fragments.map (·.id)).Nodup := by
  rw [finish_fragments, map_map]
  exact ((sortFragments_perm m.fragments).map (·.id)).nodup_iff.mpr h

section Operations

variable {V : Type} {format : TableFormat V} {m applied : Manifest} {op : Operation}

/-- A transaction's effect before its finish: the indices pruned for it, fragments that keep their
    rows and others of unused ids, and unchanged values where an index is not pruned. -/
structure Applies (format : TableFormat V) (m : Manifest) (op : Operation) (applied : Manifest) :
    Prop where
  maintains : Maintains m op applied
  kind : op.kind = .append ∨ op.kind = .update ∨ op.kind = .dataReplacement
  flags : applied.readerFeatureFlags = m.readerFeatureFlags
  mark : applied.maxFragmentId = m.maxFragmentId
  ids : (applied.fragments.map (·.id)).Nodup
  fragments : ∀ g ∈ applied.fragments,
    (∃ f ∈ m.fragments, f.id = g.id ∧ g.physicalRows = f.physicalRows ∧
      g.deletionFile = f.deletionFile) ∨
    (¬ Used m g.id ∧ g.id < 2 ^ 32 - 1 ∧ g.physicalRows ≤ 2 ^ 32)
  cells : ∀ i, i.hasFragmentBitmap = true → ∀ f ∈ m.fragments, ∀ g ∈ applied.fragments,
    f.id = g.id → g.id ∈ (pruneBy m op i).fragmentIds → ∀ field ∈ i.fields,
      (∃ x ∈ m.fields, x.id = field) → ∀ offset,
        fieldCell format g field offset = fieldCell format f field offset

theorem Applies.pruneBy_same (h : Applies format m op applied) (i : IndexMetadata) :
    SameSegment i (pruneBy m op i) ∧ (i.fields = [] → pruneBy m op i = i) := by
  have hprune : ∀ fragments fields, SameSegment i (pruneIndex fragments fields i) ∧
      (i.fields = [] → pruneIndex fragments fields i = i) := by
    intro fragments fields
    unfold pruneIndex
    split
    · rename_i htouch
      refine ⟨⟨_, _, rfl⟩, fun hnil => ?_⟩
      grind [touches]
    · exact ⟨⟨i.fragmentIds, i.fragmentBitmapChanged, rfl⟩, fun _ => rfl⟩
  unfold pruneBy
  rcases h.kind with hk | hk | hk
  · rw [hk]
    exact ⟨⟨i.fragmentIds, i.fragmentBitmapChanged, rfl⟩, fun _ => rfl⟩
  · rw [hk]
    exact hprune _ _
  · rw [hk]
    exact hprune _ _

/-- An index after the change is one of before, pruned. -/
theorem Applies.mem_indices (h : Applies format m op applied) (i' : IndexMetadata)
    (hi' : i' ∈ applied.indices) : ∃ i ∈ m.indices, i' = pruneBy m op i := by
  rcases h.maintains.indices with ⟨fragments, -, hindices⟩
  have hmap : i' ∈ m.indices.map (pruneBy m op) := by
    rw [hindices] at hi'
    split at hi'
    · exact (mem_retainRelevantIndices hi').1
    · exact hi'
  grind

/-- The fragment reuse index is left as it is. -/
theorem Applies.keeps_reuse (h : Applies format m op applied) (hm : FragmentsSound m)
    (j : IndexMetadata) (hj : j ∈ m.indices) (hname : j.name = fragReuseIndex) :
    j ∈ applied.indices := by
  have hself := (h.pruneBy_same j).2 (hm.system j hj (isSystemIndex_of_reuse hname)).2.2
  have hmap : j ∈ m.indices.map (pruneBy m op) := mem_map.mpr ⟨j, hj, hself⟩
  rcases h.maintains.indices with ⟨fragments, -, hindices⟩
  rw [hindices]
  split
  · exact mem_retain_reuse _ _ hmap hname
  · exact hmap

abbrev UserBitmaps (m : Manifest) : Prop :=
  ∀ i ∈ m.indices, isSystemIndex i = false → i.hasFragmentBitmap = true

/-- A transaction of the three kinds, committed, carries the segments on. -/
theorem Applies.carries (h : Applies format m op applied) (hm : FragmentsSound m)
    (hbit : UserBitmaps m) :
    Carries format m { finish applied false with version := m.version + 1 } := by
  have hsmall : ∀ g ∈ (finish applied false).fragments, g.id < 2 ^ 32 - 1 := by
    intro g' hg'
    rcases (mem_finish applied false g').mp hg' with ⟨g, hg, rfl⟩
    rcases h.fragments g hg with ⟨f, hf, hid, -⟩ | ⟨-, hlt, -⟩
    · exact hid ▸ hm.small_of_used (hm.rows f hf).1
    · exact hlt
  rcases highWater_used (by decide) (by decide) hm.small hsmall with ⟨hold, hall, htop⟩
  have hmax : (finish applied false).maxFragmentId =
      highWater m.maxFragmentId (finish applied false).fragments := by
    rw [← h.mark]
    rfl
  have hsystem : ∀ i' ∈ applied.indices, isSystemIndex i' = true → i' ∈ m.indices := by
    intro i' hi' hsys
    rcases h.mem_indices i' hi' with ⟨i, hi, rfl⟩
    rcases h.pruneBy_same i with ⟨hsame, hnone⟩
    rw [hnone (hm.system i hi (hsame.isSystem.symm.trans hsys)).2.2]
    exact hi
  have hhistory : reuseHistory { finish applied false with version := m.version + 1 } =
      reuseHistory m := by
    refine reuseHistory_kept _ hm (fun i hi hname => ?_) (fun j hj hname => ?_)
    · exact ⟨i, hsystem i hi (isSystemIndex_of_reuse hname), hname, rfl⟩
    · exact ⟨j, h.keeps_reuse hm j hj hname, hname⟩
  refine ⟨?_, ?_, Nat.le_succ _, fun id hused => ?_, fun top ht => ?_, finish_nodup false h.ids,
    fun g' hg' => ⟨?_, ?_⟩, fun g' hg' => ?_, fun i hi hsys => ?_, .inl hhistory,
    fun i' hi' hsys => ?_⟩
  · show isStable (finish applied false) = false
    rw [isStable_finish, isStable, h.flags]
    exact hm.unstable
  · show applied.fields = m.fields
    rw [h.maintains.fields, if_neg]
    rcases h.kind with hk | hk | hk <;>
      simp only [Operation.hasSchema, hk, reduceCtorEq, decide_false, Bool.or_self,
        Bool.false_eq_true, not_false_eq_true]
  · rcases hused with ⟨top, ht, hle⟩
    rcases hold top ht with ⟨new, hnew, hge⟩
    exact ⟨new, hmax.trans hnew, by omega⟩
  · exact htop top (hmax.symm.trans ht)
  · rcases hall g' hg' with ⟨new, hnew, hge⟩
    exact ⟨new, hmax.trans hnew, hge⟩
  · rcases (mem_finish applied false g').mp hg' with ⟨g, hg, rfl⟩
    show g.physicalRows ≤ 2 ^ 32
    rcases h.fragments g hg with ⟨f, hf, -, hrows, -⟩ | ⟨-, -, hrows⟩
    · exact hrows ▸ (hm.rows f hf).2
    · exact hrows
  · rcases (mem_finish applied false g').mp hg' with ⟨g, hg, rfl⟩
    rcases h.fragments g hg with ⟨f, hf, hid, hrows, hdel⟩ | ⟨hfresh, -⟩
    · refine .inl ⟨f, hf, hid, fun offset hlive => ?_⟩
      rw [← liveRow_congr format.vectors hid hrows hdel]
      exact hlive
    · exact .inr hfresh
  · rw [hhistory]
    exact hm.system i (hsystem i hi hsys) hsys
  · rcases h.mem_indices i' hi' with ⟨i, hi, rfl⟩
    have hsame := (h.pruneBy_same i).1
    have hsysOld := hsame.isSystem.symm.trans hsys
    refine ⟨i, hi, hsame, fun id hid => ?_, fun f hf g' hg' hid hcov field hfield hschema offset => ?_⟩
    · exact .inl ((mem_pruneBy (hbit i hi hsysOld)).mp hid).1
    · rcases (mem_finish applied false g').mp hg' with ⟨g, hg, rfl⟩
      rw [fieldCell_dropTombstoneFiles format g (hm.nonneg hschema)]
      exact h.cells i (hbit i hi hsysOld) f hf g hg hid hcov field hfield hschema offset

/-- What a commit of a transaction without a schema went through. -/
theorem commitOperation_ok (hm : isStable m = false)
    (hkind : op.kind = .append ∨ op.kind = .update ∨ op.kind = .dataReplacement)
    (hmeta : op.schemaMetadata = none) (h : commitOperation m op = .ok m') :
    ∃ applied, applyKind m op (nextFragmentId m) false (m.version + 1) = .ok applied ∧
      m' = { finish applied false with version := m.version + 1 } := by
  have hstart : startManifest (some m) op = m := by
    have hschema : op.hasSchema = false := by grind [Operation.hasSchema]
    have hover : op.kind ≠ .overwrite := by
      rcases hkind with hk | hk | hk <;> rw [hk] <;> decide
    simp [startManifest, hschema, hmeta, hover]
  simp only [commitOperation, applyOperation, hstart, hm, Option.map_some, Option.getD_some,
    Bool.false_and, Bool.or_self, bind_eq_ok, pure_eq_ok] at h
  grind

theorem append_carries {added : List NewRows} (hm : FragmentsSound m) (hbit : UserBitmaps m)
    (hroom : nextFragmentId m + added.length ≤ 2 ^ 32 - 1) (hrows : ∀ r ∈ added, r.rows ≤ 2 ^ 32)
    (h : commitOperation m (appendOperation added) = .ok m') : Carries format m m' := by
  rcases commitOperation_ok hm.unstable (.inl rfl) rfl h with ⟨applied, happlied, rfl⟩
  have hmaintains : Maintains m (appendOperation added) applied :=
    maintains_append false (m.version + 1) rfl happlied
  simp only [applyKind, appendOperation, appendFragments, Bool.false_eq_true, if_false,
    pure_eq_ok] at happlied
  rw [assignIds_zero _ _ (fun f hf => by
    rcases mem_map.mp hf with ⟨r, -, rfl⟩
    rfl)] at happlied
  subst happlied
  have hnew : ∀ g ∈ numberFrom (added.map newFragment) (nextFragmentId m),
      nextFragmentId m ≤ g.id ∧ g.id < 2 ^ 32 - 1 ∧ g.physicalRows ≤ 2 ^ 32 := by
    intro g hg
    rcases mem_numberFrom _ _ g hg with ⟨⟨x, hx, heq⟩, hlow, hhigh⟩
    rcases mem_map.mp hx with ⟨r, hr, rfl⟩
    rw [length_map] at hhigh
    refine ⟨hlow, by omega, ?_⟩
    rw [heq]
    exact hrows r hr
  refine Applies.carries ⟨hmaintains, .inl rfl, rfl, rfl, ?_, fun g hg => ?_, ?_⟩ hm hbit
  · exact nodup_numbered _ hm.ids fun f hf => lt_nextFragmentId hf
  · rcases mem_append.mp hg with hg | hg
    · exact .inl ⟨g, hg, rfl, rfl, rfl⟩
    · rcases hnew g hg with ⟨hlow, hhigh, hsize⟩
      exact .inr ⟨not_used hlow, hhigh, hsize⟩
  · intro i _ f hf g hg hid _ field _ _ offset
    -- An id the fragments share is an old one.
    rcases mem_append.mp hg with hg | hg
    · rw [inj_on_of_nodup_map hm.ids hf hg hid]
    · have hlow := (hnew g hg).1
      have hlt := lt_nextFragmentId hf
      omega

/-- A field an index is on and not pruned for was not modified. -/
theorem not_mem_of_untouched {modified : List Nat} (hfield : field ∈ i.fields) (hpos : 0 ≤ field)
    (h : touches i modified = false) :
    field.toNat ∉ modified := by
  intro hin
  grind [touches]

/-- The fragments an update carries are those it names, with columns written. -/
theorem writeEach_ok : ∀ (writes : List (Nat × DataFile)) (updated : List DataFragment),
    writeEach m writes = .ok updated → updated.map (·.id) = writes.map Prod.fst ∧
      ∀ u ∈ updated, ∃ w ∈ writes, ∃ f, m.fragment? w.1 = some f ∧ u = writeColumns w.2 f := by
  intro writes
  induction writes with
  | nil =>
    intro updated h
    cases h
    exact ⟨rfl, forall_mem_nil _⟩
  | cons w rest ih =>
    rcases w with ⟨id, file⟩
    intro updated h
    rw [writeEach] at h
    cases hfind : m.fragment? id with
    | none => grind
    | some f =>
      simp only [hfind, bind_eq_ok, pure_eq_ok] at h
      rcases h with ⟨others, hothers, rfl⟩
      rcases ih others hothers with ⟨hids, hmem⟩
      refine ⟨?_, fun u hu => ?_⟩
      · rw [map_cons, map_cons, hids]
        exact congrArg (· :: _) (fragment_id m id f hfind)
      · rcases mem_cons.mp hu with rfl | hu
        · exact ⟨(id, file), mem_cons_self, f, hfind, rfl⟩
        · grind

theorem update_carries {writes : List (Nat × DataFile)} (hm : FragmentsSound m)
    (hbit : UserBitmaps m) (h : updateColumns m writes = .ok m') : Carries format m m' := by
  simp only [updateColumns, bind_eq_ok] at h
  rcases h with ⟨updated, hupdated, h⟩
  rcases writeEach_ok writes updated hupdated with ⟨hids, hwritten⟩
  rcases commitOperation_ok hm.unstable (.inr (.inl rfl)) rfl h with ⟨applied, happlied, rfl⟩
  have hmaintains : Maintains m _ applied := maintains_update rfl happlied
  simp only [applyKind, applyUpdate, updateFragments, appendFragments, assignIds, Bool.false_and,
    Bool.false_eq_true, if_false, bind_eq_ok, pure_eq_ok, Except.ok.injEq,
    exists_eq_left', append_nil] at happlied
  subst happlied
  have hfrags := substitute_ids [] (fun id => updated.find? (fun f => f.id = id))
    (fun id u hu => key_of_find hu) m.fragments
  -- A fragment afterwards is the one before, or the one before with columns written.
  have hmem : ∀ g ∈ substitute [] (fun id => updated.find? (fun f => f.id = id)) m.fragments,
      g ∈ m.fragments ∨ ∃ f ∈ m.fragments, ∃ w ∈ writes, w.1 = f.id ∧ g = writeColumns w.2 f := by
    intro g hg
    rcases mem_map.mp hg with ⟨f, hf, hgf⟩
    have hfm := mem_of_mem_filter hf
    cases hfind : updated.find? (fun x => x.id = f.id) with
    | none => grind
    | some u =>
      simp only [hfind, Option.getD_some] at hgf
      rcases hwritten u (mem_of_find?_eq_some hfind) with ⟨w, hw, f₀, hf₀, hu⟩
      have huid : u.id = f.id := key_of_find hfind
      rcases (fragment_iff hm.ids w.1 f₀).mp hf₀ with ⟨hf₀m, hwid⟩
      grind
  refine Applies.carries ⟨hmaintains, .inr (.inl rfl), rfl, rfl, ?_, fun g hg => ?_, ?_⟩ hm hbit
  · have hnodup := hm.ids.filter (fun id => id ∉ ([] : List Nat))
    rw [← hfrags] at hnodup
    exact hnodup
  · rcases hmem g hg with hin | ⟨f, hf, w, -, -, rfl⟩
    · exact .inl ⟨g, hin, rfl, rfl, rfl⟩
    · exact .inl ⟨f, hf, rfl, rfl, rfl⟩
  · intro i hi f hf g hg hid hcov field hfield hschema offset
    rcases hmem g hg with hin | ⟨f', hf', w, hw, hwid, rfl⟩
    · rw [inj_on_of_nodup_map hm.ids hf hin hid]
    · have heq := inj_on_of_nodup_map hm.ids hf hf' hid
      subst heq
      have hpos := hm.nonneg hschema
      have hpruned := (mem_pruneIndex _ _ _ hi).mp hcov
      -- The fragment is still covered though updated, so the field was not written.
      have huntouched : touches i (((writes.flatMap (·.2.fields)).filter
          (fun id => 0 ≤ id)).map Int.toNat) = false := by grind
      refine fieldCell_writeColumns format w.2 f hpos (fun hin => ?_) offset
      refine not_mem_of_untouched hfield hpos huntouched ?_
      grind

/-- Closing a list of fields over children keeps what it has, and adds ids of the schema only. -/
theorem mem_closeChildren (hfields : ∀ f ∈ fields, 0 ≤ f.id ∧ f.id < 2 ^ 31) :
    ∀ (fuel k : Nat) (replaced : List Nat), (∀ n ∈ replaced, n < 2 ^ 31) →
      (∀ n ∈ replaced, n ∈ closeChildren fields fuel k replaced) ∧
        ∀ n ∈ closeChildren fields fuel k replaced, n < 2 ^ 31 := by
  intro fuel
  induction fuel with
  | zero => exact fun k replaced h => ⟨fun n hn => hn, h⟩
  | succ fuel ih =>
    intro k replaced h
    rw [closeChildren]
    cases replaced[k]? with
    | none => exact ⟨fun n hn => hn, h⟩
    | some id =>
      simp only []
      have hfold : (∀ n ∈ replaced, n ∈ fields.foldl (fun acc f =>
          if 0 ≤ f.parentId && f.parentId.toNat = id && toU64 f.id ∉ acc then acc ++ [toU64 f.id]
          else acc) replaced) ∧ ∀ n ∈ fields.foldl (fun acc f =>
          if 0 ≤ f.parentId && f.parentId.toNat = id && toU64 f.id ∉ acc then acc ++ [toU64 f.id]
          else acc) replaced, n < 2 ^ 31 := by
        refine foldlRecOn (motive := fun acc =>
          (∀ n ∈ replaced, n ∈ acc) ∧ ∀ n ∈ acc, n < 2 ^ 31) fields _
          ⟨fun n hn => hn, h⟩ (fun acc hacc f hf => ?_)
        grind [toU64]
      rcases ih (k + 1) _ hfold.2 with ⟨hkeep, hbound⟩
      exact ⟨fun n hn => hkeep n (hfold.1 n hn), hbound⟩

theorem toI32_of_lt (n : Nat) (h : n < 2 ^ 31) : toI32 n = n := by
  unfold toI32
  rw [BitVec.toInt_eq_toNat_of_lt]
  · rw [BitVec.toNat_ofNat, Nat.mod_eq_of_lt (by omega)]
  · grind

/-- Replacing files changes only the fragments named, and only the fields replaced. -/
structure FilesReplaced (format : TableFormat V) (fields : List Field) (replaced : List Int)
    (replacements : List (Nat × DataFile)) (f g : DataFragment) : Prop where
  id : f.id = g.id
  rows : g.physicalRows = f.physicalRows
  deletions : g.deletionFile = f.deletionFile
  other : g.id ∉ replacements.map Prod.fst → g = f
  cells : ∀ field, 0 ≤ field → (∃ x ∈ fields, x.id = field) → field ∉ replaced →
    (∀ r ∈ replacements, field ∉ r.2.fields) → ∀ offset,
      fieldCell format g field offset = fieldCell format f field offset

variable {replacements : List (Nat × DataFile)}

theorem replaceEach_ok (format : TableFormat V) {replaced : List Int}
    {fragments out : List DataFragment}
    (h : replaceEach fields replaced replacements fragments = .ok out) :
    ∀ g ∈ out, ∃ f ∈ fragments, FilesReplaced format fields replaced replacements f g := by
  refine replaceEach_keeps (P := fun l => ∀ g ∈ l, ∃ f ∈ fragments,
    FilesReplaced format fields replaced replacements f g) ?_ h
    (fun g hg => ⟨g, hg, rfl, rfl, rfl, fun _ => rfl, fun _ _ _ _ _ _ => rfl⟩)
  intro r hr l hl g hg
  rcases mem_modifyFirst _ _ hg with hin | ⟨x, hx, hpx, rfl⟩
  · exact hl g hin
  · rcases hl x hx with ⟨f, hf, hid, hrows, hdel, -, hcells⟩
    have hshape : (replaceFile fields replaced r.2 x).physicalRows = x.physicalRows ∧
        (replaceFile fields replaced r.2 x).deletionFile = x.deletionFile := by
      unfold replaceFile
      simp only []
      grind
    have hxid := replaceFile_id fields replaced r.2 x
    refine ⟨f, hf, hid.trans hxid.symm, hshape.1.trans hrows, hshape.2.trans hdel,
      fun hnot => absurd ?_ hnot, fun field hpos hschema hnot hfiles offset => ?_⟩
    · rw [hxid, of_decide_eq_true hpx]
      exact mem_map_of_mem hr
    · rw [fieldCell_replaceFile format x hpos hschema (hfiles r hr) hnot offset]
      exact hcells field hpos hschema hnot hfiles offset

theorem replace_carries (hm : FragmentsSound m) (hbit : UserBitmaps m)
    (hsmall : ∀ r ∈ replacements, ∀ id ∈ r.2.fields, id < 2 ^ 31)
    (h : commitOperation m { kind := .dataReplacement, replacements := replacements } = .ok m') :
    Carries format m m' := by
  rcases commitOperation_ok hm.unstable (.inr (.inr rfl)) rfl h with ⟨applied, happlied, rfl⟩
  rw [applyKind] at happlied
  have hstart : startManifest (some m)
      { kind := .dataReplacement, replacements := replacements } = m := rfl
  have hmaintains : Maintains m { kind := .dataReplacement, replacements := replacements }
      applied := maintains_dataReplacement rfl (hstart.symm ▸ happlied)
  simp only [dataReplacement, bind_eq_ok, pure_eq_ok, ensure_eq_ok] at happlied
  rcases happlied with ⟨_, hsame, fragments, hfragments, rfl⟩
  have hshape := replaceEach_ok format hfragments
  have hids := replaceEach_ids hfragments
  refine Applies.carries ⟨hmaintains, .inr (.inr rfl), rfl, rfl, ?_, fun g hg => ?_, ?_⟩ hm hbit
  · exact hids ▸ hm.ids
  · rcases hshape g hg with ⟨f, hf, hsame⟩
    exact .inl ⟨f, hf, hsame.id, hsame.rows, hsame.deletions⟩
  · intro i hi f hf g hg hid hcov field hfield hschema offset
    rcases hshape g hg with ⟨x, hx, hxid, -, -, hkeep, hcells⟩
    have heq := inj_on_of_nodup_map hm.ids hf hx (hid.trans hxid.symm)
    subst heq
    by_cases hnamed : g.id ∈ replacements.map Prod.fst
    · have hpos := hm.nonneg hschema
      have hpruned := (mem_pruneIndex _ _ _ hi).mp hcov
      have huntouched : touches i (replacedFields m.fields
          { kind := .dataReplacement, replacements := replacements }) = false := by grind
      have hnot := not_mem_of_untouched hfield hpos huntouched
      cases hreps : replacements with
      | nil => grind
      | cons first rest =>
        rcases first with ⟨id, file⟩
        have hfirst : (id, file) ∈ replacements := hreps ▸ mem_cons_self
        have hown : ∀ n ∈ (file.fields.filter (fun id => 0 ≤ id)).map Int.toNat, n < 2 ^ 31 := by
          intro n hn
          rcases mem_map.mp hn with ⟨x, hx, rfl⟩
          have := hsmall (id, file) hfirst x (mem_of_mem_filter hx)
          omega
        rcases mem_closeChildren hm.fields
          (((file.fields.filter (fun id => 0 ≤ id)).map Int.toNat).length + m.fields.length) 0 _
          hown with ⟨hkept, hbound⟩
        have hreplaced : replacedFields m.fields
            { kind := .dataReplacement, replacements := replacements } =
            closeChildren m.fields (((file.fields.filter (fun id => 0 ≤ id)).map
              Int.toNat).length + m.fields.length) 0
              ((file.fields.filter (fun id => 0 ≤ id)).map Int.toNat) := by
          rw [replacedFields, hreps]
        -- Every file has the fields of the first, and all of them are replaced.
        have hfile : field ∉ file.fields := fun hin => hnot (by
          rw [hreplaced]
          exact hkept _ (mem_map.mpr ⟨field, mem_filter.mpr ⟨hin, decide_eq_true hpos⟩, rfl⟩))
        refine hcells field hpos hschema (fun hin => ?_) (fun r hr => ?_) offset
        · rcases mem_map.mp hin with ⟨n, hn, hnf⟩
          rw [toI32_of_lt n (hbound n (hreplaced ▸ hn))] at hnf
          refine hnot ?_
          rw [← hnf, Int.toNat_natCast]
          exact hn
        · grind
    · rw [hkeep hnamed]

/-- A fragment with rows taken away. -/
structure RowsTaken (format : TableFormat V) (f g : DataFragment) : Prop where
  id : f.id = g.id
  rows : g.physicalRows = f.physicalRows
  files : g.files = f.files
  live : ∀ offset,
    liveRow format.vectors g offset = true → liveRow format.vectors f offset = true

/-- What a delete leaves of a fragment: nothing, or the fragment with rows taken away. -/
theorem deleteFrom_ok {rows : List Nat} {kept : List DataFragment}
    (h : deleteFrom format version rows f = .ok kept) :
    kept = [] ∨ ∃ g, kept = [g] ∧ RowsTaken format f g := by
  unfold deleteFrom at h
  split at h
  · cases h
    exact .inr ⟨f, rfl, rfl, rfl, rfl, fun _ => id⟩
  · simp only [bind_eq_ok] at h
    rcases h with ⟨old, hold, h⟩
    split at h
    · exact .inl ((pure_eq_ok _ _).mp h).symm
    · refine .inr ⟨_, ((pure_eq_ok _ _).mp h).symm, rfl, rfl, rfl, fun offset hlive => ?_⟩
      -- The rows deleted before are among those of the new deletion file.
      simp only [liveRow, deletedRows, format.vectors_write, Bool.and_eq_true, decide_eq_true_eq,
        mem_ascending, mem_append, not_or] at hlive
      grind [liveRow]

theorem applyDeletions_ok :
    ∀ (fragments kept : List DataFragment), applyDeletions format version deleted fragments = .ok kept →
      (kept.map (·.id)).Sublist (fragments.map (·.id)) ∧
      ∀ g ∈ kept, ∃ f ∈ fragments, RowsTaken format f g := by
  intro fragments
  induction fragments with
  | nil =>
    intro kept h
    cases h
    exact ⟨List.Sublist.refl _, forall_mem_nil _⟩
  | cons f rest ih =>
    intro kept h
    simp only [applyDeletions, bind_eq_ok, pure_eq_ok] at h
    rcases h with ⟨own, hown, others, hothers, rfl⟩
    rcases ih others hothers with ⟨hsub, hmem⟩
    have hrest : ∀ g ∈ others, ∃ x ∈ f :: rest, RowsTaken format x g :=
      fun g hg => (hmem g hg).imp fun x hx => ⟨.tail _ hx.1, hx.2⟩
    rcases deleteFrom_ok hown with rfl | ⟨g, rfl, htaken⟩
    · exact ⟨hsub.trans (sublist_cons_self _ _), hrest⟩
    · refine ⟨?_, forall_mem_cons.mpr ⟨⟨f, mem_cons_self, htaken⟩, hrest⟩⟩
      rw [singleton_append, map_cons, map_cons, htaken.id]
      exact hsub.cons_cons _

theorem mem_dropFragmentsFromIndices {gone : List Nat} {i' : IndexMetadata}
    (h : i' ∈ dropFragmentsFromIndices indices gone) :
    ∃ i ∈ indices, SameSegment i i' ∧ ∀ id ∈ i'.fragmentIds, id ∈ i.fragmentIds := by
  rcases mem_map.mp h with ⟨i, hi, rfl⟩
  refine ⟨i, hi, ?_⟩
  split
  · exact ⟨⟨_, _, rfl⟩, fun _ hid => hid⟩
  · simp only []
    split
    · exact ⟨⟨_, _, rfl⟩, fun _ hid => mem_of_mem_filter hid⟩
    · exact ⟨⟨_, _, rfl⟩, fun _ hid => hid⟩

/-- What a compaction does to the fragments: those rewritten go, and those that come have the next
    ids. -/
structure Rewrites (m m' : Manifest) (c : Compaction) : Prop where
  unstable : isStable m' = false
  fields : m'.fields = m.fields
  version : m'.version = m.version + 2
  used : ∀ id, Used m id → Used m' id
  created : ∀ id, nextFragmentId m ≤ id → id < nextFragmentId m + c.created.length → Used m' id
  small : ∀ top, m'.maxFragmentId = some top → top < 2 ^ 32 - 1
  ids : (m'.fragments.map (·.id)).Nodup
  present : ∀ id ∈ c.rewritten, id ∈ m.fragments.map (·.id)
  fragments : ∀ g ∈ m'.fragments, (g ∈ m.fragments ∧ g.id ∉ c.rewritten) ∨
    (nextFragmentId m ≤ g.id ∧ g.id < nextFragmentId m + c.created.length ∧ g.physicalRows ≤ 2 ^ 32)

variable (hm : FragmentsSound m)

include hm

theorem delete_carries (h : deleteRows format m deleted = .ok m') : Carries format m m' := by
  simp only [deleteRows, bind_eq_ok, pure_eq_ok] at h
  rcases h with ⟨kept, hkept, rfl⟩
  rcases applyDeletions_ok m.fragments kept hkept with ⟨hsub, hmem⟩
  have hhistory := reuseHistory_kept { m with
      fragments := sortFragments kept
      indices := retainRelevantIndices m.indices m.fields kept } hm
    (fun i hi hname => ⟨i, (mem_retainRelevantIndices hi).1, hname, rfl⟩)
    (fun j hj hname => ⟨j, mem_retain_reuse _ _ hj hname, hname⟩)
  refine ⟨?_, rfl, Nat.le_succ _, fun id hused => hused, hm.small, ?_, fun g hg => ?_, fun g hg => ?_,
    fun i hi hsys => ?_, .inl hhistory, fun i hi hsys => ?_⟩
  · have hstable : isStable m = false := hm.unstable
    grind [isStable, setFlag_deletions_stable]
  · exact ((sortFragments_perm kept).map (·.id)).nodup_iff.mpr (hm.ids.sublist hsub)
  · rcases hmem g ((mem_sortFragments g kept).mp hg) with ⟨f, hf, hid, hrows, -⟩
    exact ⟨hid ▸ (hm.rows f hf).1, hrows ▸ (hm.rows f hf).2⟩
  · rcases hmem g ((mem_sortFragments g kept).mp hg) with ⟨f, hf, hid, -, -, hlive⟩
    exact .inl ⟨f, hf, hid, hlive⟩
  · have hdetails := hm.system i (mem_retainRelevantIndices hi).1 hsys
    rw [← hhistory] at hdetails
    exact hdetails
  · refine ⟨i, (mem_retainRelevantIndices hi).1, ⟨_, _, rfl⟩, fun id hid => .inl hid, ?_⟩
    intro f hf g hg hid _ field _ _ offset
    rcases hmem g ((mem_sortFragments g kept).mp hg) with ⟨x, hx, hxid, -, hfiles, -⟩
    have heq := inj_on_of_nodup_map hm.ids hf hx (hid.trans hxid.symm)
    rw [fieldCell, hfiles, ← heq]
    rfl

theorem Carries.refl : Carries format m m :=
  ⟨hm.unstable, rfl, Nat.le_refl _, fun _ h => h, hm.small, hm.ids, hm.rows,
    fun f hf => .inl ⟨f, hf, rfl, fun _ h => h⟩, hm.system, .inl rfl,
    fun i hi _ => ⟨i, hi, ⟨_, _, rfl⟩, fun _ h => .inl h, fun f hf g hg hid _ _ _ _ _ => by
      rw [inj_on_of_nodup_map hm.ids hf hg hid]⟩⟩

/-- A reservation keeps the ids used and adds those it reserves. -/
theorem reserveManifest_used {count : Nat} (hroom : nextFragmentId m + count ≤ 2 ^ 32 - 1) :
    (∀ id, Used m id → Used (reserveManifest m count) id) ∧
      (∀ id, nextFragmentId m ≤ id → id < nextFragmentId m + count →
        Used (reserveManifest m count) id) ∧
      ∀ top, (reserveManifest m count).maxFragmentId = some top → top < 2 ^ 32 - 1 := by
  by_cases hcount : count = 0
  · rw [reserveManifest, if_pos hcount]
    exact ⟨fun _ h => h, fun id _ _ => by omega, hm.small⟩
  · have hmark := reserveManifest_mark (Nat.pos_of_ne_zero hcount) hroom
    refine ⟨fun id hid => ⟨_, hmark, ?_⟩, fun id _ hlt => ⟨_, hmark, by omega⟩, fun top htop => ?_⟩
    · have := hid.lt_next
      omega
    · grind

/-- A compaction that has work to do, made on the version it was planned from. -/
theorem compact_rewrites (hroom : nextFragmentId m + c.created.length ≤ 2 ^ 32 - 1)
    (hrows : ∀ f ∈ c.created, f.physicalRows ≤ 2 ^ 32)
    (hwork : c.rewrites.all (fun r => r.oldFragmentIds.isEmpty) = false)
    (h : compactCommit format.vectors defer m m [] c = .ok m') :
    Rewrites m m' c ∧ ∃ reserved : Manifest, reserved.indices = m.indices ∧
      reserved.version = m.version + 1 ∧
      (0 < c.created.length → firstNewId reserved c.created.length = nextFragmentId m) ∧
      compactionIndices format.vectors defer m reserved c = .ok m'.indices := by
  rcases compactCommit_ok hwork h with ⟨hunchanged, reserved, hreserved, hout⟩
  rw [reserveIds, isEmpty_nil, if_pos rfl, Except.ok.injEq] at hreserved
  rcases reserveManifest_used hm hroom with ⟨hused, hcreated, hsmall⟩
  have hfirst : 0 < c.created.length → firstNewId reserved c.created.length = nextFragmentId m := by
    intro hcount
    rw [← hreserved]
    exact firstNewId_eq hcount hroom (reserveManifest_mark hcount hroom)
  -- Without new fragments it does not matter what they would be numbered from.
  have hnumber : numberFrom c.created (firstNewId reserved c.created.length) =
      numberFrom c.created (nextFragmentId m) := by
    cases hcreate : c.created with
    | nil => rw [numberFrom, numberFrom]
    | cons f rest => rw [← hcreate, hfirst (by rw [hcreate]; exact Nat.succ_pos _)]
  rcases reserveManifest_keeps m c.created.length with ⟨mark, hkeep⟩
  rw [hkeep] at hreserved hused hcreated hsmall
  simp only [compactionManifest, hnumber, bind_eq_ok, pure_eq_ok] at hout
  rcases hout with ⟨_, -, indices, hindices, rfl⟩
  subst hreserved
  have hmem : ∀ g ∈ m.fragments.filter (fun f => f.id ∉ c.rewritten) ++
      numberFrom c.created (nextFragmentId m), (g ∈ m.fragments ∧ g.id ∉ c.rewritten) ∨
        (nextFragmentId m ≤ g.id ∧ g.id < nextFragmentId m + c.created.length ∧
          g.physicalRows ≤ 2 ^ 32) := by
    intro g hg
    rcases mem_append.mp hg with hg | hg
    · grind
    · rcases mem_numberFrom _ _ g hg with ⟨⟨x, hx, heq⟩, hlow, hhigh⟩
      grind
  refine ⟨⟨?_, rfl, rfl, hused, hcreated, hsmall, ?_, fun id hid => ?_, fun g hg => ?_⟩,
    { m with maxFragmentId := mark, version := m.version + 1 }, rfl, rfl, hfirst, hindices⟩
  · have hstable : isStable m = false := hm.unstable
    grind [isStable, setFlag_deletions_stable]
  · refine ((sortFragments_perm _).map (·.id)).nodup_iff.mpr ?_
    exact nodup_numbered _ (hm.ids.sublist (filter_sublist.map _))
      fun f hf => lt_nextFragmentId (m := m) (mem_of_mem_filter hf)
  · rcases Option.ne_none_iff_exists'.mp (hunchanged id hid).1 with ⟨f, hf⟩
    exact mem_map.mpr ⟨f, mem_of_find?_eq_some hf, fragment_id m id f hf⟩
  · exact hmem g ((mem_sortFragments g _).mp hg)

/-- A compaction carries the segments on if its indices do. -/
theorem Rewrites.carries (h : Rewrites m m' c)
    (hsystem : ∀ i ∈ m'.indices, isSystemIndex i = true → i.name = fragReuseIndex ∧ i.details =
      .reuseInline (reuseHistory m') ∧ i.fields = [])
    (hhistory : reuseHistory m' = reuseHistory m ∨ ∃ v, reuseHistory m' = reuseHistory m ++ [v] ∧
      v.datasetVersion = m.version + 2 ∧ (∀ g ∈ v.groups, ∀ id ∈ g.newIds, ¬ Used m id) ∧ ∀ g ∈
      v.groups, ∀ id ∈ g.oldIds, id ∈ c.rewritten ∧ ∀ i ∈ m'.indices, isSystemIndex i = false → id ∉
      i.fragmentIds)
    (hsegments : ∀ i' ∈ m'.indices, isSystemIndex i' = false → ∃ i ∈ m.indices, SameSegment i i' ∧ ∀
      id ∈ i'.fragmentIds, id ∈ i.fragmentIds ∨ (¬ Used m id ∧ Used m' id ∧ id ∈ movedSince m' i')) :
    Carries format m m' := by
  refine ⟨h.unstable, h.fields, by have := h.version; omega, h.used, h.small, h.ids, fun g hg => ?_,
    fun g hg => ?_, hsystem, ?_, fun i' hi' hsys => ?_⟩
  · rcases h.fragments g hg with ⟨hin, -⟩ | ⟨hlow, hhigh, hsize⟩
    · exact ⟨h.used _ (hm.rows g hin).1, (hm.rows g hin).2⟩
    · exact ⟨h.created _ hlow hhigh, hsize⟩
  · rcases h.fragments g hg with ⟨hin, -⟩ | ⟨hlow, -⟩
    · exact .inl ⟨g, hin, rfl, fun _ hlive => hlive⟩
    · exact .inr (not_used hlow)
  · rcases hhistory with heq | ⟨v, heq, hv, hfresh, hold⟩
    · exact .inl heq
    · refine .inr ⟨v, heq, by omega, by have := h.version; omega, hfresh, fun g hg id hid => ?_⟩
      rcases hold g hg id hid with ⟨hre, hcov⟩
      rcases mem_map.mp (h.present id hre) with ⟨f, hf, hfid⟩
      refine ⟨hfid ▸ (hm.rows f hf).1, fun hin => ?_, hcov⟩
      rcases mem_map.mp hin with ⟨g, hg, hgid⟩
      rcases h.fragments g hg with ⟨-, hnot⟩ | ⟨hlow, -⟩
      · exact hnot (hgid ▸ hre)
      · have hlt := lt_nextFragmentId hf
        omega
  · rcases hsegments i' hi' hsys with ⟨i, hi, hsame, hids⟩
    refine ⟨i, hi, hsame, hids, fun f hf g hg hid _ field _ _ offset => ?_⟩
    -- A fragment of an old id is the old fragment.
    rcases h.fragments g hg with ⟨hin, -⟩ | ⟨hlow, -⟩
    · rw [inj_on_of_nodup_map hm.ids hf hin hid]
    · have hlt := lt_nextFragmentId hf
      omega

/-- An eager compaction takes the rewritten fragments out of the coverage. -/
theorem compact_eager_carries (h : Rewrites m m' c)
    (hindices : m'.indices = dropFragmentsFromIndices m.indices c.rewritten) :
    Carries format m m' := by
  have hmem : ∀ i' ∈ m'.indices, ∃ i ∈ m.indices, SameSegment i i' ∧
      ∀ id ∈ i'.fragmentIds, id ∈ i.fragmentIds := by
    rw [hindices]
    exact fun i' hi' => mem_dropFragmentsFromIndices hi'
  have hhistory : reuseHistory m' = reuseHistory m := by
    refine reuseHistory_kept m' hm (fun i' hi' hname => ?_) (fun j hj hname => ?_)
    · rcases hmem i' hi' with ⟨i, hi, ⟨_, _, rfl⟩, -⟩
      exact ⟨i, hi, hname, rfl⟩
    · rw [hindices]
      refine ⟨_, mem_map.mpr ⟨j, hj, rfl⟩, ?_⟩
      grind
  refine h.carries hm (fun i' hi' hsys => ?_) (.inl hhistory) (fun i' hi' _ => ?_)
  · rcases hmem i' hi' with ⟨i, hi, ⟨_, _, rfl⟩, -⟩
    rw [hhistory]
    exact hm.system i hi hsys
  · grind

/-- The entries of the fragment reuse index agree, so a new one continues the history. -/
theorem priorVersions_eq {versions : List ReuseVersion}
    (h : priorVersions (priorReuse m) = .ok versions) : versions = reuseHistory m := by
  cases hprior : priorReuse m with
  | none =>
    rw [hprior, priorVersions, Except.ok.injEq] at h
    have hnone : ∀ i ∈ m.indices, i.name ≠ fragReuseIndex := by
      intro i hi hname
      have := find?_eq_none.mp hprior i (mem_reverse.mpr hi)
      exact this (decide_eq_true hname)
    rw [← h]
    exact (reuseHistory_eq (fun i hi hname => absurd hname (hnone i hi)) (.inl rfl)).symm
  | some prior =>
    have hmem := mem_reverse.mp (mem_of_find?_eq_some hprior)
    have hname : prior.name = fragReuseIndex := by
      have hfound := find?_some hprior
      exact of_decide_eq_true hfound
    rw [hprior, priorVersions, (hm.system prior hmem (isSystemIndex_of_reuse hname)).2.1,
      Except.ok.injEq] at h
    exact h.symm

variable (hseg : ∀ i ∈ m.indices, isSystemIndex i = false → i.hasFragmentBitmap = true ∧
    i.datasetVersion ≤ m.version)
  (hroom : nextFragmentId m + c.created.length ≤ 2 ^ 32 - 1)

include hseg hroom

/-- A deferred compaction moves coverage to the new fragments, and records them. -/
theorem compact_deferred_carries (h : Rewrites m m' c) {groups : List ReuseGroup}
    {entry : IndexMetadata} {coverage : List Nat} (hold : groups.flatMap (·.oldIds) = c.rewritten)
    (hnew : groups.flatMap (·.newIds) = List.range' (nextFragmentId m) c.created.length)
    (hentry : fragmentReuseIndexEntry (priorReuse m) (m.version + 2) groups coverage c.uuid c.now =
      .ok entry)
    (hindices : m'.indices = (m.indices.map (remapIndex (coverageGroups groups))).filter (fun i =>
      i.name ≠ fragReuseIndex) ++ [entry]) : Carries format m m' := by
  have holdIds : ∀ g ∈ groups, ∀ id ∈ g.oldIds, id ∈ c.rewritten :=
    fun g hg id hid => hold ▸ mem_flatMap.mpr ⟨g, hg, hid⟩
  have hnewIds : ∀ g ∈ groups, ∀ id ∈ g.newIds,
      nextFragmentId m ≤ id ∧ id < nextFragmentId m + c.created.length := by
    intro g hg id hid
    have hin : id ∈ groups.flatMap (·.newIds) := mem_flatMap.mpr ⟨g, hg, hid⟩
    rw [hnew, mem_range'_1] at hin
    exact hin
  have hfresh : ∀ g ∈ groups, ∀ id ∈ g.newIds, ¬ Used m id :=
    fun g hg id hid => not_used (hnewIds g hg id hid).1
  have hrewritten : ∀ id ∈ c.rewritten, Used m id := by
    intro id hid
    rcases mem_map.mp (h.present id hid) with ⟨f, hf, rfl⟩
    exact (hm.rows f hf).1
  have hgroups : coverageGroups groups = groups.map (fun g => (g.oldIds, g.newIds)) := by
    refine coverageGroups_small (fun g hg id hid => ?_) (fun g hg id hid => ?_)
    · have := hm.small_of_used (hrewritten id (holdIds g hg id hid))
      omega
    · have := (hnewIds g hg id hid).2
      omega
  simp only [fragmentReuseIndexEntry, bind_eq_ok, pure_eq_ok] at hentry
  rcases hentry with ⟨versions, hversions, rfl⟩
  rw [priorVersions_eq hm hversions] at hindices
  -- An entry afterwards is the new one, or one of before with its coverage moved.
  have hmem : ∀ i' ∈ m'.indices, (i'.name = fragReuseIndex ∧ i'.fields = [] ∧ i'.details =
      .reuseInline (reuseHistory m ++ [{ datasetVersion := m.version + 2, groups := groups }])) ∨
      (isSystemIndex i' = false ∧ ∃ i ∈ m.indices, isSystemIndex i = false ∧ SameSegment i i' ∧
        i'.fragmentIds = remapCoverage i.fragmentIds (coverageGroups groups)) := by
    intro i' hi'
    rw [hindices] at hi'
    rcases mem_append.mp hi' with hin | hin
    · rw [mem_filter, decide_eq_true_eq] at hin
      rcases mem_map.mp hin.1 with ⟨i, hi, rfl⟩
      have hsame := remapIndex_keeps (coverageGroups groups) i
      have hname : (remapIndex (coverageGroups groups) i).name = i.name := by
        rcases hsame with ⟨_, _, heq⟩
        rw [heq]
      have hsys : isSystemIndex i = false := by
        rw [Bool.eq_false_iff]
        exact fun hsys => hin.2 (hname.trans (hm.system i hi hsys).1)
      refine .inr ⟨?_, i, hi, hsys, hsame, remapIndex_ids _ hsys ?_⟩
      · grind [isSystemIndex]
      · exact fun hno => absurd ((hseg i hi hsys).1.symm.trans hno) (by decide)
    · grind
  have hhistory : reuseHistory m' =
      reuseHistory m ++ [{ datasetVersion := m.version + 2, groups := groups }] := by
    refine reuseHistory_eq (fun i' hi' hname => ?_) (.inr ?_)
    · grind
    · exact ⟨_, hindices ▸ mem_append_right _ (mem_singleton.mpr rfl), rfl⟩
  refine h.carries hm (fun i' hi' hsys => ?_) (.inr ⟨_, hhistory, rfl, hfresh, fun g hg id hid =>
    ⟨holdIds g hg id hid, fun i' hi' hsys hcov => ?_⟩⟩) (fun i' hi' hsys => ?_)
  · grind
  · rcases hmem i' hi' with ⟨hname, -⟩ | ⟨-, i, hi, -, -, hids⟩
    · exact absurd (hsys.symm.trans (isSystemIndex_of_reuse hname)) (by decide)
    · rw [hids, hgroups] at hcov
      rcases mem_remapCoverage id _ _ hcov with ⟨-, hnot⟩ | ⟨k, hk, hin⟩
      · exact hnot _ (mem_map.mpr ⟨g, hg, rfl⟩) hid
      · rcases mem_map.mp hk with ⟨x, hx, rfl⟩
        exact hfresh x hx id hin (hrewritten id (holdIds g hg id hid))
  · rcases hmem i' hi' with ⟨hname, -⟩ | ⟨-, i, hi, hsysOld, hsame, hids⟩
    · exact absurd (hsys.symm.trans (isSystemIndex_of_reuse hname)) (by decide)
    · refine ⟨i, hi, hsame, fun id hid => ?_⟩
      rw [hids, hgroups] at hid
      rcases mem_remapCoverage id _ _ hid with ⟨hin, -⟩ | ⟨k, hk, hin⟩
      · exact .inl hin
      · rcases mem_map.mp hk with ⟨x, hx, rfl⟩
        rcases hnewIds x hx id hin with ⟨hlow, hhigh⟩
        refine .inr ⟨hfresh x hx id hin, h.created id hlow hhigh, ?_⟩
        rw [mem_movedSince, hhistory]
        refine ⟨_, mem_append_right _ (mem_singleton.mpr rfl), ?_, x, hx, hin⟩
        have hver := (hseg i hi hsysOld).2
        rcases hsame with ⟨_, _, rfl⟩
        grind

theorem compact_carries (hrows : ∀ f ∈ c.created, f.physicalRows ≤ 2 ^ 32)
    (h : compactCommit format.vectors defer m m [] c = .ok m') : Carries format m m' := by
  by_cases hwork : c.rewrites.all (fun r => r.oldFragmentIds.isEmpty) = true
  · -- Nothing to rewrite: the version stays.
    rw [compactCommit, if_pos hwork, Except.ok.injEq] at h
    exact h ▸ Carries.refl hm
  · rcases compact_rewrites hm hroom hrows (Bool.eq_false_iff.mpr hwork) h with
      ⟨hre, reserved, hsame, hversion, hfirst, hindices⟩
    cases defer with
    | false =>
      rw [compactionIndices, if_neg (by decide), hsame, Except.ok.injEq] at hindices
      exact compact_eager_carries hm hre hindices.symm
    | true =>
      simp only [compactionIndices, if_true, bind_eq_ok, pure_eq_ok] at hindices
      rcases hindices with ⟨groups, hgroups, entry, hentry, hout⟩
      rcases compactionGroups_ids _ hgroups with ⟨hold, hnew⟩
      rw [hsame] at hout
      rw [hversion] at hentry
      refine compact_deferred_carries hm hseg hroom hre hold ?_ hentry hout.symm
      rw [hnew]
      show range' _ c.created.length = _
      grind

end Operations

end NanoLance
