import NanoLance.RowIdCompaction

/-!
# Row Ids over Whole Runs

When the ids of a dataset's live rows stay distinct.

Every mechanism but one only moves ids: a delete drops some, an update and a
compaction write the ids they took from their rows, an append takes new ones
above all others. A merge insert writes the id of the row each source row
matches. Two source rows with one key match one row, and when both are written
they are given one id. Over a run, the ids stay distinct when no merge insert
writes two source rows of one key in place of a row. Where one does, what
becomes of the two rows depends on the other ids of their file: the sequence may
keep both, give one of them another number or be shorter than the file.

The runs are those that keep within the address space: fragment ids of 32 bits,
at most `2 ^ 32` rows in a fragment and row ids of 64 bits.

## Theorems

* `mergeInsertOnce_unique`: A merge insert that keeps ids distinct.
* `built_unique`: A version that is built takes new ids.
* `row_ids_unique`: A run that keeps ids distinct.
-/

namespace NanoLance

namespace RowIds

open List Lib

/-! ### Merge inserts -/

/-- A source row that is written in place of a row of the dataset. -/
def MergeInsert.updating (spec : MergeInsert) (rows : List Nat) (row : SourceRow) : Bool :=
  (spec.target rows row).any (spec.updates row)

section

variable (spec : MergeInsert) (rows : List Nat)

theorem MergeInsert.target_some (row : SourceRow) (address : Nat)
    (h : spec.target rows row = some address) :
    address ∈ rows ∧ spec.keyAt address = row.key ∧
      rows.reverse.find? (fun a => spec.keyAt a = row.key) = some address := by
  unfold MergeInsert.target at h
  rcases Option.bind_eq_some_iff.mp h with ⟨key, hkey, hfind⟩
  grind

/-- The rows of the dataset that source rows are written in place of. -/
theorem MergeInsert.written_rows (source : List SourceRow) :
    (source.filterMap (spec.written rows)).reduceOption =
      source.filterMap (fun row => (spec.target rows row).filter (spec.updates row)) := by
  rw [reduceOption, filterMap_filterMap]
  grind [MergeInsert.written, id]

/-- The keys of the source rows that update are those of the rows they update. -/
theorem MergeInsert.updating_keys (source : List SourceRow) :
    (source.filter (spec.updating rows)).map (·.key) =
      (source.filterMap (fun row => (spec.target rows row).filter (spec.updates row))).map
        spec.keyAt := by
  induction source with
  | nil => rfl
  | cons row source ih =>
    cases htarget : spec.target rows row with
    | none => grind [MergeInsert.updating]
    | some address =>
      by_cases hupdates : spec.updates row address = true
      · rw [filter_cons_of_pos (by simp [MergeInsert.updating, htarget, hupdates]),
          filterMap_cons_some (b := address) (by rw [htarget, Option.filter_some, if_pos hupdates]),
          map_cons, map_cons, ih, (spec.target_some rows row address htarget).2.1]
      · grind [MergeInsert.updating]

/-- No row is updated twice when no two source rows that update have one key: a row has one key. -/
theorem MergeInsert.written_nodup
    (h : ((spec.source.filter (spec.updating rows)).map (·.key)).Nodup) :
    ((spec.source.filterMap (spec.written rows)).reduceOption).Nodup := by
  rw [spec.updating_keys] at h
  rw [spec.written_rows]
  exact h.of_map _

end

section Merge

variable {files : DeletionFiles} {m : Manifest}

theorem mergeInsertOnce_unique (hfiles : ReadsBack files) (hm : SoundRows files m)
    (hunique : UniqueRowIds files m) {spec : MergeInsert}
    (hfits : ∀ rows, scanAddresses files m = .ok rows →
      Fits m (spec.writer.fragments (spec.source.filterMap (spec.written rows)).length))
    (hdistinct : ∀ rows, scanAddresses files m = .ok rows →
      ((spec.source.filter (spec.updating rows)).map (·.key)).Nodup)
    {out : Manifest} (h : mergeInsertOnce files m spec = .ok out) :
    SoundRows files out ∧ UniqueRowIds files out := by
  simp only [mergeInsertOnce, bind_eq_ok] at h
  rcases h with ⟨_, _, rows, hrows, _, _, _, _, hout⟩
  have hscan := hm.scan rows hrows
  have hmember : ∀ address ∈ (spec.source.filterMap (spec.written rows)).reduceOption,
      ∃ row ∈ spec.source, spec.target rows row = some address ∧
        spec.updates row address = true := by
    intro address haddress
    rw [spec.written_rows] at haddress
    rcases mem_filterMap.mp haddress with ⟨row, hrow, htarget⟩
    exact ⟨row, hrow, Option.filter_eq_some_iff.mp htarget⟩
  refine replaceRows_unique hm hunique (fun address haddress => ?_)
    (spec.written_nodup rows (hdistinct rows hrows)) hfiles (hfits rows hrows)
    (fun address haddress => ?_) hout
  · rcases hmember address haddress with ⟨row, _, htarget, _⟩
    rw [← hscan]
    exact (spec.target_some rows row address htarget).1
  · rcases hmember address haddress with ⟨row, hrow, htarget, hupdates⟩
    refine mem_append_left _ (mem_filterMap.mpr ⟨row, hrow, ?_⟩)
    rw [MergeInsert.deletes, htarget, Option.filter_some, hupdates, Bool.true_or, if_pos rfl]

end Merge

/-! ### Versions that are built -/

variable {out : Manifest} {request : VersionRequest} {version : Nat}

variable {m : Manifest}

section Build

variable (files : DeletionFiles) (bases : List BasePath)

/-- New fragments of a writer take the next row ids, in order. -/
theorem newFragments_rows {mapping : List LanceField} :
    ∀ (fragments : List NewFragment) (nextId nextRowId : Nat) (out : List DataFragment × Nat),
      newFragments mapping version true fragments nextId nextRowId = .ok out →
      out.2 = nextRowId + (fragments.map (·.rows)).sum ∧
      out.1.map (·.physicalRows) = fragments.map (·.rows) ∧
      (∀ f ∈ out.1, Readable files bases f) ∧
      (out.1.flatMap (fragmentRows files bases)).map Prod.snd =
        List.range' nextRowId (fragments.map (·.rows)).sum := by
  intro fragments
  induction fragments with
  | nil =>
    intro nextId nextRowId out h
    rw [newFragments, Except.ok.injEq] at h
    rw [← h]
    exact ⟨rfl, rfl, forall_mem_nil _, rfl⟩
  | cons f rest ih =>
    intro nextId nextRowId out h
    simp only [newFragments, if_true, bind_eq_ok, pure_eq_ok] at h
    rcases h with ⟨_, _, others, hothers, rfl⟩
    rcases ih _ _ others hothers with ⟨hnext, hphysical, hread, hrows⟩
    rcases rows_of_values files bases
      { id := nextId
        physicalRows := f.rows
        files := [manifestDataFile mapping f]
        rowMeta := newRowMeta version nextRowId f.rows }
      rfl rfl length_range' rfl with ⟨hreadf, hrowsf⟩
    rw [map_cons, sum_cons]
    refine ⟨?_, ?_, forall_mem_cons.mpr ⟨hreadf, hread⟩, ?_⟩
    · show others.2 = _
      omega
    · rw [map_cons, hphysical]
    · rw [flatMap_cons, map_append, hrowsf, hrows, range'_append_1]

/-- The parts of a version that is built with stable row ids. -/
theorem buildVersion_stable {prior : Option Manifest}
    (h : buildVersion version prior request = .ok out)
    (hstable : (prior.any isStable || (request.extras.stableRowIds &&
      effectiveMode prior.isSome request.mode ≠ .append)) = true) :
    isStable out = true ∧
      ∃ added, newFragments request.mapping version true request.fragments
          (firstAddedId prior (effectiveMode prior.isSome request.mode))
          (carriedOver version prior (effectiveMode prior.isSome request.mode) request).nextRowId =
        .ok added ∧
      out.fragments = (carriedOver version prior (effectiveMode prior.isSome request.mode)
        request).fragments ++ added.1 ∧
      out.nextRowId = added.2 ∧
      out.bases = (carriedOver version prior (effectiveMode prior.isSome request.mode)
        request).bases := by
  simp only [buildVersion, hstable, if_true, bind_eq_ok, pure_eq_ok] at h
  rcases h with ⟨_, _, added, hadded, rfl⟩
  refine ⟨?_, added, hadded, rfl, rfl, rfl⟩
  have habsorb : ∀ word : BitVec 64,
      (word ||| flagStableRowIds) &&& flagStableRowIds = flagStableRowIds := by grind
  unfold isStable
  simp only []
  generalize (carriedOver version prior (effectiveMode prior.isSome request.mode)
    request).readerFeatureFlags = word
  split
  · -- The flag of deletion files is another one.
    have hdeletions := setFlag_deletions_stable (word ||| flagStableRowIds) true
    rw [setFlag, if_pos rfl, habsorb] at hdeletions
    rw [hdeletions]
    decide
  · rw [habsorb]
    decide

/-- Fragments with new row ids, after others whose ids are below them. -/
theorem built_unique {mapping : List LanceField} {nextId next : Nat} {fragments : List NewFragment}
    {added : List DataFragment × Nat}
    (hadded : newFragments mapping version true fragments nextId next = .ok added)
    (hsmall : ∀ f ∈ fragments, f.rows ≤ 2 ^ 32) (hstable : isStable out = true)
    {old : List DataFragment} (hfragments : out.fragments = old ++ added.1)
    (hnext : out.nextRowId = added.2)
    (hold : ∀ f ∈ old, Readable files out.bases f ∧ f.physicalRows ≤ 2 ^ 32 ∧ f.id < nextId)
    (hdistinct : (old.map (·.id)).Nodup)
    (hnodup : ((old.flatMap (fragmentRows files out.bases)).map Prod.snd).Nodup)
    (hbelow : ∀ row ∈ old.flatMap (fragmentRows files out.bases), row.2 < next) :
    SoundRows files out ∧ UniqueRowIds files out := by
  rcases newFragments_rows files out.bases fragments nextId next added hadded with
    ⟨hlast, hphysical, hread, hrows⟩
  have hids := (newFragments_ids fragments nextId next added hadded).1
  have hsound : SoundRows files out := by
    refine ⟨hstable, fun f hf => ?_, ?_, fun f hf => ?_⟩
    · grind
    · rw [hfragments, map_append, hids, nodup_append]
      refine ⟨hdistinct, nodup_range', fun id hid other hother => ?_⟩
      rcases mem_map.mp hid with ⟨f, hf, rfl⟩
      grind
    · rw [hfragments] at hf
      rcases mem_append.mp hf with hf | hf
      · exact (hold f hf).2.1
      · have hmem := mem_map_of_mem (f := DataFragment.physicalRows) hf
        rw [hphysical] at hmem
        rcases mem_map.mp hmem with ⟨g, hg, heq⟩
        rw [← heq]
        exact hsmall g hg
  refine ⟨hsound, ?_⟩
  have hlive : (liveRows files out).map Prod.snd =
      (old.flatMap (fragmentRows files out.bases)).map Prod.snd ++
        range' next (fragments.map (·.rows)).sum := by
    rw [liveRows, hfragments, flatMap_append, map_append, hrows]
  rw [uniqueRowIds_iff hsound.readable, hlive, nodup_append]
  refine ⟨⟨hnodup, nodup_range', fun id hid other hother => ?_⟩, fun row hrow => ?_⟩
  · rcases mem_map.mp hid with ⟨row, hrow, rfl⟩
    grind
  · have hmem := mem_map_of_mem (f := Prod.snd) hrow
    rw [hlive] at hmem
    rcases mem_append.mp hmem with hmem | hmem
    · rcases mem_map.mp hmem with ⟨old', hold', heq⟩
      have hlt := hbelow old' hold'
      omega
    · grind

/-- A dataset created with stable row ids. -/
theorem create_unique (hrequest : request.extras.stableRowIds = true)
    (hsmall : ∀ f ∈ request.fragments, f.rows ≤ 2 ^ 32) (h : buildVersion 1 none request = .ok out) :
    SoundRows files out ∧ UniqueRowIds files out := by
  -- There is nothing to append to.
  have hmode : effectiveMode false request.mode ≠ .append := by
    simp only [buildVersion, requestValid, bind_eq_ok, ensure_eq_ok] at h
    grind
  rcases buildVersion_stable h (by simp [hrequest, hmode]) with
    ⟨hstable, added, hadded, hfragments, hnext, _⟩
  have hnone : (carriedOver 1 none (effectiveMode false request.mode) request).fragments = [] := by
    simp [carriedOver]
  refine built_unique files hadded hsmall hstable
    (by rw [hfragments]; exact congrArg (· ++ added.1) hnone) hnext
    (forall_mem_nil _) nodup_nil nodup_nil
    (forall_mem_nil _)

/-- An append takes new ids. -/
theorem append_unique (hm : SoundRows files m) (hunique : UniqueRowIds files m) {append : Append}
    (hsmall : ∀ f ∈ append.request.fragments, f.rows ≤ 2 ^ 32)
    (h : buildVersion version (some m) append.request = .ok out) :
    SoundRows files out ∧ UniqueRowIds files out := by
  rcases buildVersion_stable h (by simp [hm.stable]) with
    ⟨hstable, added, hadded, hfragments, hnext, hbases⟩
  rw [Option.isSome_some, append.appends] at hadded hfragments hbases
  rw [firstAddedId_append] at hadded
  rcases (uniqueRowIds_iff hm.readable).mp hunique with ⟨hnodup, hbelow⟩
  have hsame : out.bases = m.bases := hbases
  refine built_unique files hadded hsmall hstable hfragments hnext ?_ hm.distinct ?_ ?_
  · intro f hf
    rw [hsame]
    exact ⟨hm.readable f hf, hm.small f hf, lt_nextFragmentId hf⟩
  · rw [hsame]
    exact hnodup
  · rw [hsame]
    exact hbelow

end Build

/-! ### Runs -/

section Runs

variable (files : DeletionFiles)

/-- The files an operation writes. -/
def writtenFiles (m : Manifest) : RowRequest → Except String (List DataFragment)
  | .append append => .ok (append.request.fragments.map (fun f => { id := 0, physicalRows := f.rows }))
  | .delete _ => .ok []
  | .update request => do
    let rows ← scanAddresses files m
    return request.writer.fragments (rows.filter request.holds).length
  | .mergeInsert spec => do
    let rows ← scanAddresses files m
    return spec.writer.fragments (spec.source.filterMap (spec.written rows)).length
  | .compact options => do
    let c ← planCompaction files m options
    return c.created

/-- The files an operation writes have ids of 32 bits left, and their rows fit. -/
def HasRoom (m : Manifest) (request : RowRequest) : Prop :=
  ∀ written, writtenFiles files m request = .ok written →
    nextFragmentId m + written.length ≤ 2 ^ 32 - 1 ∧ Fits m written

/-- No two source rows of a merge insert that are written in place of a row have the same key. -/
def DistinctUpdates (m : Manifest) : RowRequest → Prop
  | .mergeInsert spec => ∀ rows, scanAddresses files m = .ok rows →
      ((spec.source.filter (spec.updating rows)).map (·.key)).Nodup
  | _ => True

/-- An operation with distinct updates keeps ids distinct. -/
theorem rowStep_unique (hfiles : ReadsBack files) {request : RowRequest} {m' : Manifest}
    {versions : List Manifest} (hm : SoundRows files m ∧ UniqueRowIds files m)
    (hroom : HasRoom files m request) (hdistinct : DistinctUpdates files m request)
    (h : rowStep files m request = .ok (m', versions)) :
    (SoundRows files m' ∧ UniqueRowIds files m') ∧ ∀ v ∈ versions, UniqueRowIds files v := by
  rcases hm with ⟨hsound, hunique⟩
  simp only [rowStep, bind_eq_ok, pure_eq_ok, Prod.mk.injEq] at h
  rcases h with ⟨versions, hcommitted, rfl, rfl⟩
  suffices hall : ∀ v ∈ versions, SoundRows files v ∧ UniqueRowIds files v by
    refine ⟨?_, fun v hv => (hall v hv).2⟩
    rcases mem_cons.mp (getLastD_mem_cons (a := m)) with heq | hmem
    · rw [heq]
      exact ⟨hsound, hunique⟩
    · exact hall _ hmem
  cases request with
  | append append =>
    simp only [committed, bind_eq_ok, pure_eq_ok] at hcommitted
    rcases hcommitted with ⟨next, hnext, rfl⟩
    refine forall_mem_singleton.mpr
      (append_unique files hsound hunique (fun f hf => ?_) hnext)
    exact (hroom _ rfl).2.2 _ (mem_map_of_mem hf)
  | delete request =>
    simp only [committed, bind_eq_ok, pure_eq_ok] at hcommitted
    rcases hcommitted with ⟨next, hnext, rfl⟩
    exact forall_mem_singleton.mpr (deleteOnce_unique hsound hunique hfiles hnext)
  | update request =>
    simp only [committed, bind_eq_ok, pure_eq_ok] at hcommitted
    rcases hcommitted with ⟨next, hnext, rfl⟩
    refine forall_mem_singleton.mpr
      (updateOnce_unique hsound hunique hfiles (fun rows hrows => ?_) hnext)
    exact (hroom _ (by rw [writtenFiles, hrows]; rfl)).2
  | mergeInsert spec =>
    simp only [committed, bind_eq_ok, pure_eq_ok] at hcommitted
    rcases hcommitted with ⟨next, hnext, rfl⟩
    refine forall_mem_singleton.mpr
      (mergeInsertOnce_unique hfiles hsound hunique (fun rows hrows => ?_) hdistinct hnext)
    exact (hroom _ (by rw [writtenFiles, hrows]; rfl)).2
  | compact options =>
    exact compactOnce_unique hsound hunique
      (fun c hc => hroom _ (by rw [writtenFiles, hc]; rfl)) hcommitted

/-- Over a run of operations on a dataset created with stable row ids, within the address space: the
    ids of the live rows of every version are distinct and below its next row id when in every merge
    insert that commits the source rows written in place of a row have distinct keys. -/
theorem row_ids_unique (hfiles : ReadsBack files) (create : VersionRequest)
    (hstable : create.extras.stableRowIds = true)
    (hsmall : ∀ f ∈ create.fragments, f.rows ≤ 2 ^ 32) (m : Manifest)
    (hcreate : buildVersion 1 none create = .ok m) (requests : List RowRequest)
    (hgood : Lib.EveryCommit (rowStep files)
      (fun m request => HasRoom files m request ∧ DistinctUpdates files m request) m requests) :
    ∀ v ∈ m :: (Lib.runLog (rowStep files) m requests).2, UniqueRowIds files v := by
  have hcreated := create_unique files hstable hsmall hcreate
  exact forall_mem_cons.mpr ⟨hcreated.2,
    (runLog_safe (fun m request m' versions hm hgood h =>
      rowStep_unique files hfiles hm hgood.1 hgood.2 h) requests m hcreated hgood).2⟩

end Runs

/-- A writer that puts all rows in one file. -/
def oneFileWriter : StagedWriter where
  mapping := []
  files := fun rows => [{ path := "b.lance", rows := rows }]
  total := fun rows => by simp

def oneRowCreate : VersionRequest :=
  { mapping := [], fragments := [{ path := "a.lance", rows := 1 }], mode := .create
    extras := { stableRowIds := true } }

def oneRow : Manifest :=
  match buildVersion 1 none oneRowCreate with
  | .ok m => m
  | .error _ => {}

def sourceRow (key : Nat) : SourceRow := { key := some [UInt8.ofNat key], meets := fun _ => true }

/-- An upsert of rows with these keys where the dataset's row has key 7. -/
def upsert (keys : List Nat) : RowRequest :=
  .mergeInsert
    { on := ["k"], whenMatched := .updateAll, source := keys.map sourceRow
      keyAt := fun _ => some [7], writer := oneFileWriter }

/-- One row updated and one inserted. -/
theorem row_ids_unique_upsert :
    buildVersion 1 none oneRowCreate = .ok oneRow ∧
    (Lib.runLog (rowStep threeRowFiles) oneRow [upsert [7, 8]]).2.map (liveRowIds threeRowFiles) =
      [.ok [0, 1]] ∧
    ∀ v ∈ oneRow :: (Lib.runLog (rowStep threeRowFiles) oneRow [upsert [7, 8]]).2,
      UniqueRowIds threeRowFiles v := by
  have hscan : scanAddresses threeRowFiles oneRow = .ok [0] := rfl
  have hdistinct : DistinctUpdates threeRowFiles oneRow (upsert [7, 8]) := by
    intro rows hrows
    rw [hscan, Except.ok.injEq] at hrows
    rw [← hrows]
    decide
  have hroom : HasRoom threeRowFiles oneRow (upsert [7, 8]) := by
    intro written hwritten
    have hfile : written = oneFileWriter.fragments 2 := (Except.ok.inj hwritten).symm
    rw [hfile]
    unfold Fits
    decide
  refine ⟨rfl, by decide +kernel, ?_⟩
  exact row_ids_unique threeRowFiles threeRowFiles_readsBack oneRowCreate rfl (by decide) oneRow
    rfl [upsert [7, 8]] (by
      rw [Lib.EveryCommit]
      split
      · trivial
      · exact ⟨⟨hroom, hdistinct⟩, trivial⟩)

/-- A source row that is new and two with the key of the dataset's row: both of these get its id. -/
theorem upsert_twice_repeats_id :
    buildVersion 1 none oneRowCreate = .ok oneRow ∧
    (Lib.runLog (rowStep threeRowFiles) oneRow [upsert [8, 7, 7]]).2.map
      (liveRowIds threeRowFiles) = [.ok [1, 0, 0]] ∧
    ¬ ∀ v ∈ oneRow :: (Lib.runLog (rowStep threeRowFiles) oneRow [upsert [8, 7, 7]]).2,
      UniqueRowIds threeRowFiles v := by
  have hids : (runLog (rowStep threeRowFiles) oneRow [upsert [8, 7, 7]]).2.map
      (liveRowIds threeRowFiles) = [.ok [1, 0, 0]] := by decide +kernel
  refine ⟨rfl, hids, fun hall => ?_⟩
  have hmem : Except.ok [1, 0, 0] ∈ (runLog (rowStep threeRowFiles) oneRow
      [upsert [8, 7, 7]]).2.map (liveRowIds threeRowFiles) := by
    rw [hids]
    exact mem_singleton_self _
  rcases mem_map.mp hmem with ⟨v, hv, heq⟩
  rcases hall v (.tail _ hv) with ⟨ids, hread, hnodup, _⟩
  grind

end RowIds

end NanoLance
