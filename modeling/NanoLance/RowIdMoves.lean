import Mathlib.Data.List.ReduceOption
import NanoLance.RowIds

/-!
# Row Ids That Are Kept

What deleting rows and writing rows to new files does to the ids of a version's
live rows.

A version's rows are seen as pairs of an address and an id. Deleting keeps a
sublist of them. Writing rows again puts the ids they bring along after that,
and new ids from the table's mark on. So the ids after an update or a merge
insert are those of rows that were neither deleted nor written, those of the
rows that were written, and new ones: three lists without a common element, and
the only one that can repeat is the second. Where it does not, a new file's ids
are read back as they were stored.
-/

namespace NanoLance

namespace RowIds

open List Lib

variable {f : DataFragment} {ids deleted : List Nat} {offset version : Nat} {out : Manifest}
  {rows : List (Nat × Nat)} {writer : StagedWriter} {written : List (Option Nat)}
  {files : DeletionFiles} {bases : List BasePath} {m : Manifest}

variable {id : Nat}

section Live

variable (files bases)

/-- A fragment's live rows: their addresses and ids. -/
def fragmentRows (f : DataFragment) : List (Nat × Nat) :=
  match fragmentRowIds f, readDeletionVector files bases f.id f.deletionFile with
  | .ok ids, .ok deleted =>
    (ids.zipIdx.filter (fun row => row.2 ∉ deleted)).map (fun row => (rowAddress f.id row.2, row.1))
  | _, _ => []

/-- A version's live rows: their addresses and ids. -/
def liveRows (m : Manifest) : List (Nat × Nat) :=
  m.fragments.flatMap (fragmentRows files m.bases)

def Readable (f : DataFragment) : Prop :=
  ∃ ids deleted, fragmentRowIds f = .ok ids ∧
    readDeletionVector files bases f.id f.deletionFile = .ok deleted

/-- The ids of the live rows are distinct and below the next row id. -/
def UniqueRowIds (m : Manifest) : Prop :=
  ∃ ids, liveRowIds files m = .ok ids ∧ ids.Nodup ∧ ∀ id ∈ ids, id < m.nextRowId

/-- The rows of new files have ids of 64 bits left, the last one not among them, and offsets of 32
    bits. -/
def Fits (m : Manifest) (written : List DataFragment) : Prop :=
  m.nextRowId + (written.map (·.physicalRows)).sum ≤ 2 ^ 64 - 1 ∧
    ∀ f ∈ written, f.physicalRows ≤ 2 ^ 32

/-- A version with stable row ids whose rows can be read, with fragment ids that are distinct and
    offsets of 32 bits. -/
structure SoundRows (m : Manifest) : Prop where
  stable : isStable m = true
  readable : ∀ f ∈ m.fragments, Readable files m.bases f
  distinct : (m.fragments.map (·.id)).Nodup
  small : ∀ f ∈ m.fragments, f.physicalRows ≤ 2 ^ 32

variable {files bases}

theorem fragmentRows_eq (hids : fragmentRowIds f = .ok ids)
    (hdeleted : readDeletionVector files bases f.id f.deletionFile = .ok deleted) :
    fragmentRows files bases f = (ids.zipIdx.filter (fun row => row.2 ∉ deleted)).map
      (fun row => (rowAddress f.id row.2, row.1)) := by
  unfold fragmentRows
  rw [hids, hdeleted]

theorem fragmentRowIds_length (h : fragmentRowIds f = .ok ids) : ids.length = f.physicalRows := by
  unfold fragmentRowIds at h
  grind

theorem liveFragmentIds_eq (h : Readable files bases f) :
    liveFragmentIds files bases f = .ok ((fragmentRows files bases f).map Prod.snd) := by
  rcases h with ⟨ids, deleted, hids, hdeleted⟩
  rw [fragmentRows_eq hids hdeleted, map_map]
  simp only [liveFragmentIds, bind_eq_ok, pure_eq_ok]
  exact ⟨ids, hids, deleted, hdeleted, rfl⟩

/-- The offsets of a fragment's rows, each with its id. -/
theorem scanFragment_eq (h : Readable files bases f) :
    scanFragment files bases f = .ok ((fragmentRows files bases f).map Prod.fst) := by
  rcases h with ⟨ids, deleted, hids, hdeleted⟩
  rw [fragmentRows_eq hids hdeleted, map_map]
  simp only [scanFragment, bind_eq_ok, pure_eq_ok]
  refine ⟨deleted, hdeleted, ?_⟩
  have hoffsets : range f.physicalRows = ids.zipIdx.map Prod.snd := by
    rw [zipIdx_map_snd, fragmentRowIds_length hids, range_eq_range']
  rw [liveAddresses, hoffsets, filter_map, map_map]
  rfl

section

variable (h : ∀ f ∈ m.fragments, Readable files m.bases f)

include h

theorem liveRowIds_eq :
    liveRowIds files m = .ok ((liveRows files m).map Prod.snd) := by
  simp only [liveRowIds, bind_eq_ok, pure_eq_ok]
  refine ⟨_, mapM_ok _ (fun f hf => liveFragmentIds_eq (h f hf)), ?_⟩
  rw [liveRows, map_flatMap, flatMap_def]

theorem scanAddresses_eq :
    scanAddresses files m = .ok ((liveRows files m).map Prod.fst) := by
  simp only [scanAddresses, bind_eq_ok, pure_eq_ok]
  refine ⟨_, mapM_ok _ (fun f hf => scanFragment_eq (h f hf)), ?_⟩
  rw [liveRows, map_flatMap, flatMap_def]

theorem uniqueRowIds_iff :
    UniqueRowIds files m ↔ ((liveRows files m).map Prod.snd).Nodup ∧
      ∀ row ∈ liveRows files m, row.2 < m.nextRowId := by
  unfold UniqueRowIds
  rw [liveRowIds_eq h]
  simp only [Except.ok.injEq, exists_eq_left', forall_mem_map]

end

/-- A live row is a row of its fragment. -/
theorem mem_fragmentRows {row : Nat × Nat} (h : row ∈ fragmentRows files bases f) :
    ∃ ids offset, fragmentRowIds f = .ok ids ∧ ids[offset]? = some row.2 ∧
      row.1 = rowAddress f.id offset := by
  unfold fragmentRows at h
  grind

theorem offset_lt (hids : fragmentRowIds f = .ok ids) (hsmall : f.physicalRows ≤ 2 ^ 32)
    (h : ids[offset]? = some id) : offset < 2 ^ 32 := by
  have hlt := (List.getElem?_eq_some_iff.mp h).1
  rw [fragmentRowIds_length hids] at hlt
  omega

end Live

/-! ### Deletions -/

/-- A row of a fragment is among those deleted exactly when its address is. -/
theorem mem_deletedIn (deleted : List Nat) (id : Nat) (h : offset < 2 ^ 32) :
    offset ∈ deletedIn deleted id ↔ rowAddress id offset ∈ deleted := by
  simp only [deletedIn, mem_map, mem_filter, decide_eq_true_eq]
  constructor
  · grind [rowAddress_eta]
  · intro hmem
    exact ⟨rowAddress id offset, ⟨hmem, fragmentOf_rowAddress id offset h⟩,
      offsetOf_rowAddress id offset h⟩

/-- What is left of a fragment has the other rows. -/
theorem deleteFrom_rows {g : DataFragment} (hfiles : ReadsBack files)
    (hread : Readable files bases f) (hsmall : f.physicalRows ≤ 2 ^ 32)
    (h : deleteFrom files bases version deleted f = .ok (some g)) :
    Readable files bases g ∧ g.id = f.id ∧ g.physicalRows = f.physicalRows ∧
      fragmentRows files bases g =
        (fragmentRows files bases f).filter (fun row => row.1 ∉ deleted) := by
  rcases hread with ⟨ids, gone, hids, hgone⟩
  have hrows := fragmentRows_eq hids hgone
  -- The addresses of the fragment's rows that are deleted, by offset.
  have hmember : ∀ row ∈ ids.zipIdx,
      (row.2 ∈ deletedIn deleted f.id ↔ rowAddress f.id row.2 ∈ deleted) := fun row hrow =>
    mem_deletedIn deleted f.id (offset_lt hids hsmall (mem_zipIdx_iff_getElem?.mp hrow))
  unfold deleteFrom at h
  split at h
  · next hempty =>
    rw [Except.ok.injEq, Option.some.injEq] at h
    rw [← h]
    refine ⟨⟨ids, gone, hids, hgone⟩, rfl, rfl, ?_⟩
    rw [hrows, filter_map, filter_filter]
    congr 1
    refine filter_congr (fun row hrow => ?_)
    have hnot : rowAddress f.id row.2 ∉ deleted := by grind
    simp only [Function.comp_apply, hnot, not_false_eq_true, decide_true, Bool.true_and]
  · simp only [hgone, bind_eq_ok, Except.ok.injEq, exists_eq_left'] at h
    split at h
    · cases h
    · simp only [bind_eq_ok, pure_eq_ok, Option.some.injEq] at h
      rcases h with ⟨file, hfile, rfl⟩
      have hback := hfiles.back bases f.id version _ file (ascending_pairwise _) hfile
      have hread' : readDeletionVector files bases f.id (some file) =
          .ok (ascending (gone ++ deletedIn deleted f.id)) := hback
      refine ⟨⟨ids, _, hids, hread'⟩, rfl, rfl, ?_⟩
      rw [hrows, fragmentRows_eq (f := { f with deletionFile := some file }) hids hread',
        filter_map, filter_filter]
      congr 1
      refine filter_congr (fun row hrow => ?_)
      simp only [Function.comp_apply, mem_ascending, mem_append, not_or, hmember row hrow,
        Bool.decide_and, Bool.and_comm]

/-- Rows deleted from one fragment after the other. -/
theorem deleteFrom_all (hfiles : ReadsBack files) {fragments : List DataFragment}
    {kept : List (Option DataFragment)} (hread : ∀ f ∈ fragments, Readable files bases f)
    (hsmall : ∀ f ∈ fragments, f.physicalRows ≤ 2 ^ 32)
    (h : List.Forall₂ (fun f out =>
      deleteFrom files bases version deleted f = .ok out) fragments kept) :
    (∀ g ∈ kept.reduceOption, Readable files bases g ∧ g.physicalRows ≤ 2 ^ 32) ∧
    (kept.reduceOption.map (·.id)).Sublist (fragments.map (·.id)) ∧
    (kept.reduceOption.flatMap (fragmentRows files bases)).Sublist
      ((fragments.flatMap (fragmentRows files bases)).filter (fun row => row.1 ∉ deleted)) := by
  induction h with
  | nil => exact ⟨forall_mem_nil _, List.Sublist.refl _, List.Sublist.refl _⟩
  | @cons f out fragments kept hout _ ih =>
    rw [forall_mem_cons] at hread hsmall
    rcases ih hread.2 hsmall.2 with ⟨hgood, hids, hrows⟩
    rw [flatMap_cons, filter_append]
    cases out with
    | none =>
      -- Nothing is left of the fragment.
      rw [reduceOption_cons_of_none]
      exact ⟨hgood, hids.cons _, hrows.trans (sublist_append_right _ _)⟩
    | some g =>
      rcases deleteFrom_rows hfiles hread.1 hsmall.1 hout with
        ⟨hg, hid, hphysical, hsame⟩
      rw [reduceOption_cons_of_some, map_cons, map_cons, flatMap_cons, hid, hsame]
      grind

/-- A deletion keeps the other rows, at most. -/
theorem applyDeletions_spec (hfiles : ReadsBack files) (hm : SoundRows files m)
    (h : applyDeletions files m version deleted = .ok out) :
    SoundRows files out ∧ out.nextRowId = m.nextRowId ∧ out.version = m.version ∧
      (liveRows files out).Sublist
        ((liveRows files m).filter (fun row => row.1 ∉ deleted)) := by
  simp only [applyDeletions, bind_eq_ok, pure_eq_ok, mapM_eq_ok] at h
  rcases h with ⟨kept, hkept, rfl⟩
  rcases deleteFrom_all hfiles hm.readable hm.small hkept with ⟨hgood, hids, hrows⟩
  refine ⟨⟨?_, fun f hf => (hgood f hf).1, hids.nodup hm.distinct, fun f hf => (hgood f hf).2⟩,
    rfl, rfl, hrows⟩
  have hstable := hm.stable
  grind [isStable, setFlag_deletions_stable]

/-! ### New fragments -/

/-- The ids of rows moved to new files: their own, or the next one. -/
def stampedIds : List MovedRow → Nat → List Nat
  | [], _ => []
  | row :: rows, next =>
    match row.id with
    | some id => id :: stampedIds rows next
    | none => next :: stampedIds rows (next + 1)

variable {row : MovedRow}

theorem stampedIds_some (rows : List MovedRow) (next : Nat) (h : row.id = some id) :
    stampedIds (row :: rows) next = id :: stampedIds rows next := by
  rw [stampedIds, h]

theorem stampedIds_none (rows : List MovedRow) (next : Nat) (h : row.id = none) :
    stampedIds (row :: rows) next = next :: stampedIds rows (next + 1) := by
  rw [stampedIds, h]

/-- The rows that get a new id. -/
def newCount (rows : List MovedRow) : Nat := rows.countP (fun row => row.id.isNone)

/-- The ids rows bring along, and as many new ones as there are rows without. -/
theorem stampedIds_perm (rows : List MovedRow) (next : Nat) :
    (stampedIds rows next).Perm
      (rows.filterMap (·.id) ++ range' next (newCount rows)) := by
  induction rows generalizing next with
  | nil => exact List.Perm.refl _
  | cons row rows ih =>
    unfold newCount
    cases hid : row.id with
    | some id =>
      rw [stampedIds_some rows next hid, filterMap_cons_some hid,
        countP_cons_of_neg (by simp [hid])]
      exact (ih next).cons id
    | none =>
      rw [stampedIds_none rows next hid, filterMap_cons_none hid,
        countP_cons_of_pos (by simp [hid]),
        range'_succ]
      exact ((ih (next + 1)).cons next).trans perm_middle.symm

/-- The rows of the next file: as many as it holds, the others left. -/
theorem stampRows_spec (version : Nat) : ∀ (count : Nat) (rows : List MovedRow) (next : Nat),
    count ≤ rows.length →
    ∃ stamped, stampRows version count rows next =
        (stamped, rows.drop count, next + newCount (rows.take count)) ∧
      stamped.length = count ∧
      stampedIds rows next = stamped.map (fun row => row.1) ++
        stampedIds (rows.drop count) (next + newCount (rows.take count)) := by
  intro count
  induction count with
  | zero => exact fun rows next _ => ⟨[], rfl, rfl, rfl⟩
  | succ count ih =>
    intro rows next hle
    cases rows with
    | nil => exact absurd hle (by simp)
    | cons row rows =>
      rw [length_cons] at hle
      unfold stampRows
      cases hid : row.id with
      | some id =>
        rcases ih rows next (by omega) with ⟨stamped, heq, hlength, hids⟩
        have hcount : newCount ((row :: rows).take (count + 1)) = newCount (rows.take count) := by
          rw [take_succ_cons, newCount, countP_cons_of_neg (by simp [hid])]
          rfl
        refine ⟨(id, row.created, row.updated) :: stamped, ?_, ?_, ?_⟩
        · simp only [heq, hcount, drop_succ_cons]
        · rw [length_cons, hlength]
        · rw [stampedIds_some rows next hid, hcount, hids, drop_succ_cons,
            map_cons, cons_append]
      | none =>
        rcases ih rows (next + 1) (by omega) with ⟨stamped, heq, hlength, hids⟩
        have hcount : next + newCount ((row :: rows).take (count + 1)) =
            next + 1 + newCount (rows.take count) := by
          rw [take_succ_cons, newCount, countP_cons_of_pos (by simp [hid])]
          show next + (newCount (rows.take count) + 1) = _
          omega
        refine ⟨(next, version, version) :: stamped, ?_, ?_, ?_⟩
        · simp only [heq, hcount, drop_succ_cons]
        · rw [length_cons, hlength]
        · rw [stampedIds_none rows next hid, hcount, hids, drop_succ_cons,
            map_cons, cons_append]

/-- A fragment without deletions has the rows its sequence lists. -/
theorem rows_of_values (files : DeletionFiles) (bases : List BasePath) (f : DataFragment)
    (hids : f.rowMeta.rowIds = some (.values ids))
    (hinline : f.rowMeta.external = false) (hlength : ids.length = f.physicalRows)
    (hwhole : f.deletionFile = none) :
    Readable files bases f ∧ (fragmentRows files bases f).map Prod.snd = ids := by
  have hread : fragmentRowIds f = .ok ids := by simp [fragmentRowIds, hinline, hids, hlength]
  have hnone : readDeletionVector files bases f.id f.deletionFile = .ok [] := by
    rw [hwhole]
    rfl
  refine ⟨⟨ids, [], hread, hnone⟩, ?_⟩
  rw [fragmentRows_eq hread hnone, map_map]
  have hall : ids.zipIdx.filter (fun row => row.2 ∉ ([] : List Nat)) = ids.zipIdx :=
    filter_eq_self.mpr (fun row _ => by simp)
  rw [hall]
  exact zipIdx_map_fst 0 ids

/-- Stamping leaves a fragment its id and rows. -/
theorem stampFragments_keeps : ∀ (fragments : List DataFragment)
    (rows : List MovedRow) (next : Nat) (out : List DataFragment × Nat),
    stampFragments version fragments rows next = .ok out →
    out.1.map (·.id) = fragments.map (·.id) ∧
      out.1.map (·.physicalRows) = fragments.map (·.physicalRows) := by
  intro fragments
  induction fragments with
  | nil =>
    intro rows next out h
    cases rows with
    | nil =>
      rw [stampFragments, Except.ok.injEq] at h
      rw [← h]
      exact ⟨rfl, rfl⟩
    | cons row rows => cases h
  | cons f fragments ih =>
    intro rows next out h
    simp only [stampFragments, bind_eq_ok, pure_eq_ok] at h
    rcases h with ⟨others, hothers, rfl⟩
    rcases ih _ _ others hothers with ⟨hids, hphysical⟩
    exact ⟨congrArg (f.id :: ·) hids, congrArg (f.physicalRows :: ·) hphysical⟩

/-- New fragments, stamped, have the ids of the rows that were moved to them, where those are
    distinct. -/
theorem stampFragments_spec (files : DeletionFiles) (bases : List BasePath) :
    ∀ (fragments : List DataFragment) (rows : List MovedRow) (next : Nat)
      (out : List DataFragment × Nat),
    stampFragments version fragments rows next = .ok out →
    (fragments.map (·.physicalRows)).sum = rows.length →
    (∀ f ∈ fragments, f.deletionFile = none) → (∀ f ∈ fragments, f.physicalRows ≤ 2 ^ 32) →
    (stampedIds rows next).Nodup → (∀ id ∈ stampedIds rows next, id < 2 ^ 64 - 1) →
    out.2 = next + newCount rows ∧
      (∀ f ∈ out.1, Readable files bases f ∧ f.deletionFile = none) ∧
      (out.1.flatMap (fragmentRows files bases)).map Prod.snd = stampedIds rows next := by
  intro fragments
  induction fragments with
  | nil =>
    intro rows next out h hsum _ _ _ _
    have hrows : rows = [] := length_eq_zero_iff.mp hsum.symm
    subst hrows
    rw [stampFragments, Except.ok.injEq] at h
    rw [← h]
    exact ⟨rfl, forall_mem_nil _, rfl⟩
  | cons f fragments ih =>
    intro rows next out h hsum hwhole hsmall hnodup hlt
    rw [map_cons, sum_cons] at hsum
    rw [forall_mem_cons] at hwhole hsmall
    rcases stampRows_spec version f.physicalRows rows next (by omega) with
      ⟨stamped, heq, hlength, hids⟩
    simp only [stampFragments, heq, bind_eq_ok, pure_eq_ok] at h
    rcases h with ⟨others, hothers, rfl⟩
    rw [hids, nodup_append] at hnodup
    rw [hids, forall_mem_append] at hlt
    rcases ih _ _ others hothers (by rw [length_drop]; omega) hwhole.2 hsmall.2 hnodup.2.1
      hlt.2 with ⟨hnext, hread, hrest⟩
    have hfile : (stamped.map (fun row => row.1)).length = f.physicalRows :=
      (length_map _).trans hlength
    rcases rows_of_values files bases (stampFragment f stamped)
      (congrArg some (stored_eq hnodup.1 hlt.1 (by omega))) rfl hfile hwhole.1 with ⟨hreadf, hrowsf⟩
    refine ⟨?_, forall_mem_cons.mpr ⟨⟨hreadf, hwhole.1⟩, hread⟩, ?_⟩
    · show others.2 = _
      have hsplit : newCount rows =
          newCount (rows.take f.physicalRows) + newCount (rows.drop f.physicalRows) := by
        unfold newCount
        rw [← countP_append, take_append_drop]
      omega
    · rw [flatMap_cons, map_append, hrowsf, hrest, hids]

/-- New fragments go after the others, numbered. -/
theorem addFragments_eq (m : Manifest) (added : List DataFragment) :
    ∃ mark, addFragments m added =
      { m with
        fragments := m.fragments ++ numberFrom added (nextFragmentId m), maxFragmentId := mark } := by
  unfold addFragments
  generalize numberFrom added (nextFragmentId m) = numbered
  induction numbered generalizing m with
  | nil => exact ⟨m.maxFragmentId, by rw [append_nil]; rfl⟩
  | cons f rest ih =>
    rw [foldl_cons]
    rcases ih (noteFragmentId { m with fragments := m.fragments ++ [f] } f.id) with ⟨mark, hmark⟩
    grind [noteFragmentId]

/-- The writer's files hold the rows it was given. -/
theorem StagedWriter.fragments_rows (writer : StagedWriter) (rows : Nat) :
    ((writer.fragments rows).map (·.physicalRows)).sum = rows ∧
      ∀ f ∈ writer.fragments rows, f.deletionFile = none := by
  constructor
  · have hdrop : ∀ l : List NewFragment,
        ((l.filter (fun f => f.rows ≠ 0)).map (·.rows)).sum = (l.map (·.rows)).sum := by
      intro l
      induction l with
      | nil => rfl
      | cons f rest ih => grind
    unfold StagedWriter.fragments
    rw [map_map]
    exact (hdrop (writer.files rows)).trans (writer.total rows)
  · intro f hf
    rcases mem_map.mp hf with ⟨file, _, rfl⟩
    rfl

/-! ### Rows written again -/

/-- The id of the live row at an address. -/
def idAt (rows : List (Nat × Nat)) (address : Nat) : Nat :=
  ((rows.find? (fun row => row.1 = address)).map Prod.snd).getD 0

theorem mem_idAt {address : Nat} (h : address ∈ rows.map Prod.fst) :
    (address, idAt rows address) ∈ rows := by
  unfold idAt
  cases hfind : rows.find? (fun row => row.1 = address) with
  | none => grind
  | some row => grind

/-- Where the ids are distinct, rows at different addresses have different ones. -/
theorem idAt_inj (hids : (rows.map Prod.snd).Nodup) {a b : Nat} (ha : a ∈ rows.map Prod.fst)
    (hb : b ∈ rows.map Prod.fst) (h : idAt rows a = idAt rows b) :
    a = b :=
  congrArg Prod.fst (inj_on_of_nodup_map hids (mem_idAt ha) (mem_idAt hb) h)

/-- The rows of a version do not depend on the order of its fragments. -/
theorem liveRows_commitNext (m : Manifest) :
    (liveRows files (commitNext m)).Perm (liveRows files m) :=
  (sortFragments_perm m.fragments).flatMap_right _

section

variable (hm : SoundRows files m)

include hm

/-- A live row is in the fragment its address names. -/
theorem SoundRows.row_at (row : Nat × Nat) (h : row ∈ liveRows files m) :
    ∃ f ids, f ∈ m.fragments ∧ m.fragment? (fragmentOf row.1) = some f ∧
      fragmentRowIds f = .ok ids ∧ ids[offsetOf row.1]? = some row.2 := by
  rcases mem_flatMap.mp h with ⟨f, hf, hrow⟩
  rcases mem_fragmentRows hrow with ⟨ids, offset, hids, hget, haddress⟩
  have hlt := offset_lt hids (hm.small f hf) hget
  rw [haddress, fragmentOf_rowAddress f.id offset hlt, offsetOf_rowAddress f.id offset hlt]
  exact ⟨f, ids, hf, (find_key_iff f.id hm.distinct f).mpr ⟨hf, rfl⟩, hids, hget⟩

/-- A live row that is written again keeps its id. -/
theorem SoundRows.movedRow_id (version : Nat) (row : Nat × Nat) (hrow : row ∈ liveRows files m)
    (moved : MovedRow) (h : movedRow m version (some row.1) = .ok moved) :
    moved.id = some row.2 := by
  rcases hm.row_at row hrow with ⟨f, ids, _, hfind, hids, hget⟩
  grind [movedRow, bind_eq_ok]

/-- No two live rows have one address. -/
theorem SoundRows.addresses_nodup : ((liveRows files m).map Prod.fst).Nodup := by
  have hscan : (liveRows files m).map Prod.fst =
      m.fragments.flatMap (fun f => (fragmentRows files m.bases f).map Prod.fst) := by
    rw [liveRows, map_flatMap]
  rw [hscan, nodup_flatMap]
  constructor
  · intro f hf
    rcases hm.readable f hf with ⟨ids, deleted, hids, hdeleted⟩
    have hlive := scanFragment_eq (hm.readable f hf)
    simp only [scanFragment, hdeleted, bind_eq_ok, Except.ok.injEq, exists_eq_left',
      pure_eq_ok] at hlive
    rw [← hlive]
    exact liveAddresses_nodup f deleted
  · -- Addresses in different fragments differ in the fragment.
    have hapart := pairwise_map.mp hm.distinct
    refine hapart.imp_of_mem (fun {f g} hf hg hne => ?_)
    refine disjoint_left.mpr (fun address hleft hright => ?_)
    rcases mem_map.mp hleft with ⟨row, hrow, rfl⟩
    rcases mem_map.mp hright with ⟨other, hother, heq⟩
    rcases mem_fragmentRows hrow with ⟨ids, offset, hids, hget, haddress⟩
    rcases mem_fragmentRows hother with ⟨ids', offset', hids', hget', haddress'⟩
    have hlt := offset_lt hids (hm.small f hf) hget
    have hlt' := offset_lt hids' (hm.small g hg) hget'
    have hfragment := fragmentOf_rowAddress f.id offset hlt
    have hfragment' := fragmentOf_rowAddress g.id offset' hlt'
    grind

/-- The ids of rows written again. -/
theorem SoundRows.movedRows_ids (written : List (Option Nat)) (moved : List MovedRow)
    (hwritten : ∀ address ∈ written.reduceOption, address ∈ (liveRows files m).map Prod.fst)
    (h : movedRows m written = .ok moved) :
    moved.length = written.length ∧
      moved.filterMap (·.id) = written.reduceOption.map (idAt (liveRows files m)) := by
  unfold movedRows at h
  rw [if_pos hm.stable, mapM_eq_ok] at h
  induction h with
  | nil => exact ⟨rfl, rfl⟩
  | @cons entry row written moved hrow _ ih =>
    cases entry with
    | none =>
      rw [reduceOption_cons_of_none] at hwritten ⊢
      grind [movedRow]
    | some address =>
      rw [reduceOption_cons_of_some] at hwritten ⊢
      rw [forall_mem_cons] at hwritten
      rcases ih hwritten.2 with ⟨hlength, hids⟩
      have hid := hm.movedRow_id _ _ (mem_idAt hwritten.1) row hrow
      grind

theorem SoundRows.commitNext : SoundRows files (commitNext m) where
  stable := hm.stable
  readable := fun f hf => hm.readable f ((mem_sortFragments f _).mp hf)
  distinct := ((sortFragments_perm m.fragments).map _).nodup_iff.mpr hm.distinct
  small := fun f hf => hm.small f ((mem_sortFragments f _).mp hf)

/-- A row's address is among those of a scan. -/
theorem SoundRows.scan (rows : List Nat) (h : scanAddresses files m = .ok rows) :
    rows = (liveRows files m).map Prod.fst := by
  rw [scanAddresses_eq hm.readable, Except.ok.injEq] at h
  exact h.symm

variable (hunique : UniqueRowIds files m)
  (hwritten : ∀ address ∈ written.reduceOption, address ∈ (liveRows files m).map Prod.fst)
  (hdistinct : written.reduceOption.Nodup)

include hunique hwritten hdistinct

/-- Where no row is written twice, the rows written have distinct ids: those they had, which are
    below the next row id, and new ones from it on. -/
theorem written_ids {moved : List MovedRow}
    (hids : moved.filterMap (·.id) = written.reduceOption.map (idAt (liveRows files m))) :
    (stampedIds moved m.nextRowId).Nodup ∧
      ∀ id ∈ stampedIds moved m.nextRowId, id < m.nextRowId + newCount moved := by
  rcases (uniqueRowIds_iff hm.readable).mp hunique with ⟨hnodup, hbelow⟩
  have hperm := stampedIds_perm moved m.nextRowId
  rw [hids] at hperm
  have hoff : ∀ address ∈ written.reduceOption,
      idAt (liveRows files m) address < m.nextRowId := fun address haddress =>
    hbelow _ (mem_idAt (hwritten address haddress))
  constructor
  · rw [hperm.nodup_iff, nodup_append]
    refine ⟨hdistinct.map_on ?_, nodup_range', ?_⟩
    · intro a ha b hb heq
      exact idAt_inj hnodup (hwritten a ha) (hwritten b hb) heq
    · grind
  · intro id hid
    rcases mem_append.mp (hperm.subset hid) with hmem | hmem
    · rcases mem_map.mp hmem with ⟨address, haddress, rfl⟩
      have hlt := hoff address haddress
      omega
    · exact (mem_range'_1.mp hmem).2

variable (hfiles : ReadsBack files)

include hfiles

/-- The rows after rows are deleted and others written: some of those that were not deleted, and
    those written with their own ids or new ones. -/
theorem replaceRows_spec (hfits : Fits m (writer.fragments written.length))
    (h : replaceRows files m deleted written writer = .ok out) :
    SoundRows files out ∧ ∃ moved rest,
      out.nextRowId = m.nextRowId + newCount moved ∧
      moved.filterMap (·.id) = written.reduceOption.map (idAt (liveRows files m)) ∧
      List.Sublist rest ((liveRows files m).filter (fun row => row.1 ∉ deleted)) ∧
      ((liveRows files out).map Prod.snd).Perm
        (rest.map Prod.snd ++ stampedIds moved m.nextRowId) := by
  simp only [replaceRows, bind_eq_ok, pure_eq_ok] at h
  rcases h with ⟨moved, hmoved, without, hwithout, stamped, hstamped, rfl⟩
  rcases hm.movedRows_ids written moved hwritten hmoved with ⟨hlength, hids⟩
  rcases applyDeletions_spec hfiles hm hwithout with ⟨hsound, hnext, _, hrest⟩
  rcases addFragments_eq without (writer.fragments written.length) with ⟨mark, hadded⟩
  generalize hnew : numberFrom (writer.fragments written.length) (nextFragmentId without) = new
    at hadded
  simp only [stampStable, hm.stable, if_true, stampNewFragments, hadded, drop_left,
    take_left, bind_eq_ok, pure_eq_ok] at hstamped
  rcases hstamped with ⟨out, hout, rfl⟩
  -- The files are numbered after the fragments that are left.
  have hnewids : new.map (·.id) = range' (nextFragmentId without)
      (writer.fragments written.length).length := by
    rw [← hnew, numberFrom_ids]
  have hfrom : ∀ f ∈ new, ∃ g ∈ writer.fragments written.length, f = { g with id := f.id } :=
    fun f hf => (mem_numberFrom _ _ f (by rw [hnew]; exact hf)).1
  have hphysical : new.map (·.physicalRows) =
      (writer.fragments written.length).map (·.physicalRows) := by
    rw [← hnew]
    exact numberFrom_map (fun f id => rfl) _ _
  have hsmall : ∀ f ∈ new, f.deletionFile = none ∧ f.physicalRows ≤ 2 ^ 32 := by
    intro f hf
    rcases hfrom f hf with ⟨g, hg, heq⟩
    rw [heq]
    exact ⟨(writer.fragments_rows _).2 g hg, hfits.2 g hg⟩
  rcases written_ids hm hunique hwritten hdistinct hids with ⟨hnodup, hlt⟩
  have hcount : newCount moved ≤ moved.length := countP_le_length
  have hlast := hfits.1
  rw [(writer.fragments_rows _).1] at hlast
  rcases stampFragments_keeps new moved without.nextRowId out hout with ⟨hsame, hrows⟩
  rcases stampFragments_spec files without.bases new moved without.nextRowId out hout
    (by rw [hphysical, (writer.fragments_rows _).1, hlength]) (fun f hf => (hsmall f hf).1)
    (fun f hf => (hsmall f hf).2) (by rw [hnext]; exact hnodup)
    (fun id hid => by
      rw [hnext] at hid
      have := hlt id hid
      omega) with ⟨hmark, hread, hstampedIds⟩
  refine ⟨SoundRows.commitNext ⟨hsound.stable, ?_, ?_, ?_⟩, moved, liveRows files without, ?_, hids,
    hrest, ?_⟩
  · intro f hf
    rcases mem_append.mp hf with hf | hf
    · exact hsound.readable f hf
    · exact (hread f hf).1
  · show ((without.fragments ++ out.1).map (·.id)).Nodup
    rw [map_append, hsame, hnewids, nodup_append]
    refine ⟨hsound.distinct, nodup_range', fun id hid other hother => ?_⟩
    rcases mem_map.mp hid with ⟨f, hf, rfl⟩
    have hlt := lt_nextFragmentId hf
    grind
  · intro f hf
    rcases mem_append.mp hf with hf | hf
    · exact hsound.small f hf
    · have hmem := mem_map_of_mem (f := DataFragment.physicalRows) hf
      rw [hrows] at hmem
      rcases mem_map.mp hmem with ⟨g, hg, heq⟩
      rw [← heq]
      exact (hsmall g hg).2
  · show out.2 = _
    rw [hmark, hnext]
  · refine (((liveRows_commitNext _).map Prod.snd)).trans ?_
    show ((without.fragments ++ out.1).flatMap
      (fragmentRows files without.bases)).map Prod.snd |>.Perm _
    rw [flatMap_append, map_append, hstampedIds, hnext]
    exact List.Perm.refl _

/-- After rows are deleted and others written, the ids are distinct when no row is written twice. -/
theorem replaceRows_unique (hfits : Fits m (writer.fragments written.length))
    (hdeleted : written.reduceOption ⊆ deleted)
    (h : replaceRows files m deleted written writer = .ok out) :
    SoundRows files out ∧ UniqueRowIds files out := by
  rcases replaceRows_spec hm hunique hwritten hdistinct hfiles hfits h with
    ⟨hsound, moved, rest, hnext, hids, hrest, hperm⟩
  rcases written_ids hm hunique hwritten hdistinct hids with ⟨hstamped, hlt⟩
  rcases (uniqueRowIds_iff hm.readable).mp hunique with ⟨hnodup, hbelow⟩
  have hmember : ∀ row ∈ rest, row ∈ liveRows files m ∧ row.1 ∉ deleted := by grind
  refine ⟨hsound, (uniqueRowIds_iff hsound.readable).mpr ⟨?_, fun row hrow => ?_⟩⟩
  · rw [hperm.nodup_iff, nodup_append]
    refine ⟨hnodup.sublist ((hrest.trans filter_sublist).map _), hstamped, ?_⟩
    intro id hid other hother heq
    rcases mem_map.mp hid with ⟨row, hrow, rfl⟩
    rcases hmember row hrow with ⟨hlive, hkept⟩
    have hother := (stampedIds_perm moved m.nextRowId).subset hother
    rw [hids] at hother
    rcases mem_append.mp hother with hother | hother
    · -- A row that is left was not written again.
      rcases mem_map.mp hother with ⟨address, haddress, rfl⟩
      have hsame := inj_on_of_nodup_map hnodup hlive (mem_idAt (hwritten address haddress)) heq
      grind
    · grind
  · rcases mem_append.mp (hperm.subset (mem_map_of_mem (f := Prod.snd) hrow)) with hmem | hmem
    · rcases mem_map.mp hmem with ⟨old, hold, heq⟩
      grind
    · rw [hnext]
      exact hlt _ hmem

omit hwritten hdistinct hfiles

/-- A version with fewer rows of the same ids. -/
theorem unique_of_sublist (hsound : SoundRows files out) (hnext : out.nextRowId = m.nextRowId)
    (hrows : ((liveRows files out).map Prod.snd).Subperm ((liveRows files m).map Prod.snd)) :
    UniqueRowIds files out := by
  rcases (uniqueRowIds_iff hm.readable).mp hunique with ⟨hnodup, hbelow⟩
  rw [uniqueRowIds_iff hsound.readable, hnext]
  refine ⟨?_, fun row hrow => ?_⟩
  · rcases hrows with ⟨l, hperm, hsub⟩
    exact hperm.nodup_iff.mp (hnodup.sublist hsub)
  · rcases mem_map.mp (hrows.subset (mem_map_of_mem (f := Prod.snd) hrow)) with ⟨old, hold, heq⟩
    rw [← heq]
    exact hbelow old hold

include hfiles

theorem deleteOnce_unique {request : RowDelete} (h : deleteOnce files m request = .ok out) :
    SoundRows files out ∧ UniqueRowIds files out := by
  simp only [deleteOnce, bind_eq_ok, pure_eq_ok] at h
  rcases h with ⟨_, _, rows, _, without, hwithout, rfl⟩
  rcases applyDeletions_spec hfiles hm hwithout with ⟨hsound, hnext, _, hrest⟩
  refine ⟨hsound.commitNext, unique_of_sublist hm hunique hsound.commitNext hnext ?_⟩
  exact ((liveRows_commitNext without).map _).subperm.trans
    ((hrest.trans filter_sublist).map _).subperm

theorem updateOnce_unique {request : RowUpdate}
    (hfits : ∀ rows, scanAddresses files m = .ok rows →
      Fits m (request.writer.fragments (rows.filter request.holds).length))
    (h : updateOnce files m request = .ok out) : SoundRows files out ∧ UniqueRowIds files out := by
  simp only [updateOnce, bind_eq_ok] at h
  rcases h with ⟨_, _, rows, hrows, hout⟩
  have hscan := hm.scan rows hrows
  have hmatched : ((rows.filter request.holds).map some).reduceOption = rows.filter request.holds := by
    rw [reduceOption, filterMap_map]
    exact filterMap_some
  refine replaceRows_unique hm hunique (fun address haddress => ?_) ?_ hfiles
    (by rw [length_map]; exact hfits rows hrows) (by rw [hmatched]; exact List.Subset.refl _) hout
  · rw [hmatched] at haddress
    rw [← hscan]
    exact mem_of_mem_filter haddress
  · rw [hmatched, hscan]
    exact hm.addresses_nodup.filter _

end

end RowIds

end NanoLance
