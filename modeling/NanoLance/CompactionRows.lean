import Mathlib.Logic.Equiv.List
import NanoLance.Lib.Merge
import NanoLance.RowIdCompaction

/-!
# What a Compaction Does to Rows

A compaction task scans its fragments and writes what the scan returns to new
data files. The two halves of a row travel separately. Its values come back from
the scan in batches, are cut into pieces of `batch_size` rows where files have a
byte limit, and end up in whichever file is open when they arrive. Its id and
its versions are gathered by a walk over the fragments' own sequences and
deletion vectors and stamped on the new files by position. So the task is right
only if both walks drop the same rows and nothing on the way to the files drops,
repeats or reorders one.

`Disk` is what reading a fragment's data files gives, `TaskWriter` what writing
files gives; both carry as a field what they are trusted for, that a scan's
batches are its rows in order and that a file written with rows reads back as
these rows. The rebuilding of indices after the commit is left out: it commits
index segments and no fragment.

## Theorems

* `finish_spec`: The files hold the rows written, in order.
* `compaction_keeps_rows`: So a compaction changes no row.
-/

namespace NanoLance

namespace CompactionRows

open List Lib RowIds

/-- Data files that can be read: the rows of a fragment's files with its overlays, and the batches a
    scan returns them in. -/
structure Disk (Row : Type) where
  read : List DataFile → List OverlayMessage → Except String (List Row)
  batches : List Row → List (List Row)
  flatten_batches : ∀ rows, (batches rows).flatten = rows

/-- The `kNewRow` of the source: in a list of row ids, a row that is new. -/
def newRowMark : Nat := 2 ^ 64 - 1

/-- How much goes to the writer at a time and where it ends a file. -/
structure WriteLimits where
  maxBytesPerFile : Nat := 0
  batchSize : Nat := 0
  deriving DecidableEq, Repr

/-- The rows a batch is cut into, as the signed number the cast makes of it. -/
def WriteLimits.batchRows (limits : WriteLimits) : Int :=
  let size := if limits.batchSize ≠ 0 then limits.batchSize else 8192
  if size < 2 ^ 63 then (size : Int) else (size : Int) - 2 ^ 64

variable {Row : Type} (disk : Disk Row) (files : DeletionFiles) (bases : List BasePath)

section Scan

/-- The rows that are not deleted. A vector that does not fit the file is refused. -/
def withoutDeleted (f : DataFragment) (rows : List Row) : Except String (List Row) :=
  match f.deletionFile with
  | none => .ok rows
  | some file => do
    ensure (rows.length = f.physicalRows)
      (s!"data file holds {rows.length} rows but the manifest claims {f.physicalRows}; " ++
        "refusing to apply a deletion vector against rows that do not line up")
    let deleted ← files.rows bases f.id file
    ensure (deleted.all (fun row => row < rows.length))
      (s!"deletion file names row {(deleted.find? (fun row => rows.length ≤ row)).getD 0} but the " ++
        s!"fragment holds {rows.length}")
    let kept := (rows.zipIdx.filter (fun row => row.2 ∉ deleted)).map Prod.fst
    ensure (kept.length = f.physicalRows - file.numDeletedRows)
      (s!"data file holds {kept.length} rows but the manifest claims " ++
        s!"{f.physicalRows - file.numDeletedRows}; refusing to guess which rows a range covers")
    return kept

/-- The rows a scan returns of a fragment. One without data files is skipped. -/
def scanRows (f : DataFragment) : Except String (List Row) :=
  if f.files.isEmpty then .ok []
  else do
    ensure ((f.deletionFile.map (·.numDeletedRows)).getD 0 ≤ f.physicalRows)
      "fragment claims more deleted rows than it holds"
    let rows ← disk.read f.files f.overlays
    withoutDeleted files bases f rows

/-- The fragment a scan finds under an id. -/
def requestedFragment (m : Manifest) (id : Nat) : Except String DataFragment :=
  match m.fragment? id with
  | none => .error s!"fragment {id} not found"
  | some f => .ok f

/-- The batches a scan returns of a fragment. -/
def scanBatches (f : DataFragment) : Except String (List (List Row)) := do
  let rows ← scanRows disk files bases f
  return disk.batches rows

end Scan

section Write

/-- A list cut into pieces of `size`, the last one shorter. -/
def piecesOf (size : Nat) : Nat → List Row → List (List Row)
  | 0, rows => if rows.isEmpty then [] else [rows]
  | fuel + 1, rows =>
    if rows.isEmpty then [] else rows.take size :: piecesOf size fuel (rows.drop size)

/-- What is written of a batch: nothing of an empty one, all of it at once where files have no byte
    limit, and else `batch_size` rows at a time. -/
def pieceBatch (limits : WriteLimits) (batch : List Row) : Except String (List (List Row)) :=
  if batch.isEmpty then .ok []
  else if limits.maxBytesPerFile = 0 || (batch.length : Int) ≤ limits.batchRows then .ok [batch]
  else if limits.batchRows < 0 then .error "batch length must not be negative"
  else .ok (piecesOf limits.batchRows.toNat batch.length batch)

/-- What a task's writer has done: the rows it was given, those it holds back, and the files it has
    written. -/
structure Staging (Row : Type) where
  rows : Nat := 0
  pending : List Row := []
  files : List (List Row) := []
  deriving DecidableEq, Repr

/-- Rows are held back, and written out once they are over the byte limit. -/
def writeBatch (limits : WriteLimits) (heldBytes : List Row → Nat) (staging : Staging Row)
    (batch : List Row) : Staging Row :=
  let pending := staging.pending ++ batch
  if limits.maxBytesPerFile ≠ 0 && !pending.isEmpty &&
      limits.maxBytesPerFile ≤ heldBytes pending then
    { rows := staging.rows + batch.length
      pending := []
      files := staging.files ++ [pending] }
  else { staging with rows := staging.rows + batch.length, pending := pending }

/-- The files in the end, with what was held back in a last one. -/
def finish (staging : Staging Row) : List (List Row) :=
  if staging.rows = 0 then []
  else if staging.pending.isEmpty then staging.files
  else staging.files ++ [staging.pending]

/-- A task's writer of data files: the name and size of the file it makes of rows, which reads back
    as those rows. -/
structure TaskWriter (disk : Disk Row) where
  mapping : List LanceField
  heldBytes : List Row → Nat
  stage : Nat → List Row → NewFragment
  counts : ∀ k rows, (stage k rows).rows = rows.length
  readsBack : ∀ k rows, disk.read [manifestDataFile mapping (stage k rows)] [] = .ok rows

/-- The fragment of a new file, without an id yet. -/
def TaskWriter.fragment {disk : Disk Row} (writer : TaskWriter disk) (file : NewFragment) :
    DataFragment :=
  { id := 0, physicalRows := file.rows, files := [manifestDataFile writer.mapping file] }

/-- The fragments of the files written, without those that got no row. -/
def TaskWriter.fragments {disk : Disk Row} (writer : TaskWriter disk)
    (written : List (List Row)) : List DataFragment :=
  ((written.zipIdx.map (fun file => writer.stage file.2 file.1)).filter
    (fun file => file.rows ≠ 0)).map writer.fragment

end Write

section Task

variable (m : Manifest)

/-- A row whose id is the mark is taken for a new one. -/
def asMoved (row : MovedRow) : MovedRow :=
  if row.id = some newRowMark then { row with id := none } else row

/-- The ids and versions of the live rows, where row ids are stable. -/
def gatherMoved (members : List DataFragment) : Except String (List MovedRow) :=
  if isStable m then do
    let moved ← members.mapM (liveRowMeta files m.bases)
    return moved.flatten.map asMoved
  else .ok []

def stampCreated (created : List DataFragment) (moved : List MovedRow) :
    Except String (List DataFragment) :=
  if isStable m then do
    let stamped ← stampFragments (m.version + 1) created moved 0
    return stamped.1
  else .ok created

/-- One task: the live rows of its fragments in new files. -/
def rewriteMembers (limits : WriteLimits) (members : List DataFragment)
    (writer : TaskWriter disk) : Except String (List DataFragment) := do
  let moved ← gatherMoved files m members
  let fragments ← members.mapM (fun f => requestedFragment m f.id)
  let batches ← fragments.mapM (scanBatches disk files m.bases)
  let pieces ← batches.flatten.mapM (pieceBatch limits)
  let staging := pieces.flatten.foldl (writeBatch limits writer.heldBytes) {}
  stampCreated m (writer.fragments (finish staging)) moved

/-- A task: the fragments it rewrites, in order, and its writer. -/
structure Task where
  members : List DataFragment
  writer : TaskWriter disk

/-- The rewrites of a list of tasks. -/
def rewriteAll (limits : WriteLimits) :
    List (Task disk) → Except String (List CompactionRewrite)
  | [] => .ok []
  | task :: rest => do
    let created ← rewriteMembers disk files m limits task.members task.writer
    let others ← rewriteAll limits rest
    return { oldFragmentIds := task.members.map (·.id), newFragments := created } :: others

end Task

section Records

/-- The live rows of fragments, in order. -/
def rowsOf (fragments : List DataFragment) : Except String (List Row) := do
  let rows ← fragments.mapM (scanRows disk files bases)
  return rows.flatten

/-- The live rows of a fragment, each with its id and versions. -/
def fragmentRecords (f : DataFragment) : Except String (List (Row × MovedRow)) := do
  let rows ← scanRows disk files bases f
  let moved ← liveRowMeta files bases f
  return rows.zip moved

/-- The live rows of fragments with their ids and versions, in order. -/
def recordsOf (fragments : List DataFragment) : Except String (List (Row × MovedRow)) := do
  let records ← fragments.mapM (fragmentRecords disk files bases)
  return records.flatten

/-- Fragments that hold the live rows of others, in order; with stable row ids each under its id and
    with its versions, and none without. -/
structure HoldsRowsOf (stable : Bool) (new old : List DataFragment) : Prop where
  rows : ∃ rows, rowsOf disk files bases old = .ok rows ∧ rowsOf disk files bases new = .ok rows ∧
    (stable = true → ∃ records, recordsOf disk files bases old = .ok records ∧
      recordsOf disk files bases new = .ok records ∧ records.map Prod.fst = rows)

/-- The data files of a version hold as many rows as its manifest says. -/
def Truthful (m : Manifest) : Prop :=
  ∀ f ∈ m.fragments, ∀ rows, disk.read f.files f.overlays = .ok rows → rows.length = f.physicalRows

end Records

/-! ## The walk over a deletion vector -/

/-- The walk of `live_row_meta`: offsets go up, and the vector is followed up to each of them. -/
def liveRowWalk {α : Type} : List Nat → Nat → List α → List (α × Nat)
  | _, _, [] => []
  | deleted, i, x :: rest =>
    if (deleted.dropWhile (· < i)).head? = some i then
      liveRowWalk (deleted.dropWhile (· < i)) (i + 1) rest
    else (x, i) :: liveRowWalk (deleted.dropWhile (· < i)) (i + 1) rest

/-- The walk drops the offsets of the vector, of which it holds those still to come. -/
theorem liveRowWalk_left {α : Type} (xs : List α) {deleted : List Nat} : ∀ (left : List Nat) (i : Nat),
    left.Pairwise (· < ·) → (∀ j, i ≤ j → (j ∈ left ↔ j ∈ deleted)) →
    liveRowWalk left i xs = (xs.zipIdx i).filter (fun row => row.2 ∉ deleted) := by
  induction xs with
  | nil => exact fun _ _ _ _ => rfl
  | cons x rest ih =>
    intro left i hasc hleft
    have hrest := ih (left.dropWhile (· < i)) (i + 1) (hasc.sublist (dropWhile_sublist _))
      (fun j hj => (mem_dropWhile_lt left i j (by omega)).trans (hleft j (by omega)))
    have hhead := (head_dropWhile_lt left hasc i).trans (hleft i (Nat.le_refl i))
    rw [liveRowWalk, zipIdx_cons, filter_cons, hrest]
    by_cases hmem : i ∈ deleted
    · rw [if_pos (hhead.mpr hmem), if_neg (by simpa using hmem)]
    · rw [if_neg (fun h => hmem (hhead.mp h)), if_pos (by simpa using hmem)]

/-- Over an ascending vector the walk drops the vector's offsets and no other. -/
theorem liveRowWalk_eq {α : Type} (xs : List α) : ∀ (deleted : List Nat) (i : Nat),
    deleted.Pairwise (· < ·) →
    liveRowWalk deleted i xs = (xs.zipIdx i).filter (fun row => row.2 ∉ deleted) :=
  fun deleted i hasc => liveRowWalk_left xs deleted i hasc (fun _ _ => Iff.rfl)

theorem liveRowWalk_three : liveRowWalk [1] 0 [5, 6, 7] = [(5, 0), (7, 2)] :=
  liveRowWalk_eq [5, 6, 7] [1] 0 (by decide)

/-- The rows of a fragment that are moved are those the walk keeps: a vector that is read ascends. -/
theorem liveRowMeta_walk {files : DeletionFiles} (hfiles : ReadsBack files) (bases : List BasePath)
    (f : DataFragment) :
    liveRowMeta files bases f = (do
      let ids ← RowIds.fragmentRowIds f
      let created ← rowVersions f.rowMeta.created
      let updated ← rowVersions f.rowMeta.lastUpdated
      let deleted ← readDeletionVector files bases f.id f.deletionFile
      return (liveRowWalk deleted 0 ids).map (fun row =>
        { id := some row.1, created := created.getD row.2 1, updated := updated.getD row.2 1 })) := by
  unfold liveRowMeta
  refine bind_congr fun ids => bind_congr fun _ => bind_congr fun _ => ?_
  cases hread : readDeletionVector files bases f.id f.deletionFile with
  | error e => rfl
  | ok deleted =>
    have hasc : deleted.Pairwise (· < ·) := by
      cases hfile : f.deletionFile with
      | none =>
        rw [hfile] at hread
        rw [← Except.ok.inj hread]
        exact List.Pairwise.nil
      | some file =>
        rw [hfile] at hread
        exact hfiles.sorted bases f.id file deleted hread
    have hwalk := liveRowWalk_left ids deleted 0 hasc (fun _ _ => Iff.rfl)
    simp only [bind, Except.bind, hwalk]

/-! ## The files of a task -/

variable {rows : List Row}

section Write

theorem flatten_piecesOf (size fuel : Nat) (rows : List Row) :
    (piecesOf size fuel rows).flatten = rows := by
  induction fuel generalizing rows with
  | zero => grind [piecesOf]
  | succ fuel ih =>
    unfold piecesOf
    split
    · next h => rw [isEmpty_iff.mp h]; rfl
    · rw [flatten_cons, ih, take_append_drop]

variable {limits : WriteLimits}

theorem flatten_pieceBatch {batch : List Row} {pieces : List (List Row)}
    (h : pieceBatch limits batch = .ok pieces) : pieces.flatten = batch := by
  unfold pieceBatch at h
  split at h
  · grind
  · split at h
    · grind
    · split at h
      · cases h
      · rw [← Except.ok.inj h]
        exact flatten_piecesOf _ _ _

/-- Cutting batches into pieces loses no row. -/
theorem flatten_pieces {batches : List (List Row)} {pieces : List (List (List Row))}
    (h : batches.mapM (pieceBatch limits) = .ok pieces) :
    pieces.flatten.flatten = batches.flatten := by
  rw [mapM_eq_ok] at h
  induction h with
  | nil => rfl
  | @cons batch piece batches pieces hpiece _ ih =>
    rw [flatten_cons, flatten_append, ih, flatten_cons, flatten_pieceBatch hpiece]

/-- The rows a writer was given are in its files and in what it holds back, and no file is empty. -/
structure Staged (staging : Staging Row) (rows : List Row) : Prop where
  held : staging.files.flatten ++ staging.pending = rows
  count : staging.rows = rows.length
  nonempty : ∀ file ∈ staging.files, file ≠ []

variable {staging : Staging Row}

theorem writeBatch_staged (limits : WriteLimits) (heldBytes : List Row → Nat) (batch : List Row)
    (h : Staged staging rows) :
    Staged (writeBatch limits heldBytes staging batch) (rows ++ batch) := by
  have hheld : staging.files.flatten ++ (staging.pending ++ batch) = rows ++ batch := by
    rw [← append_assoc, h.held]
  have hcount : staging.rows + batch.length = (rows ++ batch).length := by
    rw [length_append, h.count]
  unfold writeBatch
  simp only []
  split
  · next hfull =>
    simp only [Bool.and_eq_true, Bool.not_eq_true', isEmpty_eq_false_iff] at hfull
    refine ⟨?_, hcount, ?_⟩
    · simp [hheld]
    · intro file hfile
      rcases mem_append.mp hfile with hfile | hfile
      · exact h.nonempty file hfile
      · grind
  · exact ⟨hheld, hcount, h.nonempty⟩

theorem writeAll_staged (limits : WriteLimits) (heldBytes : List Row → Nat)
    (batches : List (List Row)) (staging : Staging Row) (rows : List Row)
    (h : Staged staging rows) :
    Staged (batches.foldl (writeBatch limits heldBytes) staging) (rows ++ batches.flatten) := by
  induction batches generalizing staging rows with
  | nil => simpa using h
  | cons batch batches ih =>
    rw [foldl_cons, flatten_cons, ← append_assoc]
    exact ih _ _ (writeBatch_staged limits heldBytes batch h)

/-- The files hold the rows written, in order, and none is empty. -/
theorem finish_spec (h : Staged staging rows) :
    (finish staging).flatten = rows ∧ ∀ file ∈ finish staging, file ≠ [] := by
  unfold finish
  split
  · next hzero =>
    have hnil : rows = [] := length_eq_zero_iff.mp (h.count.symm.trans hzero)
    exact ⟨hnil.symm, nofun⟩
  · split
    · next hempty =>
      refine ⟨?_, h.nonempty⟩
      rw [← h.held, isEmpty_iff.mp hempty, append_nil]
    · next hsome =>
      refine ⟨?_, ?_⟩
      · rw [flatten_append, flatten_singleton, h.held]
      · intro file hfile
        rcases mem_append.mp hfile with hfile | hfile
        · exact h.nonempty file hfile
        · grind

end Write

/-! ## What the new fragments hold -/

variable {f : DataFragment}

section Holds

/-- A fragment whose data files hold these rows, none of them deleted. -/
structure Holds (f : DataFragment) (rows : List Row) : Prop where
  filed : f.files.isEmpty = false
  read : disk.read f.files f.overlays = .ok rows
  whole : f.deletionFile = none
  counted : f.physicalRows = rows.length

theorem scanRows_holds (h : Holds disk f rows) : scanRows disk files bases f = .ok rows := by
  simp only [scanRows, h.filed, Bool.false_eq_true, if_false, bind_eq_ok]
  refine ⟨(), ?_, rows, h.read, ?_⟩
  · rw [h.whole]
    simp
  · unfold withoutDeleted
    rw [h.whole]

theorem mapM_ok_of_forall₂ {α β : Type} (f : α → Except String β) (l : List α) (k : List β)
    (h : List.Forall₂ (fun a b => f a = .ok b) l k) : l.mapM f = .ok k :=
  (mapM_eq_ok f l k).mpr h

variable {parts : List (List Row)}

theorem rowsOf_holds {fragments : List DataFragment} (h : List.Forall₂ (Holds disk) fragments parts) :
    rowsOf disk files bases fragments = .ok parts.flatten := by
  simp only [rowsOf, bind_eq_ok, pure_eq_ok]
  refine ⟨parts, mapM_ok_of_forall₂ _ _ _ (h.imp fun f rows hf => ?_), rfl⟩
  exact scanRows_holds disk files bases hf

variable (writer : TaskWriter disk)

theorem writer_holds (k : Nat) (rows : List Row) :
    Holds disk (writer.fragment (writer.stage k rows)) rows where
  filed := rfl
  read := writer.readsBack k rows
  whole := rfl
  counted := writer.counts k rows

/-- Each file written is a fragment that holds its rows. -/
theorem fragments_hold {written : List (List Row)} (hne : ∀ file ∈ written, file ≠ []) :
    List.Forall₂ (Holds disk) (writer.fragments written) written := by
  have hall : ((written.zipIdx.map (fun file => writer.stage file.2 file.1)).filter
      (fun file => file.rows ≠ 0)) =
      written.zipIdx.map (fun file => writer.stage file.2 file.1) := by
    rw [filter_eq_self]
    intro file hfile
    rcases mem_map.mp hfile with ⟨entry, hentry, rfl⟩
    rw [decide_eq_true_eq, writer.counts]
    grind
  unfold TaskWriter.fragments
  rw [hall, map_map]
  have hparts : written = written.zipIdx.map Prod.fst := (zipIdx_map_fst 0 written).symm
  conv => arg 3; rw [hparts]
  rw [forall₂_map_left_iff, forall₂_map_right_iff, forall₂_same]
  exact fun entry _ => writer_holds disk writer entry.2 entry.1

theorem holds_count {fragments : List DataFragment} (h : List.Forall₂ (Holds disk) fragments parts) :
    (fragments.map (·.physicalRows)).sum = parts.flatten.length := by
  induction h with
  | nil => rfl
  | cons hf _ ih =>
    rw [map_cons, sum_cons, flatten_cons, length_append, hf.counted, ih]

/-- An id and row metadata leave what a fragment holds. -/
theorem Holds.restamp (h : Holds disk f rows) (id : Nat) (rowMeta : FragmentRowMeta) :
    Holds disk { f with id := id, rowMeta := rowMeta } rows :=
  ⟨h.filed, h.read, h.whole, h.counted⟩

theorem numberFrom_hold {fragments : List DataFragment} (next : Nat)
    (h : List.Forall₂ (Holds disk) fragments parts) :
    List.Forall₂ (Holds disk) (numberFrom fragments next) parts := by
  induction h generalizing next with
  | nil => exact List.Forall₂.nil
  | @cons f part fragments parts hf _ ih =>
    exact List.Forall₂.cons (hf.restamp disk next f.rowMeta) (ih (next + 1))

end Holds

/-! ## Ids and versions -/

section Stamp

theorem asMoved_of_ne {row : MovedRow} (h : row.id ≠ some newRowMark) : asMoved row = row := by
  unfold asMoved
  rw [if_neg h]

/-- The ids and versions of a row that brings its id. -/
def stampOf (row : MovedRow) : Nat × Nat × Nat := (row.id.getD 0, row.created, row.updated)

theorem stampRows_moved (version : Nat) : ∀ (count : Nat) (rows : List MovedRow) (next : Nat),
    count ≤ rows.length → (∀ row ∈ rows, row.id.isSome = true) →
    RowIds.stampRows version count rows next =
      ((rows.take count).map stampOf, rows.drop count, next)
  | 0, rows, next, _, _ => rfl
  | count + 1, [], next, hle, _ => absurd hle (by simp)
  | count + 1, row :: rows, next, hle, hid => by
      have hrest := stampRows_moved version count rows next
        (by simpa using hle) (fun r hr => hid r (mem_cons_of_mem _ hr))
      rcases Option.isSome_iff_exists.mp (hid row mem_cons_self) with ⟨id, hrow⟩
      rw [RowIds.stampRows, hrow]
      simp only [hrest, take_succ_cons, map_cons, drop_succ_cons, stampOf, hrow,
        Option.getD_some]

/-- A list of rows is not stamped on fewer places. -/
theorem stampRows_left (version : Nat) : ∀ (count : Nat) (rows : List MovedRow) (next : Nat),
    rows.length ≤ count + (RowIds.stampRows version count rows next).2.1.length
  | 0, rows, next => by simp [RowIds.stampRows]
  | count + 1, [], next => by simp
  | count + 1, row :: rows, next => by
      rw [RowIds.stampRows]
      split
      · have hrest := stampRows_left version count rows next
        simp only [length_cons]
        omega
      · have hrest := stampRows_left version count rows (next + 1)
        simp only [length_cons]
        omega

theorem stampFragments_le (version : Nat) (fragments : List DataFragment) (rows : List MovedRow)
    (next : Nat) (out : List DataFragment × Nat)
    (h : stampFragments version fragments rows next = .ok out) :
    rows.length ≤ (fragments.map (·.physicalRows)).sum := by
  induction fragments generalizing rows next out with
  | nil =>
    cases rows with
    | nil => exact Nat.le_refl 0
    | cons row rows => grind [stampFragments]
  | cons f fragments ih =>
    simp only [stampFragments, bind_eq_ok, pure_eq_ok] at h
    rcases h with ⟨others, hothers, _⟩
    have hrest := ih _ _ others hothers
    have hleft := stampRows_left version f.physicalRows rows next
    rw [map_cons, sum_cons]
    omega

/-- Rows with ids that are distinct, none of them the mark. -/
structure DistinctIds (rows : List MovedRow) : Prop where
  nodup : (rows.map (·.id)).Nodup
  below : ∀ row ∈ rows, ∀ id, row.id = some id → id < newRowMark

theorem DistinctIds.sublist {rows some : List MovedRow} (h : DistinctIds rows)
    (hsub : some.Sublist rows) : DistinctIds some :=
  ⟨h.nodup.sublist (hsub.map _), fun row hrow => h.below row (hsub.subset hrow)⟩

/-- What the walk reads back of stamped rows. -/
theorem liveRowMeta_stamped (f : DataFragment) (rows : List MovedRow)
    (hid : ∀ row ∈ rows, row.id.isSome = true) (hdistinct : DistinctIds rows)
    (hcount : f.physicalRows = rows.length) (hsmall : f.physicalRows ≤ 2 ^ 32)
    (hwhole : f.deletionFile = none) :
    liveRowMeta files bases (stampFragment f (rows.map stampOf)) = .ok rows := by
  have hids : (rows.map stampOf).map (fun row => row.1) = rows.map (fun row => row.id.getD 0) := by
    rw [map_map]
    rfl
  have hsome : rows.map (·.id) = (rows.map (fun row => row.id.getD 0)).map some := by
    rw [map_map]
    refine map_congr_left (fun row hrow => ?_)
    rcases Option.isSome_iff_exists.mp (hid row hrow) with ⟨id, hrow⟩
    simp [hrow]
  have hstored : stored ((rows.map stampOf).map (fun row => row.1)) =
      .values (rows.map (fun row => row.id.getD 0)) := by
    rw [hids]
    refine stored_eq ((hsome ▸ hdistinct.nodup).of_map _) ?_ (by rw [length_map]; omega)
    rw [forall_mem_map]
    intro row hrow
    rcases Option.isSome_iff_exists.mp (hid row hrow) with ⟨id, heq⟩
    rw [heq, Option.getD_some]
    exact hdistinct.below row hrow id heq
  simp only [liveRowMeta, bind_eq_ok, pure_eq_ok]
  refine ⟨rows.map (fun row => row.id.getD 0), ?_, rows.map (·.created), ?_,
    rows.map (·.updated), ?_, [], ?_, ?_⟩
  · unfold RowIds.fragmentRowIds stampFragment
    simp only [Bool.false_eq_true, if_false, hstored, length_map, hcount, if_true]
  · unfold stampFragment rowVersions
    simp only [map_map]
    rfl
  · unfold stampFragment rowVersions
    simp only [map_map]
    rfl
  · show readDeletionVector files bases f.id f.deletionFile = .ok []
    rw [hwhole]
    rfl
  · simp only [not_mem_nil, not_false_eq_true, decide_true, filter_true]
    refine ext_getElem (by simp) (fun i h₁ h₂ => ?_)
    rcases Option.isSome_iff_exists.mp (hid rows[i] (getElem_mem h₂)) with ⟨id, hi⟩
    simp [h₂, hi]
    cases hrow : rows[i] with
    | mk rowId created updated => grind

/-- What the walk gathers of each fragment. -/
abbrev Walked : List DataFragment → List (List MovedRow) → Prop :=
  List.Forall₂ (fun f rows => liveRowMeta files bases f = .ok rows)

abbrev SameLengths {α β : Type} : List (List α) → List (List β) → Prop :=
  List.Forall₂ (fun part other => part.length = other.length)

/-- Fragments stamped with as many rows as they hold: the walk over them reads these rows back. -/
theorem stampFragments_moved (version : Nat) (fragments : List DataFragment)
    (parts : List (List Row)) (rows : List MovedRow) (next : Nat) (out : List DataFragment × Nat)
    (hholds : List.Forall₂ (Holds disk) fragments parts)
    (h : stampFragments version fragments rows next = .ok out)
    (hcount : parts.flatten.length = rows.length) (hid : ∀ row ∈ rows, row.id.isSome = true)
    (hdistinct : DistinctIds rows) (hsmall : ∀ f ∈ out.1, f.physicalRows ≤ 2 ^ 32) :
    ∃ moved : List (List MovedRow), moved.flatten = rows ∧
      List.Forall₂ (Holds disk) out.1 parts ∧ Walked files bases out.1 moved ∧
      SameLengths parts moved := by
  induction hholds generalizing rows next out with
  | nil =>
    have hnil : rows = [] := length_eq_zero_iff.mp hcount.symm
    subst hnil
    rw [stampFragments, Except.ok.injEq] at h
    rw [← h]
    exact ⟨[], rfl, List.Forall₂.nil, List.Forall₂.nil, List.Forall₂.nil⟩
  | @cons f part fragments parts hf _ ih =>
    rw [flatten_cons, length_append] at hcount
    have hphysical := hf.counted
    have hstamp := stampRows_moved version f.physicalRows rows next (by omega) hid
    simp only [stampFragments, hstamp, bind_eq_ok, pure_eq_ok] at h
    rcases h with ⟨others, hothers, rfl⟩
    rw [forall_mem_cons] at hsmall
    rcases ih _ _ others hothers (by rw [length_drop]; omega)
      (fun row hrow => hid row (mem_of_mem_drop hrow)) (hdistinct.sublist (drop_sublist _ _))
      hsmall.2 with ⟨moved, hmoved, hholds, hread, hlengths⟩
    have htaken : (rows.take f.physicalRows).length = f.physicalRows := by
      rw [length_take]
      omega
    refine ⟨rows.take f.physicalRows :: moved, ?_, ?_, ?_, ?_⟩
    · rw [flatten_cons, hmoved, take_append_drop]
    · exact List.Forall₂.cons (hf.restamp disk f.id _) hholds
    · exact List.Forall₂.cons (liveRowMeta_stamped files bases f _
        (fun row hrow => hid row (mem_of_mem_take hrow)) (hdistinct.sublist (take_sublist _ _))
        htaken.symm hsmall.1 hf.whole) hread
    · exact List.Forall₂.cons (by omega) hlengths

end Stamp

/-! ## One task -/

section Member

theorem length_kept {α : Type} (xs : List α) (deleted : List Nat) :
    (xs.zipIdx.filter (fun row => row.2 ∉ deleted)).length =
      ((range xs.length).filter (fun offset => offset ∉ deleted)).length := by
  have hsnd : (xs.zipIdx.filter (fun row => row.2 ∉ deleted)).map Prod.snd =
      (range xs.length).filter (fun offset => offset ∉ deleted) := by
    rw [range_eq_range', ← zipIdx_map_snd 0 xs, filter_map]
    rfl
  rw [← hsnd, length_map]

theorem liveRowMeta_length {moved : List MovedRow} (h : liveRowMeta files bases f = .ok moved) :
    ∃ deleted, readDeletionVector files bases f.id f.deletionFile = .ok deleted ∧
      moved.length = ((range f.physicalRows).filter (fun offset => offset ∉ deleted)).length := by
  simp only [liveRowMeta, bind_eq_ok, pure_eq_ok] at h
  rcases h with ⟨ids, hids, _, _, _, _, deleted, hdeleted, rfl⟩
  refine ⟨deleted, hdeleted, ?_⟩
  rw [length_map, length_kept, RowIds.fragmentRowIds_length hids]

/-- The scan and the walk drop the same rows; only a fragment without data files has rows for the
    walk alone. -/
theorem scanRows_length_le {moved : List MovedRow}
    (htruthful : ∀ content, disk.read f.files f.overlays = .ok content → content.length =
      f.physicalRows) (hscan : scanRows disk files bases f = .ok rows)
    (hmoved : liveRowMeta files bases f = .ok moved) : rows.length ≤ moved.length := by
  rcases liveRowMeta_length files bases hmoved with ⟨deleted, hdeleted, hlength⟩
  unfold scanRows at hscan
  split at hscan
  · grind
  · simp only [bind_eq_ok] at hscan
    rcases hscan with ⟨_, _, content, hcontent, hscan⟩
    have hphysical := htruthful content hcontent
    unfold withoutDeleted at hscan
    cases hfile : f.deletionFile with
    | none =>
      rw [hfile] at hscan hdeleted
      simp only [Except.ok.injEq] at hscan
      have hnone : deleted = [] := (Except.ok.inj hdeleted).symm
      subst hnone hscan
      simp [hlength, hphysical]
    | some file =>
      rw [hfile] at hscan hdeleted
      simp only [bind_eq_ok, pure_eq_ok] at hscan
      rcases hscan with ⟨_, _, vector, hvector, _, _, _, _, rfl⟩
      have hsame : vector = deleted := Except.ok.inj (hvector.symm.trans hdeleted)
      subst hsame
      rw [length_map, length_kept, hphysical, hlength]

section

variable {α β : Type} (parts : List (List α)) (others : List (List β))
  (h : SameLengths parts others)

include α β h

theorem zip_flatten :
    (zipWith zip parts others).flatten = parts.flatten.zip others.flatten := by
  induction h with
  | nil => rfl
  | @cons part other parts others hlength _ ih =>
    rw [zipWith_cons_cons, flatten_cons, flatten_cons, flatten_cons, zip_append hlength, ih]

theorem length_flatten_eq :
    parts.flatten.length = others.flatten.length := by
  induction h with
  | nil => rfl
  | cons hlength _ ih =>
    rw [flatten_cons, flatten_cons, length_append, length_append, hlength, ih]

end

/-- Lists that are no longer than their partners and together as long. -/
theorem lengths_eq {α β : Type} {parts : List (List α)} {others : List (List β)}
    (h : List.Forall₂ (fun part other => part.length ≤ other.length) parts others)
    (htotal : others.flatten.length ≤ parts.flatten.length) :
    SameLengths parts others := by
  have hle : ∀ (parts : List (List α)) (others : List (List β)),
      List.Forall₂ (fun part other => part.length ≤ other.length) parts others →
      parts.flatten.length ≤ others.flatten.length := by
    intro parts others h
    induction h with
    | nil => exact Nat.le_refl 0
    | cons hlength _ ih => grind
  induction h with
  | nil => exact List.Forall₂.nil
  | @cons part other parts others hlength hrest ih =>
    rw [flatten_cons, flatten_cons, length_append, length_append] at htotal
    have htail := hle parts others hrest
    exact List.Forall₂.cons (by omega) (ih (by omega))

/-- What the scan returns of each fragment. -/
abbrev Scanned : List DataFragment → List (List Row) → Prop :=
  List.Forall₂ (fun f rows => scanRows disk files bases f = .ok rows)

/-- The records of fragments, of their rows and what the walk gathers. -/
theorem recordsOf_eq (fragments : List DataFragment) (parts : List (List Row))
    (moved : List (List MovedRow))
    (hrows : Scanned disk files bases fragments parts) (hmoved : Walked files bases fragments moved)
    (hlengths : SameLengths parts moved) :
    recordsOf disk files bases fragments = .ok (parts.flatten.zip moved.flatten) := by
  have heach : List.Forall₂ (fun f records => fragmentRecords disk files bases f = .ok records)
      fragments (zipWith zip parts moved) := by
    clear hlengths
    induction hrows generalizing moved with
    | nil => simp
    | @cons f rows fragments parts hf _ ih =>
      cases hmoved with
      | @cons _ walked _ moved hwalked hrest =>
        rw [zipWith_cons_cons]
        refine List.Forall₂.cons ?_ (ih moved hrest)
        simp only [fragmentRecords, bind_eq_ok, pure_eq_ok]
        exact ⟨rows, hf, walked, hwalked, rfl⟩
  simp only [recordsOf, bind_eq_ok, pure_eq_ok]
  exact ⟨_, mapM_ok_of_forall₂ _ _ _ heach, zip_flatten parts moved hlengths⟩

/-- What a task leaves: fragments that hold the rows the scan of its members returns, and with
    stable row ids what the walk over them gathers. -/
def RewrittenFrom (stable : Bool) (created members : List DataFragment) : Prop :=
  ∃ parts : List (List Row), List.Forall₂ (Holds disk) created parts ∧
    rowsOf disk files bases members = .ok parts.flatten ∧
    (stable = true → ∃ moved : List (List MovedRow),
      List.Forall₂ (fun f rows => liveRowMeta files bases f = .ok rows) created moved ∧
      List.Forall₂ (fun (part : List Row) (rows : List MovedRow) => part.length = rows.length)
        parts moved ∧
      recordsOf disk files bases members = .ok (parts.flatten.zip moved.flatten))

end Member

section Rewrite

variable {disk files} {m : Manifest}

variable {members : List DataFragment}

theorem requested_eq (hids : (m.fragments.map (·.id)).Nodup) {fragments : List DataFragment}
    (hmembers : ∀ f ∈ members, f ∈ m.fragments)
    (h : members.mapM (fun f => requestedFragment m f.id) = .ok fragments) :
    fragments = members := by
  have hall := mapM_ok (fun f : DataFragment => requestedFragment m f.id) (fun f hf => by
      unfold requestedFragment
      have hfind : m.fragment? f.id = some f :=
        (find_key_iff f.id hids f).mpr ⟨hmembers f hf, rfl⟩
      rw [hfind])
  rw [h, Except.ok.injEq, map_id'] at hall
  exact hall

/-- The rows a task hands to its writer are those the scan of its members returns. -/
theorem scanBatches_rows {batches : List (List (List Row))}
    (h : members.mapM (scanBatches disk files m.bases) = .ok batches) :
    ∃ parts : List (List Row),
      Scanned disk files m.bases members parts ∧
      batches.flatten.flatten = parts.flatten := by
  rw [mapM_eq_ok] at h
  induction h with
  | nil => exact ⟨[], List.Forall₂.nil, rfl⟩
  | @cons f batch members batches hbatch _ ih =>
    simp only [scanBatches, bind_eq_ok, pure_eq_ok] at hbatch
    rcases hbatch with ⟨rows, hrows, rfl⟩
    rcases ih with ⟨parts, hparts, hflat⟩
    refine ⟨rows :: parts, List.Forall₂.cons hrows hparts, ?_⟩
    rw [flatten_cons, flatten_append, disk.flatten_batches, hflat, flatten_cons]

/-- The scan of a task's members has no more rows than the walk over them. -/
theorem scanRows_all_le (htruthful : Truthful disk m) (members : List DataFragment)
    (hmembers : ∀ f ∈ members, f ∈ m.fragments) (read : List (List Row))
    (walked : List (List MovedRow))
    (hread : Scanned disk files m.bases members read)
    (hwalked : Walked files m.bases members walked) :
    List.Forall₂ (fun (part : List Row) (other : List MovedRow) => part.length ≤ other.length)
      read walked := by
  induction hread generalizing walked with
  | nil =>
    cases hwalked
    exact List.Forall₂.nil
  | @cons f part members read hpart _ ih =>
    cases hwalked with
    | cons hf hrest =>
      refine List.Forall₂.cons ?_ (ih (fun g hg => hmembers g (.tail _ hg)) _ hrest)
      exact scanRows_length_le disk files m.bases (htruthful f (hmembers f (.head _))) hpart hf

variable (files m) in
/-- The live rows of a task's fragments have distinct ids. -/
def DistinctIn (members : List DataFragment) : Prop :=
  ∀ moved, members.mapM (liveRowMeta files m.bases) = .ok moved → DistinctIds moved.flatten

/-- The walk over a task's members, where no row has the mark for its id. -/
theorem gatherMoved_spec {rows : List MovedRow} (hstable : isStable m = true)
    (h : gatherMoved files m members = .ok rows) (hdistinct : DistinctIn files m members) :
    ∃ moved : List (List MovedRow),
      Walked files m.bases members moved ∧
      moved.flatten = rows ∧ (∀ row ∈ rows, row.id.isSome = true) ∧ DistinctIds rows := by
  simp only [gatherMoved, hstable, if_true, bind_eq_ok, pure_eq_ok] at h
  rcases h with ⟨moved, hmoved, rfl⟩
  have hids := hdistinct moved hmoved
  rw [mapM_eq_ok] at hmoved
  have hrows : ∀ row ∈ moved.flatten, row.id.isSome = true := by
    intro row hrow
    rcases mem_flatten.mp hrow with ⟨part, hpart, hin⟩
    rcases (forall₂_partner hmoved).2 part hpart with ⟨f, hf, hread⟩
    simp only [liveRowMeta, bind_eq_ok, pure_eq_ok] at hread
    grind
  have hmap : moved.flatten.map asMoved = moved.flatten := by
    conv => rhs; rw [← map_id moved.flatten]
    refine map_congr_left (fun row hrow => asMoved_of_ne (fun heq => ?_))
    exact absurd (hids.below row hrow _ heq) (Nat.lt_irrefl _)
  rw [hmap]
  exact ⟨moved, hmoved, rfl, hrows, hids⟩

/-- A task's files hold the rows of its fragments, under their ids and versions. -/
theorem rewriteMembers_holds (hids : (m.fragments.map (·.id)).Nodup)
    (htruthful : Truthful disk m) (limits : WriteLimits) (members : List DataFragment)
    (hmembers : ∀ f ∈ members, f ∈ m.fragments) (writer : TaskWriter disk)
    (hdistinct : isStable m = true → DistinctIn files m members) (created : List DataFragment)
    (h : rewriteMembers disk files m limits members writer = .ok created)
    (hsmall : ∀ f ∈ created, f.physicalRows ≤ 2 ^ 32) :
    RewrittenFrom disk files m.bases (isStable m) created members := by
  simp only [rewriteMembers, bind_eq_ok] at h
  rcases h with ⟨rows, hgather, fragments, hfragments, batches, hbatches, pieces, hpieces, hstamp⟩
  rw [requested_eq hids hmembers hfragments] at hbatches
  rcases scanBatches_rows hbatches with ⟨read, hread, hflat⟩
  -- What went to the writer is in its files, in order.
  have hstaged := writeAll_staged limits writer.heldBytes pieces.flatten {} [] ⟨rfl, rfl, by simp⟩
  rw [nil_append, flatten_pieces hpieces, hflat] at hstaged
  rcases finish_spec hstaged with ⟨hwritten, hnonempty⟩
  generalize hfiles : finish (pieces.flatten.foldl (writeBatch limits writer.heldBytes) {}) =
    parts at hstamp hwritten hnonempty
  have hholds := fragments_hold disk writer hnonempty
  have hrows : rowsOf disk files m.bases members = .ok parts.flatten := by
    simp only [rowsOf, bind_eq_ok, pure_eq_ok]
    exact ⟨read, mapM_ok_of_forall₂ _ _ _ hread, hwritten.symm⟩
  by_cases hstable : isStable m = true
  · rw [stampCreated, if_pos hstable] at hstamp
    simp only [bind_eq_ok, pure_eq_ok] at hstamp
    rcases hstamp with ⟨stamped, hstamped, rfl⟩
    rcases gatherMoved_spec hstable hgather (hdistinct hstable) with
      ⟨walked, hwalked, hwalkedRows, hid, hrowIds⟩
    -- The walk has no fewer rows than the scan, and the stamping refuses more.
    have hle := scanRows_all_le htruthful members hmembers read walked hread hwalked
    have hsum := holds_count disk hholds
    have htotal := stampFragments_le _ _ _ _ _ hstamped
    rw [hsum, hwritten, ← hwalkedRows] at htotal
    have hlengths := lengths_eq hle htotal
    have hcount : parts.flatten.length = rows.length := by
      rw [hwritten, ← hwalkedRows]
      exact length_flatten_eq read walked hlengths
    rcases stampFragments_moved disk files m.bases _ _ _ _ _ _ hholds hstamped hcount hid hrowIds
      hsmall with ⟨moved, hmoved, hstampedHolds, hreadBack, hsame⟩
    refine ⟨parts, hstampedHolds, hrows, fun _ => ⟨moved, hreadBack, hsame, ?_⟩⟩
    rw [recordsOf_eq disk files m.bases members read walked hread hwalked hlengths, hwritten, hmoved,
      hwalkedRows]
  · rw [stampCreated, if_neg hstable, Except.ok.injEq] at hstamp
    rw [← hstamp]
    exact ⟨parts, hholds, hrows, fun h => absurd h hstable⟩

/-! ## The commit -/

variable (disk files) in
/-- Each rewrite is what its task leaves. -/
abbrev AllRewritten (stable : Bool) : List (Task disk) → List CompactionRewrite → Prop :=
  List.Forall₂ (fun task rewrite => rewrite.oldFragmentIds = task.members.map (·.id) ∧
    RewrittenFrom disk files bases stable rewrite.newFragments task.members)

theorem rewriteAll_holds (hids : (m.fragments.map (·.id)).Nodup)
    (htruthful : Truthful disk m) (limits : WriteLimits) (tasks : List (Task disk))
    (rewrites : List CompactionRewrite)
    (hmembers : ∀ task ∈ tasks, ∀ f ∈ task.members, f ∈ m.fragments)
    (hdistinct : isStable m = true → ∀ task ∈ tasks, DistinctIn files m task.members)
    (h : rewriteAll disk files m limits tasks = .ok rewrites)
    (hsmall : ∀ f ∈ rewrites.flatMap (·.newFragments), f.physicalRows ≤ 2 ^ 32) :
    AllRewritten disk files m.bases (isStable m) tasks rewrites := by
  induction tasks generalizing rewrites with
  | nil =>
    rw [rewriteAll, Except.ok.injEq] at h
    rw [← h]
    exact List.Forall₂.nil
  | cons task tasks ih =>
    simp only [rewriteAll, bind_eq_ok, pure_eq_ok] at h
    rcases h with ⟨created, hcreated, others, hothers, rfl⟩
    rw [flatMap_cons, forall_mem_append] at hsmall
    refine List.Forall₂.cons ⟨rfl, ?_⟩ (ih others (fun t ht => hmembers t (.tail _ ht))
      (fun hstable t ht => hdistinct hstable t (.tail _ ht)) hothers hsmall.2)
    exact rewriteMembers_holds hids htruthful limits task.members
      (hmembers task (.head _)) task.writer
      (fun hstable => hdistinct hstable task (.head _)) created hcreated hsmall.1

/-- The walk over a fragment without deletions does not look at its id. -/
theorem liveRowMeta_number (f : DataFragment) (id : Nat) (rows : List MovedRow)
    (hwhole : f.deletionFile = none) (h : liveRowMeta files bases f = .ok rows) :
    liveRowMeta files bases { f with id := id } = .ok rows := by
  simp only [liveRowMeta, bind_eq_ok, pure_eq_ok] at h ⊢
  rcases h with ⟨ids, hids, created, hcreated, updated, hupdated, deleted, hdeleted, hrows⟩
  refine ⟨ids, RowIds.fragmentRowIds_number id hids, created, hcreated, updated, hupdated,
    deleted, ?_, hrows⟩
  rw [hwhole] at hdeleted ⊢
  exact hdeleted

theorem liveRowMeta_numberFrom (created : List DataFragment) (parts : List (List Row)) (next : Nat)
    (hholds : List.Forall₂ (Holds disk) created parts) (moved : List (List MovedRow))
    (h : Walked files bases created moved) :
    Walked files bases (numberFrom created next) moved := by
  induction hholds generalizing moved next with
  | nil => exact h
  | @cons f part created parts hf _ ih =>
    cases h with
    | cons hfirst hrest =>
      exact List.Forall₂.cons (liveRowMeta_number bases f next _ hf.whole hfirst)
        (ih (next + 1) _ hrest)

variable {stable : Bool}

/-- Ids for a task's fragments leave what they hold. -/
theorem holdsRowsOf_number {created : List DataFragment} (next : Nat)
    (h : RewrittenFrom disk files bases stable created members) :
    HoldsRowsOf disk files bases stable (numberFrom created next) members := by
  rcases h with ⟨parts, hholds, hrows, hmoved⟩
  have hnumbered := numberFrom_hold disk next hholds
  have hread : Scanned disk files bases (numberFrom created next) parts :=
    hnumbered.imp (fun f rows hf => scanRows_holds disk files bases hf)
  refine ⟨parts.flatten, hrows, rowsOf_holds disk files bases hnumbered, fun hstable => ?_⟩
  rcases hmoved hstable with ⟨moved, hback, hlengths, hrecords⟩
  have hwalk := liveRowMeta_numberFrom bases created parts next hholds moved hback
  refine ⟨_, hrecords, recordsOf_eq disk files bases _ _ _ hread hwalk hlengths, ?_⟩
  exact map_fst_zip (Nat.le_of_eq (length_flatten_eq parts moved hlengths))

/-- The new fragments of each rewrite, numbered from `next` on. -/
def numberRewrites : List CompactionRewrite → Nat → List (List DataFragment)
  | [], _ => []
  | rewrite :: rest, next =>
    numberFrom rewrite.newFragments next ::
      numberRewrites rest (next + rewrite.newFragments.length)

theorem flatten_numberRewrites (rewrites : List CompactionRewrite) (next : Nat) :
    (numberRewrites rewrites next).flatten =
      numberFrom (rewrites.flatMap (·.newFragments)) next := by
  induction rewrites generalizing next with
  | nil => rfl
  | cons rewrite rest ih =>
    rw [numberRewrites, flatten_cons, ih, flatMap_cons, numberFrom_append]

variable {tasks : List (Task disk)} {rewrites : List CompactionRewrite}

theorem numberRewrites_hold {bases : List BasePath} (next : Nat)
    (h : AllRewritten disk files bases stable tasks rewrites) :
    List.Forall₂ (fun task new => HoldsRowsOf disk files bases stable new task.members) tasks
      (numberRewrites rewrites next) := by
  induction h generalizing next with
  | nil => exact List.Forall₂.nil
  | cons hfirst _ ih =>
    exact List.Forall₂.cons (holdsRowsOf_number bases next hfirst.2) (ih _)

/-- The fragments a compaction leaves alone, by id and by membership. -/
theorem kept_eq (hids : (m.fragments.map (·.id)).Nodup)
    (hmembers : ∀ task ∈ tasks, ∀ f ∈ task.members, f ∈ m.fragments)
    (h : AllRewritten disk files m.bases (isStable m) tasks rewrites) :
    m.fragments.filter (fun f => f.id ∉ rewrites.flatMap (·.oldFragmentIds)) =
      m.fragments.filter (fun f => f ∉ tasks.flatMap (·.members)) := by
  have hold : rewrites.flatMap (·.oldFragmentIds) = (tasks.flatMap (·.members)).map (·.id) := by
    clear hmembers
    induction h with
    | nil => rfl
    | cons hfirst _ ih => rw [flatMap_cons, flatMap_cons, map_append, hfirst.1, ih]
  rw [hold]
  refine filter_congr (fun f hf => ?_)
  rw [decide_eq_decide, not_iff_not, mem_map]
  constructor
  · rintro ⟨g, hg, heq⟩
    rcases mem_flatMap.mp hg with ⟨task, htask, hin⟩
    have hsame := inj_on_of_nodup_map hids (hmembers task htask g hin) hf heq
    rwa [← hsame]
  · exact fun hin => ⟨f, hin, rfl⟩

/-- A compaction changes no row: its version has the fragments of the one before that no task
    rewrote, as they were, and for each task fragments that hold the live rows of the task's
    fragments in order, with stable row ids each under its id and with its versions. The ids of a
    task's rows are distinct and none is the mark, and offsets in the new files have 32 bits. -/
theorem compaction_keeps_rows (hids : (m.fragments.map (·.id)).Nodup)
    (htruthful : Truthful disk m) (limits : WriteLimits) (defer : Bool) (tasks : List (Task disk))
    (hmembers : ∀ task ∈ tasks, ∀ f ∈ task.members, f ∈ m.fragments)
    (hdistinct : isStable m = true → ∀ task ∈ tasks, DistinctIn files m task.members)
    (c : Compaction) (hrewrites : rewriteAll disk files m limits tasks = .ok c.rewrites)
    (hsmall : ∀ f ∈ c.created, f.physicalRows ≤ 2 ^ 32)
    (out : Manifest) (hout : compactCommit (files.rows m.bases) defer m m [] c = .ok out) :
    out.bases = m.bases ∧ isStable out = isStable m ∧
    ∃ created : List (List DataFragment),
      out.fragments.Perm
        (m.fragments.filter (fun f => f ∉ tasks.flatMap (·.members)) ++ created.flatten) ∧
      (created.flatten.map (·.id)).Pairwise (· < ·) ∧
      List.Forall₂ (fun task new => HoldsRowsOf disk files m.bases (isStable m) new task.members)
        tasks created := by
  have hall := rewriteAll_holds hids htruthful limits tasks c.rewrites hmembers hdistinct hrewrites
    hsmall
  unfold compactCommit at hout
  split at hout
  · next hnone =>
    -- No task has a fragment, and no version is committed.
    rw [← Except.ok.inj hout]
    have hempty : ∀ task ∈ tasks, task.members = [] := by
      intro task htask
      rcases (forall₂_partner hall).1 task htask with ⟨rewrite, hrewrite, heq, _⟩
      have hold := all_eq_true.mp hnone rewrite hrewrite
      rw [List.isEmpty_iff, heq, map_eq_nil_iff] at hold
      exact hold
    refine ⟨rfl, rfl, tasks.map (fun _ => []), ?_, ?_, ?_⟩
    · have hmem : tasks.flatMap (·.members) = [] := flatMap_eq_nil_iff.mpr hempty
      simp [hmem]
    · simp
    · rw [forall₂_map_right_iff, forall₂_same]
      intro task htask
      rw [hempty task htask]
      exact ⟨[], rfl, rfl, fun _ => ⟨[], rfl, rfl, rfl⟩⟩
  · simp only [bind_eq_ok] at hout
    rcases hout with ⟨_, _, _, _, _, _, reserved, hreserved, hmanifest⟩
    simp only [reserveIds, isEmpty_nil, if_true, Except.ok.injEq] at hreserved
    rcases reserveManifest_keeps m c.created.length with ⟨mark, hkeeps⟩
    have hfragments : reserved.fragments = m.fragments := by rw [← hreserved, hkeeps]
    have hbases : reserved.bases = m.bases := by rw [← hreserved, hkeeps]
    have hflags : reserved.readerFeatureFlags = m.readerFeatureFlags := by
      rw [← hreserved, hkeeps]
    simp only [compactionManifest, bind_eq_ok, pure_eq_ok] at hmanifest
    rcases hmanifest with ⟨_, _, indices, _, rfl⟩
    refine ⟨hbases, ?_, numberRewrites c.rewrites (firstNewId reserved c.created.length), ?_, ?_,
      numberRewrites_hold _ hall⟩
    · grind [isStable, setFlag_deletions_stable]
    · rw [flatten_numberRewrites, ← kept_eq hids hmembers hall, ← hfragments]
      exact sortFragments_perm _
    · rw [flatten_numberRewrites, numberFrom_ids]
      exact pairwise_lt_range'

end Rewrite

/-- Two data files, of two rows and of one, and files that hold the rows their
    size is the code of. -/
def twoFileDisk : Disk Nat where
  read files _ :=
    match files with
    | [file] =>
      if file.path = "a.lance" then .ok [10, 11]
      else if file.path = "b.lance" then .ok [20]
      else .ok ((Encodable.decode (α := List Nat) file.fileSizeBytes).getD [])
    | _ => .error "one file"
  batches rows := [rows]
  flatten_batches _ := flatten_singleton

def codedWriter : TaskWriter twoFileDisk where
  mapping := []
  heldBytes rows := 8 * rows.length
  stage _ rows := { path := "c.lance", rows := rows.length, fileSizeBytes := Encodable.encode rows }
  counts _ _ := rfl
  readsBack k rows := by
    simp [twoFileDisk, manifestDataFile]

/-- The first row of fragment 0 is deleted. -/
def firstRowDeleted : DeletionFiles where
  rows _ _ _ := .ok [0]
  put _ _ _ := .error "read only"

/-- A version with stable row ids: rows of ids 0 and `id` in fragment 0, a row of id 2 in fragment
    1. -/
def stablePair (id : Nat) : Manifest :=
  { version := 1
    readerFeatureFlags := flagStableRowIds
    fragments :=
      [{ id := 0, files := [{ path := "a.lance", fields := [] }], physicalRows := 2
         deletionFile := some { numDeletedRows := 1 }
         rowMeta := { rowIds := some (.values [0, id]), created := some (.values [1, 4]) } },
       { id := 1, files := [{ path := "b.lance", fields := [] }], physicalRows := 1
         rowMeta := { rowIds := some (.values [2]), lastUpdated := some (.values [5]) } }]
    maxFragmentId := some 1 }

/-- One task over both fragments. -/
def pairTask (id : Nat) : Task twoFileDisk :=
  { members := (stablePair id).fragments, writer := codedWriter }

def pairRewrites (id : Nat) : List CompactionRewrite :=
  match rewriteAll twoFileDisk firstRowDeleted (stablePair id) {} [pairTask id] with
  | .ok rewrites => rewrites
  | .error _ => []

/-- The version after both fragments are rewritten. -/
def compactedPair (id : Nat) : Manifest :=
  match compactCommit (firstRowDeleted.rows []) false (stablePair id) (stablePair id) []
    { rewrites := pairRewrites id } with
  | .ok out => out
  | .error _ => {}

/-- The row that is left of the first fragment and the row of the second, in one new file. -/
theorem compaction_keeps_rows_pair :
    rewriteAll twoFileDisk firstRowDeleted (stablePair 7) {} [pairTask 7] = .ok (pairRewrites 7) ∧
    compactCommit (firstRowDeleted.rows []) false (stablePair 7) (stablePair 7) []
      { rewrites := pairRewrites 7 } = .ok (compactedPair 7) ∧
    (compactedPair 7).fragments.map (fun f => (f.id, f.physicalRows)) = [(2, 2)] ∧
    ∃ created : List (List DataFragment),
      (compactedPair 7).fragments.Perm ((stablePair 7).fragments.filter
        (fun f => f ∉ [pairTask 7].flatMap (·.members)) ++ created.flatten) ∧
      (created.flatten.map (·.id)).Pairwise (· < ·) ∧
      List.Forall₂ (fun task new => HoldsRowsOf twoFileDisk firstRowDeleted [] true new task.members)
        [pairTask 7] created := by
  have htruthful : Truthful twoFileDisk (stablePair 7) := by
    intro f hf rows hrows
    simp only [stablePair, mem_cons, not_mem_nil, or_false] at hf
    rcases hf with rfl | rfl
    · rw [← Except.ok.inj hrows]
      rfl
    · rw [← Except.ok.inj hrows]
      rfl
  have hdistinct : ∀ task ∈ [pairTask 7], DistinctIn firstRowDeleted (stablePair 7) task.members := by
    intro task htask moved hmoved
    rw [mem_singleton.mp htask] at hmoved
    have hrows : moved = [[{ id := some 7, created := 4, updated := 1 }],
        [{ id := some 2, created := 1, updated := 5 }]] := (Except.ok.inj hmoved).symm
    rw [hrows]
    exact ⟨by decide, by simp [newRowMark]⟩
  have hrewrites : rewriteAll twoFileDisk firstRowDeleted (stablePair 7) {} [pairTask 7] =
      .ok (pairRewrites 7) := rfl
  refine ⟨hrewrites, rfl, rfl, ?_⟩
  exact (compaction_keeps_rows (m := stablePair 7) (by decide) htruthful {} false [pairTask 7]
    (fun task htask f hf => by rw [mem_singleton.mp htask] at hf; exact hf)
    (fun _ => hdistinct) { rewrites := pairRewrites 7 } hrewrites (by decide +kernel)
    (compactedPair 7) rfl).2.2

/-- A row whose id is the mark comes out under another id and as a new row. Two rows of one id leave
    a fragment whose rows have no ids. -/
theorem compaction_renumbers_marked_row :
    compactCommit (firstRowDeleted.rows []) false (stablePair newRowMark) (stablePair newRowMark) []
      { rewrites := pairRewrites newRowMark } = .ok (compactedPair newRowMark) ∧
    (stablePair newRowMark).fragments.mapM (liveRowMeta firstRowDeleted []) =
      .ok [[{ id := some (2 ^ 64 - 1), created := 4, updated := 1 }],
        [{ id := some 2, created := 1, updated := 5 }]] ∧
    (compactedPair newRowMark).fragments.mapM (liveRowMeta firstRowDeleted []) =
      .ok [[{ id := some 0, created := 2, updated := 2 },
        { id := some 2, created := 1, updated := 5 }]] ∧
    compactCommit (firstRowDeleted.rows []) false (stablePair 2) (stablePair 2) []
      { rewrites := pairRewrites 2 } = .ok (compactedPair 2) ∧
    (stablePair 2).fragments.mapM (liveRowMeta firstRowDeleted []) =
      .ok [[{ id := some 2, created := 4, updated := 1 }],
        [{ id := some 2, created := 1, updated := 5 }]] ∧
    (compactedPair 2).fragments.mapM (liveRowMeta firstRowDeleted []) =
      .error "fragment 2 has 2 rows but 1 row ids" := by
  refine ⟨rfl, rfl, ?_, rfl, rfl, ?_⟩
  · decide +kernel
  · decide +kernel

end CompactionRows

end NanoLance
