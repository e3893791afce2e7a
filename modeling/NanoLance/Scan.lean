import NanoLance.FragReuse
import NanoLance.Lib.Slices

/-!
# Scanning a Dataset

A scan plans which fragments to open and how much of each to read, and then
reads the planned files. A plan counts in logical rows, those left when the
deleted ones are gone, and a plain row range is cut there into a part of each
fragment. With a filter or a row-address mask the range counts the rows that
pass, so it is cut after the read.

Three ways lead to a fragment's rows. The whole fragment is cut into morsels,
ranges of physical rows that are decoded on their own and give a batch each.
When a scalar index has answered the filter, only the candidates it left are
decoded and filtered. And a filter that reads fewer columns than the scan
returns is evaluated on those columns first; when few rows pass, only they are
decoded.

The columns are decoded elsewhere: `Store` is what a scan sees of the data
files, and `R` is a row of decoded values. A batch lists physical offsets with
the rows at them.

## Main definitions

* `readAllBatches`, `sliceBatches`: The eager read.
-/

namespace NanoLance

namespace Scan

open List Lib

/-! ## Files -/

/-- A page of a column, as the cut into morsels looks at it. -/
structure Page where
  length : Nat
  bytes : Nat
  addressable : Bool
  items : Nat
  lists : Nat
  deriving DecidableEq, Repr

/-- A column to decode. A column of format 2.0 that needs other columns is decoded whole. -/
structure Column where
  pages : List Page
  v20 : Bool := false
  valueBytes : Nat := 1
  deriving DecidableEq, Repr

/-- The files of a dataset, by fragment: the row counts of the data files, the deleted offsets, the
    columns (of the filter alone, or of all the scan decodes), and rows decoded all together, in a
    range, or picked. -/
structure Store (R : Type) where
  lengths : Nat → List Nat
  deleted : Nat → Except String (List Nat)
  columns : Bool → Nat → List Column
  whole : Nat → Except String (List R)
  range : Nat → Nat → Nat → Except String (List R)
  rows : Nat → List Nat → Except String (List R)

/-- What the machine sets of a parallel read. `worthwhile` is the comparison of what a cut decodes
    with what the columns hold, made in floating point. -/
structure Machine where
  threads : Nat
  morselMinBytes : Nat
  worthwhile : List Column → List (Nat × Nat) → Bool

/-! ## Morsels -/

/-- A page with the rows it holds. -/
structure PlacedPage where
  first : Nat
  last : Nat
  page : Page
  deriving DecidableEq, Repr

/-- The pages a range of rows touches. -/
def touched (first last : Nat) : List Page → Nat → List PlacedPage
  | [], _ => []
  | page :: rest, row =>
    let others := touched first last rest (row + page.length)
    if row + page.length ≤ first || last ≤ row then others
    else { first := row, last := row + page.length, page := page } :: others

def bytesOf (pages : List PlacedPage) : Nat := (pages.map (·.page.bytes)).sum

/-- The column with the most bytes in the range, the first one of equals. -/
def heaviest : List (List PlacedPage) → List PlacedPage
  | [] => []
  | column :: rest => rest.foldl (fun best c => if bytesOf best < bytesOf c then c else best) column

/-- The work of decoding a page: its bytes, or what it decodes to. -/
def pageWork (first last valueBytes : Nat) (p : PlacedPage) : Nat :=
  let rows := max 1 (p.last - p.first)
  let rowsHere := min last p.last - max first p.first
  let units := if p.page.lists ≠ 0 then max p.page.items rows else p.page.items
  let weight := if p.page.lists ≠ 0 then max valueBytes (32 * p.page.lists) else valueBytes
  max p.page.bytes (units * rowsHere % 2 ^ 64 / rows * weight % 2 ^ 64)

/-- The end of the page at which the bytes so far reach `target`, zero when none does. -/
def boundaryAt (target : Nat) : List PlacedPage → Nat → Nat
  | [], _ => 0
  | p :: rest, acc =>
    if target ≤ acc + p.page.bytes then p.last else boundaryAt target rest (acc + p.page.bytes)

/-- The `k`-th of `want` cuts of a range. -/
def cutAt (even : Bool) (spine : List PlacedPage) (first last want k : Nat) : Nat :=
  if even then (first + (last - first) * k % 2 ^ 64 / want) % 2 ^ 64
  else boundaryAt (bytesOf spine * k % 2 ^ 64 / want) spine 0

/-- The cuts of a range that leave something on both sides. -/
def cutFrom (cut : Nat → Nat) (last : Nat) : List Nat → Nat → List (Nat × Nat)
  | [], row => [(row, last)]
  | k :: rest, row =>
    if row < cut k && cut k < last then (row, cut k) :: cutFrom cut last rest (cut k)
    else cutFrom cut last rest row

/-- The first cut into `want` morsels or fewer that is worth it, `want` halved until one is. -/
def tryMorsels (accept : List (Nat × Nat) → Bool) (cut : Nat → Nat → Nat) (first last : Nat) :
    Nat → Nat → List (Nat × Nat)
  | 0, _ => [(first, last)]
  | fuel + 1, want =>
    if want ≤ 1 then [(first, last)]
    else
      let plan := cutFrom (cut want) last (range' 1 (want - 1)) first
      if 1 < plan.length && accept plan then plan
      else tryMorsels accept cut first last fuel (want / 2)

/-- Physical row ranges covering `[first, last)`. -/
def planMorsels (machine : Machine) (columns : List Column) (first last : Nat) :
    List (Nat × Nat) :=
  if machine.threads ≤ 1 || last - first < 2 || columns.isEmpty || columns.any (·.v20) then
    [(first, last)]
  else
    let pages := columns.map (fun c => touched first last c.pages 0)
    let work := (columns.map (fun c =>
      ((touched first last c.pages 0).map (pageWork first last c.valueBytes)).sum)).sum % 2 ^ 64
    let want := min (2 * machine.threads) (work / machine.morselMinBytes)
    let spine := heaviest pages
    let testSetting := machine.morselMinBytes < 65536
    let even := spine.all (·.page.addressable) || testSetting
    tryMorsels (fun plan => testSetting || machine.worthwhile columns plan)
      (cutAt even spine first last) first last want want

/-! ## One planned file -/

/-- What is read of a fragment: logical rows `skip` to `skip + take`. -/
structure PlannedFile where
  fragmentId : Nat
  deletionFile : Option DeletionFile
  physicalRows : Nat
  rows : Nat
  skip : Nat := 0
  take : Nat := 0
  candidates : Option (List Nat) := none
  maskKeep : Option (List Bool) := none
  deriving DecidableEq, Repr

/-- Only some of the fragment's rows are wanted. -/
def PlannedFile.part (planned : PlannedFile) : Bool :=
  planned.skip ≠ 0 || planned.take ≠ planned.rows

/-- A filter of decoded rows. An evaluation may fail. -/
structure Filter (R : Type) where
  passes : R → Except String Bool
  /-- The filter reads a column. -/
  readsColumns : Bool
  /-- The scan decodes columns the filter does not read. -/
  more : Bool

/-- A batch: physical offsets with the rows at them. -/
abbrev Batch (R : Type) := List (Nat × R)

section Read

variable {R : Type} (store : Store R) (machine : Machine)

/-- The rows the data files of a fragment hold. -/
def fileLength : List Nat → Except String Nat
  | [] => .error "fragment has no data files"
  | length :: rest =>
    if rest.all (· = length) then .ok length
    else .error "data files within one fragment disagree on their row count"

/-- The rows left by the deletions, nothing when there is no deletion file. -/
def deletionKeep (planned : PlannedFile) (physical : Nat) : Except String (List Bool) :=
  match planned.deletionFile with
  | none => .ok []
  | some _ => do
    ensure (physical = planned.physicalRows)
      (s!"data file holds {physical} rows but the manifest claims {planned.physicalRows}" ++
        "; refusing to apply a deletion vector against rows that do not line up")
    let deleted ← store.deleted planned.fragmentId
    match deleted.find? (physical ≤ ·) with
    | some row =>
      .error s!"deletion file names row {row} but the fragment holds {physical}"
    | none => .ok ((range physical).map (fun row => row ∉ deleted))

/-- The rows left by the mask too. -/
def maskedKeep (planned : PlannedFile) (physical : Nat) (keep : List Bool) :
    Except String (List Bool) :=
  match planned.maskKeep with
  | none => .ok keep
  | some mask => do
    ensure (mask.length = physical)
      (s!"row address mask covers {mask.length} rows but the data " ++
        s!"file holds {physical}")
    return if keep.isEmpty then mask else zipWith (· && ·) keep mask

/-- The rows kept of `physical` ones; no flags means all of them. -/
def logicalRows (keep : List Bool) (physical : Nat) : Nat :=
  if keep.isEmpty then physical else keep.count true

/-- The logical rows before each physical one, from `n` on. -/
def logicalBefore : List Bool → Nat → List Nat
  | [], n => [n]
  | k :: rest, n => n :: logicalBefore rest (n + k.toNat)

/-- The logical row a physical one is, or would be. -/
def logicalAt (keep : List Bool) (row : Nat) : Nat :=
  if keep.isEmpty then row else (logicalBefore keep 0).getD row 0

/-- The physical rows holding logical rows `wantFirst` to `wantEnd`. -/
def physicalRange (keep : List Bool) (wantFirst wantEnd : Nat) : Nat × Nat :=
  if keep.isEmpty then (wantFirst, wantEnd)
  else
    let before := logicalBefore keep 0
    let first := (before.takeWhile (· ≤ wantFirst)).length - 1
    let last := if wantEnd = 0 then 0 else (before.takeWhile (· < wantEnd)).length
    (first, max last first)

/-- The elements whose flag is set. -/
def compact {α : Type} (flags : List Bool) (l : List α) : List α :=
  ((l.zip flags).filter (·.2)).map (·.1)

/-- The physical rows of a batch: those of the morsel that are kept, from logical row `lo` on,
    `count` of them. -/
def trackRows (keep : List Bool) (lo : Nat) : List Nat → Nat → Nat → List Nat
  | [], _, _ => []
  | row :: rest, logicalRow, count =>
    if count = 0 then []
    else if !keep.isEmpty && !keep.getD row false then trackRows keep lo rest logicalRow count
    else if lo ≤ logicalRow then row :: trackRows keep lo rest (logicalRow + 1) (count - 1)
    else trackRows keep lo rest (logicalRow + 1) count

/-- The rows a filter passes, with their offsets. -/
def filterDecodedRows (filter : Option (Filter R)) (rows : List R) (physicalRows : List Nat) :
    Except String (Batch R) :=
  match filter with
  | none => .ok (physicalRows.zip rows)
  | some f => do
    let pass ← rows.mapM f.passes
    return (compact pass physicalRows).zip (compact pass rows)

/-- One decoded morsel without the rows not kept or not wanted, and filtered; nothing when it has no
    part in what is wanted. -/
def buildBatch (filter : Option (Filter R)) (keep : List Bool) (wantFirst wantEnd : Nat)
    (single : Bool) (morsel : Nat × Nat) (decoded : List R) : Except String (Option (Batch R)) :=
  let kept := if keep.isEmpty then decoded
    else compact ((keep.drop morsel.1).take (morsel.2 - morsel.1)) decoded
  let logicalFirst := logicalAt keep morsel.1
  let rows := logicalAt keep morsel.2 - logicalFirst
  let lo := max logicalFirst wantFirst
  let hi := min (logicalFirst + rows) wantEnd
  if hi ≤ lo && !single then .ok none
  else do
    let sliced := (kept.drop (lo - logicalFirst)).take (hi - lo)
    let physicalRows := trackRows keep lo (range' morsel.1 (morsel.2 - morsel.1)) logicalFirst
      (hi - lo)
    let batch ← filterDecodedRows filter sliced physicalRows
    return if filter.isSome && batch.isEmpty then none else some batch

/-- A fragment read through, a batch for each morsel. -/
def readMorsels (planned : PlannedFile) (filter : Option (Filter R)) (filterOnly : Bool) :
    Except String (List (Batch R)) := do
  let physical ← fileLength (store.lengths planned.fragmentId)
  let deletions ← deletionKeep store planned physical
  ensure (!((planned.part || !deletions.isEmpty) &&
      logicalRows deletions physical ≠ planned.rows))
    (s!"data file holds {logicalRows deletions physical} rows but the manifest claims " ++
      s!"{planned.rows}; refusing to guess which rows a range covers")
  let keep ← maskedKeep planned physical deletions
  let wantFirst := if planned.part then planned.skip else 0
  let wantEnd := if planned.part then planned.skip + planned.take else logicalRows keep physical
  let range := physicalRange keep wantFirst wantEnd
  let morsels := planMorsels machine (store.columns filterOnly planned.fragmentId) range.1 range.2
  let whole := morsels.length = 1 && range.1 = 0 && range.2 = physical
  let decoded ← morsels.mapM (fun m => if whole then store.whole planned.fragmentId
    else store.range planned.fragmentId m.1 (m.2 - m.1))
  let batches ← (morsels.zip decoded).mapM (fun m => buildBatch filter keep wantFirst wantEnd
    (morsels.length = 1) m.1 m.2)
  return batches.filterMap (fun b => b)

/-- The deleted rows of a planned file. -/
def deletedOf (planned : PlannedFile) : Except String (List Nat) :=
  match planned.deletionFile with
  | none => .ok []
  | some _ => store.deleted planned.fragmentId

/-- Rows picked out of a fragment. -/
def decodeDataFileRows (planned : PlannedFile) (physical : List Nat) : Except String (List R) :=
  match (store.lengths planned.fragmentId).find? (· ≠ planned.physicalRows) with
  | some length =>
    .error s!"data file holds {length} rows but the manifest claims {planned.physicalRows}"
  | none => store.rows planned.fragmentId physical

/-- The rows an index left, decoded and filtered as one batch. -/
def readCandidateRows (planned : PlannedFile) (candidates : List Nat) (filter : Filter R) :
    Except String (List (Batch R)) := do
  let deleted ← deletedOf store planned
  let physical := candidates.filter (fun row => row < planned.physicalRows && row ∉ deleted)
  if physical.isEmpty then return []
  else do
    let rows ← decodeDataFileRows store planned physical
    let batch ← filterDecodedRows (some filter) rows physical
    return if batch.isEmpty then [] else [batch]

/-- A filter that reads few columns, evaluated on those first; when few rows pass, only they are
    decoded. -/
def readLate (planned : PlannedFile) (filter : Filter R) : Except String (List (Batch R)) := do
  let passed ← readMorsels store machine planned (some filter) true
  let rows := passed.flatten.map (·.1)
  if rows.isEmpty then return []
  else if rows.length * 8 < planned.physicalRows then readCandidateRows store planned rows filter
  else readMorsels store machine planned (some filter) false

/-- One fragment's rows. -/
def readDataFileBatches (planned : PlannedFile) (filter : Option (Filter R)) :
    Except String (List (Batch R)) :=
  match filter with
  | none => readMorsels store machine planned none false
  | some f =>
    if planned.part then readMorsels store machine planned (some f) false
    else
      match planned.candidates with
      | some candidates => readCandidateRows store planned candidates f
      | none =>
        if f.readsColumns && f.more then readLate store machine planned f
        else readMorsels store machine planned (some f) false

end Read

/-! ## Planning -/

/-- Rows `offset` to `offset + length`; the largest length means all. -/
structure RowRange where
  offset : Nat := 0
  length : Nat := 2 ^ 64 - 1
  deriving DecidableEq, Repr

def allRows : Nat := 2 ^ 64 - 1

def RowRange.isWholeDataset (range : RowRange) : Bool :=
  range.offset = 0 && range.length = allRows

/-- What a scan asks for. -/
structure ScanRequest (R : Type) where
  fragmentIds : Option (List Nat) := none
  includeDeletedRows : Bool := false
  useScalarIndex : Bool := true
  range : RowRange := {}
  filter : Option (Filter R) := none
  /-- Which addresses the row mask allows. -/
  rowMask : Option (Nat → Bool) := none

/-- The candidates an index left, by fragment. -/
abbrev Candidates := List (Nat × List Nat)

def Candidates.find? (c : Candidates) (id : Nat) : Option (List Nat) :=
  (List.find? (fun e => e.1 = id) c).map Prod.snd

/-- The candidates of a fragment, taken: they are empty afterwards. -/
def Candidates.takeOut (c : Candidates) (id : Nat) : Candidates :=
  c.map (fun e => if e.1 = id then (e.1, []) else e)

/-- The fragments asked for, in the order asked, or all by id. -/
def requestedFragments (m : Manifest) : Option (List Nat) → Except String (List DataFragment)
  | some ids => ids.mapM (fun id =>
      match m.fragment? id with
      | some f => .ok f
      | none => .error s!"fragment {id} not found")
  | none => .ok (sortFragments m.fragments)

/-- The planned files so far, and what planning keeps track of. -/
structure PlanState where
  candidates : Candidates
  cursor : Nat := 0
  files : List PlannedFile := []
  deriving DecidableEq, Repr

section Plan

variable {R : Type} (request : ScanRequest R)

/-- A plain row range, cut into parts of fragments. -/
def ScanRequest.ranged : Bool :=
  request.filter.isNone && request.rowMask.isNone && !request.range.isWholeDataset

/-- A range that counts the rows that pass. -/
def ScanRequest.postRange : Option RowRange :=
  if (request.filter.isSome || request.rowMask.isSome) && !request.range.isWholeDataset then
    some request.range
  else none

/-- The end of a range, as far as 64 bits go. -/
def RowRange.wantEnd (range : RowRange) : Nat :=
  if range.length = allRows then 2 ^ 64 - 1
  else if 2 ^ 64 - 1 - range.length < range.offset then 2 ^ 64 - 1
  else range.offset + range.length

/-- The part of a range a fragment has, whose first row is `firstRow`. -/
def planRange (range : RowRange) (firstRow : Nat) (planned : PlannedFile) : Option PlannedFile :=
  let first := max range.offset firstRow
  let last := min range.wantEnd (firstRow + planned.rows)
  if last ≤ first then none
  else some { planned with skip := first - firstRow, take := last - first }

/-- A fragment read through, or by the candidates an index left of it. -/
def planWhole (candidates : Candidates) (planned : PlannedFile) :
    Candidates × Option PlannedFile :=
  let planned := { planned with take := planned.rows }
  match candidates.find? planned.fragmentId with
  | none => (candidates, some planned)
  | some rows =>
    if rows.isEmpty then (candidates, none)
    else if rows.length * 8 < planned.physicalRows && request.rowMask.isNone then
      (candidates.takeOut planned.fragmentId, some { planned with candidates := some rows })
    else (candidates, some planned)

/-- One fragment added to a plan. -/
def planFragment (state : PlanState) (f : DataFragment) : Except String PlanState :=
  if f.files.isEmpty then .ok state
  else do
    let deletedRows := (f.deletionFile.map (·.numDeletedRows)).getD 0
    ensure (!(f.physicalRows < deletedRows)) "fragment claims more deleted rows than it holds"
    let rows := f.physicalRows - deletedRows
    ensure (!(2 ^ 64 - 1 - state.cursor < rows)) "dataset row count overflows a 64-bit integer"
    let mask := request.rowMask.map (fun allows =>
      (range f.physicalRows).map (fun r => allows (rowAddress f.id r)))
    let planned : PlannedFile := {
      fragmentId := f.id
      deletionFile := f.deletionFile
      physicalRows := f.physicalRows
      rows := rows
      maskKeep := mask }
    let after := { state with cursor := state.cursor + rows }
    if mask.any (fun keep => !keep.contains true) then return after
    else if request.ranged then
      return { after with
        files := after.files ++ (planRange request.range state.cursor planned).toList }
    else
      let next := planWhole request state.candidates planned
      return { after with candidates := next.1, files := after.files ++ next.2.toList }

/-- The files a scan reads, `answers` being the candidates an index leaves. -/
def openReadPlan (m : Manifest) (answers : Candidates) : Except String (List PlannedFile) := do
  let candidates := if request.filter.isSome && request.useScalarIndex &&
    !request.includeDeletedRows && !m.indices.isEmpty then answers else []
  let fragments ← requestedFragments m request.fragmentIds
  let fragments := if request.includeDeletedRows then
    fragments.map (fun f => { f with deletionFile := none }) else fragments
  let state ← fragments.foldlM (planFragment request) { candidates := candidates }
  ensure (!(request.ranged && state.cursor < request.range.offset))
    s!"row range starts past the end of the dataset ({state.cursor} rows)"
  return state.files

end Plan

/-! ## Reading -/

section Result

variable {R : Type} (store : Store R) (machine : Machine)

/-- Rows with their addresses. -/
def addressed (id : Nat) (batch : Batch R) : Batch R :=
  batch.map (fun r => (rowAddress id r.1, r.2))

/-- The part of the batches a range leaves; a negative length is no bound. -/
def sliceBatches (offset : Nat) (length : Option Nat) : List (Batch R) → Nat → List (Batch R)
  | [], _ => []
  | batch :: rest, first =>
    let last := match length with
      | none => 2 ^ 64 - 1
      | some n => (offset + n) % 2 ^ 64
    let lo := max first offset
    let hi := min (first + batch.length) last
    let others := sliceBatches offset length rest (first + batch.length)
    if hi ≤ lo then others
    else (batch.drop (lo - first)).take (hi - lo) :: others

/-- The length of a range as the slicer takes it: signed, so that a large one is no bound. -/
def RowRange.bound (range : RowRange) : Option Nat :=
  if range.length < 2 ^ 63 then some range.length else none

/-- Every planned file, read. -/
def readFiles (filter : Option (Filter R)) (files : List PlannedFile) :
    Except String (List (Batch R)) := do
  let batches ← files.mapM (fun planned => do
    let batches ← readDataFileBatches store machine planned filter
    return batches.map (addressed planned.fragmentId))
  return batches.flatten

def readAllBatches (request : ScanRequest R) (files : List PlannedFile) :
    Except String (List (Batch R)) := do
  let batches ← readFiles store machine request.filter files
  match request.postRange with
  | none => return batches
  | some range => return sliceBatches range.offset range.bound batches 0

/-- The eager read. -/
def scan (request : ScanRequest R) (m : Manifest) (answers : Candidates) :
    Except String (List (Batch R)) := do
  let files ← openReadPlan request m answers
  readAllBatches store machine request files

/-! ## Streaming -/

/-- A stream: the files not read yet, the batches not handed out yet, and what is left to skip and
    to return of a range that counts the rows that pass. -/
structure Stream (R : Type) where
  files : List PlannedFile
  pending : List (Batch R) := []
  skip : Nat := 0
  remaining : Nat := allRows

/-- The stream at its end. -/
def Stream.done (skip remaining : Nat) : Stream R :=
  { files := [], pending := [], skip := skip, remaining := remaining }

/-- The next batch of a stream, files being read until there is one; no batch at the end. A batch
    the range skips is passed over. -/
def next (request : ScanRequest R) (files : List PlannedFile) (pending : List (Batch R))
    (skip remaining : Nat) : Except String (Stream R × Option (Batch R)) :=
  match files, pending with
  | [], [] => .ok (.done skip remaining, none)
  | planned :: files, [] => do
    let batches ← readDataFileBatches store machine planned request.filter
    next request files (batches.map (addressed planned.fragmentId)) skip remaining
  | files, batch :: pending =>
    if request.postRange.isNone then .ok (⟨files, pending, skip, remaining⟩, some batch)
    else if remaining = 0 then .ok (.done (skip - min skip batch.length) remaining, none)
    else if batch.length ≤ skip then
      next request files pending (skip - min skip batch.length) remaining
    else
      let count := min (batch.length - skip) remaining
      .ok (⟨files, pending, 0, if remaining = allRows then remaining else remaining - count⟩,
        some ((batch.drop skip).take count))
termination_by (files.length, pending.length)

/-- The stream a scan opens. -/
def openStream (request : ScanRequest R) (m : Manifest) (answers : Candidates) :
    Except String (Stream R) := do
  let files ← openReadPlan request m answers
  match request.postRange with
  | none => return { files := files }
  | some range => return { files := files, skip := range.offset, remaining := range.length }

/-- The batches a stream hands out, to its end. -/
inductive Drains (request : ScanRequest R) : Stream R → List (Batch R) → Prop where
  | done (s s' : Stream R) : next store machine request s.files s.pending s.skip s.remaining =
      .ok (s', none) → Drains request s []
  | more (s s' : Stream R) (batch : Batch R) (batches : List (Batch R)) :
      next store machine request s.files s.pending s.skip s.remaining = .ok (s', some batch) →
      Drains request s' batches → Drains request s (batch :: batches)

end Result

end Scan

end NanoLance
