import NanoLance.Compaction
import NanoLance.DeletionMerge
import NanoLance.RowIdSequence

/-!
# Stable Row Ids

What the operations on a dataset with stable row ids do to the ids of its rows.
An append numbers its rows from the table's next row id. An update and a merge
insert write the changed rows to new fragments, where they keep their ids, and
delete them from the fragments they were in; rows that are new are numbered. A
compaction writes the live rows of some fragments to new ones, ids and all.

A row's address is its fragment's id and its offset, packed into one number.
The filters of the operations are given by the addresses they let through, the
keys of a merge insert by the bytes `key_of` makes of a row's key columns, and
what is left to the writer of data files is only where it ends a file. The ids of
a new file's rows are stored as a sequence, and are those that are read back.

Each operation reads the latest version and commits the next one. The counts an
operation reports, the check of a source's columns and the rebuilding of indices
after a compaction are left out; none of them changes a row. The next row id does
not wrap.

## Main definitions

* `mergeInsertOnce`: Matching source rows with the dataset's by key.
* `RowRequest`, `rowStep`: The operations, one after the other.
-/

namespace NanoLance

namespace RowIds

open Lib

/-- The row ids of a fragment, deleted rows' among them. -/
def fragmentRowIds (f : DataFragment) : Except String (List Nat) :=
  if f.rowMeta.external then .error "row ids stored in an external file are not supported"
  else
    match f.rowMeta.rowIds with
    | none => .error s!"fragment {f.id} has no row ids"
    | some (.malformed e) => .error e
    | some (.values ids) =>
      if ids.length = f.physicalRows then .ok ids
      else .error s!"fragment {f.id} has {f.physicalRows} rows but {ids.length} row ids"

section Rows

variable (files : DeletionFiles)

/-- The addresses of a fragment's live rows. -/
def scanFragment (bases : List BasePath) (f : DataFragment) : Except String (List Nat) := do
  let deleted ← readDeletionVector files bases f.id f.deletionFile
  return liveAddresses f deleted

/-- The addresses of a version's live rows, in the order of a scan. -/
def scanAddresses (m : Manifest) : Except String (List Nat) := do
  let rows ← m.fragments.mapM (scanFragment files m.bases)
  return rows.flatten

/-- The ids of a fragment's live rows. -/
def liveFragmentIds (bases : List BasePath) (f : DataFragment) : Except String (List Nat) := do
  let ids ← fragmentRowIds f
  let deleted ← readDeletionVector files bases f.id f.deletionFile
  return (ids.zipIdx.filter (fun row => row.2 ∉ deleted)).map Prod.fst

/-- The ids of a version's live rows. -/
def liveRowIds (m : Manifest) : Except String (List Nat) := do
  let ids ← m.fragments.mapM (liveFragmentIds files m.bases)
  return ids.flatten

/-- The rows at `deleted` that are in a fragment. -/
def deletedIn (deleted : List Nat) (id : Nat) : List Nat :=
  (deleted.filter (fun address => fragmentOf address = id)).map offsetOf

/-- A fragment without the deleted rows, or nothing when none is left. -/
def deleteFrom (bases : List BasePath) (version : Nat) (deleted : List Nat) (f : DataFragment) :
    Except String (Option DataFragment) :=
  if (deletedIn deleted f.id).isEmpty then .ok (some f)
  else do
    let already ← readDeletionVector files bases f.id f.deletionFile
    let rows := ascending (already ++ deletedIn deleted f.id)
    if f.physicalRows ≤ rows.length then return none
    else
      let file ← writeDeletionFile files f.id version rows
      return some { f with deletionFile := some file }

/-- Mark rows deleted. -/
def applyDeletions (m : Manifest) (version : Nat) (deleted : List Nat) :
    Except String Manifest := do
  let kept ← m.fragments.mapM (deleteFrom files m.bases version deleted)
  let fragments := kept.reduceOption
  let flags := fun (word : BitVec 64) =>
    if fragments.any (fun f => f.deletionFile.isSome) then setFlag word flagDeletionFiles true
    else word
  return { m with
    fragments := fragments
    readerFeatureFlags := flags m.readerFeatureFlags
    writerFeatureFlags := flags m.writerFeatureFlags }

end Rows

/-- A writer of data files: how many rows it puts in each file is its own business, but it writes
    the rows it is given. -/
structure StagedWriter where
  mapping : List LanceField
  files : Nat → List NewFragment
  total : ∀ rows, ((files rows).map (·.rows)).sum = rows

/-- The files of the rows written, without those that got none, as fragments that have no id yet. -/
def StagedWriter.fragments (writer : StagedWriter) (rows : Nat) : List DataFragment :=
  ((writer.files rows).filter (fun f => f.rows ≠ 0)).map (fun f =>
    { id := 0, physicalRows := f.rows, files := [manifestDataFile writer.mapping f] })

/-- Written files as new fragments of a version. -/
def addFragments (m : Manifest) (added : List DataFragment) : Manifest :=
  (numberFrom added (nextFragmentId m)).foldl
    (fun m f => noteFragmentId { m with fragments := m.fragments ++ [f] } f.id) m

/-- A row in a new file: the id it has, if it has one, and its versions. -/
structure MovedRow where
  id : Option Nat
  created : Nat
  updated : Nat
  deriving DecidableEq, Repr

/-- The ids and versions of the next `count` rows, the rows that are left and the next row id. A row
    without an id, and one past the list, is new. -/
def stampRows (version : Nat) :
    Nat → List MovedRow → Nat → List (Nat × Nat × Nat) × List MovedRow × Nat
  | 0, rows, next => ([], rows, next)
  | count + 1, [], next =>
    let out := stampRows version count [] (next + 1)
    ((next, version, version) :: out.1, out.2)
  | count + 1, row :: rows, next =>
    match row.id with
    | some id =>
      let out := stampRows version count rows next
      ((id, row.created, row.updated) :: out.1, out.2)
    | none =>
      let out := stampRows version count rows (next + 1)
      ((next, version, version) :: out.1, out.2)

def stampFragment (f : DataFragment) (rows : List (Nat × Nat × Nat)) : DataFragment :=
  { f with rowMeta :=
      { rowIds := some (stored (rows.map (fun row => row.1)))
        created := some (.values (rows.map (fun row => row.2.1)))
        lastUpdated := some (.values (rows.map (fun row => row.2.2))) } }

/-- New fragments with the ids and versions of their rows, which were written
    to them in this order. -/
def stampFragments (version : Nat) :
    List DataFragment → List MovedRow → Nat → Except String (List DataFragment × Nat)
  | [], [], next => .ok ([], next)
  | [], _ :: _, _ => .error "internal error: rows moved to new fragments are missing"
  | f :: rest, rows, next => do
    let out := stampRows version f.physicalRows rows next
    let others ← stampFragments version rest out.2.1 out.2.2
    return (stampFragment f out.1 :: others.1, others.2)

/-- The fragments from `first` on stamped, with ids from the version's mark. -/
def stampNewFragments (m : Manifest) (first : Nat) (rows : List MovedRow) (version : Nat) :
    Except String Manifest := do
  let stamped ← stampFragments version (m.fragments.drop first) rows m.nextRowId
  return { m with fragments := m.fragments.take first ++ stamped.1, nextRowId := stamped.2 }

def rowVersions : Option RowSequence → Except String (List Nat)
  | none => .ok []
  | some (.malformed e) => .error e
  | some (.values versions) => .ok versions

/-- The version a row was created at; version 1 where nothing is recorded. -/
def createdVersion (f : DataFragment) (offset : Nat) : Except String Nat := do
  let versions ← rowVersions f.rowMeta.created
  return if versions.getD offset 0 = 0 then 1 else versions.getD offset 0

/-- A row that is written again keeps its id and creation version. An update takes the id from its
    scan, which reads it from the same sequence. -/
def movedRow (m : Manifest) (version : Nat) : Option Nat → Except String MovedRow
  | none => .ok { id := none, created := 0, updated := version }
  | some address =>
    match m.fragment? (fragmentOf address) with
    | none => .error "internal error: a moved row's fragment is gone"
    | some f => do
      let ids ← fragmentRowIds f
      let created ← createdVersion f (offsetOf address)
      match ids[offsetOf address]? with
      | none => .error "internal error: a moved row is past its fragment"
      | some id => .ok { id := some id, created := created, updated := version }

/-- The rows written to new files, where the dataset has stable row ids. -/
def movedRows (m : Manifest) (written : List (Option Nat)) : Except String (List MovedRow) :=
  if isStable m then written.mapM (movedRow m (m.version + 1)) else .ok []

/-- The new fragments stamped, where the dataset has stable row ids. -/
def stampStable (m added : Manifest) (first : Nat) (moved : List MovedRow) :
    Except String Manifest :=
  if isStable m then stampNewFragments added first moved (m.version + 1) else .ok added

/-- The next version: indices of fields that are gone go, and the fragments are in id order. -/
def commitNext (m : Manifest) : Manifest :=
  { m with
    version := m.version + 1
    indices := retainRelevantIndices m.indices m.fields m.fragments
    fragments := sortFragments m.fragments }

section Operations

variable (files : DeletionFiles)

/-- Rows deleted, and rows written to new files: each a row that was there and keeps its id, or a
    new one. -/
def replaceRows (m : Manifest) (deleted : List Nat) (written : List (Option Nat))
    (writer : StagedWriter) : Except String Manifest := do
  let moved ← movedRows m written
  let without ← applyDeletions files m m.version deleted
  let stamped ← stampStable m (addFragments without (writer.fragments written.length))
    without.fragments.length moved
  return commitNext stamped

/-- A delete: the text of its predicate, and the rows where it is true. -/
structure RowDelete where
  predicate : String
  holds : Nat → Bool

def deleteOnce (m : Manifest) (request : RowDelete) : Except String Manifest := do
  ensure (request.predicate ≠ "") "a delete needs a predicate"
  let rows ← scanAddresses files m
  let without ← applyDeletions files m m.version (rows.filter request.holds)
  return commitNext without

/-- An update: the columns it sets, and the rows where its predicate is true. -/
structure RowUpdate where
  assignments : List (String × String)
  holds : Nat → Bool
  writer : StagedWriter

def updateOnce (m : Manifest) (request : RowUpdate) : Except String Manifest := do
  ensure (!request.assignments.isEmpty) "an update needs at least one column to set"
  let rows ← scanAddresses files m
  let matched := rows.filter request.holds
  replaceRows files m matched (matched.map some) request.writer

inductive WhenMatched where
  | doNothing
  | updateAll
  | updateIf
  | fail
  | delete
  deriving DecidableEq, Repr

/-- A source row: its key, absent when a key column is null, and whether the condition of an
    `updateIf` holds of it and a row of the dataset. -/
structure SourceRow where
  key : Option Bytes
  meets : Nat → Bool

/-- A merge insert, with the keys of the dataset's rows. An empty condition on the rows without a
    source row lets all of them through. -/
structure MergeInsert where
  on : List String
  whenMatched : WhenMatched := .doNothing
  matchedCondition : String := ""
  insertAll : Bool := true
  bySourceDelete : Bool := false
  bySourceCondition : Option (Nat → Bool) := none
  source : List SourceRow
  keyAt : Nat → Option Bytes
  writer : StagedWriter

/-- The row of the dataset a source row matches: the last one with its key. -/
def MergeInsert.target (spec : MergeInsert) (rows : List Nat) (row : SourceRow) : Option Nat :=
  row.key.bind (fun key => rows.reverse.find? (fun address => spec.keyAt address = some key))

/-- A source row that matches a row is written in its place. -/
def MergeInsert.updates (spec : MergeInsert) (row : SourceRow) (address : Nat) : Bool :=
  spec.whenMatched = .updateAll || (spec.whenMatched = .updateIf && row.meets address)

/-- What is written of a source row: nothing, a new row, or a row in place of
    one of the dataset's. -/
def MergeInsert.written (spec : MergeInsert) (rows : List Nat) (row : SourceRow) :
    Option (Option Nat) :=
  match spec.target rows row with
  | some address => if spec.updates row address then some (some address) else none
  | none => if spec.insertAll then some none else none

/-- The row of the dataset a source row deletes. -/
def MergeInsert.deletes (spec : MergeInsert) (rows : List Nat) (row : SourceRow) : Option Nat :=
  (spec.target rows row).filter (fun address =>
    spec.updates row address || spec.whenMatched = .delete)

/-- The rows without a source row that a merge insert deletes. -/
def MergeInsert.unmatched (spec : MergeInsert) (rows : List Nat) : List Nat :=
  if spec.bySourceDelete then
    rows.filter (fun address => address ∉ spec.source.filterMap (spec.target rows) &&
      spec.bySourceCondition.all (fun holds => holds address))
  else []

def mergeInsertOnce (m : Manifest) (spec : MergeInsert) : Except String Manifest := do
  ensure (!spec.on.isEmpty) "merge insert needs at least one key column"
  let rows ← scanAddresses files m
  ensure (!(spec.whenMatched = .updateIf && spec.matchedCondition = ""))
    "merge insert: when_matched UPDATE_IF needs a condition"
  ensure (!(spec.whenMatched = .fail && spec.source.any (fun row => (spec.target rows row).isSome)))
    "Merge insert failed: a source row matches an existing row, and when_matched is fail"
  replaceRows files m (spec.source.filterMap (spec.deletes rows) ++ spec.unmatched rows)
    (spec.source.filterMap (spec.written rows)) spec.writer

/-- What a compaction is asked for. `exceeds` compares the share of deleted rows with the threshold;
    each task has a writer. -/
structure CompactionOptions where
  targetRows : Nat := 1024 * 1024
  materializeDeletions : Bool := true
  exceeds : Nat → Nat → Bool
  excluded : List Nat := []
  maxSourceFragments : Option Nat := none
  maxSourceRows : Option Nat := none
  maxSourceBytes : Option Nat := none
  deferIndexRemap : Bool := false
  writer : Nat → StagedWriter

/-- The rows of a fragment by the count in its deletion file. -/
def countedRows (f : DataFragment) : Nat :=
  (f.physicalRows + 2 ^ 64 - (f.deletionFile.map (·.numDeletedRows)).getD 0) % 2 ^ 64

/-- Rewritten even alone. -/
def CompactionOptions.itself (options : CompactionOptions) (f : DataFragment) : Bool :=
  options.materializeDeletions && f.physicalRows ≠ 0 &&
    f.deletionFile.any (fun file => options.exceeds file.numDeletedRows f.physicalRows)

def CompactionOptions.candidate (options : CompactionOptions) (f : DataFragment) : Bool :=
  options.itself f || f.physicalRows < max options.targetRows 1

/-- The positions of the indices that cover a fragment. -/
def coveringIndices (m : Manifest) (f : DataFragment) : List Nat :=
  (m.indices.zipIdx.filter (fun i => f.id % 2 ^ 32 ∈ i.1.fragmentIds)).map Prod.snd

/-- A run is kept when it has several fragments, or one that is rewritten even alone. -/
def closeRun (options : CompactionOptions) (runs : List (List DataFragment))
    (run : List DataFragment) : List (List DataFragment) :=
  if 1 < run.length || (run.length = 1 && run.any options.itself) then runs ++ [run] else runs

/-- The runs of adjacent candidates with the same index coverage. -/
def planRuns (m : Manifest) (options : CompactionOptions) :
    List DataFragment → List (List DataFragment) → List DataFragment → List Nat →
      List (List DataFragment)
  | [], runs, run, _ => closeRun options runs run
  | f :: rest, runs, run, indices =>
    if f.id ∈ options.excluded || !options.candidate f then
      planRuns m options rest (closeRun options runs run) [] indices
    else if run ≠ [] && coveringIndices m f ≠ indices then
      planRuns m options rest (closeRun options runs run) [f] (coveringIndices m f)
    else planRuns m options rest runs (run ++ [f]) (coveringIndices m f)

/-- A run cut where a piece has reached the target and the rest can too. -/
def splitRun (target : Nat) :
    List DataFragment → List DataFragment → Nat → Nat → List (List DataFragment)
  | [], piece, _, _ => if piece = [] then [] else [piece]
  | f :: rest, piece, pieceRows, remaining =>
    let pieceRows := (pieceRows + countedRows f) % 2 ^ 64
    let remaining := (remaining + 2 ^ 64 - countedRows f) % 2 ^ 64
    if target ≤ pieceRows && 0 < remaining && target ≤ remaining then
      (piece ++ [f]) :: splitRun target rest [] 0 remaining
    else splitRun target rest (piece ++ [f]) pieceRows remaining

/-- The files of a fragment that are read. -/
def sourceBytes (m : Manifest) (f : DataFragment) : Nat :=
  ((f.files.filter (fun file => file.fields.any (fun id => id ∈ m.fields.map (·.id)))).map
    (·.fileSizeBytes)).sum

/-- Whole bins, in order, until one would exceed a budget. -/
def withinBudgets (m : Manifest) (options : CompactionOptions) :
    List (List DataFragment) → Nat → Nat → Nat → List (List DataFragment)
  | [], _, _, _ => []
  | bin :: rest, fragments, rows, bytes =>
    let fragments := fragments + bin.length
    let rows := (rows + (bin.map countedRows).sum) % 2 ^ 64
    let bytes := (bytes + (bin.map (sourceBytes m)).sum) % 2 ^ 64
    if options.maxSourceFragments.any (· < fragments) || options.maxSourceRows.any (· < rows) ||
        options.maxSourceBytes.any (· < bytes) then []
    else bin :: withinBudgets m options rest fragments rows bytes

def budgetsValid (options : CompactionOptions) : Except String Unit := do
  let message := fun (name : String) =>
    "Invalid user input: CompactionOptions::" ++ name ++
      " must be greater than 0 (use None for no limit)"
  ensure (options.maxSourceFragments ≠ some 0) (message "max_source_fragments")
  ensure (options.maxSourceRows ≠ some 0) (message "max_source_rows")
  ensure (options.maxSourceBytes ≠ some 0) (message "max_source_bytes")

/-- The planner: the fragments each task rewrites. -/
def planBins (m : Manifest) (options : CompactionOptions) :
    Except String (List (List DataFragment)) := do
  budgetsValid options
  let runs := planRuns m options m.fragments [] [] []
  let bins := runs.flatMap (fun run =>
    splitRun (max options.targetRows 1) run [] 0 ((run.map countedRows).sum % 2 ^ 64))
  return withinBudgets m options bins 0 0 0

/-- The live rows of a fragment with their ids and versions. -/
def liveRowMeta (bases : List BasePath) (f : DataFragment) : Except String (List MovedRow) := do
  let ids ← fragmentRowIds f
  let created ← rowVersions f.rowMeta.created
  let updated ← rowVersions f.rowMeta.lastUpdated
  let deleted ← readDeletionVector files bases f.id f.deletionFile
  return (ids.zipIdx.filter (fun row => row.2 ∉ deleted)).map (fun row =>
    { id := some row.1, created := created.getD row.2 1, updated := updated.getD row.2 1 })

/-- One task: the live rows of its fragments in new files. -/
def rewriteMembers (m : Manifest) (members : List DataFragment) (writer : StagedWriter) :
    Except String (List DataFragment) := do
  let rows ← members.mapM (scanFragment files m.bases)
  let created := writer.fragments rows.flatten.length
  if isStable m then
    let moved ← members.mapM (liveRowMeta files m.bases)
    let stamped ← stampFragments (m.version + 1) created moved.flatten 0
    return stamped.1
  else return created

/-- The planner's tasks, each rewritten. -/
def rewriteTasks (m : Manifest) (options : CompactionOptions) :
    List (List DataFragment) → Nat → Except String (List CompactionRewrite)
  | [], _ => .ok []
  | bin :: rest, task => do
    let created ← rewriteMembers files m bin (options.writer task)
    let others ← rewriteTasks m options rest (task + 1)
    return { oldFragmentIds := bin.map (·.id), newFragments := created } :: others

def planCompaction (m : Manifest) (options : CompactionOptions) : Except String Compaction := do
  let bins ← planBins m options
  let rewrites ← rewriteTasks files m options bins 0
  return { rewrites := rewrites }

/-- The versions a compaction commits: one that reserves the new fragments' ids, and the rewrite.
    None when there is nothing to do. -/
def compactOnce (m : Manifest) (options : CompactionOptions) : Except String (List Manifest) := do
  let c ← planCompaction files m options
  if c.rewrites.all (fun r => r.oldFragmentIds.isEmpty) then return []
  else
    ensure (!(options.deferIndexRemap && isStable m))
      "defer_index_remap is not supported on a dataset with stable row ids"
    checkPlanned m c
    let reserved ← reserveIds m m [] c.created.length
    let rewritten ← compactionManifest (files.rows m.bases) options.deferIndexRemap m reserved c
    return [reserved, rewritten]

/-- A writer's request that appends to a dataset. -/
structure Append where
  request : VersionRequest
  appends : effectiveMode true request.mode = .append

inductive RowRequest where
  | append (request : Append)
  | delete (request : RowDelete)
  | update (request : RowUpdate)
  | mergeInsert (request : MergeInsert)
  | compact (options : CompactionOptions)

/-- The versions an operation commits on the latest one. -/
def committed (m : Manifest) : RowRequest → Except String (List Manifest)
  | .append request => do
    let next ← buildVersion (m.version + 1) (some m) request.request
    return [next]
  | .delete request => do
    let next ← deleteOnce files m request
    return [next]
  | .update request => do
    let next ← updateOnce files m request
    return [next]
  | .mergeInsert request => do
    let next ← mergeInsertOnce files m request
    return [next]
  | .compact options => compactOnce files m options

/-- An operation: the latest version after it, and the versions it committed. -/
def rowStep (m : Manifest) (request : RowRequest) :
    Except String (Manifest × List Manifest) := do
  let versions ← committed files m request
  return (versions.getLastD m, versions)

end Operations

end RowIds

end NanoLance
