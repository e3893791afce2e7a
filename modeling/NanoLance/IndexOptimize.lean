import NanoLance.Compaction

/-!
# Optimizing a Text Index

An index is a list of segments, and optimizing it replaces the last few of
them by one new segment that also takes in the fragments no segment covers.
The two text kinds are merged rather than rebuilt. Of the replaced segments
the rows in present fragments are kept, and of the dataset only the uncovered
fragments are scanned. The new segment then claims to cover both.

An NGRAM segment holds postings, a set of token and row pairs. An INVERTED one
holds documents in the order they were added, and nothing removes a row that
is added twice. The rows of the replaced INVERTED segments are read from the
dataset again, deleted or not, and tokenized anew.

Whether the two parts leave a gap or overlap depends on how the dataset came to
be what it is, so the module ends with the requests that can be made of a
dataset and what each of them commits. The requests are made one after the
other, on the latest version. Row addresses are the row ids: the datasets
here have no stable row ids. A fragment has at least one data file and no
overlays.

The kinds of index that are rebuilt over every fragment they cover are left
out, and so are vector indices.

## Main definitions

* `scanFragments`, `takeRows`: Reading a column by fragment and by address.
-/

namespace NanoLance

open Lib

/-- What the files of a dataset hold, and the code that is not embedded here. Data files are written
    once, so `cells` gives what a path holds of a field at an offset, `none` for a null. A deletion
    file reads back the rows it was written with. `grams` is the trigram tokenizer, `words` the
    analyzer of an INVERTED index under its parameters, and `elements` the length of a list of
    texts. The details of an INVERTED index tell whether its documents are list elements. -/
structure TableFormat (V : Type) where
  cells : String → Int → Nat → Option V
  vectors : DeletionVectors
  writeDeletions : Nat → Nat → List Nat → DeletionFile
  vectors_write : ∀ fragment version rows,
    vectors fragment (writeDeletions fragment version rows) = .ok rows
  grams : V → List Nat
  words : Nat → V → List Nat
  elements : V → Nat
  invertedDetails : Nat → Bool → IndexDetails
  listElement : IndexDetails → Bool
  listElement_details : ∀ params element, listElement (invertedDetails params element) = element
  external : Nat → Except String (List ReuseVersion)

/-- The index kinds that are merged. -/
inductive TextKind where
  | ngram
  | inverted
  deriving DecidableEq, Repr

/-- The files of a segment: token and row pairs, or the analyzer's parameters and the row of each
    document. -/
inductive SegmentFiles where
  | ngram (postings : List (Nat × Nat))
  | inverted (params : Nat) (documents : List Nat)
  deriving DecidableEq, Repr

/-- The latest version of a dataset, and the files of its segments by uuid. -/
structure Dataset where
  manifest : Manifest
  segments : Nat → SegmentFiles

def textKind (index : IndexMetadata) : Option TextKind :=
  if endsWith index.detailsTypeUrl "NGramIndexDetails" then some .ngram
  else if endsWith index.detailsTypeUrl "InvertedIndexDetails" then some .inverted
  else none

def textKindUrl : TextKind → String
  | .ngram => "/lance.table.NGramIndexDetails"
  | .inverted => "/lance.table.InvertedIndexDetails"

/-- A uuid no index has. -/
def newUuid (indices : List IndexMetadata) : Nat :=
  indices.foldl (fun next i => max next (i.uuid + 1)) 0

section Reading

variable {V : Type} (format : TableFormat V)

/-- The value of a field in a row: that of the first file that lists the field,
    null when none does. -/
def fieldCell (f : DataFragment) (field : Int) (offset : Nat) : Option V :=
  (f.files.find? (fun file => field ∈ file.fields)).bind
    (fun file => format.cells file.path field offset)

/-- The tokens a row is posted under. Token 0 holds the null rows. -/
def gramTokens : Option V → List Nat
  | none => [0]
  | some v => format.grams v

/-- The documents a row makes: one if its text has a token, or one for each element of its list. -/
def documentCount (params : Nat) (element : Bool) : Option V → Nat
  | none => 0
  | some v =>
    if element then format.elements v
    else if (format.words params v).isEmpty then 0
    else 1

/-- The live rows of a fragment with their values. -/
def scanFragment (field : Int) (f : DataFragment) : Except String (List (Nat × Option V)) := do
  let deleted ← deletedRows format.vectors f
  return ((List.range f.physicalRows).filter (fun offset => offset ∉ deleted)).map
    (fun offset => (rowAddress f.id offset, fieldCell format f field offset))

def scanFragments (field : Int) : List DataFragment → Except String (List (Nat × Option V))
  | [] => .ok []
  | f :: rest => do
    let rows ← scanFragment format field f
    let others ← scanFragments field rest
    return rows ++ others

/-- The row at an address, deleted or not. -/
def takeRow (m : Manifest) (field : Int) (address : Nat) : Except String (Nat × Option V) :=
  let missing := s!"row address {address} (fragment {fragmentOf address}, row " ++
    s!"{offsetOf address}) is not in the dataset"
  match m.fragment? (fragmentOf address) with
  | none => .error missing
  | some f =>
    if offsetOf address < f.physicalRows then
      .ok (address, fieldCell format f field (offsetOf address))
    else .error missing

def takeRows (m : Manifest) (field : Int) : List Nat → Except String (List (Nat × Option V))
  | [] => .ok []
  | address :: rest => do
    let row ← takeRow format m field address
    let others ← takeRows m field rest
    return row :: others

/-- The postings of an NGRAM segment: those it starts from and those of the
    scanned rows, each once. -/
def ngramPostings (base : List (Nat × Nat)) (scanned : List (Nat × Option V)) : List (Nat × Nat) :=
  (base ++ scanned.flatMap (fun row => (gramTokens format row.2).map (fun t => (t, row.1)))).dedup

/-- The documents of an INVERTED segment, the taken rows' before the scanned ones'. -/
def invertedDocuments (params : Nat) (element : Bool) (rows : List (Nat × Option V)) : List Nat :=
  rows.flatMap (fun row => List.replicate (documentCount format params element row.2) row.1)

def invertedFiles (params : Nat) (element : Bool) (rows : List (Nat × Option V)) :
    Except String SegmentFiles := do
  let documents := invertedDocuments format params element rows
  ensure (documents.length ≤ 2 ^ 32 - 1) "more than 2^32 documents"
  return .inverted params documents

end Reading

/-- The postings of a replaced segment. -/
def loadNgramPostings : SegmentFiles → Except String (List (Nat × Nat))
  | .ngram postings => .ok postings
  | .inverted _ _ =>
    .error "ngram index: ngram_postings.lance has no tokens and posting_list columns"

/-- The parameters and the rows of a replaced segment. -/
def loadInverted : SegmentFiles → Except String (Nat × List Nat)
  | .inverted params documents => .ok (params, documents)
  | .ngram _ => .error "INVERTED index metadata lists no partitions"

/-- The replaced segments' postings of the live fragments. -/
def basePostings (segments : Nat → SegmentFiles) (live : List Nat) :
    List IndexMetadata → Except String (List (Nat × Nat))
  | [] => .ok []
  | s :: rest => do
    let part ← loadNgramPostings (segments s.uuid)
    let others ← basePostings segments live rest
    return part.filter (fun e => fragmentOf e.2 ∈ live) ++ others

/-- The replaced segments' rows of the live fragments. -/
def baseRows (segments : Nat → SegmentFiles) (live : List Nat) :
    List IndexMetadata → Except String (List Nat)
  | [] => .ok []
  | s :: rest => do
    let part ← loadInverted (segments s.uuid)
    let others ← baseRows segments live rest
    return part.2.filter (fun row => fragmentOf row ∈ live) ++ others

/-- The indices to optimize, how many segments to merge, and per index the
    fragments it may take in. -/
structure OptimizeOptions where
  indexNames : List String := []
  numIndicesToMerge : Option Nat := none
  onlyFragments : List (String × List Nat) := []
  deriving DecidableEq, Repr

/-- What optimizing one index does: the segments it replaces, the fragments it scans, the fragments
    the new segment covers, and the segments whose kind and parameters it takes. -/
structure OptimizePlan where
  kind : TextKind
  field : Int
  replaced : List IndexMetadata
  unindexed : List Nat
  target : List Nat
  last : IndexMetadata
  reference : IndexMetadata
  deriving DecidableEq, Repr

/-- A field's dotted path from the root down, `none` when a parent is gone. -/
def columnPath (fields : List Field) : Nat → Int → String → Option String
  | 0, _, _ => none
  | fuel + 1, id, out =>
    match fields.reverse.find? (fun f => f.id = id) with
    | none => none
    | some f =>
      let path := if out = "" then f.name else f.name ++ "." ++ out
      if f.parentId < 0 then some path else columnPath fields fuel f.parentId path

/-- The field a dotted path names. -/
def columnField (fields : List Field) (column : String) : Option Field :=
  fields.find? (fun f => columnPath fields (fields.length + 1) f.id "" = some column)

def checkSegments (last : IndexMetadata) : List IndexMetadata → Except String Unit
  | [] => .ok ()
  | s :: rest => do
    ensure (textKind s = textKind last && s.fields = last.fields)
      s!"index '{last.name}' has segments of different kinds"
    ensure s.hasFragmentBitmap
      s!"index '{last.name}' has a segment without fragment coverage"
    checkSegments last rest

/-- The plan over segments that passed the checks, `none` when there is nothing to do. -/
def planSegments (reuse : Option (List RemapStep)) (m : Manifest) (options : OptimizeOptions)
    (segments : List IndexMetadata) (last : IndexMetadata) (kind : TextKind) (field : Int) :
    Option OptimizePlan :=
  let live := ascending (m.fragments.map (·.id))
  let covered := segments.flatMap (fun s => reuseCoverage reuse s.fragmentIds)
  let only := options.onlyFragments.lookup last.name
  let unindexed := live.filter (fun id => id ∉ covered && only.all (fun ids => id ∈ ids))
  let merge := min (options.numIndicesToMerge.getD 1) segments.length
  let replaced := segments.drop (segments.length - merge)
  if only.isSome && unindexed.isEmpty then none
  else if unindexed.isEmpty && replaced.length ≤ 1 then none
  else
    some {
      kind := kind
      field := field
      replaced := replaced
      unindexed := unindexed
      target := ascending (unindexed ++
        (replaced.flatMap (fun s => reuseCoverage reuse s.fragmentIds)).filter (fun id => id ∈ live))
      last := last
      reference := replaced.getLast?.getD last }

/-- The plan for one index over its segments. An index of a kind outside this module is refused as
    one of no known kind is. -/
def optimizePlan (external : Nat → Except String (List ReuseVersion)) (m : Manifest)
    (options : OptimizeOptions) (segments : List IndexMetadata) :
    Except String (Option OptimizePlan) :=
  match segments.getLast? with
  | none => .ok none
  | some last =>
    match textKind last with
    | none =>
      .error (s!"index '{last.name}' ({last.detailsTypeUrl}) is of a kind nanolance cannot build, " ++
        "so it cannot be optimized")
    | some kind => do
      checkSegments last segments
      match last.fields with
      | [field] =>
        ensure (columnPath m.fields (m.fields.length + 1) field "").isSome
          s!"index '{last.name}': its field is no longer in the schema"
        let reuse ← loadReuse external m
        return planSegments reuse m options segments last kind field
      | fields =>
        .error (s!"index '{last.name}' covers {fields.length} fields; nanolance optimizes " ++
          "single-field indexes")

/-- A new segment: the version it was built on, its entry and files, and the
    segments it replaces. -/
structure BuiltSegment where
  before : Manifest
  entry : IndexMetadata
  files : SegmentFiles
  replaced : List IndexMetadata
  deriving DecidableEq, Repr

/-- The coverage of a new segment: 32-bit ids, ascending. -/
def bitmapOf (ids : List Nat) : List Nat :=
  (ids.map (· % 2 ^ 32)).insertionSort (· ≤ ·)

/-- The segments of one index, in the manifest's order. -/
def segmentsNamed (m : Manifest) (name : String) : List IndexMetadata :=
  m.indices.filter (fun i => !isSystemIndex i && i.name = name)

/-- The indices by name, in the order of their first segments. -/
def indexNames (m : Manifest) : List String :=
  (((m.indices.filter (fun i => !isSystemIndex i)).map (·.name)).reverse.dedup).reverse

section Building

variable {V : Type} (format : TableFormat V)

/-- The files of the segment a plan builds. -/
def planFiles (s : Dataset) (plan : OptimizePlan) : Except String SegmentFiles :=
  let live := s.manifest.fragments.map (·.id)
  let uncovered := s.manifest.fragments.filter (fun f => f.id ∈ plan.unindexed)
  match plan.kind with
  | .ngram => do
    let base ← inContext s!"index '{plan.last.name}': "
      (basePostings s.segments live plan.replaced)
    let scanned ← scanFragments format plan.field uncovered
    return .ngram (ngramPostings format base scanned)
  | .inverted => inContext s!"index '{plan.last.name}': " do
    let rows ← baseRows s.segments live plan.replaced
    let reference ← loadInverted (s.segments plan.reference.uuid)
    let taken ← takeRows format s.manifest plan.field (ascending rows)
    let scanned ← scanFragments format plan.field uncovered
    invertedFiles format reference.1 (format.listElement plan.last.details) (taken ++ scanned)

/-- The details a segment's entry is written with. -/
def segmentDetails (files : SegmentFiles) (element : Bool) : IndexDetails :=
  match files with
  | .ngram _ => .bytes []
  | .inverted params _ => format.invertedDetails params element

/-- The entry of the segment a plan builds. -/
def planEntry (s : Dataset) (plan : OptimizePlan) (files : SegmentFiles) (uuid : Nat) :
    IndexMetadata :=
  { uuid := uuid
    name := plan.last.name
    fields := [plan.field]
    datasetVersion := s.manifest.version
    fragmentIds := bitmapOf plan.target
    detailsTypeUrl := textKindUrl plan.kind
    details := segmentDetails format files (format.listElement plan.last.details)
    indexVersion := plan.reference.indexVersion }

def buildPlanned (s : Dataset) (uuid : Nat) :
    Option OptimizePlan → Except String (Option BuiltSegment)
  | none => .ok none
  | some plan => do
    let files ← planFiles format s plan
    return some {
      before := s.manifest
      entry := planEntry format s plan files uuid
      files := files
      replaced := plan.replaced }

/-- One index's new segment, `none` when there is nothing to do. -/
def optimizeOne (s : Dataset) (options : OptimizeOptions) (name : String) (uuid : Nat) :
    Except String (Option BuiltSegment) := do
  let plan ← optimizePlan format.external s.manifest options (segmentsNamed s.manifest name)
  buildPlanned format s uuid plan

/-- The new segments of some indices, their uuids numbered from `uuid` on. -/
def optimizeEach (s : Dataset) (options : OptimizeOptions) :
    List String → Nat → Except String (List BuiltSegment)
  | [], _ => .ok []
  | name :: rest, uuid => do
    let one ← optimizeOne format s options name uuid
    let others ← optimizeEach s options rest (uuid + 1)
    return one.toList ++ others

/-- The names an optimize goes through: all of them, or those asked for, which must exist. -/
def chosenNames (m : Manifest) (options : OptimizeOptions) : Except String (List String) :=
  if options.indexNames.isEmpty then .ok (indexNames m)
  else
    match options.indexNames.find? (fun n => n ∉ indexNames m) with
    | some n => .error s!"Index not found: {n}"
    | none => .ok options.indexNames

/-- The dataset after new segments are committed in place of others. -/
def commitSegments (s : Dataset) (kept : List IndexMetadata) (built : List BuiltSegment) : Dataset :=
  { manifest := { s.manifest with
      version := s.manifest.version + 1
      indices := kept ++ built.map (·.entry) }
    segments := fun uuid =>
      match built.find? (fun b => b.entry.uuid = uuid) with
      | some b => b.files
      | none => s.segments uuid }

/-- Every chosen index is optimized on one version, and all the new segments are committed in the
    next. -/
def optimizeIndices (s : Dataset) (options : OptimizeOptions) :
    Except String (Dataset × List BuiltSegment) := do
  let names ← chosenNames s.manifest options
  let built ← optimizeEach format s options names (newUuid s.manifest.indices)
  if built.isEmpty then return (s, [])
  else
    let replaced := built.flatMap (·.replaced)
    return (commitSegments s (s.manifest.indices.filter (fun i => i ∉ replaced)) built, built)

/-- A new index: the column it is on, its name if it has one of its own, and the kind with its
    parameters. -/
structure IndexRequest where
  column : String
  name : String := ""
  kind : TextKind
  params : Nat := 0
  element : Bool := false
  replace : Bool := true
  deriving DecidableEq, Repr

/-- The name of a new index, by default the column's. -/
def IndexRequest.indexName (request : IndexRequest) : String :=
  if request.name ≠ "" then request.name
  else if request.kind = .inverted && request.element then request.column ++ "_list_element_idx"
  else request.column ++ "_idx"

def IndexRequest.nameTaken (request : IndexRequest) : String :=
  match request.kind with
  | .ngram => s!"index '{request.indexName}' already exists"
  | .inverted => s!"Index name '{request.indexName}' already exists, please specify a different " ++
      "name or use replace=True"

/-- The files of a new index, over every fragment. -/
def indexFiles (m : Manifest) (request : IndexRequest) (field : Int) :
    Except String SegmentFiles := do
  let scanned ← scanFragments format field m.fragments
  match request.kind with
  | .ngram => return .ngram (ngramPostings format [] scanned)
  | .inverted => invertedFiles format request.params request.element scanned

def indexEntry (m : Manifest) (request : IndexRequest) (field : Int) (files : SegmentFiles) :
    IndexMetadata :=
  { uuid := newUuid m.indices
    name := request.indexName
    fields := [field]
    datasetVersion := m.version
    fragmentIds := bitmapOf (m.fragments.map (·.id))
    detailsTypeUrl := textKindUrl request.kind
    details := segmentDetails format files request.element }

/-- A new index in place of every segment of its name. -/
def createIndex (s : Dataset) (request : IndexRequest) : Except String Dataset :=
  match columnField s.manifest.fields request.column with
  | none => .error s!"column '{request.column}' not found"
  | some field => do
    let m := s.manifest
    ensure (request.replace || !m.indices.any (fun i => i.name = request.indexName))
      request.nameTaken
    let files ← indexFiles format m request field.id
    return commitSegments s (m.indices.filter (fun i => i.name ≠ request.indexName))
      [{ before := m, entry := indexEntry format m request field.id files, files := files,
         replaced := [] }]

/-- A fragment with more of its rows deleted, gone when none is left. -/
def deleteFrom (version : Nat) (rows : List Nat) (f : DataFragment) :
    Except String (List DataFragment) :=
  if rows.isEmpty then .ok [f]
  else do
    let old ← deletedRows format.vectors f
    let merged := ascending (old ++ rows)
    if f.physicalRows ≤ merged.length then return []
    else return [{ f with deletionFile := some (format.writeDeletions f.id version merged) }]

def applyDeletions (version : Nat) (deleted : Nat → List Nat) :
    List DataFragment → Except String (List DataFragment)
  | [] => .ok []
  | f :: rest => do
    let kept ← deleteFrom format version (deleted f.id) f
    let others ← applyDeletions version deleted rest
    return kept ++ others

/-- A delete of some rows of each fragment. -/
def deleteRows (m : Manifest) (deleted : Nat → List Nat) : Except String Manifest := do
  let kept ← applyDeletions format m.version deleted m.fragments
  let flags := fun (word : BitVec 64) =>
    if kept.any (fun f => f.deletionFile.isSome) then setFlag word flagDeletionFiles true else word
  return { m with
    version := m.version + 1
    fragments := sortFragments kept
    indices := retainRelevantIndices m.indices m.fields kept
    readerFeatureFlags := flags m.readerFeatureFlags
    writerFeatureFlags := flags m.writerFeatureFlags }

end Building

/-- An operation made from the latest version and committed after it. -/
def commitOperation (m : Manifest) (op : Operation) : Except String Manifest := do
  let next ← applyOperation (some m) op false (m.version + 1)
  return { next with version := m.version + 1 }

/-- New data files written as one fragment. -/
structure NewRows where
  files : List DataFile
  rows : Nat
  deriving DecidableEq, Repr

/-- A fragment that was written and has no id yet. -/
def newFragment (r : NewRows) : DataFragment :=
  { id := 0, files := r.files, physicalRows := r.rows }

def appendOperation (added : List NewRows) : Operation :=
  { kind := .append, fragments := added.map newFragment }

/-- A fragment some columns of which were written anew: the new file answers for them, and they are
    tombstones in the files that held them. -/
def writeColumns (file : DataFile) (f : DataFragment) : DataFragment :=
  { f with files := f.files.map (fun old =>
      { old with fields := old.fields.map (fun id => if id ∈ file.fields then tombstone else id) }) ++
        [file] }

def writeEach (m : Manifest) : List (Nat × DataFile) → Except String (List DataFragment)
  | [] => .ok []
  | (id, file) :: rest =>
    match m.fragment? id with
    | none => .error s!"Fragment {id} not found"
    | some f => do
      let others ← writeEach m rest
      return writeColumns file f :: others

/-- An in-place update: the fields written are the fields modified. -/
def updateColumns (m : Manifest) (writes : List (Nat × DataFile)) : Except String Manifest := do
  let updated ← writeEach m writes
  commitOperation m
    { kind := .update
      updatedFragments := updated
      fieldsModified := ((writes.flatMap (·.2.fields)).filter (fun id => 0 ≤ id)).map Int.toNat
      rewriteColumns := true }

/-- What can be asked of a dataset. -/
inductive Request where
  | append (added : List NewRows)
  | delete (deleted : Nat → List Nat)
  | update (writes : List (Nat × DataFile))
  | replaceData (replacements : List (Nat × DataFile))
  | compact (defer : Bool) (c : Compaction)
  | createIndex (request : IndexRequest)
  | optimize (options : OptimizeOptions)

/-- A request committed: the dataset after it, and the segments an optimize built. -/
def commitRequest {V : Type} (format : TableFormat V) (s : Dataset) :
    Request → Except String (Dataset × List BuiltSegment)
  | .append added => do
    let m ← commitOperation s.manifest (appendOperation added)
    return ({ s with manifest := m }, [])
  | .delete deleted => do
    let m ← deleteRows format s.manifest deleted
    return ({ s with manifest := m }, [])
  | .update writes => do
    let m ← updateColumns s.manifest writes
    return ({ s with manifest := m }, [])
  | .replaceData replacements => do
    let m ← commitOperation s.manifest { kind := .dataReplacement, replacements := replacements }
    return ({ s with manifest := m }, [])
  | .compact defer c => do
    let m ← compactCommit format.vectors defer s.manifest s.manifest [] c
    return ({ s with manifest := m }, [])
  | .createIndex request => do
    let next ← createIndex format s request
    return (next, [])
  | .optimize options => optimizeIndices format s options

end NanoLance
