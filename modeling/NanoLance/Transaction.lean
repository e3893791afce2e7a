import Mathlib.Data.List.Dedup
import Mathlib.Data.List.Pairwise
import NanoLance.IndexMaintenance
import NanoLance.Operation
import NanoLance.Lib.Outcome

/-!
# Applying a Transaction

An operation checked and applied to a version's manifest. Every operation
starts from a copy of the base manifest, edits its fragments, schema or
indices by the rules of its kind, and ends with the same finish: fragments in
id order, files of nothing but tombstones gone, the high-water mark and the
feature flags brought up to date.

A Delete and an Update carry whole fragments and put them in place of the
fragments of the same id. `rebaseOperation` applies an operation made from one
version to a later one, so those fragments come from the older version.

Field ids are 32-bit and a few comparisons go through 64-bit sets; `toU64` and
`toI32` are those conversions.

## Main definitions

* `pruneUpdatedFields`, `pruneMergeRewritten`, `recalculateBitmap`: Coverage
  after an update, a merge and a rewrite.
* `dataReplacement`: The effect of a DataReplacement.

## Theorems

* `mem_ascending`, `ascending_pairwise`: The values of a set, in order.
* `assignIds_zero`, `numberFrom_ids`: Fragments without an id are numbered one
  after the other.
-/

namespace NanoLance

open List Lib

/-- The field id of a column replaced by a newer file. -/
def tombstone : Int := -2

/-- `static_cast<std::uint64_t>` of a field id. -/
def toU64 (id : Int) : Nat := (id % 2 ^ 64).toNat

/-- `static_cast<std::int32_t>` of a 64-bit value. -/
def toI32 (n : Nat) : Int := (BitVec.ofNat 32 n).toInt

def deletionPath (f : DataFragment) (d : DeletionFile) : String :=
  "_deletions/" ++ toString f.id ++ "-" ++ toString d.readVersion ++ "-" ++ toString d.id ++
    (if d.fileType = 1 then ".bin" else ".arrow")

def filesHaveFields (fragments : List DataFragment) : Except String Unit :=
  match (fragments.flatMap (·.files)).find? (fun file => file.fields.isEmpty) with
  | none => .ok ()
  | some file => .error s!"Invalid user input: Datafile {file.path} does not contain any fields"

def overwriteFragmentsValid : List DataFragment → Except String Unit
  | [] => .ok ()
  | f :: rest =>
    match f.deletionFile with
    | none => overwriteFragmentsValid rest
    | some d =>
      let path := deletionPath f d
      .error (s!"Invalid user input: Overwrite fragments must be newly written, but fragment " ++
        s!"{f.id} carries deletion file {path}. Use Delete to commit deletions against existing " ++
        "fragments, or Merge to change their schema.")

/-- A field's path in `fields` by ids: the names from the top down. The parents are followed at most
    once per field. -/
def fieldPath (fields : List Field) : Nat → Int → List String → List String
  | 0, _, out => out
  | fuel + 1, at', out =>
    if at' = -1 then out
    else
      match fields.find? (fun f => f.id = at') with
      | none => out
      | some f => fieldPath fields fuel f.parentId (f.name :: out)

def fieldPathText (fields : List Field) (id : Int) : String :=
  ".".intercalate (fieldPath fields fields.length id [])

def idList (ids : List Nat) : String :=
  "[" ++ ", ".intercalate (ids.map toString) ++ "]"

/-- The last of the fragments with an id, as a map filled in order holds it. -/
def lastWithId (fragments : List DataFragment) (id : Nat) : Option DataFragment :=
  fragments.reverse.find? (fun f => f.id = id)

/-- A fragment a merge lists with another row count. -/
def rowCountChanged (before after : List DataFragment) : Option (DataFragment × DataFragment) :=
  before.findSome? (fun f =>
    match lastWithId after f.id with
    | none => none
    | some g => if g.physicalRows ≠ f.physicalRows then some (f, g) else none)

/-- The check on one field of a merge's schema: a new field takes an id above every live one, and an
    old one keeps its path. -/
def mergeFieldValid (before after : List Field) (maxId : Int) (field : Field) :
    Except String Unit :=
  match before.find? (fun f => f.id = field.id) with
  | none =>
    ensure (maxId < field.id)
      ("Invalid user input: Merge operation assigns id " ++ toString field.id ++
        " to new field \"" ++ fieldPathText after field.id ++ "\", but ids up to " ++
        toString maxId ++ " are already used by current or dropped fields. New fields must use " ++
        "ids of at least " ++ toString (maxId + 1) ++ ".")
  | some _ =>
    ensure (fieldPathText before field.id = fieldPathText after field.id)
      ("Invalid user input: Merge operation remaps field id " ++ toString field.id ++ " from \"" ++
        fieldPathText before field.id ++ "\" to \"" ++ fieldPathText after field.id ++
        "\". Merge must preserve the dataset's field ids: derive the new schema from the " ++
        "dataset's current schema instead of renumbering fields.")

def mergeFieldsValid (before after : List Field) (maxId : Int) : List Field → Except String Unit
  | [] => .ok ()
  | field :: rest => do
    mergeFieldValid before after maxId field
    mergeFieldsValid before after maxId rest

def mergeValid (m : Manifest) (op : Operation) : Except String Unit := do
  ensure (m.fragments.length ≤ op.fragments.length)
    (s!"Invalid user input: Merge operation reduced fragment count from {m.fragments.length} to " ++
      s!"{op.fragments.length}. Merge operations should only add columns, not reduce fragments.")
  match rowCountChanged m.fragments op.fragments with
  | some (f, g) =>
    .error (s!"Invalid user input: Merge operation changed row count for fragment {f.id}. " ++
      s!"Original: Some({f.physicalRows}), New: Some({g.physicalRows}). Merge operations should " ++
      "preserve fragment row counts and only add new columns.")
  | none =>
    let missing := (m.fragments.map (·.id)).filter (fun id => (lastWithId op.fragments id).isNone)
    ensure missing.isEmpty
      ("Invalid user input: Merge operation is missing original fragments: " ++ idList missing ++
        ". Merge operations should preserve all original fragments and only add new columns. " ++
        "Expected fragments: " ++ idList (m.fragments.map (·.id)) ++ ", but got: " ++
        idList (op.fragments.map (·.id)))
    mergeFieldsValid m.fields op.schema (maxFieldId m.fields) op.schema

/-- The index is on one of the fields. -/
def touches (index : IndexMetadata) (fieldsModified : List Nat) : Bool :=
  index.fields.any (fun id => 0 ≤ id && id.toNat ∈ fieldsModified)

/-- An update of some fields in some fragments: those fragments leave the coverage of the indices on
    those fields. -/
def pruneIndex (fragments fieldsModified : List Nat) (index : IndexMetadata) : IndexMetadata :=
  if touches index fieldsModified && index.hasFragmentBitmap then
    let ids := index.fragmentIds.filter (fun id => id ∉ fragments)
    { index with
      fragmentIds := ids
      fragmentBitmapChanged := index.fragmentBitmapChanged || ids.length ≠ index.fragmentIds.length }
  else index

def pruneUpdatedFields (indices : List IndexMetadata) (fragments fieldsModified : List Nat) :
    List IndexMetadata :=
  if fieldsModified.isEmpty || fragments.isEmpty then indices
  else indices.map (pruneIndex fragments fieldsModified)

/-- The file of a fragment that answers for a field: the last one listing it. -/
def fieldFile (f : DataFragment) (id : Int) : Option String :=
  (f.files.reverse.find? (fun file => id ∈ file.fields)).map (·.path)

/-- The fields whose data file is another one after than before. -/
def rewrittenFields (before after : DataFragment) : List Nat :=
  ((before.files.flatMap (·.fields)).filter (fun id =>
    0 ≤ id && (fieldFile after id).isSome && fieldFile after id ≠ fieldFile before id)).map Int.toNat

/-- A merge that rewrote a field's data in place: the fragment leaves the coverage of the indices on
    it. -/
def pruneMergeRewritten (before : List DataFragment) :
    List DataFragment → List IndexMetadata → List IndexMetadata
  | [], indices => indices
  | f :: rest, indices =>
    match lastWithId before f.id with
    | none => pruneMergeRewritten before rest indices
    | some old =>
      pruneMergeRewritten before rest (pruneUpdatedFields indices [f.id] (rewrittenFields old f))

/-- The values of a `std::set`, ascending. -/
def ascending (ids : List Nat) : List Nat :=
  (ids.insertionSort (· ≤ ·)).dedup

/-- Coverage moved from a rewrite's old fragments to its new ones. Every group is covered whole or
    not at all. -/
def recalculateBitmap (old : List Nat) : List RewriteGroup → List Nat → Except String (List Nat)
  | [], out => .ok (ascending out)
  | group :: rest, out =>
    let covered := group.oldFragments.filter (fun f => f.id % 2 ^ 32 ∈ old)
    if covered.isEmpty then recalculateBitmap old rest out
    else if covered.length ≠ group.oldFragments.length then
      .error ("Invalid user input: The compaction plan included a rewrite group that was a split " ++
        "of indexed and non-indexed data")
    else
      recalculateBitmap old rest
        (out.filter (fun id => id ∉ group.oldFragments.map (fun f => f.id % 2 ^ 32)) ++
          group.newFragments.map (fun f => f.id % 2 ^ 32))

/-- The first fragment id not used: above the high-water mark, the fragments and every index's
    coverage. -/
def nextFragmentId (m : Manifest) : Nat :=
  let next := match m.maxFragmentId with | some id => id + 1 | none => 0
  max (m.fragments.foldl (fun next f => max next (f.id + 1)) next)
    (firstFragmentIdAfterIndices m.indices)

/-- A fragment without an id (0) takes the next one. -/
def assignIds : List DataFragment → Nat → List DataFragment × Nat
  | [], next => ([], next)
  | f :: rest, next =>
    if f.id = 0 then
      let others := assignIds rest (next + 1)
      ({ f with id := next } :: others.1, others.2)
    else
      let others := assignIds rest next
      (f :: others.1, others.2)

/-- The storage version a new dataset's data files imply. -/
def storageVersionOf (fragments : List DataFragment) : String :=
  match fragments.flatMap (·.files) with
  | [] => "2.2"
  | file :: _ =>
    if file.fileMajorVersion = 0 && file.fileMinorVersion = 0 then "0.1"
    else if file.fileMajorVersion = 0 && file.fileMinorVersion = 3 then "2.0"
    else s!"{file.fileMajorVersion}.{file.fileMinorVersion}"

/-- A field's children join the replaced fields, then theirs. The fuel is the number of ids the list
    can reach. -/
def closeChildren (fields : List Field) : Nat → Nat → List Nat → List Nat
  | 0, _, replaced => replaced
  | fuel + 1, k, replaced =>
    match replaced[k]? with
    | none => replaced
    | some id =>
      closeChildren fields fuel (k + 1)
        (fields.foldl (fun acc f =>
          if 0 ≤ f.parentId && f.parentId.toNat = id && toU64 f.id ∉ acc then acc ++ [toU64 f.id]
          else acc) replaced)

/-- The fields a DataReplacement replaces: those of its first file, with the fields below them. -/
def replacedFields (fields : List Field) (op : Operation) : List Nat :=
  match op.replacements with
  | [] => []
  | (_, file) :: _ =>
    let own := (file.fields.filter (fun id => 0 ≤ id)).map Int.toNat
    closeChildren fields (own.length + fields.length) 0 own

/-- One fragment given a replacement file: in place of the file of the same fields and version,
    after the others when no file holds the fields, or over the tombstones of the fields it
    replaces. -/
def replaceFile (fields : List Field) (replaced : List Int) (file : DataFile)
    (fragment : DataFragment) : DataFragment :=
  let same := fun (f : DataFile) => f.fields = file.fields &&
    f.fileMajorVersion = file.fileMajorVersion && f.fileMinorVersion = file.fileMinorVersion
  let files := fragment.files.map (fun f =>
    if same f then { f with path := file.path, fileSizeBytes := file.fileSizeBytes } else f)
  let covered := files.flatMap (·.fields)
  if replaced.all (fun id => id ∉ covered) then { fragment with files := files ++ [file] }
  else if !fragment.files.any same && replaced.all (fun id => id ∈ covered) then
    let buried := files.map (fun f =>
      { f with fields := f.fields.map (fun id => if id ∈ replaced then tombstone else id) })
    let live := buried.filter (fun f => f.fields.any (fun id => fields.any (fun x => x.id = id)))
    { fragment with files := live ++ [file] }
  else { fragment with files := files }

/-- The replacements in order, each over the fragments the last one left. -/
def replaceEach (fields : List Field) (replaced : List Int) :
    List (Nat × DataFile) → List DataFragment → Except String (List DataFragment)
  | [], fragments => .ok fragments
  | (id, file) :: rest, fragments =>
    match fragments.find? (fun f => f.id = id) with
    | none =>
      .error "Invalid user input: Fragment being replaced not found in existing fragments"
    | some before =>
      if replaceFile fields replaced file before = before then
        .error ("Invalid user input: Expected to modify the fragment but no changes were made. " ++
          "This means the new data files does not align with any exiting datafiles. Please check " ++
          "if the schema of the new data files matches the schema of the old data files including " ++
          "the file major and minor versions")
      else
        replaceEach fields replaced rest
          (modifyFirst (fun f => f.id = id) (replaceFile fields replaced file) fragments)

/-- The text that lists the fields of the replacement files. -/
def replacementInfo (replacements : List (Nat × DataFile)) : String :=
  "".intercalate (replacements.zipIdx.map (fun r =>
    "File " ++ toString r.2 ++ ": [" ++ ", ".intercalate (r.1.2.fields.map toString) ++ "]\n"))

def dataReplacement (next : Manifest) (op : Operation) : Except String Manifest := do
  ensure (op.replacements.all (fun r => op.replacements.all (fun q => r.2.fields = q.2.fields)))
    ("Invalid user input: All new data files must have the same fields, but found different " ++
      "fields:\n" ++ replacementInfo op.replacements)
  let replaced := replacedFields next.fields op
  let fragments ← replaceEach next.fields (replaced.map toI32) op.replacements next.fragments
  return { next with
    fragments := fragments
    indices := pruneUpdatedFields next.indices (op.replacements.map Prod.fst) replaced }

/-- The row ids of a fragment with the first row id after them: a fragment without row ids takes the
    next ones. -/
def fragmentRowIds (f : DataFragment) (nextRowId : Nat) :
    Except String (Option RowSequence × Nat) :=
  match f.rowMeta.rowIds with
  | none =>
    if f.rowMeta.external then .ok (none, nextRowId)
    else .ok (some (.values (range' nextRowId f.physicalRows)), nextRowId + f.physicalRows)
  | some (.malformed e) => .error e
  | some (.values rows) =>
    .ok (some (.values rows), rows.foldl (fun next id => max next (id + 1)) nextRowId)

/-- Stable row ids: fragments are given the row ids they lack, and one without version metadata is
    created and last updated at `version`. -/
def stampMissingRowMeta (version : Nat) :
    List DataFragment → Nat → Except String (List DataFragment × Nat)
  | [], nextRowId => .ok ([], nextRowId)
  | f :: rest, nextRowId => do
    let (ids, next) ← fragmentRowIds f nextRowId
    let fill := fun (old : Option RowSequence) =>
      if f.physicalRows ≠ 0 && !f.rowMeta.external && old.isNone then
        some (.values (replicate f.physicalRows version))
      else old
    let (others, last) ← stampMissingRowMeta version rest next
    return ({ f with rowMeta := { f.rowMeta with
      rowIds := ids, created := fill f.rowMeta.created,
      lastUpdated := fill f.rowMeta.lastUpdated } } :: others, last)

/-- The version each row of a fragment was last updated at, 1 where nothing says so. -/
def lastUpdatedVersions (f : DataFragment) : Except String (List Nat) :=
  match f.rowMeta.lastUpdated with
  | none => .ok (replicate f.physicalRows 1)
  | some (.malformed e) => .error e
  | some (.values rows) =>
    .ok (rows.take f.physicalRows ++ replicate (f.physicalRows - rows.length) 1)

/-- One fragment whose listed rows were last updated at `version`. -/
def stampRows (version : Nat) (offsets : List Nat) (f : DataFragment) :
    Except String DataFragment :=
  if f.rowMeta.external || offsets.isEmpty then .ok f
  else do
    let versions ← lastUpdatedVersions f
    return { f with rowMeta := { f.rowMeta with
      lastUpdated := some (.values (versions.zipIdx.map
        (fun v => if v.2 ∈ offsets then version else v.1))) } }

/-- Stable row ids, an Update in RewriteColumns mode: the rows it names were last updated at
    `version`. -/
def stampUpdatedRows (version : Nat) : List (Nat × (Nat → Except String (List Nat))) →
    List DataFragment → Except String (List DataFragment)
  | [], fragments => .ok fragments
  | (id, bitmap) :: rest, fragments =>
    match fragments.find? (fun f => f.id = id) with
    | none => stampUpdatedRows version rest fragments
    | some f => do
      let offsets ← bitmap f.physicalRows
      let stamped ← stampRows version offsets f
      stampUpdatedRows version rest (modifyFirst (fun f => f.id = id) (fun _ => stamped) fragments)

/-- The fragments a Delete or an Update leaves: the removed ones gone, and a fragment the change
    carries in place of the one with its id. -/
def substitute (removed : List Nat) (updated : Nat → Option DataFragment)
    (fragments : List DataFragment) : List DataFragment :=
  (fragments.filter (fun f => f.id ∉ removed)).map (fun f => (updated f.id).getD f)

def retainIndices (next : Manifest) : Manifest :=
  { next with indices := retainRelevantIndices next.indices next.fields next.fragments }

/-- New fragments numbered after the base's and, with stable row ids, stamped. -/
def appendFragments (next : Manifest) (fragments : List DataFragment) (nextId : Nat)
    (stable : Bool) (version : Nat) : Except String Manifest := do
  let added := (assignIds fragments nextId).1
  if stable then
    let (stamped, nextRowId) ← stampMissingRowMeta version added next.nextRowId
    return { next with fragments := next.fragments ++ stamped, nextRowId := nextRowId }
  else return { next with fragments := next.fragments ++ added }

/-- A Delete's own fragments are kept in a map that a later one of the same id overwrites. -/
def applyDelete (next : Manifest) (op : Operation) : Manifest :=
  retainIndices { next with
    fragments := substitute op.removedIds (lastWithId op.updatedFragments) next.fragments }

/-- The fragments an Update leaves. Its own are kept in a map that the first of the same id stays
    in. -/
def updateFragments (next : Manifest) (op : Operation) (stable : Bool) (version : Nat) :
    Except String (List DataFragment) :=
  let kept := substitute op.removedIds
    (fun id => op.updatedFragments.find? (fun f => f.id = id)) next.fragments
  if stable && op.rewriteColumns then stampUpdatedRows version op.updatedFragmentOffsets kept
  else .ok kept

def applyUpdate (next : Manifest) (op : Operation) (nextId : Nat) (stable : Bool) (version : Nat) :
    Except String Manifest := do
  let kept ← updateFragments next op stable version
  let pruned := { next with
    fragments := kept
    indices := pruneUpdatedFields next.indices (op.updatedFragments.map (·.id)) op.fieldsModified }
  let added ← appendFragments pruned op.fragments nextId stable version
  return retainIndices added

/-- Base paths decoded and numbered from 1 in the order given. -/
def numberBases : List (Except String BasePath) → Nat → Except String (List BasePath)
  | [], _ => .ok []
  | message :: rest, next => do
    let base ← message
    let others ← numberBases rest (next + 1)
    return { base with id := next } :: others

def numberFrom : List DataFragment → Nat → List DataFragment
  | [], _ => []
  | f :: rest, next => { f with id := next } :: numberFrom rest (next + 1)

def applyOverwrite (next : Manifest) (op : Operation) (nextId : Nat) (stable : Bool)
    (version : Nat) : Except String Manifest := do
  let added := numberFrom op.fragments nextId
  let (added, nextRowId) ← if stable then stampMissingRowMeta version added next.nextRowId
    else pure (added, next.nextRowId)
  let bases ← numberBases op.initialBases 1
  return { next with
    fragments := added
    nextRowId := nextRowId
    indices := []
    indexSectionError := ""
    config := op.configUpserts.foldl (fun acc e => mapInsert acc e.1 e.2) next.config
    bases := if op.initialBases.isEmpty then next.bases else bases }

def assignGroupIds : List RewriteGroup → Nat → List RewriteGroup
  | [], _ => []
  | group :: rest, next =>
    let numbered := assignIds group.newFragments next
    { group with newFragments := numbered.1 } :: assignGroupIds rest numbered.2

/-- Each group's old fragments, all of them present, replaced by its new ones. -/
def applyGroups : List RewriteGroup → List DataFragment → Except String (List DataFragment)
  | [], fragments => .ok fragments
  | group :: rest, fragments =>
    match group.oldFragments.find? (fun f => !fragments.any (fun x => x.id = f.id)) with
    | some f =>
      .error ("commit conflict: dataset does not contain a fragment a rewrite operation wants to " ++
        s!"replace: id={f.id}")
    | none =>
      applyGroups rest
        (fragments.filter (fun f => f.id ∉ group.oldFragments.map (·.id)) ++ group.newFragments)

/-- The indices a rewrite wrote anew: under their new uuid, their coverage moved to the new
    fragments. -/
def applyRewritten (groups : List RewriteGroup) : List RewrittenIndex → List Nat →
    List IndexMetadata → Except String (List IndexMetadata)
  | [], _, indices => .ok indices
  | ri :: rest, seen, indices =>
    if ri.oldId ∈ seen then
      .error ("Invalid user input: An invalid compaction plan must have been generated because " ++
        s!"multiple tasks modified the same index: {ri.oldId}")
    else
      match indices.find? (fun i => i.uuid = ri.oldId) with
      | none => applyRewritten groups rest (ri.oldId :: seen) indices
      | some old => do
        let ids ← recalculateBitmap old.fragmentIds groups old.fragmentIds
        let kept := ri.detailsTypeUrl = ""
        let index : IndexMetadata :=
          { uuid := ri.newId, fields := old.fields, name := old.name,
            datasetVersion := old.datasetVersion, fragmentIds := ids,
            detailsTypeUrl := if kept then old.detailsTypeUrl else ri.detailsTypeUrl,
            indexVersion := ri.indexVersion, createdAt := old.createdAt,
            details := if kept then old.details else ri.details }
        applyRewritten groups rest (ri.oldId :: seen)
          (modifyFirst (fun i => i.uuid = ri.oldId) (fun _ => index) indices)

def applyRewrite (next : Manifest) (op : Operation) (nextId : Nat) : Except String Manifest := do
  let groups := assignGroupIds op.groups nextId
  let fragments ← applyGroups groups next.fragments
  let indices ← applyRewritten groups op.rewrittenIndices [] next.indices
  return { next with fragments := fragments, indices := indices }

/-- A merge's fragments are the dataset's; the schema is the merge's already. -/
def applyMerge (next : Manifest) (op : Operation) : Manifest :=
  retainIndices { next with
    indices := pruneMergeRewritten next.fragments op.fragments next.indices
    fragments := op.fragments }

def applyProject (next : Manifest) : Manifest :=
  retainIndices { next with
    fragments := next.fragments.map (keepFiles next.fields) }

def applyFieldMetadata : List (Int × UpdateMap) → List Field → Except String (List Field)
  | [], fields => .ok fields
  | (id, update) :: rest, fields =>
    match fields.find? (fun f => f.id = id) with
    | none => .error s!"Invalid user input: Field with id {id} does not exist"
    | some _ =>
      applyFieldMetadata rest (modifyFirst (fun f => f.id = id)
        (fun f => { f with
          metadata := applyUpdateMap (fun s => s.toUTF8.toList) f.metadata update }) fields)

def updateIfGiven {α : Type} (convert : String → α) (target : StringMap α) :
    Option UpdateMap → StringMap α
  | none => target
  | some update => applyUpdateMap convert target update

def applyUpdateConfig (next : Manifest) (op : Operation) : Except String Manifest := do
  let fields ← applyFieldMetadata op.fieldMetadataUpdates next.fields
  return { next with
    config := updateIfGiven id next.config op.configUpdates
    tableMetadata := updateIfGiven id next.tableMetadata op.tableMetadataUpdates
    schemaMetadata := updateIfGiven (fun s => s.toUTF8.toList) next.schemaMetadata
      op.schemaMetadataUpdates
    fields := fields }

/-- A new index covers only the fragments still present. -/
def presentCoverage (fragments : List DataFragment) (index : IndexMetadata) : IndexMetadata :=
  let ids := index.fragmentIds.filter (fun id => fragments.any (fun f => f.id = id))
  if ids.length ≠ index.fragmentIds.length then
    { index with fragmentIds := ids, fragmentBitmapChanged := true }
  else index

/-- A new index in place of the one with its uuid, or after the others. -/
def putIndex (index : IndexMetadata) (indices : List IndexMetadata) : List IndexMetadata :=
  if indices.any (fun i => i.uuid = index.uuid) then
    modifyFirst (fun i => i.uuid = index.uuid) (fun _ => index) indices
  else indices ++ [index]

/-- The new indices in order. There is one MemWAL index per dataset. -/
def putNewIndices (fragments : List DataFragment) :
    List IndexMetadata → List IndexMetadata → Except String (List IndexMetadata)
  | [], indices => .ok indices
  | created :: rest, indices => do
    let index := presentCoverage fragments created
    ensure (!(index.name = memWalIndex && !indices.any (fun i => i.uuid = index.uuid) &&
        indices.any (fun i => i.name = memWalIndex)))
      "Invalid user input: MemWAL is already initialized on this dataset."
    putNewIndices fragments rest (putIndex index indices)

def applyCreateIndex (next : Manifest) (op : Operation) : Except String Manifest := do
  let kept := next.indices.filter (fun i => i.uuid ∉ op.removedIndices.map (·.uuid))
  let indices ← putNewIndices next.fragments op.newIndices kept
  return { next with indices := indices }

/-- New base paths after the registered ones, none repeating a name or a path. -/
def addBases : List (Except String BasePath) → List BasePath → Except String (List BasePath)
  | [], bases => .ok bases
  | message :: rest, bases => do
    let base ← message
    let name := base.name.getD "None"
    ensure (!bases.any (fun known =>
        (base.name.isSome && known.name = base.name) || base.path = known.path))
      (s!"Invalid user input: Conflict detected: Base path with name '{name}' or path " ++
        s!"'{base.path}' already exists")
    let id := bases.foldl (fun next known => max next (known.id + 1)) 1
    addBases rest (bases ++ [{ base with id := id }])

/-- New overlays after a fragment's own, stamped with the commit's version. -/
def appendFragmentOverlays (version : Nat) :
    List OverlayMessage → DataFragment → Except String DataFragment
  | [], f => .ok f
  | .malformed e :: _, _ => .error e
  | .decoded o :: rest, f => do
    ensure (o.shared || o.fieldOffsets.length = o.dataFile.fields.length)
      (s!"Invalid user input: a sparse data overlay needs one offset set per field (" ++
        s!"{o.dataFile.fields.length} fields, {o.fieldOffsets.length} offset sets)")
    appendFragmentOverlays version rest
      { f with overlays := f.overlays ++ [.decoded { o with committedVersion := version }] }

def applyOverlayGroups (version : Nat) : List (Nat × List OverlayMessage) →
    List DataFragment → Except String (List DataFragment)
  | [], fragments => .ok fragments
  | (id, overlays) :: rest, fragments =>
    match fragments.find? (fun f => f.id = id) with
    | none =>
      .error s!"Invalid user input: data overlay for fragment {id}, which the dataset does not have"
    | some f => do
      let overlaid ← appendFragmentOverlays version overlays f
      applyOverlayGroups version rest
        (modifyFirst (fun f => f.id = id) (fun _ => overlaid) fragments)

/-- A data file left holding nothing but tombstones. -/
def onlyTombstones (file : DataFile) : Bool :=
  !file.fields.isEmpty && file.fields.all (fun id => id = tombstone)

def dropTombstoneFiles (f : DataFragment) : DataFragment :=
  { f with files := f.files.filter (fun file => !onlyTombstones file) }

/-- The high-water mark over the dataset's history, cut to 32 bits. -/
def highWater (maxId : Option Nat) (fragments : List DataFragment) : Option Nat :=
  if maxId.isNone && fragments.isEmpty then none
  else some ((fragments.foldl (fun maxId f => max maxId f.id) (maxId.getD 0)) % 2 ^ 32)

/-- What every operation ends with. -/
def finish (next : Manifest) (stable : Bool) : Manifest :=
  let fragments := (sortFragments next.fragments).map dropTombstoneFiles
  let overlays := fragments.any (fun f => !f.overlays.isEmpty)
  let deletions := fragments.any (fun f => f.deletionFile.isSome)
  let flags := fun (word : BitVec 64) =>
    setFlag (setFlag (if stable then word ||| flagStableRowIds else word) flagDataOverlays overlays)
      flagDeletionFiles deletions
  { next with
    fragments := fragments
    maxFragmentId := highWater next.maxFragmentId fragments
    readerFeatureFlags := flags next.readerFeatureFlags
    writerFeatureFlags := flags next.writerFeatureFlags }

/-- The checks made before anything is changed. -/
def operationValid (base : Option Manifest) (op : Operation) : Except String Unit := do
  ensure (base.isSome || op.kind = .overwrite)
    ("Invalid user input: Cannot apply operation " ++ operationName op.kind ++
      " to non-existent dataset")
  match op.kind with
  | .overwrite =>
    overwriteFragmentsValid op.fragments
    filesHaveFields op.fragments
  | .append => filesHaveFields op.fragments
  | .merge =>
    filesHaveFields op.fragments
    match base with
    | none => .ok ()
    | some m => mergeValid m op
  | .update =>
    filesHaveFields op.updatedFragments
    filesHaveFields op.fragments
  | _ => .ok ()

/-- The manifest an operation starts from: the base with the operation's schema where it carries
    one, or an empty one. -/
def startManifest (base : Option Manifest) (op : Operation) : Manifest :=
  let next := base.getD { dataFormat := ("lance", storageVersionOf op.fragments) }
  { next with
    fields := if op.hasSchema then op.schema else next.fields
    schemaMetadata :=
      if op.kind = .overwrite || op.schemaMetadata.isSome then op.schemaMetadata.getD []
      else next.schemaMetadata }

/-- The effect of each kind of operation. A merge and a reservation read the base's fragments and
    mark, which the start manifest still has. -/
def applyKind (next : Manifest) (op : Operation) (nextId : Nat) (stable : Bool) (version : Nat) :
    Except String Manifest :=
  match op.kind with
  | .append => appendFragments next op.fragments nextId stable version
  | .delete => .ok (applyDelete next op)
  | .update => applyUpdate next op nextId stable version
  | .overwrite => applyOverwrite next op nextId stable version
  | .rewrite => applyRewrite next op nextId
  | .merge => .ok (applyMerge next op)
  | .project => .ok (applyProject next)
  | .reserveFragments =>
    .ok { next with maxFragmentId := some ((next.maxFragmentId.getD 0 + op.reserve) % 2 ^ 32) }
  | .updateConfig => applyUpdateConfig next op
  | .createIndex => applyCreateIndex next op
  | .dataReplacement => dataReplacement next op
  | .updateBases => do
    let bases ← addBases op.newBases next.bases
    return { next with bases := bases }
  | .dataOverlay => do
    let fragments ← applyOverlayGroups version op.overlayGroups next.fragments
    return { next with fragments := fragments }
  | .restore | .clone =>
    .error ("LanceDataset.commit of " ++ operationName op.kind ++ " is not supported")

/-- An operation checked and applied to a base, giving the next manifest. -/
def applyOperation (base : Option Manifest) (op : Operation) (enableStableRowIds : Bool)
    (version : Nat) : Except String Manifest := do
  operationValid base op
  let next := startManifest base op
  let nextId := (base.map nextFragmentId).getD 0
  let stable := isStable next || (enableStableRowIds && (base.isNone || op.kind = .overwrite))
  let applied ← applyKind next op nextId stable version
  return finish applied stable

/-- The fragments a change adds were numbered after the version it was made from, so on a later one
    they are numbered anew. -/
def renumbered (op : Operation) : Operation :=
  if op.kind = .append || op.kind = .update then
    { op with fragments := op.fragments.map (fun f => { f with id := 0 }) }
  else op

/-- A concurrent Update that rewrote a field a new index covers prunes the fragments it rewrote from
    the index. Other operations do not. -/
def pruneByUpdates : List Operation → List IndexMetadata → List IndexMetadata
  | [], mine => mine
  | t :: rest, mine =>
    if t.kind = .update then
      pruneByUpdates rest
        (pruneUpdatedFields mine (t.updatedFragments.map (·.id)) t.fieldsModified)
    else pruneByUpdates rest mine

/-- The indices of `mine` put back in place of those with their uuids. -/
def putBack : List IndexMetadata → List IndexMetadata → List IndexMetadata
  | [], indices => indices
  | index :: rest, indices =>
    putBack rest (modifyFirst (fun i => i.uuid = index.uuid) (fun _ => index) indices)

/-- An operation made from an older version applied to `latest`, over the operations `theirs`
    committed since. -/
def rebaseOperation (latest ours : Manifest) (op : Operation) (theirs : List Operation)
    (version : Nat) : Except String Manifest := do
  if op.kind = .restore then
    return { ours with
      maxFragmentId :=
        some ((max (latest.maxFragmentId.getD 0) (ours.maxFragmentId.getD 0)) % 2 ^ 32)
      nextRowId := max ours.nextRowId latest.nextRowId }
  else
    ensure (!(isStable latest && (op.kind = .append || op.kind = .update || op.kind = .merge ||
        op.kind = .overwrite)))
      ("commit conflict: stable row ids: a rebase of " ++ operationName op.kind ++
        " is not supported")
    let next ← applyOperation (some latest) (renumbered op) false version
    if op.kind = .createIndex then
      let mine := next.indices.filter (fun i => i.uuid ∈ op.newIndices.map (·.uuid))
      return { next with indices := putBack (pruneByUpdates theirs mine) next.indices }
    else return next

/-- Operations applied one over the other, the versions counted from `version`. -/
def applyInTurn (stable : Bool) : Nat → Manifest → List Operation → Except String Manifest
  | _, m, [] => .ok m
  | version, m, op :: rest => do
    let next ← applyOperation (some m) op stable version
    applyInTurn stable (version + 1) next rest

@[simp] theorem mem_ascending (id : Nat) (ids : List Nat) : id ∈ ascending ids ↔ id ∈ ids := by
  rw [ascending, mem_dedup, mem_insertionSort]

theorem ascending_pairwise (ids : List Nat) : (ascending ids).Pairwise (· < ·) := by
  have hle : (ascending ids).Pairwise (· ≤ ·) :=
    (pairwise_insertionSort (· ≤ ·) ids).sublist (dedup_sublist _)
  have hne : (ascending ids).Pairwise (· ≠ ·) := nodup_dedup _
  exact (hle.and hne).imp (fun h => lt_of_le_of_ne h.1 h.2)

/-- Every fragment's id is below the next one. -/
theorem lt_nextFragmentId {m : Manifest} {f : DataFragment} (hf : f ∈ m.fragments) :
    f.id < nextFragmentId m := by
  rw [nextFragmentId]
  have hfold := (le_foldl_max (fun f : DataFragment => f.id + 1) m.fragments
    (match m.maxFragmentId with | some id => id + 1 | none => 0)).2 f hf
  exact lt_of_lt_of_le hfold (le_max_left _ _)

variable {m : Manifest}

/-- So is the high-water mark. -/
theorem mark_lt_nextFragmentId {top : Nat} (h : m.maxFragmentId = some top) :
    top < nextFragmentId m := by
  rw [nextFragmentId, h]
  have hfold := (le_foldl_max (fun f : DataFragment => f.id + 1) m.fragments (top + 1)).1
  exact lt_of_lt_of_le hfold (le_max_left _ _)

/-- So is every covered id, coverage being ascending. -/
theorem covered_lt_nextFragmentId {index : IndexMetadata} (hi : index ∈ m.indices)
    (hasc : index.fragmentIds.Pairwise (· < ·)) {id : Nat} (hid : id ∈ index.fragmentIds) :
    id < nextFragmentId m := by
  let above := fun (i : IndexMetadata) => (i.fragmentIds.getLast?.map (· + 1)).getD 0
  have hfirst : firstFragmentIdAfterIndices m.indices =
      m.indices.foldl (fun next i => max next (above i)) 0 := by
    unfold firstFragmentIdAfterIndices
    grind
  have hlast : id < above index := by
    have hne : index.fragmentIds ≠ [] := ne_nil_of_mem hid
    simp only [above, getLast?_eq_getLast_of_ne_nil hne, Option.map_some, Option.getD_some]
    have hle : index.fragmentIds.Pairwise (· ≤ ·) := hasc.imp Nat.le_of_lt
    exact Nat.lt_succ_of_le (hle.rel_getLast hid)
  have hfold := (le_foldl_max above m.indices 0).2 index hi
  grind [nextFragmentId]

/-- The mark after a commit is above the one before and above every fragment. -/
theorem highWater_used {bound : Nat} (hpos : 0 < bound) (hbound : bound ≤ 2 ^ 32)
    {maxId : Option Nat} {fragments : List DataFragment}
    (hmark : ∀ top, maxId = some top → top < bound)
    (hsmall : ∀ f ∈ fragments, f.id < bound) :
    (∀ top, maxId = some top → ∃ new, highWater maxId fragments = some new ∧ top ≤ new) ∧
      (∀ f ∈ fragments, ∃ new, highWater maxId fragments = some new ∧ f.id ≤ new) ∧
      ∀ new, highWater maxId fragments = some new → new < bound := by
  have hstart : maxId.getD 0 < bound := by
    cases maxId with
    | none => exact hpos
    | some top => exact hmark top rfl
  rcases le_foldl_max (·.id) fragments (maxId.getD 0) with ⟨hlow, hall⟩
  have htop : fragments.foldl (fun a f => max a f.id) (maxId.getD 0) < bound := by
    clear hlow hall hmark
    generalize maxId.getD 0 = start at hstart
    induction fragments generalizing start with
    | nil => exact hstart
    | cons f rest ih => grind
  have hmod : ∀ n, n < bound → n % 2 ^ 32 = n := fun n hn => Nat.mod_eq_of_lt (by omega)
  unfold highWater
  refine ⟨fun top h => ?_, fun f hf => ?_, fun new h => ?_⟩
  · grind
  · grind
  · grind

/-- Fragments without an id are numbered one after the other. -/
theorem assignIds_zero (fragments : List DataFragment) (next : Nat)
    (h : ∀ f ∈ fragments, f.id = 0) : (assignIds fragments next).1 = numberFrom fragments next := by
  induction fragments generalizing next with
  | nil => rfl
  | cons f rest ih =>
    rw [assignIds, if_pos (h f (.head _)), numberFrom]
    grind

theorem numberFrom_ids (fragments : List DataFragment) (next : Nat) :
    (numberFrom fragments next).map (·.id) = range' next fragments.length := by
  induction fragments generalizing next with
  | nil => rfl
  | cons f rest ih =>
    rw [numberFrom, map_cons, ih, length_cons, range'_succ]

/-- Fragments numbered after others have ids of their own. -/
theorem nodup_numbered {kept : List DataFragment} (new : List DataFragment) {next : Nat}
    (h : (kept.map (·.id)).Nodup) (hlt : ∀ f ∈ kept, f.id < next) :
    ((kept ++ numberFrom new next).map (·.id)).Nodup := by
  rw [map_append, numberFrom_ids, nodup_append]
  refine ⟨h, nodup_range', ?_⟩
  rintro _ ha b hb rfl
  rcases mem_map.mp ha with ⟨f, hf, rfl⟩
  have hlow := (mem_range'_1.mp hb).1
  have hhigh := hlt f hf
  omega

/-- Numbering changes nothing else. -/
theorem numberFrom_map {β : Type} {key : DataFragment → β}
    (hkey : ∀ (f : DataFragment) (id : Nat), key { f with id := id } = key f)
    (fragments : List DataFragment) (next : Nat) :
    (numberFrom fragments next).map key = fragments.map key := by
  induction fragments generalizing next with
  | nil => rfl
  | cons f rest ih => rw [numberFrom, map_cons, map_cons, ih, hkey]

end NanoLance
