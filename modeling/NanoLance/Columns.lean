import NanoLance.IndexMaintenance
import NanoLance.Lib.Outcome

/-!
# Column Operations

The operations that change a dataset's schema: adding columns computed by SQL
expressions, given by a stream or left null, dropping columns, and altering
them. Each reads a version's manifest, edits the schema and the fragments'
file lists, and commits the result as the next version.

New columns are numbered from one above the largest field id of the live
schema. `mapArrowSchema` numbers the columns of an Arrow schema from zero, a
field before its children, and the writer shifts those ids by the base it was
opened with. What a scan, an expression or the file writer produced is an
input here (`Staged`, `ColumnAlteration.nullRows`), because no id depends on
the values in the rows.

Every operation returns, beside the manifest it commits, the field ids it
handed out and the manifest it handed them out over (`Grant`).

## Main definitions

* `alterColumns`: Renaming, changing nullability, changing a type.
-/

namespace NanoLance

/-- A column of an Arrow schema with the columns below it. `physical` says that the field is a
    column of the data file; `onDisk` is false for the parts of a blob descriptor that the on-disk
    schema leaves out. -/
inductive ArrowField where
  | mk (name logicalType : String) (nullable physical onDisk : Bool) (children : List ArrowField)

namespace ArrowField

def name : ArrowField → String
  | mk name _ _ _ _ _ => name

/-- The column under another name, as an expression's result is written. -/
def withName (name : String) : ArrowField → ArrowField
  | mk _ logicalType nullable physical onDisk children =>
    mk name logicalType nullable physical onDisk children

/-- The column under another name and nullability, as a type change writes it. -/
def retarget (name : String) (nullable : Bool) : ArrowField → ArrowField
  | mk _ logicalType _ physical onDisk children =>
    mk name logicalType nullable physical onDisk children

end ArrowField

/-- A field of the writer's schema mapping. -/
structure LanceField where
  name : String
  logicalType : String
  id : Int
  parentId : Int
  columnIndex : Int
  nullable : Bool
  onDisk : Bool
  deriving DecidableEq, Repr

mutual

/-- Number one field and then the fields below it, from the next free id and column index, which are
    returned advanced. -/
def mapField (parentId nextId nextColumn : Int) : ArrowField → List LanceField × Int × Int
  | .mk name logicalType nullable physical onDisk children =>
    let out : LanceField :=
      { name, logicalType, id := nextId, parentId,
        columnIndex := if physical then nextColumn else -1, nullable, onDisk }
    let rest := mapFields nextId (nextId + 1) (if physical then nextColumn + 1 else nextColumn)
      children
    (out :: rest.1, rest.2)

def mapFields (parentId nextId nextColumn : Int) : List ArrowField → List LanceField × Int × Int
  | [] => ([], nextId, nextColumn)
  | f :: rest =>
    let first := mapField parentId nextId nextColumn f
    let others := mapFields parentId first.2.1 first.2.2 rest
    (first.1 ++ others.1, others.2)

end

/-- The numbering of an Arrow schema, ids from zero. -/
def mapArrowSchema (schema : List ArrowField) : List LanceField :=
  (mapFields (-1) 0 0 schema).1

/-- Ids moved up by the writer's field id base. -/
def shiftIds (base : Int) (fields : List LanceField) : List LanceField :=
  fields.map (fun f =>
    { f with id := f.id + base, parentId := if 0 ≤ f.parentId then f.parentId + base else f.parentId })

def makeManifestField (f : LanceField) : Field :=
  { name := f.name, logicalType := f.logicalType, id := f.id, parentId := f.parentId,
    nullable := f.nullable }

/-- A data file the staged writer wrote. -/
structure NewFragment where
  path : String
  rows : Nat
  fileSizeBytes : Nat := 0
  baseId : Option Nat := none
  deriving DecidableEq, Repr

/-- What staging left: the schema of the batches written, and one file for each cut. -/
structure Staged where
  schema : List ArrowField
  files : List NewFragment

/-- The on-disk schema the staged files were written with, ids from `base`. A writer that wrote no
    file has no schema. -/
def Staged.mapping (staged : Staged) (base : Int) : List LanceField :=
  if staged.files.isEmpty then []
  else
    -- Only a field below a blob descriptor is ever left out.
    (shiftIds base (mapArrowSchema staged.schema)).filter (fun f => f.onDisk || f.parentId < 0)

/-- The file entry of a new data file: the mapping's physical fields. -/
def manifestDataFile (mapping : List LanceField) (file : NewFragment) : DataFile :=
  let physical := mapping.filter (fun f => 0 ≤ f.columnIndex)
  { path := file.path, fields := physical.map (·.id), columnIndices := physical.map (·.columnIndex),
    fileMajorVersion := 2, fileMinorVersion := 2, fileSizeBytes := file.fileSizeBytes,
    baseId := file.baseId }

/-- One new file for each listed fragment, put after the files it has. -/
def attachFiles (mapping : List LanceField) :
    List (Nat × NewFragment) → List DataFragment → Except String (List DataFragment)
  | [], fragments => .ok fragments
  | (id, file) :: rest, fragments =>
    match fragments.find? (fun f => f.id = id) with
    | none => .error s!"fragment {id} disappeared"
    | some fragment =>
      if file.rows ≠ fragment.physicalRows then
        .error s!"new columns have {file.rows} rows for a fragment of {fragment.physicalRows}"
      else
        attachFiles mapping rest
          (Lib.modifyFirst (fun f => f.id = id)
            (fun f => { f with files := f.files ++ [manifestDataFile mapping file] }) fragments)

/-- Add the staged files, one per fragment and in order, to the fragments, and their fields to the
    schema. -/
def attachColumns (m : Manifest) (ids : List Nat) (mapping : List LanceField)
    (files : List NewFragment) : Except String Manifest :=
  if files.length ≠ ids.length then
    .error s!"wrote {files.length} column files for {ids.length} fragments"
  else
    match attachFiles mapping (ids.zip files) m.fragments with
    | .error e => .error e
    | .ok fragments =>
      .ok { m with fragments := fragments, fields := m.fields ++ mapping.map makeManifestField }

def fragmentIds (m : Manifest) : List Nat :=
  m.fragments.map (·.id)

/-- No new name repeats a top-level one or another new one. -/
def checkNewNames (seen : List String) : List String → Except String Unit
  | [] => .ok ()
  | n :: rest =>
    if n ∈ seen then .error s!"column '{n}' already exists" else checkNewNames (n :: seen) rest

def topLevelNames (m : Manifest) : List String :=
  (m.fields.filter (fun f => f.parentId = -1)).map (·.name)

/-- The field at a path, given as its dot-separated parts. A top-level name may itself hold a dot,
    which is tried when the first part names nothing. -/
def findFieldFrom (fields : List Field) (whole : String) :
    List String → Int → Option Field
  | [], _ => none
  | part :: rest, parent =>
    match fields.find? (fun f => f.parentId = parent && f.name = part) with
    | none =>
      if parent = -1 then fields.find? (fun f => f.parentId = -1 && f.name = whole) else none
    | some f => if rest.isEmpty then some f else findFieldFrom fields whole rest f.id

def findField (m : Manifest) (path : List String) : Option Field :=
  findFieldFrom m.fields (".".intercalate path) path (-1)

def notFound (path : List String) : String :=
  "column '" ++ ".".intercalate path ++ "' not found"

/-- Field ids handed out, and the manifest they were handed out over. -/
structure Grant where
  manifest : Manifest
  ids : List Int
  deriving DecidableEq, Repr

/-- What every column operation ends with: the indices retained, the fragments in id order, and the
    version after the one read. -/
def commit (m : Manifest) : Manifest :=
  { m with
    indices := retainRelevantIndices m.indices m.fields m.fragments
    fragments := sortFragments m.fragments
    version := m.version + 1 }

/-- Columns computed by SQL expressions over each fragment. `types` are the expressions' result
    types, `staged` the files their values were written in or what went wrong on the way. -/
def addColumnsSql (m : Manifest) (columns : List (String × String)) (types : List ArrowField)
    (staged : Except String (List NewFragment)) : Except String (Manifest × List Grant) := do
  Lib.ensure (!columns.isEmpty) "no columns to add"
  checkNewNames (topLevelNames m) (columns.map Prod.fst)
  let files ← staged
  let written : Staged := { schema := columns.zipWith (fun c t => t.withName c.1) types, files }
  let mapping := written.mapping (maxFieldId m.fields + 1)
  let next ← attachColumns m (fragmentIds m) mapping written.files
  return (commit next, [⟨m, mapping.map (·.id)⟩])

/-- Columns given by a stream of batches of one schema. -/
def addColumnsStream (m : Manifest) (schema : List ArrowField)
    (staged : Except String (List NewFragment)) : Except String (Manifest × List Grant) := do
  Lib.ensure (m.fragments.all (fun f => f.deletionFile.isNone))
    "adding columns from a stream needs a dataset without deleted rows (compact it first)"
  checkNewNames (topLevelNames m) (schema.map ArrowField.name)
  let files ← staged
  let written : Staged := { schema, files }
  let mapping := written.mapping (maxFieldId m.fields + 1)
  let next ← attachColumns m (fragmentIds m) mapping written.files
  return (commit next, [⟨m, mapping.map (·.id)⟩])

/-- Columns of nulls: schema only, no file holds them. -/
def addColumnsNulls (m : Manifest) (schema : List ArrowField) :
    Except String (Manifest × List Grant) := do
  Lib.ensure (!schema.isEmpty) "no columns to add"
  checkNewNames (topLevelNames m) (schema.map ArrowField.name)
  let added := (shiftIds (maxFieldId m.fields + 1) (mapArrowSchema schema)).map
    (fun f => { f with nullable := true })
  return (commit { m with fields := m.fields ++ added.map makeManifestField },
    [⟨m, added.map (·.id)⟩])

/-- The ids below the ones in the queue, a stack the source pops from the back. `none` when the fuel
    runs out, as on a schema whose parents form a cycle. -/
def collectGone (fields : List Field) : Nat → List Int → List Int → Option (List Int)
  | _, [], gone => some gone
  | 0, _ :: _, _ => none
  | fuel + 1, id :: queue, gone =>
    let children := (fields.filter (fun c => c.parentId = id)).map (·.id)
    collectGone fields fuel (children.reverse ++ queue) (id :: gone)

/-- The ids of the named columns and of everything below them. -/
def goneIds (fuel : Nat) (m : Manifest) : List (List String) → List Int → Except String (List Int)
  | [], gone => .ok gone
  | path :: rest, gone =>
    match findField m path with
    | none => .error (notFound path)
    | some f =>
      match collectGone m.fields fuel [f.id] gone with
      | none => .error "the search below the column does not end"
      | some gone => goneIds fuel m rest gone

/-- The fields a drop leaves. -/
def remainingFields (m : Manifest) (gone : List Int) : List Field :=
  m.fields.filter (fun f => f.id ∉ gone)

/-- Drop the named columns and everything below them. A data file left holding none of the schema's
    fields leaves its fragment; one that still holds another field stays, the dropped ids listed in
    it. -/
def dropColumns (fuel : Nat) (m : Manifest) (columns : List (List String)) :
    Except String (Manifest × List Grant) := do
  Lib.ensure (!columns.isEmpty) "no columns to drop"
  let gone ← goneIds fuel m columns []
  let kept := remainingFields m gone
  Lib.ensure (kept.any (fun f => f.parentId = -1)) "cannot drop every column of a dataset"
  return (commit { m with fields := kept, fragments := m.fragments.map (keepFiles kept) }, [])

/-- One alteration of a column, with what the dataset answered: the number of rows holding a null,
    and the files the cast column was staged in. -/
structure ColumnAlteration where
  path : List String
  rename : Option String := none
  nullable : Option Bool := none
  dataType : Option ArrowField := none
  nullRows : Except String Nat := .ok 0
  staged : Except String (List NewFragment) := .ok []

/-- `std::rotate` of `[pos, end)` that brings `mid` to the front of it. -/
def rotateFrom {α : Type} (pos mid : Nat) (l : List α) : List α :=
  l.take pos ++ l.drop mid ++ (l.drop pos).take (mid - pos)

/-- The rows holding a null, counted only when nullability is taken away. -/
def countNulls (a : ColumnAlteration) (nullable : Bool) (field : Field) : Except String Nat :=
  if !nullable && field.nullable then a.nullRows else .ok 0

/-- Nullability is taken away only when no row holds a null. -/
def alterNullable (m : Manifest) (a : ColumnAlteration) (field : Field) :
    Except String (Manifest × Field) := do
  match a.nullable with
  | none => return (m, field)
  | some nullable =>
    let count ← countNulls a nullable field
    Lib.ensure (count = 0)
      ("column '" ++ ".".intercalate a.path ++ "' holds nulls; it cannot be made non-nullable")
    let altered := { field with nullable := nullable }
    return ({ m with fields := Lib.modifyFirst (fun f => f = field) (fun _ => altered) m.fields },
      altered)

/-- The column cast to another type in new files, under a new id, its field taking the old one's
    place in the schema. The old id stays listed in the files that held it. -/
def alterType (m : Manifest) (a : ColumnAlteration) (field : Field) :
    Except String (Manifest × List Grant) := do
  match a.dataType with
  | none => return (m, [])
  | some dataType =>
    Lib.ensure (field.parentId = -1) "changing the type of a nested field is not supported"
    let target := dataType.retarget field.name field.nullable
    let files ← a.staged
    let written : Staged := { schema := [target], files := files }
    let mapping := written.mapping (maxFieldId m.fields + 1)
    let position := m.fields.findIdx (fun f => f.id = field.id)
    let erased := m.fields.eraseIdx position
    let next ← attachColumns { m with fields := erased } (fragmentIds m) mapping files
    return ({ next with fields := rotateFrom position erased.length next.fields },
      [⟨m, mapping.map (·.id)⟩])

/-- The column under a new name, which no sibling has. -/
def alterName (m : Manifest) (a : ColumnAlteration) (field : Option Field) :
    Except String Manifest := do
  match a.rename with
  | none => return m
  | some name =>
    match field with
    | none => throw (notFound a.path)
    | some field =>
      Lib.ensure (!m.fields.any
        (fun f => f.parentId = field.parentId && f.name = name && f.id ≠ field.id))
        s!"column '{name}' already exists"
      return { m with
        fields := Lib.modifyFirst (fun f => f = field) (fun f => { f with name := name }) m.fields }

/-- One alteration: nullability, then type, then name. After a type change the column is looked up
    again, its field being a new one. -/
def alterColumn (m : Manifest) (a : ColumnAlteration) : Except String (Manifest × List Grant) := do
  match findField m a.path with
  | none => throw (notFound a.path)
  | some field =>
    let (m₁, field₁) ← alterNullable m a field
    let (m₂, grants) ← alterType m₁ a field₁
    let current := if a.dataType.isSome then findField m₂ a.path else some field₁
    let m₃ ← alterName m₂ a current
    return (m₃, grants)

/-- The alterations in order, each over the manifest the last one left. -/
def alterEach (m : Manifest) : List ColumnAlteration → Except String (Manifest × List Grant)
  | [] => .ok (m, [])
  | a :: rest => do
    let (next, grants) ← alterColumn m a
    let (last, others) ← alterEach next rest
    return (last, grants ++ others)

def alterColumns (m : Manifest) (alterations : List ColumnAlteration) :
    Except String (Manifest × List Grant) := do
  Lib.ensure (!alterations.isEmpty) "no alterations"
  let (next, grants) ← alterEach m alterations
  return (commit next, grants)

/-- One request to the dataset. -/
inductive ColumnOp where
  | addSql (columns : List (String × String)) (types : List ArrowField)
      (staged : Except String (List NewFragment))
  | addStream (schema : List ArrowField) (staged : Except String (List NewFragment))
  | addNulls (schema : List ArrowField)
  | drop (columns : List (List String))
  | alter (alterations : List ColumnAlteration)

/-- What a request commits over the latest version, or its error. -/
def columnStep (fuel : Nat) (m : Manifest) : ColumnOp → Except String (Manifest × List Grant)
  | .addSql columns types staged => addColumnsSql m columns types staged
  | .addStream schema staged => addColumnsStream m schema staged
  | .addNulls schema => addColumnsNulls m schema
  | .drop columns => dropColumns fuel m columns
  | .alter alterations => alterColumns m alterations

end NanoLance
