import NanoLance.Lib.Wire
import NanoLance.Transaction

/-!
# The Operation of a Transaction File

A commit writes down what it did as a Lance operation: a protobuf message,
read off the difference between the version before and the version it makes.
A writer that lost a race reads its own operation back from the message and
applies it to the latest version. The two directions are written apart from
each other, over bytes: `deriveOperation` puts a message together, and
`decodeOperation` takes one apart with a reader of its own.

The messages inside an operation (fragments, fields, indices, files) have
encoders and decoders of their own, which are the parameters of `Codec`.
-/

namespace NanoLance

open Lib

/-- The encoders and decoders of the messages inside an operation. -/
structure Codec where
  encodeFragment : DataFragment → Bytes
  decodeFragment : Bytes → Option DataFragment
  encodeField : Field → Bytes
  decodeField : Bytes → Option Field
  encodeIndex : IndexMetadata → Bytes
  decodeIndex : Bytes → Option IndexMetadata
  decodeFile : Bytes → Option DataFile
  text : Bytes → String
  basePath : Bytes → Except String BasePath
  overlay : Bytes → OverlayMessage
  offsets : Bytes → Nat → Except String (List Nat)
  details : Bytes → IndexDetails

def textBytes (s : String) : Bytes := s.toUTF8.toList

def putString (number : Nat) (s : String) : Bytes :=
  if s = "" then [] else Wire.putBytes number (textBytes s)

/-- A map entry, written also when its value is empty. -/
def putEntry (number : Nat) (key : String) (value : Bytes) : Bytes :=
  Wire.putBytes number (putString 1 key ++ Wire.putBytes 2 value)

section Derive

variable (codec : Codec)

/-- A fragment in a repeated field. -/
def putFragments (number : Nat) (fragments : List DataFragment) : Bytes :=
  fragments.flatMap (fun f => Wire.putBytes number (codec.encodeFragment f))

def putSchema (number : Nat) (m : Manifest) : Bytes :=
  m.fields.flatMap (fun f => Wire.putBytes number (codec.encodeField f))

def putSchemaMetadata (number : Nat) (m : Manifest) : Bytes :=
  m.schemaMetadata.flatMap (fun e => putEntry number e.1 e.2)

/-- The ids of removed fragments, packed; no field for none. -/
def putIds (number : Nat) (ids : List Nat) : Bytes :=
  if ids = [] then [] else Wire.putBytes number (ids.flatMap Wire.varint)

/-- The entries that take `before` to `after`: those set anew, then those removed, which have no
    value. -/
def updateMap (before after : StringMap Bytes) : Bytes :=
  (after.filter (fun e => before.lookup e.1 ≠ some e.2)).flatMap (fun e => putEntry 1 e.1 e.2) ++
    (before.filter (fun e => (after.lookup e.1).isNone)).flatMap
      (fun e => Wire.putBytes 1 (putString 1 e.1))

def asBytes (m : StringMap String) : StringMap Bytes := m.map (fun e => (e.1, textBytes e.2))

/-- A field became non-nullable. -/
def projectTightensNullability (before after : Manifest) : Bool :=
  after.fields.any (fun f =>
    (before.fields.reverse.find? (fun b => b.id = f.id)).any (fun b => b.nullable && !f.nullable))

def childrenOf (m : Manifest) (parent : Int) : List Field :=
  m.fields.filter (fun f => f.parentId = parent)

/-- Below two nodes of one path: whether a node is new, and whether a first new one is required. The
    fuel is the depth of the schema. -/
def newBelow (before after : Manifest) : Nat → Int → Int → Bool × Bool
  | 0, _, _ => (false, false)
  | fuel + 1, oldParent, newParent =>
    (childrenOf after newParent).foldl
      (fun acc field =>
        match (childrenOf before oldParent).find? (fun o => o.name = field.name) with
        | some old =>
          let below := newBelow before after fuel old.id field.id
          (acc.1 || below.1, acc.2 || below.2)
        | none => (true, acc.2 || !field.nullable))
      (false, false)

/-- A new field that is required at the first new node of its path, or a new node under a required
    column. -/
def mergeIntroducesRequiredField (before after : Manifest) : Bool :=
  (childrenOf after (-1)).any (fun field =>
    match (childrenOf before (-1)).find? (fun o => o.name = field.name) with
    | none => !field.nullable
    | some old =>
      let below := newBelow before after after.fields.length old.id field.id
      below.2 || (below.1 && !field.nullable))

/-- What a commit says of itself where the change alone cannot. -/
inductive OperationTag where
  | derive | append | overwrite | restore | rewrite | update | reserve
  deriving DecidableEq, Repr

/-- A version about to be committed. -/
structure Change where
  next : Manifest
  operation : OperationTag := .derive
  firstNewFragment : Nat := 0
  restoredVersion : Nat := 0
  reservedFragments : Nat := 0

/-- Fragments with an id the parent does not have. -/
def addedFragments (parent next : Manifest) : List DataFragment :=
  next.fragments.filter (fun f => (lastWithId parent.fragments f.id).isNone)

/-- Fragments whose message is not the parent's. -/
def changedFragments (parent next : Manifest) : List DataFragment :=
  next.fragments.filter (fun f =>
    (lastWithId parent.fragments f.id).any (fun was =>
      codec.encodeFragment f ≠ codec.encodeFragment was))

/-- Fragments of the parent whose id is gone. -/
def droppedFragments (parent next : Manifest) : List DataFragment :=
  parent.fragments.filter (fun f => f.id ∉ next.fragments.map (·.id))

/-- The files of a changed fragment that its old form does not have. -/
def newFiles (parent : Manifest) (f : DataFragment) : List DataFile :=
  let old := ((parent.fragment? f.id).map (·.files)).getD []
  f.files.filter (fun file => file.path ∉ old.map (·.path))

/-- The fields of those files, as a set. -/
def modifiedFields (parent : Manifest) (changed : List DataFragment) : List Nat :=
  ascending (((changed.flatMap (newFiles parent)).flatMap (·.fields)).filterMap
    (fun id => if 0 ≤ id then some id.toNat else none))

/-- Where nothing changed but field metadata: its changes, field by field. -/
def fieldMetadataChange (parent next : Manifest) : Option Bytes :=
  let bare := fun (f : Field) => codec.encodeField { f with metadata := [] }
  if parent.fields.length = next.fields.length &&
      parent.fragments.length = next.fragments.length &&
      parent.schemaMetadata = next.schemaMetadata &&
      (parent.fields.zip next.fields).all (fun p => bare p.1 = bare p.2) &&
      (parent.fragments.zip next.fragments).all
        (fun p => codec.encodeFragment p.1 = codec.encodeFragment p.2) then
    some ((parent.fields.zip next.fields).flatMap (fun p =>
      let changes := updateMap p.1.metadata p.2.metadata
      if changes = [] then []
      else Wire.putBytes 9 (Wire.putUint 1 ((p.2.id % 2 ^ 32).toNat) ++
        Wire.putBytes 2 changes)))
  else none

/-- An overwrite: the config entries are those the version before has not. -/
def overwriteMessage (priorConfig : StringMap String) (next : Manifest) : Bytes :=
  putFragments codec 1 next.fragments ++ (putSchema codec 2 next ++ (putSchemaMetadata 3 next ++
    (next.config.filter (fun e => priorConfig.lookup e.1 ≠ some e.2)).flatMap
      (fun e => putEntry 4 e.1 (textBytes e.2))))

/-- One group: what is replaced, then what replaces it. A fragment rewritten in place is in both. -/
def rewriteMessage (parent next : Manifest) : Bytes :=
  let inPlace := (changedFragments codec parent next).flatMap (fun f =>
    Wire.putBytes 1 (((lastWithId parent.fragments f.id).map codec.encodeFragment).getD []) ++
      Wire.putBytes 2 (codec.encodeFragment f))
  Wire.putBytes 3 (putFragments codec 1 (droppedFragments parent next) ++
    (inPlace ++ putFragments codec 2 (addedFragments parent next)))

/-- A schema change: a projection where no data was written, a merge elsewhere. -/
def schemaMessage (parent next : Manifest) : OpKind × Bytes :=
  let changed := changedFragments codec parent next
  if addedFragments parent next = [] && droppedFragments parent next = [] &&
      changed.all (fun f => newFiles parent f = []) then
    (.project, putSchema codec 1 next ++
      Wire.putUint 2 (if projectTightensNullability parent next then 0 else 1))
  else
    (.merge, putFragments codec 1 next.fragments ++ (putSchema codec 2 next ++
      (putSchemaMetadata 3 next ++
        Wire.putUint 4 (if mergeIntroducesRequiredField parent next then 0 else 1))))

/-- The indices `next` has and `parent` has not, or has with another message. -/
def createdIndices (parent next : Manifest) : List IndexMetadata :=
  next.indices.filter (fun i =>
    (parent.indices.reverse.find? (fun o => o.uuid = i.uuid)).map codec.encodeIndex ≠
      some (codec.encodeIndex i))

/-- The indices `parent` has that `next` has not, or replaced. -/
def droppedIndices (parent next : Manifest) : List IndexMetadata :=
  parent.indices.filter (fun i =>
    (next.indices.find? (fun n => n.uuid = i.uuid)).map codec.encodeIndex ≠
      some (codec.encodeIndex i))

/-- The fragments and the schema as they were: indices, or config and metadata. -/
def metadataMessage (parent next : Manifest) (fieldMetadata : Bytes) : OpKind × Bytes :=
  let created := (createdIndices codec parent next).flatMap
    (fun i => Wire.putBytes 1 (codec.encodeIndex i))
  let dropped := (droppedIndices codec parent next).flatMap
    (fun i => Wire.putBytes 2 (codec.encodeIndex i))
  let part := fun number (update : Bytes) =>
    if update = [] then [] else Wire.putBytes number update
  if created ≠ [] || dropped ≠ [] then (.createIndex, created ++ dropped)
  else
    (.updateConfig, part 6 (updateMap (asBytes parent.config) (asBytes next.config)) ++
      (part 7 (updateMap (asBytes parent.tableMetadata) (asBytes next.tableMetadata)) ++
        (part 8 (updateMap parent.schemaMetadata next.schemaMetadata) ++ fieldMetadata)))

/-- The operation read off a change, with its message. -/
def deriveOperation (parent : Option Manifest) (change : Change) : OpKind × Bytes :=
  let next := change.next
  match change.operation, parent with
  | .reserve, _ => (.reserveFragments, Wire.putUint 1 change.reservedFragments)
  | .append, _ => (.append, putFragments codec 1 (next.fragments.drop change.firstNewFragment))
  | .restore, _ => (.restore, Wire.putUint 1 change.restoredVersion)
  | _, none => (.overwrite, overwriteMessage codec [] next)
  | .overwrite, some parent => (.overwrite, overwriteMessage codec parent.config next)
  | .rewrite, some parent => (.rewrite, rewriteMessage codec parent next)
  | tag, some parent =>
    let added := addedFragments parent next
    let changed := changedFragments codec parent next
    let removed := (droppedFragments parent next).map (·.id)
    let sameSchema := putSchema codec 1 parent = putSchema codec 1 next
    let fieldMetadata := if sameSchema then none else fieldMetadataChange codec parent next
    let update := tag = .update
    if !sameSchema && fieldMetadata.isNone then schemaMessage codec parent next
    else if !update && added ≠ [] && removed = [] && changed = [] then
      (.append, putFragments codec 1 added)
    else if !update && added = [] && changed.all (fun f => newFiles parent f = []) &&
        (changed ≠ [] || removed ≠ []) then
      (.delete, putFragments codec 1 changed ++ putIds 2 removed)
    else if update || added ≠ [] || removed ≠ [] || changed ≠ [] then
      (.update, putIds 1 removed ++ (putFragments codec 2 changed ++
        (putFragments codec 3 added ++ putIds 4 (modifiedFields parent changed))))
    else metadataMessage codec parent next (fieldMetadata.getD [])

end Derive

section Decode

variable (codec : Codec)

def decodeFragment (f : Wire.Field) : Except String DataFragment :=
  match codec.decodeFragment f.data with
  | some fragment => .ok fragment
  | none => .error "Invalid user input: a fragment of the transaction could not be decoded"

/-- A repeated number: packed, or one at a time. -/
def varintsOf (f : Wire.Field) : List Nat :=
  if f.wire = 0 then [f.value] else Wire.readVarints f.data

/-- The last value of a field in a message. -/
def lastOf (number : Nat) (fields : List Wire.Field) : Option Wire.Field :=
  fields.reverse.find? (fun e => e.number = number)

/-- A map entry, key and value. -/
def mapEntry (f : Wire.Field) : String × Bytes :=
  let parts := (Wire.readFields f.data).1
  (((lastOf 1 parts).map (fun e => codec.text e.data)).getD "",
    ((lastOf 2 parts).map (·.data)).getD [])

/-- An entry of an update, removed where it has no value. -/
def updateEntry (e : Wire.Field) : String × Option String :=
  let parts := (Wire.readFields e.data).1
  (((lastOf 1 parts).map (fun kv => codec.text kv.data)).getD "",
    (lastOf 2 parts).map (fun kv => codec.text kv.data))

def decodeUpdateMap (f : Wire.Field) : UpdateMap :=
  let parts := (Wire.readFields f.data).1
  { entries := (parts.filter (fun e => e.number = 1)).map (updateEntry codec)
    replace := (lastOf 2 parts).any (fun e => e.value ≠ 0) }

/-- The first uuid of sixteen bytes, as a number. -/
def uuidOf (f : Wire.Field) : Option Nat :=
  ((Wire.readFields f.data).1.find? (fun e => e.number = 1 && e.data.length = 16)).map
    (fun e => Wire.littleEndian e.data)

/-- A group of a rewrite, its fragments in the order they come in. -/
def decodeGroup (f : Wire.Field) : Except String RewriteGroup :=
  (Wire.readFields f.data).1.foldlM
    (fun group g =>
      if g.number = 1 then
        (decodeFragment codec g).map
          (fun x => { group with oldFragments := group.oldFragments ++ [x] })
      else if g.number = 2 then
        (decodeFragment codec g).map
          (fun x => { group with newFragments := group.newFragments ++ [x] })
      else .ok group)
    { oldFragments := [], newFragments := [] }

/-- One part of an index a rewrite wrote anew. -/
def rewrittenPart (ri : RewrittenIndex) (g : Wire.Field) : RewrittenIndex :=
  if g.number = 1 then { ri with oldId := (uuidOf g).getD ri.oldId }
  else if g.number = 2 then { ri with newId := (uuidOf g).getD ri.newId }
  else if g.number = 3 then
    let parts := (Wire.readFields g.data).1
    { ri with
      detailsTypeUrl := ((lastOf 1 parts).map (fun a => codec.text a.data)).getD ri.detailsTypeUrl
      details := ((lastOf 2 parts).map (fun a => codec.details a.data)).getD ri.details }
  else if g.number = 4 then { ri with indexVersion := g.value % 2 ^ 32 }
  else ri

def decodeRewritten (f : Wire.Field) : RewrittenIndex :=
  (Wire.readFields f.data).1.foldl (rewrittenPart codec) { oldId := 0, newId := 0 }

/-- One field of an operation that says how to change metadata; the lower numbers are the deprecated
    forms. -/
def configPart (op : Operation) (f : Wire.Field) : Operation :=
  match f.number with
  | 1 =>
    let old := op.configUpdates.getD {}
    let (key, value) := mapEntry codec f
    { op with configUpdates := some { old with
        entries := old.entries ++ [(key, some (codec.text value))] } }
  | 2 =>
    let old := op.configUpdates.getD {}
    { op with configUpdates := some { old with
        entries := old.entries ++ [(codec.text f.data, none)] } }
  | 3 =>
    let old := op.schemaMetadataUpdates.getD { replace := true }
    let (key, value) := mapEntry codec f
    { op with schemaMetadataUpdates := some { old with
        entries := old.entries ++ [(key, some (codec.text value))] } }
  | 6 => { op with configUpdates := some (decodeUpdateMap codec f) }
  | 7 => { op with tableMetadataUpdates := some (decodeUpdateMap codec f) }
  | 8 => { op with schemaMetadataUpdates := some (decodeUpdateMap codec f) }
  | 9 =>
    let parts := (Wire.readFields f.data).1
    let id := toI32 (((lastOf 1 parts).map (·.value)).getD 0)
    let update := ((lastOf 2 parts).map (decodeUpdateMap codec)).getD {}
    let others := op.fieldMetadataUpdates.filter (fun e => e.1 ≠ id)
    { op with fieldMetadataUpdates := others.orderedInsert (fun a b => a.1 ≤ b.1) (id, update) }
  | _ => op

/-- A replaced file and the fragment it is of. -/
def decodeReplacement (f : Wire.Field) : Except String (Nat × DataFile) :=
  let parts := (Wire.readFields f.data).1
  match (lastOf 2 parts).bind (fun g => codec.decodeFile g.data) with
  | some file => .ok (((lastOf 1 parts).map (·.value)).getD 0, file)
  | none => .error "Invalid user input: a DataReplacementGroup has no new file"

def decodeOverlayGroup (f : Wire.Field) : Nat × List OverlayMessage :=
  let parts := (Wire.readFields f.data).1
  (((lastOf 1 parts).map (·.value)).getD 0,
    (parts.filter (fun g => g.number = 2)).map (fun g => codec.overlay g.data))

def decodeOffsets (f : Wire.Field) : Nat × (Nat → Except String (List Nat)) :=
  let parts := (Wire.readFields f.data).1
  (((lastOf 1 parts).map (·.value)).getD 0,
    codec.offsets (((lastOf 2 parts).map (·.data)).getD []))

/-- The deprecated form of a rewrite: its fields are those of the first group. -/
def firstGroup (op : Operation) (update : RewriteGroup → RewriteGroup) : Operation :=
  match op.groups with
  | [] => { op with groups := [update { oldFragments := [], newFragments := [] }] }
  | group :: rest => { op with groups := update group :: rest }

/-- Fragments put where an operation adds them. -/
def putAdded (op : Operation) (l : List DataFragment) : Operation :=
  { op with fragments := op.fragments ++ l }

/-- Fragments put where an operation carries changed ones. -/
def putUpdated (op : Operation) (l : List DataFragment) : Operation :=
  { op with updatedFragments := op.updatedFragments ++ l }

def putCreated (op : Operation) (l : List IndexMetadata) : Operation :=
  { op with newIndices := op.newIndices ++ l }

def putDropped (op : Operation) (l : List IndexMetadata) : Operation :=
  { op with removedIndices := op.removedIndices ++ l }

def decodeIndex (f : Wire.Field) : Except String IndexMetadata :=
  match codec.decodeIndex f.data with
  | some index => .ok index
  | none => .error "Invalid user input: an index of the transaction could not be decoded"

def deletePart (op : Operation) (f : Wire.Field) : Except String Operation :=
  if f.number = 1 then (decodeFragment codec f).map (fun x => putUpdated op [x])
  else if f.number = 2 then .ok { op with removedIds := op.removedIds ++ varintsOf f }
  else .ok op

/-- The first entry of a key stays. -/
def schemaMetadataPart (op : Operation) (f : Wire.Field) : Operation :=
  let (key, value) := mapEntry codec f
  let old := op.schemaMetadata.getD []
  { op with schemaMetadata := some (if (old.lookup key).isSome then old else old ++ [(key, value)]) }

def overwritePart (op : Operation) (f : Wire.Field) : Except String Operation :=
  if f.number = 1 then (decodeFragment codec f).map (fun x => putAdded op [x])
  else if f.number = 3 then .ok (schemaMetadataPart codec op f)
  else if f.number = 4 then
    let (key, value) := mapEntry codec f
    .ok { op with configUpserts := mapInsert op.configUpserts key (codec.text value) }
  else if f.number = 5 then
    .ok { op with initialBases := op.initialBases ++ [codec.basePath f.data] }
  else .ok op

def mergePart (op : Operation) (f : Wire.Field) : Except String Operation :=
  if f.number = 1 then (decodeFragment codec f).map (fun x => putAdded op [x])
  else if f.number = 3 then .ok (schemaMetadataPart codec op f)
  else if f.number = 4 then .ok { op with preservesNullability := f.value ≠ 0 }
  else .ok op

def createIndexPart (op : Operation) (f : Wire.Field) : Except String Operation :=
  if f.number = 1 then (decodeIndex codec f).map (fun x => putCreated op [x])
  else if f.number = 2 then (decodeIndex codec f).map (fun x => putDropped op [x])
  else .ok op

def updatePart (op : Operation) (f : Wire.Field) : Except String Operation :=
  if f.number = 1 then .ok { op with removedIds := op.removedIds ++ varintsOf f }
  else if f.number = 2 then (decodeFragment codec f).map (fun x => putUpdated op [x])
  else if f.number = 3 then (decodeFragment codec f).map (fun x => putAdded op [x])
  else if f.number = 4 then .ok { op with fieldsModified := op.fieldsModified ++ varintsOf f }
  else if f.number = 7 then .ok { op with rewriteColumns := f.value = 1 }
  else if f.number = 10 then
    .ok { op with updatedFragmentOffsets := op.updatedFragmentOffsets ++ [decodeOffsets codec f] }
  else .ok op

def rewritePart (op : Operation) (f : Wire.Field) : Except String Operation :=
  if f.number = 1 then
    (decodeFragment codec f).map (fun x =>
      firstGroup op (fun g => { g with oldFragments := g.oldFragments ++ [x] }))
  else if f.number = 2 then
    (decodeFragment codec f).map (fun x =>
      firstGroup op (fun g => { g with newFragments := g.newFragments ++ [x] }))
  else if f.number = 3 then
    (decodeGroup codec f).map (fun group => { op with groups := op.groups ++ [group] })
  else if f.number = 4 then
    .ok { op with rewrittenIndices := op.rewrittenIndices ++ [decodeRewritten codec f] }
  else .ok op

/-- One field of an operation's message. The fields of a schema are decoded after the others. -/
def decodePart (op : Operation) (f : Wire.Field) : Except String Operation :=
  match op.kind with
  | .append =>
    if f.number = 1 then (decodeFragment codec f).map (fun x => putAdded op [x]) else .ok op
  | .delete => deletePart codec op f
  | .overwrite => overwritePart codec op f
  | .merge => mergePart codec op f
  | .project =>
    .ok (if f.number = 2 then { op with preservesNullability := f.value ≠ 0 } else op)
  | .createIndex => createIndexPart codec op f
  | .restore => .ok (if f.number = 1 then { op with restoreVersion := f.value } else op)
  | .reserveFragments => .ok (if f.number = 1 then { op with reserve := f.value } else op)
  | .update => updatePart codec op f
  | .rewrite => rewritePart codec op f
  | .updateBases =>
    .ok (if f.number = 1 then { op with newBases := op.newBases ++ [codec.basePath f.data] } else op)
  | .updateConfig => .ok (configPart codec op f)
  | .dataReplacement =>
    if f.number = 1 then
      (decodeReplacement codec f).map (fun r => { op with replacements := op.replacements ++ [r] })
    else .ok op
  | .dataOverlay =>
    .ok (if f.number = 1 then
      { op with overlayGroups := op.overlayGroups ++ [decodeOverlayGroup codec f] } else op)
  | .clone => .ok op

/-- The field of a message that holds the schema. -/
def schemaNumber : OpKind → Option Nat
  | .overwrite | .merge => some 2
  | .project => some 1
  | _ => none

def decodeSchema : List Wire.Field → Except String (List Field)
  | [] => .ok []
  | f :: rest =>
    match codec.decodeField f.data with
    | none => .error "Invalid user input: a schema field of the transaction could not be decoded"
    | some field => do
      let others ← decodeSchema rest
      return field :: others

/-- An operation read from its message. -/
def decodeOperation (kind : OpKind) (message : Bytes) : Except String Operation := do
  ensure (kind ≠ .clone)
    ("LanceDataset.commit of " ++ operationName kind ++ " is not supported")
  let (fields, bad) := Wire.readFields message
  let op ← fields.foldlM (decodePart codec) { kind := kind }
  ensure (!bad) "Invalid user input: the transaction's operation could not be decoded"
  let schema ← decodeSchema codec (fields.filter (fun f => some f.number = schemaNumber kind))
  return { op with schema := schema }

end Decode

end NanoLance
