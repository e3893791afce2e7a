import NanoLance.Operation

/-!
# Conflict Checks

The verdict on a change against an operation another writer committed since
the version the change was made from. A compatible pair lets the change be
rebased onto the newer version; a retryable one has the caller run it again; an
incompatible one refuses it.

Each check below is the arm of the table for one kind of change. The rules
that hold for every kind come first, in `checkTxn`.

## Main definitions

* `Verdict`: The three answers.
* `deleteUpdateIds`, `rewriteIds`, `replacementIds`, `overlayIds`: The
  fragments an operation touches.
* `deleteCheck`, `updateCheck`, `createIndexCheck`, `rewriteCheck`, ...: One
  arm per kind of change.
-/

namespace NanoLance

inductive Verdict where
  | compatible
  | retryable
  | incompatible
  deriving DecidableEq, Repr

/-- The existing fragments a Delete or an Update changes or removes. -/
def deleteUpdateIds (op : Operation) : List Nat :=
  op.updatedFragments.map (·.id) ++ op.removedIds

/-- The existing fragments a Rewrite replaces. -/
def rewriteIds (op : Operation) : List Nat :=
  op.groups.flatMap (fun g => g.oldFragments.map (·.id))

def replacementIds (op : Operation) : List Nat :=
  op.replacements.map Prod.fst

def overlayIds (op : Operation) : List Nat :=
  op.overlayGroups.map Prod.fst

def intersects (a b : List Nat) : Bool :=
  b.any (fun id => id ∈ a)

/-- The fragments some indices cover, unless one records no coverage. -/
def indexFragments (indices : List IndexMetadata) : Option (List Nat) :=
  if indices.all (·.hasFragmentBitmap) then some (indices.flatMap (·.fragmentIds)) else none

def mayAlterNullability (op : Operation) : Bool :=
  (op.kind = .project || op.kind = .merge) && !op.preservesNullability

def suppliesValues (op : Operation) : Bool :=
  op.kind = .append || op.kind = .update || op.kind = .dataReplacement || op.kind = .dataOverlay

def UpdateMap.changes (update : UpdateMap) : Bool :=
  update.replace || !update.entries.isEmpty

def updatesSchemaOrFieldMetadata (op : Operation) : Bool :=
  op.kind = .updateConfig &&
    (op.schemaMetadataUpdates.any UpdateMap.changes ||
      op.fieldMetadataUpdates.any (fun kv => kv.2.changes))

/-- Config keys an Overwrite or an UpdateConfig sets. -/
def upsertedConfigKeys (op : Operation) : List String :=
  match op.kind with
  | .overwrite => op.configUpserts.map Prod.fst
  | .updateConfig =>
    ((op.configUpdates.getD {}).entries.filter (fun e => e.2.isSome)).map Prod.fst
  | _ => []

/-- Config keys an UpdateConfig removes. -/
def deletedConfigKeys (op : Operation) : List String :=
  match op.kind with
  | .updateConfig =>
    ((op.configUpdates.getD {}).entries.filter (fun e => e.2.isNone)).map Prod.fst
  | _ => []

/-- One side sets or removes a config key the other sets. -/
def upsertKeyConflict (a b : Operation) : Bool :=
  (upsertedConfigKeys a).any (fun k => k ∈ upsertedConfigKeys b || k ∈ deletedConfigKeys b) ||
    (upsertedConfigKeys b).any (fun k => k ∈ upsertedConfigKeys a || k ∈ deletedConfigKeys a)

def updateMapsConflict (a b : Option UpdateMap) : Bool :=
  match a, b with
  | some a, some b =>
    a.replace || b.replace || b.entries.any (fun e => e.1 ∈ a.entries.map Prod.fst)
  | _, _ => false

/-- Two UpdateConfigs that change the same table or schema metadata, or the
    metadata of the same field. -/
def modifiesSameMetadata (a b : Operation) : Bool :=
  a.kind = .updateConfig && b.kind = .updateConfig &&
    (updateMapsConflict a.tableMetadataUpdates b.tableMetadataUpdates ||
      (a.schemaMetadataUpdates.isSome && b.schemaMetadataUpdates.isSome) ||
      a.fieldMetadataUpdates.any (fun kv => kv.1 ∈ b.fieldMetadataUpdates.map Prod.fst))

def named (indices : List IndexMetadata) (name : String) : Bool :=
  indices.any (fun i => i.name = name)

/-- Two CreateIndex commits that add or drop the same names. -/
def indexNamesConflict (ours theirs : Operation) : Bool :=
  ours.newIndices.any (fun n =>
    named theirs.newIndices n.name ||
      (!named ours.removedIndices n.name && named theirs.removedIndices n.name)) ||
  theirs.newIndices.any (fun c =>
    !named theirs.removedIndices c.name && named ours.removedIndices c.name) ||
  ours.removedIndices.any (fun r => theirs.removedIndices.any (fun cr =>
    cr.uuid = r.uuid &&
      (ours.newIndices ++ theirs.newIndices).any (fun i => i.name = r.name || i.name = cr.name)))

/-- Retryable when the two sets of fragments meet. -/
def unlessDisjoint (a b : List Nat) : Verdict :=
  if intersects a b then .retryable else .compatible

def deleteCheck (ours theirs : Operation) : Verdict :=
  match theirs.kind with
  | .append | .reserveFragments | .project | .updateConfig | .createIndex => .compatible
  | .dataOverlay => .compatible -- deletions take precedence over overlays
  | .updateBases => .compatible
  | .rewrite => unlessDisjoint (deleteUpdateIds ours) (rewriteIds theirs)
  | .dataReplacement => unlessDisjoint (deleteUpdateIds ours) (replacementIds theirs)
  | .update | .delete => unlessDisjoint (deleteUpdateIds ours) (deleteUpdateIds theirs)
  | .merge => .retryable
  | .overwrite | .restore => .incompatible
  | .clone => .retryable

def updateCheck (ours theirs : Operation) : Verdict :=
  match theirs.kind with
  | .createIndex | .reserveFragments | .project | .updateConfig | .updateBases | .append =>
    .compatible
  | .dataOverlay =>
    -- An update that adds fragments is read as one that moves rows.
    if ours.fragments.isEmpty then .compatible
    else unlessDisjoint (deleteUpdateIds ours) (overlayIds theirs)
  | .rewrite => unlessDisjoint (deleteUpdateIds ours) (rewriteIds theirs)
  | .dataReplacement => unlessDisjoint (deleteUpdateIds ours) (replacementIds theirs)
  | .update | .delete => unlessDisjoint (deleteUpdateIds ours) (deleteUpdateIds theirs)
  | .merge => .retryable
  | .overwrite | .restore => .incompatible
  | .clone => .retryable

def createIndexCheck (ours theirs : Operation) : Verdict :=
  match theirs.kind with
  | .append | .dataOverlay | .updateBases | .delete | .update | .merge | .reserveFragments
  | .project | .updateConfig => .compatible
  | .createIndex => if indexNamesConflict ours theirs then .retryable else .compatible
  | .rewrite =>
    match indexFragments ours.newIndices with
    | none => .retryable
    | some covered => unlessDisjoint covered (rewriteIds theirs)
  | .dataReplacement =>
    -- The fields the file lists, and not the fields below them.
    let depended := ours.newIndices.flatMap (·.fields)
    if theirs.replacements.any (fun r => r.2.fields.any (fun field => field ∈ depended)) then
      .retryable
    else .compatible
  | .overwrite | .restore => .incompatible
  | .clone => .retryable

def rewriteCheck (ours theirs : Operation) : Verdict :=
  match theirs.kind with
  | .append | .reserveFragments | .project | .updateConfig | .updateBases => .compatible
  | .delete | .update => unlessDisjoint (rewriteIds ours) (deleteUpdateIds theirs)
  | .dataOverlay => unlessDisjoint (rewriteIds ours) (overlayIds theirs)
  | .rewrite => unlessDisjoint (rewriteIds ours) (rewriteIds theirs)
  | .dataReplacement => unlessDisjoint (rewriteIds ours) (replacementIds theirs)
  | .merge => .retryable
  | .createIndex =>
    match indexFragments theirs.newIndices with
    | none => .retryable
    | some covered => unlessDisjoint (rewriteIds ours) covered
  | .overwrite | .restore => .incompatible
  | .clone => .retryable

def mergeCheck (theirs : Operation) : Verdict :=
  match theirs.kind with
  | .createIndex | .reserveFragments | .updateConfig | .updateBases => .compatible
  | .update | .append | .delete | .rewrite | .merge | .dataReplacement | .dataOverlay => .retryable
  | .overwrite | .restore | .project => .incompatible
  | .clone => .retryable

def projectCheck (theirs : Operation) : Verdict :=
  match theirs.kind with
  | .append | .update | .delete | .updateConfig | .createIndex | .dataReplacement | .dataOverlay
  | .rewrite | .reserveFragments | .updateBases => .compatible
  | .merge | .project => .retryable
  | .overwrite | .restore => .incompatible
  | .clone => .retryable

def reserveCheck (theirs : Operation) : Verdict :=
  match theirs.kind with
  | .overwrite | .restore => .incompatible
  | .clone => .retryable
  | _ => .compatible

def restoreCheck (theirs : Operation) : Verdict :=
  match theirs.kind with
  | .clone => .retryable
  | _ => .compatible

def updateConfigCheck (ours theirs : Operation) : Verdict :=
  match theirs.kind with
  | .overwrite =>
    if ours.schemaMetadataUpdates.isSome || !ours.fieldMetadataUpdates.isEmpty ||
        upsertKeyConflict ours theirs then .incompatible
    else .compatible
  | .updateConfig =>
    if upsertKeyConflict ours theirs || modifiesSameMetadata ours theirs then .incompatible
    else .compatible
  | .clone => .retryable
  | _ => .compatible

def overwriteCheck (ours theirs : Operation) : Verdict :=
  match theirs.kind with
  | .overwrite => if upsertKeyConflict ours theirs then .incompatible else .retryable
  | .updateConfig => if upsertKeyConflict ours theirs then .incompatible else .compatible
  | .clone => .retryable
  | _ => .compatible

def appendCheck (theirs : Operation) : Verdict :=
  match theirs.kind with
  | .overwrite | .restore => .incompatible
  | .clone => .retryable
  | _ => .compatible

/-- The verdict on `ours` against `theirs`, committed first. -/
def checkTxn (ours theirs : Operation) : Verdict :=
  if (mayAlterNullability ours && suppliesValues theirs) ||
      (suppliesValues ours && mayAlterNullability theirs) then .retryable
  else if (ours.kind = .merge && updatesSchemaOrFieldMetadata theirs) ||
      (updatesSchemaOrFieldMetadata ours && theirs.kind = .merge) then .retryable
  else if theirs.kind = .clone then .compatible
  else
    match ours.kind with
    | .delete => deleteCheck ours theirs
    | .update => updateCheck ours theirs
    | .createIndex => createIndexCheck ours theirs
    | .rewrite => rewriteCheck ours theirs
    | .merge => mergeCheck theirs
    | .project => projectCheck theirs
    | .reserveFragments => reserveCheck theirs
    | .restore => restoreCheck theirs
    | .updateConfig => updateConfigCheck ours theirs
    | .overwrite => overwriteCheck ours theirs
    | .append => appendCheck theirs
    | .dataReplacement | .updateBases | .dataOverlay | .clone => .retryable

def sameDataFile (x y : DataFile) : Bool :=
  x.path = y.path && x.fields = y.fields && x.columnIndices = y.columnIndices &&
    x.fileMajorVersion = y.fileMajorVersion && x.fileMinorVersion = y.fileMinorVersion &&
    x.fileSizeBytes = y.fileSizeBytes

def sameDataFiles (a b : DataFragment) : Bool :=
  a.files.length = b.files.length && (a.files.zip b.files).all (fun f => sameDataFile f.1 f.2)

/-- The verdict when the change knows the rows it deletes: two changes that
    delete from one fragment go together when neither rewrites its data. -/
def checkTxnWithAffectedRows (ours theirs : Operation) (base : Manifest) : Verdict :=
  let both := (ours.kind = .delete || ours.kind = .update) &&
    (theirs.kind = .delete || theirs.kind = .update)
  if checkTxn ours theirs ≠ .retryable || !both then checkTxn ours theirs
  else if theirs.removedIds.any (fun id => id ∈ deleteUpdateIds ours) then .retryable
  else if theirs.updatedFragments.any (fun f => f.id ∈ deleteUpdateIds ours &&
      !(base.fragments.find? (fun b => b.id = f.id)).any (fun b => sameDataFiles b f)) then
    .retryable
  else .compatible

end NanoLance
