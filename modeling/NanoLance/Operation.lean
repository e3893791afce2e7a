import NanoLance.Manifest

/-!
# Transaction Operations

A transaction's operation, decoded. One record holds every part an operation
can have; which parts are set depends on its kind. The conflict checks and the
function that applies an operation read the same record.

Messages that are decoded only when the operation is applied (base paths,
overlays, the row bitmap of an update) are held as what their decoder returns.

## Main definitions

* `RewriteGroup`, `RewrittenIndex`: What a rewrite replaces.
-/

namespace NanoLance

/-- The operations, by their field in a transaction. -/
inductive OpKind where
  | append | delete | overwrite | createIndex | rewrite | merge | restore | reserveFragments
  | update | project | updateConfig | dataReplacement | clone | updateBases | dataOverlay
  deriving DecidableEq, Repr

/-- Entries to set, or to remove where the value is absent; `replace` empties the map first. -/
structure UpdateMap where
  entries : List (String × Option String) := []
  replace : Bool := false
  deriving DecidableEq, Repr

/-- Replace (or merge into) `target` by `update`, entry by entry. -/
def applyUpdateMap {α : Type} (convert : String → α) (target : StringMap α) (update : UpdateMap) :
    StringMap α :=
  update.entries.foldl
    (fun acc entry =>
      match entry.2 with
      | some value => mapInsert acc entry.1 (convert value)
      | none => mapErase acc entry.1)
    (if update.replace then [] else target)

structure RewriteGroup where
  oldFragments : List DataFragment
  newFragments : List DataFragment
  deriving DecidableEq, Repr

structure RewrittenIndex where
  oldId : Nat
  newId : Nat
  detailsTypeUrl : String := ""
  details : IndexDetails := .bytes []
  indexVersion : Nat := 0
  deriving DecidableEq, Repr

/-- Every part of a decoded operation; which are set depends on its kind. -/
structure Operation where
  kind : OpKind
  /-- Append, Overwrite, Merge; Update's new fragments. -/
  fragments : List DataFragment := []
  /-- Delete, Update. -/
  updatedFragments : List DataFragment := []
  /-- Delete's deleted, Update's removed. -/
  removedIds : List Nat := []
  /-- Overwrite, Merge, Project. -/
  schema : List Field := []
  /-- Overwrite, Merge. -/
  schemaMetadata : Option (StringMap Bytes) := none
  configUpserts : StringMap String := []
  initialBases : List (Except String BasePath) := []
  /-- Update. -/
  fieldsModified : List Nat := []
  rewriteColumns : Bool := false
  /-- Update: per updated fragment the offsets of the rows it changed, decoded against the
      fragment's row count. -/
  updatedFragmentOffsets : List (Nat × (Nat → Except String (List Nat))) := []
  /-- Rewrite. -/
  groups : List RewriteGroup := []
  rewrittenIndices : List RewrittenIndex := []
  restoreVersion : Nat := 0
  reserve : Nat := 0
  /-- UpdateConfig. -/
  configUpdates : Option UpdateMap := none
  tableMetadataUpdates : Option UpdateMap := none
  schemaMetadataUpdates : Option UpdateMap := none
  fieldMetadataUpdates : List (Int × UpdateMap) := []
  /-- DataReplacement. -/
  replacements : List (Nat × DataFile) := []
  /-- UpdateBases. -/
  newBases : List (Except String BasePath) := []
  /-- DataOverlay: per group, the fragment and its new overlays. -/
  overlayGroups : List (Nat × List OverlayMessage) := []
  /-- CreateIndex. -/
  newIndices : List IndexMetadata := []
  removedIndices : List IndexMetadata := []
  /-- Project, Merge. -/
  preservesNullability : Bool := false

/-- The kinds whose message carries a schema, which the decoder sets for them even when it is empty
    and for no other. -/
def Operation.hasSchema (op : Operation) : Bool :=
  op.kind = .overwrite || op.kind = .merge || op.kind = .project

/-- Lance's name for an operation. -/
def operationName : OpKind → String
  | .append => "Append"
  | .delete => "Delete"
  | .overwrite => "Overwrite"
  | .createIndex => "CreateIndex"
  | .rewrite => "Rewrite"
  | .merge => "Merge"
  | .restore => "Restore"
  | .reserveFragments => "ReserveFragments"
  | .update => "Update"
  | .project => "Project"
  | .updateConfig => "UpdateConfig"
  | .dataReplacement => "DataReplacement"
  | .updateBases => "UpdateBases"
  | .dataOverlay => "DataOverlay"
  | .clone => "an operation"

end NanoLance
