import NanoLance.Lib.Lists

/-!
# Dataset Manifests

The manifest of one dataset version, as the table layer holds it in memory
after decoding. A version is a schema, a list of fragments, and a list of
indices; everything a commit does is an edit of one of the three.

The records keep the source's split between a value and its presence bit only
where the source reads the two apart. A deletion file and the high-water mark
are read only when present, so they are options here. An index's coverage is
read without looking at its presence bit in several places, so it keeps both.

A fragment carries wire bytes this codec does not model, and two of the fields
inside them are decoded on demand: the data overlays (field 11) and the row
metadata of a dataset with stable row ids. Both are held decoded. A message
the decoder refuses is `malformed` with the decoder's error, so the error
paths of the readers remain.

## Main definitions

* `startsWith`, `endsWith`: How a name begins and ends.

## Theorems

* `mem_sortFragments`, `sortFragments_perm`: Sorting keeps the fragments.
* `find_sortFragments`: Sorting keeps which fragment an id finds.
-/

namespace NanoLance

/-- Raw bytes of a message kept as read. -/
abbrev Bytes := List UInt8

/-- A map with string keys, each key at most once. -/
abbrev StringMap (α : Type) := List (String × α)

/-- `target[key] = value`. -/
def mapInsert {α : Type} (target : StringMap α) (key : String) (value : α) : StringMap α :=
  (key, value) :: target.filter (fun e => e.1 ≠ key)

/-- `target.erase(key)`. -/
def mapErase {α : Type} (target : StringMap α) (key : String) : StringMap α :=
  target.filter (fun e => e.1 ≠ key)

def startsWith (s start : String) : Bool := start.toList.isPrefixOf s.toList

def endsWith (s suffix : String) : Bool := suffix.toList.isSuffixOf s.toList

/-- One field of the schema. Top-level fields have parent `-1`. -/
structure Field where
  name : String
  logicalType : String := ""
  id : Int
  parentId : Int := -1
  nullable : Bool := true
  metadata : StringMap Bytes := []
  deriving DecidableEq, Repr

/-- A data file of a fragment: the field ids it holds, column by column, and
    the base path it lives under (field 7 of its unknown bytes). -/
structure DataFile where
  path : String
  fields : List Int
  columnIndices : List Int := []
  fileMajorVersion : Nat := 2
  fileMinorVersion : Nat := 2
  fileSizeBytes : Nat := 0
  baseId : Option Nat := none
  deriving DecidableEq, Repr

/-- A fragment's deletion file. -/
structure DeletionFile where
  fileType : Nat := 0
  readVersion : Nat := 0
  id : Nat := 0
  numDeletedRows : Nat := 0
  baseId : Option Nat := none
  deriving DecidableEq, Repr

/-- A decoded data overlay: new values for some rows of some fields. -/
structure DataOverlay where
  dataFile : DataFile
  shared : Bool := true
  sharedOffsets : List Nat := []
  fieldOffsets : List (List Nat) := []
  committedVersion : Nat := 0
  deriving DecidableEq, Repr

/-- An overlay message as it stands in the wire bytes: what the decoder makes
    of it, or the error it refuses it with. -/
inductive OverlayMessage where
  | decoded (overlay : DataOverlay)
  | malformed (error : String)
  deriving DecidableEq, Repr

/-- A row id or row version sequence as it stands in the wire bytes. -/
inductive RowSequence where
  | values (rows : List Nat)
  | malformed (error : String)
  deriving DecidableEq, Repr

/-- The row metadata of a fragment of a dataset with stable row ids. -/
structure FragmentRowMeta where
  rowIds : Option RowSequence := none
  external : Bool := false
  created : Option RowSequence := none
  lastUpdated : Option RowSequence := none
  deriving DecidableEq, Repr

/-- A fragment: its data files, its rows, the rows deleted from it, and the
    two parts of its unknown bytes that are decoded on demand. -/
structure DataFragment where
  id : Nat
  files : List DataFile := []
  physicalRows : Nat := 0
  deletionFile : Option DeletionFile := none
  overlays : List OverlayMessage := []
  rowMeta : FragmentRowMeta := {}
  deriving DecidableEq, Repr

/-- One group of a fragment reuse version: the old rows that survived, and the
    fragments before and after with their physical row counts. -/
structure ReuseGroup where
  changedRowAddrs : List Nat
  oldFragments : List (Nat × Nat)
  newFragments : List (Nat × Nat)
  deriving DecidableEq, Repr

/-- One compaction's step in the fragment reuse index. -/
structure ReuseVersion where
  datasetVersion : Nat
  groups : List ReuseGroup
  deriving DecidableEq, Repr

/-- The message of an index's details: a fragment reuse index's versions when
    they are stored inline, or bytes no table operation looks into. -/
inductive IndexDetails where
  | bytes (value : Bytes)
  | reuseInline (versions : List ReuseVersion)
  | reuseExternal
  deriving DecidableEq, Repr

/-- One index segment: the fields it is on, the version it was built at, and
    the fragments it covers, ascending. -/
structure IndexMetadata where
  uuid : Nat
  name : String
  fields : List Int := []
  datasetVersion : Nat := 0
  hasFragmentBitmap : Bool := true
  fragmentIds : List Nat := []
  fragmentBitmapChanged : Bool := false
  detailsTypeUrl : String := ""
  details : IndexDetails := .bytes []
  indexVersion : Nat := 0
  createdAt : Nat := 0
  files : List (String × Nat) := []
  baseId : Option Nat := none
  deriving DecidableEq, Repr

/-- A registered base path. -/
structure BasePath where
  id : Nat
  name : Option String := none
  isDatasetRoot : Bool := true
  path : String
  deriving DecidableEq, Repr

/-- One version of the dataset. -/
structure Manifest where
  version : Nat := 0
  fields : List Field := []
  schemaMetadata : StringMap Bytes := []
  fragments : List DataFragment := []
  indices : List IndexMetadata := []
  indexSectionError : String := ""
  maxFragmentId : Option Nat := none
  nextRowId : Nat := 0
  readerFeatureFlags : BitVec 64 := 0
  writerFeatureFlags : BitVec 64 := 0
  config : StringMap String := []
  tableMetadata : StringMap String := []
  dataFormat : String × String := ("lance", "2.2")
  bases : List BasePath := []
  timestamp : Int := 0
  transactionFile : String := ""
  deriving DecidableEq, Repr

/-- `kFlagDeletionFiles`. -/
def flagDeletionFiles : BitVec 64 := 1

/-- `kFlagStableRowIds`. -/
def flagStableRowIds : BitVec 64 := 2

/-- The feature flag of data overlays. -/
def flagDataOverlays : BitVec 64 := 64

/-- Setting or clearing a feature flag. -/
def setFlag (flags flag : BitVec 64) (on : Bool) : BitVec 64 :=
  if on then flags ||| flag else flags &&& ~~~flag

/-- The fragments of a manifest in id order, equal ids in the order they came
    in: the `std::stable_sort` every commit ends with. -/
def sortFragments (fragments : List DataFragment) : List DataFragment :=
  fragments.insertionSort (fun a b => a.id ≤ b.id)

/-- The largest field id of a schema, `-1` when it has none. -/
def maxFieldId (fields : List Field) : Int :=
  fields.foldl (fun maxId f => max maxId f.id) (-1)

/-- A data file that holds one of the schema's fields. -/
def holdsField (fields : List Field) (file : DataFile) : Bool :=
  file.fields.any (fun id => fields.any (fun f => f.id = id))

/-- The files a fragment keeps: those that hold one of the schema's fields. -/
def keepFiles (fields : List Field) (fragment : DataFragment) : DataFragment :=
  { fragment with files := fragment.files.filter (holdsField fields) }

def isStable (m : Manifest) : Bool :=
  m.readerFeatureFlags &&& flagStableRowIds ≠ 0

/-- The flags a commit sets or clears are not the one of stable row ids. -/
theorem setFlag_stable (word flag : BitVec 64) (on : Bool) (h : flag &&& flagStableRowIds = 0)
    (hoff : ~~~flag &&& flagStableRowIds = flagStableRowIds) :
    setFlag word flag on &&& flagStableRowIds = word &&& flagStableRowIds := by
  unfold setFlag
  grind

theorem setFlag_deletions_stable (word : BitVec 64) (on : Bool) :
    setFlag word flagDeletionFiles on &&& flagStableRowIds = word &&& flagStableRowIds :=
  setFlag_stable word flagDeletionFiles on (by decide) (by decide)

/-- The fragment with an id, the first one if there were several. -/
def Manifest.fragment? (m : Manifest) (id : Nat) : Option DataFragment :=
  m.fragments.find? (fun f => f.id = id)

@[simp] theorem mem_sortFragments (f : DataFragment) (fragments : List DataFragment) :
    f ∈ sortFragments fragments ↔ f ∈ fragments := by
  rw [sortFragments, List.mem_insertionSort]

theorem sortFragments_perm (fragments : List DataFragment) :
    (sortFragments fragments).Perm fragments :=
  List.perm_insertionSort _ fragments

@[simp] theorem find_sortFragments (id : Nat) (fragments : List DataFragment) :
    (sortFragments fragments).find? (fun f => f.id = id)
      = fragments.find? (fun f => f.id = id) :=
  Lib.find_insertionSort (·.id) id fragments

end NanoLance
