import NanoLance.Columns
import NanoLance.Transaction

/-!
# Building a Version

The manifest that `commit_dataset_version_once` publishes, and the one a
restore does. A writer appends its fragments to the prior version, or replaces
the prior version by them; either way the config, the table metadata, the base
paths and the high-water marks of the prior version carry over.

The version number and the prior manifest are arguments here. Where they come
from, and what other writers do in between, is another matter.

Whether the manifest is one this library may write (its feature flags) is not
modelled, nor are the time and the name of the writer that a version records.

## Main definitions

* `CommitMode`, `CommitExtras`, `VersionRequest`: What a writer asks for.
-/

namespace NanoLance

open List Lib

inductive CommitMode where
  | create
  | append
  | overwrite
  | createOrAppend
  deriving DecidableEq, Repr

structure CommitExtras where
  schemaMetadata : Option (StringMap Bytes) := none
  tableMetadata : StringMap String := []
  initialConfig : StringMap String := []
  stableRowIds : Bool := false
  initialBases : List BasePath := []
  deriving DecidableEq, Repr

/-- A version a writer asks for: the schema its files were written with, and the files. -/
structure VersionRequest where
  path : String := ""
  mapping : List LanceField
  fragments : List NewFragment
  mode : CommitMode
  extras : CommitExtras := {}
  deriving DecidableEq, Repr

/-- A field as the schema check names it. -/
def describeField (f : Field) : String :=
  s!"'{f.name}' (id {f.id}, parent {f.parentId}, {f.logicalType}" ++
    (if f.nullable then ", nullable" else ", not nullable") ++ ")"

/-- The writer's fields against the dataset's, in order. -/
def sameSchema : List Field → List Field → Except String Unit
  | [], [] => .ok ()
  | [], theirs :: _ =>
    .error ("schema mismatch: the dataset has field " ++ describeField theirs ++
      " that this writer lacks")
  | ours :: _, [] =>
    .error ("schema mismatch: this writer has field " ++ describeField ours ++
      " that the dataset lacks")
  | ours :: rest, theirs :: others => do
    ensure (ours.id = theirs.id && ours.parentId = theirs.parentId && ours.name = theirs.name &&
        ours.logicalType = theirs.logicalType && ours.nullable = theirs.nullable)
      ("schema mismatch: field " ++ describeField ours ++ " where the dataset has " ++
        describeField theirs)
    sameSchema rest others

/-- A create-or-append is one or the other. -/
def effectiveMode (exists' : Bool) (mode : CommitMode) : CommitMode :=
  match mode with
  | .createOrAppend => if exists' then .append else .create
  | other => other

/-- The checks of a request against the dataset it finds. -/
def requestValid (prior : Option Manifest) (request : VersionRequest) : Except String Unit := do
  let mode := effectiveMode prior.isSome request.mode
  ensure (!(mode = .create && prior.isSome)) ("dataset already exists: " ++ request.path)
  ensure (!(mode = .append && prior.isNone)) "append requested but no manifest version exists"
  match prior with
  | none => .ok ()
  | some m =>
    if request.mode = .createOrAppend then
      sameSchema (request.mapping.map makeManifestField) m.fields
    else .ok ()
    ensure (!(request.extras.stableRowIds && mode = .append && !isStable m))
      ("This dataset was not created with the stable row ids feature.  Please run " ++
        "`migrate_to_stable_row_ids` before attempting to use stable row ids")

/-- The id of the first new fragment. An overwrite looks at the high-water mark alone. -/
def firstAddedId (prior : Option Manifest) (mode : CommitMode) : Nat :=
  match prior with
  | none => 0
  | some m =>
    if mode = .append then
      let next := m.fragments.foldl (fun next f => max next (f.id + 1))
        (firstFragmentIdAfterIndices m.indices)
      match m.maxFragmentId with
      | some id => max next (id + 1)
      | none => next
    else
      match m.maxFragmentId with
      | some id => id + 1
      | none => 0

/-- The row metadata of a new fragment of a dataset with stable row ids. -/
def newRowMeta (version nextRowId rows : Nat) : FragmentRowMeta :=
  { rowIds := some (.values (range' nextRowId rows))
    created := if rows = 0 then none else some (.values (replicate rows version))
    lastUpdated := if rows = 0 then none else some (.values (replicate rows version)) }

/-- The new fragments with the first row id after them. Fragment ids are 32-bit. -/
def newFragments (mapping : List LanceField) (version : Nat) (stable : Bool) :
    List NewFragment → Nat → Nat → Except String (List DataFragment × Nat)
  | [], _, nextRowId => .ok ([], nextRowId)
  | f :: rest, nextId, nextRowId => do
    ensure (nextId ≤ 2 ^ 32 - 1) "fragment id overflow"
    let added : DataFragment :=
      { id := nextId, physicalRows := f.rows, files := [manifestDataFile mapping f]
        rowMeta := if stable then newRowMeta version nextRowId f.rows else {} }
    let (others, last) ← newFragments mapping version stable rest (nextId + 1)
      (if stable then nextRowId + f.rows else nextRowId)
    return (added :: others, last)

/-- The mark of a version: the largest of its fragments' ids and the prior mark, absent when there
    is neither. -/
def builtMark (prior : Option Manifest) (fragments : List DataFragment) : Option Nat :=
  highWater (prior.bind (·.maxFragmentId)) fragments

/-- The manifest a version starts from, before the new fragments: what belongs to the table, and for
    an append all that the prior version holds. -/
def carriedOver (version : Nat) (prior : Option Manifest) (mode : CommitMode)
    (request : VersionRequest) : Manifest :=
  let table : Manifest :=
    match prior with
    | none =>
      { version := version
        bases := request.extras.initialBases
        config := request.extras.initialConfig }
    | some m =>
      { version := version
        config := m.config
        tableMetadata := m.tableMetadata
        bases := m.bases
        nextRowId := m.nextRowId }
  let data : Manifest :=
    match mode, prior with
    | .append, some m =>
      { table with
        fields := m.fields
        schemaMetadata := m.schemaMetadata
        dataFormat := m.dataFormat
        readerFeatureFlags := m.readerFeatureFlags
        writerFeatureFlags := m.writerFeatureFlags
        fragments := m.fragments
        indices := m.indices
        indexSectionError := m.indexSectionError }
    | _, _ => { table with fields := request.mapping.map makeManifestField }
  { data with
    tableMetadata := request.extras.tableMetadata.foldl (fun acc e => mapInsert acc e.1 e.2)
      data.tableMetadata
    schemaMetadata :=
      -- A create-or-append that appends keeps the dataset's.
      if request.mode = .createOrAppend && mode = .append then data.schemaMetadata
      else request.extras.schemaMetadata.getD data.schemaMetadata }

/-- The manifest of the next version. -/
def buildVersion (version : Nat) (prior : Option Manifest) (request : VersionRequest) :
    Except String Manifest := do
  requestValid prior request
  let mode := effectiveMode prior.isSome request.mode
  let stable := prior.any isStable || (request.extras.stableRowIds && mode ≠ .append)
  let start := carriedOver version prior mode request
  let (added, nextRowId) ← newFragments request.mapping version stable request.fragments
    (firstAddedId prior mode) start.nextRowId
  let fragments := start.fragments ++ added
  let deletions := fragments.any (fun f => f.deletionFile.isSome)
  let flags := fun (word : BitVec 64) =>
    let word := if stable then word ||| flagStableRowIds else word
    if deletions then word ||| flagDeletionFiles else word
  return { start with
    fragments := fragments
    nextRowId := if stable then nextRowId else start.nextRowId
    maxFragmentId := builtMark prior fragments
    readerFeatureFlags := flags start.readerFeatureFlags
    writerFeatureFlags := flags start.writerFeatureFlags }

/-- A version restored over the latest one: what it held, with the latest high-water marks. -/
def restoreManifest (version : Nat) (restored latest : Manifest) : Except String Manifest := do
  ensure (!(isStable latest && !isStable restored))
    (s!"Cannot restore version {version}: stable row ids were enabled after it, and turning them " ++
      "back off would let row addresses collide with ids this table has already used")
  return { restored with
    maxFragmentId :=
      match latest.maxFragmentId with
      | some id => some (max (restored.maxFragmentId.getD 0) id)
      | none => restored.maxFragmentId
    nextRowId := max restored.nextRowId latest.nextRowId }

/-- An append numbers after everything the prior version has. -/
theorem firstAddedId_append (m : Manifest) : firstAddedId (some m) .append = nextFragmentId m := by
  have hfold : ∀ (fragments : List DataFragment) (a b : Nat),
      fragments.foldl (fun next f => max next (f.id + 1)) (max a b) =
        max (fragments.foldl (fun next f => max next (f.id + 1)) a) b := by
    intro fragments
    induction fragments with
    | nil => exact fun a b => rfl
    | cons f rest ih => grind
  unfold firstAddedId nextFragmentId
  simp only [if_true]
  -- The source takes the same maximum from the other end.
  generalize firstFragmentIdAfterIndices m.indices = after
  cases m.maxFragmentId with
  | none => grind
  | some id => grind

/-- New fragments are numbered one after the other, in 32 bits. -/
theorem newFragments_ids {mapping : List LanceField} {version : Nat} {stable : Bool} :
    ∀ (fragments : List NewFragment) (nextId nextRowId : Nat) (out : List DataFragment × Nat),
      newFragments mapping version stable fragments nextId nextRowId = .ok out →
      out.1.map (·.id) = range' nextId fragments.length ∧ ∀ f ∈ out.1, f.id < 2 ^ 32 := by
  intro fragments
  induction fragments with
  | nil =>
    intro nextId nextRowId out h
    rw [newFragments, Except.ok.injEq] at h
    rw [← h]
    exact ⟨rfl, forall_mem_nil _⟩
  | cons f rest ih =>
    intro nextId nextRowId out h
    simp only [newFragments, bind_eq_ok, ensure_eq_ok, pure_eq_ok, decide_eq_true_eq] at h
    rcases h with ⟨_, hsmall, others, hothers, rfl⟩
    rcases ih _ _ others hothers with ⟨hids, hlow⟩
    refine ⟨?_, forall_mem_cons.mpr ⟨?_, hlow⟩⟩
    · rw [map_cons, hids, length_cons, range'_succ]
    · show nextId < 2 ^ 32
      omega

/-- The fragments, the indices and the mark of a version that is built. -/
theorem buildVersion_ok {version : Nat} {prior : Option Manifest} {request : VersionRequest}
    {out : Manifest} (h : buildVersion version prior request = .ok out) :
    ∃ added : List DataFragment,
      added.map (·.id) = range' (firstAddedId prior (effectiveMode prior.isSome request.mode))
        request.fragments.length ∧ (∀ f ∈ added, f.id < 2 ^ 32) ∧
      out.fragments = (carriedOver version prior (effectiveMode prior.isSome request.mode)
        request).fragments ++ added ∧
      out.indices = (carriedOver version prior (effectiveMode prior.isSome request.mode)
        request).indices ∧
      out.maxFragmentId = builtMark prior out.fragments := by
  simp only [buildVersion, bind_eq_ok, pure_eq_ok] at h
  rcases h with ⟨_, _, added, hadded, rfl⟩
  rcases newFragments_ids _ _ _ added hadded with ⟨hids, hsmall⟩
  exact ⟨added.1, hids, hsmall, rfl, rfl, rfl⟩

end NanoLance
