import NanoLance.Transaction

/-!
# Cleaning Up Old Versions

Removing the versions a policy selects, with the files nothing left in place
uses. Every manifest of the directory is read: those that stay say which files
are in use, those that go vouch for theirs. The files of the dataset's
directories are then listed, and each is removed or kept by its name, its age
and the two sets of names.

What a read of a version opens is defined beside it, from the reader's side:
the data files of the fragments, the files of their overlays, the deletion
files and everything under the directories of the indices. A branch reaches
this directory through a base path.

Paths are relative to the dataset's directory, spelled as the listing spells
them. Times are nanoseconds. The age and the modification time of each file are
those the walk read, whatever its clock said.
-/

namespace NanoLance

open Lib

/-- One file of a `_versions` directory, with the manifest it holds or the error of reading it. -/
structure VersionFile where
  name : String
  size : Nat := 0
  manifest : Except String Manifest
  /-- Whether the file is still there when it could not be read. -/
  stillThere : Bool := true

/-- The version a manifest's file name spells: the number itself, or twenty digits counting down
    from the largest one. -/
def parseManifestVersion (name : String) : Option Nat :=
  let chars := name.toList
  if chars.length ≤ ".manifest".length || !endsWith name ".manifest" then none
  else
    let digits := chars.take (chars.length - ".manifest".length)
    if !digits.all (fun c => c ∈ "0123456789".toList) then none
    else
      let parsed := digits.foldl (fun n c => n * 10 + (c.toNat - '0'.toNat)) 0
      if 2 ^ 64 ≤ parsed then none
      else if digits.length = 20 then some (2 ^ 64 - 1 - parsed)
      else some parsed

def isDetached (name : String) : Bool :=
  (parseManifestVersion name).isNone && startsWith name "d" && endsWith name ".manifest"

/-- A file found by walking one of the dataset's directories. -/
structure ListedFile where
  relative : String
  size : Nat := 0
  age : Int
  modifiedNs : Int

structure TagInfo where
  name : String
  branch : Option String := none
  version : Nat

/-- A branch: the versions it forked from along its lineage, and the manifests
    of its own directory. -/
structure BranchInfo where
  name : String
  identifier : List (Nat × String)
  versions : List VersionFile := []

/-- What the file system shows of one dataset directory: the branch it holds (empty for main), its
    manifests and files, and the tags and branches of its root. `canonical` is what the file system
    resolves a path to. -/
structure DatasetDir where
  own : String
  canonical : String → String
  branch : String := ""
  versions : List VersionFile
  tags : List TagInfo := []
  branches : List BranchInfo := []
  files : List ListedFile := []

/-- Every condition set must hold for a version to go. -/
structure CleanupPolicy where
  beforeTimestampNs : Option Int := none
  beforeVersion : Option Nat := none
  versions : Option (List Nat) := none
  deleteUnverified : Bool := false
  errorIfTaggedOldVersions : Bool := true
  deleteRateLimit : Option Nat := none

structure ReferencedFiles where
  dataPaths : List String := []
  deletePaths : List String := []
  txPaths : List String := []
  indexUuids : List String := []

def hexDigit (n : Nat) : Char := "0123456789abcdef".toList.getD (n % 16) '0'

/-- The text of a uuid, given as the number its sixteen bytes spell. -/
def uuidString (uuid : Nat) : String :=
  String.ofList ((List.range 16).flatMap (fun i =>
    (if i = 4 || i = 6 || i = 8 || i = 10 then ['-'] else []) ++
      [hexDigit (uuid / 256 ^ (15 - i) % 256 / 16), hexDigit (uuid / 256 ^ (15 - i) % 256)]))

def dataPath (path : String) : String := "data/" ++ path

/-- The files a manifest names, after those already referenced. The overlays of its fragments are
    not among them. -/
def reference (m : Manifest) (files : ReferencedFiles) : ReferencedFiles :=
  { dataPaths := files.dataPaths ++
      m.fragments.flatMap (fun f => f.files.map (fun file => dataPath file.path))
    deletePaths := files.deletePaths ++
      m.fragments.flatMap (fun f => (f.deletionFile.map (deletionPath f)).toList)
    txPaths := if m.transactionFile = "" then files.txPaths
      else files.txPaths ++ ["_transactions/" ++ m.transactionFile]
    indexUuids := files.indexUuids ++ m.indices.map (fun i => uuidString i.uuid) }

/-- The files some versions name, after those already referenced. -/
def referenceAll (manifests : List Manifest) (files : ReferencedFiles) : ReferencedFiles :=
  manifests.foldl (fun files m => reference m files) files

/-- A base path that is taken to be this directory. A relative one cannot be resolved from here, so
    it is. -/
def namesDatasetDir (ds : DatasetDir) (bases : List BasePath) : Option Nat → Bool
  | none => false
  | some id =>
    match bases.find? (fun base => base.id = id) with
    | none => false
    | some base =>
      if base.isDatasetRoot && !startsWith base.path "/" then true
      else base.isDatasetRoot && ds.canonical base.path = ds.own

/-- The files of this directory that a branch's manifest names. -/
def namedHere (ds : DatasetDir) (m : Manifest) : ReferencedFiles :=
  { dataPaths := m.fragments.flatMap (fun f =>
      (f.files.filter (fun file => namesDatasetDir ds m.bases file.baseId)).map
        (fun file => dataPath file.path))
    deletePaths := m.fragments.flatMap (fun f =>
      ((f.deletionFile.filter (fun d => namesDatasetDir ds m.bases d.baseId)).map
        (deletionPath f)).toList)
    indexUuids := (m.indices.filter (fun i => namesDatasetDir ds m.bases i.baseId)).map
      (fun i => uuidString i.uuid) }

def ReferencedFiles.isEmpty (files : ReferencedFiles) : Bool :=
  files.dataPaths.isEmpty && files.deletePaths.isEmpty && files.indexUuids.isEmpty

def ReferencedFiles.append (a b : ReferencedFiles) : ReferencedFiles :=
  { dataPaths := a.dataPaths ++ b.dataPaths
    deletePaths := a.deletePaths ++ b.deletePaths
    txPaths := a.txPaths ++ b.txPaths
    indexUuids := a.indexUuids ++ b.indexUuids }

/-- A version with the policy's conditions on it. -/
def selected (policy : CleanupPolicy) (version : Nat) (ts : Int) : Bool :=
  policy.beforeTimestampNs.all (fun t => ts < t) && policy.beforeVersion.all (fun v => version < v) &&
    policy.versions.all (fun vs => version ∈ vs)

/-- A branch forked from this lineage, and the version here it forks from. -/
structure ForkedBranch where
  branch : BranchInfo
  version : Nat

def forkedBranches (ds : DatasetDir) : Except String (List ForkedBranch) := do
  let self := ds.branches.find? (fun b => b.name = ds.branch)
  ensure (ds.branch = "" || self.isSome)
    ("branch " ++ ds.branch ++ " has no reference file under " ++ ds.own ++ "/_refs")
  let own := if ds.branch = "" then [] else (self.map (·.identifier)).getD []
  return ds.branches.filterMap (fun b =>
    if b.name = ds.branch || !own.isPrefixOf b.identifier then none
    else
      match b.identifier.drop own.length with
      | [] => none
      | (version, _) :: _ => if version = 0 then none else some ⟨b, version⟩)

/-- The manifests of a branch's directory, attached and detached. -/
def branchManifests (branch : BranchInfo) : List VersionFile → Except String (List Manifest)
  | [] => .ok []
  | entry :: rest =>
    if (parseManifestVersion entry.name).isNone && !isDetached entry.name then
      branchManifests branch rest
    else
      match entry.manifest with
      | .error e =>
        .error ("cannot clean up: a branch " ++ branch.name ++ " manifest could not be read: " ++ e)
      | .ok m => do
        let others ← branchManifests branch rest
        return m :: others

/-- What branches still use from this directory: the versions they fork from and the files their
    manifests name here. -/
structure ForkProtection where
  versions : List Nat := []
  files : ReferencedFiles := {}

/-- The names a branch's manifests have for files of this directory. One that has any protects the
    version the branch forks from. -/
def protectFork (ds : DatasetDir) (fork : ForkedBranch) (out : ForkProtection) :
    Except String ForkProtection := do
  let manifests ← branchManifests fork.branch fork.branch.versions
  return manifests.foldl (fun out m =>
    { versions := if (namedHere ds m).isEmpty then out.versions else out.versions ++ [fork.version]
      files := out.files.append (namedHere ds m) }) out

/-- The `_versions` file of a version: the first one listed that spells it. -/
def manifestFileOf (ds : DatasetDir) (version : Nat) : Option VersionFile :=
  ds.versions.find? (fun e => parseManifestVersion e.name = some version)

/-- Only a fork the policy would remove needs protecting. -/
def protectForks (ds : DatasetDir) (policy : CleanupPolicy) :
    List ForkedBranch → ForkProtection → Except String ForkProtection
  | [], out => .ok out
  | fork :: rest, out =>
    match manifestFileOf ds fork.version with
    | none => protectForks ds policy rest out
    | some entry =>
      match entry.manifest with
      | .error e => .error e
      | .ok m =>
        if selected policy fork.version m.timestamp then do
          let out ← protectFork ds fork out
          protectForks ds policy rest out
        else protectForks ds policy rest out

/-- A manifest of the directory, read. A detached one has no version here. -/
structure LoadedVersion where
  name : String
  size : Nat
  version : Option Nat
  manifest : Manifest

/-- The manifests of the directory, read in the order listed. One that another cleanup removed after
    the listing is passed over. -/
def loadVersions (readVersion : Nat) : List VersionFile → Except String (List LoadedVersion)
  | [] => .ok []
  | entry :: rest =>
    if (parseManifestVersion entry.name).isNone && !isDetached entry.name then
      loadVersions readVersion rest
    else
      match entry.manifest with
      | .error e =>
        if (parseManifestVersion entry.name).any (fun v => v < readVersion) && !entry.stillThere then
          loadVersions readVersion rest
        else .error ("cannot clean up: " ++ entry.name ++ ": " ++ e)
      | .ok m => do
        ensure (m.indexSectionError = "")
          ("cannot clean up: the indices of " ++ entry.name ++ " could not be read: " ++
            m.indexSectionError)
        let others ← loadVersions readVersion rest
        return ⟨entry.name, entry.size, parseManifestVersion entry.name, m⟩ :: others

/-- The versions of this branch that a tag names. -/
def taggedVersions (ds : DatasetDir) : List Nat :=
  (ds.tags.filter (fun tag =>
    if ds.branch = "" then tag.branch.isNone else tag.branch = some ds.branch)).map (·.version)

/-- The verdict on a version: kept when it is the one read or newer, not selected, tagged, or forked
    from. A detached one is always kept. -/
def keepVersion (ds : DatasetDir) (policy : CleanupPolicy) (readVersion : Nat) (forked : List Nat)
    (v : LoadedVersion) : Bool :=
  v.version.all (fun version => readVersion ≤ version ||
    !selected policy version v.manifest.timestamp || version ∈ taggedVersions ds ||
    version ∈ forked)

def unverifiedThresholdNs : Int := 7 * 24 * 3600 * 1000000000

/-- Kept, removed by age, or removed as an old version's. The second part says that nothing vouches
    for the file. -/
def verdict (inProgress kept knownOld : Bool) (kind : String) : Option (String × Bool) :=
  if kept then none
  else if !inProgress then some (kind, true)
  else if knownOld then some (kind, false)
  else none

/-- What one file is removed as, or nothing to keep it. -/
def removableKind (p : String) (inProgress : Bool) (referenced verified : ReferencedFiles) :
    Option (String × Bool) :=
  if startsWith p "_versions/" then
    let name := p.toList.drop 10
    if (".tmp".toList.isPrefixOf name || ".tmp".toList.isSuffixOf name) && !inProgress then
      some ("temporary_manifest", true)
    else none
  else if startsWith p "_indices/" then
    let rest := p.toList.drop 9
    if '/' ∉ rest then none
    else
      let uuid := String.ofList (rest.takeWhile (fun c => c ≠ '/'))
      verdict inProgress (uuid ∈ referenced.indexUuids) (uuid ∈ verified.indexUuids) "index"
  else if endsWith p ".lance" then
    if !startsWith p "data/" then none
    else verdict inProgress (p ∈ referenced.dataPaths) (p ∈ verified.dataPaths) "data"
  else if endsWith p ".blob" then
    -- A sidecar of a data file, one directory below it: kept with the file.
    let rest := p.toList.drop 5
    let stem := rest.takeWhile (fun c => c ≠ '/')
    if !startsWith p "data/" || '/' ∉ rest || '/' ∈ rest.drop (stem.length + 1) then none
    else
      let parent := "data/" ++ String.ofList stem ++ ".lance"
      verdict inProgress (parent ∈ referenced.dataPaths) (parent ∈ verified.dataPaths) "data"
  else if endsWith p ".arrow" || endsWith p ".bin" then
    if !startsWith p "_deletions/" then none
    else verdict inProgress (p ∈ referenced.deletePaths) (p ∈ verified.deletePaths) "deletion"
  else if endsWith p ".txn" then
    if !startsWith p "_transactions/" || p ∈ referenced.txPaths then none
    else if !inProgress || p ∈ verified.txPaths then some ("transaction", p ∉ verified.txPaths)
    else none
  else none

/-- The listing cutoff: the earliest version kept, unless a removed one is newer than it. -/
def cutoffNs (kept removed : List Int) : Option Int :=
  match kept.min? with
  | none => none
  | some earliest => if removed.max?.any (fun latest => earliest < latest) then none else some earliest

structure CleanupCandidate where
  path : String
  kind : String
  unverified : Bool
  size : Nat

structure CleanupResult where
  readVersion : Nat
  manifests : List CleanupCandidate
  files : List CleanupCandidate
  deriving Inhabited

/-- The directories of a dataset, in the order they are walked. -/
def managedDirs : List String := ["_versions", "_transactions", "data", "_indices", "_deletions"]

/-- One file of the walk of a directory. -/
def considerFile (policy : CleanupPolicy) (cutoff : Option Int) (referenced verified : ReferencedFiles)
    (dir : String) (file : ListedFile) : Option CleanupCandidate :=
  if dir ≠ "_indices" && cutoff.any (fun t => t < file.modifiedNs) then none
  else
    let inProgress := !policy.deleteUnverified && file.age < unverifiedThresholdNs
    (removableKind file.relative inProgress referenced verified).map
      (fun kind => ⟨file.relative, kind.1, kind.2, file.size⟩)

def tagsNamed (tags : List TagInfo) (versions : List Nat) : String :=
  "\x7b" ++ ", ".intercalate ((tags.filter (fun t => t.branch.isNone && t.version ∈ versions)).map
    (fun t => "\"" ++ t.name ++ "\": " ++ toString t.version)) ++ "\x7d"

/-- The version a cleanup reads: the one given, or the highest. -/
def resolveReadVersion (ds : DatasetDir) (readVersion : Nat) : Nat :=
  if readVersion = 0 then
    (ds.versions.filterMap (fun e => parseManifestVersion e.name)).foldl max 0
  else readVersion

/-- Remove the versions a policy selects and the files nothing kept uses. The manifests are removed
    before the files. -/
def cleanupOldVersions (ds : DatasetDir) (requested : Nat) (policy : CleanupPolicy) :
    Except String CleanupResult := do
  ensure (policy.deleteRateLimit ≠ some 0)
    "Cleanup error: delete_rate_limit must be greater than 0, got 0"
  ensure (policy.versions ≠ some [])
    "Invalid user input: versions must not be empty when specified"
  let readVersion := resolveReadVersion ds requested
  ensure (readVersion ≠ 0) ("no manifest found in " ++ ds.own ++ "/_versions")
  ensure (manifestFileOf ds readVersion).isSome
    ("version " ++ toString readVersion ++ " not found")
  let forks ← forkedBranches ds
  let protection ← protectForks ds policy forks {}
  let loaded ← loadVersions readVersion ds.versions
  let keep := keepVersion ds policy readVersion protection.versions
  let kept := loaded.filter keep
  let removed := loaded.filter (fun v => !keep v)
  let referenced := referenceAll (kept.map (·.manifest)) { protection.files with txPaths := [] }
  let verified := referenceAll (removed.map (·.manifest)) {}
  -- The tagged versions the policy would have removed.
  let taggedOld := (loaded.filterMap (fun v => v.version.filter (fun version =>
    version ∈ taggedVersions ds && version < readVersion &&
      selected policy version v.manifest.timestamp))).dedup
  ensure (!(policy.errorIfTaggedOldVersions && !taggedOld.isEmpty))
    ("Cleanup error: " ++ toString taggedOld.length ++ " tagged version(s) have been marked for " ++
      "cleanup. Either set `error_if_tagged_old_versions=false` or delete the following tag(s) to " ++
      "enable cleanup: " ++ tagsNamed ds.tags taggedOld)
  let cutoff := cutoffNs ((kept.filter (fun v => v.version.isSome)).map (·.manifest.timestamp))
    (removed.map (·.manifest.timestamp))
  return {
    readVersion := readVersion
    manifests := removed.map (fun v => ⟨"_versions/" ++ v.name, "manifest", false, v.size⟩)
    files := managedDirs.flatMap (fun dir =>
      (ds.files.filter (fun file => startsWith file.relative (dir ++ "/"))).filterMap
        (considerFile policy cutoff referenced verified dir)) }

/-- The paths an executed cleanup removes. -/
def CleanupResult.removed (result : CleanupResult) : List String :=
  result.manifests.map (·.path) ++ result.files.map (·.path)

/-- The directory a file lives in is this one: by default for a version of this dataset (`self`),
    through a base path otherwise. Where a relative base path leads depends on the reader, so it may
    lead here. -/
def livesHere (ds : DatasetDir) (self : Bool) (bases : List BasePath) : Option Nat → Prop
  | none => self = true
  | some id => ∃ base, bases.find? (fun base => base.id = id) = some base ∧
      base.isDatasetRoot = true ∧ (startsWith base.path "/" = true → ds.canonical base.path = ds.own)

/-- A read of a version opens a file of this directory. Overlays are opened under the data directory
    of the dataset itself, whatever their base. -/
inductive Opens (ds : DatasetDir) (self : Bool) (m : Manifest) : String → Prop
  | data (f : DataFragment) (file : DataFile) (hf : f ∈ m.fragments) (hfile : file ∈ f.files)
      (hhere : livesHere ds self m.bases file.baseId) : Opens ds self m (dataPath file.path)
  | overlay (f : DataFragment) (o : DataOverlay) (hf : f ∈ m.fragments)
      (ho : OverlayMessage.decoded o ∈ f.overlays) (hself : self = true) :
      Opens ds self m (dataPath o.dataFile.path)
  | deletion (f : DataFragment) (d : DeletionFile) (hf : f ∈ m.fragments)
      (hd : f.deletionFile = some d) (hhere : livesHere ds self m.bases d.baseId) :
      Opens ds self m (deletionPath f d)
  | index (i : IndexMetadata) (name : String) (hi : i ∈ m.indices)
      (hhere : livesHere ds self m.bases i.baseId) :
      Opens ds self m ("_indices/" ++ uuidString i.uuid ++ "/" ++ name)

end NanoLance
