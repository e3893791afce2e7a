import NanoLance.DeletionMerge
import NanoLance.TransactionFile

/-!
# Writers Racing for the Next Version

The two ways a version gets into `_versions`, as programs that take turns.

`commit_dataset_version` lists the directory for the next number, reads the
latest manifest, builds the new one, lists again for the naming scheme and puts
the file; when the name is taken it starts over. `commit_next_version` is given
a manifest made from a version that was read before, puts it as the version
after that one, and when the name is taken reads the latest version, has the
change judged against every version committed since, and rebases it.

Each writer is in a `Phase`, and an event moves one writer to its next phase:
a call, the result of a listing, the result of a put, or a failure. A listing
returns some of the names that are there when it returns, and all that were
there when the writer turned to it. Reading a version takes no step of its own,
since a file that is there does not change. A put looks for the name and makes
the file in one step; on an object store its response may be lost, and the put
that is sent again then finds its own file. Whatever else may go wrong (an
unreadable file, a version this library may not write, a store that does not
answer) ends the call, which is the event `fail`.

Versions are not removed here: a listing sees every version published before it
started. Auto cleanup, which a commit may run after it has published, removes
some.

The fields `origin` of a file and `id` of a call are not in the source. They say
which call a version is from.

## Main definitions

* `Request`, `Phase`, `Event`, `State`: What writers ask for, where they stand,
  and what can happen.
* `advance`, `step`, `run`: One writer's turn, and a schedule of turns.
-/

namespace NanoLance

namespace VersionLog

/-- The name of a manifest: the version, counted down from the largest number in the V2 scheme. -/
structure ManifestName where
  v2 : Bool
  version : Nat
  deriving DecidableEq, Repr

/-- A change for `commit_next_version`: the version it reads (the latest when none is named), what
    it makes of it, and the rows it deletes, if it says. -/
structure NextChange where
  readVersion : Option Nat := none
  make : Manifest → Except String Change
  affected : Option (Nat → List Nat) := none

inductive Request where
  | write (request : VersionRequest)
  | next (change : NextChange)

structure Call where
  id : Nat
  request : Request

/-- A published version, with the operation its transaction file records. -/
structure VersionFile where
  name : ManifestName
  manifest : Manifest
  transaction : Nat
  operation : OpKind × Bytes
  origin : Option Call := none

abbrev Directory := List VersionFile

def names (dir : Directory) : List ManifestName := dir.map (·.name)

/-- `highest_manifest_version` of a listing; `next_version` is one more. -/
def latestSeen (seen : List ManifestName) : Nat :=
  seen.foldl (fun latest name => max latest name.version) 0

/-- The naming scheme of the next file: V2 for a new dataset, else the one that is there. -/
def schemeSeen (seen : List ManifestName) : Bool :=
  latestSeen seen + 1 = 1 || seen.any (·.v2)

def fileNamed (dir : Directory) (name : ManifestName) : Option VersionFile :=
  dir.find? (fun f => f.name = name)

/-- A version is looked for under both of its names. -/
def loadVersion (dir : Directory) (version : Nat) : Except String VersionFile :=
  match fileNamed dir ⟨false, version⟩, fileNamed dir ⟨true, version⟩ with
  | some f, _ => .ok f
  | none, some f => .ok f
  | none, none => .error s!"version {version} not found"

/-- `load_latest_manifest`, after its listing. -/
def loadLatest (dir : Directory) (seen : List ManifestName) : Except String VersionFile := do
  Lib.ensure (latestSeen seen ≠ 0) "no manifest found under _versions"
  loadVersion dir (latestSeen seen)

/-- `kFlagMixedDataFileVersions`. -/
def flagMixedDataFileVersions : BitVec 64 := 256

def dataFileVersion (f : DataFile) : Nat :=
  if f.fileMajorVersion = 0 ∧ f.fileMinorVersion ≤ 2 then 1
  else if f.fileMajorVersion = 0 ∧ f.fileMinorVersion = 3 then 20
  else if f.fileMajorVersion = 2 ∧ f.fileMinorVersion ≤ 3 then 20 + f.fileMinorVersion
  else 0

def storageVersion (version : String) : Nat :=
  if version = "legacy" || "0.".toList.isPrefixOf version.toList then 1
  else if version = "2.0" then 20
  else if version = "2.1" then 21
  else if version = "2.2" then 22
  else if version = "2.3" then 23
  else 0

/-- Files of another 2.x version than the manifest's are announced; v1 and v2 files do not mix. -/
def checkDataFileVersions (m : Manifest) : Except String Manifest :=
  let default := storageVersion m.dataFormat.2
  let found := m.fragments.flatMap (fun f => f.files.map dataFileVersion)
  let v1 := default = 1 || found.any (· = 1)
  let v2 := default ≠ 1 || found.any (20 ≤ ·)
  if default = 0 then .ok m
  else if v1 && v2 then
    .error "the dataset is in Lance's v1 (legacy) format, which nanolance does not write"
  else if found.any (fun version => version ≠ 0 && version ≠ default) then
    .ok { m with
      readerFeatureFlags := m.readerFeatureFlags ||| flagMixedDataFileVersions
      writerFeatureFlags := m.writerFeatureFlags ||| flagMixedDataFileVersions }
  else .ok m

/-- The operation `write_transaction_file` records. An append, an overwrite, a restore and a
    reservation say what they do; the rest is read off the change to the version before. -/
def transactionOperation (codec : Codec) (dir : Directory) (change : Change) :
    Except String (OpKind × Bytes) :=
  let readVersion := change.next.version - 1
  if change.operation ∈ [.append, .overwrite, .restore, .reserve] || readVersion = 0 then
    .ok (deriveOperation codec none change)
  else
    match loadVersion dir readVersion with
    | .ok parent => .ok (deriveOperation codec (some parent.manifest) change)
    | .error e =>
      if change.operation = .derive then
        .error (s!"cannot write the transaction of version {change.next.version}: " ++ e)
      else .ok (deriveOperation codec none change)

/-- What a writer's call is made of, apart from the dataset. -/
structure Setup where
  codec : Codec
  deletions : DeletionFiles
  objectStore : Bool := false
  attempts : Nat := 20

/-- The operation of a version committed since, as the change sees it. -/
def concurrentOperation (codec : Codec) (oursName : String) (f : VersionFile) :
    Except String Operation :=
  if f.operation.1 = .clone then .ok { kind := .clone }
  else
    match decodeOperation codec f.operation.1 f.operation.2 with
    | .ok op => .ok op
    | .error _ => .error (retryableError f.name.version oursName
        "an operation (an operation nanolance cannot read)")

def nameOf (op : Operation) : String :=
  if op.kind = .clone then "Clone" else operationName op.kind

/-- The change may be committed after the other. -/
def checkVerdict (mine theirs : Operation) (base : Manifest) (affected : Bool) (version : Nat) :
    Except String Unit :=
  match if affected then checkTxnWithAffectedRows mine theirs base else checkTxn mine theirs with
  | .compatible => .ok ()
  | .retryable => .error (retryableError version (operationName mine.kind) (nameOf theirs))
  | .incompatible =>
    .error (s!"Incompatible transaction: This {operationName mine.kind} transaction is " ++
      s!"incompatible with concurrent transaction {nameOf theirs} at version {version}.")

/-- The operations of the versions since, each found compatible. -/
def classifySince (codec : Codec) (dir : Directory) (base : Manifest) (mine : Operation)
    (affected : Bool) : List Nat → Except String (List Operation)
  | [] => .ok []
  | version :: rest => do
    let committed ← loadVersion dir version
    let theirs ← concurrentOperation codec (operationName mine.kind) committed
    checkVerdict mine theirs base affected version
    let others ← classifySince codec dir base mine affected rest
    return theirs :: others

/-- A delete or an update that says which rows it deletes takes the deletions committed since into
    its own. -/
def mergeAffected (deletions : DeletionFiles) (base latest : Manifest) (latestVersion : Nat)
    (affected : Option (Nat → List Nat)) (theirs : List Operation) (mine : Operation) :
    Except String Operation :=
  match affected with
  | none => .ok mine
  | some rows =>
    if mine.kind = .delete || mine.kind = .update then
      mergeDeletionVectors deletions base latest latestVersion rows
        ((theirs.getLast?.map nameOf).getD "") mine
    else .ok mine

/-- The operation a change stands for, read off the version it was made from. -/
def changeOperation (codec : Codec) (base : Manifest) (made : Change) : Except String Operation :=
  let derived := deriveOperation codec (some base) made
  match decodeOperation codec derived.1 derived.2 with
  | .ok op => .ok op
  | .error _ =>
    .error (retryableError (base.version + 1) (operationName derived.1) "an operation")

/-- The change `made` from `base`, made again on the latest version. -/
def rebaseOnto (setup : Setup) (dir : Directory) (base : VersionFile) (made : Change)
    (affected : Option (Nat → List Nat)) (latest : VersionFile) : Except String Change := do
  let mine ← changeOperation setup.codec base.manifest made
  let theirs ← classifySince setup.codec dir base.manifest mine affected.isSome
    (List.range' (base.manifest.version + 1) (latest.name.version - base.manifest.version))
  let merged ← mergeAffected setup.deletions base.manifest latest.manifest latest.name.version
    affected theirs mine
  let rebased ← rebaseOperation latest.manifest made.next merged theirs (latest.name.version + 1)
  let flags := fun (word : BitVec 64) =>
    if rebased.fragments.any (fun f => f.deletionFile.isSome) then setFlag word flagDeletionFiles true
    else word
  return { made with
    next := { rebased with
      version := latest.name.version + 1
      readerFeatureFlags := flags rebased.readerFeatureFlags
      writerFeatureFlags := flags rebased.writerFeatureFlags
      timestamp := made.next.timestamp
      transactionFile := "" }
    firstNewFragment :=
      if mine.kind = .append then latest.manifest.fragments.length else made.firstNewFragment }

/-- The change as `commit_next_version` first puts it: the version after the one
    it was made from. -/
def afterRead (base : VersionFile) (made : Change) : Change :=
  { made with
    next := { made.next with version := base.manifest.version + 1, transactionFile := "" } }

/-- What the transaction of a version that a writer built says of it. -/
def writtenAs (prior : Option Manifest) (request : VersionRequest) (built : Manifest) : Change :=
  match effectiveMode prior.isSome request.mode with
  | .append => Change.mk built .append ((prior.map (fun m => m.fragments.length)).getD 0) 0 0
  | _ => Change.mk built .overwrite 0 0 0

/-- The version a writer builds. -/
def builtChange (version : Nat) (prior : Option Manifest) (request : VersionRequest) :
    Except String Change := do
  let built ← buildVersion version prior request
  return writtenAs prior request built

/-- The call a manifest is put for. -/
inductive Job where
  | write (request : VersionRequest)
  | next (change : NextChange) (base : VersionFile) (made : Change)

def Job.request : Job → Request
  | .write request => .write request
  | .next change _ _ => .next change

/-- A manifest about to be put, the fresh name of its transaction file, and how often the call has
    put one before. -/
structure Pending where
  id : Nat
  job : Job
  attempt : Nat
  change : Change
  transaction : Nat
  operation : OpKind × Bytes

/-- Where a writer stands. The names are those that were there when it turned to
    list the directory. -/
inductive Phase where
  | idle
  | numbering (id : Nat) (request : VersionRequest) (attempt : Nat) (before : List ManifestName)
  | reading (id : Nat) (request : VersionRequest) (attempt version : Nat)
      (before : List ManifestName)
  | opening (id : Nat) (change : NextChange) (before : List ManifestName)
  | naming (pending : Pending) (before : List ManifestName)
  | putting (pending : Pending) (v2 : Bool)
  | rebasing (id : Nat) (change : NextChange) (base : VersionFile) (made : Change) (attempt : Nat)
      (before : List ManifestName)

/-- How a put ends, apart from whether the name was there: as it should, with the response lost and
    the put sent again, or in an error with or without the file made. -/
inductive PutResult where
  | answered
  | lost
  | broken (made : Bool)
  deriving DecidableEq, Repr

inductive Event where
  | call (request : Request)
  | saw (seen : List ManifestName)
  | put (result : PutResult)
  | fail

/-- What a writer's turn does: the phase it goes to, the file it makes, and the call that returns,
    with the version of a successful one. -/
structure Effect where
  phase : Phase
  put : Option VersionFile := none
  returns : Option (Nat × Option Nat) := none

def failed (id : Nat) : Effect := { phase := .idle, returns := some (id, none) }

/-- The listing saw all that was there before, and nothing that is not there. -/
def sees (dir : Directory) (before seen : List ManifestName) : Bool :=
  before.all (· ∈ seen) && seen.all (· ∈ names dir)

/-- `publish_manifest` up to its listing: the transaction file is written first,
    under a fresh name. -/
def startPublish (setup : Setup) (dir : Directory) (clock id : Nat) (job : Job) (attempt : Nat)
    (change : Change) : Effect :=
  match checkDataFileVersions change.next with
  | .error _ => failed id
  | .ok written =>
    match transactionOperation setup.codec dir { change with next := written } with
    | .error _ => failed id
    | .ok operation =>
      { phase := .naming
          { id := id, job := job, attempt := attempt, change := { change with next := written }
            transaction := clock, operation := operation }
          (names dir) }

/-- A change that could be made is published; else the call fails. -/
def publishMade (setup : Setup) (dir : Directory) (clock id : Nat) (attempt : Nat)
    (made : Except String (Job × Change)) : Effect :=
  match made with
  | .error _ => failed id
  | .ok (job, change) => startPublish setup dir clock id job attempt change

/-- What a call does when its version was taken. A create is not tried again. -/
def onConflict (setup : Setup) (dir : Directory) (p : Pending) : Effect :=
  match p.job with
  | .write request =>
    if request.mode = .create || setup.attempts ≤ p.attempt + 1 then failed p.id
    else { phase := .numbering p.id request (p.attempt + 1) (names dir) }
  | .next change base made =>
    if setup.attempts ≤ p.attempt then failed p.id
    else { phase := .rebasing p.id change base made p.attempt (names dir) }

def pendingFile (p : Pending) (v2 : Bool) : VersionFile :=
  { name := ⟨v2, p.change.next.version⟩
    manifest := p.change.next
    transaction := p.transaction
    operation := p.operation
    origin := some ⟨p.id, p.job.request⟩ }

def succeeded (p : Pending) (put : Option VersionFile) : Effect :=
  { phase := .idle, put := put, returns := some (p.id, some p.change.next.version) }

/-- `put_if_absent` and what follows it. A name that is taken may be taken by this very commit,
    which its transaction tells. -/
def putVersion (setup : Setup) (dir : Directory) (p : Pending) (v2 : Bool) :
    PutResult → Effect
  | .answered =>
    match fileNamed dir ⟨v2, p.change.next.version⟩ with
    | none => succeeded p (some (pendingFile p v2))
    | some there =>
      if setup.objectStore && there.transaction = p.transaction then succeeded p none
      else onConflict setup dir p
  | .lost =>
    match fileNamed dir ⟨v2, p.change.next.version⟩ with
    | none =>
      -- Only an object store's put is sent again; it then finds its own file.
      if setup.objectStore then succeeded p (some (pendingFile p v2))
      else { phase := .putting p v2 }
    | some there =>
      if setup.objectStore && there.transaction = p.transaction then succeeded p none
      else onConflict setup dir p
  | .broken made =>
    match fileNamed dir ⟨v2, p.change.next.version⟩ with
    | none => { failed p.id with put := if made then some (pendingFile p v2) else none }
    | some _ => failed p.id

/-- The call a writer is in. -/
def Phase.id? : Phase → Option Nat
  | .idle => none
  | .numbering id _ _ _ | .reading id _ _ _ _ | .opening id _ _ | .rebasing id _ _ _ _ _ => some id
  | .naming p _ | .putting p _ => some p.id

/-- A version where there is none yet. -/
def buildFirst (request : VersionRequest) (version : Nat) : Except String (Job × Change) := do
  let change ← builtChange version none request
  return (.write request, change)

/-- The listing of a call of `commit_dataset_version` has returned. -/
def numbered (setup : Setup) (dir : Directory) (clock id : Nat) (request : VersionRequest)
    (attempt : Nat) (seen : List ManifestName) : Effect :=
  if 1 < latestSeen seen + 1 then
    { phase := .reading id request attempt (latestSeen seen + 1) (names dir) }
  else
    publishMade setup dir clock id attempt (buildFirst request (latestSeen seen + 1))

/-- The version after `version - 1` built on the latest manifest. -/
def buildOnLatest (dir : Directory) (request : VersionRequest) (version : Nat)
    (seen : List ManifestName) : Except String (Job × Change) := do
  let prior ← loadLatest dir seen
  let change ← builtChange version (some prior.manifest) request
  return (.write request, change)

/-- The version a change is made from. -/
def loadReadVersion (dir : Directory) (change : NextChange) (seen : List ManifestName) :
    Except String VersionFile :=
  match change.readVersion with
  | none => loadLatest dir seen
  | some version => loadVersion dir version

/-- The caller of `commit_next_version` reads a version and makes its change. -/
def makeChange (dir : Directory) (change : NextChange) (seen : List ManifestName) :
    Except String (Job × Change) := do
  let base ← loadReadVersion dir change seen
  let made ← change.make base.manifest
  return (.next change base (afterRead base made), afterRead base made)

def rebaseOnLatest (setup : Setup) (dir : Directory) (change : NextChange) (base : VersionFile)
    (made : Change) (seen : List ManifestName) : Except String (Job × Change) := do
  let latest ← loadLatest dir seen
  let rebased ← rebaseOnto setup dir base made change.affected latest
  return (.next change base made, rebased)

/-- A listing that a writer waits for has returned. -/
def listed (setup : Setup) (dir : Directory) (clock : Nat) (seen : List ManifestName) :
    Phase → Effect
  | .numbering id request attempt _ => numbered setup dir clock id request attempt seen
  | .reading id request attempt version _ =>
    publishMade setup dir clock id attempt (buildOnLatest dir request version seen)
  | .opening id change _ => publishMade setup dir clock id 0 (makeChange dir change seen)
  | .naming p _ => { phase := .putting p (schemeSeen seen) }
  | .rebasing id change base made attempt _ =>
    publishMade setup dir clock id (attempt + 1) (rebaseOnLatest setup dir change base made seen)
  | phase => { phase := phase }

def Phase.before : Phase → List ManifestName
  | .numbering _ _ _ before | .reading _ _ _ _ before | .opening _ _ before | .naming _ before
  | .rebasing _ _ _ _ _ before => before
  | _ => []

/-- A writer's turn. An event it is not waiting for does nothing. -/
def advance (setup : Setup) (dir : Directory) (clock : Nat) (phase : Phase) : Event → Effect
  | .call request =>
    match phase, request with
    | .idle, .write request => { phase := .numbering clock request 0 (names dir) }
    | .idle, .next change => { phase := .opening clock change (names dir) }
    | phase, _ => { phase := phase }
  | .saw seen =>
    if sees dir phase.before seen then listed setup dir clock seen phase else { phase := phase }
  | .put result =>
    match phase with
    | .putting p v2 => putVersion setup dir p v2 result
    | phase => { phase := phase }
  | .fail =>
    match phase.id? with
    | some id => failed id
    | none => { phase := phase }

/-- The dataset and its writers. The clock names calls and transactions. -/
structure State where
  dir : Directory
  phases : Nat → Phase
  clock : Nat
  returned : List (Nat × Option Nat)

def start (dir : Directory) : State :=
  { dir := dir
    phases := fun _ => .idle
    clock := dir.foldl (fun clock f => max clock (f.transaction + 1)) 0
    returned := [] }

def step (setup : Setup) (s : State) (turn : Nat × Event) : State :=
  let effect := advance setup s.dir s.clock (s.phases turn.1) turn.2
  { dir := s.dir ++ effect.put.toList
    phases := fun writer => if writer = turn.1 then effect.phase else s.phases writer
    clock := s.clock + 1
    returned := s.returned ++ effect.returns.toList }

def run (setup : Setup) (s : State) (schedule : List (Nat × Event)) : State :=
  schedule.foldl (step setup) s

end VersionLog

end NanoLance
