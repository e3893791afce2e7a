import NanoLance.Compaction
import NanoLance.Lib.Wire
import NanoLance.Roaring

/-!
# The Fragment Reuse Index on Disk

The details of a fragment reuse index are a protobuf message: the versions,
each with its groups, each with the surviving row addresses as a roaring
treemap and a digest of every fragment read and written. A compaction that
continues an index copies the messages of its versions as they are and puts
its own behind them.

The reader goes the other way and builds a remap step from each version. The
surviving rows of a group are kept in the order the treemap lists them,
fragment by fragment.

## Main definitions

* `encodeVersion`, `reuseDetails`: The details after one more compaction.
* `ReuseEntry`, `fragmentReuseEntry`: The index entry with its details.
* `readVersion`, `buildRawStep`, `fromDetails`: The steps of an entry.

## Theorems

* `readVersion_encode`: A version reads back.
-/

namespace NanoLance

namespace ReuseDetails

open List Lib Lib.Wire

/-! ## Writing -/

/-- A fragment's id, physical rows and deleted rows. -/
abbrev Digest := Nat × Nat × Nat

/-- One group as a compaction hands it over. -/
structure WriteGroup where
  changedRowAddrs : List Nat
  oldFragments : List Digest
  newFragments : List Digest
  deriving DecidableEq, Repr

/-- The rows a rewrite kept, and the digests of the fragments it read. -/
def oldFragmentDigests (vectors : DeletionVectors) (original : Manifest) :
    List Nat → Except String (List Nat × List Digest)
  | [] => .ok ([], [])
  | id :: rest =>
    match original.fragment? id with
    | none => .error s!"fragment {id} is not in version {original.version}"
    | some f => do
      let deleted ← deletedRows vectors f
      let others ← oldFragmentDigests vectors original rest
      return (liveAddresses f deleted ++ others.1,
        (f.id, f.physicalRows, (f.deletionFile.map (·.numDeletedRows)).getD 0) :: others.2)

/-- The groups of a compaction, its new fragments numbered from `next` on. -/
def writeGroups (vectors : DeletionVectors) (original : Manifest) :
    List CompactionRewrite → Nat → Except String (List WriteGroup)
  | [], _ => .ok []
  | rewrite :: rest, next => do
    let old ← oldFragmentDigests vectors original rewrite.oldFragmentIds
    let others ← writeGroups vectors original rest (next + rewrite.newFragments.length)
    return {
      changedRowAddrs := old.1
      oldFragments := old.2
      newFragments :=
        (numberFrom rewrite.newFragments next).map (fun f => (f.id, f.physicalRows, 0)) } :: others

def encodeDigest (d : Digest) : List UInt8 :=
  putUint 1 d.1 ++ (putUint 2 d.2.1 ++ putUint 3 d.2.2)

def encodeGroup (g : WriteGroup) : List UInt8 :=
  putBytes 1 (Roaring.encodeTreemap g.changedRowAddrs) ++
    (g.oldFragments.flatMap (fun d => putBytes 2 (encodeDigest d)) ++
      g.newFragments.flatMap (fun d => putBytes 3 (encodeDigest d)))

def encodeVersion (version : Nat) (groups : List WriteGroup) : List UInt8 :=
  putUint 1 version ++ groups.flatMap (fun g => putBytes 3 (encodeGroup g))

/-- The version messages among the fields of an inline content. -/
def versionMessages (fields : List Wire.Field) : List (List UInt8) :=
  (fields.filter (fun v => v.number = 1 && v.wire = 2)).map (·.data)

/-- The version messages of every inline content of some details. -/
def keptMessages : List Wire.Field → Except String (List (List UInt8))
  | [] => .ok []
  | f :: rest =>
    if f.number = 2 then
      .error "the fragment reuse index keeps its versions in an external file: not written yet"
    else if f.number = 1 && f.wire = 2 then do
      let inner := readFields f.data
      ensure (!inner.2) "the fragment reuse index's details are malformed"
      let others ← keptMessages rest
      return versionMessages inner.1 ++ others
    else keptMessages rest

/-- The version messages a new entry copies. -/
def priorMessages : Option (List UInt8) → Except String (List (List UInt8))
  | none => .ok []
  | some details => do
    let fields := readFields details
    let kept ← keptMessages fields.1
    ensure (!fields.2) "the fragment reuse index's details are malformed"
    return kept

/-- The details after a compaction at `version`: the prior versions as they are, and one more. -/
def reuseDetails (prior : Option (List UInt8)) (version : Nat) (groups : List WriteGroup) :
    Except String (List UInt8) := do
  let kept ← priorMessages prior
  return putBytes 1 (kept.flatMap (putBytes 1) ++ putBytes 1 (encodeVersion version groups))

/-- An index entry with its details as stored. -/
structure ReuseEntry where
  uuid : Nat
  name : String
  datasetVersion : Nat
  fragmentIds : List Nat
  detailsTypeUrl : String
  indexVersion : Nat
  createdAt : Nat
  detailsValue : List UInt8
  deriving DecidableEq, Repr

def fragmentReuseEntry (prior : Option ReuseEntry) (version : Nat) (groups : List WriteGroup)
    (coverage : List Nat) (uuid now : Nat) : Except String ReuseEntry := do
  let details ← reuseDetails (prior.map (·.detailsValue)) version groups
  return {
    uuid := uuid
    name := fragReuseIndex
    datasetVersion := version
    fragmentIds := ascending coverage
    detailsTypeUrl := "/lance.table.FragmentReuseIndexDetails"
    indexVersion := 3
    createdAt := now
    detailsValue := details }

/-! ## Reading -/

/-- The number of a field, which only a varint has. -/
def numberOf (f : Wire.Field) : Nat := if f.wire = 0 then f.value else 0

def digestField (d : Nat × Nat) (f : Wire.Field) : Nat × Nat :=
  if f.number = 1 then (numberOf f, d.2)
  else if f.number = 2 then (d.1, numberOf f)
  else d

def readDigest (data : List UInt8) : Except String (Nat × Nat) :=
  let fields := readFields data
  if fields.2 then .error "malformed fragment digest in the fragment reuse index"
  else .ok (fields.1.foldl digestField (0, 0))

/-- A group as read, its surviving rows still a treemap. -/
structure RawGroup where
  changed : List UInt8 := []
  oldFrags : List (Nat × Nat) := []
  newFrags : List (Nat × Nat) := []
  deriving DecidableEq, Repr

def groupField (g : RawGroup) (f : Wire.Field) : Except String RawGroup :=
  if f.number = 1 && f.wire = 2 then .ok { g with changed := f.data }
  else if f.number = 2 && f.wire = 2 then do
    let d ← readDigest f.data
    return { g with oldFrags := g.oldFrags ++ [d] }
  else if f.number = 3 && f.wire = 2 then do
    let d ← readDigest f.data
    return { g with newFrags := g.newFrags ++ [d] }
  else .ok g

def readGroup (data : List UInt8) : Except String RawGroup := do
  let fields := readFields data
  let g ← fields.1.foldlM groupField {}
  ensure (!fields.2) "malformed group in the fragment reuse index"
  return g

structure RawVersion where
  datasetVersion : Nat := 0
  groups : List RawGroup := []
  deriving DecidableEq, Repr

def versionField (v : RawVersion) (f : Wire.Field) : Except String RawVersion :=
  if f.number = 1 && f.wire = 0 then .ok { v with datasetVersion := f.value }
  else if f.number = 3 && f.wire = 2 then do
    let g ← readGroup f.data
    return { v with groups := v.groups ++ [g] }
  else .ok v

def readVersion (data : List UInt8) : Except String RawVersion := do
  let fields := readFields data
  let v ← fields.1.foldlM versionField {}
  ensure (!fields.2) "malformed version in the fragment reuse index"
  return v

def readInline (data : List UInt8) : Except String (List RawVersion) := do
  let fields := readFields data
  let versions ← (versionMessages fields.1).mapM readVersion
  ensure (!fields.2) "malformed InlineContent in the fragment reuse index"
  return versions

/-- One group added to a step. -/
def addRawGroup (step : RemapStep) (raw : RawGroup) : Except String RemapStep := do
  let (ranges, total) := rangesOf raw.newFrags 0
  let changed ← inContext "fragment reuse index: " (Roaring.decodeTreemap raw.changed)
  let (frags, left, rewritten) ← oldFragmentsOf step.groups.length raw.oldFrags []
    changed 0 step.frags
  ensure left.isEmpty "fragment reuse index: rewritten rows from fragments not in their group"
  ensure (rewritten = total)
    (s!"fragment reuse index: a group rewrote {rewritten} rows into fragments holding " ++
      toString total)
  return { step with
    frags := frags
    groups := step.groups ++ [{
      newRanges := ranges
      oldIds := raw.oldFrags.map (fun f => f.1 % 2 ^ 32)
      newIds := raw.newFrags.map (fun f => f.1 % 2 ^ 32) }] }

def buildRawStep (raw : RawVersion) : Except String RemapStep :=
  raw.groups.foldlM addRawGroup {}

/-- Where an external content is. -/
structure ExternalFile where
  path : List UInt8 := []
  offset : Nat := 0
  size : Nat := 0
  deriving DecidableEq, Repr

def externalField (e : ExternalFile) (f : Wire.Field) : ExternalFile :=
  if f.number = 1 && f.wire = 2 then { e with path := f.data }
  else if f.number = 2 then { e with offset := numberOf f }
  else if f.number = 3 then { e with size := numberOf f }
  else e

/-- The content an external file holds, out of the index's directory. -/
def readExternal (readAll : List UInt8 → Except String (List UInt8)) (data : List UInt8) :
    Except String (List UInt8) := do
  let fields := readFields data
  let e := fields.1.foldl externalField {}
  ensure (!(fields.2 || e.path.isEmpty)) "fragment reuse index: unreadable external details"
  let file ← readAll e.path
  ensure (!(file.length < e.offset || file.length - e.offset < e.size))
    "fragment reuse index: external details out of range"
  return (file.drop e.offset).take e.size

/-- The content of some details, the last one when there are several. -/
def contentField (readAll : List UInt8 → Except String (List UInt8))
    (content : Option (List UInt8)) (f : Wire.Field) : Except String (Option (List UInt8)) :=
  if f.number = 1 && f.wire = 2 then .ok (some f.data)
  else if f.number = 2 && f.wire = 2 then do
    let file ← readExternal readAll f.data
    return some file
  else .ok content

def contentOf (readAll : List UInt8 → Except String (List UInt8)) (details : List UInt8) :
    Except String (List UInt8) := do
  let fields := readFields details
  let content ← fields.1.foldlM (contentField readAll) none
  if fields.2 then .error "fragment reuse index: no content"
  else Roaring.orError "fragment reuse index: no content" content

/-- The remap steps of an entry, a step for each of its versions. -/
def fromDetails (readAll : List UInt8 → Except String (List UInt8)) (entry : ReuseEntry) :
    Except String (List RemapStep) := do
  ensure ("FragmentReuseIndexDetails".toList.isSuffixOf entry.detailsTypeUrl.toList)
    s!"index '{entry.name}' is not a fragment reuse index"
  let content ← contentOf readAll entry.detailsValue
  let versions ← readInline content
  versions.mapM buildRawStep

/-! ## What is written -/

/-- The group as the reader's index knows it. -/
def WriteGroup.reuse (g : WriteGroup) : ReuseGroup where
  changedRowAddrs := g.changedRowAddrs
  oldFragments := g.oldFragments.map (fun d => (d.1, d.2.1))
  newFragments := g.newFragments.map (fun d => (d.1, d.2.1))

variable (vectors : DeletionVectors) (original : Manifest)

theorem oldFragmentDigests_reuse (ids : List Nat) (out : List Nat × List Digest)
    (h : oldFragmentDigests vectors original ids = .ok out) :
    oldDigests vectors original ids = .ok (out.1, out.2.map (fun d => (d.1, d.2.1))) := by
  induction ids generalizing out with
  | nil =>
    cases h
    rfl
  | cons id ids ih =>
    rw [oldFragmentDigests] at h
    cases hfind : original.fragment? id with
    | none => grind
    | some f =>
      rw [hfind] at h
      simp only [bind_eq_ok, pure_eq_ok] at h
      rcases h with ⟨deleted, hdeleted, others, hothers, rfl⟩
      rw [oldDigests, hfind]
      simp [hdeleted, ih others hothers]

/-- The groups written are those of the compaction, with the deletion counts. -/
theorem writeGroups_reuse (rewrites : List CompactionRewrite) (next : Nat)
    (groups : List WriteGroup) (h : writeGroups vectors original rewrites next = .ok groups) :
    compactionGroups vectors original rewrites next = .ok (groups.map WriteGroup.reuse) := by
  induction rewrites generalizing next groups with
  | nil =>
    cases h
    rfl
  | cons r rewrites ih =>
    simp only [writeGroups, bind_eq_ok, pure_eq_ok] at h
    rcases h with ⟨old, hold, others, hothers, rfl⟩
    rw [compactionGroups, oldFragmentDigests_reuse _ _ _ _ hold, ih _ others hothers]
    simp only [bind, Except.bind, pure, Except.pure, map_cons, WriteGroup.reuse, map_map]
    rfl

/-! ## Reading back -/

/-- The numbers of a digest fit. -/
def Fits (d : Digest) : Prop := d.1 < 2 ^ 64 ∧ d.2.1 < 2 ^ 64 ∧ d.2.2 < 2 ^ 64

theorem readDigest_encode {d : Digest} (h : Fits d) :
    readDigest (encodeDigest d) = .ok (d.1, d.2.1) := by
  rcases h with ⟨hid, hphysical, hdeleted⟩
  have hlast := readFields_putUint_any 3 [] (by decide) hdeleted
  rw [append_nil, readFields_nil] at hlast
  unfold readDigest encodeDigest
  rw [readFields_putUint_any 1 _ (by decide) hid,
    readFields_putUint_any 2 _ (by decide) hphysical, hlast]
  simp only [Bool.false_eq_true, if_false, append_nil]
  -- A number left out is the zero the reader starts from.
  have hthird : ∀ start : Nat × Nat, (if d.2.2 = 0 then []
      else [(⟨3, 0, d.2.2, []⟩ : Wire.Field)]).foldl digestField start = start := by
    intro start
    split <;> rfl
  have hsecond : ∀ x : Nat, (if d.2.1 = 0 then []
      else [(⟨2, 0, d.2.1, []⟩ : Wire.Field)]).foldl digestField (x, 0) = (x, d.2.1) := by
    intro x
    split
    · rename_i hzero
      rw [hzero]
      rfl
    · rfl
  have hfirst : (if d.1 = 0 then []
      else [(⟨1, 0, d.1, []⟩ : Wire.Field)]).foldl digestField (0, 0) = (d.1, 0) := by
    split
    · rename_i hzero
      rw [hzero]
      rfl
    · rfl
  rw [foldl_append, foldl_append, hfirst, hsecond, hthird]

/-- A group as it is read. -/
def WriteGroup.raw (g : WriteGroup) : RawGroup where
  changed := Roaring.encodeTreemap g.changedRowAddrs
  oldFrags := g.reuse.oldFragments
  newFrags := g.reuse.newFragments

theorem readGroup_encode (g : WriteGroup) (hold : ∀ d ∈ g.oldFragments, Fits d)
    (hnew : ∀ d ∈ g.newFragments, Fits d) (hsize : (encodeGroup g).length < 2 ^ 64) :
    readGroup (encodeGroup g) = .ok g.raw := by
  have hfolds : Folds groupField {} (putBytes 1 (Roaring.encodeTreemap g.changedRowAddrs) ++
      (g.oldFragments.flatMap (fun d => putBytes 2 (encodeDigest d)) ++
        (g.newFragments.flatMap (fun d => putBytes 3 (encodeDigest d)) ++ []))) g.raw := by
    refine .putBytes (by decide) (fun _ => rfl) ?_
    refine .repeated (by decide)
      (fun raw l => { raw with oldFrags := raw.oldFrags ++ l.map (fun d => (d.1, d.2.1)) })
      (fun _ => True) (fun raw => by simp) (fun raw l l' => by simp) (fun _ _ _ => trivial)
      (fun raw d hd _ _ => ?_) trivial ?_
    · simp only [groupField, readDigest_encode (hold d hd)]
      rfl
    refine .repeated (by decide)
      (fun raw l => { raw with newFrags := raw.newFrags ++ l.map (fun d => (d.1, d.2.1)) })
      (fun _ => True) (fun raw => by simp) (fun raw l l' => by simp) (fun _ _ _ => trivial)
      (fun raw d hd _ _ => ?_) trivial .nil
    simp only [groupField, readDigest_encode (hnew d hd)]
    rfl
  rw [append_nil] at hfolds
  rcases hfolds hsize with ⟨fields, hread, hfold⟩
  rw [readGroup, show readFields (encodeGroup g) = _ from hread]
  simp [hfold, ensure]

variable {groups : List WriteGroup} {version : Nat}

theorem readVersion_encode (hversion : version < 2 ^ 64)
    (hfits : ∀ g ∈ groups, (∀ d ∈ g.oldFragments, Fits d) ∧ ∀ d ∈ g.newFragments, Fits d)
    (hsize : (encodeVersion version groups).length < 2 ^ 64) :
    readVersion (encodeVersion version groups) =
      .ok { datasetVersion := version, groups := groups.map WriteGroup.raw } := by
  have hgroups : Folds versionField { datasetVersion := version }
      (groups.flatMap (fun g => putBytes 3 (encodeGroup g)) ++ [])
      { datasetVersion := version, groups := groups.map WriteGroup.raw } := by
    refine .repeated (by decide)
      (fun raw l => { raw with groups := raw.groups ++ l.map WriteGroup.raw })
      (fun _ => True) (fun raw => by simp) (fun raw l l' => by simp) (fun _ _ _ => trivial)
      (fun raw g hg _ hlen => ?_) trivial .nil
    simp only [versionField, readGroup_encode g (hfits g hg).1 (hfits g hg).2 hlen]
    rfl
  rw [append_nil] at hgroups
  unfold encodeVersion at hsize
  rw [length_append] at hsize
  rcases hgroups (lt_of_le_of_lt (Nat.le_add_left _ _) hsize) with ⟨fields, hread, hfold⟩
  rw [readVersion, encodeVersion, readFields_putUint_any 1 _ (by decide) hversion, hread]
  -- A version of zero is left out, and is what the reader starts from.
  by_cases hzero : version = 0
  · subst hzero
    simp [hfold, ensure]
  · simp [hzero, hfold, ensure, versionField]

variable (messages : List (List UInt8))

/-- The fields of a content made of version messages. -/
theorem readFields_messages (hsize : (messages.flatMap (putBytes 1)).length < 2 ^ 64) :
    readFields (messages.flatMap (putBytes 1)) =
      (messages.map (fun m => ⟨1, 2, 0, m⟩), false) := by
  have hread := readFields_flatMap 1 [] (by decide) messages
    (fun m hm => Nat.lt_of_le_of_lt (length_le_repeated 1 (fun m => m) hm) hsize)
  grind [readFields_nil]

theorem versionMessages_messages :
    versionMessages (messages.map (fun m => ⟨1, 2, 0, m⟩)) = messages := by
  unfold versionMessages
  rw [filter_eq_self.mpr (fun f hf => by
    rcases mem_map.mp hf with ⟨m, -, rfl⟩
    rfl), map_map]
  exact map_id messages

/-- The details an entry is written with, as their messages. -/
theorem reuseDetails_ok {prior : Option (List UInt8)} {details : List UInt8}
    (h : reuseDetails prior version groups = .ok details) :
    ∃ kept, priorMessages prior = .ok kept ∧
      details = putBytes 1 ((kept ++ [encodeVersion version groups]).flatMap (putBytes 1)) := by
  grind [reuseDetails, bind_eq_ok, pure_eq_ok]

/-- The messages in some details are the ones the next entry copies. -/
theorem priorMessages_details (hsize : (messages.flatMap (putBytes 1)).length < 2 ^ 64) :
    priorMessages (some (putBytes 1 (messages.flatMap (putBytes 1)))) = .ok messages := by
  have hfields := readFields_putBytes 1 (messages.flatMap (putBytes 1)) [] (by decide) hsize
  rw [append_nil, readFields_nil] at hfields
  have hinner := readFields_messages messages hsize
  unfold priorMessages
  simp only [hfields, keptMessages, hinner, versionMessages_messages]
  simp [bind, Except.bind, pure, Except.pure, ensure]

/-- An entry reads as the versions whose messages it holds. -/
theorem fromDetails_messages (readAll : List UInt8 → Except String (List UInt8)) {entry : ReuseEntry}
    {messages : List (List UInt8)} {versions : List RawVersion}
    (hurl : entry.detailsTypeUrl = "/lance.table.FragmentReuseIndexDetails")
    (hdetails : entry.detailsValue = putBytes 1 (messages.flatMap (putBytes 1)))
    (hsize : entry.detailsValue.length < 2 ^ 64)
    (hversions : messages.mapM readVersion = .ok versions) :
    fromDetails readAll entry = versions.mapM buildRawStep := by
  rw [hdetails] at hsize
  have hle := length_le_putBytes 1 (messages.flatMap (putBytes 1))
  have hfields := readFields_putBytes 1 (messages.flatMap (putBytes 1)) [] (by decide) (by omega)
  rw [append_nil, readFields_nil] at hfields
  have hinner := readFields_messages messages (by omega)
  have hcontent : contentOf readAll entry.detailsValue = .ok (messages.flatMap (putBytes 1)) := by
    unfold contentOf
    rw [hdetails, hfields]
    rfl
  have hinline : readInline (messages.flatMap (putBytes 1)) = .ok versions := by
    unfold readInline
    rw [hinner]
    simp only [versionMessages_messages, hversions]
    rfl
  have hsuffix : "FragmentReuseIndexDetails".toList.isSuffixOf
      "/lance.table.FragmentReuseIndexDetails".toList = true := by decide
  unfold fromDetails
  rw [hurl, hsuffix, hcontent]
  simp only [ensure, if_true, bind, Except.bind, hinline]

end ReuseDetails

end NanoLance
