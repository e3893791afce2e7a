import NanoLance.Compaction

/-!
# Rows an Index Search Can Return

A vector search and a full-text search answer from two sources. The segments
of an index hold row addresses, and a row mask says which of them may be
returned. The fragments no segment covers are scanned instead, and every live
row of them may be returned.

The two searches differ in every part. They pick their segments differently,
they keep the fragments overlaid since a segment was built out of its coverage
at different points, and their masks are not the same: a vector search masks
each segment by the fragments it covers, a full-text search masks all segments
by the fragments of the version.

Neither looks at the fragment reuse index. Neither is given a filter here, a
list of segments or the option to leave the unindexed rows out.

## Main definitions

* `fragmentStale`, `fragmentsStaleForIndex`: Fragments overlaid since a segment
  was built.
* `nearestCovered`, `fullTextCovered`: The fragments that are not scanned.
-/

namespace NanoLance

open List

/-- What the files of a dataset hold: the deletion vectors, the addresses in the files of each
    segment, and whether a full-text index is one of list elements. -/
structure SearchFiles where
  vectors : DeletionVectors
  stored : Nat → List Nat
  listElement : IndexDetails → Bool

/-- The two searches, with the column they are on. -/
inductive SearchKind where
  | nearest (column : Int)
  | fullText (column : String) (element : Bool)
  deriving DecidableEq, Repr

/-- The fields overlaid after a version, `none` when an overlay is malformed. -/
def overlaidFieldsAfter (version : Nat) : List OverlayMessage → Option (List Int)
  | [] => some []
  | .malformed _ :: _ => none
  | .decoded o :: rest =>
    (overlaidFieldsAfter version rest).map (fun others =>
      if version < o.committedVersion then o.dataFile.fields ++ others else others)

/-- The fragment was overlaid in one of the fields since `version`. -/
def fragmentStale (fields : List Int) (version : Nat) (f : DataFragment) : Bool :=
  !f.overlays.isEmpty &&
    (overlaidFieldsAfter version f.overlays).all (fun touched => fields.any (fun id => id ∈ touched))

def fragmentsStaleForIndex (m : Manifest) (index : IndexMetadata) : List Nat :=
  (m.fragments.filter (fragmentStale index.fields index.datasetVersion)).map (fun f => f.id % 2 ^ 32)

/-- The segments of one index: those named as the first, where an empty name counts as none. -/
def pickNamed : String → List IndexMetadata → List IndexMetadata
  | _, [] => []
  | name, index :: rest =>
    let name := if name = "" then index.name else name
    if index.name = name then index :: pickNamed name rest else pickNamed name rest

/-- The segments named as the first. -/
def sameName : List IndexMetadata → List IndexMetadata
  | [] => []
  | index :: rest => index :: rest.filter (fun i => i.name = index.name)

/-- A field's path, empty when a field on it is missing. The parents are followed at most once per
    field. -/
def indexedColumn (fields : List Field) : Nat → Int → String → String
  | 0, _, _ => ""
  | fuel + 1, id, path =>
    if id < 0 then path
    else
      match fields.find? (fun f => f.id = id) with
      | none => ""
      | some f =>
        indexedColumn fields fuel f.parentId (if path = "" then f.name else f.name ++ "." ++ path)

def isVectorOn (column : Int) (index : IndexMetadata) : Bool :=
  index.fields = [column] && endsWith index.detailsTypeUrl "VectorIndexDetails"

def isInvertedOn (files : SearchFiles) (fields : List Field) (column : String) (element : Bool)
    (index : IndexMetadata) : Bool :=
  match index.fields with
  | [id] =>
    endsWith index.detailsTypeUrl "InvertedIndexDetails" && column ≠ "" &&
      indexedColumn fields (fields.length + 1) id "" = column &&
      files.listElement index.details = element
  | _ => false

/-- The segments a search uses. -/
def segmentsOf (files : SearchFiles) (kind : SearchKind) (fields : List Field)
    (indices : List IndexMetadata) : List IndexMetadata :=
  match kind with
  | .nearest column => pickNamed "" (indices.filter (isVectorOn column))
  | .fullText column element => sameName (indices.filter (isInvertedOn files fields column element))

/-- The fragment of a version with a 32-bit id. -/
def fragmentAt (m : Manifest) (id : Nat) : Option DataFragment :=
  m.fragments.find? (fun f => f.id % 2 ^ 32 = id)

/-- The fragments a segment answers for in a vector search. -/
def nearestLimit (m : Manifest) (s : IndexMetadata) : List Nat :=
  s.fragmentIds.filter (fun id => id ∉ fragmentsStaleForIndex m s)

/-- The limit as the mask keeps it, where an empty one would mean any fragment. -/
def nearestMask (m : Manifest) (s : IndexMetadata) : List Nat :=
  if (nearestLimit m s).isEmpty then [2 ^ 32 - 1] else nearestLimit m s

/-- The row mask of a segment in a vector search. Deleted rows are looked up only when one of the
    segment's fragments has any. -/
def nearestAllows (files : SearchFiles) (m : Manifest) (s : IndexMetadata) (address : Nat) : Bool :=
  let deletions := m.fragments.any (fun f =>
    f.id % 2 ^ 32 ∈ nearestMask m s && f.deletionFile.isSome)
  match fragmentAt m (fragmentOf address) with
  | none => false
  | some f =>
    fragmentOf address ∈ nearestMask m s && offsetOf address < f.physicalRows &&
      (!deletions || liveRow files.vectors f (offsetOf address))

/-- The row mask of a full-text search. -/
def fullTextAllows (files : SearchFiles) (m : Manifest) (address : Nat) : Bool :=
  match fragmentAt m (fragmentOf address) with
  | none => false
  | some f => f.deletionFile.isNone || liveRow files.vectors f (offsetOf address)

def allows (files : SearchFiles) (kind : SearchKind) (m : Manifest) (s : IndexMetadata)
    (address : Nat) : Bool :=
  match kind with
  | .nearest _ => nearestAllows files m s address
  | .fullText _ _ => fullTextAllows files m address

def nearestCovered (m : Manifest) (segments : List IndexMetadata) : List Nat :=
  segments.flatMap (nearestLimit m)

/-- The segments in order: each adds its coverage, then takes out the fragments overlaid since it
    was built, whoever covers them. -/
def fullTextCovered (m : Manifest) (segments : List IndexMetadata) : List Nat :=
  segments.foldl (fun covered s =>
    (covered ++ s.fragmentIds).filter (fun id => id ∉ fragmentsStaleForIndex m s)) []

def covered (kind : SearchKind) (m : Manifest) (segments : List IndexMetadata) : List Nat :=
  match kind with
  | .nearest _ => nearestCovered m segments
  | .fullText _ _ => fullTextCovered m segments

/-- The search can return the row: a segment holds it and the mask allows it, or its fragment is
    scanned and it is live. -/
def answers (files : SearchFiles) (kind : SearchKind) (m : Manifest) (address : Nat) : Bool :=
  let segments := segmentsOf files kind m.fields m.indices
  segments.any (fun s => address ∈ files.stored s.uuid && allows files kind m s address) ||
    m.fragments.any (fun f => f.id % 2 ^ 32 ∉ covered kind m segments && f.id = fragmentOf address &&
      liveRow files.vectors f (offsetOf address))

/-- Fragment ids are distinct, have 32 bits and leave the largest one out, and an index holds
    addresses of rows. -/
structure Addressable (files : SearchFiles) (m : Manifest) : Prop where
  distinct : (m.fragments.map (·.id)).Nodup
  small : ∀ f ∈ m.fragments, f.id < 2 ^ 32 - 1
  inside : ∀ uuid, ∀ a ∈ files.stored uuid, ∀ f ∈ m.fragments, f.id = fragmentOf a →
    offsetOf a < f.physicalRows

/-- A segment whose rows in the fragment are looked at. -/
def reaches (kind : SearchKind) (f : DataFragment) (s : IndexMetadata) : Bool :=
  match kind with
  | .nearest _ => f.id ∈ s.fragmentIds && !fragmentStale s.fields s.datasetVersion f
  | .fullText _ _ => true

/-- The fragment is not scanned. -/
def coveredIn (kind : SearchKind) (segments : List IndexMetadata) (f : DataFragment) : Bool :=
  match kind with
  | .nearest _ => segments.any (fun s =>
      f.id ∈ s.fragmentIds && !fragmentStale s.fields s.datasetVersion f)
  | .fullText _ _ => segments.foldl (fun covered s =>
      (covered || f.id ∈ s.fragmentIds) && !fragmentStale s.fields s.datasetVersion f) false

/-- The search can return the row of the fragment. -/
def answersIn (files : SearchFiles) (kind : SearchKind) (segments : List IndexMetadata)
    (f : DataFragment) (address : Nat) : Bool :=
  liveRow files.vectors f (offsetOf address) &&
    (segments.any (fun s => address ∈ files.stored s.uuid && reaches kind f s) ||
      !coveredIn kind segments f)

section Addressable

variable {files : SearchFiles} {m : Manifest} {f g : DataFragment} {a : Nat} (s : IndexMetadata)
  (kind : SearchKind)

section

variable (h : Addressable files m) (hf : f ∈ m.fragments)

include h hf

theorem Addressable.eq_of_id (hg : g ∈ m.fragments) (hid : f.id = g.id) : f = g :=
  inj_on_of_nodup_map h.distinct hf hg hid

theorem Addressable.mod_id : f.id % 2 ^ 32 = f.id := by
  have := h.small f hf
  omega

theorem Addressable.fragmentAt_eq : fragmentAt m f.id = some f := by
  unfold fragmentAt
  cases hfind : m.fragments.find? (fun g => g.id % 2 ^ 32 = f.id) with
  | none =>
    have := find?_eq_none.mp hfind f hf
    rw [h.mod_id hf] at this
    exact absurd (decide_eq_true rfl) this
  | some g =>
    have hg := mem_of_find?_eq_some hfind
    have hid := find?_some hfind
    rw [decide_eq_true_eq, h.mod_id hg] at hid
    rw [h.eq_of_id hg hf hid]

omit hf in
theorem Addressable.of_fragmentAt (id : Nat) (f : DataFragment) (hat : fragmentAt m id = some f) :
    f ∈ m.fragments ∧ f.id = id := by
  have hf := mem_of_find?_eq_some hat
  have hid := find?_some hat
  rw [decide_eq_true_eq, h.mod_id hf] at hid
  exact ⟨hf, hid⟩

theorem Addressable.mem_stale :
    f.id ∈ fragmentsStaleForIndex m s ↔ fragmentStale s.fields s.datasetVersion f = true := by
  unfold fragmentsStaleForIndex
  rw [mem_map]
  constructor
  · rintro ⟨g, hg, hid⟩
    rcases mem_filter.mp hg with ⟨hgm, hstale⟩
    rw [h.mod_id hgm] at hid
    rwa [h.eq_of_id hgm hf hid] at hstale
  · exact fun hstale => ⟨f, mem_filter.mpr ⟨hf, hstale⟩, h.mod_id hf⟩

theorem Addressable.mem_nearestLimit : f.id ∈ nearestLimit m s ↔
      (decide (f.id ∈ s.fragmentIds) && !fragmentStale s.fields s.datasetVersion f) = true := by
  rw [nearestLimit, mem_filter, decide_eq_true_eq, h.mem_stale s hf, Bool.and_eq_true,
    decide_eq_true_eq, Bool.not_eq_true', Bool.not_eq_true]

/-- The stand-in for an empty limit names no fragment. -/
theorem Addressable.mem_nearestMask : f.id ∈ nearestMask m s ↔ f.id ∈ nearestLimit m s := by
  unfold nearestMask
  by_cases hempty : (nearestLimit m s).isEmpty = true
  · rw [if_pos hempty, List.isEmpty_iff.mp hempty, mem_singleton]
    have := h.small f hf
    simp only [not_mem_nil, iff_false]
    omega
  · rw [if_neg hempty]

theorem Addressable.nearestAllows_iff (ha : f.id = fragmentOf a) :
    nearestAllows files m s a = true ↔
      f.id ∈ nearestLimit m s ∧ liveRow files.vectors f (offsetOf a) = true := by
  unfold nearestAllows
  rw [← ha, h.fragmentAt_eq hf]
  simp only [Bool.and_eq_true, decide_eq_true_eq, h.mem_nearestMask s hf, and_assoc]
  refine and_congr_right (fun hlimit => ?_)
  by_cases hdel : f.deletionFile.isSome = true
  · -- The fragment's own deletion file is one of those looked at.
    have hany : (m.fragments.any (fun f =>
        decide (f.id % 2 ^ 32 ∈ nearestMask m s) && f.deletionFile.isSome)) = true := by
      rw [any_eq_true]
      refine ⟨f, hf, ?_⟩
      rw [h.mod_id hf, hdel, decide_eq_true ((h.mem_nearestMask s hf).mpr hlimit)]
      rfl
    rw [hany, Bool.not_true, Bool.false_or]
    exact ⟨fun hx => hx.2, fun hx => ⟨liveRow_lt _ _ _ hx, hx⟩⟩
  · have hnone : f.deletionFile = none := by simpa using hdel
    grind [liveRow_of_no_deletions]

theorem Addressable.fullTextAllows_iff {uuid : Nat} (ha : f.id = fragmentOf a)
    (hstored : a ∈ files.stored uuid) :
    fullTextAllows files m a = true ↔ liveRow files.vectors f (offsetOf a) = true := by
  unfold fullTextAllows
  rw [← ha, h.fragmentAt_eq hf]
  simp only [Bool.or_eq_true]
  refine ⟨fun hx => ?_, .inr⟩
  rcases hx with hnone | hlive
  · rw [liveRow_of_no_deletions _ _ _ (Option.isNone_iff_eq_none.mp hnone)]
    exact decide_eq_true (h.inside uuid a hstored f hf ha)
  · exact hlive

theorem Addressable.mem_fullTextCovered :
    ∀ (segments : List IndexMetadata) (ids : List Nat),
    (f.id ∈ segments.foldl (fun covered s =>
      (covered ++ s.fragmentIds).filter (fun id => id ∉ fragmentsStaleForIndex m s)) ids ↔
    segments.foldl (fun covered s =>
      (covered || f.id ∈ s.fragmentIds) && !fragmentStale s.fields s.datasetVersion f)
      (decide (f.id ∈ ids)) = true) := by
  intro segments
  induction segments with
  | nil => exact fun ids => decide_eq_true_iff.symm
  | cons s rest ih =>
    intro ids
    rw [foldl_cons, foldl_cons, ih]
    have hmem : decide (f.id ∈ (ids ++ s.fragmentIds).filter
        (fun id => id ∉ fragmentsStaleForIndex m s)) =
        ((decide (f.id ∈ ids) || decide (f.id ∈ s.fragmentIds)) &&
          !fragmentStale s.fields s.datasetVersion f) := by
      rw [Bool.eq_iff_iff]
      simp only [mem_filter, mem_append, decide_eq_true_eq, h.mem_stale s hf,
        Bool.and_eq_true, Bool.or_eq_true, Bool.not_eq_true', Bool.not_eq_true]
    rw [hmem]

theorem Addressable.mem_covered (segments : List IndexMetadata) :
    f.id ∈ covered kind m segments ↔ coveredIn kind segments f = true := by
  cases kind with
  | nearest column =>
    rw [covered, nearestCovered, coveredIn, mem_flatMap, any_eq_true]
    simp only [h.mem_nearestLimit _ hf]
  | fullText column element =>
    rw [covered, fullTextCovered, coveredIn, h.mem_fullTextCovered hf segments []]
    rfl

omit hf

/-- A segment returns a row when its fragment is in the version, the row is live and the search
    looks at the segment's rows there. -/
theorem Addressable.allows_iff (hstored : a ∈ files.stored s.uuid) :
    allows files kind m s a = true ↔ ∃ f ∈ m.fragments, f.id = fragmentOf a ∧
      liveRow files.vectors f (offsetOf a) = true ∧ reaches kind f s = true := by
  by_cases hat : ∃ f ∈ m.fragments, f.id = fragmentOf a
  · rcases hat with ⟨f, hf, ha⟩
    have honly : (∃ g ∈ m.fragments, g.id = fragmentOf a ∧
        liveRow files.vectors g (offsetOf a) = true ∧ reaches kind g s = true) ↔
        liveRow files.vectors f (offsetOf a) = true ∧ reaches kind f s = true := by
      constructor
      · rintro ⟨g, hg, hga, hx⟩
        rwa [h.eq_of_id hg hf (hga.trans ha.symm)] at hx
      · exact fun hx => ⟨f, hf, ha, hx⟩
    rw [honly]
    cases kind with
    | nearest column =>
      rw [allows, h.nearestAllows_iff s hf ha, h.mem_nearestLimit s hf, and_comm]
      rfl
    | fullText column element =>
      rw [allows, h.fullTextAllows_iff hf ha hstored]
      exact (and_iff_left rfl).symm
  · -- A row of no fragment of the version: both masks refuse it.
    have hnone : fragmentAt m (fragmentOf a) = none := by
      cases hfind : fragmentAt m (fragmentOf a) with
      | none => rfl
      | some f => exact absurd ⟨f, h.of_fragmentAt _ f hfind⟩ hat
    have hfalse : allows files kind m s a = false := by
      cases kind with
      | nearest column => simp only [allows, nearestAllows, hnone]
      | fullText column element => simp only [allows, fullTextAllows, hnone]
    grind

/-- A search returns a row when it does so within its fragment. -/
theorem answers_iff (a : Nat) :
    answers files kind m a = true ↔ ∃ f ∈ m.fragments, f.id = fragmentOf a ∧
      answersIn files kind (segmentsOf files kind m.fields m.indices) f a = true := by
  unfold answers answersIn
  set segments := segmentsOf files kind m.fields m.indices
  simp only [Bool.or_eq_true, any_eq_true, Bool.and_eq_true, decide_eq_true_eq,
    Bool.not_eq_true', and_assoc]
  constructor
  · rintro (⟨s, hs, hstored, hallows⟩ | ⟨f, hf, hcov, ha, hlive⟩)
    · rcases (h.allows_iff s kind hstored).mp hallows with ⟨f, hf, ha, hlive, hreach⟩
      exact ⟨f, hf, ha, hlive, .inl ⟨s, hs, hstored, hreach⟩⟩
    · rw [h.mod_id hf, h.mem_covered kind hf segments, Bool.not_eq_true] at hcov
      exact ⟨f, hf, ha, hlive, .inr hcov⟩
  · rintro ⟨f, hf, ha, hlive, ⟨s, hs, hstored, hreach⟩ | hcov⟩
    · exact .inl ⟨s, hs, hstored, (h.allows_iff s kind hstored).mpr ⟨f, hf, ha, hlive, hreach⟩⟩
    · refine .inr ⟨f, hf, ?_, ha, hlive⟩
      rw [h.mod_id hf, h.mem_covered kind hf segments, hcov]
      simp

end

end Addressable

end NanoLance
