import NanoLance.OptimizeSegments
import NanoLance.IndexRebase

/-!
# Segments Across Commits

What stays true of a dataset's text segments from commit to commit. A segment
holds the live rows with text of every present fragment it covers, except for
the fragments a deferred compaction moved its coverage to after it was built:
of those it holds nothing, and neither does any other segment of its name.

The argument rests on fragment ids. An id at or below the high-water mark has
been used, and a new fragment takes one that has not, so a row address in a
segment's files can never come to name another row. What a commit may do to
fragments and coverage is said once, in `Carries`: old fragments lose rows and
keep the values an index still covers, other fragments have unused ids, and
coverage only grows by unused ids that the fragment reuse index names.
-/

namespace NanoLance

open List

/-- An id at or below the high-water mark. -/
def Used (m : Manifest) (id : Nat) : Prop :=
  ∃ top, m.maxFragmentId = some top ∧ id ≤ top

/-- The versions of the fragment reuse index a manifest is read with. -/
def reuseHistory (m : Manifest) : List ReuseVersion :=
  match newestReuse m.indices with
  | none => []
  | some index =>
    match index.details with
    | .reuseInline versions => versions
    | _ => []

/-- The fragments that deferred compactions wrote after a segment was built. -/
def movedSince (m : Manifest) (index : IndexMetadata) : List Nat :=
  ((reuseHistory m).filter (fun v => index.datasetVersion < v.datasetVersion)).flatMap
    (fun v => v.groups.flatMap (·.newIds))

/-- An entry that differs from another in its coverage only. -/
def SameSegment (i j : IndexMetadata) : Prop :=
  ∃ ids changed, j = { i with fragmentIds := ids, fragmentBitmapChanged := changed }

section Invariant

variable {V : Type} (format : TableFormat V)

/-- What holds of one text segment. -/
structure SegmentSound (s : Dataset) (i : IndexMetadata) : Prop where
  bitmap : i.hasFragmentBitmap = true
  field : ∃ x ∈ s.manifest.fields, i.fields = [x.id]
  kind : textKind i = some (kindOf (s.segments i.uuid))
  details : kindOf (s.segments i.uuid) = .ngram → i.details = .bytes []
  version : i.datasetVersion ≤ s.manifest.version
  covered : ∀ id ∈ i.fragmentIds, Used s.manifest id
  current : ∀ id ∈ i.fragmentIds, ∀ v ∈ reuseHistory s.manifest, ∀ g ∈ v.groups, id ∉ g.oldIds
  stored : ∀ row ∈ storedRows (s.segments i.uuid), Used s.manifest (fragmentOf row)
  complete : ∀ f ∈ s.manifest.fragments, f.id ∈ i.fragmentIds → f.id ∉ movedSince s.manifest i →
    ∀ offset, liveRow format.vectors f offset = true → ∀ field ∈ i.fields,
      holdsRow format (s.segments i.uuid) (format.listElement i.details)
        (fieldCell format f field offset) (rowAddress f.id offset)

/-- What holds of the fragments and of the fragment reuse index. -/
structure FragmentsSound (m : Manifest) : Prop where
  unstable : isStable m = false
  fields : ∀ f ∈ m.fields, 0 ≤ f.id ∧ f.id < 2 ^ 31
  small : ∀ top, m.maxFragmentId = some top → top < 2 ^ 32 - 1
  ids : (m.fragments.map (·.id)).Nodup
  rows : ∀ f ∈ m.fragments, Used m f.id ∧ f.physicalRows ≤ 2 ^ 32
  system : ∀ i ∈ m.indices, isSystemIndex i = true →
    i.name = fragReuseIndex ∧ i.details = .reuseInline (reuseHistory m) ∧ i.fields = []
  past : ∀ v ∈ reuseHistory m, v.datasetVersion ≤ m.version
  gone : ∀ v ∈ reuseHistory m, ∀ g ∈ v.groups, ∀ id ∈ g.oldIds,
    Used m id ∧ id ∉ m.fragments.map (·.id)

/-- The invariant: sound fragments, sound segments, segments of one name that read text alike, and
    none that holds rows of a fragment the coverage of one of its name was moved to. -/
structure Sound (s : Dataset) : Prop extends FragmentsSound s.manifest where
  segments : ∀ i ∈ s.manifest.indices, isSystemIndex i = false → SegmentSound format s i
  alike : ∀ i ∈ s.manifest.indices, ∀ j ∈ s.manifest.indices, isSystemIndex i = false →
    isSystemIndex j = false → i.name = j.name →
      analyzerOf (s.segments i.uuid) = analyzerOf (s.segments j.uuid) ∧
        format.listElement i.details = format.listElement j.details ∧ i.fields = j.fields
  apart : ∀ i ∈ s.manifest.indices, ∀ j ∈ s.manifest.indices, isSystemIndex i = false →
    isSystemIndex j = false → i.name = j.name → ∀ id ∈ i.fragmentIds,
      id ∈ movedSince s.manifest i → ∀ row ∈ storedRows (s.segments j.uuid), fragmentOf row ≠ id

/-- What a commit that builds no segment does to a version. -/
structure Carries (m m' : Manifest) : Prop where
  unstable : isStable m' = false
  fields : m'.fields = m.fields
  version : m.version ≤ m'.version
  used : ∀ id, Used m id → Used m' id
  small : ∀ top, m'.maxFragmentId = some top → top < 2 ^ 32 - 1
  ids : (m'.fragments.map (·.id)).Nodup
  rows : ∀ f' ∈ m'.fragments, Used m' f'.id ∧ f'.physicalRows ≤ 2 ^ 32
  fragments : ∀ f' ∈ m'.fragments, (∃ f ∈ m.fragments, f.id = f'.id ∧
    ∀ offset, liveRow format.vectors f' offset = true → liveRow format.vectors f offset = true) ∨
      ¬ Used m f'.id
  system : ∀ i ∈ m'.indices, isSystemIndex i = true →
    i.name = fragReuseIndex ∧ i.details = .reuseInline (reuseHistory m') ∧ i.fields = []
  history : reuseHistory m' = reuseHistory m ∨
    ∃ v, reuseHistory m' = reuseHistory m ++ [v] ∧ m.version < v.datasetVersion ∧
      v.datasetVersion ≤ m'.version ∧ (∀ g ∈ v.groups, ∀ id ∈ g.newIds, ¬ Used m id) ∧
      ∀ g ∈ v.groups, ∀ id ∈ g.oldIds, Used m id ∧ id ∉ m'.fragments.map (·.id) ∧
        ∀ i ∈ m'.indices, isSystemIndex i = false → id ∉ i.fragmentIds
  segments : ∀ i' ∈ m'.indices, isSystemIndex i' = false → ∃ i ∈ m.indices, SameSegment i i' ∧
    (∀ id ∈ i'.fragmentIds, id ∈ i.fragmentIds ∨
      (¬ Used m id ∧ Used m' id ∧ id ∈ movedSince m' i')) ∧
    ∀ f ∈ m.fragments, ∀ f' ∈ m'.fragments, f.id = f'.id → f'.id ∈ i'.fragmentIds →
      ∀ field ∈ i.fields, (∃ x ∈ m.fields, x.id = field) → ∀ offset,
        fieldCell format f' field offset = fieldCell format f field offset

end Invariant

variable {id : Nat} {m : Manifest}

theorem Used.lt_next (h : Used m id) : id < nextFragmentId m := by
  rcases h with ⟨top, htop, hle⟩
  have := mark_lt_nextFragmentId htop
  omega

theorem not_used (h : nextFragmentId m ≤ id) : ¬ Used m id :=
  fun hused => Nat.not_lt.mpr h hused.lt_next

theorem SameSegment.isSystem {i j : IndexMetadata} (h : SameSegment i j) :
    isSystemIndex j = isSystemIndex i := by
  rcases h with ⟨_, _, rfl⟩
  rfl

theorem FragmentsSound.nonneg (h : FragmentsSound m) {field : Int}
    (hschema : ∃ x ∈ m.fields, x.id = field) : 0 ≤ field := by
  rcases hschema with ⟨x, hx, rfl⟩
  exact (h.fields x hx).1

theorem FragmentsSound.small_of_used (h : FragmentsSound m) (hid : Used m id) :
    id < 2 ^ 32 - 1 := by
  rcases hid with ⟨top, htop, hle⟩
  have := h.small top htop
  omega

theorem FragmentsSound.find (h : FragmentsSound m) (f : DataFragment) (hf : f ∈ m.fragments) :
    m.fragment? f.id = some f :=
  (fragment_iff h.ids f.id f).mpr ⟨hf, rfl⟩

/-- The versions every entry of the fragment reuse index agrees on. -/
theorem reuseHistory_eq {m : Manifest} {versions : List ReuseVersion}
    (hall : ∀ i ∈ m.indices, i.name = fragReuseIndex → i.details = .reuseInline versions)
    (hone : versions = [] ∨ ∃ i ∈ m.indices, i.name = fragReuseIndex) :
    reuseHistory m = versions := by
  rcases newestReuse_spec m.indices with ⟨hnone, hsome⟩
  unfold reuseHistory
  grind

theorem mem_movedSince (m : Manifest) (i : IndexMetadata) (id : Nat) :
    id ∈ movedSince m i ↔ ∃ v ∈ reuseHistory m, i.datasetVersion < v.datasetVersion ∧
      ∃ g ∈ v.groups, id ∈ g.newIds := by
  simp only [movedSince, mem_flatMap, mem_filter, decide_eq_true_eq, and_assoc]

/-- The fragments a deferred compaction replaced are in no coverage, so a reader of the fragment
    reuse index sees the coverage of an entry as it stands. -/
theorem mem_reuseCoverage (hm : FragmentsSound m)
    {external : Nat → Except String (List ReuseVersion)} {reuse : Option (List RemapStep)}
    (h : loadReuse external m = .ok reuse) {ids : List Nat}
    (hids : ∀ id ∈ ids, ∀ v ∈ reuseHistory m, ∀ g ∈ v.groups, id ∉ g.oldIds) (id : Nat) :
    id ∈ reuseCoverage reuse ids ↔ id ∈ ids := by
  unfold loadReuse at h
  cases hnew : newestReuse m.indices with
  | none =>
    rw [hnew, Except.ok.injEq] at h
    subst h
    exact Iff.rfl
  | some index =>
    rcases (newestReuse_spec m.indices).2 index hnew with ⟨hin, hname⟩
    have hsys : isSystemIndex index = true := by simp [isSystemIndex, hname]
    simp only [hnew, reuseVersions, (hm.system index hin hsys).2.1, Lib.bind_eq_ok, Lib.pure_eq_ok,
      Except.ok.injEq, exists_eq_left'] at h
    rcases h with ⟨steps, hsteps, rfl⟩
    cases steps with
    | nil => exact Iff.rfl
    | cons step rest =>
      show id ∈ remapCoverage ids _ ↔ _
      rw [buildSteps_groups _ _ hsteps]
      refine mem_remapCoverage_same id _ ids (fun g hg x hx hcov => ?_)
      rcases mem_map.mp hg with ⟨raw, hraw, rfl⟩
      rcases mem_flatMap.mp hraw with ⟨v, hv, hvg⟩
      rcases mem_map.mp hx with ⟨n, hn, rfl⟩
      -- An old fragment has a 32-bit id.
      have hold : n.1 ∈ raw.oldIds := mem_map_of_mem hn
      have hsmall := hm.small_of_used (hm.gone v hv raw hvg n.1 hold).1
      grind

section Carrying

variable {V : Type} {format : TableFormat V} {s : Dataset} {m' : Manifest}

/-- A commit adds unused fragments to those a segment was moved to, and takes none away. -/
theorem Carries.moved (h : Carries format m m') (i i' : IndexMetadata)
    (hsame : i'.datasetVersion = i.datasetVersion) (id : Nat) :
    (id ∈ movedSince m i → id ∈ movedSince m' i') ∧
      (id ∈ movedSince m' i' → id ∈ movedSince m i ∨ ¬ Used m id) := by
  simp only [mem_movedSince, hsame]
  rcases h.history with heq | ⟨v, heq, -, -, hnew, -⟩
  · rw [heq]
    exact ⟨fun hm => hm, .inl⟩
  · rw [heq]
    constructor
    · grind
    · grind

theorem Carries.fragmentsSound (h : Carries format m m') (hm : FragmentsSound m) :
    FragmentsSound m' where
  unstable := h.unstable
  fields := h.fields ▸ hm.fields
  small := h.small
  ids := h.ids
  rows := h.rows
  system := h.system
  past := by
    have hv := h.version
    rcases h.history with heq | ⟨v, heq, -, hle, -⟩
    · intro w hw
      have := hm.past w (heq ▸ hw)
      omega
    · intro w hw
      rw [heq] at hw
      rcases mem_append.mp hw with hw | hw
      · have := hm.past w hw
        omega
      · rw [mem_singleton.mp hw]
        exact hle
  gone := by
    -- A fragment that was gone stays so: the fragments that come have unused ids.
    have hkeep : ∀ w ∈ reuseHistory m, ∀ g ∈ w.groups, ∀ id ∈ g.oldIds,
        Used m' id ∧ id ∉ m'.fragments.map (·.id) := by
      intro w hw g hg id hid
      rcases hm.gone w hw g hg id hid with ⟨hused, hnot⟩
      refine ⟨h.used id hused, fun hin => ?_⟩
      rcases mem_map.mp hin with ⟨f', hf', rfl⟩
      rcases h.fragments f' hf' with ⟨f, hf, hfid, -⟩ | hfresh
      · exact hnot (mem_map.mpr ⟨f, hf, hfid⟩)
      · exact hfresh hused
    rcases h.history with heq | ⟨v, heq, -, -, -, hold⟩
    · rw [heq]
      exact hkeep
    · intro w hw g hg id hid
      rw [heq] at hw
      rcases mem_append.mp hw with hw | hw
      · exact hkeep w hw g hg id hid
      · rw [mem_singleton] at hw
        subst hw
        rcases hold g hg id hid with ⟨hused, hnot, -⟩
        exact ⟨h.used id hused, hnot⟩

/-- One segment through a commit. -/
theorem SegmentSound.carried {i i' : IndexMetadata} (h : Carries format s.manifest m')
    (hs : FragmentsSound s.manifest) (hi : SegmentSound format s i) (hi' : i' ∈ m'.indices)
    (hsys : isSystemIndex i' = false) (hsame : SameSegment i i')
    (hids : ∀ id ∈ i'.fragmentIds, id ∈ i.fragmentIds ∨
      (¬ Used s.manifest id ∧ Used m' id ∧ id ∈ movedSince m' i'))
    (hcells : ∀ f ∈ s.manifest.fragments, ∀ f' ∈ m'.fragments, f.id = f'.id →
      f'.id ∈ i'.fragmentIds → ∀ field ∈ i.fields, (∃ x ∈ s.manifest.fields, x.id = field) →
        ∀ offset, fieldCell format f' field offset = fieldCell format f field offset) :
    SegmentSound format { s with manifest := m' } i' := by
  have hmoved := h.moved i i' (by rcases hsame with ⟨_, _, rfl⟩; rfl)
  rcases hsame with ⟨ids, changed, rfl⟩
  refine ⟨hi.bitmap, h.fields ▸ hi.field, hi.kind, hi.details, le_trans hi.version h.version,
    fun id hid => ?_,
    fun id hid v hv g hg hold => ?_, fun row hrow => h.used _ (hi.stored row hrow), ?_⟩
  · rcases hids id hid with hin | ⟨-, hused, -⟩
    · exact h.used id (hi.covered id hin)
    · exact hused
  · -- A recorded old fragment is covered by no segment.
    have hpast : ∀ w ∈ reuseHistory s.manifest, ∀ k ∈ w.groups, id ∉ k.oldIds := by
      intro w hw k hk hko
      rcases hids id hid with hin | ⟨hfresh, -⟩
      · exact hi.current id hin w hw k hk hko
      · exact hfresh (hs.gone w hw k hk id hko).1
    rcases h.history with heq | ⟨new, heq, -, -, -, hnew⟩
    · exact hpast v (heq ▸ hv) g hg hold
    · grind
  · intro f' hf' hcov hnot offset hlive field hfield
    have hcovOld : Used s.manifest f'.id → f'.id ∈ i.fragmentIds := by grind
    rcases h.fragments f' hf' with ⟨f, hf, hfid, hrows⟩ | hfresh
    · have hused := (hs.rows f hf).1
      rw [hfid] at hused
      have hheld := hi.complete f hf (hfid ▸ hcovOld hused)
        (fun hm => hnot ((hmoved f'.id).1 (hfid ▸ hm))) offset (hrows offset hlive) field hfield
      have hschema : ∃ x ∈ s.manifest.fields, x.id = field := by
        rcases hi.field with ⟨x, hx, honly⟩
        grind
      grind
    · -- A new fragment is covered only where the coverage was moved to it.
      rcases hids f'.id hcov with hin | ⟨-, -, hm⟩
      · exact absurd (hi.covered _ hin) hfresh
      · exact absurd hm hnot

/-- A commit that builds no segment keeps the invariant. -/
theorem Sound.carried (hs : Sound format s) (h : Carries format s.manifest m') :
    Sound format { s with manifest := m' } := by
  refine ⟨h.fragmentsSound hs.toFragmentsSound, fun i' hi' hsys => ?_, ?_, ?_⟩
  · rcases h.segments i' hi' hsys with ⟨i, hi, hsame, hids, hcells⟩
    exact SegmentSound.carried h hs.toFragmentsSound
      (hs.segments i hi (hsame.isSystem.symm.trans hsys)) hi' hsys hsame hids hcells
  · intro i' hi' j' hj' hi hj hname
    rcases h.segments i' hi' hi with ⟨i, him, ⟨_, _, rfl⟩, -⟩
    rcases h.segments j' hj' hj with ⟨j, hjm, ⟨_, _, rfl⟩, -⟩
    exact hs.alike i him j hjm hi hj hname
  · intro i' hi' j' hj' hi hj hname id hid hm row hrow heq
    rcases h.segments i' hi' hi with ⟨i, him, ⟨_, _, rfl⟩, hids, -⟩
    rcases h.segments j' hj' hj with ⟨j, hjm, ⟨_, _, rfl⟩, -⟩
    have hused := (hs.segments j hjm hj).stored row hrow
    rw [heq] at hused
    -- The fragment is an old one, so it was moved to before.
    rcases hids id hid with hin | ⟨hfresh, -⟩
    · rcases (h.moved i _ rfl id).2 hm with hold | hfresh
      · exact hs.apart i him j hjm hi hj hname id hin hold row hrow heq
      · exact hfresh hused
    · exact hfresh hused

end Carrying

end NanoLance
