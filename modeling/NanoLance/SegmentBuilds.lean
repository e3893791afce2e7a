import NanoLance.SegmentCommits

/-!
# Commits That Build Segments

An index creation and an optimize put new entries beside those they keep, and
change nothing else. A new segment is built on the version before the commit:
it covers fragments of that version, no deferred compaction is newer than it,
and its uuid is one no entry has.

What an optimize builds for one index is good exactly when no replaced segment
claims a fragment it was only moved to, and no scanned row is one a replaced
INVERTED segment still has. Both are asked of rows with text alone.
-/

namespace NanoLance

open List Lib

theorem mem_segmentsNamed (m : Manifest) (name : String) (i : IndexMetadata) :
    i ∈ segmentsNamed m name ↔ i ∈ m.indices ∧ isSystemIndex i = false ∧ i.name = name := by
  simp [segmentsNamed]

variable {i : IndexMetadata} {files : SegmentFiles} {m : Manifest}

theorem lt_newUuid {indices : List IndexMetadata} (hi : i ∈ indices) :
    i.uuid < newUuid indices :=
  (le_foldl_max (fun i : IndexMetadata => i.uuid + 1) indices 0).2 i hi

theorem mem_bitmapOf {ids : List Nat} (hsmall : ∀ x ∈ ids, x < 2 ^ 32) (id : Nat) :
    id ∈ bitmapOf ids ↔ id ∈ ids := by
  unfold bitmapOf
  rw [mem_insertionSort, mem_map]
  grind

theorem textKind_url {kind : TextKind} (h : i.detailsTypeUrl = textKindUrl kind) :
    textKind i = some kind := by
  unfold textKind
  rw [h]
  cases kind <;> decide

section Committing

variable {V : Type} (format : TableFormat V)

/-- A segment built on a version and fit to be committed after it. -/
structure NewSegment (s : Dataset) (b : BuiltSegment) : Prop where
  system : isSystemIndex b.entry = false
  bitmap : b.entry.hasFragmentBitmap = true
  field : ∃ x ∈ s.manifest.fields, b.entry.fields = [x.id]
  kind : textKind b.entry = some (kindOf b.files)
  details : kindOf b.files = .ngram → b.entry.details = .bytes []
  version : b.entry.datasetVersion = s.manifest.version
  covered : ∀ id ∈ b.entry.fragmentIds, id ∈ s.manifest.fragments.map (·.id)
  stored : ∀ row ∈ storedRows b.files, Used s.manifest (fragmentOf row)
  complete : ∀ f ∈ s.manifest.fragments, f.id ∈ b.entry.fragmentIds →
    ∀ offset, liveRow format.vectors f offset = true → ∀ field ∈ b.entry.fields,
      holdsRow format b.files (format.listElement b.entry.details) (fieldCell format f field offset)
        (rowAddress f.id offset)

/-- Two segments, by entry and files, that read text alike. -/
def ReadAlike (i j : IndexMetadata) (files others : SegmentFiles) : Prop :=
  analyzerOf files = analyzerOf others ∧
    format.listElement i.details = format.listElement j.details ∧ i.fields = j.fields

variable {format} {s : Dataset} {kept : List IndexMetadata} {built : List BuiltSegment}

/-- The files of an entry from before are untouched. -/
theorem commitSegments_old (hfresh : ∀ b ∈ built, newUuid s.manifest.indices ≤ b.entry.uuid)
    (i : IndexMetadata) (hi : i ∈ s.manifest.indices) :
    (commitSegments s kept built).segments i.uuid = s.segments i.uuid := by
  have hnone : built.find? (fun b => b.entry.uuid = i.uuid) = none := by
    refine find?_eq_none.mpr (fun b hb => ?_)
    have hlow := hfresh b hb
    have hlt := lt_newUuid hi
    rw [decide_eq_true_eq]
    omega
  simp only [commitSegments, hnone]

/-- The files of a new entry are those it was built with. -/
theorem commitSegments_new (hnodup : (built.map (fun b => b.entry.uuid)).Nodup) (b : BuiltSegment)
    (hb : b ∈ built) : (commitSegments s kept built).segments b.entry.uuid = b.files := by
  have hfind := (find_key_iff b.entry.uuid hnodup b).mpr ⟨hb, rfl⟩
  simp only [commitSegments, hfind]

/-- New segments keep the invariant where each reads text as the others of its name do, and holds no
    row of a fragment that a kept one was moved to. -/
theorem Sound.committed (hs : Sound format s) (hkept : ∀ i ∈ kept, i ∈ s.manifest.indices)
    (hsystem : ∀ i ∈ s.manifest.indices, isSystemIndex i = true → i ∈ kept)
    (hfresh : ∀ b ∈ built, newUuid s.manifest.indices ≤ b.entry.uuid)
    (hnodup : (built.map (fun b => b.entry.uuid)).Nodup)
    (hnew : ∀ b ∈ built, NewSegment format s b)
    (hpairs : ∀ b ∈ built, ∀ c ∈ built, b.entry.name = c.entry.name →
      ReadAlike format b.entry c.entry b.files c.files)
    (hmates : ∀ b ∈ built, ∀ i ∈ kept, isSystemIndex i = false → i.name = b.entry.name →
      ReadAlike format i b.entry (s.segments i.uuid) b.files ∧
      ∀ id ∈ i.fragmentIds, id ∈ movedSince s.manifest i → ∀ row ∈ storedRows b.files,
        fragmentOf row ≠ id) :
    Sound format (commitSegments s kept built) := by
  have hmem : ∀ i ∈ (commitSegments s kept built).manifest.indices,
      i ∈ kept ∨ ∃ b ∈ built, b.entry = i := by
    intro i hi
    rcases mem_append.mp hi with hi | hi
    · exact .inl hi
    · exact .inr (mem_map.mp hi)
  have hold : ∀ i ∈ kept, (commitSegments s kept built).segments i.uuid = s.segments i.uuid :=
    fun i hi => commitSegments_old hfresh i (hkept i hi)
  have hfiles : ∀ b ∈ built, (commitSegments s kept built).segments b.entry.uuid = b.files :=
    fun b hb => commitSegments_new hnodup b hb
  have hsysKept : ∀ i ∈ (commitSegments s kept built).manifest.indices, isSystemIndex i = true →
      i ∈ kept := by
    intro i hi hsys
    rcases hmem i hi with hin | ⟨b, hb, rfl⟩
    · exact hin
    · exact absurd ((hnew b hb).system.symm.trans hsys) (by decide)
  have hhistory : reuseHistory (commitSegments s kept built).manifest = reuseHistory s.manifest := by
    refine reuseHistory_kept _ hs.toFragmentsSound (fun i hi hname => ?_) (fun j hj hname => ?_)
    · exact ⟨i, hkept i (hsysKept i hi (isSystemIndex_of_reuse hname)), hname, rfl⟩
    · exact ⟨j, mem_append_left _ (hsystem j hj (isSystemIndex_of_reuse hname)), hname⟩
  -- No deferred compaction is newer than a segment built now.
  have hmoved : ∀ b ∈ built, ∀ id, id ∉ movedSince (commitSegments s kept built).manifest b.entry := by
    intro b hb id hid
    rw [mem_movedSince, hhistory, (hnew b hb).version] at hid
    rcases hid with ⟨v, hv, hlt, -⟩
    have := hs.past v hv
    omega
  have hmovedOld : ∀ i, movedSince (commitSegments s kept built).manifest i =
      movedSince s.manifest i := by
    intro i
    rw [movedSince, hhistory]
    rfl
  have hsegments : ∀ i ∈ (commitSegments s kept built).manifest.indices, isSystemIndex i = false →
      SegmentSound format (commitSegments s kept built) i := by
    intro i hi hsys
    rcases hmem i hi with hin | ⟨b, hb, rfl⟩
    · have hi' := hs.segments i (hkept i hin) hsys
      refine ⟨hi'.bitmap, hi'.field, ?_, ?_, Nat.le_succ_of_le hi'.version, hi'.covered, ?_, ?_, ?_⟩
      · rw [hold i hin]
        exact hi'.kind
      · rw [hold i hin]
        exact hi'.details
      · rw [hhistory]
        exact hi'.current
      · rw [hold i hin]
        exact hi'.stored
      · rw [hold i hin, hmovedOld i]
        exact hi'.complete
    · have hb' := hnew b hb
      refine ⟨hb'.bitmap, hb'.field, ?_, ?_, ?_, fun id hid => ?_, fun id hid v hv g hg hgone => ?_,
        ?_, ?_⟩
      · rw [hfiles b hb]
        exact hb'.kind
      · rw [hfiles b hb]
        exact hb'.details
      · rw [hb'.version]
        exact Nat.le_succ _
      · rcases mem_map.mp (hb'.covered id hid) with ⟨f, hf, rfl⟩
        exact (hs.rows f hf).1
      · rw [hhistory] at hv
        exact (hs.gone v hv g hg id hgone).2 (hb'.covered id hid)
      · rw [hfiles b hb]
        exact hb'.stored
      · rw [hfiles b hb]
        exact fun f hf hcov _ => hb'.complete f hf hcov
  refine ⟨⟨hs.unstable, hs.fields, hs.small, hs.ids, hs.rows, fun i hi hsys => ?_, ?_, ?_⟩, hsegments,
    fun i hi j hj hsi hsj hname => ?_, fun i hi j hj hsi hsj hname id hid hm row hrow => ?_⟩
  · rw [hhistory]
    exact hs.system i (hkept i (hsysKept i hi hsys)) hsys
  · rw [hhistory]
    exact fun v hv => Nat.le_succ_of_le (hs.past v hv)
  · rw [hhistory]
    exact hs.gone
  · rcases hmem i hi with hin | ⟨b, hb, rfl⟩
    · rcases hmem j hj with hjn | ⟨c, hc, rfl⟩
      · rw [hold i hin, hold j hjn]
        exact hs.alike i (hkept i hin) j (hkept j hjn) hsi hsj hname
      · rw [hold i hin, hfiles c hc]
        exact (hmates c hc i hin hsi hname).1
    · rcases hmem j hj with hjn | ⟨c, hc, rfl⟩
      · rw [hfiles b hb, hold j hjn]
        rcases (hmates b hb j hjn hsj hname.symm).1 with ⟨h₁, h₂, h₃⟩
        exact ⟨h₁.symm, h₂.symm, h₃.symm⟩
      · rw [hfiles b hb, hfiles c hc]
        exact hpairs b hb c hc hname
  · rcases hmem i hi with hin | ⟨b, hb, rfl⟩
    · rw [hmovedOld i] at hm
      rcases hmem j hj with hjn | ⟨c, hc, rfl⟩
      · rw [hold j hjn] at hrow
        exact hs.apart i (hkept i hin) j (hkept j hjn) hsi hsj hname id hid hm row hrow
      · grind
    · exact absurd hm (hmoved b hb id)

end Committing

variable {s' : Dataset}

section Optimizing

variable {V : Type} (format : TableFormat V)

/-- A row has no text for a segment. -/
def TextFree (s : Dataset) (i : IndexMetadata) (f : DataFragment) (offset : Nat) : Prop :=
  ∀ field ∈ i.fields, hasText format (analyzerOf (s.segments i.uuid)) (format.listElement i.details)
    (fieldCell format f field offset) = false

/-- One index before an optimize. Of the segments to be replaced, none covers a present fragment
    with text that a deferred compaction wrote after it was built, and none that is INVERTED of row
    granularity still has a row with text of a fragment to be taken in. -/
structure OptimizeClean (s : Dataset) (options : OptimizeOptions) (name : String) : Prop where
  unmoved : ∀ i ∈ mergedSegments options (segmentsNamed s.manifest name),
    ∀ f ∈ s.manifest.fragments, f.id ∈ i.fragmentIds → f.id ∈ movedSince s.manifest i →
      ∀ offset, liveRow format.vectors f offset = true → TextFree format s i f offset
  unrepeated : ∀ i ∈ mergedSegments options (segmentsNamed s.manifest name),
    kindOf (s.segments i.uuid) = .inverted → format.listElement i.details = false →
      ∀ f ∈ s.manifest.fragments, Uncovered options name (segmentsNamed s.manifest name) f.id →
        ∀ offset, liveRow format.vectors f offset = true →
          rowAddress f.id offset ∈ storedRows (s.segments i.uuid) → TextFree format s i f offset

/-- A segment an optimize built for an index. -/
structure Built (s : Dataset) (options : OptimizeOptions) (name : String) (b : BuiltSegment)
    (plan : OptimizePlan) : Prop where
  planned : Planned s.manifest options (segmentsNamed s.manifest name) plan
  files : planFiles format s plan = .ok b.files
  before : b.before = s.manifest
  replaced : b.replaced = plan.replaced
  entry : ∃ uuid, b.entry = planEntry format s plan b.files uuid

variable {format} {s : Dataset} {options : OptimizeOptions} {name : String} {b : BuiltSegment}
  {plan : OptimizePlan}

theorem planFiles_kind (h : planFiles format s plan = .ok files) :
    kindOf files = plan.kind := by
  rcases planFiles_ok h with ⟨_, -, ⟨hkind, _, -, rfl⟩ | ⟨hkind, _, _, _, _, -, -, -, rfl⟩⟩
  · exact hkind.symm
  · exact hkind.symm

theorem analyzerOf_eq_none (files : SegmentFiles) :
    analyzerOf files = none ↔ kindOf files = .ngram := by
  cases files <;> simp only [analyzerOf, kindOf, reduceCtorEq]

theorem Built.name_eq (h : Built format s options name b plan) : b.entry.name = name := by
  rcases h.entry with ⟨_, heq⟩
  rw [heq]
  exact ((mem_segmentsNamed _ _ _).mp h.planned.last).2.2

section

variable (hs : Sound format s) (h : Built format s options name b plan)

include hs h

/-- A built segment reads text as the segments of its name do. -/
theorem Built.alike (i : IndexMetadata) (hi : i ∈ segmentsNamed s.manifest name) :
    ReadAlike format i b.entry (s.segments i.uuid) b.files := by
  rcases (mem_segmentsNamed _ _ i).mp hi with ⟨him, hisys, hiname⟩
  rcases (mem_segmentsNamed _ _ _).mp h.planned.last with ⟨hlm, hlsys, hlname⟩
  rcases (mem_segmentsNamed _ _ _).mp h.planned.reference with ⟨hrm, hrsys, hrname⟩
  rcases hs.alike i him plan.last hlm hisys hlsys (hiname.trans hlname.symm) with ⟨hal, hel, hfl⟩
  have har := (hs.alike i him plan.reference hrm hisys hrsys (hiname.trans hrname.symm)).1
  have hsound := hs.segments i him hisys
  -- The kind of the last segment's entry is that of its files.
  have hkind : kindOf (s.segments plan.last.uuid) = plan.kind := by
    have := (hs.segments plan.last hlm hlsys).kind
    rw [h.planned.kind, Option.some.injEq] at this
    exact this.symm
  rcases h.entry with ⟨uuid, hentry⟩
  rw [hentry]
  refine ⟨?_, ?_, hfl.trans h.planned.field⟩
  · rcases planFiles_ok h.files with ⟨_, -, ⟨hk, base, -, hfiles⟩ | ⟨-, _, params, documents, _, -,
      href, -, hfiles⟩⟩
    · rw [hal, hfiles]
      exact (analyzerOf_eq_none _).mpr (hkind.trans hk)
    · rw [har, href, hfiles]
      rfl
  · show _ = format.listElement (segmentDetails format b.files (format.listElement plan.last.details))
    cases hfiles : b.files with
    | ngram postings =>
      have hng : kindOf (s.segments i.uuid) = .ngram := by
        have hk := planFiles_kind h.files
        rw [hfiles] at hk
        rw [← analyzerOf_eq_none, hal, analyzerOf_eq_none, hkind, ← hk]
        rfl
      rw [hsound.details hng]
      rfl
    | inverted params documents =>
      rw [segmentDetails, format.listElement_details, hel]

/-- The coverage of a built segment: the fragments taken in, and the present ones that a replaced
    segment covers. -/
theorem Built.mem_coverage (id : Nat) :
    id ∈ b.entry.fragmentIds ↔ id ∈ s.manifest.fragments.map (·.id) ∧
      (Uncovered options name (segmentsNamed s.manifest name) id ∨
        ∃ i ∈ mergedSegments options (segmentsNamed s.manifest name), id ∈ i.fragmentIds) := by
  have hlname := ((mem_segmentsNamed _ _ _).mp h.planned.last).2.2
  have htarget : ∀ x, x ∈ plan.target ↔ x ∈ s.manifest.fragments.map (·.id) ∧
      (Uncovered options name (segmentsNamed s.manifest name) x ∨
        ∃ i ∈ mergedSegments options (segmentsNamed s.manifest name), x ∈ i.fragmentIds) := by
    intro x
    rw [h.planned.target, h.planned.unindexed, h.planned.replaced, hlname]
    tauto
  rcases h.entry with ⟨uuid, hentry⟩
  rw [hentry, ← htarget id]
  refine mem_bitmapOf (fun x hx => ?_) id
  rcases mem_map.mp ((htarget x).mp hx).1 with ⟨f, hf, rfl⟩
  have := hs.small_of_used (hs.rows f hf).1
  omega

/-- A row in a built segment's files was taken in, or a replaced segment has it. -/
theorem Built.mem_stored (row : Nat) (hrow : row ∈ storedRows b.files) :
    (Used s.manifest (fragmentOf row) ∧
      Uncovered options name (segmentsNamed s.manifest name) (fragmentOf row)) ∨
    ∃ i ∈ mergedSegments options (segmentsNamed s.manifest name),
      row ∈ storedRows (s.segments i.uuid) := by
  have hlname := ((mem_segmentsNamed _ _ _).mp h.planned.last).2.2
  rcases planFiles_stored h.files hrow with ⟨f, hf, hun, offset, hlive, rfl⟩ | ⟨i, hi, hst, -⟩
  · have hlt := liveRow_lt format.vectors f offset hlive
    have hsize := (hs.rows f hf).2
    rw [fragmentOf_rowAddress f.id offset (by omega)]
    exact .inl ⟨(hs.rows f hf).1, hlname ▸ ((h.planned.unindexed f.id).mp hun).2⟩
  · exact .inr ⟨i, h.planned.replaced ▸ hi, hst⟩

/-- A built segment is complete exactly when no replaced one was only moved to a
    fragment with text. -/
theorem Built.complete_iff :
    (∀ f ∈ s.manifest.fragments, f.id ∈ b.entry.fragmentIds →
      ∀ offset, liveRow format.vectors f offset = true → ∀ field ∈ b.entry.fields,
        holdsRow format b.files (format.listElement b.entry.details)
          (fieldCell format f field offset) (rowAddress f.id offset)) ↔
    ∀ i ∈ mergedSegments options (segmentsNamed s.manifest name),
      ∀ f ∈ s.manifest.fragments, f.id ∈ i.fragmentIds → f.id ∈ movedSince s.manifest i →
        ∀ offset, liveRow format.vectors f offset = true → TextFree format s i f offset := by
  have hlname := ((mem_segmentsNamed _ _ _).mp h.planned.last).2.2
  have hsmall : ∀ f ∈ s.manifest.fragments, ∀ offset, liveRow format.vectors f offset = true →
      offset < 2 ^ 32 := by
    intro f hf offset hlive
    have hlt := liveRow_lt format.vectors f offset hlive
    have hsize := (hs.rows f hf).2
    omega
  constructor
  · intro hcomplete i hi f hf hcov hmoved offset hlive field hfield
    have hin := mem_mergedSegments hi
    rcases (mem_segmentsNamed _ _ i).mp hin with ⟨him, hisys, hiname⟩
    rcases h.alike hs i hin with ⟨han, hel, hfields⟩
    have hheld := hcomplete f hf ((h.mem_coverage hs f.id).mpr ⟨mem_map.mpr ⟨f, hf, rfl⟩,
      .inr ⟨i, hi, hcov⟩⟩) offset hlive field (hfields ▸ hfield)
    rw [Bool.eq_false_iff]
    intro htext
    rw [han, hel] at htext
    have hfrag := fragmentOf_rowAddress f.id offset (hsmall f hf offset hlive)
    -- A held row would come from a segment of the name, and none has rows of the fragment.
    rcases h.mem_stored hs _ (hheld.stored htext) with ⟨-, hun, -⟩ | ⟨j, hj, hst⟩
    · rw [hfrag] at hun
      exact hun i hin hcov
    · rcases (mem_segmentsNamed _ _ j).mp (mem_mergedSegments hj) with ⟨hjm, hjsys, hjname⟩
      exact hs.apart i him j hjm hisys hjsys (hiname.trans hjname.symm) f.id hcov hmoved _ hst hfrag
  · intro hclean f hf hcov offset hlive field hfield
    have hentry : b.entry.fields = [plan.field] := by
      rcases h.entry with ⟨uuid, hentry⟩
      rw [hentry]
      rfl
    rw [hentry, mem_singleton] at hfield
    subst hfield
    have hlast : format.listElement plan.last.details = format.listElement b.entry.details :=
      (h.alike hs plan.last h.planned.last).2.1
    rw [← hlast]
    rcases ((h.mem_coverage hs f.id).mp hcov).2 with hun | ⟨i, hi, hicov⟩
    · refine planFiles_scanned h.files hf ?_ hlive
      rw [h.planned.unindexed, hlname]
      exact ⟨mem_map.mpr ⟨f, hf, rfl⟩, hun⟩
    · have hin := mem_mergedSegments hi
      rcases (mem_segmentsNamed _ _ i).mp hin with ⟨him, hisys, -⟩
      rcases h.alike hs i hin with ⟨han, hel, hfields⟩
      have hifield : plan.field ∈ i.fields := by grind
      by_cases hmoved : f.id ∈ movedSince s.manifest i
      · refine holdsRow_of_not_hasText format _ ?_
        rw [← han, hlast, ← hel]
        exact hclean i hi f hf hicov hmoved offset hlive plan.field hifield
      · have hheld := (hs.segments i him hisys).complete f hf hicov hmoved offset hlive plan.field
          hifield
        rw [hel, ← hlast] at hheld
        refine planFiles_kept h.files (fun j hj => ?_) (h.planned.replaced ▸ hi) (hs.find f hf)
          (hsmall f hf offset hlive) hheld
        rw [h.planned.replaced] at hj
        exact (h.alike hs j (mem_mergedSegments hj)).1.trans
          (h.alike hs plan.reference h.planned.reference).1.symm

/-- A built segment has no repeats exactly when no replaced one still has a row with text that is
    taken in. -/
theorem Built.once_iff :
    (∀ params documents, b.files = .inverted params documents →
      format.listElement b.entry.details = false → documents.Nodup) ↔
    ∀ i ∈ mergedSegments options (segmentsNamed s.manifest name),
      kindOf (s.segments i.uuid) = .inverted → format.listElement i.details = false →
        ∀ f ∈ s.manifest.fragments, Uncovered options name (segmentsNamed s.manifest name) f.id →
          ∀ offset, liveRow format.vectors f offset = true →
            rowAddress f.id offset ∈ storedRows (s.segments i.uuid) → TextFree format s i f offset := by
  have hlname := ((mem_segmentsNamed _ _ _).mp h.planned.last).2.2
  have hlast := (h.alike hs plan.last h.planned.last).2.1
  have honce := fun params documents hfiles hrow => planFiles_once_iff h.files hs.ids
    (fun f hf => (hs.rows f hf).2) (fun f hf => hs.find f hf) params documents hfiles hrow
  constructor
  · intro hnodup i hi hkind hrow f hf hun offset hlive hst field hfield
    have hin := mem_mergedSegments hi
    rcases h.alike hs i hin with ⟨han, hel, hfields⟩
    cases hfiles : b.files with
    | ngram postings =>
      rw [hfiles] at han
      rw [(analyzerOf_eq_none _).mp han] at hkind
      exact absurd hkind (by decide)
    | inverted params documents =>
      rw [hrow] at hel
      have hfree := (honce params documents hfiles (hlast.trans hel.symm)).mp
        (hnodup params documents hfiles hel.symm) i (h.planned.replaced ▸ hi) f hf
        ((h.planned.unindexed f.id).mpr ⟨mem_map.mpr ⟨f, hf, rfl⟩, hlname ▸ hun⟩) offset
        hlive hst
      have hone : field = plan.field := by
        rcases h.entry with ⟨uuid, hentry⟩
        rw [hfields, hentry] at hfield
        exact mem_singleton.mp hfield
      rw [han, hfiles, hrow, hone]
      exact hfree
  · intro hclean params documents hfiles hrow
    refine (honce params documents hfiles (hlast.trans hrow)).mpr
      (fun i hi f hf hun offset hlive hst => ?_)
    rw [h.planned.replaced] at hi
    have hin := mem_mergedSegments hi
    rcases h.alike hs i hin with ⟨han, hel, hfields⟩
    rw [hrow] at hel
    have hkind : kindOf (s.segments i.uuid) = .inverted := by
      cases hik : s.segments i.uuid with
      | ngram postings => grind [analyzerOf]
      | inverted _ _ => rfl
    have hifield : plan.field ∈ i.fields := by
      rcases h.entry with ⟨uuid, hentry⟩
      rw [hfields, hentry]
      exact mem_singleton.mpr rfl
    have hfree := hclean i hi hkind hel f hf (hlname ▸ ((h.planned.unindexed f.id).mp hun).2) offset
      hlive hst plan.field hifield
    rw [han, hfiles, hel] at hfree
    exact hfree

/-- A built segment is good exactly when its index was clean. -/
theorem built_good_iff :
    SegmentGood format b ↔ OptimizeClean format s options name := by
  have hcomplete := h.complete_iff hs
  have honce := h.once_iff hs
  rw [← h.before] at hcomplete
  constructor
  · rintro ⟨hc, ho⟩
    exact ⟨by rw [← h.before]; exact hcomplete.mp hc, honce.mp ho⟩
  · rintro ⟨hc, ho⟩
    rw [← h.before] at hc
    exact ⟨hcomplete.mpr hc, honce.mpr ho⟩

/-- A good segment is fit to be committed. -/
theorem Built.newSegment (hgood : SegmentGood format b) : NewSegment format s b := by
  rcases (mem_segmentsNamed _ _ _).mp h.planned.last with ⟨hlm, hlsys, hlname⟩
  have hlast := hs.segments plan.last hlm hlsys
  rcases h.entry with ⟨uuid, hentry⟩
  refine ⟨?_, ?_, ?_, ?_, fun hk => ?_, ?_, fun id hid => ((h.mem_coverage hs id).mp hid).1,
    fun row hrow => ?_, ?_⟩
  · have hname := h.name_eq.trans hlname.symm
    unfold isSystemIndex at hlsys ⊢
    rw [hname]
    exact hlsys
  · rw [hentry]
    rfl
  · rcases hlast.field with ⟨x, hx, hfields⟩
    refine ⟨x, hx, ?_⟩
    rw [← hfields, h.planned.field, hentry]
    rfl
  · refine textKind_url ?_
    rw [planFiles_kind h.files, hentry]
    rfl
  · cases hfiles : b.files with
    | ngram postings =>
      rw [hentry, hfiles]
      rfl
    | inverted params documents => grind [kindOf]
  · rw [hentry]
    rfl
  · rcases h.mem_stored hs row hrow with ⟨hused, -⟩ | ⟨i, hi, hst⟩
    · exact hused
    · rcases (mem_segmentsNamed _ _ i).mp (mem_mergedSegments hi) with ⟨him, hisys, -⟩
      exact (hs.segments i him hisys).stored row hst
  · have hc := hgood.complete
    rw [h.before] at hc
    exact hc

end

/-- One index: nothing to do, or a segment built. -/
theorem optimizeOne_ok (hs : Sound format s) {uuid : Nat} {one : Option BuiltSegment}
    (h : optimizeOne format s options name uuid = .ok one) :
    match one with
    | none => segmentsNamed s.manifest name = [] ∨
        ¬ HasWork s.manifest options name (segmentsNamed s.manifest name)
    | some b => b.entry.uuid = uuid ∧ ∃ plan, Built format s options name b plan := by
  simp only [optimizeOne, bind_eq_ok] at h
  rcases h with ⟨plan, hplan, h⟩
  rcases optimizePlan_ok name (fun i hi => ((mem_segmentsNamed _ _ i).mp hi).2.2)
    (fun reuse hreuse i hi id => by
      rcases (mem_segmentsNamed _ _ i).mp hi with ⟨him, hisys, -⟩
      exact mem_reuseCoverage hs.toFragmentsSound hreuse
        (hs.segments i him hisys).current id) hplan with ⟨hnone, hsome⟩
  cases plan with
  | none =>
    cases h
    exact hnone rfl
  | some plan =>
    simp only [buildPlanned, bind_eq_ok, pure_eq_ok] at h
    rcases h with ⟨files, hfiles, rfl⟩
    exact ⟨rfl, plan, hsome plan rfl, hfiles, rfl, rfl, uuid, rfl⟩

/-- The segments an optimize builds: each for one of the indices, under uuids of their own, and one
    for every index that has work. -/
theorem optimizeEach_ok (hs : Sound format s) :
    ∀ (names : List String) (uuid : Nat) (built : List BuiltSegment),
    optimizeEach format s options names uuid = .ok built →
      (∀ b ∈ built, uuid ≤ b.entry.uuid ∧ ∃ name ∈ names, ∃ plan, Built format s options name b plan) ∧
      (built.map (fun b => b.entry.uuid)).Nodup ∧
      ∀ name ∈ names, (segmentsNamed s.manifest name = [] ∨
        ¬ HasWork s.manifest options name (segmentsNamed s.manifest name)) ∨
        ∃ b ∈ built, ∃ plan, Built format s options name b plan := by
  intro names
  induction names with
  | nil =>
    intro uuid built h
    cases h
    simp
  | cons name rest ih =>
    intro uuid built h
    simp only [optimizeEach, bind_eq_ok, pure_eq_ok] at h
    rcases h with ⟨one, hone, others, hothers, rfl⟩
    rcases ih (uuid + 1) others hothers with ⟨hmem, hnodup, hall⟩
    have hrest : ∀ b ∈ others, uuid ≤ b.entry.uuid ∧
        ∃ n ∈ name :: rest, ∃ plan, Built format s options n b plan := by grind
    have hone' := optimizeOne_ok hs hone
    cases one with
    | none => grind
    | some b =>
      rcases hone' with ⟨huuid, plan, hbuilt⟩
      refine ⟨forall_mem_cons.mpr ⟨⟨huuid.ge, name, mem_cons_self, plan, hbuilt⟩, hrest⟩,
        ?_, fun n hn => ?_⟩
      · grind
      · grind

theorem mem_indexNames (hi : i ∈ segmentsNamed m name) :
    name ∈ indexNames m := by
  rcases (mem_segmentsNamed m name i).mp hi with ⟨him, hisys, rfl⟩
  simp only [indexNames, mem_reverse, mem_dedup, mem_map, mem_filter]
  exact ⟨i, ⟨him, by rw [hisys]; rfl⟩, rfl⟩

/-- The names an optimize goes through are those asked for, or all that have segments. -/
theorem chosenNames_ok {names : List String} (h : chosenNames m options = .ok names) :
    (∀ n ∈ names, options.indexNames = [] ∨ n ∈ options.indexNames) ∧
      ∀ n, (options.indexNames = [] ∨ n ∈ options.indexNames) → segmentsNamed m n ≠ [] → n ∈ names := by
  unfold chosenNames at h
  by_cases hnone : options.indexNames.isEmpty = true
  · rw [if_pos hnone, Except.ok.injEq] at h
    rw [List.isEmpty_iff] at hnone
    refine ⟨fun _ _ => .inl hnone, fun n _ hne => ?_⟩
    rcases exists_mem_of_ne_nil _ hne with ⟨i, hi⟩
    exact h ▸ mem_indexNames hi
  · grind

/-- An optimize builds good segments exactly when each index it has work for was clean, and then
    keeps the invariant. -/
theorem optimizeIndices_step (hs : Sound format s) {built : List BuiltSegment}
    (h : optimizeIndices format s options = .ok (s', built)) :
    ((∀ b ∈ built, SegmentGood format b) ↔
      ∀ name, (options.indexNames = [] ∨ name ∈ options.indexNames) →
        HasWork s.manifest options name (segmentsNamed s.manifest name) →
          OptimizeClean format s options name) ∧
    ((∀ b ∈ built, SegmentGood format b) → Sound format s') := by
  simp only [optimizeIndices, bind_eq_ok] at h
  rcases h with ⟨names, hnames, made, hmade, h⟩
  rcases chosenNames_ok hnames with ⟨hchosen, hall⟩
  rcases optimizeEach_ok hs names _ made hmade with ⟨hmem, hnodup, hwork⟩
  have hout : built = made ∧ (made = [] → s' = s) ∧ (made ≠ [] → s' = commitSegments s
      (s.manifest.indices.filter (fun i => i ∉ made.flatMap (·.replaced))) made) := by
    split at h
    · rename_i hempty
      rw [List.isEmpty_iff] at hempty
      cases h
      exact ⟨hempty.symm, fun _ => rfl, fun hne => absurd hempty hne⟩
    · rename_i hempty
      rw [List.isEmpty_iff] at hempty
      cases h
      exact ⟨rfl, fun hnil => absurd hnil hempty, fun _ => rfl⟩
  rcases hout with ⟨rfl, hsame, hcommit⟩
  refine ⟨⟨fun hgood name hname hw => ?_, fun hclean b hb => ?_⟩, fun hgood => ?_⟩
  · by_cases hne : segmentsNamed s.manifest name = []
    · -- Without segments there is nothing to replace.
      have hnil : mergedSegments options (segmentsNamed s.manifest name) = [] := by
        rw [hne, mergedSegments, drop_nil]
      refine ⟨fun i hi => ?_, fun i hi => ?_⟩
      · nomatch (hnil ▸ hi)
      · nomatch (hnil ▸ hi)
    · rcases hwork name (hall name hname hne) with (hnil | hidle) | ⟨b, hb, plan, hbuilt⟩
      · exact absurd hnil hne
      · exact absurd hw hidle
      · exact (built_good_iff hs hbuilt).mp (hgood b hb)
  · rcases hmem b hb with ⟨-, name, hname, plan, hbuilt⟩
    refine (built_good_iff hs hbuilt).mpr (hclean name (hchosen name hname) ?_)
    have hlname := ((mem_segmentsNamed _ _ _).mp hbuilt.planned.last).2.2
    exact hlname ▸ hbuilt.planned.work
  · by_cases hne : built = []
    · exact hsame hne ▸ hs
    · rw [hcommit hne]
      refine hs.committed (fun i hi => mem_of_mem_filter hi) (fun i hi hsys => ?_)
        (fun b hb => (hmem b hb).1) hnodup (fun b hb => ?_) (fun b hb c hc hname => ?_)
        (fun b hb i hi hisys hname => ?_)
      · refine mem_filter.mpr ⟨hi, decide_eq_true (fun hin => ?_)⟩
        rcases mem_flatMap.mp hin with ⟨b, hb, hib⟩
        rcases hmem b hb with ⟨-, name, -, plan, hbuilt⟩
        rw [hbuilt.replaced, hbuilt.planned.replaced] at hib
        have hnot := ((mem_segmentsNamed _ _ i).mp (mem_mergedSegments hib)).2.1
        exact absurd (hnot.symm.trans hsys) (by decide)
      · rcases hmem b hb with ⟨-, name, -, plan, hbuilt⟩
        exact hbuilt.newSegment hs (hgood b hb)
      · rcases hmem b hb with ⟨-, n, -, plan, hbuilt⟩
        rcases hmem c hc with ⟨-, k, -, other, hcbuilt⟩
        have hnk : n = k := hbuilt.name_eq.symm.trans (hname.trans hcbuilt.name_eq)
        subst hnk
        -- Both read text as the last segment of the name.
        rcases hbuilt.alike hs plan.last hbuilt.planned.last with ⟨h₁, h₂, h₃⟩
        rcases hcbuilt.alike hs plan.last hbuilt.planned.last with ⟨k₁, k₂, k₃⟩
        exact ⟨h₁.symm.trans k₁, h₂.symm.trans k₂, h₃.symm.trans k₃⟩
      · rcases hmem b hb with ⟨-, n, -, plan, hbuilt⟩
        have him := mem_of_mem_filter hi
        have hin : i ∈ segmentsNamed s.manifest n :=
          (mem_segmentsNamed _ _ i).mpr ⟨him, hisys, hname.trans hbuilt.name_eq⟩
        refine ⟨hbuilt.alike hs i hin, fun id hid hmoved row hrow heq => ?_⟩
        rcases hbuilt.mem_stored hs row hrow with ⟨-, hun, -⟩ | ⟨j, hj, hst⟩
        · exact hun i hin (heq ▸ hid)
        · rcases (mem_segmentsNamed _ _ j).mp (mem_mergedSegments hj) with ⟨hjm, hjsys, hjname⟩
          exact hs.apart i him j hjm hisys hjsys (hname.trans (hbuilt.name_eq.trans hjname.symm)) id
            hid hmoved row hst heq

end Optimizing

section Creating

variable {V : Type} {format : TableFormat V} {s : Dataset}

theorem indexFiles_ok {request : IndexRequest} {field : Int}
    (h : indexFiles format m request field = .ok files) :
    ∃ scanned, scanFragments format field m.fragments = .ok scanned ∧
      ((request.kind = .ngram ∧ files = .ngram (ngramPostings format [] scanned)) ∨
        (request.kind = .inverted ∧ files = .inverted request.params
          (invertedDocuments format request.params request.element scanned))) := by
  simp only [indexFiles, bind_eq_ok] at h
  rcases h with ⟨scanned, hscan, h⟩
  refine ⟨scanned, hscan, ?_⟩
  grind [pure_eq_ok, invertedFiles, bind_eq_ok]

/-- A new index keeps the invariant. -/
theorem createIndex_sound (hs : Sound format s) {request : IndexRequest}
    (hname : request.indexName ≠ fragReuseIndex ∧ request.indexName ≠ memWalIndex)
    (h : createIndex format s request = .ok s') : Sound format s' := by
  unfold createIndex at h
  cases hcolumn : columnField s.manifest.fields request.column with
  | none => grind
  | some field =>
    simp only [hcolumn, bind_eq_ok, pure_eq_ok] at h
    rcases h with ⟨_, -, files, hfiles, rfl⟩
    have hfield : field ∈ s.manifest.fields := mem_of_find?_eq_some hcolumn
    rcases indexFiles_ok hfiles with ⟨scanned, hscan, hparts⟩
    have hrow : ∀ f ∈ s.manifest.fragments, ∀ offset, liveRow format.vectors f offset = true →
        (rowAddress f.id offset, fieldCell format f field.id offset) ∈ scanned :=
      fun f hf offset hlive => (mem_scanFragments format _ _ scanned hscan).mpr
        ⟨f, hf, offset, hlive, rfl⟩
    have hscanned : ∀ x ∈ scanned, Used s.manifest (fragmentOf x.1) := by
      intro x hx
      rcases (mem_scanFragments format x _ scanned hscan).mp hx with ⟨f, hf, offset, hlive, rfl⟩
      have hlt := liveRow_lt format.vectors f offset hlive
      have hsize := (hs.rows f hf).2
      rw [fragmentOf_rowAddress f.id offset (by omega)]
      exact (hs.rows f hf).1
    have hsys : isSystemIndex (indexEntry format s.manifest request field.id files) = false := by
      simp [isSystemIndex, indexEntry, hname.1, hname.2]
    have hkind : kindOf files = request.kind := by
      rcases hparts with ⟨hk, rfl⟩ | ⟨hk, rfl⟩ <;> exact hk.symm
    refine hs.committed (fun i hi => mem_of_mem_filter hi) (fun i hi hisys => ?_)
      (fun b hb => ?_) (nodup_singleton _) (fun b hb => ?_) (fun b hb c hc _ => ?_)
      (fun b hb i hi _ heq => ?_)
    · refine mem_filter.mpr ⟨hi, decide_eq_true ?_⟩
      rw [(hs.system i hi hisys).1]
      exact hname.1.symm
    · rw [mem_singleton.mp hb]
      exact Nat.le_refl _
    · rw [mem_singleton.mp hb]
      refine ⟨hsys, rfl, ⟨field, hfield, rfl⟩, textKind_url ?_, fun hk => ?_, rfl, fun id hid => ?_,
        fun row hr => ?_, fun f hf _ offset hlive x hx => ?_⟩
      · rw [hkind]
        rfl
      · rcases hparts with ⟨-, rfl⟩ | ⟨hk', rfl⟩
        · rfl
        · cases hk
      · refine (mem_bitmapOf (fun x hx => ?_) id).mp hid
        rcases mem_map.mp hx with ⟨f, hf, rfl⟩
        have := hs.small_of_used (hs.rows f hf).1
        omega
      · rcases hparts with ⟨-, rfl⟩ | ⟨-, rfl⟩
        · rcases mem_map.mp hr with ⟨e, he, rfl⟩
          rcases (mem_ngramPostings format [] scanned e).mp he with hin | ⟨x, hx, -, hex⟩
          · cases hin
          · exact hex ▸ hscanned x hx
        · rcases (mem_invertedDocuments format _ _ _ row).mp hr with ⟨x, hx, -, rfl⟩
          exact hscanned x hx
      · rw [mem_singleton.mp hx]
        rcases hparts with ⟨-, rfl⟩ | ⟨-, rfl⟩
        · exact fun token htoken => (mem_ngramPostings format [] scanned _).mpr
            (.inr ⟨_, hrow f hf offset hlive, htoken, rfl⟩)
        · intro hcount
          simp only [indexEntry, segmentDetails, format.listElement_details] at hcount
          exact (mem_invertedDocuments format _ _ _ _).mpr ⟨_, hrow f hf offset hlive, hcount, rfl⟩
    · rw [mem_singleton.mp hb, mem_singleton.mp hc]
      exact ⟨rfl, rfl, rfl⟩
    · -- No entry of the name is kept.
      rw [mem_filter, decide_eq_true_eq] at hi
      rw [mem_singleton.mp hb] at heq
      exact absurd heq hi.2

end Creating

end NanoLance
