import NanoLance.IndexOptimize

/-!
# What a New Segment Holds

A segment that covers a fragment answers for its live rows, so it has to hold
each of them that has text: an NGRAM segment under each token, an INVERTED one
as a document. A row that an INVERTED segment of row granularity holds as two
documents is counted twice.

The segment optimizing builds is described here by the two parts it is made
of. A row it holds was scanned in an uncovered fragment or was held by a
replaced segment, and the other way round each part reaches the new segment
whole. The documents repeat exactly when a scanned row with text was also in
a replaced segment.
-/

namespace NanoLance

open List Lib

/-- The rows a segment's files name. -/
def storedRows : SegmentFiles → List Nat
  | .ngram postings => postings.map Prod.snd
  | .inverted _ documents => documents

/-- The kind of index a segment's files are of. -/
def kindOf : SegmentFiles → TextKind
  | .ngram _ => .ngram
  | .inverted _ _ => .inverted

/-- The analyzer of an INVERTED segment. -/
def analyzerOf : SegmentFiles → Option Nat
  | .ngram _ => none
  | .inverted params _ => some params

variable {f : DataFragment} {field : Int} {m : Manifest} {row : Nat} {live : List Nat}
  {segments : Nat → SegmentFiles}

section Rows

variable {V : Type} (format : TableFormat V)

/-- A row of this value has something a segment of this kind holds. -/
def hasText (analyzer : Option Nat) (element : Bool) (cell : Option V) : Bool :=
  match analyzer with
  | none => !(gramTokens format cell).isEmpty
  | some params => documentCount format params element cell ≠ 0

/-- A segment holds a row: under each token of it, or as a document if it makes one. -/
def holdsRow (files : SegmentFiles) (element : Bool) (cell : Option V) (row : Nat) : Prop :=
  match files with
  | .ngram postings => ∀ token ∈ gramTokens format cell, (token, row) ∈ postings
  | .inverted params documents => documentCount format params element cell ≠ 0 → row ∈ documents

instance (files : SegmentFiles) (element : Bool) (cell : Option V) (row : Nat) :
    Decidable (holdsRow format files element cell row) :=
  match files with
  | .ngram postings =>
    inferInstanceAs (Decidable (∀ token ∈ gramTokens format cell, (token, row) ∈ postings))
  | .inverted params documents =>
    inferInstanceAs (Decidable (documentCount format params element cell ≠ 0 → row ∈ documents))

/-- A new segment is complete, and if it is an INVERTED one of row granularity it holds no row as
    two documents. -/
structure SegmentGood (b : BuiltSegment) : Prop where
  complete : ∀ f ∈ b.before.fragments, f.id ∈ b.entry.fragmentIds →
    ∀ offset, liveRow format.vectors f offset = true → ∀ field ∈ b.entry.fields,
      holdsRow format b.files (format.listElement b.entry.details) (fieldCell format f field offset)
        (rowAddress f.id offset)
  once : ∀ params documents, b.files = .inverted params documents →
    format.listElement b.entry.details = false → documents.Nodup

variable {files : SegmentFiles} {element : Bool}

/-- A row without text is held by any segment. -/
theorem holdsRow_of_not_hasText {cell : Option V} (row : Nat)
    (h : hasText format (analyzerOf files) element cell = false) :
    holdsRow format files element cell row := by
  cases files with
  | ngram postings =>
    simp only [hasText, analyzerOf, Bool.not_eq_false', List.isEmpty_iff] at h
    simp [holdsRow, h]
  | inverted params documents =>
    simp only [hasText, analyzerOf, decide_eq_false_iff_not, not_not] at h
    exact fun hne => absurd h hne

/-- A row with text that a segment holds is in its files. -/
theorem holdsRow.stored {format : TableFormat V} {cell : Option V}
    (h : holdsRow format files element cell row)
    (htext : hasText format (analyzerOf files) element cell = true) : row ∈ storedRows files := by
  cases files with
  | ngram postings =>
    simp only [hasText, analyzerOf, Bool.not_eq_true', isEmpty_eq_false_iff] at htext
    rcases exists_mem_of_ne_nil _ htext with ⟨token, htoken⟩
    exact mem_map.mpr ⟨(token, row), h token htoken, rfl⟩
  | inverted params documents =>
    simp only [hasText, analyzerOf, decide_eq_true_eq] at htext
    exact h htext

theorem scanFragment_ok {rows : List (Nat × Option V)} (h : scanFragment format field f = .ok rows) :
    rows = ((List.range f.physicalRows).filter (fun o => liveRow format.vectors f o)).map
      (fun o => (rowAddress f.id o, fieldCell format f field o)) := by
  simp only [scanFragment, bind_eq_ok, pure_eq_ok] at h
  rcases h with ⟨deleted, hdel, rfl⟩
  congr 1
  refine filter_congr (fun o ho => ?_)
  rw [liveRow, hdel, decide_eq_true (mem_range.mp ho), Bool.true_and]

/-- A scan returns the live rows. -/
theorem mem_scanFragments (x : Nat × Option V) :
    ∀ (fragments : List DataFragment) (rows : List (Nat × Option V)),
    scanFragments format field fragments = .ok rows →
      (x ∈ rows ↔ ∃ f ∈ fragments, ∃ offset, liveRow format.vectors f offset = true ∧
        x = (rowAddress f.id offset, fieldCell format f field offset)) := by
  intro fragments
  induction fragments with
  | nil =>
    intro rows h
    cases h
    simp
  | cons f rest ih =>
    intro rows h
    simp only [scanFragments, bind_eq_ok, pure_eq_ok] at h
    rcases h with ⟨own, hown, others, hothers, rfl⟩
    rw [mem_append, ih others hothers, scanFragment_ok format hown]
    simp only [mem_map, mem_filter, mem_range, mem_cons, exists_eq_or_imp]
    refine or_congr ⟨?_, ?_⟩ Iff.rfl
    · grind
    · rintro ⟨o, hlive, rfl⟩
      exact ⟨o, ⟨liveRow_lt format.vectors f o hlive, hlive⟩, rfl⟩

/-- A scan of distinct fragments returns each row once. -/
theorem scanFragments_nodup :
    ∀ (fragments : List DataFragment) (rows : List (Nat × Option V)),
    (fragments.map (·.id)).Nodup → (∀ f ∈ fragments, f.physicalRows ≤ 2 ^ 32) →
    scanFragments format field fragments = .ok rows → (rows.map Prod.fst).Nodup := by
  intro fragments
  induction fragments with
  | nil =>
    intro rows _ _ h
    cases h
    exact nodup_nil
  | cons f rest ih =>
    intro rows hids hsmall h
    simp only [scanFragments, bind_eq_ok, pure_eq_ok] at h
    rcases h with ⟨own, hown, others, hothers, rfl⟩
    rw [map_cons, nodup_cons] at hids
    have hrest := ih others hids.2 (fun g hg => hsmall g (.tail _ hg)) hothers
    rw [map_append, scanFragment_ok format hown, map_map]
    refine nodup_append.mpr ⟨(nodup_range.filter _).map (rowAddress_injective f.id), hrest, ?_⟩
    -- A row of another fragment has another fragment in its address.
    rintro a ha b hb rfl
    simp only [mem_map, mem_filter, mem_range, Function.comp_apply] at ha
    rcases ha with ⟨o, ⟨ho, -⟩, rfl⟩
    rcases mem_map.mp hb with ⟨x, hx, hxa⟩
    rcases (mem_scanFragments format x rest others hothers).mp hx with ⟨g, hg, p, hp, rfl⟩
    have hpl := liveRow_lt format.vectors g p hp
    have hgs := hsmall g (.tail _ hg)
    have hfs := hsmall f (.head _)
    have hid : g.id = f.id := by
      rw [← fragmentOf_rowAddress g.id p (by omega), ← fragmentOf_rowAddress f.id o (by omega)]
      exact congrArg fragmentOf hxa
    exact hids.1 (mem_map.mpr ⟨g, hg, hid⟩)

/-- Taking rows by address returns one row for each, of the fragment the address names. -/
theorem takeRows_ok :
    ∀ (addresses : List Nat) (rows : List (Nat × Option V)),
    takeRows format m field addresses = .ok rows →
      rows.map Prod.fst = addresses ∧ ∀ x ∈ rows, ∃ f, m.fragment? (fragmentOf x.1) = some f ∧
        x.2 = fieldCell format f field (offsetOf x.1) := by
  intro addresses
  induction addresses with
  | nil =>
    intro rows h
    cases h
    exact ⟨rfl, nofun⟩
  | cons a rest ih =>
    intro rows h
    simp only [takeRows, bind_eq_ok, pure_eq_ok] at h
    rcases h with ⟨row, hrow, others, hothers, rfl⟩
    rcases ih others hothers with ⟨hfst, hcells⟩
    rw [takeRow] at hrow
    cases hfind : m.fragment? (fragmentOf a) with
    | none => grind
    | some f =>
      simp only [hfind] at hrow
      grind

theorem mem_ngramPostings (base : List (Nat × Nat)) (scanned : List (Nat × Option V))
    (e : Nat × Nat) :
    e ∈ ngramPostings format base scanned ↔
      e ∈ base ∨ ∃ x ∈ scanned, e.1 ∈ gramTokens format x.2 ∧ e.2 = x.1 := by
  unfold ngramPostings
  rw [mem_dedup, mem_append, mem_flatMap]
  grind

theorem mem_invertedDocuments (params : Nat) (element : Bool) (rows : List (Nat × Option V))
    (row : Nat) :
    row ∈ invertedDocuments format params element rows ↔
      ∃ x ∈ rows, documentCount format params element x.2 ≠ 0 ∧ x.1 = row := by
  simp [invertedDocuments, @eq_comm _ row]

/-- With row granularity a row makes one document or none. -/
theorem invertedDocuments_rows (params : Nat) (rows : List (Nat × Option V)) :
    invertedDocuments format params false rows =
      (rows.filter (fun x => documentCount format params false x.2 ≠ 0)).map Prod.fst := by
  unfold invertedDocuments
  induction rows with
  | nil => rfl
  | cons x rest ih =>
    have hcount : documentCount format params false x.2 = 0 ∨
        documentCount format params false x.2 = 1 := by
      unfold documentCount
      grind
    grind

end Rows

theorem mem_basePostings (e : Nat × Nat) :
    ∀ (replaced : List IndexMetadata) (base : List (Nat × Nat)),
    basePostings segments live replaced = .ok base →
      (e ∈ base ↔ ∃ i ∈ replaced, ∃ postings, segments i.uuid = .ngram postings ∧ e ∈ postings ∧
        fragmentOf e.2 ∈ live) ∧ ∀ i ∈ replaced, analyzerOf (segments i.uuid) = none := by
  intro replaced
  induction replaced with
  | nil =>
    intro base h
    cases h
    simp
  | cons i rest ih =>
    intro base h
    simp only [basePostings, bind_eq_ok, pure_eq_ok] at h
    rcases h with ⟨part, hpart, others, hothers, rfl⟩
    rcases ih others hothers with ⟨hmem, hkind⟩
    cases hfiles : segments i.uuid with
    | inverted params documents => grind [loadNgramPostings]
    | ngram postings =>
      rw [hfiles, loadNgramPostings, Except.ok.injEq] at hpart
      subst hpart
      refine ⟨?_, forall_mem_cons.mpr ⟨by rw [hfiles]; rfl, hkind⟩⟩
      simp [SegmentFiles.ngram.injEq, hmem, hfiles]

theorem mem_baseRows (row : Nat) :
    ∀ (replaced : List IndexMetadata) (rows : List Nat),
    baseRows segments live replaced = .ok rows →
      (row ∈ rows ↔ ∃ i ∈ replaced, row ∈ storedRows (segments i.uuid) ∧ fragmentOf row ∈ live) ∧
        ∀ i ∈ replaced, (analyzerOf (segments i.uuid)).isSome := by
  intro replaced
  induction replaced with
  | nil =>
    intro rows h
    cases h
    simp
  | cons i rest ih =>
    intro rows h
    simp only [baseRows, bind_eq_ok, pure_eq_ok] at h
    rcases h with ⟨part, hpart, others, hothers, rfl⟩
    rcases ih others hothers with ⟨hmem, hkind⟩
    cases hfiles : segments i.uuid with
    | ngram postings => grind [loadInverted]
    | inverted params documents =>
      rw [hfiles, loadInverted, Except.ok.injEq] at hpart
      subst hpart
      refine ⟨?_, forall_mem_cons.mpr ⟨by rw [hfiles]; rfl, hkind⟩⟩
      simp [storedRows, hmem, hfiles]

variable {i : IndexMetadata}

section Plans

variable {V : Type} {format : TableFormat V} {s : Dataset} {plan : OptimizePlan}
  {files : SegmentFiles}

section

variable (h : planFiles format s plan = .ok files)

include h

/-- The parts a plan's files are made of. -/
theorem planFiles_ok :
    ∃ scanned, scanFragments format plan.field
        (s.manifest.fragments.filter (fun f => f.id ∈ plan.unindexed)) = .ok scanned ∧
      ((plan.kind = .ngram ∧ ∃ base,
          basePostings s.segments (s.manifest.fragments.map (·.id)) plan.replaced = .ok base ∧
          files = .ngram (ngramPostings format base scanned)) ∨
        (plan.kind = .inverted ∧ ∃ rows params documents taken,
          baseRows s.segments (s.manifest.fragments.map (·.id)) plan.replaced = .ok rows ∧
          s.segments plan.reference.uuid = .inverted params documents ∧
          takeRows format s.manifest plan.field (ascending rows) = .ok taken ∧
          files = .inverted params (invertedDocuments format params
            (format.listElement plan.last.details) (taken ++ scanned)))) := by
  rw [planFiles] at h
  cases hkind : plan.kind with
  | ngram => grind [bind_eq_ok, inContext_eq_ok, pure_eq_ok]
  | inverted =>
    simp only [hkind, bind_eq_ok, inContext_eq_ok] at h
    rcases h with ⟨rows, hrows, reference, href, taken, htaken, scanned, hscan, hfiles⟩
    simp only [invertedFiles, bind_eq_ok, pure_eq_ok] at hfiles
    rcases hfiles with ⟨_, -, rfl⟩
    cases hr : s.segments plan.reference.uuid with
    | ngram postings => grind [loadInverted]
    | inverted params documents => grind [loadInverted]

variable {offset : Nat}

/-- A live row of a scanned fragment is held. -/
theorem planFiles_scanned (hf : f ∈ s.manifest.fragments) (hun : f.id ∈ plan.unindexed)
    (hlive : liveRow format.vectors f offset = true) :
    holdsRow format files (format.listElement plan.last.details)
      (fieldCell format f plan.field offset) (rowAddress f.id offset) := by
  rcases planFiles_ok h with ⟨scanned, hscan, hparts⟩
  have hrow : (rowAddress f.id offset, fieldCell format f plan.field offset) ∈ scanned :=
    (mem_scanFragments format _ _ scanned hscan).mpr
      ⟨f, mem_filter.mpr ⟨hf, decide_eq_true hun⟩, offset, hlive, rfl⟩
  rcases hparts with ⟨-, base, -, rfl⟩ | ⟨-, rows, params, documents, taken, -, -, -, rfl⟩
  · exact fun token htoken => (mem_ngramPostings format base scanned _).mpr
      (.inr ⟨_, hrow, htoken, rfl⟩)
  · exact fun hcount => (mem_invertedDocuments format params _ _ _).mpr
      ⟨_, mem_append_right taken hrow, hcount, rfl⟩

/-- A row of a present fragment that a replaced segment holds is held. -/
theorem planFiles_kept
    (halike : ∀ i ∈ plan.replaced, analyzerOf (s.segments i.uuid) =
      analyzerOf (s.segments plan.reference.uuid)) (hi : i ∈ plan.replaced)
    (hfind : s.manifest.fragment? f.id = some f) (hsmall : offset < 2 ^ 32)
    (hheld : holdsRow format (s.segments i.uuid) (format.listElement plan.last.details) (fieldCell
      format f plan.field offset) (rowAddress f.id offset)) :
    holdsRow format files (format.listElement plan.last.details)
      (fieldCell format f plan.field offset) (rowAddress f.id offset) := by
  have hfrag := fragmentOf_rowAddress f.id offset hsmall
  have hpresent : fragmentOf (rowAddress f.id offset) ∈ s.manifest.fragments.map (·.id) := by
    rw [hfrag]
    exact mem_map.mpr ⟨f, mem_of_find?_eq_some hfind, rfl⟩
  have halike' := halike i hi
  rcases planFiles_ok h with ⟨scanned, -, ⟨-, base, hbase, rfl⟩ | ⟨-, rows, params, documents, taken,
    hrows, href, htaken, rfl⟩⟩
  · intro token htoken
    rcases mem_basePostings (token, rowAddress f.id offset) _ base hbase with ⟨hmem, hkind⟩
    refine (mem_ngramPostings format base scanned _).mpr (.inl (hmem.mpr ?_))
    have hnone := hkind i hi
    cases hfiles : s.segments i.uuid with
    | inverted params documents => grind [analyzerOf]
    | ngram postings =>
      rw [hfiles] at hheld
      exact ⟨i, hi, postings, hfiles, hheld token htoken, hpresent⟩
  · intro hcount
    rw [href] at halike'
    have hstored : rowAddress f.id offset ∈ storedRows (s.segments i.uuid) := by
      refine hheld.stored ?_
      rw [halike']
      exact decide_eq_true hcount
    have hbase := (mem_baseRows _ _ rows hrows).1.mpr ⟨i, hi, hstored, hpresent⟩
    rcases takeRows_ok format _ taken htaken with ⟨hfst, hcells⟩
    rw [← mem_ascending, ← hfst] at hbase
    rcases mem_map.mp hbase with ⟨x, hx, hxrow⟩
    refine (mem_invertedDocuments format params _ _ _).mpr
      ⟨x, mem_append_left scanned hx, ?_, hxrow⟩
    -- The row is read again from the fragment its address names.
    rcases hcells x hx with ⟨g, hg, hcell⟩
    rw [hxrow, hfrag, hfind, Option.some.injEq] at hg
    rw [hcell, ← hg, hxrow, offsetOf_rowAddress f.id offset hsmall]
    exact hcount

/-- A row in the new files was scanned, or is one of a present fragment that a
    replaced segment has. -/
theorem planFiles_stored (hrow : row ∈ storedRows files) :
    (∃ f ∈ s.manifest.fragments, f.id ∈ plan.unindexed ∧ ∃ offset,
      liveRow format.vectors f offset = true ∧ row = rowAddress f.id offset) ∨
    (∃ i ∈ plan.replaced, row ∈ storedRows (s.segments i.uuid) ∧
      fragmentOf row ∈ s.manifest.fragments.map (·.id)) := by
  rcases planFiles_ok h with ⟨scanned, hscan, hparts⟩
  have hscanned : ∀ x ∈ scanned, ∃ f ∈ s.manifest.fragments, f.id ∈ plan.unindexed ∧ ∃ offset,
      liveRow format.vectors f offset = true ∧ x.1 = rowAddress f.id offset := by
    intro x hx
    rcases (mem_scanFragments format x _ scanned hscan).mp hx with ⟨f, hf, offset, hlive, rfl⟩
    grind
  rcases hparts with ⟨-, base, hbase, rfl⟩ | ⟨-, rows, params, documents, taken, hrows, -, htaken, rfl⟩
  · rcases mem_map.mp hrow with ⟨e, he, rfl⟩
    rcases (mem_ngramPostings format base scanned e).mp he with hin | ⟨x, hx, -, hex⟩
    · rcases (mem_basePostings e _ base hbase).1.mp hin with ⟨i, hi, postings, hfiles, hep, hlive⟩
      refine .inr ⟨i, hi, ?_, hlive⟩
      rw [hfiles]
      exact mem_map.mpr ⟨e, hep, rfl⟩
    · rw [hex]
      exact .inl (hscanned x hx)
  · rcases (mem_invertedDocuments format params _ _ row).mp hrow with ⟨x, hx, -, rfl⟩
    rcases mem_append.mp hx with hx | hx
    · right
      have hin : x.1 ∈ rows := by
        rw [← mem_ascending, ← (takeRows_ok format _ taken htaken).1]
        exact mem_map.mpr ⟨x, hx, rfl⟩
      rcases (mem_baseRows x.1 _ rows hrows).1.mp hin with ⟨i, hi, hst, hlive⟩
      exact ⟨i, hi, hst, hlive⟩
    · exact .inl (hscanned x hx)

/-- The documents of a new segment of row granularity are free of repeats exactly when no scanned
    row with text is in a replaced segment. -/
theorem planFiles_once_iff (hids : (s.manifest.fragments.map (·.id)).Nodup)
    (hsmall : ∀ f ∈ s.manifest.fragments, f.physicalRows ≤ 2 ^ 32)
    (hfind : ∀ f ∈ s.manifest.fragments, s.manifest.fragment? f.id = some f) (params : Nat)
    (documents : List Nat) (hfiles : files = .inverted params documents)
    (hrow : format.listElement plan.last.details = false) :
    documents.Nodup ↔ ∀ i ∈ plan.replaced, ∀ f ∈ s.manifest.fragments, f.id ∈ plan.unindexed →
      ∀ offset, liveRow format.vectors f offset = true →
        rowAddress f.id offset ∈ storedRows (s.segments i.uuid) →
        hasText format (some params) false (fieldCell format f plan.field offset) = false := by
  rcases planFiles_ok h with ⟨scanned, hscan, ⟨-, base, -, hng⟩ | ⟨-, rows, p, d, taken, hrows, -,
    htaken, hinv⟩⟩
  · grind
  rw [hinv, hrow, SegmentFiles.inverted.injEq] at hfiles
  rcases hfiles with ⟨rfl, rfl⟩
  rcases takeRows_ok format _ taken htaken with ⟨hfst, hcells⟩
  have hmemScan := fun x => mem_scanFragments format x _ scanned hscan
  have hnodupScan := scanFragments_nodup format _ scanned
    (hids.sublist (filter_sublist.map _)) (fun f hf => hsmall f (mem_of_mem_filter hf)) hscan
  have hnodupTaken : (taken.map Prod.fst).Nodup := by
    rw [hfst]
    exact nodup_dedup _
  rw [invertedDocuments_rows, filter_append, map_append, nodup_append]
  constructor
  · rintro ⟨-, -, hapart⟩ i hi f hf hun offset hlive hst
    by_contra htext
    rw [Bool.not_eq_false] at htext
    have hcount : documentCount format p false (fieldCell format f plan.field offset) ≠ 0 :=
      of_decide_eq_true htext
    have hlt := liveRow_lt format.vectors f offset hlive
    have hfs := hsmall f hf
    have hfrag := fragmentOf_rowAddress f.id offset (by omega)
    -- The row is taken from the replaced segment, and scanned.
    have hbase := (mem_baseRows _ _ rows hrows).1.mpr ⟨i, hi, hst, by
      rw [hfrag]
      exact mem_map.mpr ⟨f, hf, rfl⟩⟩
    rw [← mem_ascending, ← hfst] at hbase
    rcases mem_map.mp hbase with ⟨x, hx, hxrow⟩
    have hxcell : x.2 = fieldCell format f plan.field offset := by
      rcases hcells x hx with ⟨g, hg, hcell⟩
      rw [hxrow, hfrag, hfind f hf, Option.some.injEq] at hg
      rw [hcell, ← hg, hxrow, offsetOf_rowAddress f.id offset (by omega)]
    refine hapart _ (mem_map.mpr ⟨x, mem_filter.mpr ⟨hx, ?_⟩, hxrow⟩) _
      (mem_map.mpr ⟨_, mem_filter.mpr ⟨(hmemScan _).mpr
        ⟨f, mem_filter.mpr ⟨hf, decide_eq_true hun⟩, offset, hlive, rfl⟩, ?_⟩, rfl⟩) rfl
    · rw [hxcell]
      exact decide_eq_true hcount
    · exact decide_eq_true hcount
  · intro hclean
    refine ⟨hnodupTaken.sublist (filter_sublist.map _),
      hnodupScan.sublist (filter_sublist.map _), ?_⟩
    rintro a ha b hb rfl
    rcases mem_map.mp ha with ⟨x, hx, hxa⟩
    rcases mem_map.mp hb with ⟨y, hy, hya⟩
    rw [mem_filter] at hx hy
    rcases (hmemScan y).mp hy.1 with ⟨f, hf, offset, hlive, rfl⟩
    rw [mem_filter, decide_eq_true_eq] at hf
    have hin : a ∈ rows := by
      rw [← mem_ascending, ← hfst]
      exact mem_map.mpr ⟨x, hx.1, hxa⟩
    rcases (mem_baseRows a _ rows hrows).1.mp hin with ⟨i, hi, hst, -⟩
    have hrowEq : rowAddress f.id offset = a := hya
    have hnone := hclean i hi f hf.1 hf.2 offset hlive (hrowEq ▸ hst)
    exact absurd hy.2 (by
      rw [Bool.not_eq_true]
      exact hnone)

end

end Plans

/-- The segments an optimize would replace: the last few. -/
def mergedSegments (options : OptimizeOptions) (segments : List IndexMetadata) :
    List IndexMetadata :=
  segments.drop (segments.length - min (options.numIndicesToMerge.getD 1) segments.length)

/-- A fragment an optimize would take in: no segment covers it, and it is not held back by the
    options. -/
def Uncovered (options : OptimizeOptions) (name : String) (segments : List IndexMetadata) (id : Nat) :
    Prop :=
  (∀ i ∈ segments, id ∉ i.fragmentIds) ∧
    ∀ ids, options.onlyFragments.lookup name = some ids → id ∈ ids

/-- An index an optimize has something to do for: fragments to take in, or segments to merge where
    only some fragments were not asked for. -/
def HasWork (m : Manifest) (options : OptimizeOptions) (name : String)
    (segments : List IndexMetadata) : Prop :=
  (∃ f ∈ m.fragments, Uncovered options name segments f.id) ∨
    (options.onlyFragments.lookup name = none ∧ 2 ≤ (mergedSegments options segments).length)

/-- What a plan was made from, where the fragment reuse index changes nothing of the segments'
    coverage. -/
structure Planned (m : Manifest) (options : OptimizeOptions) (segments : List IndexMetadata)
    (plan : OptimizePlan) : Prop where
  replaced : plan.replaced = mergedSegments options segments
  work : HasWork m options plan.last.name segments
  last : plan.last ∈ segments
  kind : textKind plan.last = some plan.kind
  reference : plan.reference ∈ segments
  field : plan.last.fields = [plan.field]
  unindexed : ∀ id, id ∈ plan.unindexed ↔
    id ∈ m.fragments.map (·.id) ∧ Uncovered options plan.last.name segments id
  target : ∀ id, id ∈ plan.target ↔
    id ∈ plan.unindexed ∨ (id ∈ m.fragments.map (·.id) ∧ ∃ i ∈ plan.replaced, id ∈ i.fragmentIds)

variable {options : OptimizeOptions}

theorem mem_mergedSegments {segments : List IndexMetadata} (h : i ∈ mergedSegments options segments) :
    i ∈ segments :=
  mem_of_mem_drop h

/-- Planning over segments that passed the checks: there is a plan exactly when there is something
    to do. -/
theorem planSegments_ok {reuse : Option (List RemapStep)} (m : Manifest) (options : OptimizeOptions)
    {segments : List IndexMetadata} {last : IndexMetadata} {kind : TextKind}
    (hlast : last ∈ segments) (hkind : textKind last = some kind) (hfield : last.fields = [field])
    (hcov : ∀ i ∈ segments, ∀ id, id ∈ reuseCoverage reuse i.fragmentIds ↔ id ∈ i.fragmentIds) :
    (planSegments reuse m options segments last kind field = none →
      ¬ HasWork m options last.name segments) ∧
    ∀ plan, planSegments reuse m options segments last kind field = some plan →
      Planned m options segments plan := by
  -- The uncovered fragments, by the coverage the entries state.
  have hun : ∀ id, id ∈ (ascending (m.fragments.map (·.id))).filter (fun id =>
      id ∉ segments.flatMap (fun s => reuseCoverage reuse s.fragmentIds) &&
        (options.onlyFragments.lookup last.name).all (fun ids => id ∈ ids)) ↔
      id ∈ m.fragments.map (·.id) ∧ Uncovered options last.name segments id := by
    intro id
    simp only [mem_filter, mem_ascending, Bool.and_eq_true, decide_eq_true_eq,
      mem_flatMap, not_exists, not_and, Uncovered, Option.all_eq_true]
    grind
  simp only [planSegments]
  generalize (ascending (m.fragments.map (·.id))).filter (fun id =>
      id ∉ segments.flatMap (fun s => reuseCoverage reuse s.fragmentIds) &&
        (options.onlyFragments.lookup last.name).all (fun ids => id ∈ ids)) = unindexed at hun ⊢
  have hnone : unindexed.isEmpty = true →
      ¬ ∃ f ∈ m.fragments, Uncovered options last.name segments f.id := by grind
  by_cases honly : ((options.onlyFragments.lookup last.name).isSome && unindexed.isEmpty) = true
  · rw [if_pos honly]
    rw [Bool.and_eq_true] at honly
    refine ⟨fun _ => ?_, fun _ h => by cases h⟩
    rintro (hunc | ⟨hlookup, -⟩)
    · exact hnone honly.2 hunc
    · grind
  · rw [if_neg honly]
    by_cases hidle : (unindexed.isEmpty && decide ((segments.drop (segments.length -
        min (options.numIndicesToMerge.getD 1) segments.length)).length ≤ 1)) = true
    · rw [if_pos hidle]
      rw [Bool.and_eq_true, decide_eq_true_eq] at hidle
      refine ⟨fun _ => ?_, fun _ h => by cases h⟩
      rintro (hunc | ⟨-, hmany⟩)
      · exact hnone hidle.1 hunc
      · rw [mergedSegments] at hmany
        omega
    · rw [if_neg hidle]
      refine ⟨(fun h => by cases h), fun plan h => ?_⟩
      rw [Option.some.injEq] at h
      subst h
      refine ⟨rfl, ?_, hlast, hkind, ?_, hfield, hun, fun id => ?_⟩
      · -- Neither way of having nothing to do was taken.
        cases hlist : unindexed with
        | nil =>
          rw [hlist] at honly hidle
          right
          refine ⟨?_, ?_⟩
          · rw [isEmpty_nil, Bool.and_true, Option.not_isSome_iff_eq_none] at honly
            exact honly
          · grind [mergedSegments]
        | cons id rest =>
          have hin := (hun id).mp (hlist ▸ mem_cons_self)
          rcases mem_map.mp hin.1 with ⟨f, hf, rfl⟩
          exact .inl ⟨f, hf, hin.2⟩
      · dsimp only
        cases hend : (segments.drop (segments.length -
            min (options.numIndicesToMerge.getD 1) segments.length)).getLast? with
        | none => exact hlast
        | some i => exact mem_of_mem_drop (mem_of_getLast? hend)
      · grind [mem_ascending]

/-- What an index's planning comes to. -/
theorem optimizePlan_ok {external : Nat → Except String (List ReuseVersion)} (name : String)
    {segments : List IndexMetadata} {plan : Option OptimizePlan}
    (hname : ∀ i ∈ segments, i.name = name)
    (hcov : ∀ reuse, loadReuse external m = .ok reuse → ∀ i ∈ segments, ∀ id,
      id ∈ reuseCoverage reuse i.fragmentIds ↔ id ∈ i.fragmentIds)
    (h : optimizePlan external m options segments = .ok plan) :
    (plan = none → segments = [] ∨ ¬ HasWork m options name segments) ∧
      ∀ made, plan = some made → Planned m options segments made := by
  rw [optimizePlan] at h
  cases hlast : segments.getLast? with
  | none =>
    rw [hlast, Except.ok.injEq] at h
    subst h
    exact ⟨fun _ => .inl (getLast?_eq_none_iff.mp hlast), fun made hmade =>
      nomatch hmade⟩
  | some last =>
    have hin := mem_of_getLast? hlast
    simp only [hlast] at h
    cases hkind : textKind last with
    | none => grind
    | some kind =>
      simp only [hkind, bind_eq_ok] at h
      rcases h with ⟨_, -, h⟩
      split at h
      · rename_i field hfield
        simp only [bind_eq_ok, pure_eq_ok] at h
        rcases h with ⟨_, -, reuse, hreuse, rfl⟩
        have hplan := planSegments_ok m options hin hkind hfield (hcov reuse hreuse)
        grind
      · cases h

end NanoLance
