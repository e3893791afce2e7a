import NanoLance.ScanPlan

/-!
# Row Ranges

A row range is served in two ways. Without a filter or a mask it is split over
the fragments by their live rows while the plan is made, and each planned file
is read in part. With one, whole fragments are read and the range is cut out of
the rows that pass: by the eager read once all of them are there, and by the
stream as it goes.

Either way the rows are a slice of the rows of the same read without a range.
For the plan the induction is over the fragments, with the rows of those planned
so far: the cursor is how many they are, and what was planned of them is their
slice (`slice_append`). The stream is handled by an induction over the files
not read and the batches not handed out.

## Theorems

* `sliceBatches_flatten`: The eager read's cut.
* `row_range_reads_slice`: A row range reads a slice.
-/

namespace NanoLance

namespace Scan

open List Lib

variable {range : RowRange}

section Range

variable {R : Type} {store : Store R} {row : Nat → Nat → R} {deletedBy : Nat → List Nat}

/-! ## Planned parts -/

/-- The live rows of a fragment with their addresses. -/
def fragmentRows (row : Nat → Nat → R) (deletedBy : Nat → List Nat) (f : DataFragment) : Batch R :=
  (rowsOf deletedBy none f).map (fun p => (rowAddress f.id p, row f.id p))

variable {f : DataFragment}

theorem length_rowsOf (h : f.files.isEmpty = false → Stored store row deletedBy f) :
    (rowsOf deletedBy none f).length = liveCount f := by
  unfold rowsOf liveCount
  by_cases hfiles : f.files.isEmpty = true
  · rw [if_pos hfiles, if_pos hfiles, length_nil]
  · rw [if_neg hfiles, if_neg hfiles, (h (Bool.eq_false_iff.mpr hfiles)).deleted_le.2]
    simp

theorem length_fragmentRows (h : f.files.isEmpty = false → Stored store row deletedBy f) :
    (fragmentRows row deletedBy f).length = liveCount f := by
  rw [fragmentRows, length_map, length_rowsOf h]

/-- A part of a fragment is read to that part of its rows. -/
theorem part_read (h : Stored store row deletedBy f) (machine : Machine) (skip take : Nat)
    (hfiles : f.files.isEmpty = false) (hle : skip + take ≤ liveCount f) :
    ∃ batches, readDataFileBatches store machine
        { plannedOf none f with skip := skip, take := take } none = .ok batches ∧
      addressed f.id batches.flatten =
        slice (fragmentRows row deletedBy f) skip (skip + take) := by
  have hrows : (plannedOf none f).rows = liveCount f := by
    rw [liveCount, if_neg (Bool.eq_false_iff.mp hfiles)]
    rfl
  have hlive : liveRows { plannedOf none f with skip := skip, take := take }
      (deletedFrom deletedBy f) = rowsOf deletedBy none f :=
    liveRows_planned none none skip take hfiles
  have hlength := length_rowsOf (fun _ => h)
  have hwanted : wantedRows { plannedOf none f with skip := skip, take := take }
      (deletedFrom deletedBy f) = slice (rowsOf deletedBy none f) skip (skip + take) := by
    unfold wantedRows
    rw [hlive]
    split
    · rfl
    · next hpart =>
      -- The whole fragment, as a part of itself.
      rw [Bool.not_eq_true, PlannedFile.part, Bool.or_eq_false_iff, decide_eq_false_iff_not,
        decide_eq_false_iff_not, not_not, not_not] at hpart
      have hskip : skip = 0 := hpart.1
      have htake : take = liveCount f := hpart.2.trans hrows
      rw [hskip, htake, Nat.zero_add]
      exact (slice_zero _ (Nat.le_of_eq hlength)).symm
  rcases readDataFileBatches_rows
    (h.reads none none skip take (.inr ⟨rfl, by rw [hrows]; exact hle⟩)) machine none
    (fun _ => true) (fun l hl => by cases hl) (fun r => rfl) with ⟨batches, hread, hflat⟩
  refine ⟨batches, hread, ?_⟩
  rw [hflat, passing]
  simp only [filter_true]
  unfold addressed fragmentRows
  rw [map_map, slice_map, ← hwanted]
  rfl

/-! ## The plan -/

/-- What a plan wants of the rows it has planned. -/
def window (request : ScanRequest R) (rows : Batch R) : Batch R :=
  if request.ranged then slice rows request.range.offset request.range.wantEnd else rows

variable {state : PlanState} {rows : Batch R}

/-- **One fragment added to a plan without a filter.** -/
theorem planFragment_window {machine : Machine} {request : ScanRequest R}
    (hmask : request.rowMask = none) (hcandidates : state.candidates = [])
    (hcursor : state.cursor = rows.length)
    (hstored : f.files.isEmpty = false → Stored store row deletedBy f)
    (hbound : state.cursor + liveCount f ≤ 2 ^ 64 - 1)
    (hread : FilesRead store machine none state.files (window request rows)) :
    ∃ after, planFragment request state f = .ok after ∧ after.candidates = [] ∧
      after.cursor = (rows ++ fragmentRows row deletedBy f).length ∧
      FilesRead store machine none after.files
        (window request (rows ++ fragmentRows row deletedBy f)) := by
  have hlength := length_fragmentRows hstored
  by_cases hfiles : f.files.isEmpty = true
  · -- No files: nothing is planned, and the fragment has no rows.
    have hnone : fragmentRows row deletedBy f = [] := by
      unfold fragmentRows rowsOf
      rw [if_pos hfiles]
      rfl
    refine ⟨state, if_pos hfiles, hcandidates, ?_, ?_⟩
    · rw [hnone, append_nil]
      exact hcursor
    · rw [hnone, append_nil]
      exact hread
  have hsome := Bool.eq_false_iff.mpr hfiles
  have hs := hstored hsome
  have hrows : (plannedOf none f).rows = liveCount f := by
    rw [liveCount, if_neg hfiles]
    rfl
  rw [planFragment_eq request hsome hs.deleted_le.1 hbound, hmask]
  have hany : ((plannedOf none f).maskKeep.any (fun keep => !keep.contains true)) = false := rfl
  rw [hany, if_neg (by decide)]
  unfold window at hread ⊢
  by_cases hranged : request.ranged = true
  · rw [if_pos hranged] at hread ⊢
    rw [if_pos hranged]
    refine ⟨_, rfl, hcandidates, ?_, ?_⟩
    · rw [length_append, hlength, ← hcursor]
    · -- The range begins and ends in the fragment, or before it, or after it.
      rw [slice_append, ← hcursor, ← slice_min (fragmentRows row deletedBy f), hlength, ← hrows]
      unfold planRange
      by_cases hempty : min request.range.wantEnd (state.cursor + (plannedOf none f).rows) ≤
          max request.range.offset state.cursor
      · rw [if_pos hempty, slice_of_le (fragmentRows row deletedBy f) (by omega), append_nil]
        simp [hread]
      · rw [if_neg hempty]
        simp only [Option.toList_some]
        rcases part_read hs machine (max request.range.offset state.cursor - state.cursor)
          (min request.range.wantEnd (state.cursor + (plannedOf none f).rows) -
            max request.range.offset state.cursor) hsome (by omega) with ⟨batches, hbatches, hpart⟩
        have hbegin : max request.range.offset state.cursor - state.cursor =
            request.range.offset - state.cursor := by omega
        have hend : max request.range.offset state.cursor - state.cursor +
            (min request.range.wantEnd (state.cursor + (plannedOf none f).rows) -
              max request.range.offset state.cursor) =
            min (request.range.wantEnd - state.cursor) (plannedOf none f).rows := by omega
        rw [hend] at hpart
        rw [← hbegin, ← hpart]
        exact hread.concat _ batches hbatches
  · rw [if_neg hranged] at hread ⊢
    rw [if_neg hranged]
    have hwhole : planWhole request state.candidates (plannedOf none f) =
        (state.candidates, some (plannedOf none f)) := by
      rw [hcandidates]
      rfl
    rw [hwhole]
    refine ⟨_, rfl, hcandidates, ?_, ?_⟩
    · rw [length_append, hlength, ← hcursor]
    · rcases part_read hs machine 0 (liveCount f) hsome (by omega) with ⟨batches, hbatches, hpart⟩
      rw [Nat.zero_add, slice_zero _ (Nat.le_of_eq hlength)] at hpart
      rw [← hpart]
      refine hread.concat (plannedOf none f) batches ?_
      rw [← hrows] at hbatches
      exact hbatches

/-- **What a plan without a filter reads.** -/
theorem planFragments_window (machine : Machine) {request : ScanRequest R}
    (hmask : request.rowMask = none)
    {fragments : List DataFragment}
    (hstored : ∀ f ∈ fragments, f.files.isEmpty = false → Stored store row deletedBy f)
    (state : PlanState) (hcandidates : state.candidates = []) (rows : Batch R)
    (hcursor : state.cursor = rows.length)
    (hbound : state.cursor + (fragments.map liveCount).sum ≤ 2 ^ 64 - 1)
    (hread : FilesRead store machine none state.files (window request rows)) :
    ∃ after, fragments.foldlM (planFragment request) state = .ok after ∧
      after.cursor = (rows ++ fragments.flatMap (fragmentRows row deletedBy)).length ∧
      FilesRead store machine none after.files
        (window request (rows ++ fragments.flatMap (fragmentRows row deletedBy))) := by
  induction fragments generalizing state rows with
  | nil =>
    rw [flatMap_nil, append_nil]
    exact ⟨state, rfl, hcursor, hread⟩
  | cons f fragments ih =>
    rw [map_cons, sum_cons] at hbound
    rcases planFragment_window hmask hcandidates hcursor
      (hstored f (.head _)) (by omega) hread with ⟨mid, hmid, hnone, hcursor', hread'⟩
    have hmidcursor : mid.cursor = state.cursor + liveCount f := by
      rw [hcursor', length_append, length_fragmentRows (hstored f (.head _)), hcursor]
    rcases ih (fun g hg => hstored g (.tail _ hg)) mid hnone _ hcursor'
      (by omega) hread' with ⟨after, hafter, hcursor'', hread''⟩
    rw [flatMap_cons, ← append_assoc]
    refine ⟨after, ?_, hcursor'', hread''⟩
    rw [foldlM_cons, hmid]
    exact hafter

/-- A plan counts the rows of its fragments, which fit 64 bits. -/
theorem planFragments_cursor {request : ScanRequest R} {fragments : List DataFragment}
    {after : PlanState} (h : fragments.foldlM (planFragment request) state = .ok after)
    (hbound : state.cursor ≤ 2 ^ 64 - 1) :
    state.cursor + (fragments.map liveCount).sum ≤ 2 ^ 64 - 1 := by
  induction fragments generalizing state with
  | nil => exact hbound
  | cons f fragments ih =>
    rw [foldlM_cons] at h
    rcases (bind_eq_ok _ _ _).mp h with ⟨mid, hmid, hrest⟩
    have hstep : mid.cursor = state.cursor + liveCount f ∧ mid.cursor ≤ 2 ^ 64 - 1 := by
      unfold planFragment at hmid
      unfold liveCount
      by_cases hfiles : f.files.isEmpty = true
      · grind
      · rw [if_neg hfiles] at hmid ⊢
        simp only [bind_eq_ok, ensure_eq_ok, Bool.not_eq_true', decide_eq_false_iff_not] at hmid
        rcases hmid with ⟨-, -, -, hfits, hmid⟩
        have hcursor : mid.cursor = state.cursor +
            (f.physicalRows - (f.deletionFile.map (·.numDeletedRows)).getD 0) := by
          split at hmid
          · cases hmid
            rfl
          · split at hmid
            · cases hmid
              rfl
            · cases hmid
              rfl
        exact ⟨hcursor, by omega⟩
    grind

/-! ## The eager read's cut -/

/-- Where the eager read's cut ends. -/
def sliceEnd (offset : Nat) (length : Option Nat) : Nat :=
  match length with
  | none => 2 ^ 64 - 1
  | some n => (offset + n) % 2 ^ 64

theorem sliceBatches_cons (offset : Nat) (length : Option Nat) (batch : Batch R)
    (rest : List (Batch R)) (first : Nat) :
    sliceBatches offset length (batch :: rest) first =
      if min (first + batch.length) (sliceEnd offset length) ≤ max first offset then
        sliceBatches offset length rest (first + batch.length)
      else
        (batch.drop (max first offset - first)).take
            (min (first + batch.length) (sliceEnd offset length) - max first offset) ::
          sliceBatches offset length rest (first + batch.length) := rfl

theorem sliceBatches_flatten (offset : Nat) (length : Option Nat) (batches : List (Batch R))
    (first : Nat) :
    (sliceBatches offset length batches first).flatten =
      slice batches.flatten (offset - first) (sliceEnd offset length - first) := by
  induction batches generalizing first with
  | nil =>
    rw [sliceBatches, flatten_nil, slice, drop_nil, take_nil]
  | cons batch rest ih =>
    rw [flatten_cons, slice_append, ← slice_min batch, Nat.sub_sub, Nat.sub_sub,
      ← ih (first + batch.length), sliceBatches_cons]
    by_cases hempty : min (first + batch.length) (sliceEnd offset length) ≤ max first offset
    · rw [if_pos hempty, slice_of_le _ (by omega), nil_append]
    · rw [if_neg hempty, flatten_cons]
      congr 1
      unfold slice
      grind

/-! ## Streams -/

theorem readFiles_cons (machine : Machine) (filter : Option (Filter R)) (planned : PlannedFile)
    (files : List PlannedFile) (batches : List (Batch R))
    (h : readFiles store machine filter (planned :: files) = .ok batches) :
    ∃ first rest, readDataFileBatches store machine planned filter = .ok first ∧
      readFiles store machine filter files = .ok rest ∧
      batches = first.map (addressed planned.fragmentId) ++ rest := by
  simp only [readFiles, bind_eq_ok, pure_eq_ok] at h
  rcases h with ⟨parts, hparts, rfl⟩
  grind [mapM_eq_ok, bind_eq_ok, pure_eq_ok, readFiles]

variable {machine : Machine} {request : ScanRequest R}

/-- Streams with the same next batch hand out the same batches. -/
theorem Drains.of_next (machine : Machine) (request : ScanRequest R) {s t : Stream R}
    {batches : List (Batch R)}
    (h : next store machine request s.files s.pending s.skip s.remaining =
      next store machine request t.files t.pending t.skip t.remaining)
    (ht : Drains store machine request t batches) : Drains store machine request s batches := by
  cases ht with
  | done _ t' hdone => exact .done s t' (h.trans hdone)
  | more _ t' batch batches hmore hrest => exact .more s t' batch batches (h.trans hmore) hrest

/-- A file is read once nothing is pending. -/
theorem next_file (planned : PlannedFile) (files : List PlannedFile) (skip remaining : Nat)
    (batches : List (Batch R))
    (h : readDataFileBatches store machine planned request.filter = .ok batches) :
    next store machine request (planned :: files) [] skip remaining =
      next store machine request files (batches.map (addressed planned.fragmentId)) skip
        remaining := by
  rw [next, h]
  rfl

/-- **Without a range that counts rows that pass, a stream hands out every batch.** -/
theorem drains_whole (hpost : request.postRange = none) (files : List PlannedFile)
    (pending : List (Batch R)) (skip remaining : Nat) (batches : List (Batch R))
    (h : readFiles store machine request.filter files = .ok batches) :
    Drains store machine request ⟨files, pending, skip, remaining⟩ (pending ++ batches) := by
  induction files generalizing pending batches with
  | nil =>
    obtain rfl : batches = [] := (Except.ok.inj h).symm
    rw [append_nil]
    induction pending with
    | nil => exact .done _ _ (by rw [next])
    | cons batch pending ih =>
      exact .more _ _ batch pending (by rw [next, hpost]; rfl) ih
  | cons planned files ih =>
    rcases readFiles_cons machine request.filter planned files batches h with
      ⟨first, rest, hfirst, hrest, rfl⟩
    induction pending with
    | nil =>
      exact (ih (first.map (addressed planned.fragmentId)) rest hrest).of_next machine request
        (next_file planned files skip remaining first hfirst)
    | cons batch pending ihp =>
      exact .more _ _ batch _ (by rw [next, hpost]; rfl) ihp

section

variable (hpost : request.postRange.isNone = false) (files : List PlannedFile)

include hpost

/-- A batch a stream has pending, when the range counts the rows that pass. -/
theorem next_pending (batch : Batch R) (pending : List (Batch R)) (skip remaining : Nat) :
    next store machine request files (batch :: pending) skip remaining =
      if remaining = 0 then .ok (.done (skip - min skip batch.length) remaining, none)
      else if batch.length ≤ skip then
        next store machine request files pending (skip - min skip batch.length) remaining
      else
        .ok (⟨files, pending, 0, if remaining = allRows then remaining
          else remaining - min (batch.length - skip) remaining⟩,
          some ((batch.drop skip).take (min (batch.length - skip) remaining))) := by
  rw [next, hpost, if_neg (by decide)]

/-- One batch of a stream and what comes after it. -/
theorem drains_pending {batch : Batch R} {pending : List (Batch R)}
    (hrest : ∀ skip remaining, ∃ out, Drains store machine request ⟨files, pending, skip,
      remaining⟩ out ∧ out.flatten = slice rows skip (skip + remaining))
    (hcount : batch.length + rows.length ≤ allRows) (skip remaining : Nat) :
    ∃ out, Drains store machine request ⟨files, batch :: pending, skip, remaining⟩ out ∧
      out.flatten = slice (batch ++ rows) skip (skip + remaining) := by
  have hnext : next store machine request files (batch :: pending) skip remaining = _ :=
    next_pending hpost files batch pending skip remaining
  rw [slice_append]
  by_cases hzero : remaining = 0
  · -- The range is complete.
    rw [if_pos hzero] at hnext
    refine ⟨[], .done _ _ hnext, ?_⟩
    rw [slice_of_le batch (by omega), slice_of_le rows (by omega)]
    rfl
  rw [if_neg hzero] at hnext
  by_cases hskip : batch.length ≤ skip
  · -- The batch lies before the range.
    rw [if_pos hskip, Nat.min_eq_right hskip] at hnext
    rcases hrest (skip - batch.length) remaining with ⟨out, hout, hflat⟩
    refine ⟨out, hout.of_next machine request hnext, ?_⟩
    have hbefore : slice batch skip (skip + remaining) = [] := by
      rw [slice, drop_eq_nil_of_le hskip, take_nil]
    grind
  · rw [if_neg hskip] at hnext
    rcases hrest 0 (if remaining = allRows then remaining
      else remaining - min (batch.length - skip) remaining) with ⟨out, hout, hflat⟩
    refine ⟨_, .more _ _ _ out hnext hout, ?_⟩
    rw [flatten_cons, hflat]
    congr 1
    · unfold slice
      rw [Nat.add_sub_cancel_left, Nat.min_comm, ← length_drop, ← take_eq_take_min]
    · rw [show skip - batch.length = 0 by omega, Nat.zero_add]
      grind [slice_zero]

/-- **With one, a stream hands out the slice of the rows that pass.** -/
theorem drains_range (pending : List (Batch R)) (skip remaining : Nat) (batches : List (Batch R))
    (h : readFiles store machine request.filter files = .ok batches)
    (hcount : (pending ++ batches).flatten.length ≤ allRows) :
    ∃ out, Drains store machine request ⟨files, pending, skip, remaining⟩ out ∧
      out.flatten = slice (pending ++ batches).flatten skip (skip + remaining) := by
  induction files generalizing pending batches skip remaining with
  | nil =>
    obtain rfl : batches = [] := (Except.ok.inj h).symm
    rw [append_nil] at hcount ⊢
    induction pending generalizing skip remaining with
    | nil =>
      refine ⟨[], .done _ _ (by rw [next]), ?_⟩
      rw [slice, flatten_nil, drop_nil, take_nil]
    | cons batch pending ih =>
      rw [flatten_cons, length_append] at hcount
      exact drains_pending hpost []
        (fun skip remaining => ih skip remaining (by omega)) hcount skip remaining
  | cons planned files ih =>
    rcases readFiles_cons machine request.filter planned files batches h with
      ⟨first, rest, hfirst, hrest, rfl⟩
    induction pending generalizing skip remaining with
    | nil =>
      rcases ih (first.map (addressed planned.fragmentId)) skip remaining rest hrest hcount
        with ⟨out, hout, hflat⟩
      exact ⟨out, hout.of_next machine request
        (next_file planned files skip remaining first hfirst), hflat⟩
    | cons batch pending ihp =>
      rw [cons_append, flatten_cons, length_append] at hcount
      exact drains_pending hpost (planned :: files)
        (fun skip remaining => ihp skip remaining (by omega)) hcount skip remaining

end

/-! ## A range and the whole -/

/-- The end of a range of rows there are. -/
theorem slice_wantEnd (range : RowRange) (h : rows.length ≤ 2 ^ 64 - 1) :
    slice rows range.offset range.wantEnd =
      slice rows range.offset (min (range.offset + range.length) rows.length) := by
  rw [slice_min, ← slice_min rows _ range.wantEnd, ← slice_min rows _ (range.offset + range.length)]
  grind [RowRange.wantEnd, allRows]

theorem slice_bound (h : rows.length ≤ 2 ^ 63) (hoffset : range.offset ≤ rows.length) :
    slice rows range.offset (sliceEnd range.offset range.bound) =
      slice rows range.offset (min (range.offset + range.length) rows.length) := by
  rw [slice_min, ← slice_min rows _ (sliceEnd range.offset range.bound),
    ← slice_min rows _ (range.offset + range.length)]
  grind [RowRange.bound, sliceEnd]

/-- The rows of a range, of all the rows there are. -/
def RowRange.rowsIn (range : RowRange) (rows : Batch R) : Batch R :=
  slice rows range.offset (min (range.offset + range.length) rows.length)

theorem rowsIn_whole (hrange : range.isWholeDataset = true) (h : rows.length ≤ 2 ^ 64 - 1) :
    range.rowsIn rows = rows := by
  rcases Bool.and_eq_true_iff.mp hrange with ⟨hoffset, hlength⟩
  rw [RowRange.rowsIn, slice_min, of_decide_eq_true hoffset, of_decide_eq_true hlength]
  exact slice_zero rows (by unfold allRows; omega)

/-- The request without its range. -/
abbrev ScanRequest.whole (request : ScanRequest R) : ScanRequest R := { request with range := {} }

theorem whole_isWholeDataset : RowRange.isWholeDataset {} = true := by decide

theorem whole_ranged (request : ScanRequest R) : request.whole.ranged = false := by
  unfold ScanRequest.ranged
  rw [whole_isWholeDataset, Bool.not_true, Bool.and_false]

theorem whole_postRange (request : ScanRequest R) : request.whole.postRange = none := by
  unfold ScanRequest.postRange
  rw [whole_isWholeDataset, Bool.not_true, Bool.and_false]
  rfl

/-- The plan of a range that counts the rows that pass is that of the whole. -/
theorem openReadPlan_whole {request : ScanRequest R} (hranged : request.ranged = false)
    (m : Manifest) (answers : Candidates) :
    openReadPlan request m answers = openReadPlan request.whole m answers := by
  have hstep : planFragment request = planFragment request.whole := by
    funext state f
    unfold planFragment
    rw [hranged, whole_ranged request]
    rfl
  unfold openReadPlan
  rw [hstep, hranged, whole_ranged request]
  rfl

section Files

variable (m : Manifest) {answers : Candidates}
  (whole : List (Batch R)) (hwhole : scan store machine request.whole m answers = .ok whole)
  (hcount : whole.flatten.length ≤ 2 ^ 63) (hoffset : request.range.offset ≤ whole.flatten.length)

include hwhole

theorem whole_files : ∃ files, openReadPlan request.whole m answers = .ok files ∧
    readFiles store machine request.filter files = .ok whole := by
  simp only [scan, readAllBatches, bind_eq_ok, whole_postRange] at hwhole
  rcases hwhole with ⟨files, hfiles, batches, hbatches, hsame⟩
  cases hsame
  exact ⟨files, hfiles, hbatches⟩

include hcount hoffset

/-- **The files of a plan and what they are read to**: the rows of the range, or all of them when
    the range is still to be cut out. -/
theorem range_files {fragments : List DataFragment}
    (hfragments : readFragments request m = .ok fragments)
    (hstored : ∀ f ∈ fragments, f.files.isEmpty = false → Stored store row deletedBy f) :
    ∃ files batches, openReadPlan request m answers = .ok files ∧
      readFiles store machine request.filter files = .ok batches ∧
      (request.postRange = none → batches.flatten = request.range.rowsIn whole.flatten) ∧
      (request.postRange.isNone = false → batches = whole) := by
  rcases whole_files m whole hwhole with ⟨files, hfiles, hread⟩
  by_cases hpass : (request.filter.isSome || request.rowMask.isSome) = true
  · -- The plan is that of the whole read.
    have hranged : request.ranged = false := by
      rw [ScanRequest.ranged, ← Option.not_isSome, ← Option.not_isSome, ← Bool.not_or, hpass]
      rfl
    rw [openReadPlan_whole hranged]
    refine ⟨files, whole, hfiles, hread, fun hpost => ?_, fun _ => rfl⟩
    rw [ScanRequest.postRange, hpass, Bool.true_and] at hpost
    by_cases hall : request.range.isWholeDataset = true
    · exact (rowsIn_whole hall (by omega)).symm
    · grind
  · rw [Bool.not_eq_true, Bool.or_eq_false_iff, Option.isSome_eq_false_iff,
      Option.isSome_eq_false_iff, Option.isNone_iff_eq_none, Option.isNone_iff_eq_none] at hpass
    rcases hpass with ⟨hfilter, hmask⟩
    have hpost : request.postRange = none := by simp [ScanRequest.postRange, hfilter, hmask]
    have hnone : usedAnswers request m answers = [] := by simp [usedAnswers, hfilter]
    rcases (openReadPlan_eq_ok request.whole m answers files).mp hfiles with
      ⟨fragments', state, hfragments', hstate, -, hstatefiles⟩
    obtain rfl : fragments = fragments' := Except.ok.inj (hfragments.symm.trans hfragments')
    have hbound := planFragments_cursor hstate (Nat.zero_le _)
    -- Both plans go over the same fragments; the one without a range takes all.
    have hplan : ∀ asked : ScanRequest R, asked.rowMask = none →
        ∃ after, fragments.foldlM (planFragment asked) { candidates := [] } = .ok after ∧
          after.cursor = (fragments.flatMap (fragmentRows row deletedBy)).length ∧
          FilesRead store machine none after.files
            (window asked (fragments.flatMap (fragmentRows row deletedBy))) := by
      intro asked hmask
      refine planFragments_window machine hmask hstored { candidates := [] } rfl [] rfl hbound ?_
      unfold window
      rw [slice, drop_nil, take_nil, ite_self]
      exact FilesRead.nil machine none
    have hall : whole.flatten = fragments.flatMap (fragmentRows row deletedBy) := by
      rcases hplan request.whole hmask with ⟨after, hafter, -, batches, hbatches, hflat⟩
      have hused : usedAnswers request.whole m answers = [] := hnone
      grind [window, whole_ranged]
    rcases hplan request hmask with ⟨after, hafter, hcursor, batches, hbatches, hflat⟩
    rw [← hall] at hcursor hflat
    refine ⟨after.files, batches, ?_, by rw [hfilter]; exact hbatches, fun _ => ?_, ?_⟩
    · refine (openReadPlan_eq_ok request m answers after.files).mpr
        ⟨fragments, after, hfragments, by rw [hnone]; exact hafter, ?_, rfl⟩
      grind
    · rw [hflat, window]
      by_cases hranged : request.ranged = true
      · rw [if_pos hranged]
        exact slice_wantEnd request.range (by omega)
      · rw [if_neg hranged]
        simp only [ScanRequest.ranged, hfilter, hmask, Option.isNone_none, Bool.true_and,
          Bool.not_eq_true', Bool.not_eq_false] at hranged
        exact (rowsIn_whole hranged (by omega)).symm
    · rw [hpost]
      intro h
      cases h

end Files

end Range

/-- **A row range reads a slice** of the rows of the same read without it, in order and with their
    addresses, at once or as a stream. -/
theorem row_range_reads_slice {R : Type} (store : Store R) (row : Nat → Nat → R)
    (deletedBy : Nat → List Nat) (machine : Machine) (request : ScanRequest R) (m : Manifest)
    (answers : Candidates) (fragments : List DataFragment)
    (hfragments : readFragments request m = .ok fragments)
    (hstored : ∀ f ∈ fragments, f.files.isEmpty = false → Stored store row deletedBy f)
    (whole : List (Batch R)) (hwhole : scan store machine request.whole m answers = .ok whole)
    (hcount : whole.flatten.length ≤ 2 ^ 63)
    (hoffset : request.range.offset ≤ whole.flatten.length) :
    (∃ batches, scan store machine request m answers = .ok batches ∧
      batches.flatten = request.range.rowsIn whole.flatten) ∧
    ∃ stream batches, openStream request m answers = .ok stream ∧
      Drains store machine request stream batches ∧
      batches.flatten = request.range.rowsIn whole.flatten := by
  rcases range_files m whole hwhole hcount hoffset hfragments
    hstored with ⟨files, batches, hfiles, hread, hplain, hsame⟩
  unfold scan readAllBatches openStream
  simp only [hfiles, hread, bind, Except.bind, pure, Except.pure]
  cases hpost : request.postRange with
  | none =>
    have hrows := hplain hpost
    exact ⟨⟨batches, rfl, hrows⟩, _, batches, rfl,
      drains_whole hpost files [] _ _ batches hread, hrows⟩
  | some range =>
    have hisSome : request.postRange.isNone = false := by
      rw [hpost]
      rfl
    obtain rfl := hsame hisSome
    have hrange : request.range = range := by grind [ScanRequest.postRange]
    subst hrange
    refine ⟨⟨_, rfl, ?_⟩, ?_⟩
    · rw [sliceBatches_flatten]
      exact slice_bound hcount hoffset
    · rcases drains_range hisSome files [] request.range.offset
        request.range.length batches hread (by unfold allRows; rw [nil_append]; omega) with
        ⟨out, hout, hflat⟩
      grind [RowRange.rowsIn, slice_min]

/-- Fragments of nine rows, the fourth and fifth of them deleted. -/
def gapRows : Store Nat where
  lengths _ := [9]
  deleted _ := .ok [3, 4]
  columns _ _ := [{ pages := [⟨9, 9, true, 9, 0⟩] }]
  whole id := .ok ((List.range 9).map (10 * id + ·))
  range id first count := .ok ((range' first count).map (10 * id + ·))
  rows id picked := .ok (picked.map (10 * id + ·))

/-- Two threads that cut every range they can. -/
def twoThreads : Machine := ⟨2, 1, fun _ _ => true⟩

def gapFragment (id : Nat) : DataFragment :=
  { id := id, files := [{ path := "data", fields := [0] }], physicalRows := 9
    deletionFile := some { numDeletedRows := 2 } }

theorem gapFragment_stored (id : Nat) :
    Stored gapRows (fun id p => 10 * id + p) (fun _ => [3, 4]) (gapFragment id) := by
  refine ⟨⟨⟨cons_ne_nil _ _, forall_mem_singleton.mpr rfl⟩, rfl, fun _ _ _ => rfl,
    fun _ _ _ => rfl⟩, ?_⟩
  intro file h
  cases h
  exact ⟨rfl, by decide, by simp [gapFragment], rfl⟩

/-- Rows two to nine of two fragments that leave seven each: the range ends where the rows deleted
    from the second one begin, and the first one is cut there. -/
theorem row_range_reads_gaps :
    ∃ batches, scan gapRows twoThreads { range := { offset := 2, length := 8 } }
      { fragments := [gapFragment 0, gapFragment 1] } [] = .ok batches ∧
      batches.flatten = [(2, 2), (5, 5), (6, 6), (7, 7), (8, 8), (rowAddress 1 0, 10),
        (rowAddress 1 1, 11), (rowAddress 1 2, 12)] :=
  (row_range_reads_slice gapRows (fun id p => 10 * id + p) (fun _ => [3, 4]) twoThreads
    { range := { offset := 2, length := 8 } } { fragments := [gapFragment 0, gapFragment 1] } []
    [gapFragment 0, gapFragment 1] rfl
    (forall_mem_cons.mpr ⟨fun _ => gapFragment_stored 0,
      forall_mem_singleton.mpr (fun _ => gapFragment_stored 1)⟩) _ rfl (by decide) (by decide)).1

end Scan

end NanoLance
