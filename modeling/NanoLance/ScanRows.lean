import NanoLance.Scan

/-!
# The Rows of One Planned File

What reading a planned file gives. The rows of a fragment that are kept, by
deletions and mask, are counted in `before`, and every count of the reader is
one of these: where a logical row is, which physical rows hold a range of them,
which part of a morsel is wanted. The morsels tile the physical rows, so their
parts of the range put together are the range (`flatMap_tiles`).

The columns are decoded elsewhere. `Decodes` says of a store what the decoders
owe: rows decoded in a range, or picked, are those rows of the fragment.
-/

namespace NanoLance

namespace Scan

open List Lib

/-! ## Morsels -/

theorem cutFrom_tiles (cut : Nat → Nat) (last : Nat) (ks : List Nat) (row : Nat)
    (h : row ≤ last) : Tiles row last (cutFrom cut last ks row) := by
  induction ks generalizing row with
  | nil => exact ⟨rfl, h, rfl⟩
  | cons k ks ih =>
    rw [cutFrom]
    split
    · rename_i hcut
      rw [Bool.and_eq_true, decide_eq_true_eq, decide_eq_true_eq] at hcut
      exact ⟨rfl, Nat.le_of_lt hcut.1, ih (cut k) (Nat.le_of_lt hcut.2)⟩
    · exact ih row h

theorem tryMorsels_tiles (accept : List (Nat × Nat) → Bool) (cut : Nat → Nat → Nat)
    {first last : Nat} (fuel want : Nat) (h : first ≤ last) :
    Tiles first last (tryMorsels accept cut first last fuel want) := by
  have hsingle : Tiles first last [(first, last)] := ⟨rfl, h, rfl⟩
  induction fuel generalizing want with
  | zero => exact hsingle
  | succ fuel ih =>
    rw [tryMorsels]
    split
    · exact hsingle
    · simp only []
      split
      · exact cutFrom_tiles (cut want) last _ first h
      · exact ih (want / 2)

variable {first last : Nat} {α β : Type}

/-- Morsels tile the range they are cut from. -/
theorem planMorsels_tiles (machine : Machine) (columns : List Column) (h : first ≤ last) :
    Tiles first last (planMorsels machine columns first last) := by
  unfold planMorsels
  split
  · exact ⟨rfl, h, rfl⟩
  · exact tryMorsels_tiles _ _ _ _ h

theorem tiles_single {a b : Nat} {tiles : List (Nat × Nat)} (h : Tiles a b tiles)
    (hlen : tiles.length = 1) : tiles = [(a, b)] := by
  rcases length_eq_one_iff.mp hlen with ⟨t, rfl⟩
  rcases h with ⟨hfirst, -, hlast⟩
  exact congrArg (fun t => [t]) (Prod.ext hfirst hlast)

/-! ## Rows kept -/

/-- A row is kept; without flags every row is. -/
def isKept (keep : List Bool) (row : Nat) : Bool := keep.isEmpty || keep.getD row false

/-- The rows kept of `physical` ones. -/
def keptRows (keep : List Bool) (physical : Nat) : List Nat :=
  (range physical).filter (isKept keep)

/-- The rows kept before a physical row. -/
def before (keep : List Bool) (row : Nat) : Nat := (keptRows keep row).length

theorem before_mono (keep : List Bool) (a b : Nat) (h : a ≤ b) : before keep a ≤ before keep b := by
  unfold before keptRows
  refine List.Sublist.length_le (List.Sublist.filter _ ?_)
  exact range_sublist.mpr h

theorem isKept_nil (row : Nat) : isKept [] row = true := rfl

theorem keptRows_nil (physical : Nat) : keptRows [] physical = range physical :=
  filter_eq_self.mpr (fun row _ => isKept_nil row)

theorem before_nil (row : Nat) : before [] row = row := by
  rw [before, keptRows_nil, length_range]

theorem count_take {keep : List Bool} (row : Nat) (hrow : row ≤ keep.length) (hne : keep ≠ []) :
    (keep.take row).count true = before keep row := by
  induction row with
  | zero => rfl
  | succ row ih =>
    have hlt : row < keep.length := hrow
    have hempty : keep.isEmpty = false := isEmpty_eq_false_iff.mpr hne
    rw [take_succ_eq_append_getElem hlt, count_append, ih (Nat.le_of_lt hlt)]
    unfold before keptRows
    rw [range_succ, filter_append, length_append]
    grind [isKept]

theorem length_logicalBefore (keep : List Bool) (n : Nat) :
    (logicalBefore keep n).length = keep.length + 1 := by
  induction keep generalizing n with
  | nil => rfl
  | cons k keep ih => rw [logicalBefore, length_cons, ih, length_cons]

theorem logicalBefore_get (keep : List Bool) (n row : Nat) (h : row ≤ keep.length) :
    (logicalBefore keep n)[row]? = some (n + (keep.take row).count true) := by
  induction keep generalizing n row with
  | nil =>
    have hzero : row = 0 := Nat.le_zero.mp h
    rw [hzero]
    rfl
  | cons k keep ih =>
    cases row with
    | zero => rfl
    | succ row =>
      rw [logicalBefore, getElem?_cons_succ, ih _ _ (Nat.le_of_succ_le_succ h),
        take_succ_cons, count_cons]
      congr 1
      cases k <;> simp <;> omega

/-- The flags of `physical` rows. -/
def Flags (keep : List Bool) (physical : Nat) : Prop := keep = [] ∨ keep.length = physical

variable {physical : Nat}

theorem logicalAt_eq {keep : List Bool} (hflags : Flags keep physical) (row : Nat)
    (hrow : row ≤ physical) : logicalAt keep row = before keep row := by
  unfold logicalAt
  by_cases hnil : keep = []
  · rw [hnil, before_nil]
    rfl
  · have hlen := hflags.resolve_left hnil
    rw [isEmpty_eq_false_iff.mpr hnil, getD_eq_getElem?_getD,
      logicalBefore_get keep 0 row (by omega), count_take row (by omega) hnil]
    simp

theorem logicalRows_eq {keep : List Bool} (hflags : Flags keep physical) :
    logicalRows keep physical = before keep physical := by
  unfold logicalRows
  by_cases hnil : keep = []
  · rw [hnil, before_nil]
    rfl
  · have hlen := hflags.resolve_left hnil
    have hcount := count_take physical (by omega) hnil
    grind

/-- What `takeWhile` stops at. -/
theorem takeWhile_stop (p : α → Bool) (l : List α) :
    (∀ i < (l.takeWhile p).length, ∀ x, l[i]? = some x → p x = true) ∧
      ∀ x, l[(l.takeWhile p).length]? = some x → p x = false := by
  induction l with
  | nil => exact ⟨fun i hi => absurd hi (Nat.not_lt_zero i), fun x hx => by simp at hx⟩
  | cons y l ih =>
    by_cases hy : p y = true
    · rw [takeWhile_cons_of_pos hy, length_cons]
      refine ⟨fun i hi x hx => ?_, fun x hx => ih.2 x (by simpa using hx)⟩
      cases i with
      | zero =>
        rw [getElem?_cons_zero, Option.some.injEq] at hx
        rw [← hx]
        exact hy
      | succ i => exact ih.1 i (Nat.lt_of_succ_lt_succ hi) x (by simpa using hx)
    · rw [takeWhile_cons_of_neg hy]
      refine ⟨fun i hi => absurd hi (Nat.not_lt_zero i), fun x hx => ?_⟩
      rw [length_nil, getElem?_cons_zero, Option.some.injEq] at hx
      rw [← hx]
      exact Bool.eq_false_iff.mpr hy

variable {wantFirst : Nat}

/-- The physical rows of a range of logical ones: they hold at least the range. -/
theorem physicalRange_spec {keep : List Bool} (hflags : Flags keep physical) {wantEnd : Nat}
    (hle : wantFirst ≤ wantEnd) (hend : wantEnd ≤ before keep physical) :
    let range := physicalRange keep wantFirst wantEnd
    range.1 ≤ range.2 ∧ range.2 ≤ physical ∧ before keep range.1 ≤ wantFirst ∧
      wantEnd ≤ before keep range.2 := by
  unfold physicalRange
  by_cases hnil : keep = []
  · grind [before_nil]
  · have hlen := hflags.resolve_left hnil
    rw [isEmpty_eq_false_iff.mpr hnil]
    simp only [Bool.false_eq_true, if_false]
    have hget : ∀ row ≤ physical, (logicalBefore keep 0)[row]? = some (before keep row) := by
      intro row hrow
      rw [logicalBefore_get keep 0 row (by omega), count_take row (by omega) hnil, Nat.zero_add]
    have htotal := length_logicalBefore keep 0
    -- The last row with no more than `wantFirst` rows before it.
    have hlow := takeWhile_stop (fun x => decide (x ≤ wantFirst)) (logicalBefore keep 0)
    have hlowlen := (takeWhile_sublist (fun x => decide (x ≤ wantFirst))
      (l := logicalBefore keep 0)).length_le
    generalize hl : ((logicalBefore keep 0).takeWhile (fun x => decide (x ≤ wantFirst))).length =
      low at hlow hlowlen ⊢
    have hzero : before keep 0 = 0 := rfl
    have hlowpos : 0 < low := by grind
    have hfirst : before keep (low - 1) ≤ wantFirst :=
      of_decide_eq_true (hlow.1 (low - 1) (by omega) _ (hget (low - 1) (by omega)))
    by_cases hwant : wantEnd = 0
    · grind
    · rw [if_neg hwant]
      -- The first row with at least `wantEnd` rows before it.
      have hhigh := takeWhile_stop (fun x => decide (x < wantEnd)) (logicalBefore keep 0)
      have hhighlen := (takeWhile_sublist (fun x => decide (x < wantEnd))
        (l := logicalBefore keep 0)).length_le
      generalize hh : ((logicalBefore keep 0).takeWhile (fun x => decide (x < wantEnd))).length =
        high at hhigh hhighlen ⊢
      have hhighle : high ≤ physical := by grind
      have hat := of_decide_eq_false (hhigh.2 _ (hget high hhighle))
      have hmono := before_mono keep high (max high (low - 1)) (Nat.le_max_left _ _)
      exact ⟨Nat.le_max_right _ _, by omega, hfirst, by omega⟩

theorem range_split {a b : Nat} (h : a ≤ b) :
    range b = range a ++ range' a (b - a) := by
  have happend := @range'_append_1 0 a (b - a)
  rw [Nat.zero_add] at happend
  rw [range_eq_range', range_eq_range', happend, Nat.add_sub_cancel' h]

/-- The rows kept of a range of physical rows. -/
theorem filter_range' (keep : List Bool) (h₁ : first ≤ last) (h₂ : last ≤ physical) :
    (range' first (last - first)).filter (isKept keep) =
      slice (keptRows keep physical) (before keep first) (before keep last) := by
  have hlast := range_split h₁
  have hphysical := range_split h₂
  have hsplit : keptRows keep last =
      keptRows keep first ++ (range' first (last - first)).filter (isKept keep) := by
    unfold keptRows
    rw [hlast, filter_append]
  have hall : keptRows keep physical =
      keptRows keep last ++ (range' last (physical - last)).filter (isKept keep) := by
    unfold keptRows
    rw [hphysical, filter_append]
  have hcount : before keep last = before keep first +
      ((range' first (last - first)).filter (isKept keep)).length := by
    unfold before
    rw [hsplit, length_append]
  rw [hall, hsplit, hcount, slice, append_assoc, before, drop_left,
    Nat.add_sub_cancel_left, take_left]

theorem zip_map_self (f : α → β) (l : List α) :
    l.zip (l.map f) = l.map (fun a => (a, f a)) := by
  induction l with
  | nil => rfl
  | cons a l ih => rw [map_cons, zip_cons_cons, ih, map_cons]

theorem flatten_batches (rows : α → List β) (l : List α) (batches : List (Option (List β)))
    (h : List.Forall₂ (fun a b => b.toList.flatten = rows a) l batches) :
    (batches.filterMap (fun b => b)).flatten = l.flatMap rows := by
  induction h with
  | nil => rfl
  | @cons a b l batches hab _ ih => grind

theorem compact_map (flag : α → Bool) (value : α → β) (l : List α) :
    compact (l.map flag) (l.map value) = (l.filter flag).map value := by
  unfold compact
  induction l with
  | nil => rfl
  | cons x l ih => grind

/-- The flags of a range of rows. -/
theorem flags_range' {keep : List Bool} (first count : Nat) (hne : keep ≠ [])
    (h : first + count ≤ keep.length) :
    (keep.drop first).take count = (range' first count).map (isKept keep) := by
  have hempty : keep.isEmpty = false := isEmpty_eq_false_iff.mpr hne
  refine ext_getElem? (fun i => ?_)
  rw [getElem?_take, getElem?_drop, getElem?_map]
  by_cases hi : i < count
  · rw [if_pos hi, getElem?_range' hi, Option.map_some,
      getElem?_eq_getElem (by omega : first + i < keep.length)]
    rw [isKept, hempty, Bool.false_or, Nat.one_mul, getD_eq_getElem?_getD,
      getElem?_eq_getElem (by omega : first + i < keep.length), Option.getD_some]
  · simp [hi]

theorem trackRows_eq (keep : List Bool) (lo : Nat) (rows : List Nat) (logicalRow count : Nat) :
    trackRows keep lo rows logicalRow count =
      ((rows.filter (isKept keep)).drop (lo - logicalRow)).take count := by
  induction rows generalizing logicalRow count with
  | nil => rw [trackRows, filter_nil, drop_nil, take_nil]
  | cons row rows ih =>
    rw [trackRows]
    by_cases hcount : count = 0
    · rw [if_pos hcount, hcount, take_zero]
    · rw [if_neg hcount]
      have hflag : (!keep.isEmpty && !keep.getD row false) = !isKept keep row := by
        rw [isKept, Bool.not_or]
      rw [hflag]
      cases hkept : isKept keep row with
      | false =>
        rw [Bool.not_false, if_pos rfl, ih, filter_cons_of_neg (by rw [hkept]; decide)]
      | true =>
        rw [Bool.not_true, if_neg (by decide), filter_cons_of_pos hkept]
        by_cases hlo : lo ≤ logicalRow
        · rw [if_pos hlo, ih, show lo - logicalRow = 0 by omega,
            show lo - (logicalRow + 1) = 0 by omega, drop_zero, drop_zero]
          conv => rhs; rw [show count = (count - 1) + 1 by omega]
          rfl
        · rw [if_neg hlo, ih, show lo - logicalRow = (lo - (logicalRow + 1)) + 1 by omega,
            drop_succ_cons]

/-! ## Reading -/

section Rows

variable {R : Type} {store : Store R} {row : Nat → Nat → R}

/-- Decoders that give the rows they are asked for, out of `physical` ones. -/
structure Decodes (store : Store R) (row : Nat → Nat → R) (id physical : Nat) : Prop where
  lengths : store.lengths id ≠ [] ∧ ∀ n ∈ store.lengths id, n = physical
  whole : store.whole id = .ok ((range physical).map (row id))
  range : ∀ first count, first + count ≤ physical →
    store.range id first count = .ok ((range' first count).map (row id))
  rows : ∀ picked : List Nat, picked.Pairwise (· < ·) → (∀ p ∈ picked, p < physical) →
    store.rows id picked = .ok (picked.map (row id))

/-- A filter gives `pass` for some rows. No filter passes all. -/
def Selects (filter : Option (Filter R)) (pass : R → Bool) (rows : List R) : Prop :=
  match filter with
  | none => ∀ r, pass r = true
  | some f => ∀ r ∈ rows, f.passes r = .ok (pass r)

variable {filter : Option (Filter R)} {pass : R → Bool}

theorem Selects.sublist {rows some : List R} (h : Selects filter pass rows) (hsub : some ⊆ rows) :
    Selects filter pass some := by
  cases filter with
  | none => exact h
  | some f => exact fun r hr => h r (hsub hr)

/-- The rows at `offsets` that pass, each with its offset. -/
def passing (row : Nat → Nat → R) (pass : R → Bool) (id : Nat) (offsets : List Nat) : Batch R :=
  (offsets.filter (fun p => pass (row id p))).map (fun p => (p, row id p))

/-- The rows of a morsel. -/
def morselRows (row : Nat → Nat → R) (id : Nat) (morsel : Nat × Nat) : List R :=
  (range' morsel.1 (morsel.2 - morsel.1)).map (row id)

/-- A read that gives these rows, in some batches. -/
def Gives (read : Except String (List (Batch R))) (rows : Batch R) : Prop :=
  ∃ batches, read = .ok batches ∧ batches.flatten = rows

variable {id : Nat}

theorem filterDecodedRows_rows {offsets : List Nat} (h : Selects filter pass (offsets.map (row id))) :
    filterDecodedRows filter (offsets.map (row id)) offsets =
      .ok (passing row pass id offsets) := by
  cases filter with
  | none =>
    have hall : offsets.filter (fun p => pass (row id p)) = offsets :=
      filter_eq_self.mpr (fun p _ => h (row id p))
    rw [filterDecodedRows, zip_map_self, passing, hall]
  | some f =>
    have hpass : (offsets.map (row id)).mapM f.passes = .ok ((offsets.map (row id)).map pass) :=
      mapM_ok f.passes (fun r hr => h r hr)
    have hkept := compact_map (fun p => pass (row id p)) (fun p => p) offsets
    rw [map_id', map_id'] at hkept
    rw [filterDecodedRows]
    simp only [hpass, bind, Except.bind, pure, Except.pure, map_map]
    congr 1
    have hrows := compact_map (fun p => pass (row id p)) (row id) offsets
    rw [passing, ← zip_map_self, ← hrows, ← hkept]
    rfl

/-- One morsel's part of the rows wanted. -/
theorem buildBatch_rows {keep : List Bool} (hflags : Flags keep physical) {wantEnd : Nat}
    (single : Bool) (morsel : Nat × Nat) (hmorsel : morsel.1 ≤ morsel.2 ∧ morsel.2 ≤ physical)
    (h : Selects filter pass ((slice (keptRows keep physical) wantFirst wantEnd).map (row id))) :
    ∃ batch, buildBatch filter keep wantFirst wantEnd single morsel (morselRows row id morsel) =
        .ok batch ∧
      batch.toList.flatten = passing row pass id (slice (keptRows keep physical)
        (max (before keep morsel.1) wantFirst) (min (before keep morsel.2) wantEnd)) := by
  have hmono := before_mono keep _ _ hmorsel.1
  have hslice := filter_range' keep hmorsel.1 hmorsel.2
  -- The rows of the morsel that are kept, whether there are flags or not.
  have hkept : (if keep.isEmpty then morselRows row id morsel
      else compact ((keep.drop morsel.1).take (morsel.2 - morsel.1)) (morselRows row id morsel)) =
      ((range' morsel.1 (morsel.2 - morsel.1)).filter (isKept keep)).map (row id) := by
    unfold morselRows
    by_cases hnil : keep = []
    · rw [hnil, isEmpty_nil, if_pos rfl, filter_eq_self.mpr (fun p _ => isKept_nil p)]
    · have hlen := hflags.resolve_left hnil
      rw [isEmpty_eq_false_iff.mpr hnil, if_neg (by decide),
        flags_range' _ _ hnil (by omega), compact_map]
  have hlogical : before keep morsel.1 + (before keep morsel.2 - before keep morsel.1) =
      before keep morsel.2 := by omega
  unfold buildBatch
  rw [hkept, logicalAt_eq hflags _ (by omega), logicalAt_eq hflags _ hmorsel.2]
  simp only [hlogical, trackRows_eq]
  generalize hlo : max (before keep morsel.1) wantFirst = lo
  generalize hhi : min (before keep morsel.2) wantEnd = hi
  by_cases hempty : hi ≤ lo ∧ single = false
  · rw [if_pos (by rw [hempty.2, Bool.not_false, Bool.and_true]; exact decide_eq_true hempty.1)]
    exact ⟨none, rfl, by rw [slice_of_le _ hempty.1]; rfl⟩
  · rw [if_neg (by
      rw [Bool.and_eq_true, decide_eq_true_eq, Bool.not_eq_true']
      exact hempty)]
    have hpart : (((range' morsel.1 (morsel.2 - morsel.1)).filter (isKept keep)).drop
        (lo - before keep morsel.1)).take (hi - lo) =
        slice (keptRows keep physical) lo hi := by
      by_cases hle : hi ≤ lo
      · rw [slice_of_le _ hle, Nat.sub_eq_zero_of_le hle, take_zero]
      · rw [hslice]
        have hinner := slice_slice (keptRows keep physical) (before keep morsel.1)
          (before keep morsel.2) (lo - before keep morsel.1) (hi - before keep morsel.1) (by omega)
        rw [show before keep morsel.1 + (lo - before keep morsel.1) = lo by omega,
          show before keep morsel.1 + (hi - before keep morsel.1) = hi by omega] at hinner
        grind [slice]
    have hsub : Selects filter pass ((slice (keptRows keep physical) lo hi).map (row id)) := by
      refine h.sublist (map_subset _ ?_)
      by_cases hle : hi ≤ lo
      · rw [slice_of_le _ hle]
        exact nil_subset _
      · have hwindow := slice_append_slice (keptRows keep physical)
          (show wantFirst ≤ lo by omega) (show lo ≤ wantEnd by omega)
        have hrest := slice_append_slice (keptRows keep physical)
          (show lo ≤ hi by omega) (show hi ≤ wantEnd by omega)
        grind
    rw [← map_drop, ← map_take, hpart, filterDecodedRows_rows hsub]
    simp only [bind, Except.bind, pure, Except.pure]
    grind

/-- A planned file and what it is read from: its row counts are those of its files, and a part of it
    is only asked for without a mask. -/
structure Reads (store : Store R) (row : Nat → Nat → R) (planned : PlannedFile)
    (deleted : List Nat) : Prop where
  decodes : Decodes store row planned.fragmentId planned.physicalRows
  deletions : deletedOf store planned = .ok deleted
  within : ∀ p ∈ deleted, p < planned.physicalRows
  counted : planned.rows =
    ((range planned.physicalRows).filter (fun p => decide (p ∉ deleted))).length
  mask : ∀ m, planned.maskKeep = some m → m.length = planned.physicalRows
  wanted : planned.part = true →
    planned.maskKeep = none ∧ planned.skip + planned.take ≤ planned.rows

/-- The rows of a planned file, without the deleted and masked ones. -/
def liveRows (planned : PlannedFile) (deleted : List Nat) : List Nat :=
  (range planned.physicalRows).filter (fun p =>
    decide (p ∉ deleted) && planned.maskKeep.all (fun m => m.getD p false))

theorem liveRows_ascending (planned : PlannedFile) (deleted : List Nat) :
    (liveRows planned deleted).Pairwise (· < ·) :=
  List.Pairwise.filter _ pairwise_lt_range

/-- Those of them that are asked for. -/
def wantedRows (planned : PlannedFile) (deleted : List Nat) : List Nat :=
  if planned.part then
    slice (liveRows planned deleted) planned.skip (planned.skip + planned.take)
  else liveRows planned deleted

section OneFile

variable {planned : PlannedFile} {deleted : List Nat} (h : Reads store row planned deleted)

include h

theorem Reads.fileLength : fileLength (store.lengths planned.fragmentId) =
    .ok planned.physicalRows := by
  rcases h.decodes.lengths with ⟨hne, hall⟩
  cases hlengths : store.lengths planned.fragmentId with
  | nil => exact absurd hlengths hne
  | cons n rest =>
    rw [hlengths] at hall
    have hn := hall n (.head _)
    grind [Scan.fileLength]

/-- The flags of the deletions. -/
theorem Reads.deletionKeep : ∃ keep, deletionKeep store planned planned.physicalRows = .ok keep ∧
    Flags keep planned.physicalRows ∧
    ∀ p < planned.physicalRows, isKept keep p = decide (p ∉ deleted) := by
  have hdeleted := h.deletions
  unfold deletedOf at hdeleted
  unfold Scan.deletionKeep
  cases hfile : planned.deletionFile with
  | none =>
    rw [hfile, Except.ok.injEq] at hdeleted
    refine ⟨[], rfl, .inl rfl, fun p _ => ?_⟩
    rw [← hdeleted, isKept_nil, decide_eq_true not_mem_nil]
  | some file =>
    rw [hfile] at hdeleted
    have hfind : deleted.find? (fun p => decide (planned.physicalRows ≤ p)) = none := by
      rw [find?_eq_none]
      intro p hp
      rw [decide_eq_true_eq]
      have hlt := h.within p hp
      omega
    refine ⟨(range planned.physicalRows).map (fun p => decide (p ∉ deleted)), ?_, ?_, ?_⟩
    · simp [hdeleted, hfind, ensure]
    · exact .inr (by rw [length_map, length_range])
    · grind [isKept]

/-- The flags of deletions and mask together. -/
theorem Reads.keep : ∃ deletions keep,
    Scan.deletionKeep store planned planned.physicalRows = .ok deletions ∧
    logicalRows deletions planned.physicalRows = planned.rows ∧
    maskedKeep planned planned.physicalRows deletions = .ok keep ∧
    Flags keep planned.physicalRows ∧ keptRows keep planned.physicalRows =
      liveRows planned deleted := by
  rcases h.deletionKeep with ⟨deletions, hdeletions, hflags, hkept⟩
  have hrows : logicalRows deletions planned.physicalRows = planned.rows := by
    rw [logicalRows_eq hflags, h.counted, before, keptRows]
    exact congrArg length (filter_congr (fun p hp => hkept p (mem_range.mp hp)))
  refine ⟨deletions, ?_⟩
  cases hmask : planned.maskKeep with
  | none =>
    refine ⟨deletions, hdeletions, hrows, by rw [maskedKeep, hmask], hflags, ?_⟩
    unfold keptRows liveRows
    refine filter_congr (fun p hp => ?_)
    rw [hkept p (mem_range.mp hp), hmask, Option.all_none, Bool.and_true]
  | some mask =>
    have hlen := h.mask mask hmask
    have hstart : maskedKeep planned planned.physicalRows deletions =
        .ok (if deletions.isEmpty then mask else zipWith (· && ·) deletions mask) := by
      simp [maskedKeep, hmask, hlen, ensure]
    refine ⟨_, hdeletions, hrows, hstart, ?_, ?_⟩
    · refine .inr ?_
      split
      · exact hlen
      · rename_i hne
        have hdel := hflags.resolve_left (fun hnil => hne (by rw [hnil]; rfl))
        rw [length_zipWith, hdel, hlen, Nat.min_self]
    · unfold keptRows liveRows
      refine filter_congr (fun p hp => ?_)
      have hp' := mem_range.mp hp
      rw [← hkept p hp', hmask, Option.all_some]
      by_cases hnil : deletions = []
      · grind [isKept_nil, isKept]
      · have hdel := hflags.resolve_left hnil
        have hempty : (zipWith (· && ·) deletions mask).isEmpty = false := by
          rw [isEmpty_eq_false_iff, ← length_pos_iff, length_zipWith]
          omega
        have hfalse := isEmpty_eq_false_iff.mpr hnil
        rw [hfalse, if_neg (by decide), isKept, hempty, isKept, hfalse, Bool.false_or,
          Bool.false_or, getD_eq_getElem?_getD, getD_eq_getElem?_getD,
          getD_eq_getElem?_getD, getElem?_zipWith,
          getElem?_eq_getElem (by omega : p < deletions.length),
          getElem?_eq_getElem (by omega : p < mask.length)]
        rfl

/-- **A planned file read through gives the rows wanted of it that the filter passes, in order.** -/
theorem readMorsels_rows (machine : Machine) (filterOnly : Bool)
    (hselects : Selects filter pass ((wantedRows planned deleted).map (row planned.fragmentId))) :
    Gives (readMorsels store machine planned filter filterOnly)
      (passing row pass planned.fragmentId (wantedRows planned deleted)) := by
  rcases h.keep with ⟨deletions, keep, hdeletions, hrows, hkeep, hflags, hlive⟩
  -- The logical rows wanted, as the reader counts them.
  have htotal : before keep planned.physicalRows = (liveRows planned deleted).length := by
    rw [before, hlive]
  have hwant : ∃ wantFirst wantEnd, (if planned.part then planned.skip else 0) = wantFirst ∧
      (if planned.part then planned.skip + planned.take
        else logicalRows keep planned.physicalRows) = wantEnd ∧
      wantFirst ≤ wantEnd ∧ wantEnd ≤ before keep planned.physicalRows ∧
      wantedRows planned deleted = slice (liveRows planned deleted) wantFirst wantEnd := by
    refine ⟨_, _, rfl, rfl, ?_⟩
    unfold wantedRows
    by_cases hpart : planned.part = true
    · rcases h.wanted hpart with ⟨hmask, hle⟩
      rw [hpart]
      simp only [if_true]
      refine ⟨Nat.le_add_right _ _, ?_, trivial⟩
      rw [htotal, liveRows, hmask]
      simp only [Option.all_none, Bool.and_true]
      rw [← h.counted]
      exact hle
    · rw [Bool.eq_false_iff.mpr hpart]
      simp only [Bool.false_eq_true, if_false]
      rw [logicalRows_eq hflags, htotal]
      exact ⟨Nat.zero_le _, Nat.le_refl _, (slice_zero _ (Nat.le_refl _)).symm⟩
  rcases hwant with ⟨wantFirst, wantEnd, hfirst, hend, hle, hbound, hwanted⟩
  have hspec := physicalRange_spec hflags hle hbound
  simp only [] at hspec
  rcases hspec with ⟨hordered, hwithin, hlow, hhigh⟩
  generalize hrange : physicalRange keep wantFirst wantEnd = range at hordered hwithin hlow hhigh
  have htiles := planMorsels_tiles machine (store.columns filterOnly planned.fragmentId) hordered
  generalize hmorsels : planMorsels machine (store.columns filterOnly planned.fragmentId) range.1
    range.2 = morsels at htiles
  have hinside := htiles.within
  -- Every morsel is decoded to its rows.
  have hdecoded : ∀ whole : Bool, (whole = true → morsels.length = 1 ∧ range.1 = 0 ∧
      range.2 = planned.physicalRows) →
      morsels.mapM (fun m => if whole then store.whole planned.fragmentId
        else store.range planned.fragmentId m.1 (m.2 - m.1)) =
      .ok (morsels.map (morselRows row planned.fragmentId)) := by
    intro whole hwhole
    refine mapM_ok _ (fun m hm => ?_)
    have hbounds := hinside m hm
    cases whole with
    | false => exact h.decodes.range m.1 (m.2 - m.1) (by omega)
    | true =>
      rcases hwhole rfl with ⟨hsingle, hzero, hall⟩
      rw [tiles_single htiles hsingle, mem_singleton] at hm
      rw [hm, hzero, hall, if_pos rfl, morselRows, Nat.sub_zero, ← range_eq_range']
      exact h.decodes.whole
  have hzip := zip_map_self (morselRows row planned.fragmentId) morsels
  rw [hwanted, ← hlive] at hselects
  have hbuilt : ∀ single : Bool, ∃ batches,
      (morsels.map (fun m => (m, morselRows row planned.fragmentId m))).mapM
        (fun m => buildBatch filter keep wantFirst wantEnd single m.1 m.2) = .ok batches ∧
      List.Forall₂ (fun m batch => batch.toList.flatten = passing row pass planned.fragmentId
          (slice (liveRows planned deleted) (max (before keep m.1.1) wantFirst)
            (min (before keep m.1.2) wantEnd)))
        (morsels.map (fun m => (m, morselRows row planned.fragmentId m))) batches := by
    intro single
    refine mapM_exists _ _ _ (fun m hm => ?_)
    rcases mem_map.mp hm with ⟨morsel, hmem, rfl⟩
    have hbounds := hinside morsel hmem
    rw [← hlive]
    exact buildBatch_rows hflags single morsel ⟨hbounds.2.1, by omega⟩ hselects
  rcases hbuilt (decide (morsels.length = 1)) with ⟨batches, hbatches, hrowsof⟩
  refine ⟨batches.filterMap (fun b => b), ?_, ?_⟩
  · unfold readMorsels
    rw [h.fileLength]
    simp only [bind, Except.bind, hdeletions, hrows, ne_eq, not_true_eq_false, decide_false,
      Bool.and_false, Bool.not_false, ensure, if_true, hkeep, hfirst, hend, hrange, hmorsels]
    rw [hdecoded _ (fun hw => by
      rw [Bool.and_eq_true, Bool.and_eq_true, decide_eq_true_eq, decide_eq_true_eq,
        decide_eq_true_eq] at hw
      exact ⟨hw.1.1, hw.1.2, hw.2⟩)]
    simp [hzip, hbatches]
  · -- The parts of the range the morsels have, put together, are the range.
    have hparts := flatMap_tiles (liveRows planned deleted)
      (before_mono keep) wantFirst wantEnd htiles
    rw [Nat.max_eq_right hlow, Nat.min_eq_right hhigh] at hparts
    rw [flatten_batches _ _ _ hrowsof, flatMap_map, hwanted, ← hparts, passing, filter_flatMap,
      map_flatMap]
    rfl

/-- **A planned file read by candidates that leave out no row that passes gives the rows that
    pass.** -/
theorem readCandidateRows_rows {filter : Filter R} {candidates : List Nat}
    (hasc : candidates.Pairwise (· < ·))
    (hcomplete : ∀ p ∈ liveRows planned deleted, pass (row planned.fragmentId p) = true →
      p ∈ candidates)
    (hlive : ∀ p ∈ candidates, p < planned.physicalRows → p ∉ deleted →
      p ∈ liveRows planned deleted)
    (hselects : Selects (some filter) pass ((liveRows planned deleted).map (row
      planned.fragmentId))) :
    Gives (readCandidateRows store planned candidates filter)
      (passing row pass planned.fragmentId (liveRows planned deleted)) := by
  have hmem : ∀ p, p ∈ candidates.filter (fun p => decide (p < planned.physicalRows) &&
      decide (p ∉ deleted)) ↔ p ∈ candidates ∧ p ∈ liveRows planned deleted := by
    intro p
    grind [liveRows]
  have hrows : passing row pass planned.fragmentId (candidates.filter (fun p =>
      decide (p < planned.physicalRows) && decide (p ∉ deleted))) =
      passing row pass planned.fragmentId (liveRows planned deleted) := by
    refine congrArg (map _) (eq_of_ascending ((hasc.filter _).filter _)
      ((liveRows_ascending planned deleted).filter _) (fun p => ?_))
    grind
  have hlengths : (store.lengths planned.fragmentId).find?
      (fun n => decide (n ≠ planned.physicalRows)) = none := by
    rw [find?_eq_none]
    intro n hn
    rw [decide_eq_true_eq]
    exact fun hc => hc (h.decodes.lengths.2 n hn)
  unfold readCandidateRows
  rw [h.deletions, ← hrows]
  simp only [bind, Except.bind]
  generalize hpicked : candidates.filter (fun p => decide (p < planned.physicalRows) &&
    decide (p ∉ deleted)) = picked at hmem
  by_cases hnil : picked = []
  · rw [hnil]
    exact ⟨[], rfl, rfl⟩
  · rw [if_neg (by rw [List.isEmpty_iff]; exact hnil)]
    have hdecoded : decodeDataFileRows store planned picked =
        .ok (picked.map (row planned.fragmentId)) := by
      unfold decodeDataFileRows
      rw [hlengths]
      refine h.decodes.rows picked ?_ (fun p hp => ?_)
      · rw [← hpicked]
        exact hasc.filter _
      · grind
    have hsub : Selects (some filter) pass (picked.map (row planned.fragmentId)) :=
      hselects.sublist (map_subset _ (fun p hp => ((hmem p).mp hp).2))
    rw [hdecoded]
    simp only [filterDecodedRows_rows hsub, pure, Except.pure]
    refine ⟨_, rfl, ?_⟩
    split
    · rename_i hempty
      rw [isEmpty_iff.mp hempty]
      rfl
    · exact append_nil _

/-- A filter's own columns first gives the same rows. -/
theorem readLate_rows (machine : Machine) {filter : Filter R} (hpart : planned.part = false)
    (hselects : Selects (some filter) pass ((liveRows planned deleted).map (row
      planned.fragmentId))) :
    Gives (readLate store machine planned filter)
      (passing row pass planned.fragmentId (liveRows planned deleted)) := by
  have hwanted : wantedRows planned deleted = liveRows planned deleted := by
    rw [wantedRows, hpart, if_neg (by decide)]
  have hthrough := fun only => readMorsels_rows h machine only (by rw [hwanted]; exact hselects)
  rw [hwanted] at hthrough
  rcases hthrough true with ⟨passed, hpassed, hflat⟩
  have hoffsets : passed.flatten.map (·.1) = (liveRows planned deleted).filter
      (fun p => pass (row planned.fragmentId p)) := by
    rw [hflat, passing, map_map]
    exact map_id' _
  unfold readLate
  rw [hpassed]
  simp only [bind, Except.bind, hoffsets]
  split
  · rename_i hempty
    rw [passing, isEmpty_iff.mp hempty]
    exact ⟨[], rfl, rfl⟩
  · split
    · refine readCandidateRows_rows h
        ((liveRows_ascending planned deleted).filter _) (fun p hp hpass => ?_) (fun p hp _ _ => ?_)
        hselects
      · exact mem_filter.mpr ⟨hp, hpass⟩
      · exact (mem_filter.mp hp).1
    · exact hthrough false

/-- **One fragment's rows, whichever way they are read.** -/
theorem readDataFileBatches_rows (machine : Machine) (filter : Option (Filter R)) (pass : R → Bool)
    (hcandidates : ∀ candidates, planned.candidates = some candidates →
      planned.maskKeep = none ∧ candidates.Pairwise (· < ·) ∧
      ∀ p ∈ liveRows planned deleted, pass (row planned.fragmentId p) = true → p ∈ candidates)
    (hselects : Selects filter pass ((wantedRows planned deleted).map (row planned.fragmentId))) :
    Gives (readDataFileBatches store machine planned filter)
      (passing row pass planned.fragmentId (wantedRows planned deleted)) := by
  have hthrough := readMorsels_rows h machine false hselects
  unfold readDataFileBatches
  cases filter with
  | none => exact hthrough
  | some f =>
    by_cases hpart : planned.part = true
    · simp only [hpart, if_true]
      exact hthrough
    · have hwhole := Bool.eq_false_iff.mpr hpart
      have hwanted : wantedRows planned deleted = liveRows planned deleted := by
        rw [wantedRows, hwhole, if_neg (by decide)]
      simp only [hwhole, Bool.false_eq_true, if_false]
      rw [hwanted] at hselects hthrough ⊢
      cases hcand : planned.candidates with
      | none =>
        simp only []
        split
        · exact readLate_rows h machine hwhole hselects
        · exact hthrough
      | some candidates =>
        rcases hcandidates candidates hcand with ⟨hmask, hasc, hcomplete⟩
        refine readCandidateRows_rows h hasc hcomplete (fun p _ hlt hnot => ?_) hselects
        grind [liveRows]

end OneFile

end Rows

end Scan

end NanoLance
