import NanoLance.Lib.Lists
import NanoLance.Lib.Outcome
import NanoLance.Manifest

/-!
# Row Id Sequences

How the row ids of a fragment are stored. A sequence is one segment: the numbers of a
span, all of them, all but some, or those a bitmap marks, where that is shorter than the
list of the ids, and else the list itself.

The segment is chosen as for ids that are distinct. Ids that never decrease, one of them
twice, are read back as others, or fewer; distinct ids are read back as they were. The
bytes of a segment are left out, as the numbers in it are all they hold.

## Main definitions

* `encodeSegment`, `decodeSegment`: A segment of ids.
* `stored`: A sequence as it is read back.

## Theorems

* `stored_eq`: Distinct ids are read back.
-/

namespace NanoLance

namespace RowIds

open List Lib

inductive Segment where
  | range (start stop : Nat)
  | rangeWithHoles (start stop : Nat) (holes : List Nat)
  | rangeWithBitmap (start stop : Nat) (bitmap : List Bool)
  | sortedArray (values : List Nat)
  | array (values : List Nat)
  deriving DecidableEq, Repr

/-- For each of `n` numbers from `v` on, whether it is the next of the values. -/
def marks : List Nat → Nat → Nat → List Bool
  | _, _, 0 => []
  | [], v, n + 1 => false :: marks [] (v + 1) n
  | x :: values, v, n + 1 =>
    if x = v then true :: marks values (v + 1) n else false :: marks (x :: values) (v + 1) n

/-- The numbers from `v` on that have the mark. -/
def marked (mark : Bool) : Nat → List Bool → List Nat
  | _, [] => []
  | v, b :: bits => if b = mark then v :: marked mark (v + 1) bits else marked mark (v + 1) bits

/-- The segment of ids that never decrease, the first of them `lo` and the last `hi`: the shortest
    of three. The number of holes wraps when there are more ids than numbers in the span. -/
def sortedSegment (values : List Nat) (lo hi : Nat) : Segment :=
  let total := hi - lo + 1
  let holes := (total + 2 ^ 64 - values.length) % 2 ^ 64
  let holesSize := 24 + 4 * holes
  let bitmapSize := 24 + (total + 7) / 8
  let arraySize := 24 + 2 * values.length
  if holes = 0 then .range lo (hi + 1)
  else if holesSize ≤ bitmapSize ∧ holesSize ≤ arraySize then
    .rangeWithHoles lo (hi + 1) (marked false lo (marks values lo total))
  else if bitmapSize ≤ arraySize then .rangeWithBitmap lo (hi + 1) (marks values lo total)
  else .sortedArray values

def encodeSegment (values : List Nat) : Segment :=
  let lo := values.foldl min (2 ^ 64 - 1)
  let hi := values.foldl max 0
  if values = [] then .range 0 0
  else if ¬values.Pairwise (· ≤ ·) then .array values
  else if hi = 2 ^ 64 - 1 then .sortedArray values
  else sortedSegment values lo hi

/-- The length of a span. -/
def spanOf (start stop : Nat) : Except String Nat := do
  ensure (!(stop < start)) "row id segment range start exceeds end"
  ensure (!(2 ^ 40 < stop - start)) "row id segment range is too long"
  return stop - start

def decodeSegment : Segment → Except String (List Nat)
  | .range start stop => do
    let span ← spanOf start stop
    return range' start span
  | .rangeWithHoles start stop holes => do
    let span ← spanOf start stop
    return marked false start (marks holes start span)
  | .rangeWithBitmap start stop bitmap => do
    let span ← spanOf start stop
    ensure (!(bitmap.length < span)) "RangeWithBitmap bitmap is too short"
    return marked true start (bitmap.take span)
  | .sortedArray values => .ok values
  | .array values => .ok values

/-- Every id is the one before it and one. -/
def consecutive : List Nat → Bool
  | a :: b :: rest => b = (a + 1) % 2 ^ 64 && consecutive (b :: rest)
  | _ => true

/-- The segment a sequence is written as; one without gaps is kept as its first id and length. -/
def encodeSequence (values : List Nat) : Segment :=
  if consecutive values then
    .range (values.headD 0) ((values.headD 0 + values.length) % 2 ^ 64)
  else encodeSegment values

/-- A sequence as it is read back. -/
def stored (values : List Nat) : RowSequence :=
  match decodeSegment (encodeSequence values) with
  | .ok ids => .values ids
  | .error e => .malformed e

/-! ## Reading back -/

section

variable {values : List Nat}

/-- The marks of ascending values tell them from the other numbers. -/
theorem marked_marks (mark : Bool) (n v : Nat) (hasc : values.Pairwise (· < ·))
    (hlow : ∀ x ∈ values, v ≤ x) :
    marked mark v (marks values v n) = (range' v n).filter (fun x => decide (x ∈ values) = mark) := by
  induction n generalizing v values with
  | zero => cases values <;> rfl
  | succ n ih =>
    rw [range'_succ, filter_cons]
    cases values with
    | nil => simp [marks, marked, ih (v + 1) hasc (forall_mem_nil _)]
    | cons x values =>
      rcases pairwise_cons.mp hasc with ⟨hx, hrest⟩
      by_cases hxv : x = v
      · subst hxv
        have hsame : (range' (x + 1) n).filter (fun y => decide (y ∈ x :: values) = mark) =
            (range' (x + 1) n).filter (fun y => decide (y ∈ values) = mark) := by
          refine filter_congr (fun y hy => ?_)
          have hne : y ≠ x := by
            have := (mem_range'_1.mp hy).1
            omega
          simp [hne]
        rw [marks, if_pos rfl, marked, ih (x + 1) hrest hx, hsame]
        simp
      · have hlt : ∀ y ∈ x :: values, v + 1 ≤ y := by
          have := hlow x mem_cons_self
          exact forall_mem_cons.mpr ⟨by omega, fun y hy => by have := hx y hy; omega⟩
        have hnot : v ∉ x :: values := fun hv => absurd (hlt v hv) (by omega)
        rw [marks, if_neg hxv, marked, ih (v + 1) hasc hlt]
        simp [hnot]

variable {lo n : Nat} (hasc : values.Pairwise (· < ·)) (hspan : ∀ x ∈ values, lo ≤ x ∧ x < lo + n)

include hasc hspan

/-- Ascending values are what they mark of their span. -/
theorem filter_span : (range' lo n).filter (fun x => x ∈ values) = values := by
  refine eq_of_ascending ((pairwise_lt_range' ..).filter _) hasc (fun x => ?_)
  rw [mem_filter, mem_range'_1, decide_eq_true_eq]
  exact ⟨fun h => h.2, fun h => ⟨hspan x h, h⟩⟩

theorem marked_true : marked true lo (marks values lo n) = values := by
  rw [marked_marks true n lo hasc (fun x hx => (hspan x hx).1)]
  simpa using filter_span hasc hspan

/-- Ascending values are what their holes leave of their span. -/
theorem marked_holes :
    marked false lo (marks (marked false lo (marks values lo n)) lo n) = values := by
  have hholes := marked_marks false n lo hasc (fun x hx => (hspan x hx).1)
  have hup : (marked false lo (marks values lo n)).Pairwise (· < ·) := by
    rw [hholes]
    exact (pairwise_lt_range' ..).filter _
  rw [marked_marks false n lo hup (fun x hx => by
    rw [hholes] at hx
    exact (mem_range'_1.mp (mem_of_mem_filter hx)).1), hholes]
  refine Eq.trans (filter_congr (fun x hx => ?_)) (filter_span hasc hspan)
  rw [mem_range'_1] at hx
  simp [mem_filter, mem_range'_1, hx]

end

theorem length_marks (values : List Nat) (v n : Nat) : (marks values v n).length = n := by
  induction n generalizing v values with
  | zero => cases values <;> rfl
  | succ n ih =>
    cases values with
    | nil => simp [marks, ih]
    | cons x values => grind [marks]

theorem foldl_min_le (values : List Nat) (a : Nat) :
    values.foldl min a ≤ a ∧ ∀ x ∈ values, values.foldl min a ≤ x := by
  induction values generalizing a with
  | nil => simp
  | cons y values ih =>
    rcases ih (min a y) with ⟨hle, hall⟩
    rw [foldl_cons, forall_mem_cons]
    exact ⟨by omega, by omega, hall⟩

theorem spanOf_eq {start n : Nat} (h : n ≤ 2 ^ 40) : spanOf start (start + n) = .ok n := by
  simp only [spanOf, bind_eq_ok, ensure_eq_ok, pure_eq_ok]
  refine ⟨(), ?_, (), ?_, Nat.add_sub_cancel_left ..⟩
  · simp
  · simp only [Nat.add_sub_cancel_left, Bool.not_eq_true', decide_eq_false_iff_not]
    omega

variable {values : List Nat}

/-- Consecutive ids that do not reach the last one are a range. -/
theorem consecutive_eq (h : consecutive values = true) (hlt : ∀ id ∈ values, id < 2 ^ 64 - 1) :
    values = range' (values.headD 0) values.length := by
  induction values with
  | nil => rfl
  | cons a rest ih =>
    cases rest with
    | nil => rfl
    | cons b rest =>
      rw [consecutive, Bool.and_eq_true, decide_eq_true_eq] at h
      have ha := hlt a mem_cons_self
      rw [Nat.mod_eq_of_lt (by omega)] at h
      have hrest := ih h.2 (fun id hid => hlt id (.tail _ hid))
      rw [length_cons, range'_succ, headD_cons, ← h.1]
      exact congrArg (a :: ·) hrest

/-- Ids that are distinct and in order, in a span that ends below the last number. -/
theorem decode_sortedSegment {lo hi : Nat} (hle : lo ≤ hi) (hhi : hi < 2 ^ 64 - 1)
    (hasc : values.Pairwise (· < ·)) (hspan : ∀ x ∈ values, lo ≤ x ∧ x < lo + (hi - lo + 1))
    (hlen : values.length ≤ 2 ^ 32) : decodeSegment (sortedSegment values lo hi) = .ok values := by
  have hend : hi + 1 = lo + (hi - lo + 1) := by omega
  unfold sortedSegment
  rw [hend]
  generalize htotal : hi - lo + 1 = total at hspan
  have hfilter := filter_span hasc hspan
  have hcount : values.length ≤ total := by
    rw [← hfilter]
    exact Nat.le_trans (length_filter_le _ _) (Nat.le_of_eq length_range')
  have hwrap : (total + 2 ^ 64 - values.length) % 2 ^ 64 = total - values.length := by omega
  simp only [hwrap]
  by_cases hfull : total - values.length = 0
  · have hsame : range' lo total = values :=
      hfilter ▸ (filter_sublist.eq_of_length (by rw [hfilter, length_range']; omega)).symm
    simp only [if_pos hfull, decodeSegment, bind_eq_ok, pure_eq_ok]
    exact ⟨total, spanOf_eq (by omega), hsame⟩
  rw [if_neg hfull]
  split
  · simp only [decodeSegment, bind_eq_ok, pure_eq_ok]
    exact ⟨total, spanOf_eq (by omega), marked_holes hasc hspan⟩
  split
  · simp only [decodeSegment, bind_eq_ok, pure_eq_ok, ensure_eq_ok]
    refine ⟨total, spanOf_eq (by omega), (), ?_, ?_⟩
    · simp [length_marks]
    · rw [take_of_length_le (Nat.le_of_eq (length_marks ..))]
      exact marked_true hasc hspan
  · rfl

/-- The segment of ids that are distinct. -/
theorem decode_encodeSegment (hne : values ≠ []) (hnodup : values.Nodup)
    (hlt : ∀ id ∈ values, id < 2 ^ 64 - 1) (hlen : values.length ≤ 2 ^ 32) :
    decodeSegment (encodeSegment values) = .ok values := by
  unfold encodeSegment
  have hlo := (foldl_min_le values (2 ^ 64 - 1)).2
  have hhi := (le_foldl_max (fun x => x) values 0).2
  have hmem := foldl_max_mem (fun x => x) values 0
  generalize values.foldl min (2 ^ 64 - 1) = lo at hlo
  generalize values.foldl (fun top x => max top x) 0 = hi at hhi hmem
  have hbelow : hi < 2 ^ 64 - 1 := by
    rcases hmem with h | ⟨x, hx, rfl⟩
    · omega
    · exact hlt _ hx
  rcases exists_mem_of_ne_nil values hne with ⟨x, hx⟩
  have hle := Nat.le_trans (hlo x hx) (hhi x hx)
  rw [if_neg hne]
  split
  · rfl
  · next hsorted =>
    rw [if_neg (Nat.ne_of_lt hbelow)]
    refine decode_sortedSegment hle hbelow ?_ (fun x hx => ⟨hlo x hx, ?_⟩) hlen
    · exact ((not_not.mp hsorted).and hnodup).imp (fun h => Nat.lt_of_le_of_ne h.1 h.2)
    · have := hhi x hx
      omega

/-- **Distinct ids are read back as they were.** -/
theorem stored_eq (hnodup : values.Nodup) (hlt : ∀ id ∈ values, id < 2 ^ 64 - 1)
    (hlen : values.length ≤ 2 ^ 32) : stored values = .values values := by
  suffices h : decodeSegment (encodeSequence values) = .ok values by rw [stored, h]
  unfold encodeSequence
  by_cases hrun : consecutive values = true
  · have hrange := consecutive_eq hrun hlt
    have hstop : values.headD 0 + values.length < 2 ^ 64 := by
      rcases Nat.eq_zero_or_pos values.length with hzero | hpos
      · rw [length_eq_zero_iff.mp hzero]
        decide
      · have hlast : values.headD 0 + (values.length - 1) ∈ range' (values.headD 0) values.length :=
          mem_range'_1.mpr ⟨Nat.le_add_right .., by omega⟩
        rw [← hrange] at hlast
        have := hlt _ hlast
        omega
    rw [if_pos hrun, Nat.mod_eq_of_lt hstop]
    simp only [decodeSegment, bind_eq_ok, pure_eq_ok]
    exact ⟨values.length, spanOf_eq (by omega), hrange.symm⟩
  · have hne : values ≠ [] := by
      rintro rfl
      exact hrun rfl
    rw [if_neg hrun]
    exact decode_encodeSegment hne hnodup hlt hlen

/-- An id twice in a list that does not decrease: it reads back once, or as another one. -/
example : stored [2, 2] = .values [2] ∧ stored [0, 0, 2] = .values [0, 1, 2] ∧
    stored [1, 0, 0] = .values [1, 0, 0] := by decide +kernel

end RowIds

end NanoLance
