import Mathlib.Algebra.BigOperators.Group.List.Basic
import Mathlib.Algebra.Order.Ring.Int
import Mathlib.Data.List.TakeWhile

/-!
# Phrase Search

A phrase query keeps a document when the query's terms stand in it the way
they stand in the query. Two procedures decide that. A document of the index
is decided over the position lists the index stores: one cursor per term, all
of them moved up together to the furthest position some adjacent pair needs,
round after round, until every adjacent pair fits (`phraseMatches`). A document
that no index covers is decided over the positions of its own tokens: the
positions the first term can take, then those the second can take after one of
them, term by term (`flatPhraseMatches`).

`std::sort` leaves the order of terms at one query position open, so the sort is
a parameter that may give them in any order.

## Theorems

* `mem_left_advance`: What a cursor has left after it is moved up.
* `phraseMatches_returns`: So every search returns.
-/

namespace NanoLance

namespace PhraseSearch

open List

/-- One query term's positions in a document, the term's place in the query,
and the index of the position the cursor stands at. -/
structure PositionCursor where
  values : List Nat
  queryPosition : Int
  i : Nat
  deriving DecidableEq, Repr

namespace PositionCursor

/-- The position the cursor stands at, less the term's place in the query. -/
def relative (c : PositionCursor) : Option Int :=
  c.values[c.i]?.map (fun v => (v : Int) - c.queryPosition)

/-- Move the cursor up to the first position at or past `least`, as
`std::lower_bound` over what it has left finds it. -/
def advanceToRelative (least : Int) (c : PositionCursor) : PositionCursor :=
  if c.values.length ≤ c.i then
    c
  else
    let target := (max (least + c.queryPosition) 0).toNat
    { c with i := c.i + (c.values.drop c.i).findIdx (fun v => decide (target ≤ v)) }

/-- The positions from the cursor on. -/
def left (c : PositionCursor) : List Nat :=
  c.values.drop c.i

end PositionCursor

/-- The cast of a 32 bit integer to an unsigned one. -/
def toUnsigned (q : Int) : Nat :=
  (q % 2 ^ 32).toNat

/-- The cursor with the fewest positions, the first of them on a tie. -/
def leadCursor (c : PositionCursor) (cs : List PositionCursor) : PositionCursor :=
  cs.foldl (fun lead c => if c.values.length < lead.values.length then c else lead) c

/-- Some base puts every term at base plus its query position. The lists are in
ascending order, so `std::binary_search` is membership. -/
def exactMatches : List PositionCursor → Bool
  | [] => false
  | c :: cs =>
      let a := leadCursor c cs
      a.values.any fun v =>
        if v < toUnsigned a.queryPosition then
          false
        else
          let base := v - toUnsigned a.queryPosition
          (c :: cs).all fun c =>
            c.values.contains ((base + toUnsigned c.queryPosition) % 2 ^ 32)

/-- One round over the adjacent pairs: the furthest position a pair needs, up to
the first pair that does not fit, and whether all fit. `none` where a cursor of
a pair it comes to has run out. -/
def pairScan (slop : Int) : List PositionCursor → Option Int → Option (Option Int × Bool)
  | a :: b :: rest, furthest =>
      match a.relative, b.relative with
      | some last, some next =>
          let moveTo := if last > next then last else max (last + 1) (next - slop)
          let furthest := some (max (furthest.getD moveTo) moveTo)
          if last ≤ next ∧ next ≤ last + slop then
            pairScan slop (b :: rest) furthest
          else
            some (furthest, false)
      | _, _ => none
  | _, furthest => some (furthest, true)

/-- The rounds: all pairs fit, or a cursor has run out, or every cursor moves up
to the furthest position the round found. `none` is out of fuel. -/
def phraseRounds (slop : Int) : Nat → List PositionCursor → Option Bool
  | 0, _ => none
  | fuel + 1, cursors =>
      match pairScan slop cursors none with
      | none => some false
      | some (_, true) => some true
      | some (furthest, false) =>
          phraseRounds slop fuel
            (cursors.map (PositionCursor.advanceToRelative (furthest.getD 0)))

/-- The positions the cursors have left between them. -/
def positionsLeft (cursors : List PositionCursor) : Nat :=
  (cursors.map (fun c => c.left.length)).sum

/-- Whether the terms stand as the phrase does, within `slop`. A round that does
not decide moves a cursor past a position, which bounds the rounds. With
positions and slop below 2^30 no 32 bit sum of the rounds wraps, so they are
integers here. -/
def phraseMatches (sort : List PositionCursor → List PositionCursor)
    (cursors : List PositionCursor) (slop : Int) : Option Bool :=
  if cursors.isEmpty then
    some false
  else if slop = 0 then
    some (exactMatches cursors)
  else
    phraseRounds slop (positionsLeft cursors + 1) (sort cursors)

/-- The terms after the first: each keeps its positions within
`[candidate + gap, candidate + gap + slop]` of a candidate of the term before. -/
def flatFrom (slop : Nat) : Int → List Nat → List (Int × List Nat) → Bool
  | _, _, [] => true
  | previous, candidates, (q, positions) :: rest =>
      if q < previous then
        false
      else
        let gap := (q - previous).toNat
        let next := positions.filter fun p =>
          candidates.any fun c => decide (c + gap ≤ p) && decide (p ≤ c + gap + slop)
        if next.isEmpty then
          false
        else
          flatFrom slop q next rest

/-- The same for a document outside the index: the first term's positions are
the candidates, and the other terms follow. -/
def flatPhraseMatches (queryPositions : List Int) (positions : List (List Nat)) (slop : Nat) :
    Bool :=
  match queryPositions.zip positions with
  | [] => false
  | (q, first) :: rest =>
      if first.isEmpty then
        false
      else
        flatFrom slop q first rest

/-- The cursors of a document, each before its term's first position. -/
def cursorsOf (queryPositions : List Int) (positions : List (List Nat)) : List PositionCursor :=
  (queryPositions.zip positions).map (fun t => { values := t.2, queryPosition := t.1, i := 0 })

/-- What `std::sort` by query position promises: the same cursors in ascending
order, those at one query position in any order. -/
structure OrdersByPosition (sort : List PositionCursor → List PositionCursor) : Prop where
  perm : ∀ cursors, (sort cursors).Perm cursors
  ordered : ∀ cursors, (sort cursors).Pairwise (fun a b => a.queryPosition ≤ b.queryPosition)

/-- Positions a document can have for a term: strictly ascending, below 2^30. -/
def PositionsOk (positions : List Nat) : Prop :=
  positions.Pairwise (· < ·) ∧ ∀ p ∈ positions, p < 2 ^ 30

/-! ## Cursors -/

variable (least : Int) (c : PositionCursor)

theorem relative_eq :
    c.relative = c.left.head?.map (fun v => (v : Int) - c.queryPosition) := by
  unfold PositionCursor.relative PositionCursor.left
  rw [head?_drop]

theorem relative_eq_some (r : Int) :
    c.relative = some r ↔ ∃ v rest, c.left = v :: rest ∧ (v : Int) - c.queryPosition = r := by
  rw [relative_eq]
  cases c.left with
  | nil => simp
  | cons v rest => simp

theorem relative_eq_none : c.relative = none ↔ c.left = [] := by
  rw [relative_eq]
  cases c.left with
  | nil => simp
  | cons v rest => simp

@[simp] theorem queryPosition_advance :
    (c.advanceToRelative least).queryPosition = c.queryPosition := by
  unfold PositionCursor.advanceToRelative
  split <;> rfl

theorem drop_findIdx (p : Nat → Bool) (l : List Nat) :
    l.drop (l.findIdx p) = l.dropWhile (fun v => !p v) := by
  induction l with
  | nil => rfl
  | cons v rest ih =>
    rw [findIdx_cons]
    cases hv : p v with
    | true => simp [hv]
    | false => simp [hv, ih]

/-- What a cursor has left once it is moved up: what it had left, from the first
position at or past the level. -/
theorem left_advance :
    (c.advanceToRelative least).left =
      c.left.dropWhile (fun v : Nat => decide ((v : Int) - c.queryPosition < least)) := by
  unfold PositionCursor.advanceToRelative
  by_cases hend : c.values.length ≤ c.i
  · rw [if_pos hend]
    have hnil : c.left = [] := drop_eq_nil_of_le hend
    rw [hnil, dropWhile_nil]
  · rw [if_neg hend]
    show c.values.drop (c.i + (c.values.drop c.i).findIdx _) = _
    rw [← drop_drop, drop_findIdx]
    grind [PositionCursor.left]

theorem mem_dropWhile_ascending (q least : Int) {l : List Nat} (hl : l.Pairwise (· < ·)) (v : Nat) :
    v ∈ l.dropWhile (fun v : Nat => decide ((v : Int) - q < least)) ↔
      v ∈ l ∧ least ≤ (v : Int) - q := by
  induction l with
  | nil => simp
  | cons w rest ih =>
    rw [pairwise_cons] at hl
    rw [dropWhile_cons]
    by_cases hw : (w : Int) - q < least
    · grind
    · grind

theorem mem_left_advance {c : PositionCursor} (hc : c.left.Pairwise (· < ·)) (v : Nat) :
    v ∈ (c.advanceToRelative least).left ↔ v ∈ c.left ∧ least ≤ (v : Int) - c.queryPosition := by
  rw [left_advance]
  exact mem_dropWhile_ascending c.queryPosition least hc v

theorem pairwise_left_advance {c : PositionCursor} (hc : c.left.Pairwise (· < ·)) :
    (c.advanceToRelative least).left.Pairwise (· < ·) := by
  rw [left_advance]
  exact hc.sublist (dropWhile_sublist _)

theorem length_left_advance_le :
    (c.advanceToRelative least).left.length ≤ c.left.length := by
  rw [left_advance]
  exact (dropWhile_sublist _).length_le

/-- A cursor that stands below the level leaves its position behind. -/
theorem length_left_advance_lt {least r : Int} {c : PositionCursor} (hr : c.relative = some r)
    (hlt : r < least) : (c.advanceToRelative least).left.length < c.left.length := by
  rcases (relative_eq_some c r).mp hr with ⟨v, rest, hleft, hv⟩
  rw [left_advance, hleft, dropWhile_cons, if_pos (by simpa [hv] using hlt)]
  have hle := (dropWhile_sublist (l := rest)
    (fun v : Nat => decide ((v : Int) - c.queryPosition < least))).length_le
  simp only [length_cons]
  omega

/-! ## The rounds end -/

/-- A round that does not decide has seen a cursor below the level it asks for. -/
theorem pairScan_false {slop : Int} : ∀ (cursors : List PositionCursor) (start : Option Int)
    (furthest : Option Int), pairScan slop cursors start = some (furthest, false) →
    ∃ f, furthest = some f ∧ (∀ g, start = some g → g ≤ f) ∧
      ∃ c ∈ cursors, ∃ r, c.relative = some r ∧ r < f
  | [], start, furthest, h => by
      simp [pairScan] at h
  | [a], start, furthest, h => by
      simp [pairScan] at h
  | a :: b :: rest, start, furthest, h => by
      rw [pairScan] at h
      split at h
      · rename_i last next hlast hnext
        by_cases hfit : last ≤ next ∧ next ≤ last + slop
        · rw [if_pos hfit] at h
          rcases pairScan_false (b :: rest) _ furthest h with ⟨f, hf, hge, c, hc, r, hr, hlt⟩
          refine ⟨f, hf, ?_, c, mem_cons_of_mem _ hc, r, hr, hlt⟩
          intro g hg
          have hstep := hge _ rfl
          rw [hg, Option.getD_some] at hstep
          exact le_trans (le_max_left _ _) hstep
        · rw [if_neg hfit, Option.some.injEq, Prod.mk.injEq] at h
          refine ⟨_, h.1.symm, ?_, ?_⟩
          · intro g hg
            rw [hg, Option.getD_some]
            exact le_max_left _ _
          · -- Out of order the second of the pair is behind, too far apart the first.
            have hmove : (if last > next then last else max (last + 1) (next - slop)) ≤
                max (start.getD (if last > next then last else max (last + 1) (next - slop)))
                  (if last > next then last else max (last + 1) (next - slop)) := le_max_right _ _
            by_cases hgt : last > next
            · refine ⟨b, mem_cons_of_mem _ mem_cons_self, next, hnext, ?_⟩
              rw [if_pos hgt] at hmove ⊢
              omega
            · refine ⟨a, mem_cons_self, last, hlast, ?_⟩
              rw [if_neg hgt] at hmove ⊢
              omega
      · simp at h

theorem positionsLeft_advance_le (cursors : List PositionCursor) :
    positionsLeft (cursors.map (PositionCursor.advanceToRelative least)) ≤
      positionsLeft cursors := by
  unfold positionsLeft
  induction cursors with
  | nil => simp
  | cons c rest ih =>
    simp only [map_cons, sum_cons]
    have hc := length_left_advance_le least c
    omega

theorem positionsLeft_advance_lt {least : Int} {cursors : List PositionCursor}
    (h : ∃ c ∈ cursors, ∃ r, c.relative = some r ∧ r < least) :
    positionsLeft (cursors.map (PositionCursor.advanceToRelative least)) <
      positionsLeft cursors := by
  induction cursors with
  | nil => simp at h
  | cons c rest ih =>
    rcases h with ⟨d, hd, r, hr, hlt⟩
    have hrest := positionsLeft_advance_le least rest
    have hc := length_left_advance_le least c
    unfold positionsLeft at hrest ih ⊢
    simp only [map_cons, sum_cons]
    rcases mem_cons.mp hd with hd | hd
    · subst hd
      have hstep := length_left_advance_lt hr hlt
      omega
    · have hstep := ih ⟨d, hd, r, hr, hlt⟩
      omega

/-- The rounds end: each that does not decide leaves a position behind. -/
theorem phraseRounds_returns (slop : Int) (fuel : Nat) (cursors : List PositionCursor)
    (hfuel : positionsLeft cursors < fuel) :
    ∃ verdict, phraseRounds slop fuel cursors = some verdict := by
  induction fuel generalizing cursors with
  | zero => omega
  | succ fuel ih =>
    rw [phraseRounds]
    split
    · exact ⟨false, rfl⟩
    · exact ⟨true, rfl⟩
    · rename_i furthest hscan
      rcases pairScan_false cursors none furthest hscan with ⟨f, hf, _, hbehind⟩
      subst hf
      refine ih _ ?_
      have hlt := positionsLeft_advance_lt hbehind
      rw [Option.getD_some]
      omega

theorem phraseMatches_returns {sort : List PositionCursor → List PositionCursor}
    (hsort : OrdersByPosition sort) (cursors : List PositionCursor) (slop : Int) :
    ∃ verdict, phraseMatches sort cursors slop = some verdict := by
  unfold phraseMatches
  split
  · exact ⟨false, rfl⟩
  · split
    · exact ⟨_, rfl⟩
    · refine phraseRounds_returns slop _ _ ?_
      have hsum : positionsLeft (sort cursors) = positionsLeft cursors :=
        ((hsort.perm cursors).map _).sum_eq
      omega

end PhraseSearch

end NanoLance
