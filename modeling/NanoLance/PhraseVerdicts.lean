import Mathlib.Data.List.Permutation
import Mathlib.Data.List.Sort
import NanoLance.PhraseSearch

/-!
# The Two Verdicts on a Phrase

Whether a document holds a phrase should not depend on whether the document is
indexed. It does. In the rounds over an index's position lists a pair that fits
still asks for one past its first term's position, so when a later pair of the
same round does not fit, the terms before it are moved past a position they
needed; and with slop a lone term is never looked at. The verdicts are the same
on every document exactly for the queries `SameOnEveryDocument` names.

## Theorems

* `phrase_verdicts_agree_iff`: When the two procedures agree.
-/

namespace NanoLance

namespace PhraseSearch

open List

/-- The queries whose verdict does not depend on the index: no term; no slop and
the first term at query position 0; or slop and two terms at different
query positions. -/
def SameOnEveryDocument (queryPositions : List Int) (slop : Nat) : Prop :=
  queryPositions = [] ∨ (slop = 0 ∧ queryPositions.head? = some 0) ∨
    (0 < slop ∧ ∃ a b, a < b ∧ queryPositions = [a, b])

/-! ## Without slop -/

variable {q : Int} {qs : List Int} {slop : Nat}

theorem toUnsigned_small (h0 : 0 ≤ q) (h : q < 2 ^ 30) : toUnsigned q = q.toNat := by
  unfold toUnsigned
  rw [Int.emod_eq_of_lt h0 (by omega)]

theorem leadCursor_mem (c : PositionCursor) (cs : List PositionCursor) :
    leadCursor c cs ∈ c :: cs := by
  unfold leadCursor
  induction cs generalizing c with
  | nil => exact .head _
  | cons d rest ih => grind

/-- The search without slop finds a base at or after the document's start that
every term stands its query position past. -/
theorem exactMatches_iff (cursors : List PositionCursor) (hne : cursors ≠ [])
    (hq : ∀ c ∈ cursors, 0 ≤ c.queryPosition ∧ c.queryPosition < 2 ^ 30)
    (hv : ∀ c ∈ cursors, ∀ v ∈ c.values, v < 2 ^ 30) :
    exactMatches cursors = true ↔
      ∃ base : Nat, ∀ c ∈ cursors, base + c.queryPosition.toNat ∈ c.values := by
  cases cursors with
  | nil => exact absurd rfl hne
  | cons c cs =>
    have hlead := leadCursor_mem c cs
    have hlq := hq _ hlead
    simp only [exactMatches, any_eq_true, toUnsigned_small hlq.1 hlq.2]
    constructor
    · rintro ⟨v, hvmem, hall⟩
      split at hall
      · exact absurd hall (by simp)
      · rename_i hge
        refine ⟨v - (leadCursor c cs).queryPosition.toNat, fun d hd => ?_⟩
        have hdq := hq d hd
        have hmem := all_eq_true.mp hall d hd
        rw [toUnsigned_small hdq.1 hdq.2, contains_iff_mem] at hmem
        have hvlt := hv _ hlead v hvmem
        rwa [Nat.mod_eq_of_lt (by omega)] at hmem
    · grind [toUnsigned_small]

/-! ## The flat search -/

/-- Positions for the rest of the terms, each within reach of the one before. -/
def Follows (slop : Nat) : Int → Nat → List (Int × List Nat) → Prop
  | _, _, [] => True
  | previous, c, (q, positions) :: rest =>
      previous ≤ q ∧ ∃ p ∈ positions, c + (q - previous).toNat ≤ p ∧
        p ≤ c + (q - previous).toNat + slop ∧ Follows slop q p rest

/-- The flat search finds positions that follow one another from a candidate. -/
theorem flatFrom_iff (slop : Nat) (previous : Int) (candidates : List Nat)
    (rest : List (Int × List Nat)) (hne : candidates ≠ []) :
    flatFrom slop previous candidates rest = true ↔
      ∃ c ∈ candidates, Follows slop previous c rest := by
  induction rest generalizing previous candidates with
  | nil =>
    rcases exists_mem_of_ne_nil candidates hne with ⟨c, hc⟩
    exact ⟨fun _ => ⟨c, hc, trivial⟩, fun _ => rfl⟩
  | cons t rest ih =>
    rcases t with ⟨q, positions⟩
    rw [flatFrom]
    by_cases hq : q < previous
    · rw [if_pos hq]
      refine ⟨fun h => absurd h (by simp), ?_⟩
      rintro ⟨c, _, hle, _⟩
      omega
    · rw [if_neg hq]
      simp only []
      generalize hnext : positions.filter (fun p => candidates.any fun c =>
        decide (c + (q - previous).toNat ≤ p) &&
          decide (p ≤ c + (q - previous).toNat + slop)) = next
      have hmem : ∀ p, p ∈ next ↔ p ∈ positions ∧ ∃ c ∈ candidates,
          c + (q - previous).toNat ≤ p ∧ p ≤ c + (q - previous).toNat + slop := by
        intro p
        simp [← hnext]
      by_cases hempty : next = []
      · rw [hempty, isEmpty_nil, if_pos rfl]
        refine ⟨fun h => absurd h (by simp), ?_⟩
        rintro ⟨c, hc, _, p, hp, hlo, hhi, _⟩
        grind
      · rw [if_neg (by simpa using hempty), ih q next hempty]
        constructor
        · rintro ⟨p, hp, hfollows⟩
          rcases (hmem p).mp hp with ⟨hpos, c, hc, hlo, hhi⟩
          exact ⟨c, hc, by omega, p, hpos, hlo, hhi, hfollows⟩
        · rintro ⟨c, hc, _, p, hpos, hlo, hhi, hfollows⟩
          exact ⟨p, (hmem p).mpr ⟨hpos, c, hc, hlo, hhi⟩, hfollows⟩

/-- A line of positions, each term `e` past where the query puts it behind a
start at `q0`, is a chain from any position the line can start from. -/
theorem follows_line (slop e : Nat) (q0 : Int) : ∀ (rest : List (Int × List Nat)) (previous : Int)
    (c : Nat), q0 ≤ previous → (previous :: rest.map Prod.fst).Pairwise (· ≤ ·) →
    (c : Int) ≤ previous - q0 + e → previous - q0 + e ≤ c + slop →
    (∀ t ∈ rest, (t.1 - q0).toNat + e ∈ t.2) → Follows slop previous c rest
  | [], _, _, _, _, _, _, _ => trivial
  | (q, positions) :: rest, previous, c, h0, hord, hlo, hhi, hmem => by
      rw [map_cons, pairwise_cons] at hord
      have hle : previous ≤ q := hord.1 q mem_cons_self
      refine ⟨hle, (q - q0).toNat + e, hmem _ mem_cons_self, by omega, by omega, ?_⟩
      exact follows_line slop e q0 rest q _ (by omega) hord.2 (by omega) (by omega)
        (fun t ht => hmem t (mem_cons_of_mem _ ht))

/-- Without slop the positions that follow one are fixed by it. -/
theorem follows_exact {rest : List (Int × List Nat)} {previous : Int} (c : Nat)
    (hord : (previous :: rest.map Prod.fst).Pairwise (· ≤ ·)) :
    Follows 0 previous c rest ↔ ∀ t ∈ rest, c + (t.1 - previous).toNat ∈ t.2 := by
  induction rest generalizing previous c with
  | nil => simp [Follows]
  | cons t rest ih =>
    rcases t with ⟨q, positions⟩
    rw [map_cons, pairwise_cons] at hord
    have hle : previous ≤ q := hord.1 q (.head _)
    have hlater : ∀ t ∈ rest, q ≤ t.1 := fun t ht =>
      (pairwise_cons.mp hord.2).1 t.1 (mem_map_of_mem ht)
    have hshift : ∀ t ∈ rest, c + (q - previous).toNat + (t.1 - q).toNat =
        c + (t.1 - previous).toNat := by grind
    rw [Follows]
    constructor
    · rintro ⟨_, p, hp, hlo, hhi, hfollows⟩
      have hpeq : p = c + (q - previous).toNat := by omega
      grind
    · intro h
      refine ⟨hle, _, h _ (.head _), Nat.le_refl _, Nat.le_refl _, ?_⟩
      grind

/-! ## With slop -/

/-- Two positions of two terms stand as the phrase does. -/
def PairFits (slop : Int) (a b : PositionCursor) (x y : Nat) : Prop :=
  (x : Int) - a.queryPosition ≤ (y : Int) - b.queryPosition ∧
    (y : Int) - b.queryPosition ≤ (x : Int) - a.queryPosition + slop

/-- What is left of an ascending list is at or past its first position. -/
theorem le_of_mem_left {c : PositionCursor} (hc : c.left.Pairwise (· < ·)) {v : Nat}
    {rest : List Nat} (hleft : c.left = v :: rest) {x : Nat} (hx : x ∈ c.left) : v ≤ x := by
  rw [hleft] at hc hx
  rcases mem_cons.mp hx with hx | hx
  · omega
  · have hlt := (pairwise_cons.mp hc).1 x hx
    omega

/-- Two cursors find a pair that fits exactly when there is one: the level a round
asks for is at or before both positions of every pair that fits. -/
theorem phraseRounds_pair (slop : Int) (fuel : Nat) (a b : PositionCursor)
    (ha : a.left.Pairwise (· < ·)) (hb : b.left.Pairwise (· < ·))
    (hfuel : positionsLeft [a, b] < fuel) :
    phraseRounds slop fuel [a, b] = some true ↔
      ∃ x ∈ a.left, ∃ y ∈ b.left, PairFits slop a b x y := by
  induction fuel generalizing a b with
  | zero => omega
  | succ fuel ih =>
    cases haleft : a.left with
    | nil =>
      have hnone := (relative_eq_none a).mpr haleft
      simp [phraseRounds, pairScan, hnone]
    | cons v arest =>
    cases hbleft : b.left with
    | nil =>
      have hnone := (relative_eq_none b).mpr hbleft
      simp [phraseRounds, pairScan, hnone]
    | cons w brest =>
    have hra : a.relative = some ((v : Int) - a.queryPosition) :=
      (relative_eq_some a _).mpr ⟨v, arest, haleft, rfl⟩
    have hrb : b.relative = some ((w : Int) - b.queryPosition) :=
      (relative_eq_some b _).mpr ⟨w, brest, hbleft, rfl⟩
    by_cases hfit : PairFits slop a b v w
    · have hnear := hfit
      unfold PairFits at hnear
      have hscan : ∃ f, pairScan slop [a, b] none = some (f, true) := by
        rw [pairScan, hra, hrb]
        simp only []
        rw [if_pos hnear, pairScan]
        · exact ⟨_, rfl⟩
        · intro a' b' rest h
          simp at h
      rcases hscan with ⟨f, hscan⟩
      refine ⟨fun _ => ⟨v, by simp, w, by simp, hfit⟩, fun _ => ?_⟩
      rw [phraseRounds, hscan]
    · generalize hlevel : (if (v : Int) - a.queryPosition > (w : Int) - b.queryPosition then
          (v : Int) - a.queryPosition
        else max ((v : Int) - a.queryPosition + 1) ((w : Int) - b.queryPosition - slop)) = level
      unfold PairFits at hfit
      have hscan : pairScan slop [a, b] none = some (some level, false) := by
        rw [pairScan, hra, hrb]
        simp only []
        rw [if_neg hfit, hlevel, Option.getD_none, max_self]
      have hbehind : ∃ c ∈ [a, b], ∃ r, c.relative = some r ∧ r < level := by
        rcases pairScan_false [a, b] none _ hscan with ⟨f, hf, _, h⟩
        rw [Option.some.injEq] at hf
        subst hf
        exact h
      have hlt := positionsLeft_advance_lt hbehind
      rw [phraseRounds, hscan]
      simp only [Option.getD_some, map_cons, map_nil]
      rw [ih _ _ (pairwise_left_advance level ha) (pairwise_left_advance level hb)
        (by simp only [map_cons, map_nil] at hlt; omega)]
      -- A pair that fits stays in reach of both cursors.
      have hkeep : ∀ x ∈ a.left, ∀ y ∈ b.left, PairFits slop a b x y →
          level ≤ (x : Int) - a.queryPosition ∧ level ≤ (y : Int) - b.queryPosition := by
        intro x hx y hy hxy
        have hvx := le_of_mem_left ha haleft hx
        have hwy := le_of_mem_left hb hbleft hy
        unfold PairFits at hxy
        rw [← hlevel]
        by_cases hgt : (v : Int) - a.queryPosition > (w : Int) - b.queryPosition
        · rw [if_pos hgt]
          omega
        · rw [if_neg hgt]
          omega
      rw [← haleft, ← hbleft]
      constructor
      · rintro ⟨x, hx, y, hy, hxy⟩
        rw [mem_left_advance level ha] at hx
        rw [mem_left_advance level hb] at hy
        unfold PairFits at hxy
        rw [queryPosition_advance, queryPosition_advance] at hxy
        exact ⟨x, hx.1, y, hy.1, hxy⟩
      · rintro ⟨x, hx, y, hy, hxy⟩
        have hge := hkeep x hx y hy hxy
        refine ⟨x, (mem_left_advance level ha x).mpr ⟨hx, hge.1⟩, y,
          (mem_left_advance level hb y).mpr ⟨hy, hge.2⟩, ?_⟩
        unfold PairFits
        rw [queryPosition_advance, queryPosition_advance]
        exact hxy

/-- The first pair fits, a later one does not: the round asks for one past the
first term's position, and a first term with no other position is lost. -/
theorem phraseRounds_leaps {slop : Int} (fuel : Nat) {a b : PositionCursor}
    {rest : List PositionCursor} {v : Nat} {s : Int} {furthest : Option Int}
    (ha : a.left = [v]) (hb : b.relative = some s)
    (hfit : (v : Int) - a.queryPosition ≤ s ∧ s ≤ (v : Int) - a.queryPosition + slop)
    (hscan : pairScan slop (a :: b :: rest) none = some (furthest, false)) :
    phraseRounds slop (fuel + 2) (a :: b :: rest) = some false := by
  have hra : a.relative = some ((v : Int) - a.queryPosition) :=
    (relative_eq_some a _).mpr ⟨v, [], ha, rfl⟩
  rw [phraseRounds, hscan]
  simp only []
  have hstart : ∃ start, (v : Int) - a.queryPosition + 1 ≤ start ∧
      pairScan slop (b :: rest) (some start) = some (furthest, false) := by
    grind [pairScan, max_self]
  rcases hstart with ⟨start, hge, hscan'⟩
  rcases pairScan_false (b :: rest) (some start) furthest hscan' with ⟨f, hf, hle, _⟩
  have hsf := hle start rfl
  rw [hf, Option.getD_some, map_cons, map_cons, phraseRounds]
  have hlost : (a.advanceToRelative f).relative = none := by
    rw [relative_eq_none, left_advance, ha, dropWhile_cons, if_pos, dropWhile_nil]
    exact decide_eq_true (by omega)
  rw [pairScan, hlost]

/-- A row of cursors at one level whose last stands one below: the round stops at
the last pair. -/
theorem pairScan_row {slop : Int} (hslop : 0 ≤ slop) {s : Int} {last : PositionCursor}
    (hlast : last.relative = some (s - 1)) : ∀ (row : List PositionCursor) (start : Option Int),
    row ≠ [] → (∀ c ∈ row, c.relative = some s) →
    ∃ furthest, pairScan slop (row ++ [last]) start = some (furthest, false)
  | [], _, hne, _ => absurd rfl hne
  | [c], start, _, hrow => by
      have hc := hrow c mem_cons_self
      rw [singleton_append, pairScan, hc, hlast]
      simp only []
      rw [if_neg (by omega)]
      exact ⟨_, rfl⟩
  | c :: d :: row, start, _, hrow => by
      have hc := hrow c mem_cons_self
      have hd := hrow d (mem_cons_of_mem _ mem_cons_self)
      rw [cons_append, cons_append, pairScan, hc, hd]
      simp only []
      rw [if_pos (by omega)]
      exact pairScan_row hslop hlast (d :: row) _ (by simp)
        (fun c hc => hrow c (mem_cons_of_mem _ hc))

/-! ## The two verdicts -/

/-- A stable sort is one the standard allows. -/
def stableSort (cursors : List PositionCursor) : List PositionCursor :=
  cursors.insertionSort (fun a b => a.queryPosition ≤ b.queryPosition)

instance : Std.Total (fun a b : PositionCursor => a.queryPosition ≤ b.queryPosition) :=
  ⟨fun a b => le_total a.queryPosition b.queryPosition⟩

instance : IsTrans PositionCursor (fun a b => a.queryPosition ≤ b.queryPosition) :=
  ⟨fun _ _ _ h h' => le_trans h h'⟩

theorem stableSort_orders : OrdersByPosition stableSort where
  perm cursors := perm_insertionSort _ cursors
  ordered cursors := pairwise_insertionSort _ cursors

/-- So is one that gives terms at one query position the other way round. -/
theorem reverseSort_orders : OrdersByPosition (fun cursors => stableSort cursors.reverse) where
  perm cursors := (stableSort_orders.perm cursors.reverse).trans cursors.reverse_perm
  ordered cursors := stableSort_orders.ordered cursors.reverse

theorem stableSort_eq (cursors : List PositionCursor)
    (h : cursors.Pairwise (fun a b => a.queryPosition ≤ b.queryPosition)) :
    stableSort cursors = cursors :=
  List.Pairwise.insertionSort_eq h

theorem zip_fst_sublist : ∀ (queryPositions : List Int) (positions : List (List Nat)),
    ((queryPositions.zip positions).map Prod.fst).Sublist queryPositions
  | [], _ => by simp
  | q :: qs, [] => by simp
  | q :: qs, ps :: rest => by
      rw [zip_cons_cons, map_cons]
      exact (zip_fst_sublist qs rest).cons_cons q

theorem cursorsOf_ordered (queryPositions : List Int) (positions : List (List Nat))
    (hord : queryPositions.Pairwise (· ≤ ·)) :
    (cursorsOf queryPositions positions).Pairwise
      (fun a b => a.queryPosition ≤ b.queryPosition) := by
  unfold cursorsOf
  rw [pairwise_map]
  have hfst : ((queryPositions.zip positions).map Prod.fst).Pairwise (· ≤ ·) := by
    exact hord.sublist (zip_fst_sublist queryPositions positions)
  exact pairwise_map.mp hfst

/-- Without slop, from query position 0, the base is the first term's position. -/
theorem exact_verdicts (sort : List PositionCursor → List PositionCursor)
    {positions : List (List Nat)} (hlen : positions.length = (0 :: qs).length)
    (hord : (0 :: qs).Pairwise (· ≤ ·)) (hq : ∀ q ∈ (0 :: qs : List Int), 0 ≤ q ∧ q < 2 ^ 30)
    (hp : ∀ ps ∈ positions, PositionsOk ps) :
    phraseMatches sort (cursorsOf (0 :: qs) positions) 0 =
      some (flatPhraseMatches (0 :: qs) positions 0) := by
  cases positions with
  | nil => simp at hlen
  | cons first ps =>
    have hcursors : ∀ c ∈ cursorsOf (0 :: qs) (first :: ps),
        ∃ t ∈ (0 :: qs : List Int).zip (first :: ps), c = ⟨t.2, t.1, 0⟩ := by
      intro c hc
      rcases mem_map.mp hc with ⟨t, ht, hct⟩
      exact ⟨t, ht, hct.symm⟩
    have hexact := exactMatches_iff (cursorsOf (0 :: qs) (first :: ps)) (by simp [cursorsOf])
      (fun c hc => by
        rcases hcursors c hc with ⟨t, ht, hct⟩
        rw [hct]
        exact hq t.1 (of_mem_zip ht).1)
      (fun c hc v hv => by
        rcases hcursors c hc with ⟨t, ht, hct⟩
        rw [hct] at hv
        exact (hp t.2 (of_mem_zip ht).2).2 v hv)
    have hrest : ((0 : Int) :: (qs.zip ps).map Prod.fst).Pairwise (· ≤ ·) := by
      exact hord.sublist ((zip_fst_sublist qs ps).cons_cons 0)
    unfold phraseMatches flatPhraseMatches
    rw [if_neg (by simp [cursorsOf]), if_pos rfl, Option.some.injEq, Bool.eq_iff_iff, hexact,
      zip_cons_cons]
    simp only []
    by_cases hempty : first = []
    · simp [cursorsOf, hempty]
    · rw [if_neg (by simpa using hempty), flatFrom_iff 0 0 first _ hempty]
      constructor
      · rintro ⟨base, hbase⟩
        have hfirst := hbase ⟨first, 0, 0⟩ (by simp [cursorsOf])
        refine ⟨base, by simpa using hfirst, (follows_exact _ hrest).mpr ?_⟩
        intro t ht
        have hterm := hbase ⟨t.2, t.1, 0⟩ (mem_map.mpr ⟨t, by simp [ht], rfl⟩)
        simpa using hterm
      · rintro ⟨c, hc, hfollows⟩
        rw [follows_exact _ hrest] at hfollows
        refine ⟨c, fun d hd => ?_⟩
        grind

/-- With slop, two terms at different query positions. -/
theorem pair_verdicts {sort : List PositionCursor → List PositionCursor}
    (hsort : OrdersByPosition sort) {a b : Int} (hab : a < b) (hslop : 0 < slop) {xs ys : List Nat}
    (hx : xs.Pairwise (· < ·)) (hy : ys.Pairwise (· < ·)) :
    phraseMatches sort (cursorsOf [a, b] [xs, ys]) slop =
      some (flatPhraseMatches [a, b] [xs, ys] slop) := by
  have hcursors : cursorsOf [a, b] [xs, ys] = [⟨xs, a, 0⟩, ⟨ys, b, 0⟩] := rfl
  have hsorted : sort [⟨xs, a, 0⟩, ⟨ys, b, 0⟩] = [⟨xs, a, 0⟩, ⟨ys, b, 0⟩] := by
    -- The other order of the two is not ascending.
    rcases perm_pair.mp (hsort.perm [⟨xs, a, 0⟩, ⟨ys, b, 0⟩]) with h | h
    · exact h
    · have hord := hsort.ordered [⟨xs, a, 0⟩, ⟨ys, b, 0⟩]
      grind
  rcases phraseMatches_returns hsort (cursorsOf [a, b] [xs, ys]) slop with ⟨verdict, hverdict⟩
  have hpair := phraseRounds_pair slop (positionsLeft [⟨xs, a, 0⟩, ⟨ys, b, 0⟩] + 1)
    ⟨xs, a, 0⟩ ⟨ys, b, 0⟩ (by simpa [PositionCursor.left] using hx)
    (by simpa [PositionCursor.left] using hy) (Nat.lt_succ_self _)
  have hrounds : phraseMatches sort (cursorsOf [a, b] [xs, ys]) slop =
      phraseRounds slop (positionsLeft [⟨xs, a, 0⟩, ⟨ys, b, 0⟩] + 1)
        [⟨xs, a, 0⟩, ⟨ys, b, 0⟩] := by grind [phraseMatches]
  have hiff : verdict = true ↔ flatPhraseMatches [a, b] [xs, ys] slop = true := by
    rw [← Option.some_inj, ← hverdict, hrounds, hpair]
    unfold flatPhraseMatches
    simp only [zip_cons_cons, zip_nil_left, PositionCursor.left, drop_zero]
    by_cases hempty : xs = []
    · simp [hempty]
    · rw [if_neg (by simpa using hempty), flatFrom_iff slop a xs _ hempty]
      grind [Follows, PairFits]
  grind

/-- Without slop a phrase that stands nearer the document's start than its first
query position is found by the flat search alone. -/
theorem verdicts_differ_exact (hord : (q :: qs).Pairwise (· ≤ ·))
    (hq : ∀ p ∈ q :: qs, 0 ≤ p ∧ p < 2 ^ 30) (hpos : q ≠ 0) :
    ∃ positions : List (List Nat), positions.length = (q :: qs).length ∧
      (∀ ps ∈ positions, PositionsOk ps) ∧
      ∀ sort, phraseMatches sort (cursorsOf (q :: qs) positions) 0 ≠
        some (flatPhraseMatches (q :: qs) positions 0) := by
  have hzip : (q :: qs).zip ((q :: qs).map (fun p => [(p - q).toNat])) =
      (q :: qs).map (fun p => (p, [(p - q).toNat])) := map_prod_left_eq_zip.symm
  have hq0 := hq q (.head _)
  refine ⟨(q :: qs).map (fun p => [(p - q).toNat]), by simp, ?_, ?_⟩
  · intro ps hps
    rcases mem_map.mp hps with ⟨p, hp, rfl⟩
    have hpq := hq p hp
    refine ⟨pairwise_singleton _ _, ?_⟩
    grind
  · intro sort h
    have hflat : flatPhraseMatches (q :: qs) ((q :: qs).map (fun p => [(p - q).toNat])) 0 =
        true := by
      unfold flatPhraseMatches
      rw [hzip, map_cons]
      simp only []
      rw [if_neg (by simp), flatFrom_iff 0 q _ _ (by simp)]
      refine ⟨(q - q).toNat, mem_singleton_self _, ?_⟩
      refine follows_line 0 0 q _ q _ (le_refl q) ?_ (by omega) (by omega) ?_
      · rw [map_map]
        simpa [Function.comp_def] using hord
      · simp
    unfold phraseMatches at h
    rw [if_neg (by simp [cursorsOf]), if_pos rfl, Option.some.injEq, hflat,
      exactMatches_iff _ (by simp [cursorsOf])] at h
    · rcases h with ⟨base, hbase⟩
      have hfirst : base + q.toNat ∈ [(q - q).toNat] :=
        hbase ⟨[(q - q).toNat], q, 0⟩ (by simp [cursorsOf])
      rw [mem_singleton] at hfirst
      omega
    · grind [cursorsOf]
    · grind [cursorsOf]

/-- With slop a lone term is never looked at. -/
theorem verdicts_differ_alone (q : Int) (hslop : 0 < slop) :
    phraseMatches stableSort (cursorsOf [q] [[]]) slop ≠
      some (flatPhraseMatches [q] [[]] slop) := by
  unfold phraseMatches
  rw [if_neg (by simp [cursorsOf]), if_neg (by omega), stableSort_eq _ (by simp [cursorsOf])]
  simp [cursorsOf, phraseRounds, pairScan, flatPhraseMatches]

/-- Two terms at one query position, taken the other way round. -/
theorem verdicts_differ_tie (q : Int) (hslop : 0 < slop) :
    phraseMatches (fun cursors => stableSort cursors.reverse) (cursorsOf [q, q] [[0], [1]]) slop ≠
      some (flatPhraseMatches [q, q] [[0], [1]] slop) := by
  have hsorted : stableSort (cursorsOf [q, q] [[0], [1]]).reverse =
      [⟨[1], q, 0⟩, ⟨[0], q, 0⟩] := stableSort_eq _ (by simp [cursorsOf])
  have hflat : flatPhraseMatches [q, q] [[0], [1]] slop = true := by
    have hreach : 1 ≤ slop := hslop
    simp [flatPhraseMatches, flatFrom, hreach]
  intro h
  unfold phraseMatches at h
  beta_reduce at h
  rw [if_neg (by simp [cursorsOf]), if_neg (by omega), hsorted, hflat,
    phraseRounds_pair slop _ _ _ (by simp [PositionCursor.left]) (by simp [PositionCursor.left])
      (Nat.lt_succ_of_le (Nat.le_of_eq (by rfl)))] at h
  grind [PositionCursor.left, PairFits]

/-- With slop and three terms or more: every term but the last on one line, the
last on the line and once before it. The flat search finds the line; the first
round passes the first term's only position. -/
theorem verdicts_differ_row (q last : Int) {middle : List Int} (hslop : 0 < slop)
    (hne : middle ≠ []) (hord : (q :: (middle ++ [last])).Pairwise (· ≤ ·))
    (hq : ∀ p ∈ q :: (middle ++ [last]), 0 ≤ p ∧ p < 2 ^ 30) :
    ∃ positions : List (List Nat), positions.length = (q :: (middle ++ [last])).length ∧
      (∀ ps ∈ positions, PositionsOk ps) ∧
      phraseMatches stableSort (cursorsOf (q :: (middle ++ [last])) positions) slop ≠
        some (flatPhraseMatches (q :: (middle ++ [last])) positions slop) := by
  -- The line runs through the first query position, or one past it where there is no room
  -- before the last term.
  rcases (⟨if q < last then 0 else 1, by split <;> omega, by split <;> omega⟩ :
    ∃ e : Nat, e ≤ 1 ∧ (q < last ∧ e = 0 ∨ last ≤ q ∧ e = 1)) with ⟨e, he, hcase⟩
  have hord' := pairwise_cons.mp hord
  have hlast : q ≤ last := hord'.1 last (by simp)
  have hmiddle : ∀ p ∈ middle, q ≤ p ∧ p ≤ last := by grind
  have hq0 := hq q (.head _)
  have hqlast := hq last (by simp)
  generalize hx : (last - q).toNat + e - 1 = x
  have hxe : x + 1 = (last - q).toNat + e := by omega
  have hzip : (q :: (middle ++ [last])).zip
      ([0] :: (middle.map (fun p => [(p - q).toNat + e]) ++ [[x, x + 1]])) =
      (q, [0]) :: (middle.map (fun p => (p, [(p - q).toNat + e])) ++ [(last, [x, x + 1])]) := by
    rw [zip_cons_cons, zip_append (by simp), ← map_prod_left_eq_zip]
    rfl
  refine ⟨[0] :: (middle.map (fun p => [(p - q).toNat + e]) ++ [[x, x + 1]]), by simp, ?_, ?_⟩
  · intro ps hps
    simp only [mem_cons, mem_append, mem_map, not_mem_nil, or_false] at hps
    rcases hps with rfl | ⟨p, hp, rfl⟩ | rfl
    · exact ⟨pairwise_singleton _ _, by simp⟩
    · have hpq := hmiddle p hp
      refine ⟨pairwise_singleton _ _, ?_⟩
      grind
    · refine ⟨by simp, ?_⟩
      intro v hv
      simp only [mem_cons, not_mem_nil, or_false] at hv
      omega
  · have hflat : flatPhraseMatches (q :: (middle ++ [last]))
        ([0] :: (middle.map (fun p => [(p - q).toNat + e]) ++ [[x, x + 1]])) slop = true := by
      unfold flatPhraseMatches
      rw [hzip]
      simp only []
      rw [if_neg (by simp), flatFrom_iff slop q _ _ (by simp)]
      refine ⟨0, mem_singleton_self _, ?_⟩
      refine follows_line slop e q _ q 0 (le_refl q) ?_ (by omega) (by omega) ?_
      · simpa [Function.comp_def] using hord
      · intro t ht
        simp only [mem_append, mem_map, mem_singleton] at ht
        grind
    have hcursors : cursorsOf (q :: (middle ++ [last]))
        ([0] :: (middle.map (fun p => [(p - q).toNat + e]) ++ [[x, x + 1]])) =
        ⟨[0], q, 0⟩ :: (middle.map (fun p => ⟨[(p - q).toNat + e], p, 0⟩) ++
          [⟨[x, x + 1], last, 0⟩]) := by
      unfold cursorsOf
      rw [hzip]
      simp [Function.comp_def]
    have hrelative : ∀ c ∈ middle.map (fun p => (⟨[(p - q).toNat + e], p, 0⟩ : PositionCursor)),
        c.relative = some ((e : Int) - q) := by
      intro c hc
      rcases mem_map.mp hc with ⟨p, hp, rfl⟩
      have hpq := hmiddle p hp
      refine (relative_eq_some _ _).mpr ⟨(p - q).toNat + e, [], rfl, ?_⟩
      simp only []
      omega
    have hlastRelative : (⟨[x, x + 1], last, 0⟩ : PositionCursor).relative =
        some ((e : Int) - q - 1) := by
      refine (relative_eq_some _ _).mpr ⟨x, [x + 1], rfl, ?_⟩
      simp only []
      omega
    cases middle with
    | nil => exact absurd rfl hne
    | cons m ms =>
      have hfirst : (⟨[0], q, 0⟩ : PositionCursor).relative = some (((0 : Nat) : Int) - q) := rfl
      have hsecond := hrelative _ (mem_cons_self)
      have hscan : ∃ furthest, pairScan slop (cursorsOf (q :: (m :: ms ++ [last]))
          ([0] :: ((m :: ms).map (fun p => [(p - q).toNat + e]) ++ [[x, x + 1]]))) none =
          some (furthest, false) := by
        rw [hcursors, map_cons, cons_append, pairScan, hfirst, hsecond]
        simp only []
        rw [if_pos (by omega)]
        exact pairScan_row (by omega) hlastRelative _ _ (cons_ne_nil _ _) hrelative
      rcases hscan with ⟨furthest, hscan⟩
      have hpositive : 1 ≤ positionsLeft (cursorsOf (q :: (m :: ms ++ [last]))
          ([0] :: ((m :: ms).map (fun p => [(p - q).toNat + e]) ++ [[x, x + 1]]))) := by
        rw [hcursors]
        simp [positionsLeft, PositionCursor.left]
      rcases Nat.exists_eq_add_of_le' hpositive with ⟨fuel, hfuel⟩
      unfold phraseMatches
      rw [if_neg (by simp [cursorsOf]), if_neg (by omega), hflat,
        stableSort_eq _ (cursorsOf_ordered _ _ hord), hfuel]
      rw [hcursors] at hscan ⊢
      rw [map_cons, cons_append] at hscan ⊢
      rw [phraseRounds_leaps fuel rfl hsecond (by simp only []; omega) hscan]
      simp

/-- A phrase query gives the same verdict on every document whether or not it is
indexed exactly when it has no term, or has no slop and starts at query position
0, or has slop and two terms at different query positions. -/
theorem phrase_verdicts_agree_iff (queryPositions : List Int) (slop : Nat)
    (hord : queryPositions.Pairwise (· ≤ ·))
    (hq : ∀ q ∈ queryPositions, 0 ≤ q ∧ q < 2 ^ 30) :
    (∀ sort, OrdersByPosition sort → ∀ positions : List (List Nat),
      positions.length = queryPositions.length → (∀ ps ∈ positions, PositionsOk ps) →
      phraseMatches sort (cursorsOf queryPositions positions) slop =
        some (flatPhraseMatches queryPositions positions slop)) ↔
      SameOnEveryDocument queryPositions slop := by
  constructor
  · intro hsame
    cases queryPositions with
    | nil => exact .inl rfl
    | cons q qs =>
      by_cases hzero : slop = 0
      · subst hzero
        refine .inr (.inl ⟨rfl, ?_⟩)
        by_contra hhead
        have hpos : q ≠ 0 := by simpa using hhead
        rcases verdicts_differ_exact hord hq hpos with ⟨positions, hlen, hok, hdiffer⟩
        exact hdiffer stableSort (hsame stableSort stableSort_orders positions hlen hok)
      · have hslop : 0 < slop := Nat.pos_of_ne_zero hzero
        refine .inr (.inr ⟨hslop, ?_⟩)
        -- Two terms at different positions are what is left once one, two at one position and
        -- three or more are seen to differ.
        rcases eq_nil_or_concat qs with rfl | ⟨middle, last, rfl⟩
        · refine absurd (hsame stableSort stableSort_orders [[]] rfl ?_)
            (verdicts_differ_alone q hslop)
          simp [PositionsOk]
        · by_cases hmiddle : middle = []
          · subst hmiddle
            refine ⟨q, last, ?_, rfl⟩
            by_contra hge
            have hle : q ≤ last := (pairwise_cons.mp hord).1 last (by simp)
            have heq : last = q := by omega
            subst heq
            refine absurd (hsame _ reverseSort_orders [[0], [1]] rfl ?_)
              (verdicts_differ_tie last hslop)
            simp [PositionsOk]
          · rcases verdicts_differ_row q last hslop hmiddle
              (by simpa using hord) (by simpa using hq) with ⟨positions, hlen, hok, hdiffer⟩
            refine absurd
              (hsame stableSort stableSort_orders positions (by simpa using hlen) hok) ?_
            simpa using hdiffer
  · rintro (rfl | ⟨rfl, hhead⟩ | ⟨hslop, a, b, hab, rfl⟩) sort hsort positions hlen hok
    · rfl
    · cases queryPositions with
      | nil => exact absurd hhead (by simp)
      | cons q qs =>
        have hzero : q = 0 := by simpa using hhead
        subst hzero
        exact exact_verdicts sort hlen hord hq hok
    · rcases length_eq_two.mp hlen with ⟨xs, ys, rfl⟩
      exact pair_verdicts hsort hab hslop (hok xs (by simp)).1 (hok ys (by simp)).1

/-- The two term query of two words one apart, with a slop of one. -/
theorem phrase_verdicts_agree_twoTerms :
    (∀ sort, OrdersByPosition sort → ∀ positions : List (List Nat),
      positions.length = [(0 : Int), 1].length → (∀ ps ∈ positions, PositionsOk ps) →
      phraseMatches sort (cursorsOf [0, 1] positions) (1 : Nat) =
        some (flatPhraseMatches [0, 1] positions 1)) ↔ SameOnEveryDocument [0, 1] 1 :=
  phrase_verdicts_agree_iff [0, 1] 1 (by simp) (by simp)

/-- Three terms in a row with a slop of one: the first at 5, the second at 7, the
third at 5 and at 8. The flat search takes 5, 7, 8; the rounds ask the first
term for a position past 5 because the third stood at 5. -/
theorem phrase_verdicts_differ_threeTerms :
    OrdersByPosition stableSort ∧ (∀ ps ∈ [[5], [7], [5, 8]], PositionsOk ps) ∧
      flatPhraseMatches [0, 1, 2] [[5], [7], [5, 8]] 1 = true ∧
      phraseMatches stableSort (cursorsOf [0, 1, 2] [[5], [7], [5, 8]]) (1 : Nat) = some false := by
  refine ⟨stableSort_orders, by simp [PositionsOk], by decide, by decide⟩

end PhraseSearch

end NanoLance
