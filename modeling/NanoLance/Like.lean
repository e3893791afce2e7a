import Mathlib.Tactic.NormNum
import NanoLance.SimpleFold

/-!
# LIKE and ILIKE

A text is matched against a pattern by one loop with one place to go back to. LIKE
runs it over the bytes of both; ILIKE over the pattern's code points, decoding the
text where it stands and comparing case folds. Text and pattern are UTF-8: each is
the encoding of some characters, and what the loop decides is stated of those.

Over bytes a character takes several steps and can fail inside. That does no harm,
because a lead byte tells how long its character is: as long as the bytes agree,
both sides are at the same byte of a character of the same length.

## Main definitions

* `decode`, `equalFolded`: Characters and when they are equal.
* `Reader`, `Reader.loop`, `like`: The loop and its two uses.

## Theorems

* `like_iff`: When LIKE and ILIKE match as they are defined to.
-/

namespace NanoLance

namespace Like

open List

open Lib.Glob (Tok Matches Resume scan)

/-- The bytes of a character. -/
abbrev utf8 (c : Char) : List UInt8 := String.utf8EncodeChar c

/-! ## Characters -/

/-- The code point a text starts with and its length in bytes, of an invalid
    sequence the replacement character and one. -/
def decode : List UInt8 → Nat × Nat
  | [] => (0xFFFD, 1)
  | b0 :: rest =>
    let cont := fun k => (rest[k]?).any (fun b => b.toNat / 64 = 2)
    let c := fun k => (rest.getD k 0).toNat % 64
    let three := b0.toNat % 16 * 4096 + c 0 * 64 + c 1
    let four := b0.toNat % 8 * 262144 + c 0 * 4096 + c 1 * 64 + c 2
    if b0.toNat < 0x80 then (b0.toNat, 1)
    else if 0xC2 ≤ b0.toNat ∧ b0.toNat < 0xE0 ∧ cont 0 then (b0.toNat % 32 * 64 + c 0, 2)
    else if 0xE0 ≤ b0.toNat ∧ b0.toNat < 0xF0 ∧ cont 0 ∧ cont 1 then
      if 0x800 ≤ three ∧ (three < 0xD800 ∨ 0xDFFF < three) then (three, 3) else (0xFFFD, 1)
    else if 0xF0 ≤ b0.toNat ∧ b0.toNat < 0xF5 ∧ cont 0 ∧ cont 1 ∧ cont 2 then
      if 0x10000 ≤ four ∧ four < 0x110000 then (four, 4) else (0xFFFD, 1)
    else (0xFFFD, 1)

def equalFolded (a b : Nat) : Bool :=
  if a = b then true
  else if a < 0x80 ∧ b < 0x80 then
    decide (a ||| 0x20 = b ||| 0x20 ∧ 0x61 ≤ a ||| 0x20 ∧ a ||| 0x20 ≤ 0x7A)
  else fold a = fold b

def utf8CharLen (b : UInt8) : Nat :=
  if b.toNat < 0xC0 then 1 else if b.toNat < 0xE0 then 2 else if b.toNat < 0xF0 then 3 else 4

/-! ## The loop -/

/-- How a pattern is compared with a text: the symbols with a meaning, whether a
    symbol stands at the head of the text, and how many bytes it takes there. -/
structure Reader (π : Type) where
  percent : π
  underscore : π
  escape : π
  equal : π → List UInt8 → Bool
  literal : List UInt8 → Nat
  /-- The bytes of the character at the head. -/
  char : List UInt8 → Nat

variable {n : Nat}

section

variable {π : Type} [DecidableEq π]

namespace Reader

/-- The next symbol against the text: the pattern after it and the bytes taken. -/
def consume (rd : Reader π) (text : List UInt8) : List π → Option (List π × Nat)
  | [] => none
  | x :: p =>
    if x = rd.escape then
      match p with
      | e :: p => if rd.equal e text then some (p, rd.literal text) else none
      | [] => none
    else if x ≠ rd.percent ∧ (x = rd.underscore ∨ rd.equal x text = true) then
      some (p, if x = rd.underscore then rd.char text else rd.literal text)
    else none

theorem consume_lt {rd : Reader π} {text : List UInt8} {p rest : List π}
    (h : rd.consume text p = some (rest, n)) : rest.length < p.length := by
  unfold consume at h
  grind

/-- The pattern after the last `%`, and the text at the end of its run. -/
abbrev Mark (π : Type) := Option (List π × List UInt8)

def loop (rd : Reader π) : List π → List UInt8 → Mark π → Bool
  | p, [], _ => (p.dropWhile (· = rd.percent)).isEmpty
  | p, b :: s, mark =>
    match _h : rd.consume (b :: s) p with
    | some (rest, n) => rd.loop rest (s.drop (n - 1)) mark
    | none =>
      if _hp : p.head? = some rd.percent then rd.loop p.tail (b :: s) (some (p.tail, b :: s))
      else
        match mark with
        | some (rest, c :: m) =>
          let m' := m.drop (rd.char (c :: m) - 1)
          rd.loop rest m' (some (rest, m'))
        | _ => false
  termination_by p s mark => (max s.length (mark.elim 0 (fun x => x.2.length)), p.length)
  decreasing_by
    all_goals simp only [Prod.lex_def, length_drop, length_cons, Option.elim]
    · have := consume_lt _h
      omega
    · cases p with
      | nil => cases _hp
      | cons x p =>
        simp only [tail_cons, length_cons]
        omega
    · omega

/-- At a mismatch the last run takes one more character. -/
def fail (rd : Reader π) : Mark π → Bool
  | some (rest, c :: m) =>
    rd.loop rest (m.drop (rd.char (c :: m) - 1)) (some (rest, m.drop (rd.char (c :: m) - 1)))
  | _ => false

end Reader

end

def bytesReader : Reader UInt8 where
  percent := 0x25
  underscore := 0x5F
  escape := 0x5C
  equal := fun x text => text.head? = some x
  literal := fun _ => 1
  char := fun text =>
    let b := text.headD 0
    if 0xC0 ≤ b.toNat then min text.length (utf8CharLen b) else 1

/-- The code point at the head of a text, those of ASCII without decoding. -/
def charAt (text : List UInt8) : Nat × Nat :=
  if (text.headD 0).toNat < 0x80 then ((text.headD 0).toNat, 1) else decode text

def foldReader : Reader Nat where
  percent := 0x25
  underscore := 0x5F
  escape := 0x5C
  equal := fun x text => equalFolded x (charAt text).1
  literal := fun text => (charAt text).2
  char := fun text => (charAt text).2

/-- The code points of a pattern. -/
def points : List UInt8 → List Nat
  | [] => []
  | b :: s => (charAt (b :: s)).1 :: points (s.drop ((charAt (b :: s)).2 - 1))
  termination_by s => s.length
  decreasing_by
    rw [length_drop, length_cons]
    omega

def likeBytes (s p : List UInt8) : Bool := bytesReader.loop p s none

def like (s p : List UInt8) (foldCase : Bool) : Bool :=
  if !foldCase then likeBytes s p else foldReader.loop (points p) s none

/-! ## What the loop does -/

variable {b : UInt8} {s tail t u : List UInt8} {c d : Char} {p q : List Char}

section

variable {π : Type} [DecidableEq π] (rd : Reader π)

namespace Reader

theorem loop_cons (p : List π) (b : UInt8) (s : List UInt8) (mark : Mark π) :
    rd.loop p (b :: s) mark =
      match rd.consume (b :: s) p with
      | some (rest, n) => rd.loop rest (s.drop (n - 1)) mark
      | none =>
        if p.head? = some rd.percent then rd.loop p.tail (b :: s) (some (p.tail, b :: s))
        else rd.fail mark := by
  conv_lhs => rw [loop.eq_def]
  dsimp only
  split
  · rename_i heq
    rw [heq]
  · rename_i heq
    rw [heq]
    simp only [dite_eq_ite]
    congr 1

theorem loop_consume {p rest : List π} (mark : Mark π) (h : rd.consume (b :: s) p = some (rest, n)) :
    rd.loop p (b :: s) mark = rd.loop rest (s.drop (n - 1)) mark := by
  rw [loop_cons, h]

theorem loop_fail {p : List π} (mark : Mark π) (h : rd.consume (b :: s) p = none)
    (hp : p.head? ≠ some rd.percent) :
    rd.loop p (b :: s) mark = rd.fail mark := by
  rw [loop_cons, h]
  exact if_neg hp

theorem loop_percent (p : List π) (b : UInt8) (s : List UInt8) (mark : Mark π)
    (hne : rd.percent ≠ rd.escape) :
    rd.loop (rd.percent :: p) (b :: s) mark = rd.loop p (b :: s) (some (p, b :: s)) := by
  have h : rd.consume (b :: s) (rd.percent :: p) = none := by simp [consume, hne]
  rw [loop_cons, h]
  exact if_pos rfl

end Reader

end

/-! ## Decoding -/

theorem toNat_ofNat_lt (n : Nat) (h : n < 256) : (UInt8.ofNat n).toNat = n := by
  rw [UInt8.toNat_ofNat', Nat.mod_eq_of_lt h]

theorem scalar (c : Char) :
    c.val.toNat < 0xD800 ∨ (0xDFFF < c.val.toNat ∧ c.val.toNat < 0x110000) := c.valid

/-- The four shapes of a character. -/
theorem utf8_cases (c : Char) :
    (c.val.toNat < 0x80 ∧ utf8 c = [UInt8.ofNat c.val.toNat]) ∨
    (0x80 ≤ c.val.toNat ∧ c.val.toNat < 0x800 ∧
      utf8 c = [UInt8.ofNat (c.val.toNat / 64 + 192), UInt8.ofNat (c.val.toNat % 64 + 128)]) ∨
    (0x800 ≤ c.val.toNat ∧ c.val.toNat < 0x10000 ∧
      utf8 c = [UInt8.ofNat (c.val.toNat / 4096 + 224), UInt8.ofNat (c.val.toNat / 64 % 64 + 128),
        UInt8.ofNat (c.val.toNat % 64 + 128)]) ∨
    (0x10000 ≤ c.val.toNat ∧
      utf8 c = [UInt8.ofNat (c.val.toNat / 262144 + 240),
        UInt8.ofNat (c.val.toNat / 4096 % 64 + 128), UInt8.ofNat (c.val.toNat / 64 % 64 + 128),
        UInt8.ofNat (c.val.toNat % 64 + 128)]) := by
  have hscalar := scalar c
  simp only [utf8, String.utf8EncodeChar]
  generalize c.val.toNat = v at *
  by_cases h1 : v ≤ 127
  · exact .inl ⟨by omega, by rw [if_pos h1]⟩
  by_cases h2 : v ≤ 2047
  · grind
  grind

/-- **Decoding gives the character back.** -/
theorem decode_char (c : Char) (s : List UInt8) :
    decode (utf8 c ++ s) = (c.val.toNat, (utf8 c).length) := by
  have hscalar := scalar c
  rcases utf8_cases c with ⟨h, hc⟩ | ⟨hl, hh, hc⟩ | ⟨hl, hh, hc⟩ | ⟨hl, hc⟩ <;> rw [hc] <;>
    generalize c.val.toNat = v at *
  · have hb0 := toNat_ofNat_lt v (by omega)
    simp [decode, hb0, h]
  · have hb0 := toNat_ofNat_lt (v / 64 + 192) (by omega)
    have hb1 := toNat_ofNat_lt (v % 64 + 128) (by omega)
    simp only [decode, cons_append, nil_append, hb0, hb1, getElem?_cons_zero,
      getD_cons_zero, Option.any_some, decide_eq_true_eq, length_cons, length_nil]
    grind
  · have hb0 := toNat_ofNat_lt (v / 4096 + 224) (by omega)
    have hb1 := toNat_ofNat_lt (v / 64 % 64 + 128) (by omega)
    have hb2 := toNat_ofNat_lt (v % 64 + 128) (by omega)
    simp only [decode, cons_append, nil_append, hb0, hb1, hb2, getElem?_cons_zero,
      getElem?_cons_succ, getD_cons_zero, getD_cons_succ, Option.any_some,
      decide_eq_true_eq, length_cons, length_nil]
    grind
  · have hb0 := toNat_ofNat_lt (v / 262144 + 240) (by omega)
    have hb1 := toNat_ofNat_lt (v / 4096 % 64 + 128) (by omega)
    have hb2 := toNat_ofNat_lt (v / 64 % 64 + 128) (by omega)
    have hb3 := toNat_ofNat_lt (v % 64 + 128) (by omega)
    simp only [decode, cons_append, nil_append, hb0, hb1, hb2, hb3,
      getElem?_cons_zero, getElem?_cons_succ, getD_cons_zero, getD_cons_succ,
      Option.any_some, decide_eq_true_eq, length_cons, length_nil]
    grind

theorem utf8_injective (h : utf8 c = utf8 d) : c = d := by
  have hc := decode_char c []
  rw [h, decode_char d []] at hc
  exact Char.ext (UInt32.toNat_inj.mp (congrArg Prod.fst hc).symm)

/-- A character: a lead byte, which tells how many bytes follow it, and those. -/
structure Lead (c : Char) (b : UInt8) (tail : List UInt8) : Prop where
  bytes : utf8 c = b :: tail
  length : utf8CharLen b = tail.length + 1
  tail : ∀ t ∈ tail, 128 ≤ t.toNat
  lead : b.toNat < 128 ∨ 192 ≤ b.toNat
  ascii : b.toNat < 128 → c.val.toNat = b.toNat

theorem tail_byte (n : Nat) : 128 ≤ (UInt8.ofNat (n % 64 + 128)).toNat := by
  rw [toNat_ofNat_lt _ (by omega)]
  omega

theorem exists_lead (c : Char) : ∃ b tail, Lead c b tail := by
  have hscalar := scalar c
  rcases utf8_cases c with ⟨h, hc⟩ | ⟨hl, hh, hc⟩ | ⟨hl, hh, hc⟩ | ⟨hl, hc⟩
  · have hb := toNat_ofNat_lt c.val.toNat (by omega)
    exact ⟨_, _, hc, by rw [utf8CharLen, hb, if_pos (by omega)]; rfl, by simp, by omega, by omega⟩
  · have hb := toNat_ofNat_lt (c.val.toNat / 64 + 192) (by omega)
    refine ⟨_, _, hc, ?_, ?_, by omega, by omega⟩
    · grind [utf8CharLen]
    · exact forall_mem_cons.mpr ⟨tail_byte _, by simp⟩
  · have hb := toNat_ofNat_lt (c.val.toNat / 4096 + 224) (by omega)
    refine ⟨_, _, hc, ?_, ?_, by omega, by omega⟩
    · grind [utf8CharLen]
    · exact forall_mem_cons.mpr ⟨tail_byte _, forall_mem_cons.mpr ⟨tail_byte _, by simp⟩⟩
  · have hb := toNat_ofNat_lt (c.val.toNat / 262144 + 240) (by omega)
    refine ⟨_, _, hc, ?_, ?_, by omega, by omega⟩
    · grind [utf8CharLen]
    · exact forall_mem_cons.mpr ⟨tail_byte _, forall_mem_cons.mpr
        ⟨tail_byte _, forall_mem_cons.mpr ⟨tail_byte _, by simp⟩⟩⟩

/-! ## The pattern -/

/-- The pattern as the definition of LIKE has it; none with a `\\` at the end. -/
def tokens : List Char → Option (List (Tok Char))
  | [] => some []
  | c :: p =>
    if c = '%' then (tokens p).map (Tok.any :: ·)
    else if c = '_' then (tokens p).map (Tok.one :: ·)
    else if c = '\\' then
      match p with
      | [] => none
      | d :: p => (tokens p).map (Tok.lit d :: ·)
    else (tokens p).map (Tok.lit c :: ·)

/-- A character that stands for itself. -/
def Plain (c : Char) : Prop := c ≠ '%' ∧ c ≠ '_' ∧ c ≠ '\\'

/-- The characters of a token. -/
def Spells (t : Tok Char) (p q : List Char) : Prop :=
  (t = .any ∧ p = '%' :: q) ∨ (t = .one ∧ p = '_' :: q) ∨
    ∃ c, t = .lit c ∧ (p = '\\' :: c :: q ∨ (Plain c ∧ p = c :: q))

theorem tokens_spell {us : List (Tok Char)} (h : tokens (c :: p) = some us) :
    ∃ q t ts, us = t :: ts ∧ tokens q = some ts ∧ Spells t (c :: p) q := by
  have hmap : ∀ (q : List Char) (t : Tok Char), (tokens q).map (t :: ·) = some us →
      Spells t (c :: p) q → ∃ q t ts, us = t :: ts ∧ tokens q = some ts ∧ Spells t (c :: p) q := by
    intro q t hq hs
    rcases Option.map_eq_some_iff.mp hq with ⟨ts, hts, rfl⟩
    exact ⟨q, t, ts, rfl, hts, hs⟩
  rw [tokens.eq_def] at h
  dsimp only at h
  by_cases h1 : c = '%'
  · rw [if_pos h1] at h
    exact hmap p _ h (.inl ⟨rfl, by rw [h1]⟩)
  by_cases h2 : c = '_'
  · rw [if_neg h1, if_pos h2] at h
    exact hmap p _ h (.inr (.inl ⟨rfl, by rw [h2]⟩))
  by_cases h3 : c = '\\'
  · rw [if_neg h1, if_neg h2, if_pos h3] at h
    cases p with
    | nil => cases h
    | cons d p => exact hmap p _ h (.inr (.inr ⟨d, rfl, .inl (by rw [h3])⟩))
  · rw [if_neg h1, if_neg h2, if_neg h3] at h
    exact hmap p _ h (.inr (.inr ⟨c, rfl, .inr ⟨⟨h1, h2, h3⟩, rfl⟩⟩))

theorem tokens_nil (h : tokens p = some []) : p = [] := by
  cases p with
  | nil => rfl
  | cons c p =>
    rcases tokens_spell h with ⟨q, t, ts, heq, -⟩
    cases heq

variable {ts : List (Tok Char)}

theorem tokens_cons {t : Tok Char} (h : tokens p = some (t :: ts)) :
    ∃ q, tokens q = some ts ∧ Spells t p q := by
  cases p with
  | nil => cases h
  | cons c p =>
    rcases tokens_spell h with ⟨q, t', ts', heq, hq, hs⟩
    cases heq
    exact ⟨q, hq, hs⟩

/-! ## The loop over characters -/

/-- The reader takes a character of the pattern, spelled with `sym`, and one of the
    text in one go. -/
structure Reads {π : Type} [DecidableEq π] (rd : Reader π) (sym : Char → List π)
    (eq : Char → Char → Bool) : Prop where
  percent : sym '%' = [rd.percent]
  underscore : sym '_' = [rd.underscore]
  escape : sym '\\' = [rd.escape]
  apart : rd.percent ≠ rd.escape ∧ rd.underscore ≠ rd.escape ∧ rd.underscore ≠ rd.percent
  char : ∀ c s, rd.char (utf8 c ++ s) = (utf8 c).length
  literal : ∀ c d p s mark, Plain c → rd.loop (sym c ++ p) (utf8 d ++ s) mark =
    if eq c d then rd.loop p s mark else rd.fail mark
  escaped : ∀ c d p s mark, rd.loop (rd.escape :: (sym c ++ p)) (utf8 d ++ s) mark =
    if eq c d then rd.loop p s mark else rd.fail mark
  first : ∀ c, sym c ≠ [] ∧ (c ≠ '%' → (sym c).head? ≠ some rd.percent)

section

variable {π : Type} [DecidableEq π] {rd : Reader π} {sym : Char → List π}
  {eq : Char → Char → Bool}

/-- The place to go back to, spelled out. -/
def Marks (sym : Char → List π) : Reader.Mark π → Resume Char Char → Prop
  | mark, none => mark = none
  | mark, some (rest, m) =>
    ∃ q, tokens q = some rest ∧ mark = some (q.flatMap sym, m.flatMap utf8)

theorem utf8_cons (c : Char) (s : List UInt8) : ∃ b tail, utf8 c ++ s = b :: (tail ++ s) ∧
    utf8 c = b :: tail := by
  rcases exists_lead c with ⟨b, tail, h⟩
  exact ⟨b, tail, by rw [h.bytes]; rfl, h.bytes⟩

/-- Going back takes one character more. -/
theorem Reads.fail_eq (h : Reads rd sym eq) (rest : List π) (c : Char) (m : List UInt8) :
    rd.fail (some (rest, utf8 c ++ m)) = rd.loop rest m (some (rest, m)) := by
  have hchar := h.char c m
  rcases utf8_cons c m with ⟨b, tail, happ, hc⟩
  rw [happ] at hchar ⊢
  rw [Reader.fail, hchar, hc]
  simp

theorem Reads.percents (h : Reads rd sym eq) (p : List Char) (ts : List (Tok Char))
    (ht : tokens p = some ts) :
    ((p.flatMap sym).dropWhile (· = rd.percent)).isEmpty = ts.all Tok.isAny := by
  induction ts generalizing p with
  | nil =>
    rw [tokens_nil ht]
    rfl
  | cons t ts ih =>
    rcases tokens_cons ht with ⟨q, hq, hcases⟩
    -- Any symbol that is no `%` stops here.
    have hstop : ∀ c p', c ≠ '%' → p = c :: p' →
        ((p.flatMap sym).dropWhile (· = rd.percent)).isEmpty = false := by
      rintro c p' hc rfl
      have hfirst := h.first c
      rw [flatMap_cons]
      cases hsym : sym c with
      | nil => exact absurd hsym hfirst.1
      | cons x rest =>
        rw [hsym] at hfirst
        have hx : x ≠ rd.percent := fun he => hfirst.2 hc (by rw [he]; rfl)
        simp [hx]
    rcases hcases with ⟨rfl, rfl⟩ | ⟨rfl, rfl⟩ | ⟨c, rfl, rfl | ⟨hplain, rfl⟩⟩
    · rw [flatMap_cons, h.percent, all_cons, Tok.isAny, Bool.true_and, ← ih q hq]
      simp
    · exact hstop _ _ (by decide) rfl
    · exact hstop _ _ (by decide) rfl
    · exact hstop _ _ hplain.1 rfl

theorem Reads.any (h : Reads rd sym eq) (hs : Spells .any p q) (c : Char) (s : List Char)
    (mark : Reader.Mark π) :
    rd.loop (p.flatMap sym) ((c :: s).flatMap utf8) mark =
      rd.loop (q.flatMap sym) ((c :: s).flatMap utf8)
        (some (q.flatMap sym, (c :: s).flatMap utf8)) := by
  rcases hs with ⟨-, rfl⟩ | ⟨hc, -⟩ | ⟨_, hc, -⟩
  · rcases utf8_cons c (s.flatMap utf8) with ⟨b, tail, happ, -⟩
    rw [flatMap_cons, flatMap_cons, h.percent, happ]
    exact rd.loop_percent _ _ _ mark h.apart.1
  · cases hc
  · cases hc

theorem Reads.one (h : Reads rd sym eq) (hs : Spells .one p q) (c : Char) (s : List Char)
    (mark : Reader.Mark π) :
    rd.loop (p.flatMap sym) ((c :: s).flatMap utf8) mark =
      rd.loop (q.flatMap sym) (s.flatMap utf8) mark := by
  rcases hs with ⟨hc, -⟩ | ⟨-, rfl⟩ | ⟨_, hc, -⟩
  · cases hc
  · have hchar := h.char c (s.flatMap utf8)
    rcases utf8_cons c (s.flatMap utf8) with ⟨b, tail, happ, hc⟩
    rw [flatMap_cons, flatMap_cons, h.underscore, happ]
    rw [happ] at hchar
    have hconsume : rd.consume (b :: (tail ++ s.flatMap utf8)) (rd.underscore :: q.flatMap sym) =
        some (q.flatMap sym, tail.length + 1) := by
      simp [Reader.consume, h.apart.2.1, h.apart.2.2, hchar, hc]
    rw [singleton_append, rd.loop_consume mark hconsume]
    simp
  · cases hc

theorem Reads.lit (h : Reads rd sym eq) {a : Char} (hs : Spells (.lit a) p q) (c : Char)
    (s : List Char) (mark : Reader.Mark π) :
    rd.loop (p.flatMap sym) ((c :: s).flatMap utf8) mark =
      if eq a c then rd.loop (q.flatMap sym) (s.flatMap utf8) mark else rd.fail mark := by
  rcases hs with ⟨hc, -⟩ | ⟨hc, -⟩ | ⟨_, hc, rfl | ⟨hplain, rfl⟩⟩
  · cases hc
  · cases hc
  · cases hc
    rw [flatMap_cons, flatMap_cons, flatMap_cons, h.escape]
    exact h.escaped _ _ _ _ mark
  · cases hc
    rw [flatMap_cons, flatMap_cons]
    exact h.literal _ _ _ _ mark hplain

theorem loop_nil (c : Char) (s : List Char) (mark : Reader.Mark π) :
    rd.loop [] ((c :: s).flatMap utf8) mark = rd.fail mark := by
  rcases utf8_cons c (s.flatMap utf8) with ⟨b, tail, happ, -⟩
  rw [flatMap_cons, happ]
  exact rd.loop_fail mark rfl (by simp)

/-- With no place to go back to a mismatch is the end. -/
theorem fail_end {mark : Reader.Mark π} {r : Resume Char Char} (hmark : Marks sym mark r)
    (hr : ∀ rest c m, r = some (rest, c :: m) → False) : rd.fail mark = false := by
  rcases r with _ | ⟨rest, _ | ⟨c, m⟩⟩
  · rw [show mark = none from hmark]
    rfl
  · rcases hmark with ⟨q, -, rfl⟩
    rfl
  · exact absurd rfl (hr rest c m)

/-- **The loop is the scan over characters.** -/
theorem Reads.simulate (h : Reads rd sym eq) (ts : List (Tok Char)) (s : List Char)
    (r : Resume Char Char) (p : List Char) (mark : Reader.Mark π) (ht : tokens p = some ts)
    (hmark : Marks sym mark r) :
    rd.loop (p.flatMap sym) (s.flatMap utf8) mark = scan eq ts s r := by
  -- By the recursion of the scan; both go back to the same place.
  induction ts, s, r using NanoLance.Lib.Glob.scan.induct eq generalizing p mark with
  | case1 ts r =>
    rw [scan, flatMap_nil, Reader.loop]
    exact h.percents p ts ht
  | case2 ts c s r ih =>
    rcases tokens_cons ht with ⟨q, hq, hs⟩
    rw [h.any hs, scan, ih q _ hq ⟨q, hq, rfl⟩]
  | case3 ts c s r ih =>
    rcases tokens_cons ht with ⟨q, hq, hs⟩
    rw [h.one hs, scan, ih q mark hq hmark]
  | case4 a ts c s r heq ih =>
    rcases tokens_cons ht with ⟨q, hq, hs⟩
    rw [h.lit hs, if_pos heq, ih q mark hq hmark]
    conv_rhs => rw [scan.eq_def]
    simp [heq]
  | case5 a ts c s hne rest d m ih =>
    rcases tokens_cons ht with ⟨q, hq, hs⟩
    rcases hmark with ⟨back, hback, rfl⟩
    rw [h.lit hs, if_neg hne, flatMap_cons, h.fail_eq, ih back _ hback ⟨back, hback, rfl⟩]
    simp [scan, hne]
  | case6 a ts c s r hne hr =>
    rcases tokens_cons ht with ⟨q, hq, hs⟩
    rw [h.lit hs, if_neg hne, fail_end hmark hr]
    simp [scan, hne]
  | case7 c s rest d m ih =>
    rcases hmark with ⟨back, hback, rfl⟩
    rw [tokens_nil ht, flatMap_nil, loop_nil, flatMap_cons, h.fail_eq,
      ih back _ hback ⟨back, hback, rfl⟩, scan]
  | case8 c s r hr =>
    rw [tokens_nil ht, flatMap_nil, loop_nil, fail_end hmark hr]
    simp only [scan]

/-- What the loop decides. -/
theorem Reads.loop_iff (h : Reads rd sym eq) (p s : List Char) (ts : List (Tok Char))
    (ht : tokens p = some ts) :
    rd.loop (p.flatMap sym) (s.flatMap utf8) none = true ↔ Matches eq ts s := by
  rw [h.simulate ts s none p none ht rfl, Lib.Glob.scan_iff]

end

/-! ## Bytes -/

/-- Bytes inside characters stand for themselves. -/
theorem bytes_apart (x : UInt8) (h : 128 ≤ x.toNat) : x ≠ 0x25 ∧ x ≠ 0x5F ∧ x ≠ 0x5C := by
  refine ⟨?_, ?_, ?_⟩ <;> rintro rfl <;> exact absurd h (by decide)

theorem consume_byte {x y : UInt8} (h : x ≠ 0x25 ∧ x ≠ 0x5F ∧ x ≠ 0x5C) (s p : List UInt8) :
    bytesReader.consume (y :: s) (x :: p) = if y = x then some (p, 1) else none := by
  unfold bytesReader Reader.consume
  simp [h.1, h.2.1, h.2.2]

/-- Two runs of bytes of one length that stand for themselves. -/
theorem loop_tail (t u p s : List UInt8) (mark : Reader.Mark UInt8) (hlen : t.length = u.length)
    (h : ∀ x ∈ t, x ≠ 0x25 ∧ x ≠ 0x5F ∧ x ≠ 0x5C) : bytesReader.loop (t ++ p) (u ++ s) mark =
      if t = u then bytesReader.loop p s mark else bytesReader.fail mark := by
  induction t generalizing u with
  | nil => grind
  | cons x t ih =>
    cases u with
    | nil => cases hlen
    | cons y u =>
      have hx := h x (.head _)
      have hconsume := consume_byte (y := y) hx (u ++ s) (t ++ p)
      by_cases heq : y = x
      · rw [if_pos heq] at hconsume
        rw [cons_append, cons_append, bytesReader.loop_consume mark hconsume,
          drop_zero, ih u (by simpa using hlen) (fun z hz => h z (.tail _ hz))]
        simp [heq]
      · rw [if_neg heq] at hconsume
        rw [cons_append, cons_append, bytesReader.loop_fail mark hconsume]
        · rw [if_neg (fun hc => heq (cons.inj hc).1.symm)]
        · exact fun hc => hx.1 (Option.some.inj hc)

theorem char_ext (h : c.val.toNat = d.val.toNat) : c = d :=
  Char.ext (UInt32.toNat_inj.mp h)

/-- A lead byte with a meaning is the character with it. -/
theorem Lead.special {k : Char} (h : Lead c b tail) (hk : k.val.toNat < 128)
    (hb : b.toNat = k.val.toNat) : c = k :=
  char_ext ((h.ascii (by omega)).trans hb)

theorem Lead.plain (h : Lead c b tail) (hplain : Plain c) : b ≠ 0x25 ∧ b ≠ 0x5F ∧ b ≠ 0x5C := by
  refine ⟨?_, ?_, ?_⟩
  · rintro rfl
    exact hplain.1 (h.special (by decide) rfl)
  · rintro rfl
    exact hplain.2.1 (h.special (by decide) rfl)
  · rintro rfl
    exact hplain.2.2 (h.special (by decide) rfl)

/-- After the lead bytes agree, the rest of two characters. -/
theorem loop_after (hc : Lead c b t) (hd : Lead d b u) (p s : List UInt8) (mark : Reader.Mark UInt8) :
    bytesReader.loop (t ++ p) (u ++ s) mark =
      if decide (c = d) then bytesReader.loop p s mark else bytesReader.fail mark := by
  have hlen : t.length = u.length := by
    have h₁ := hc.length
    have h₂ := hd.length
    omega
  rw [loop_tail t u p s mark hlen (fun x hx => bytes_apart x (hc.tail x hx))]
  have hiff : t = u ↔ c = d := by
    constructor
    · rintro rfl
      exact utf8_injective (hc.bytes.trans hd.bytes.symm)
    · rintro rfl
      exact (cons.inj (hc.bytes.symm.trans hd.bytes)).2
  simp [hiff]

/-- Lead bytes that differ are of different characters. -/
theorem Lead.differ {b' : UInt8} (hc : Lead c b t) (hd : Lead d b' u) (hne : b' ≠ b) : c ≠ d := by
  rintro rfl
  exact hne (cons.inj (hd.bytes.symm.trans hc.bytes)).1

theorem reads_bytes : Reads bytesReader utf8 (fun c d => decide (c = d)) where
  percent := by decide
  underscore := by decide
  escape := by decide
  apart := by decide
  char := by
    intro c s
    rcases exists_lead c with ⟨b, tail, h⟩
    have hlen := h.length
    rw [h.bytes]
    simp only [bytesReader, cons_append, headD_cons, length_cons, length_append, hlen]
    rcases h.lead with hlow | hhigh
    · grind [utf8CharLen]
    · rw [if_pos hhigh]
      omega
  literal := by
    intro c d p s mark hplain
    rcases exists_lead c with ⟨b, t, hc⟩
    rcases exists_lead d with ⟨b', u, hd⟩
    have hb := hc.plain hplain
    have hconsume := consume_byte (y := b') hb (u ++ s) (t ++ p)
    rw [hc.bytes, hd.bytes, cons_append, cons_append]
    by_cases heq : b' = b
    · subst heq
      rw [if_pos rfl] at hconsume
      rw [bytesReader.loop_consume mark hconsume]
      exact loop_after hc hd p s mark
    · rw [if_neg heq] at hconsume
      rw [bytesReader.loop_fail mark hconsume (fun hx => hb.1 (Option.some.inj hx))]
      simp [hc.differ hd heq]
  escaped := by
    intro c d p s mark
    rcases exists_lead c with ⟨b, t, hc⟩
    rcases exists_lead d with ⟨b', u, hd⟩
    have hconsume : bytesReader.consume (b' :: (u ++ s)) (bytesReader.escape :: b :: (t ++ p)) =
        if b' = b then some (t ++ p, 1) else none := by
      simp [bytesReader, Reader.consume]
    rw [hc.bytes, hd.bytes, cons_append, cons_append]
    by_cases heq : b' = b
    · subst heq
      rw [if_pos rfl] at hconsume
      rw [bytesReader.loop_consume mark hconsume]
      exact loop_after hc hd p s mark
    · rw [if_neg heq] at hconsume
      rw [bytesReader.loop_fail mark hconsume (by simp [bytesReader])]
      simp [hc.differ hd heq]
  first := by
    intro c
    rcases exists_lead c with ⟨b, t, hc⟩
    rw [hc.bytes]
    refine ⟨cons_ne_nil b t, fun hne hx => hne ?_⟩
    cases hx
    exact hc.special (by decide) rfl

/-! ## Code points -/

/-- Letters of ASCII differ in one bit from their other case. -/
theorem ascii_fold : ∀ a < 128, ∀ b < 128, a ≠ b →
    ((a ||| 0x20 = b ||| 0x20 ∧ 0x61 ≤ a ||| 0x20 ∧ a ||| 0x20 ≤ 0x7A) ↔
      (if 0x41 ≤ a ∧ a ≤ 0x5A then a - 0x41 + 0x61 else a) =
        if 0x41 ≤ b ∧ b ≤ 0x5A then b - 0x41 + 0x61 else b) := by
  decide +kernel

theorem equalFolded_eq (a b : Nat) : equalFolded a b = decide (fold a = fold b) := by
  unfold equalFolded
  by_cases heq : a = b
  · simp [heq]
  rw [if_neg heq]
  by_cases hascii : a < 0x80 ∧ b < 0x80
  · rw [if_pos hascii]
    simp only [fold, if_pos hascii.1, if_pos hascii.2]
    exact decide_eq_decide.mpr (ascii_fold a hascii.1 b hascii.2 heq)
  · rw [if_neg hascii]

theorem charAt_char (c : Char) (s : List UInt8) :
    charAt (utf8 c ++ s) = (c.val.toNat, (utf8 c).length) := by
  have hdecode := decode_char c s
  rcases utf8_cons c s with ⟨b, tail, happ, -⟩
  grind [charAt, decode]

theorem points_chars (p : List Char) :
    points (p.flatMap utf8) = p.flatMap (fun c => [c.val.toNat]) := by
  induction p with
  | nil => rw [flatMap_nil, points, flatMap_nil]
  | cons c p ih =>
    have hchar := charAt_char c (p.flatMap utf8)
    rcases utf8_cons c (p.flatMap utf8) with ⟨b, tail, happ, hc⟩
    rw [flatMap_cons, happ, points, ← happ, hchar, hc, length_cons, Nat.add_sub_cancel,
      drop_left, ih]
    rfl

theorem plain_points (h : Plain c) :
    c.val.toNat ≠ 0x25 ∧ c.val.toNat ≠ 0x5F ∧ c.val.toNat ≠ 0x5C :=
  ⟨fun hc => h.1 (char_ext (d := '%') hc), fun hc => h.2.1 (char_ext (d := '_') hc),
    fun hc => h.2.2 (char_ext (d := '\\') hc)⟩

/-- A symbol and a character, as the reader of code points takes them. -/
theorem loop_point {p q : List Nat} (mark : Reader.Mark Nat) {equal : Bool}
    (hp : p.head? ≠ some 0x25)
    (h : foldReader.consume (utf8 d ++ s) p = if equal then some (q, (utf8 d).length) else none) :
    foldReader.loop p (utf8 d ++ s) mark =
      if equal then foldReader.loop q s mark else foldReader.fail mark := by
  rcases utf8_cons d s with ⟨b, tail, happ, hd⟩
  rw [happ] at h ⊢
  cases equal with
  | true =>
    rw [foldReader.loop_consume mark h, hd]
    simp
  | false => exact foldReader.loop_fail mark h hp

theorem reads_points : Reads foldReader (fun c => [c.val.toNat])
    (fun c d => decide (fold c.val.toNat = fold d.val.toNat)) where
  percent := rfl
  underscore := rfl
  escape := rfl
  apart := by simp [foldReader]
  char := fun c s => congrArg Prod.snd (charAt_char c s)
  literal := by
    intro c d p s mark hplain
    have hc : c.toNat ≠ 0x25 ∧ c.toNat ≠ 0x5F ∧ c.toNat ≠ 0x5C := plain_points hplain
    refine loop_point mark (fun hx => hc.1 (Option.some.inj hx)) ?_
    simp [foldReader, Reader.consume, hc, charAt_char, equalFolded_eq]
  escaped := by
    intro c d p s mark
    refine loop_point mark (by simp [foldReader]) ?_
    simp [foldReader, Reader.consume, charAt_char, equalFolded_eq]
  first := by
    intro c
    refine ⟨cons_ne_nil _ _, fun hne hx => hne ?_⟩
    exact char_ext (Option.some.inj hx)

/-! ## LIKE -/

/-- When a character of the pattern and one of the text are equal. -/
def equalChars (foldCase : Bool) (c d : Char) : Bool :=
  if foldCase then unicodeFold c.val.toNat = unicodeFold d.val.toNat else c = d

/-- Equal, or the dotless i and an i. -/
def equalOrDotless (c d : Char) : Bool := equalChars true c d || dotless c.val.toNat d.val.toNat

/-- There is a match, but only one that takes the dotless i for an i. -/
def OnlyDotless (ts : List (Tok Char)) (text : List Char) : Prop :=
  Matches equalOrDotless ts text ∧ ¬Matches (equalChars true) ts text

/-- No I or i is compared with a dotless i. -/
def Apart (pattern text : List Char) : Prop :=
  ∀ c ∈ pattern, ∀ d ∈ text, dotless c.val.toNat d.val.toNat = false

theorem ilike_iff {text pattern : List Char} (h : tokens pattern = some ts) :
    like (text.flatMap utf8) (pattern.flatMap utf8) true = true ↔
      Matches equalOrDotless ts text := by
  have heq : (fun c d : Char => decide (fold c.val.toNat = fold d.val.toNat)) =
      equalOrDotless := by
    funext c d
    simp [equalOrDotless, equalChars, fold_eq_iff]
  rw [like, points_chars, ← heq]
  exact reads_points.loop_iff pattern text ts h

/-- The literals of a pattern are its characters. -/
theorem tokens_lit (h : tokens p = some ts) (hc : Tok.lit c ∈ ts) : c ∈ p := by
  induction ts generalizing p with
  | nil => cases hc
  | cons t ts ih =>
    rcases tokens_cons h with ⟨q, hq, hs⟩
    rcases mem_cons.mp hc with rfl | hc
    · rcases hs with ⟨hs, -⟩ | ⟨hs, -⟩ | ⟨d, hs, rfl | ⟨-, rfl⟩⟩ <;> cases hs <;> simp
    · have hmem := ih hq hc
      rcases hs with ⟨-, rfl⟩ | ⟨-, rfl⟩ | ⟨d, -, rfl | ⟨-, rfl⟩⟩ <;> simp [hmem]

/-- **LIKE and ILIKE match as they are defined to**: the text can be split so that
    each `%` takes any run of characters, each `_` one, and every other character
    of the pattern one that is equal. ILIKE does so if and only if no match rests on
    the dotless i, as when it is never compared with an i. -/
theorem like_iff (foldCase : Bool) (text pattern : List Char) (ts : List (Tok Char))
    (h : tokens pattern = some ts) :
    ((like (text.flatMap utf8) (pattern.flatMap utf8) foldCase = true ↔
        Matches (equalChars foldCase) ts text) ↔
      ¬(foldCase = true ∧ OnlyDotless ts text)) ∧
    (Apart pattern text → ¬OnlyDotless ts text) := by
  have hmono : Matches (equalChars true) ts text → Matches equalOrDotless ts text :=
    fun hmatch => hmatch.imp (fun c d _ _ heq => by simp [equalOrDotless, heq])
  refine ⟨?_, fun hapart hdotless => hdotless.2 (hdotless.1.imp (fun c d hc hd heq => ?_))⟩
  · cases foldCase with
    | false => exact iff_of_true (reads_bytes.loop_iff pattern text ts h) (by simp)
    | true =>
      rw [ilike_iff h, OnlyDotless]
      tauto
  · rwa [equalOrDotless, hapart c (tokens_lit h hc) d hd, Bool.or_false] at heq

theorem like_iff_accent :
    like (['é', 'ı'].flatMap utf8) (['É', '_', '%'].flatMap utf8) true = true := by
  have hlike := like_iff true ['é', 'ı'] ['É', '_', '%'] _ rfl
  have hapart : Apart ['É', '_', '%'] ['é', 'ı'] := by
    simp only [Apart, mem_cons, not_mem_nil, or_false, forall_eq_or_imp, forall_eq]
    decide
  refine (hlike.1.mpr (fun h => hlike.2 hapart h.2)).mpr ?_
  exact .lit _ _ _ _ (by decide +kernel) (.one _ _ _ (.any [] _ _ .nil))

/-- The dotless i is ILIKE an i, though their simple case folds differ. -/
theorem ilike_takes_dotless :
    like (['ı'].flatMap utf8) (['i'].flatMap utf8) true = true ∧
      tokens ['i'] = some [.lit 'i'] ∧ ¬Matches (equalChars true) [.lit 'i'] ['ı'] := by
  refine ⟨(ilike_iff rfl).mpr (.lit _ _ _ _ (by decide) .nil), rfl, fun h => ?_⟩
  cases h with
  | lit _ _ _ _ heq _ => exact absurd heq (by decide)

end Like

end NanoLance
