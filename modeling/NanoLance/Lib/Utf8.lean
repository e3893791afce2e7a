import Mathlib.Algebra.Order.Ring.Int
import Mathlib.Data.List.Basic

/-!
# Characters of a UTF-8 Text

A text is a sequence of characters, each a lead byte that tells its width and
the continuation bytes after it. No continuation byte is a lead byte, so a text
inside another starts and ends between characters of it, wherever it is found:
what stands before and after it are texts, too.

Only widths are looked at. Every valid UTF-8 text is a `Text`; so are sequences
that are not, such as the three bytes of a surrogate.
-/

namespace NanoLance

namespace Lib

namespace Utf8

open List

/-- A continuation byte. -/
def isTail (b : UInt8) : Bool := 0x80 ≤ b && b < 0xC0

/-- The width of the character a byte leads, 0 when it leads none. -/
def width (b : UInt8) : Nat :=
  if b < 0x80 then 1
  else if 0xC2 ≤ b && b < 0xE0 then 2
  else if 0xE0 ≤ b && b < 0xF0 then 3
  else if 0xF0 ≤ b && b < 0xF5 then 4
  else 0

/-- A lead byte and its continuation bytes. -/
def IsChar : List UInt8 → Prop
  | [] => False
  | b :: tail => width b = tail.length + 1 ∧ ∀ t ∈ tail, isTail t = true

/-- A sequence of characters. -/
def Text (s : List UInt8) : Prop :=
  ∃ chars : List (List UInt8), (∀ c ∈ chars, IsChar c) ∧ s = chars.flatten

theorem isTail_iff (b : UInt8) : isTail b = true ↔ 128 ≤ b.toNat ∧ b.toNat < 192 := by
  simp [isTail, UInt8.le_iff_toNat_le, UInt8.lt_iff_toNat_lt]

variable {b : UInt8} {a c s : List UInt8}

/-- A continuation byte leads no character. -/
theorem width_of_isTail (h : isTail b = true) : width b = 0 := by
  rcases (isTail_iff b).mp h with ⟨hlow, hhigh⟩
  grind [width, UInt8.le_iff_toNat_le, UInt8.lt_iff_toNat_lt]

theorem Text.nil : Text [] := ⟨[], fun c hc => absurd hc List.not_mem_nil, rfl⟩

theorem Text.append {b : List UInt8} (ha : Text a) (hb : Text b) : Text (a ++ b) := by
  rcases ha with ⟨as, has, rfl⟩
  rcases hb with ⟨bs, hbs, rfl⟩
  refine ⟨as ++ bs, fun c hc => ?_, flatten_append.symm⟩
  grind

theorem IsChar.text (h : IsChar c) : Text c := by
  refine ⟨[c], fun d hd => ?_, by rw [flatten_cons, flatten_nil, append_nil]⟩
  rw [mem_singleton.mp hd]
  exact h

theorem Text.flatMap {chars : List (List UInt8)} (f : List UInt8 → List UInt8)
    (h : ∀ c ∈ chars, Text (f c)) : Text (chars.flatMap f) := by
  induction chars with
  | nil => exact Text.nil
  | cons c chars ih =>
    rw [flatMap_cons]
    exact (h c (.head _)).append (ih (fun d hd => h d (.tail _ hd)))

/-- A text that is not empty starts with a lead byte. -/
theorem Text.lead (h : Text (b :: s)) : isTail b = false := by
  rcases h with ⟨chars, hchars, heq⟩
  cases hb : isTail b with
  | false => rfl
  | true =>
    cases chars with
    | nil => cases heq
    | cons c chars =>
      have hc := hchars c (.head _)
      cases c with
      | nil => exact absurd hc id
      | cons d tail => grind [IsChar, width_of_isTail]

/-- Characters that start two equal sequences are the same. -/
theorem IsChar.same {d t : List UInt8} (hc : IsChar c) (hd : IsChar d) (h : c ++ s = d ++ t) :
    c = d ∧ s = t := by
  cases c with
  | nil => exact absurd hc id
  | cons b tail =>
    cases d with
    | nil => exact absurd hd id
    | cons b' tail' =>
      have hb : b = b' := (List.cons.inj h).1
      have hlen : tail.length = tail'.length := by
        have := hc.1
        have := hd.1
        rw [hb] at *
        omega
      exact append_inj h (by rw [length_cons, length_cons, hlen])

/-- **What follows a text in a text is one.** -/
theorem Text.rest {b : List UInt8} (ha : Text a) (hab : Text (a ++ b)) : Text b := by
  rcases ha with ⟨as, has, rfl⟩
  induction as with
  | nil => exact hab
  | cons c as ih =>
    rcases hab with ⟨chars, hchars, heq⟩
    have hc := has c (.head _)
    rw [flatten_cons, append_assoc] at heq
    cases chars with
    | nil =>
      cases c with
      | nil => exact absurd hc id
      | cons x tail => cases heq
    | cons d chars =>
      rw [flatten_cons] at heq
      have hsame := hc.same (hchars d (.head _)) heq
      refine ih (fun e he => has e (.tail _ he)) ?_
      exact ⟨chars, fun e he => hchars e (.tail _ he), hsame.2⟩

/-- **What stands around a text in a text are texts.** -/
theorem Text.around {before after : List UInt8} (hs : Text s) (hne : s ≠ [])
    (h : Text (before ++ (s ++ after))) : Text before ∧ Text after := by
  rcases h with ⟨chars, hchars, heq⟩
  induction chars generalizing before with
  | nil =>
    rw [flatten_nil, append_eq_nil_iff, append_eq_nil_iff] at heq
    exact absurd heq.2.1 hne
  | cons c chars ih =>
    have hc := hchars c (.head _)
    have hrest : ∀ d ∈ chars, IsChar d := fun d hd => hchars d (.tail _ hd)
    rw [flatten_cons] at heq
    rcases append_eq_append_iff.mp heq with ⟨inside, hsplit, htail⟩ | ⟨more, hsplit, htail⟩
    · -- The character ends after what stands before: the text would start inside it.
      cases before with
      | nil =>
        refine ⟨Text.nil, hs.rest ?_⟩
        exact ⟨c :: chars, hchars, by rw [flatten_cons]; exact heq⟩
      | cons b before =>
        cases inside with
        | nil =>
          rw [append_nil] at hsplit
          rw [nil_append] at htail
          refine ⟨hsplit ▸ hc.text, hs.rest ⟨chars, hrest, htail⟩⟩
        | cons x inside =>
          cases s with
          | nil => exact absurd rfl hne
          | cons y s =>
            have hxy : y = x := (List.cons.inj htail).1
            have htailx : isTail x = true := by
              rw [hsplit, cons_append] at hc
              exact hc.2 x (mem_append_right _ (.head _))
            rw [← hxy, hs.lead] at htailx
            cases htailx
    · rcases ih hrest htail.symm with ⟨hbefore, hafter⟩
      exact ⟨hsplit ▸ hc.text.append hbefore, hafter⟩

end Utf8

end Lib

end NanoLance
