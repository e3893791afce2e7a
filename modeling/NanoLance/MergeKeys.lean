import NanoLance.ExprValues
import NanoLance.Roaring

/-!
# Keys of a Merge Insert

Merge insert finds the row a source row replaces by a key: the bytes of its key
columns, one after another. Numbers are eight bytes, texts are their length and
their bytes, so that a concatenation can be taken apart again and two keys are
equal exactly when every column's bytes are.

Whether the bytes are equal when the values are is another matter. A float is keyed
by its bits, and the two zeros have different ones; a decimal by what the array
library gives as its bytes, which is meant for texts.

## Main definitions

* `Both.Equal`: Equal values.
* `Both.TwoZeros`, `Both.SameBytes`: Where values and bytes differ in being equal.

## Theorems

* `keys_match_iff`: When keys are equal exactly for rows with equal values.
-/

namespace NanoLance

namespace MergeKeys

open List

open Expr (ColumnType Double Limbs256)

open Roaring (put64)

/-- What the array library gives as the bytes of a value that is no text. -/
abbrev Library := (t : ColumnType) → t.Cell → List UInt8

/-- `ArrowArrayViewGetBytesUnsafe`. -/
def getBytes (lib : Library) : (t : ColumnType) → t.Cell → List UInt8
  | .string, s | .largeString, s | .binary, s | .largeBinary, s | .fixedSizeBinary, s => s
  | t, c => lib t c

def boolWord (b : Bool) : BitVec 64 := if b then 1 else 0

def signedKey (x : BitVec 64) : List UInt8 := 0x69 :: put64 x.toNat

def unsignedKey (x : BitVec 64) : List UInt8 :=
  (if x.toNat < 2 ^ 63 then 0x69 else 0x75) :: put64 x.toNat

def floatKey (x : Double) : List UInt8 := 0x66 :: put64 x.bits.toNat

def bytesKey (s : List UInt8) : List UInt8 := 0x73 :: put64 (s.length % 2 ^ 64) ++ s

/-- The bytes of one key column. Times and durations are stored as integers. -/
def columnKey (lib : Library) : (t : ColumnType) → t.Cell → List UInt8
  | .int8, x => signedKey (BitVec.signExtend 64 (x : BitVec 8))
  | .int16, x => signedKey (BitVec.signExtend 64 (x : BitVec 16))
  | .int32, x | .time32, x | .date32, x => signedKey (BitVec.signExtend 64 (x : BitVec 32))
  | .int64, x | .time64, x | .date64, x | .timestamp _, x | .duration _, x => signedKey x
  | .boolean, b => signedKey (boolWord b)
  | .uint8, x => unsignedKey (BitVec.setWidth 64 (x : BitVec 8))
  | .uint16, x => unsignedKey (BitVec.setWidth 64 (x : BitVec 16))
  | .uint32, x => unsignedKey (BitVec.setWidth 64 (x : BitVec 32))
  | .uint64, x => unsignedKey x
  | .halfFloat, x | .float, x | .double, x => floatKey x
  | t, c => bytesKey (getBytes lib t c)

/-- The key of a row without nulls in its key columns. -/
def keyOf (lib : Library) (row : List ((t : ColumnType) × t.Cell)) : List UInt8 :=
  row.flatMap (fun cell => columnKey lib cell.1 cell.2)

/-- A key column of two rows. -/
structure Both where
  type : ColumnType
  left : type.Cell
  right : type.Cell

namespace Both

/-- The values are equal; the zeros of floats are. -/
def Equal (p : Both) : Prop :=
  match p with
  | ⟨.halfFloat, x, y⟩ | ⟨.float, x, y⟩ | ⟨.double, x, y⟩ =>
    x = y ∨ ((x : Double).magnitude = 0 ∧ (y : Double).magnitude = 0)
  | ⟨_, x, y⟩ => x = y

/-- A float column holds both zeros. -/
def TwoZeros (p : Both) : Prop :=
  match p with
  | ⟨.halfFloat, x, y⟩ | ⟨.float, x, y⟩ | ⟨.double, x, y⟩ =>
    x ≠ y ∧ (x : Double).magnitude = 0 ∧ (y : Double).magnitude = 0
  | _ => False

/-- A decimal column holds two values that the library gives the same bytes. -/
def SameBytes (lib : Library) (p : Both) : Prop :=
  match p with
  | ⟨.decimal128 s, x, y⟩ => x ≠ y ∧ lib (.decimal128 s) x = lib (.decimal128 s) y
  | ⟨.decimal256 s, x, y⟩ => x ≠ y ∧ lib (.decimal256 s) x = lib (.decimal256 s) y
  | _ => False

/-- Texts are shorter than a signed word says. -/
def Sized (lib : Library) (p : Both) : Prop :=
  (getBytes lib p.type p.left).length < 2 ^ 63 ∧ (getBytes lib p.type p.right).length < 2 ^ 63

end Both

/-- The rows are equal in every key column. -/
def RowsEqual (pairs : List Both) : Prop := ∀ p ∈ pairs, p.Equal

def leftKey (lib : Library) (pairs : List Both) : List UInt8 :=
  keyOf lib (pairs.map (fun p => ⟨p.type, p.left⟩))

def rightKey (lib : Library) (pairs : List Both) : List UInt8 :=
  keyOf lib (pairs.map (fun p => ⟨p.type, p.right⟩))

/-! ## Taking keys apart -/

variable {s t : List UInt8} {w : Nat} {x y : BitVec 64} {lib : Library}

theorem put64_append {v : Nat} (hv : v < 2 ^ 64) (hw : w < 2 ^ 64) (h : put64 v ++ s = put64 w ++ t) :
    v = w ∧ s = t := by
  have hread := congrArg Roaring.u64 h
  rw [Roaring.u64_put64 s hv, Roaring.u64_put64 t hw] at hread
  simpa using hread

theorem signedKey_append (h : signedKey x ++ s = signedKey y ++ t) : x = y ∧ s = t := by
  have h' := put64_append x.isLt y.isLt (cons.inj h).2
  exact ⟨BitVec.eq_of_toNat_eq h'.1, h'.2⟩

theorem unsignedKey_append (h : unsignedKey x ++ s = unsignedKey y ++ t) : x = y ∧ s = t := by
  have h' := put64_append x.isLt y.isLt (cons.inj h).2
  exact ⟨BitVec.eq_of_toNat_eq h'.1, h'.2⟩

theorem floatKey_append {x y : Double} (h : floatKey x ++ s = floatKey y ++ t) : x = y ∧ s = t := by
  have h' := put64_append x.bits.isLt y.bits.isLt (cons.inj h).2
  exact ⟨congrArg Double.mk (BitVec.eq_of_toNat_eq h'.1), h'.2⟩

theorem bytesKey_append {a b : List UInt8} (ha : a.length < 2 ^ 63) (hb : b.length < 2 ^ 63)
    (h : bytesKey a ++ s = bytesKey b ++ t) : a = b ∧ s = t := by
  unfold bytesKey at h
  rw [Nat.mod_eq_of_lt (by omega), Nat.mod_eq_of_lt (by omega), cons_append, cons_append,
    append_assoc, cons_append, cons_append, append_assoc] at h
  have h' := put64_append (by omega) (by omega) (cons.inj h).2
  exact append_inj h'.2 h'.1

theorem signExtend_inj (hw : w ≤ 64) {x y : BitVec w} :
    BitVec.signExtend 64 x = BitVec.signExtend 64 y ↔ x = y := by
  refine ⟨fun h => ?_, fun h => by rw [h]⟩
  have h' := congrArg BitVec.toInt h
  rw [BitVec.toInt_signExtend_of_le hw, BitVec.toInt_signExtend_of_le hw] at h'
  exact BitVec.toInt_inj.mp h'

theorem setWidth_inj (hw : w ≤ 64) {x y : BitVec w} :
    BitVec.setWidth 64 x = BitVec.setWidth 64 y ↔ x = y := by
  refine ⟨fun h => ?_, fun h => by rw [h]⟩
  have h' := congrArg BitVec.toNat h
  rw [BitVec.toNat_setWidth_of_le hw, BitVec.toNat_setWidth_of_le hw] at h'
  exact BitVec.eq_of_toNat_eq h'

/-- The bytes of a column are those of equal values, the zeros apart, or of decimals
    with the same bytes; and they can be told from what follows. -/
theorem columnKey_append {p : Both} (hsize : p.Sized lib) (s t : List UInt8) :
    columnKey lib p.type p.left ++ s = columnKey lib p.type p.right ++ t ↔
      ((p.Equal ∧ ¬p.TwoZeros) ∨ p.SameBytes lib) ∧ s = t := by
  have hsigned : ∀ x y : BitVec 64, signedKey x ++ s = signedKey y ++ t ↔ x = y ∧ s = t :=
    fun x y => ⟨signedKey_append, fun h => by rw [h.1, h.2]⟩
  have hunsigned : ∀ x y : BitVec 64, unsignedKey x ++ s = unsignedKey y ++ t ↔ x = y ∧ s = t :=
    fun x y => ⟨unsignedKey_append, fun h => by rw [h.1, h.2]⟩
  have hfloat : ∀ x y : Double, floatKey x ++ s = floatKey y ++ t ↔ x = y ∧ s = t :=
    fun x y => ⟨floatKey_append, fun h => by rw [h.1, h.2]⟩
  have hbytes : ∀ a b : List UInt8, a.length < 2 ^ 63 → b.length < 2 ^ 63 →
      (bytesKey a ++ s = bytesKey b ++ t ↔ a = b ∧ s = t) :=
    fun a b ha hb => ⟨bytesKey_append ha hb, fun h => by rw [h.1, h.2]⟩
  rcases p with ⟨type, x, y⟩
  have hboolean : ∀ a b : Bool, boolWord a = boolWord b ↔ a = b := by decide
  unfold Both.Sized at hsize
  cases type
  all_goals
    simp only [columnKey, Both.Equal, Both.TwoZeros, Both.SameBytes, not_false_eq_true, and_true,
      or_false]
  case boolean => exact (hsigned _ _).trans (and_congr_left' (hboolean x y))
  case int8 | int16 | int32 | time32 | date32 =>
    exact (hsigned _ _).trans (and_congr_left' (signExtend_inj (by decide)))
  case int64 | time64 | date64 | timestamp | duration => exact hsigned x y
  case uint8 | uint16 | uint32 =>
    exact (hunsigned _ _).trans (and_congr_left' (setWidth_inj (by decide)))
  case uint64 => exact hunsigned x y
  case halfFloat | float | double =>
    refine (hfloat x y).trans (and_congr_left' ?_)
    tauto
  case string | largeString | binary | largeBinary | fixedSizeBinary =>
    exact hbytes x y hsize.1 hsize.2
  case decimal128 | decimal256 =>
    refine (hbytes _ _ hsize.1 hsize.2).trans (and_congr_left' ⟨fun h => ?_, ?_⟩)
    · by_cases hxy : x = y
      · exact .inl hxy
      · exact .inr ⟨hxy, h⟩
    · rintro (h | h)
      · rw [h]
      · exact h.2
  case other => exact (hbytes _ _ hsize.1 hsize.2).trans (and_congr_left' ⟨fun _ => rfl, fun _ => rfl⟩)

/-- Two keys are equal if and only if every column's bytes are. -/
theorem keyOf_eq_iff {pairs : List Both} (hsize : ∀ p ∈ pairs, p.Sized lib) :
    leftKey lib pairs = rightKey lib pairs ↔
      ∀ p ∈ pairs, (p.Equal ∧ ¬p.TwoZeros) ∨ p.SameBytes lib := by
  induction pairs with
  | nil => simp [leftKey, rightKey, keyOf]
  | cons p pairs ih =>
    have hrest := ih (fun q hq => hsize q (.tail _ hq))
    unfold leftKey rightKey keyOf at hrest ⊢
    rw [map_cons, flatMap_cons, map_cons, flatMap_cons,
      columnKey_append (hsize p (.head _)), hrest, forall_mem_cons]

/-- **Keys are equal exactly when the rows are, for two rows, if and only if** no float
    column of equal rows holds both zeros, and rows that differ do so in a column
    other than decimals of the same bytes, or hold both zeros in one. -/
theorem keys_match_iff (lib : Library) (pairs : List Both) (hsize : ∀ p ∈ pairs, p.Sized lib) :
    (leftKey lib pairs = rightKey lib pairs ↔ RowsEqual pairs) ↔
      (RowsEqual pairs → ∀ p ∈ pairs, ¬p.TwoZeros) ∧
        (¬RowsEqual pairs → ∃ p ∈ pairs, p.TwoZeros ∨ (¬p.Equal ∧ ¬p.SameBytes lib)) := by
  rw [keyOf_eq_iff hsize]
  have hzeros : ∀ p : Both, p.TwoZeros → p.Equal := by
    rintro ⟨type, x, y⟩ h
    cases type <;> first | exact .inr h.2 | cases h
  have hdecimal : ∀ p : Both, p.SameBytes lib → ¬p.Equal := by
    rintro ⟨type, x, y⟩ h
    cases type <;> first | exact h.1 | cases h
  unfold RowsEqual
  by_cases hequal : ∀ p ∈ pairs, p.Equal
  · -- Equal rows: only the zeros can tell them apart.
    grind
  · grind

/-- The library gives no bytes for values that are no texts. -/
def noBytes : Library := fun _ _ => []

/-- Two rows with different names. -/
def twoNames : Both := ⟨.string, [0x61], [0x62]⟩

theorem keys_match_iff_names : leftKey noBytes [twoNames] ≠ rightKey noBytes [twoNames] := by
  have hequal : ¬twoNames.Equal := by
    change ¬([0x61] : List UInt8) = [0x62]
    decide
  have hrows : ¬RowsEqual [twoNames] := fun h => hequal (h _ (.head _))
  have hsize : ∀ p ∈ [twoNames], p.Sized noBytes := by
    intro p hp
    rw [mem_singleton.mp hp]
    exact ⟨by decide, by decide⟩
  intro hkeys
  refine hrows (((keys_match_iff noBytes [twoNames] hsize).mpr ⟨fun h => absurd h hrows, ?_⟩).mp
    hkeys)
  exact fun _ => ⟨twoNames, mem_cons_self, .inr ⟨hequal, id⟩⟩

/-- The two zeros have different keys. -/
theorem zeros_told_apart :
    RowsEqual [⟨.double, ⟨0⟩, ⟨BitVec.intMin 64⟩⟩] ∧
      leftKey noBytes [⟨.double, ⟨0⟩, ⟨BitVec.intMin 64⟩⟩] ≠
        rightKey noBytes [⟨.double, ⟨0⟩, ⟨BitVec.intMin 64⟩⟩] := by
  refine ⟨?_, by decide⟩
  intro p hp
  rw [mem_singleton.mp hp]
  exact .inr ⟨by decide, by decide⟩

end MergeKeys

end NanoLance
