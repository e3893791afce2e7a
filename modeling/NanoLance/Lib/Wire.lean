import Mathlib.Data.List.Basic
import Mathlib.Tactic.NormNum

/-!
# The Protobuf Wire Format

Messages as bytes: a number is written seven bits at a time, the lowest first,
with the top bit set on all bytes but the last; a field is a key (its number and
wire type) and a value. The writers emit numbers and length-delimited fields;
the reader takes every wire type a field can have, and stops at the first one
that is malformed.

What is written reads back field by field (`readFields_putBytes`,
`readFields_putUint`), whatever follows, so a message that is a chain of puts
reads as the list of its fields.

## Main definitions

* `Field`, `readField`, `readFields`: A message, read field by field.

## Theorems

* `readVarint_varint`: A number reads back.
* `readFields_putBytes`, `readFields_putUint`, `readFields_flatMap`: So do
  fields.
* `Folds.putBytes`, `Folds.repeated`: What a reader makes of a message, put by put.
-/

namespace NanoLance

namespace Lib

namespace Wire

open List

/-- The groups of a number, with at most `k + 1` of them. -/
def groups : Nat → Nat → List UInt8
  | 0, v => [UInt8.ofNat v]
  | k + 1, v =>
    if v < 128 then [UInt8.ofNat v] else UInt8.ofNat (v % 128 + 128) :: groups k (v / 128)

/-- A 64-bit number takes ten bytes at most. -/
def varint (v : Nat) : List UInt8 := groups 9 v

def readGroups : Nat → List UInt8 → Option (Nat × List UInt8)
  | 0, _ => none
  | _ + 1, [] => none
  | k + 1, b :: rest =>
    if b.toNat < 128 then some (b.toNat, rest)
    else (readGroups k rest).map (fun r => (b.toNat % 128 + 128 * r.1, r.2))

/-- A number and the bytes after it. What a tenth byte has beyond 64 bits is lost. -/
def readVarint (bytes : List UInt8) : Option (Nat × List UInt8) :=
  (readGroups 10 bytes).map (fun r => (r.1 % 2 ^ 64, r.2))

/-- The key of a field. -/
def tag (number wire : Nat) : List UInt8 := varint (number * 8 + wire)

/-- A number field; zero is the default and left out. -/
def putUint (number value : Nat) : List UInt8 :=
  if value = 0 then [] else tag number 0 ++ varint value

/-- A length-delimited field. -/
def putBytes (number : Nat) (data : List UInt8) : List UInt8 :=
  tag number 2 ++ (varint data.length ++ data)

/-- One field of a message: its number, wire type, and value. -/
structure Field where
  number : Nat
  wire : Nat
  value : Nat := 0
  data : List UInt8 := []
  deriving DecidableEq, Repr

/-- The number `n` bytes hold, the lowest byte first. -/
def littleEndian : List UInt8 → Nat
  | [] => 0
  | b :: rest => b.toNat + 256 * littleEndian rest

def readFixed (key size : Nat) (bytes : List UInt8) : Option (Field × List UInt8) :=
  if bytes.length < size then none
  else some (⟨key / 8 % 2 ^ 32, key % 8, littleEndian (bytes.take size), []⟩, bytes.drop size)

/-- The next field, with what follows it; none when it is malformed. -/
def readField (bytes : List UInt8) : Option (Field × List UInt8) := do
  let (key, rest) ← readVarint bytes
  match key % 8 with
  | 0 =>
    let (value, after) ← readVarint rest
    return (⟨key / 8 % 2 ^ 32, 0, value, []⟩, after)
  | 1 => readFixed key 8 rest
  | 2 =>
    let (size, after) ← readVarint rest
    if after.length < size then none
    else return (⟨key / 8 % 2 ^ 32, 2, 0, after.take size⟩, after.drop size)
  | 5 => readFixed key 4 rest
  | _ => none

/-- The fields up to the first malformed one, and whether there is one. Every field takes a byte, so
    the length is fuel enough. -/
def readFieldsWithin : Nat → List UInt8 → List Field × Bool
  | _, [] => ([], false)
  | 0, _ :: _ => ([], true)
  | k + 1, b :: bytes =>
    match readField (b :: bytes) with
    | none => ([], true)
    | some (f, rest) => (f :: (readFieldsWithin k rest).1, (readFieldsWithin k rest).2)

def readFields (bytes : List UInt8) : List Field × Bool := readFieldsWithin bytes.length bytes

def readVarintsWithin : Nat → List UInt8 → List Nat
  | 0, _ => []
  | k + 1, bytes =>
    match readVarint bytes with
    | none => []
    | some (v, rest) => v :: readVarintsWithin k rest

/-- The numbers of a packed field. -/
def readVarints (bytes : List UInt8) : List Nat := readVarintsWithin bytes.length bytes

theorem toNat_ofNat_small (v : Nat) (h : v < 256) : (UInt8.ofNat v).toNat = v := by
  rw [UInt8.toNat_ofNat']
  exact Nat.mod_eq_of_lt h

/-- Every number is written with a byte. -/
theorem groups_ne_nil (k v : Nat) : groups k v ≠ [] := by
  cases k with
  | zero => exact cons_ne_nil _ _
  | succ k => grind [groups]

variable (number : Nat) (rest : List UInt8)

theorem readGroups_groups : ∀ (k v : Nat), v < 128 ^ (k + 1) →
    readGroups (k + 1) (groups k v ++ rest) = some (v, rest) := by
  intro k
  induction k with
  | zero =>
    intro v hv
    rw [Nat.zero_add, pow_one] at hv
    have hbyte := toNat_ofNat_small v (by omega)
    simp [groups, readGroups, hbyte, hv]
  | succ k ih =>
    intro v hv
    unfold groups
    by_cases hsmall : v < 128
    · have hbyte := toNat_ofNat_small v (by omega)
      simp [hsmall, readGroups, hbyte]
    · -- The group keeps its top bit, and the rest is the number without it.
      have hbyte := toNat_ofNat_small (v % 128 + 128) (by omega)
      have hdiv : v / 128 < 128 ^ (k + 1) := by omega
      have hbig : ¬ v % 128 + 128 < 128 := by omega
      rw [if_neg hsmall, cons_append, readGroups, hbyte, if_neg hbig, ih (v / 128) hdiv,
        Option.map_some]
      grind

theorem readVarint_varint (v : Nat) (rest : List UInt8) (hv : v < 2 ^ 64) :
    readVarint (varint v ++ rest) = some (v, rest) := by
  have hgroups : v < 128 ^ (9 + 1) := lt_trans hv (by norm_num)
  rw [readVarint, varint, readGroups_groups rest 9 v hgroups, Option.map_some, Nat.mod_eq_of_lt hv]

theorem readGroups_length {k : Nat} : ∀ (bytes rest : List UInt8) (v : Nat),
    readGroups k bytes = some (v, rest) → rest.length < bytes.length := by
  induction k with
  | zero => exact nofun
  | succ k ih =>
    intro bytes rest v h
    cases bytes with
    | nil => cases h
    | cons b bytes =>
      rw [readGroups] at h
      by_cases hb : b.toNat < 128
      · grind
      · rw [if_neg hb] at h
        rcases Option.map_eq_some_iff.mp h with ⟨r, hr, heq⟩
        grind

variable {bytes : List UInt8} {f : Field} {value : Nat} {α : Type}

theorem readVarint_length {rest : List UInt8} {v : Nat} (h : readVarint bytes = some (v, rest)) :
    rest.length < bytes.length := by
  rcases Option.map_eq_some_iff.mp h with ⟨r, hr, heq⟩
  rw [Prod.mk.injEq] at heq
  exact heq.2 ▸ readGroups_length bytes r.2 r.1 hr

theorem readFixed_length {key size : Nat} {rest : List UInt8}
    (h : readFixed key size bytes = some (f, rest)) : rest.length ≤ bytes.length := by
  unfold readFixed at h
  grind

/-- A field takes at least its key. -/
theorem readField_length {rest : List UInt8} (h : readField bytes = some (f, rest)) :
    rest.length < bytes.length := by
  unfold readField at h
  rcases Option.bind_eq_some_iff.mp h with ⟨⟨key, after⟩, hkey, h⟩
  have hlt := readVarint_length hkey
  simp only [] at h
  split at h
  · rcases Option.bind_eq_some_iff.mp h with ⟨⟨value, last⟩, hvalue, h⟩
    have hlast := readVarint_length hvalue
    grind
  · exact lt_of_le_of_lt (readFixed_length h) hlt
  · rcases Option.bind_eq_some_iff.mp h with ⟨⟨size, last⟩, hsize, h⟩
    have hlast := readVarint_length hsize
    grind
  · exact lt_of_le_of_lt (readFixed_length h) hlt
  · cases h

/-- More fuel than bytes reads nothing more. -/
theorem readFieldsWithin_eq (k : Nat) : ∀ bytes : List UInt8, bytes.length ≤ k →
    readFieldsWithin k bytes = readFields bytes := by
  induction k using Nat.strong_induction_on with
  | _ k ih =>
    intro bytes hle
    unfold readFields
    cases bytes with
    | nil => simp only [readFieldsWithin]
    | cons b bytes =>
      cases k with
      | zero => exact absurd hle (by simp only [length_cons]; omega)
      | succ k =>
        rw [length_cons] at hle ⊢
        unfold readFieldsWithin
        cases hfield : readField (b :: bytes) with
        | none => rfl
        | some r =>
          have hlt := readField_length hfield
          grind

theorem readFields_of_readField {rest : List UInt8} (h : readField bytes = some (f, rest)) :
    readFields bytes = (f :: (readFields rest).1, (readFields rest).2) := by
  have hlt := readField_length h
  cases bytes with
  | nil => cases hlt
  | cons b bytes =>
    rw [length_cons] at hlt
    rw [readFields, length_cons, readFieldsWithin, h]
    simp only [readFieldsWithin_eq bytes.length rest (by omega)]

@[simp] theorem readFields_nil : readFields [] = ([], false) := rfl

variable {data : List UInt8}

theorem readField_putBytes {number : Nat} (hnumber : number < 2 ^ 29) (hdata : data.length < 2 ^ 64) :
    readField (putBytes number data ++ rest) = some (⟨number, 2, 0, data⟩, rest) := by
  have hkey : number * 8 + 2 < 2 ^ 64 := by omega
  have hwire : (number * 8 + 2) % 8 = 2 := by omega
  have hfield : (number * 8 + 2) / 8 % 2 ^ 32 = number := by omega
  have hlong : ¬ (data ++ rest).length < data.length := by
    rw [length_append]
    omega
  grind [readField, putBytes, tag, readVarint_varint]

theorem readFields_putBytes (data rest : List UInt8) (hnumber : number < 2 ^ 29)
    (hdata : data.length < 2 ^ 64) :
    readFields (putBytes number data ++ rest) =
      (⟨number, 2, 0, data⟩ :: (readFields rest).1, (readFields rest).2) :=
  readFields_of_readField (readField_putBytes rest hnumber hdata)

theorem readFields_putUint {number : Nat} (hnumber : number < 2 ^ 29) (hpos : value ≠ 0)
    (hvalue : value < 2 ^ 64) :
    readFields (putUint number value ++ rest) =
      (⟨number, 0, value, []⟩ :: (readFields rest).1, (readFields rest).2) := by
  have hkey : number * 8 + 0 < 2 ^ 64 := by omega
  have hwire : (number * 8 + 0) % 8 = 0 := by omega
  have hfield : (number * 8 + 0) / 8 % 2 ^ 32 = number := by omega
  refine readFields_of_readField ?_
  grind [readField, putUint, tag, readVarint_varint]

/-- A repeated field. -/
theorem readFields_flatMap {encode : α → List UInt8} (rest : List UInt8) (hnumber : number < 2 ^ 29) :
    ∀ l : List α, (∀ x ∈ l, (encode x).length < 2 ^ 64) →
    readFields (l.flatMap (fun x => putBytes number (encode x)) ++ rest) =
      (l.map (fun x => ⟨number, 2, 0, encode x⟩) ++ (readFields rest).1, (readFields rest).2) := by
  intro l
  induction l with
  | nil => exact fun _ => rfl
  | cons x l ih =>
    intro hsizes
    rw [flatMap_cons, append_assoc, readFields_putBytes number (encode x) _ hnumber
      (hsizes x (.head _)), ih (fun y hy => hsizes y (.tail _ hy))]
    rfl

/-- A number field that may be left out. -/
theorem readFields_putUint_any (hnumber : number < 2 ^ 29) (hvalue : value < 2 ^ 64) :
    readFields (putUint number value ++ rest) =
      ((if value = 0 then [] else [⟨number, 0, value, []⟩]) ++ (readFields rest).1,
        (readFields rest).2) := by
  by_cases hzero : value = 0
  · rw [if_pos hzero, putUint, if_pos hzero]
    rfl
  · rw [if_neg hzero, readFields_putUint rest hnumber hzero hvalue]
    rfl

theorem length_le_putBytes (data : List UInt8) :
    data.length ≤ (putBytes number data).length := by grind [putBytes]

/-- A repeated field is no shorter than any of its messages. -/
theorem length_le_repeated (encode : α → List UInt8) {l : List α} {x : α} (hx : x ∈ l) :
    (encode x).length ≤ (l.flatMap (fun x => putBytes number (encode x))).length := by
  have hmem : putBytes number (encode x) ∈ l.map (fun x => putBytes number (encode x)) :=
    mem_map_of_mem hx
  have hsub : (putBytes number (encode x)).length ≤
      (l.flatMap (fun x => putBytes number (encode x))).length :=
    (sublist_flatten_of_mem hmem).length_le
  exact Nat.le_trans (length_le_putBytes number (encode x)) hsub

theorem readVarintsWithin_flatMap : ∀ (values : List Nat) (k : Nat), values.length ≤ k →
    (∀ v ∈ values, v < 2 ^ 64) → readVarintsWithin k (values.flatMap varint) = values := by
  intro values
  induction values with
  | nil =>
    intro k _ _
    cases k with
    | zero => rfl
    | succ k => rfl
  | cons v values ih =>
    intro k hle hsmall
    cases k with
    | zero => exact absurd hle (by simp only [length_cons]; omega)
    | succ k =>
      rw [flatMap_cons, readVarintsWithin, readVarint_varint v _ (hsmall v (.head _))]
      grind

theorem length_le_flatMap (values : List Nat) : values.length ≤ (values.flatMap varint).length := by
  induction values with
  | nil => exact le_refl 0
  | cons v values ih =>
    have hpos := length_pos_iff.mpr (groups_ne_nil 9 v)
    grind [varint]

/-- A packed field. -/
theorem readVarints_flatMap {values : List Nat} (hsmall : ∀ v ∈ values, v < 2 ^ 64) :
    readVarints (values.flatMap varint) = values :=
  readVarintsWithin_flatMap values _ (length_le_flatMap values) hsmall

/-! ### Messages read by a fold -/

/-- Reading the fields of a message one by one takes `s` to `t`. -/
def Folds {σ ε : Type} (step : σ → Field → Except ε σ) (s : σ) (message : List UInt8) (t : σ) : Prop :=
  message.length < 2 ^ 64 →
    ∃ fields, readFields message = (fields, false) ∧ fields.foldlM step s = .ok t

section

variable {σ ε α : Type} {step : σ → Field → Except ε σ} {s mid t : σ} {number : Nat}
  {rest : List UInt8} (hnumber : number < 2 ^ 29)

theorem Folds.nil : Folds step s [] s := fun _ => ⟨[], rfl, rfl⟩

include hnumber

theorem Folds.putBytes (hstep : data.length < 2 ^ 64 → step s ⟨number, 2, 0, data⟩ = .ok mid)
    (h : Folds step mid rest t) : Folds step s (putBytes number data ++ rest) t := by
  intro hsize
  rw [length_append] at hsize
  have hdata : data.length < 2 ^ 64 :=
    lt_of_le_of_lt ((length_le_putBytes number data).trans (Nat.le_add_right _ _)) hsize
  rcases h (lt_of_le_of_lt (Nat.le_add_left _ _) hsize) with ⟨fields, hread, hfold⟩
  refine ⟨_, by rw [readFields_putBytes number data rest hnumber hdata, hread], ?_⟩
  rw [foldlM_cons, hstep hdata]
  exact hfold

/-- A repeated field whose entries each put one more element puts them all. -/
theorem Folds.repeated {encode : α → List UInt8} {l : List α} (put : σ → List α → σ)
    (Good : σ → Prop) (hnil : ∀ s, put s [] = s)
    (happend : ∀ s l l', put (put s l) l' = put s (l ++ l'))
    (hgood : ∀ s l, Good s → Good (put s l))
    (hstep : ∀ s, ∀ x ∈ l, Good s → (encode x).length < 2 ^ 64 →
      step s ⟨number, 2, 0, encode x⟩ = .ok (put s [x]))
    (hs : Good s) (h : Folds step (put s l) rest t) :
    Folds step s (l.flatMap (fun x => Wire.putBytes number (encode x)) ++ rest) t := by
  induction l generalizing s with
  | nil => rwa [hnil] at h
  | cons x l ih =>
    rw [flatMap_cons, append_assoc]
    refine Folds.putBytes hnumber (hstep s x (.head _) hs) ?_
    refine ih (fun s y hy => hstep s y (.tail _ hy)) (hgood s [x] hs) ?_
    rwa [happend]

end

end Wire

end Lib

end NanoLance
