import Mathlib.Data.BitVec
import NanoLance.Lib.Limbs

/-!
# Values of Filter Expressions

What a filter reads from a column and how it compares two values. Every value is
turned into one of a few kinds first: integers keep their sign, floats become
doubles, dates and timestamps nanoseconds, and decimals keep all their digits.

The kinds are machine words. A product of signed words that does not fit has no
defined result in the source's language; `Machine.overflow` is the word the
program gets for it, and what is shown of comparisons is shown for every such
word. How numbers become doubles is left to the machine, too.

## Main definitions

* `Value`, `ColumnType`, `readScalar`: The values of columns.
* `compareDecimal`, `compareDuration`, `compare`: The order of values.
-/

namespace NanoLance

namespace Expr

inductive TimeUnit where
  | second
  | milli
  | micro
  | nano
  deriving DecidableEq, Repr

def unitToNs : TimeUnit → Int
  | .second => 1000000000
  | .milli => 1000000
  | .micro => 1000
  | .nano => 1

/-- The bits of a double. -/
structure Double where
  bits : BitVec 64
  deriving DecidableEq, Repr

namespace Double

def signBit (x : Double) : Bool := x.bits.msb

/-- The bits below the sign. -/
def magnitude (x : Double) : Nat := x.bits.toNat % 2 ^ 63

/-- The exponent is all ones and the fraction is not zero. -/
def isNaN (x : Double) : Bool := 0x7FF0000000000000 < x.magnitude

/-- Doubles that are no NaNs, as they are ordered. -/
def key (x : Double) : Int := if x.signBit then -x.magnitude else x.magnitude

end Double

/-- The unscaled value of a decimal: 256 bits in two's complement, least significant word first. -/
structure Limbs256 where
  l0 : BitVec 64
  l1 : BitVec 64
  l2 : BitVec 64
  l3 : BitVec 64
  deriving DecidableEq, Repr

inductive Value where
  | null
  | bool (b : Bool)
  | int (i : BitVec 64)
  | uint (u : BitVec 64)
  | double (d : Double)
  | string (s : List UInt8)
  | binary (s : List UInt8)
  | date (days : BitVec 64)
  | timestamp (ns : BitVec 64) (unit : TimeUnit)
  | list (items : List Value)
  | decimal (dec : Limbs256) (scale : Int)
  | duration (count : BitVec 64) (unit : TimeUnit)
  deriving Repr

/-- What the source leaves to the machine: the word of a signed product that does not fit, and
    conversions to doubles. -/
structure Machine where
  overflow : Int → BitVec 64
  ofInt : BitVec 64 → Double
  ofUInt : BitVec 64 → Double
  ofDecimal : Limbs256 → Int → Double

/-- The number is a signed word. -/
def Fits (n : Int) : Prop := -2 ^ 63 ≤ n ∧ n < 2 ^ 63

instance (n : Int) : Decidable (Fits n) := inferInstanceAs (Decidable (_ ∧ _))

section Reading

variable (m : Machine)

/-- A product of signed words. -/
def mul64 (a : BitVec 64) (k : Int) : BitVec 64 :=
  if Fits (a.toInt * k) then BitVec.ofInt 64 (a.toInt * k) else m.overflow (a.toInt * k)

def nsPerDay : Int := 86400 * 1000000000

namespace Value

def isDuration : Value → Bool
  | .duration _ _ => true
  | _ => false

def isDecimal : Value → Bool
  | .decimal _ _ => true
  | _ => false

def isDouble : Value → Bool
  | .double _ => true
  | _ => false

/-- The number as a double, zero for what is none. -/
def asDouble : Value → Double
  | .int i => m.ofInt i
  | .uint u => m.ofUInt u
  | .double d => d
  | .decimal dec scale => m.ofDecimal dec scale
  | _ => ⟨0⟩

/-- A date or timestamp in nanoseconds. -/
def asNs : Value → Option (BitVec 64)
  | .date days => some (mul64 m (mul64 m days 86400) 1000000000)
  | .timestamp ns _ => some ns
  | _ => none

end Value

/-! ## Columns -/

inductive ColumnType where
  | boolean
  | int8
  | int16
  | int32
  | int64
  | time32
  | time64
  | uint8
  | uint16
  | uint32
  | uint64
  | halfFloat
  | float
  | double
  | string
  | largeString
  | binary
  | largeBinary
  | fixedSizeBinary
  | date32
  | date64
  | timestamp (unit : TimeUnit)
  | duration (unit : TimeUnit)
  | decimal128 (scale : Int)
  | decimal256 (scale : Int)
  | other
  deriving DecidableEq, Repr

/-- What a column of a type holds in a row. Floats are widened already, which changes no value. -/
def ColumnType.Cell : ColumnType → Type
  | .boolean => Bool
  | .int8 | .uint8 => BitVec 8
  | .int16 | .uint16 => BitVec 16
  | .int32 | .time32 | .date32 | .uint32 => BitVec 32
  | .int64 | .time64 | .date64 | .timestamp _ | .duration _ | .uint64 => BitVec 64
  | .halfFloat | .float | .double => Double
  | .string | .largeString | .binary | .largeBinary | .fixedSizeBinary => List UInt8
  | .decimal128 _ => BitVec 64 × BitVec 64
  | .decimal256 _ => Limbs256
  | .other => Unit

/-- A row of a column that is not null. -/
def readScalar : (t : ColumnType) → t.Cell → Value
  | .boolean, b => .bool b
  | .int8, i => .int (BitVec.signExtend 64 (i : BitVec 8))
  | .int16, i => .int (BitVec.signExtend 64 (i : BitVec 16))
  | .int32, i | .time32, i => .int (BitVec.signExtend 64 (i : BitVec 32))
  | .int64, i | .time64, i => .int i
  | .uint8, u => .uint (BitVec.setWidth 64 (u : BitVec 8))
  | .uint16, u => .uint (BitVec.setWidth 64 (u : BitVec 16))
  | .uint32, u => .uint (BitVec.setWidth 64 (u : BitVec 32))
  | .uint64, u => .uint u
  | .halfFloat, d | .float, d | .double, d => .double d
  | .string, s | .largeString, s => .string s
  | .binary, s | .largeBinary, s | .fixedSizeBinary, s => .binary s
  | .date32, days => .date (BitVec.signExtend 64 (days : BitVec 32))
  | .date64, ms => .timestamp (mul64 m ms 1000000) .nano
  | .timestamp unit, count => .timestamp (mul64 m count (unitToNs unit)) unit
  | .duration unit, count => .duration count unit
  | .decimal128 scale, (w0, w1) =>
    -- The upper words take the sign of the lower ones.
    let fill : BitVec 64 := if w1.toInt < 0 then BitVec.allOnes 64 else 0
    .decimal ⟨w0, w1, fill, fill⟩ scale
  | .decimal256 scale, limbs => .decimal limbs scale
  | .other, _ => .bool true

end Reading

/-! ## Order -/

/-- -1, 0 or 1, as the numbers are ordered. -/
def threeWay (a b : Int) : Int := if a < b then -1 else if b < a then 1 else 0

/-- Total order of doubles, the zeros equal: NaNs stand at the ends, by their sign. -/
def floatWay (x y : Double) : Int :=
  if !x.isNaN && !y.isNaN then threeWay x.key y.key
  else
    let rank := fun (z : Double) => if z.isNaN then (if z.signBit then -1 else 1) else (0 : Int)
    threeWay (rank x) (rank y)

namespace Limbs256

def toList (l : Limbs256) : List Nat := [l.l0.toNat, l.l1.toNat, l.l2.toNat, l.l3.toNat]

def negative (l : Limbs256) : Bool := l.l3.msb

end Limbs256

/-- The words of a magnitude: 32 of 32 bits. -/
def limbsMagnitude (l : Limbs256) : List Nat :=
  let words := if l.negative then
      Lib.Limbs.increment (2 ^ 64) (Lib.Limbs.complement (2 ^ 64) l.toList)
    else l.toList
  Lib.Limbs.halves (2 ^ 32) words ++ List.replicate 24 0

def magMulSmall (m : List Nat) (f : Nat) : List Nat := Lib.Limbs.mulSmall (2 ^ 32) f 0 m

def pow10Small (k : Nat) : Nat := (fun p => p * 10 % 2 ^ 32)^[k] 1

/-- Nine digits at a time, then the rest. -/
def magMulPow10 (m : List Nat) (k : Nat) : List Nat :=
  let m := (fun m => magMulSmall m 1000000000)^[k / 9] m
  if 0 < k % 9 then magMulSmall m (pow10Small (k % 9)) else m

def magCmp (a b : List Nat) : Int := Lib.Limbs.cmpTop a b

/-- Two decimals, each brought to the larger of the scales. -/
def compareDecimal (a : Limbs256) (sa : Int) (b : Limbs256) (sb : Int) : Int :=
  if a.negative ≠ b.negative then (if a.negative then -1 else 1)
  else
    let s := max sa sb
    let c := magCmp (magMulPow10 (limbsMagnitude a) (s - sa).toNat)
      (magMulPow10 (limbsMagnitude b) (s - sb).toNat)
    if a.negative then -c else c

/-- The words and scale of an integer or decimal. -/
def exactLimbs : Value → Option (Limbs256 × Int)
  | .decimal dec scale => some (dec, scale)
  | .int i =>
    let fill : BitVec 64 := if i.toInt < 0 then BitVec.allOnes 64 else 0
    some (⟨i, fill, fill, fill⟩, 0)
  | .uint u => some (⟨u, 0, 0, 0⟩, 0)
  | _ => none

/-- The sign of `x * k - y`, without the product. Division truncates. -/
def compareScaled (x k y : Int) : Int :=
  let q := y.tdiv k
  let r := y.tmod k
  let qy := if r < 0 then q - 1 else q
  let ry := if r < 0 then r + k else r
  if x > qy then 1 else if x < qy then -1 else if ry > 0 then -1 else 0

def compareDuration (countA : Int) (unitA : TimeUnit) (countB : Int) (unitB : TimeUnit) : Int :=
  let fa := unitToNs unitA
  let fb := unitToNs unitB
  if fa = fb then threeWay countA countB
  else if fa > fb then compareScaled countA (fa.tdiv fb) countB
  else -compareScaled countB (fb.tdiv fa) countA

/-- Bytes as they stand in a dictionary. -/
def compareBytes : List UInt8 → List UInt8 → Int
  | [], [] => 0
  | [], _ :: _ => -1
  | _ :: _, [] => 1
  | x :: a, y :: b => if x < y then -1 else if y < x then 1 else compareBytes a b

/-- The order of two values, `none` when they have none. -/
def compare (m : Machine) (a b : Value) : Option Int :=
  match a, b with
  | .duration x u, .duration y v => some (compareDuration x.toInt u y.toInt v)
  | a, b =>
    if a.isDuration || b.isDuration then none
    else if a.isDecimal || b.isDecimal then
      if a.isDouble || b.isDouble then some (floatWay (a.asDouble m) (b.asDouble m))
      else
        match exactLimbs a, exactLimbs b with
        | some (x, sx), some (y, sy) => some (compareDecimal x sx y sy)
        | _, _ => none
    else
      match a, b with
      | .double _, .double _ | .double _, .int _ | .double _, .uint _ | .int _, .double _
      | .uint _, .double _ => some (floatWay (a.asDouble m) (b.asDouble m))
      | .int x, .int y => some (threeWay x.toInt y.toInt)
      | .uint x, .uint y => some (threeWay x.toNat y.toNat)
      | .int x, .uint y => some (if x.toInt < 0 then -1 else threeWay x.toNat y.toNat)
      | .uint x, .int y => some (if y.toInt < 0 then 1 else threeWay x.toNat y.toNat)
      | .string x, .string y | .string x, .binary y | .binary x, .string y
      | .binary x, .binary y => some (compareBytes x y)
      | .bool x, .bool y => some (if x = y then 0 else if x then 1 else -1)
      | a, b =>
        match a.asNs m, b.asNs m with
        | some x, some y => some (threeWay x.toInt y.toInt)
        | _, _ => none

/-! ## Columns against a literal -/

section Cells

variable (m : Machine)

def compareSigned (x : BitVec 64) : Value → Option Int
  | .int y => some (threeWay x.toInt y.toInt)
  | .uint y => some (if x.toInt < 0 then -1 else threeWay x.toNat y.toNat)
  | .double d => some (floatWay (m.ofInt x) d)
  | _ => none

def compareUnsigned (x : BitVec 64) : Value → Option Int
  | .uint y => some (threeWay x.toNat y.toNat)
  | .int y => some (if y.toInt < 0 then 1 else threeWay x.toNat y.toNat)
  | .double d => some (floatWay (m.ofUInt x) d)
  | _ => none

def compareFloat (x : Double) (lit : Value) : Option Int :=
  match lit with
  | .int _ | .uint _ | .double _ => some (floatWay x (lit.asDouble m))
  | _ => none

/-- A temporal count of a column, `scale` nanoseconds each. -/
def compareTemporal (x : BitVec 64) (scale : Int) (lit : Value) : Option Int :=
  (lit.asNs m).map (fun y => threeWay (mul64 m x scale).toInt y.toInt)

def compareText (x : List UInt8) : Value → Option Int
  | .string y | .binary y => some (compareBytes x y)
  | _ => none

/-- A row of a column against a literal; `none` when this way does not handle the column or the
    literal. -/
def compareCell : (t : ColumnType) → t.Cell → Value → Option Int
  | .int8, x, lit => compareSigned m (BitVec.signExtend 64 (x : BitVec 8)) lit
  | .int16, x, lit => compareSigned m (BitVec.signExtend 64 (x : BitVec 16)) lit
  | .int32, x, lit | .time32, x, lit => compareSigned m (BitVec.signExtend 64 (x : BitVec 32)) lit
  | .int64, x, lit | .time64, x, lit => compareSigned m x lit
  | .duration unit, x, lit =>
    match lit with
    | .duration y u => some (compareDuration (x : BitVec 64).toInt unit y.toInt u)
    | _ => none
  | .uint8, x, lit => compareUnsigned m (BitVec.setWidth 64 (x : BitVec 8)) lit
  | .uint16, x, lit => compareUnsigned m (BitVec.setWidth 64 (x : BitVec 16)) lit
  | .uint32, x, lit => compareUnsigned m (BitVec.setWidth 64 (x : BitVec 32)) lit
  | .uint64, x, lit => compareUnsigned m x lit
  | .float, x, lit | .double, x, lit => compareFloat m x lit
  | .date32, x, lit => compareTemporal m (BitVec.signExtend 64 (x : BitVec 32)) nsPerDay lit
  | .date64, x, lit => compareTemporal m x 1000000 lit
  | .timestamp unit, x, lit => compareTemporal m x (unitToNs unit) lit
  | .string, x, lit | .largeString, x, lit => compareText x lit
  | _, _, _ => none

end Cells

end Expr

end NanoLance
