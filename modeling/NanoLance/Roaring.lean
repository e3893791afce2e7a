import Mathlib.Data.Nat.Bitwise
import NanoLance.Lib.Lists
import NanoLance.Lib.Outcome

/-!
# Roaring Bitmaps

Sets of 32-bit ids as bytes. The ids are cut into containers that share their
high sixteen bits; a container of up to 4096 ids lists the low sixteen bits of
each, a larger one is a bitmap of 65536 bits, and a reader also takes containers
of runs, which the writer never makes. A treemap holds 64-bit ids: for every
high half, in the order given, a bitmap of the low halves.

The writer trusts that the ids of one container are strictly ascending, and the
reader checks what it reads, so a list reads back where that is so
(`decodePrefix_encode`). The treemap's reader does not check the high halves, and
its writer only cuts where two neighbours differ, so the high halves may come in
any order (`decodeTreemap_encode`).

## Main definitions

* `encode`, `decodePrefix`: A bitmap, written and read.
* `encodeTreemap`, `decodeTreemap`: The same for a treemap.

## Theorems

* `flatten_spansBy`, `spansBy_key`, `spansBy_apart`: What the cuts are.
* `readArray_container`, `readBitmap_container`: A container reads back.
* `bitmap_round_trip`: Both for ascending ids, and what is true of any bytes read.
-/

namespace NanoLance

namespace Roaring

open List Lib

/-- `SERIAL_COOKIE_NO_RUNCONTAINER` and `SERIAL_COOKIE`. -/
def cookieNoRuns : Nat := 12346
def cookieRuns : Nat := 12347

/-- A larger container is a bitmap. -/
def arrayMax : Nat := 4096

def bitmapBytes : Nat := 8192

/-- With runs, fewer containers than this have no offsets. -/
def noOffsetThreshold : Nat := 4

/-! ## Writing -/

def put16 (v : Nat) : List UInt8 := [UInt8.ofNat (v % 256), UInt8.ofNat (v / 256 % 256)]

def put32 (v : Nat) : List UInt8 := put16 (v % 65536) ++ put16 (v / 65536)

/-- A list cut where the key of two neighbours differs. -/
def spansBy (key : Nat → Nat) : List Nat → List (List Nat)
  | [] => []
  | x :: xs =>
    match spansBy key xs with
    | (y :: span) :: rest =>
      if key y = key x then (x :: y :: span) :: rest else [x] :: (y :: span) :: rest
    | rest => [x] :: rest

/-- The high sixteen bits of the ids of a container. -/
def highOf (id : Nat) : Nat := id / 65536

/-- The bitmap of a container's low bits. -/
def bitmapOf (span : List Nat) : List Nat :=
  span.foldl (fun bits id => bits.modify (id % 65536 / 8) (· ||| 2 ^ (id % 65536 % 8)))
    (replicate bitmapBytes 0)

/-- A container of up to 4096 ids lists them, a larger one is a bitmap. -/
def container (span : List Nat) : List UInt8 :=
  if span.length ≤ arrayMax then span.flatMap (fun id => put16 (id % 65536))
  else (bitmapOf span).map UInt8.ofNat

def containerHeader (span : List Nat) : List UInt8 :=
  put16 (highOf (span.headD 0)) ++ put16 (span.length - 1)

/-- Where each container starts, from the start of the serialization. -/
def containerOffsets : List (List Nat) → Nat → List UInt8
  | [], _ => []
  | span :: rest, offset =>
    put32 (offset % 2 ^ 32) ++ containerOffsets rest
      (offset + if span.length ≤ arrayMax then span.length * 2 else bitmapBytes)

def encode (ids : List Nat) : List UInt8 :=
  let spans := spansBy highOf ids
  put32 cookieNoRuns ++ (put32 (spans.length % 2 ^ 32) ++
    (spans.flatMap containerHeader ++
      (containerOffsets spans (8 + spans.length * 4 + spans.length * 4) ++
        spans.flatMap container)))

/-! ## Reading -/

def u16 : List UInt8 → Option (Nat × List UInt8)
  | a :: b :: rest => some (a.toNat + 256 * b.toNat, rest)
  | _ => none

def u32 : List UInt8 → Option (Nat × List UInt8)
  | a :: b :: c :: d :: rest =>
    some (a.toNat + 256 * b.toNat + 65536 * c.toNat + 16777216 * d.toNat, rest)
  | _ => none

/-- A read, or the error that it came to the end. -/
def orError {α : Type} (message : String) : Option α → Except String α
  | none => .error message
  | some a => .ok a

/-- The kinds of containers a serialization has: how many, which of them are
    runs, and whether their offsets are listed. -/
structure Containers where
  count : Nat
  runFlags : List UInt8 := []
  offsets : Bool := true

def readCookie (bytes : List UInt8) : Except String (Containers × List UInt8) := do
  let (cookie, rest) ← orError "roaring bitmap: no cookie" (u32 bytes)
  if cookie = cookieNoRuns then
    let (count, rest) ← orError "roaring bitmap: no container count" (u32 rest)
    return ({ count := count }, rest)
  else if cookie % 65536 = cookieRuns then
    let count := cookie / 65536 + 1
    ensure (!(rest.length < (count + 7) / 8)) "roaring bitmap: truncated run flags"
    return ({ count := count, runFlags := rest.take ((count + 7) / 8)
              offsets := noOffsetThreshold ≤ count }, rest.drop ((count + 7) / 8))
  else .error s!"roaring bitmap: unknown cookie {cookie}"

/-- The keys and cardinalities of the containers, the keys ascending. -/
def readHeaders : Nat → Option Nat → List UInt8 →
    Except String (List (Nat × Nat) × List UInt8)
  | 0, _, bytes => .ok ([], bytes)
  | count + 1, previous, bytes => do
    let (key, bytes) ← orError "roaring bitmap: truncated header" (u16 bytes)
    let (less, bytes) ← orError "roaring bitmap: truncated header" (u16 bytes)
    ensure (previous.all (· < key)) "roaring bitmap: container keys out of order"
    let (others, bytes) ← readHeaders count (some key) bytes
    return ((key, less + 1) :: others, bytes)

/-- The ids of a container that lists them, ascending. -/
def readArray (high : Nat) : Nat → Option Nat → List UInt8 → Except String (List Nat × List UInt8)
  | 0, _, bytes => .ok ([], bytes)
  | count + 1, previous, bytes => do
    let (v, bytes) ← orError "roaring bitmap: truncated array container" (u16 bytes)
    ensure (previous.all (· < high * 65536 + v))
      "roaring bitmap: array container out of order"
    let (others, bytes) ← readArray high count (some (high * 65536 + v)) bytes
    return ((high * 65536 + v) :: others, bytes)

/-- The ids of a container that is a bitmap. -/
def readBitmap (high : Nat) (bytes : List UInt8) : Except String (List Nat × List UInt8) := do
  ensure (!(bytes.length < bitmapBytes)) "roaring bitmap: truncated bitmap container"
  let ids := ((range 65536).filter (fun v =>
    ((bytes.getD (v / 8) 0).toNat).testBit (v % 8))).map (high * 65536 + ·)
  return (ids, bytes.drop bitmapBytes)

/-- The ids of a container of runs, each a start and a length less one. -/
def readRuns (high : Nat) : Nat → Option Nat → List UInt8 → Except String (List Nat × List UInt8)
  | 0, _, bytes => .ok ([], bytes)
  | count + 1, previousEnd, bytes => do
    let (start, bytes) ← orError "roaring bitmap: truncated run container" (u16 bytes)
    let (less, bytes) ← orError "roaring bitmap: truncated run container" (u16 bytes)
    ensure (!(65535 < start + less) && previousEnd.all (· < start))
      "roaring bitmap: malformed run"
    let (others, bytes) ← readRuns high count (some (start + less)) bytes
    return ((range' start (less + 1)).map (high * 65536 + ·) ++ others, bytes)

/-- One container, of the kind its place and cardinality say. -/
def readContainer (run : Bool) (key cardinality : Nat) (bytes : List UInt8) :
    Except String (List Nat × List UInt8) :=
  if run then do
    let (runs, bytes) ← orError "roaring bitmap: truncated run container" (u16 bytes)
    readRuns key runs none bytes
  else if cardinality ≤ arrayMax then readArray key cardinality none bytes
  else readBitmap key bytes

/-- Whether container `c` is one of runs. -/
def isRun (runFlags : List UInt8) (c : Nat) : Bool :=
  !runFlags.isEmpty && ((runFlags.getD (c / 8) 0).toNat).testBit (c % 8)

def readContainers (runFlags : List UInt8) : List (Nat × Nat) → Nat → List UInt8 →
    Except String (List Nat × List UInt8)
  | [], _, bytes => .ok ([], bytes)
  | (key, cardinality) :: rest, c, bytes => do
    let (ids, bytes) ← readContainer (isRun runFlags c) key cardinality bytes
    ensure (ids.length = cardinality)
      "roaring bitmap: a container holds other than its declared cardinality"
    let (others, bytes) ← readContainers runFlags rest (c + 1) bytes
    return (ids ++ others, bytes)

/-- The bytes after the offsets, which are not looked at. -/
def skipOffsets (containers : Containers) (bytes : List UInt8) : Except String (List UInt8) :=
  if containers.offsets then
    if bytes.length < containers.count * 4 then .error "roaring bitmap: truncated offsets"
    else .ok (bytes.drop (containers.count * 4))
  else .ok bytes

/-- The ids of the bitmap that starts here, and the bytes after it. -/
def decodePrefix (bytes : List UInt8) : Except String (List Nat × List UInt8) := do
  let (containers, bytes) ← readCookie bytes
  ensure (!(65536 < containers.count || bytes.length / 4 < containers.count))
    "roaring bitmap: implausible container count"
  let (headers, bytes) ← readHeaders containers.count none bytes
  let bytes ← skipOffsets containers bytes
  readContainers containers.runFlags headers 0 bytes

def decode (bytes : List UInt8) : Except String (List Nat) := do
  let (ids, _) ← decodePrefix bytes
  return ids

/-! ## Treemaps -/

/-- The high and low halves of a 64-bit id. -/
def upperOf (id : Nat) : Nat := id / 2 ^ 32 % 2 ^ 32

def put64 (v : Nat) : List UInt8 := put32 (v % 2 ^ 32) ++ put32 (v / 2 ^ 32 % 2 ^ 32)

def encodeTreemap (ids : List Nat) : List UInt8 :=
  let spans := spansBy upperOf ids
  put64 spans.length ++ spans.flatMap (fun span =>
    put32 (upperOf (span.headD 0)) ++ encode (span.map (· % 2 ^ 32)))

def u64 (bytes : List UInt8) : Option (Nat × List UInt8) := do
  let (low, bytes) ← u32 bytes
  let (high, bytes) ← u32 bytes
  return (low + 2 ^ 32 * high, bytes)

def readKeys : Nat → List UInt8 → Except String (List Nat)
  | 0, _ => .ok []
  | keys + 1, bytes => do
    let (high, bytes) ← orError "roaring treemap: truncated key" (u32 bytes)
    let (low, bytes) ← decodePrefix bytes
    let others ← readKeys keys bytes
    return low.map (high * 2 ^ 32 + ·) ++ others

def decodeTreemap (bytes : List UInt8) : Except String (List Nat) := do
  let (keys, bytes) ← orError "roaring treemap: no key count" (u64 bytes)
  ensure (!(bytes.length / 4 < keys)) "roaring treemap: implausible key count"
  readKeys keys bytes

/-! ## Numbers -/

theorem toNat_byte (v : Nat) : (UInt8.ofNat (v % 256)).toNat = v % 256 := by
  rw [UInt8.toNat_ofNat']
  omega

theorem u16_put16 (v : Nat) (rest : List UInt8) (h : v < 65536) :
    u16 (put16 v ++ rest) = some (v, rest) := by
  unfold put16
  grind [u16, toNat_byte]

theorem u32_put32 (v : Nat) (rest : List UInt8) (h : v < 2 ^ 32) :
    u32 (put32 v ++ rest) = some (v, rest) := by
  unfold put32 put16
  simp only [cons_append, nil_append, u32, toNat_byte]
  congr 2
  omega

@[simp] theorem length_put16 (v : Nat) : (put16 v).length = 2 := rfl

@[simp] theorem length_put32 (v : Nat) : (put32 v).length = 4 := rfl

/-! ## Cuts -/

variable {l : List Nat}

/-- An ascending list is what a range keeps of it. -/
theorem filter_range (n : Nat) (hasc : l.Pairwise (· < ·)) (hlt : ∀ v ∈ l, v < n) :
    (range n).filter (fun v => decide (v ∈ l)) = l := by
  have hrange : ((range n).filter (fun v => decide (v ∈ l))).Pairwise (· < ·) :=
    List.Pairwise.filter _ pairwise_lt_range
  refine eq_of_ascending hrange hasc (fun v => ?_)
  grind

/-- Distinct numbers below a bound are no more than it. -/
theorem length_le_of_ascending (n : Nat) (hasc : l.Pairwise (· < ·)) (hlt : ∀ v ∈ l, v < n) :
    l.length ≤ n := by
  rw [← filter_range n hasc hlt]
  grind

section

variable (key : Nat → Nat) (l : List Nat)

theorem flatten_spansBy : (spansBy key l).flatten = l := by
  induction l with
  | nil => rfl
  | cons x xs ih =>
    unfold spansBy
    split
    · grind
    · rw [flatten_cons, ih]
      rfl

theorem spansBy_ne_nil :
    ∀ span ∈ spansBy key l, span ≠ [] := by
  induction l with
  | nil => exact nofun
  | cons x xs ih =>
    unfold spansBy
    split
    · next y span rest hspans =>
      rw [hspans] at ih
      split
      · grind
      · grind
    · grind

/-- A span has one key. -/
theorem spansBy_key :
    ∀ span ∈ spansBy key l, ∀ x ∈ span, key x = key (span.headD 0) := by
  induction l with
  | nil => exact nofun
  | cons x xs ih =>
    unfold spansBy
    split
    · next y span rest hspans =>
      rw [hspans] at ih
      have hfirst := ih (y :: span) (.head _)
      split
      · next heq =>
        intro other hother z hz
        rcases mem_cons.mp hother with h | h
        · grind
        · exact ih other (.tail _ h) z hz
      · grind
    · grind

/-- Where the keys do not descend, those of different spans ascend. -/
theorem spansBy_apart (hl : l.Pairwise (fun a b => key a ≤ key b)) :
    (spansBy key l).Pairwise (fun s t => ∀ a ∈ s, ∀ b ∈ t, key a < key b) := by
  induction l with
  | nil => exact List.Pairwise.nil
  | cons x xs ih =>
    rw [pairwise_cons] at hl
    have hrest := ih hl.2
    have hkeys := spansBy_key key xs
    have hflat := flatten_spansBy key xs
    unfold spansBy
    split
    · next y span rest hspans =>
      rw [hspans] at hrest hkeys hflat
      rw [pairwise_cons] at hrest
      have hy : key x ≤ key y := hl.1 y (by rw [← hflat]; simp)
      split
      · next heq =>
        refine pairwise_cons.mpr ⟨?_, hrest.2⟩
        intro t ht a ha b hb
        rcases mem_cons.mp ha with h | h
        · grind
        · exact hrest.1 t ht a h b hb
      · next hne =>
        refine pairwise_cons.mpr ⟨?_, pairwise_cons.mpr hrest⟩
        intro t ht a ha b hb
        rw [mem_singleton.mp ha]
        rcases mem_cons.mp ht with h | h
        · grind
        · grind
    · next hno =>
      -- Nothing comes after: a list with elements has a span with elements.
      have hnil : spansBy key xs = [] := by
        cases hspans : spansBy key xs with
        | nil => rfl
        | cons first rest =>
          have hne := spansBy_ne_nil key xs first (by rw [hspans]; exact .head _)
          cases first with
          | nil => exact absurd rfl hne
          | cons y span => exact absurd hspans (hno y span rest)
      rw [hnil]
      exact pairwise_singleton _ _

variable {l}

variable {span : List Nat}

theorem spansBy_head (h : span ∈ spansBy key l) : span.headD 0 ∈ span := by
  cases span with
  | nil => exact absurd rfl (spansBy_ne_nil key l _ h)
  | cons x span => exact .head _

theorem spansBy_heads (hl : l.Pairwise (fun a b => key a ≤ key b)) :
    ((spansBy key l).map (fun s => key (s.headD 0))).Pairwise (· < ·) :=
  pairwise_map.mpr ((spansBy_apart key l hl).imp_of_mem
    (fun hs ht hst => hst _ (spansBy_head key hs) _ (spansBy_head key ht)))

theorem sublist_of_spansBy (h : span ∈ spansBy key l) : span.Sublist l := by
  conv => rhs; rw [← flatten_spansBy key l]
  exact sublist_flatten_of_mem h

/-- There are no more spans than keys. -/
theorem length_spansBy_le {n : Nat} (hl : l.Pairwise (fun a b => key a ≤ key b))
    (hlt : ∀ x ∈ l, key x < n) : (spansBy key l).length ≤ n := by
  have hle := length_le_of_ascending n (spansBy_heads key hl) (fun v hv => by
    rcases mem_map.mp hv with ⟨s, hs, rfl⟩
    exact hlt _ ((sublist_of_spansBy key hs).subset (spansBy_head key hs)))
  rwa [length_map] at hle

end

/-! ## Containers -/

/-- The ids of one container, as the writer gets them. -/
structure OneContainer (span : List Nat) : Prop where
  nonempty : span ≠ []
  ascending : span.Pairwise (· < ·)
  small : ∀ id ∈ span, id < 2 ^ 32
  high : ∀ id ∈ span, highOf id = highOf (span.headD 0)

variable {high v count : Nat} {span ids : List Nat} {spans : List (List Nat)}
  {bytes rest : List UInt8} {previous : Option Nat} {headers : List (Nat × Nat)}

theorem readArray_container (previous : Option Nat) (rest : List UInt8)
    (hasc : span.Pairwise (· < ·)) (hhigh : ∀ id ∈ span, highOf id = high)
    (hprevious : ∀ p, previous = some p → ∀ id ∈ span, p < id) :
    readArray high span.length previous (span.flatMap (fun id => put16 (id % 65536)) ++ rest) =
      .ok (span, rest) := by
  induction span generalizing previous with
  | nil => rfl
  | cons id span ih =>
    have hid : high * 65536 + id % 65536 = id := by
      have hkey := hhigh id (.head _)
      unfold highOf at hkey
      omega
    rw [pairwise_cons] at hasc
    have hordered : previous.all (fun p => decide (p < id)) = true := by
      rw [Option.all_eq_true]
      grind
    have hrest := ih (some id) hasc.2 (fun x hx => hhigh x (.tail _ hx)) (fun p hp x hx => by
        rw [Option.some.injEq] at hp
        rw [← hp]
        exact hasc.1 x hx)
    rw [length_cons, flatMap_cons, append_assoc, readArray, u16_put16 _ _ (by omega)]
    simp [orError, hid, hordered, ensure, hrest]

/-- What setting a bit of a bitmap sets. -/
theorem testBit_modify (bits : List Nat) (w v : Nat) (hw : w / 8 < bits.length) :
    ((bits.modify (w / 8) (· ||| 2 ^ (w % 8))).getD (v / 8) 0).testBit (v % 8) =
      ((bits.getD (v / 8) 0).testBit (v % 8) || decide (v = w)) := by
  rw [getD_eq_getElem?_getD, getD_eq_getElem?_getD, getElem?_modify]
  by_cases hsame : w / 8 = v / 8
  · grind
  · grind

theorem bitmap_fold (span : List Nat) (bits : List Nat) (hlen : bits.length = bitmapBytes)
    (hbytes : ∀ b ∈ bits, b < 256) (v : Nat) :
    let out := span.foldl (fun bits id => bits.modify (id % 65536 / 8)
      (· ||| 2 ^ (id % 65536 % 8))) bits
    out.length = bitmapBytes ∧ (∀ b ∈ out, b < 256) ∧
      (out.getD (v / 8) 0).testBit (v % 8) =
        ((bits.getD (v / 8) 0).testBit (v % 8) || decide (v ∈ span.map (· % 65536))) := by
  induction span generalizing bits with
  | nil => exact ⟨hlen, hbytes, by simp⟩
  | cons id span ih =>
    have hindex : id % 65536 / 8 < bits.length := by
      rw [hlen, bitmapBytes]
      omega
    have hmod : ∀ b ∈ bits.modify (id % 65536 / 8) (· ||| 2 ^ (id % 65536 % 8)), b < 256 := by
      intro b hb
      rcases getElem_of_mem hb with ⟨i, hi, rfl⟩
      rw [getElem_modify]
      have hold := hbytes _ (getElem_mem (by simpa using hi : i < bits.length))
      split
      · refine Nat.or_lt_two_pow (n := 8) hold ?_
        exact Nat.pow_lt_pow_right (by omega) (by omega)
      · exact hold
    have hstep := ih (bits.modify (id % 65536 / 8) (· ||| 2 ^ (id % 65536 % 8)))
      (by rw [length_modify, hlen]) hmod
    simp only [foldl_cons] at hstep ⊢
    refine ⟨hstep.1, hstep.2.1, ?_⟩
    rw [hstep.2.2, testBit_modify bits (id % 65536) v hindex, map_cons, Bool.or_assoc,
      ← Bool.decide_or]
    simp

/-- The bits of a container's bitmap are its ids. -/
theorem bitmapOf_spec (span : List Nat) (v : Nat) :
    (bitmapOf span).length = bitmapBytes ∧ (∀ b ∈ bitmapOf span, b < 256) ∧
      ((bitmapOf span).getD (v / 8) 0).testBit (v % 8) = decide (v ∈ span.map (· % 65536)) := by
  have hfold := bitmap_fold span (replicate bitmapBytes 0) length_replicate
    (fun b hb => by rw [eq_of_mem_replicate hb]; decide) v
  grind [bitmapOf]

theorem readBitmap_container (rest : List UInt8) (hasc : span.Pairwise (· < ·))
    (hhigh : ∀ id ∈ span, highOf id = high) :
    readBitmap high ((bitmapOf span).map UInt8.ofNat ++ rest) = .ok (span, rest) := by
  have hlength : ((bitmapOf span).map UInt8.ofNat).length = bitmapBytes := by
    rw [length_map, (bitmapOf_spec span 0).1]
  have hid : ∀ id ∈ span, high * 65536 + id % 65536 = id := by grind [highOf]
  have hlows : (span.map (· % 65536)).Pairwise (· < ·) := by
    rw [pairwise_map]
    refine hasc.imp_of_mem (fun {a b} ha hb hab => ?_)
    grind
  have hbits : (range 65536).filter (fun v =>
      ((((bitmapOf span).map UInt8.ofNat ++ rest).getD (v / 8) 0).toNat).testBit (v % 8)) =
      span.map (· % 65536) := by
    rw [← filter_range 65536 hlows (fun v hv => by
      rcases mem_map.mp hv with ⟨id, _, rfl⟩
      omega)]
    refine filter_congr (fun v hv => ?_)
    have hv' := mem_range.mp hv
    have hindex : v / 8 < (bitmapOf span).length := by
      rw [(bitmapOf_spec span 0).1, bitmapBytes]
      omega
    have hbyte := (bitmapOf_spec span v).2.1 _ (getElem_mem hindex)
    have hbit := (bitmapOf_spec span v).2.2
    rw [getD_eq_getElem?_getD, getElem?_eq_getElem hindex, Option.getD_some] at hbit
    rw [getD_eq_getElem?_getD, getElem?_append_left (by rw [length_map]; exact hindex),
      getElem?_map, getElem?_eq_getElem hindex, Option.map_some, Option.getD_some,
      UInt8.toNat_ofNat', Nat.mod_eq_of_lt hbyte, hbit]
  have hback : (span.map (· % 65536)).map (high * 65536 + ·) = span := by
    rw [map_map]
    conv => rhs; rw [← map_id span]
    exact map_congr_left (fun id hmem => hid id hmem)
  have hlong : (!decide (((bitmapOf span).map UInt8.ofNat ++ rest).length < bitmapBytes)) = true := by
    simp [hlength]
  unfold readBitmap
  rw [hbits, hback, hlong, drop_left' hlength]
  rfl

/-- The key and cardinality a header says. -/
def headerOf (span : List Nat) : Nat × Nat := (highOf (span.headD 0), span.length)

theorem highOf_lt {id : Nat} (h : id < 2 ^ 32) : highOf id < 65536 := by
  unfold highOf
  omega

theorem OneContainer.head (h : OneContainer span) : span.headD 0 ∈ span := by
  cases span with
  | nil => exact absurd rfl h.nonempty
  | cons id span => exact .head _

theorem OneContainer.length_le (h : OneContainer span) : span.length ≤ 65536 := by
  have hlows : (span.map (· % 65536)).Pairwise (· < ·) := by
    rw [pairwise_map]
    refine h.ascending.imp_of_mem (fun {a b} ha hb hab => ?_)
    have h₁ := h.high a ha
    have h₂ := h.high b hb
    unfold highOf at h₁ h₂
    omega
  have hle := length_le_of_ascending 65536 hlows (fun v hv => by
    rcases mem_map.mp hv with ⟨id, _, rfl⟩
    omega)
  rwa [length_map] at hle

theorem readContainer_container (h : OneContainer span) (rest : List UInt8) :
    readContainer false (highOf (span.headD 0)) span.length (container span ++ rest) =
      .ok (span, rest) := by
  unfold readContainer container
  by_cases hsmall : span.length ≤ arrayMax
  · rw [if_pos hsmall, if_neg (by simp), if_pos hsmall]
    exact readArray_container none rest h.ascending h.high
      nofun
  · rw [if_neg hsmall, if_neg (by simp), if_neg hsmall]
    exact readBitmap_container rest h.ascending h.high

theorem readContainers_containers (h : ∀ span ∈ spans, OneContainer span) (c : Nat)
    (rest : List UInt8) :
    readContainers [] (spans.map headerOf) c (spans.flatMap container ++ rest) =
      .ok (spans.flatten, rest) := by
  induction spans generalizing c with
  | nil => rfl
  | cons span spans ih =>
    have hrest := ih (fun s hs => h s (.tail _ hs)) (c + 1)
    have hrun : isRun [] c = false := rfl
    rw [map_cons, flatMap_cons, append_assoc, headerOf, readContainers, hrun,
      readContainer_container (h span (.head _))]
    simp [ensure, hrest]

theorem readHeaders_headers (h : ∀ span ∈ spans, OneContainer span)
    (hkeys : spans.Pairwise (fun s t => ∀ a ∈ s, ∀ b ∈ t, highOf a < highOf b))
    (previous : Option Nat)
    (hprevious : ∀ p, previous = some p → ∀ span ∈ spans, p < highOf (span.headD 0))
    (rest : List UInt8) :
    readHeaders spans.length previous (spans.flatMap containerHeader ++ rest) =
      .ok (spans.map headerOf, rest) := by
  induction spans generalizing previous with
  | nil => rfl
  | cons span spans ih =>
    have hone := h span (.head _)
    rw [pairwise_cons] at hkeys
    have hrest := ih (fun s hs => h s (.tail _ hs)) hkeys.2
      (some (highOf (span.headD 0))) (fun p hp s hs => by
        rw [Option.some.injEq] at hp
        rw [← hp]
        exact hkeys.1 s hs _ hone.head _ (h s (.tail _ hs)).head)
    have hordered : previous.all (fun p => decide (p < highOf (span.headD 0))) = true := by
      rw [Option.all_eq_true]
      grind
    have hlength := hone.length_le
    have hpos : 0 < span.length := length_pos_iff.mpr hone.nonempty
    rw [length_cons, flatMap_cons, append_assoc, containerHeader,
      append_assoc, readHeaders, u16_put16 _ _ (highOf_lt (hone.small _ hone.head))]
    simp only [orError, bind, Except.bind]
    rw [u16_put16 _ _ (by omega)]
    have hless : span.length - 1 + 1 = span.length := by omega
    simp only [hordered, ensure, if_true, hrest, pure, Except.pure, map_cons, headerOf, hless]

theorem length_containerOffsets (spans : List (List Nat)) (offset : Nat) :
    (containerOffsets spans offset).length = spans.length * 4 := by
  induction spans generalizing offset with
  | nil => rfl
  | cons span spans ih =>
    rw [containerOffsets, length_append, ih, length_put32, length_cons]
    omega

theorem length_headers (spans : List (List Nat)) :
    (spans.flatMap containerHeader).length = spans.length * 4 := by
  induction spans with
  | nil => rfl
  | cons span spans ih =>
    rw [flatMap_cons, length_append, ih, containerHeader, length_append,
      length_put16, length_put16, length_cons]
    omega

/-- The containers of an ascending list. -/
theorem spans_containers (hasc : ids.Pairwise (· < ·)) (hsmall : ∀ id ∈ ids, id < 2 ^ 32) :
    ∀ span ∈ spansBy highOf ids, OneContainer span := by
  intro span hspan
  have hsub := sublist_of_spansBy highOf hspan
  exact ⟨spansBy_ne_nil highOf ids span hspan, hasc.sublist hsub,
    fun id hid => hsmall id (hsub.subset hid), spansBy_key highOf ids span hspan⟩

theorem highs_ordered (hasc : ids.Pairwise (· < ·)) :
    ids.Pairwise (fun a b => highOf a ≤ highOf b) :=
  hasc.imp (fun hab => Nat.div_le_div_right (Nat.le_of_lt hab))

theorem containers_le (hasc : ids.Pairwise (· < ·)) (hsmall : ∀ id ∈ ids, id < 2 ^ 32) :
    (spansBy highOf ids).length ≤ 65536 :=
  length_spansBy_le highOf (highs_ordered hasc) (fun id hid => highOf_lt (hsmall id hid))

/-- An ascending list of 32-bit ids reads back, whatever follows. -/
theorem decodePrefix_encode (hasc : ids.Pairwise (· < ·)) (hsmall : ∀ id ∈ ids, id < 2 ^ 32)
    (rest : List UInt8) : decodePrefix (encode ids ++ rest) = .ok (ids, rest) := by
  have hone := spans_containers hasc hsmall
  have hcount := containers_le hasc hsmall
  have hflat := flatten_spansBy highOf ids
  have hkeys := spansBy_apart highOf ids (highs_ordered hasc)
  generalize hspans : spansBy highOf ids = spans at hone hflat hkeys hcount
  unfold decodePrefix encode
  simp only [hspans]
  have hcookie : readCookie (put32 cookieNoRuns ++ (put32 (spans.length % 2 ^ 32) ++
      (spans.flatMap containerHeader ++
        (containerOffsets spans (8 + spans.length * 4 + spans.length * 4) ++
          spans.flatMap container))) ++ rest) =
      .ok ({ count := spans.length }, spans.flatMap containerHeader ++
        (containerOffsets spans (8 + spans.length * 4 + spans.length * 4) ++
          (spans.flatMap container ++ rest))) := by
    unfold readCookie
    rw [append_assoc, u32_put32 _ _ (by decide)]
    simp only [orError, bind, Except.bind, if_true]
    rw [append_assoc, u32_put32 _ _ (Nat.mod_lt _ (by decide))]
    simp only [pure, Except.pure, append_assoc, Nat.mod_eq_of_lt
      (show spans.length < 2 ^ 32 by omega)]
  rw [hcookie]
  simp only [bind, Except.bind, ensure]
  have hcredible : (!(decide (65536 < spans.length) || decide ((spans.flatMap containerHeader ++
      (containerOffsets spans (8 + spans.length * 4 + spans.length * 4) ++
        (spans.flatMap container ++ rest))).length / 4 < spans.length))) = true := by
    grind [length_headers]
  rw [if_pos hcredible]
  simp only []
  rw [readHeaders_headers hone hkeys none (by simp)]
  simp only [skipOffsets, if_true]
  rw [if_neg (by rw [length_append, length_containerOffsets]; omega)]
  simp only []
  rw [drop_left' (length_containerOffsets _ _), readContainers_containers hone, hflat]

/-! ## Treemaps read back -/

theorem u64_put64 (rest : List UInt8) (h : v < 2 ^ 64) :
    u64 (put64 v ++ rest) = some (v, rest) := by
  unfold put64 u64
  grind [u32_put32, pure]

/-- The ids under one upper half, as the writer gets them. -/
structure OneKey (span : List Nat) : Prop where
  ascending : span.Pairwise (· < ·)
  small : ∀ id ∈ span, id < 2 ^ 64
  upper : ∀ id ∈ span, upperOf id = upperOf (span.headD 0)

theorem OneKey.lows (h : OneKey span) :
    (span.map (· % 2 ^ 32)).Pairwise (· < ·) ∧ ∀ id ∈ span.map (· % 2 ^ 32), id < 2 ^ 32 := by
  refine ⟨?_, fun id hid => ?_⟩
  · rw [pairwise_map]
    refine h.ascending.imp_of_mem (fun {a b} ha hb hab => ?_)
    have h₁ := h.upper a ha
    have h₂ := h.upper b hb
    have h₄ := h.small b hb
    unfold upperOf at h₁ h₂
    omega
  · grind

theorem OneKey.back (h : OneKey span) :
    (span.map (· % 2 ^ 32)).map (upperOf (span.headD 0) * 2 ^ 32 + ·) = span := by
  rw [map_map]
  conv => rhs; rw [← map_id span]
  refine map_congr_left (fun id hid => ?_)
  have h₁ := h.upper id hid
  have h₂ := h.small id hid
  grind [id_eq, upperOf]

theorem readKeys_keys (spans : List (List Nat)) (h : ∀ span ∈ spans, OneKey span) :
    readKeys spans.length (spans.flatMap (fun span =>
      put32 (upperOf (span.headD 0)) ++ encode (span.map (· % 2 ^ 32)))) = .ok spans.flatten := by
  induction spans with
  | nil => rfl
  | cons span spans ih =>
    have hone := h span (.head _)
    have hupper : upperOf (span.headD 0) < 2 ^ 32 := Nat.mod_lt _ (by decide)
    rw [length_cons, flatMap_cons, append_assoc, readKeys, u32_put32 _ _ hupper]
    simp only [orError, bind, Except.bind]
    rw [decodePrefix_encode hone.lows.1 hone.lows.2]
    simp only [ih (fun s hs => h s (.tail _ hs)), hone.back, pure, Except.pure, flatten_cons]

theorem length_keys (spans : List (List Nat)) :
    spans.length * 4 ≤ (spans.flatMap (fun span =>
      put32 (upperOf (span.headD 0)) ++ encode (span.map (· % 2 ^ 32)))).length := by
  induction spans with
  | nil => exact Nat.le_refl 0
  | cons span spans ih => grind [length_put32]

theorem decodeTreemap_spans (hsmall : ∀ id ∈ ids, id < 2 ^ 64)
    (hcount : (spansBy upperOf ids).length < 2 ^ 64)
    (hasc : ∀ span ∈ spansBy upperOf ids, span.Pairwise (· < ·)) :
    decodeTreemap (encodeTreemap ids) = .ok ids := by
  have hflat := flatten_spansBy upperOf ids
  have hone : ∀ span ∈ spansBy upperOf ids, OneKey span := fun span hspan =>
    ⟨hasc span hspan, fun id hid => hsmall id ((sublist_of_spansBy upperOf hspan).subset hid),
      spansBy_key upperOf ids span hspan⟩
  have hkeys := length_keys (spansBy upperOf ids)
  unfold decodeTreemap encodeTreemap
  simp only [u64_put64 _ hcount, orError, bind, Except.bind]
  have hcredible : (!decide (((spansBy upperOf ids).flatMap (fun span =>
      put32 (upperOf (span.headD 0)) ++ encode (span.map (· % 2 ^ 32)))).length / 4 <
        (spansBy upperOf ids).length)) = true := by grind
  grind [ensure, readKeys_keys]

/-- A list of 64-bit ids reads back when each stretch of one upper half ascends; the upper halves
may come in any order. -/
theorem decodeTreemap_encode (hsmall : ∀ id ∈ ids, id < 2 ^ 64)
    (hbytes : (encodeTreemap ids).length < 2 ^ 64)
    (hasc : ∀ span ∈ spansBy upperOf ids, span.Pairwise (· < ·)) :
    decodeTreemap (encodeTreemap ids) = .ok ids := by
  have hkeys := length_keys (spansBy upperOf ids)
  exact decodeTreemap_spans hsmall (by grind [encodeTreemap]) hasc

/-- An ascending list has at most one stretch for each upper half. -/
theorem decodeTreemap_ascending (hasc : ids.Pairwise (· < ·)) (hsmall : ∀ id ∈ ids, id < 2 ^ 64) :
    decodeTreemap (encodeTreemap ids) = .ok ids := by
  have hupper : ids.Pairwise (fun a b => upperOf a ≤ upperOf b) := by
    refine hasc.imp_of_mem (fun {a b} ha hb hab => ?_)
    have h₂ := hsmall b hb
    unfold upperOf
    omega
  have hle := length_spansBy_le (n := 2 ^ 32) upperOf hupper (fun _ _ => Nat.mod_lt _ (by decide))
  exact decodeTreemap_spans hsmall (by omega)
    (fun _ hspan => hasc.sublist (sublist_of_spansBy upperOf hspan))

/-! ## Whatever is accepted -/

theorem u16_some (h : u16 bytes = some (v, rest)) :
    v < 65536 ∧ rest <:+ bytes := by
  unfold u16 at h
  split at h
  · next a b tail =>
    cases h
    have ha := a.toNat_lt
    have hb := b.toNat_lt
    exact ⟨by omega, [a, b], rfl⟩
  · cases h

/-- A read that did not come to the end. -/
theorem orError_eq_ok {α : Type} {message : String} {o : Option α} {a : α}
    (h : orError message o = .ok a) : o = some a := by
  cases o with
  | none => cases h
  | some b =>
    cases h
    rfl

/-- Ascending ids of one container. -/
structure InContainer (key : Nat) (ids : List Nat) : Prop where
  ascending : ids.Pairwise (· < ·)
  high : ∀ id ∈ ids, highOf id = key

theorem readArray_ok {key : Nat} (h : readArray key count previous bytes = .ok (ids, rest)) :
    InContainer key ids ∧ rest <:+ bytes ∧ ∀ p ∈ previous, ∀ id ∈ ids, p < id := by
  induction count generalizing previous bytes ids with
  | zero =>
    cases h
    exact ⟨⟨.nil, nofun⟩, suffix_rfl, fun _ _ => nofun⟩
  | succ count ih =>
    simp only [readArray, bind_eq_ok, ensure_eq_ok, pure_eq_ok] at h
    rcases h with ⟨⟨v, bytes'⟩, hv, _, hlt, ⟨others, rest'⟩, hothers, hout⟩
    cases hout
    rcases u16_some (orError_eq_ok hv) with ⟨hsmall, hsuffix⟩
    rcases ih hothers with ⟨hin, hrest, habove⟩
    refine ⟨⟨pairwise_cons.mpr ⟨habove _ rfl, hin.ascending⟩, ?_⟩, hrest.trans hsuffix, ?_⟩
    · exact forall_mem_cons.mpr ⟨by unfold highOf; omega, hin.high⟩
    · intro p hp
      have hpv : p < key * 65536 + v := by simpa [Option.mem_def.mp hp] using hlt
      exact forall_mem_cons.mpr ⟨hpv, fun id hid => hpv.trans (habove _ rfl id hid)⟩

theorem readRuns_ok {key : Nat} (h : readRuns key count previous bytes = .ok (ids, rest)) :
    InContainer key ids ∧ rest <:+ bytes ∧
      ∀ p ∈ previous, ∀ id ∈ ids, key * 65536 + p < id := by
  induction count generalizing previous bytes ids with
  | zero =>
    cases h
    exact ⟨⟨.nil, nofun⟩, suffix_rfl, fun _ _ => nofun⟩
  | succ count ih =>
    simp only [readRuns, bind_eq_ok, ensure_eq_ok, pure_eq_ok] at h
    rcases h with ⟨⟨v, bytes₁⟩, hv, ⟨less, bytes₂⟩, hless, _, hlt, ⟨others, rest'⟩, hothers, hout⟩
    cases hout
    have hsuffix := (u16_some (orError_eq_ok hless)).2.trans (u16_some (orError_eq_ok hv)).2
    rcases ih hothers with ⟨hin, hrest, habove⟩
    simp only [Bool.and_eq_true, Bool.not_eq_true', decide_eq_false_iff_not, Nat.not_lt] at hlt
    have hrun : ∀ id ∈ (range' v (less + 1)).map (key * 65536 + ·),
        key * 65536 + v ≤ id ∧ id ≤ key * 65536 + (v + less) := by
      intro id hid
      rcases mem_map.mp hid with ⟨w, hw, rfl⟩
      have hw' := mem_range'_1.mp hw
      omega
    refine ⟨⟨pairwise_append.mpr ⟨?_, hin.ascending, ?_⟩, ?_⟩, hrest.trans hsuffix, ?_⟩
    · exact pairwise_map.mpr ((pairwise_lt_range' (s := v)).imp (by omega))
    · exact fun a ha b hb => lt_of_le_of_lt (hrun a ha).2 (habove _ rfl b hb)
    · refine forall_mem_append.mpr ⟨fun id hid => ?_, hin.high⟩
      have hid' := hrun id hid
      unfold highOf
      omega
    · intro p hp
      have hpv : p < v := by simpa [Option.mem_def.mp hp] using hlt.2
      refine forall_mem_append.mpr ⟨fun id hid => ?_, fun id hid => ?_⟩
      · have hid' := hrun id hid
        omega
      · have hid' := habove _ rfl id hid
        omega

theorem readBitmap_ok {key : Nat} (h : readBitmap key bytes = .ok (ids, rest)) :
    InContainer key ids ∧ rest <:+ bytes ∧ ∀ v < 65536, v / 8 < bytes.length := by
  simp only [readBitmap, bind_eq_ok, ensure_eq_ok, pure_eq_ok] at h
  rcases h with ⟨_, hlong, hout⟩
  obtain ⟨rfl, rfl⟩ := Prod.mk.inj hout
  have hlength : bitmapBytes ≤ bytes.length := by simpa using hlong
  unfold bitmapBytes at hlength
  refine ⟨⟨?_, fun id hid => ?_⟩, drop_suffix _ _, fun v hv => by omega⟩
  · exact pairwise_map.mpr ((pairwise_lt_range.filter _).imp (by omega))
  · rcases mem_map.mp hid with ⟨v, hv, rfl⟩
    have hv' := mem_range.mp (mem_of_mem_filter hv)
    unfold highOf
    omega

theorem readContainer_ok {run : Bool} {key cardinality : Nat}
    (h : readContainer run key cardinality bytes = .ok (ids, rest)) :
    InContainer key ids ∧ rest <:+ bytes := by
  unfold readContainer at h
  split at h
  · rcases (bind_eq_ok _ _ _).mp h with ⟨⟨runs, bytes'⟩, hruns, h⟩
    rcases readRuns_ok h with ⟨hin, hsuffix, -⟩
    exact ⟨hin, hsuffix.trans (u16_some (orError_eq_ok hruns)).2⟩
  split at h
  · exact ⟨(readArray_ok h).1, (readArray_ok h).2.1⟩
  · exact ⟨(readBitmap_ok h).1, (readBitmap_ok h).2.1⟩

/-- Containers whose keys ascend. -/
theorem readContainers_ok {flags : List UInt8} {c : Nat}
    (hkeys : headers.Pairwise (fun a b => a.1 < b.1))
    (h : readContainers flags headers c bytes = .ok (ids, rest)) :
    ids.Pairwise (· < ·) ∧ (∀ id ∈ ids, ∃ e ∈ headers, highOf id = e.1) ∧ rest <:+ bytes := by
  induction headers generalizing c bytes ids with
  | nil =>
    cases h
    exact ⟨.nil, nofun, suffix_rfl⟩
  | cons e headers ih =>
    rcases e with ⟨key, cardinality⟩
    simp only [readContainers, bind_eq_ok, ensure_eq_ok, pure_eq_ok] at h
    rcases h with ⟨⟨mine, bytes'⟩, hmine, _, -, ⟨others, rest'⟩, hothers, hout⟩
    cases hout
    rw [pairwise_cons] at hkeys
    rcases readContainer_ok hmine with ⟨hin, hsuffix⟩
    rcases ih hkeys.2 hothers with ⟨hasc, hhigh, hrest⟩
    refine ⟨pairwise_append.mpr ⟨hin.ascending, hasc, fun a ha b hb => ?_⟩, ?_, hrest.trans hsuffix⟩
    · rcases hhigh b hb with ⟨e, he, hb'⟩
      have hlt := hkeys.1 e he
      have ha' := hin.high a ha
      unfold highOf at ha' hb'
      omega
    · refine forall_mem_append.mpr ⟨fun id hid => ⟨_, .head _, hin.high id hid⟩, fun id hid => ?_⟩
      rcases hhigh id hid with ⟨e, he, heq⟩
      exact ⟨e, .tail _ he, heq⟩

theorem readHeaders_ok (h : readHeaders count previous bytes = .ok (headers, rest)) :
    headers.Pairwise (fun a b => a.1 < b.1) ∧ (∀ p ∈ previous, ∀ e ∈ headers, p < e.1) ∧
      headers.length = count ∧ rest <:+ bytes := by
  induction count generalizing previous bytes headers with
  | zero =>
    cases h
    exact ⟨.nil, fun _ _ => nofun, rfl, suffix_rfl⟩
  | succ count ih =>
    simp only [readHeaders, bind_eq_ok, ensure_eq_ok, pure_eq_ok] at h
    rcases h with ⟨⟨key, bytes₁⟩, hkey, ⟨less, bytes₂⟩, hless, _, hlt, ⟨others, rest'⟩, hothers,
      hout⟩
    cases hout
    rcases ih hothers with ⟨hasc, habove, hlen, hrest⟩
    refine ⟨pairwise_cons.mpr ⟨habove _ rfl, hasc⟩, fun p hp => ?_, by simp [hlen],
      hrest.trans ((u16_some (orError_eq_ok hless)).2.trans (u16_some (orError_eq_ok hkey)).2)⟩
    have hpk : p < key := by simpa [Option.mem_def.mp hp] using hlt
    exact forall_mem_cons.mpr ⟨hpk, fun e he => hpk.trans (habove _ rfl e he)⟩

theorem u32_some (h : u32 bytes = some (v, rest)) : v < 2 ^ 32 ∧ rest <:+ bytes := by
  unfold u32 at h
  split at h
  · next a b c d tail =>
    cases h
    have ha := a.toNat_lt
    have hb := b.toNat_lt
    have hc := c.toNat_lt
    have hd := d.toNat_lt
    exact ⟨by omega, [a, b, c, d], rfl⟩
  · cases h

/-- There is a flag for every container, where there are flags at all. -/
theorem readCookie_ok {containers : Containers} (h : readCookie bytes = .ok (containers, rest)) :
    rest <:+ bytes ∧
      ∀ c < containers.count, containers.runFlags = [] ∨ c / 8 < containers.runFlags.length := by
  rcases (bind_eq_ok _ _ _).mp h with ⟨⟨cookie, bytes₁⟩, hcookie, h⟩
  have hfirst := (u32_some (orError_eq_ok hcookie)).2
  simp only at h
  split at h
  · rcases (bind_eq_ok _ _ _).mp h with ⟨⟨count, bytes₂⟩, hcount, hout⟩
    cases hout
    exact ⟨(u32_some (orError_eq_ok hcount)).2.trans hfirst, fun _ _ => .inl rfl⟩
  split at h
  · simp only [bind_eq_ok, ensure_eq_ok, pure_eq_ok] at h
    rcases h with ⟨_, hlong, hout⟩
    obtain ⟨rfl, rfl⟩ := Prod.mk.inj hout
    refine ⟨(drop_suffix _ _).trans hfirst, fun c hc => .inr ?_⟩
    have hlength : (cookie / 65536 + 1 + 7) / 8 ≤ bytes₁.length := by simpa using hlong
    simp only [length_take] at hc ⊢
    omega
  · cases h

theorem decodePrefix_ok (h : decodePrefix bytes = .ok (ids, rest)) :
    rest <:+ bytes ∧ ids.Pairwise (· < ·) := by
  simp only [decodePrefix, bind_eq_ok, ensure_eq_ok] at h
  rcases h with ⟨⟨containers, bytes₁⟩, hcookie, _, -, ⟨headers, bytes₂⟩, hheaders, bytes₃, hskip, h⟩
  rcases readHeaders_ok hheaders with ⟨hkeys, -, -, hsuffix₂⟩
  rcases readContainers_ok hkeys h with ⟨hasc, -, hsuffix⟩
  have hsuffix₃ : bytes₃ <:+ bytes₂ := by
    unfold skipOffsets at hskip
    split at hskip
    · split at hskip
      · cases hskip
      · cases hskip
        exact drop_suffix _ _
    · cases hskip
      exact suffix_rfl
  exact ⟨hsuffix.trans (hsuffix₃.trans (hsuffix₂.trans (readCookie_ok hcookie).1)), hasc⟩

/-- Ascending ids read back, from a bitmap with exactly its bytes taken and from a treemap. Of any
bytes, the reader takes no more than there are, looks at flags and bits only where there are
some, and gives ascending ids. -/
theorem bitmap_round_trip :
    (∀ ids : List Nat, ids.Pairwise (· < ·) → (∀ id ∈ ids, id < 2 ^ 32) →
      decode (encode ids) = .ok ids ∧
        ∀ rest, decodePrefix (encode ids ++ rest) = .ok (ids, rest)) ∧
    (∀ ids : List Nat, ids.Pairwise (· < ·) → (∀ id ∈ ids, id < 2 ^ 64) →
      decodeTreemap (encodeTreemap ids) = .ok ids) ∧
    (∀ bytes ids rest, decodePrefix bytes = .ok (ids, rest) →
      rest <:+ bytes ∧ ids.Pairwise (· < ·)) ∧
    (∀ bytes containers rest, readCookie bytes = .ok (containers, rest) →
      ∀ c < containers.count, containers.runFlags = [] ∨ c / 8 < containers.runFlags.length) ∧
    (∀ key bytes out, readBitmap key bytes = .ok out → ∀ v < 65536, v / 8 < bytes.length) := by
  refine ⟨fun ids hasc hsmall => ⟨?_, decodePrefix_encode hasc hsmall⟩,
    fun ids hasc hsmall => decodeTreemap_ascending hasc hsmall, fun _ _ _ h => decodePrefix_ok h,
    fun _ _ _ h => (readCookie_ok h).2, fun _ _ _ h => (readBitmap_ok h).2.2⟩
  have hback := decodePrefix_encode hasc hsmall []
  rw [append_nil] at hback
  unfold decode
  rw [hback]
  rfl

theorem bitmap_round_trip_two : decode (encode [1, 65536]) = .ok [1, 65536] ∧
    decodeTreemap (encodeTreemap [1, 2 ^ 40]) = .ok [1, 2 ^ 40] :=
  ⟨(bitmap_round_trip.1 _ (by decide) (by decide)).1,
    bitmap_round_trip.2.1 _ (by decide) (by decide)⟩

end Roaring

end NanoLance
