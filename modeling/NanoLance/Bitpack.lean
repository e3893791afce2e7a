import Mathlib.Data.Nat.Size
import NanoLance.Lib.Limbs
import NanoLance.Lib.Outcome

/-!
# Bit-Packed Buffers

Values are packed in blocks of 1024 by the FastLanes kernels. A block of a page has its width in
front. The blocks of a dictionary have none, and a last block that is not full may be stored raw
instead of packed: the reader tells the two apart by the length of the buffer alone. The writer
never stores it raw, and plans no dictionary whose packed last block would be as long as a raw one.

## Theorems

* `bitpacked_round_trip`: What is packed is read back.
-/

namespace NanoLance

namespace Bitpack

open List Lib

abbrev Word (bytes : Nat) := BitVec (8 * bytes)

/-- The kernels of one element size, inverse to each other where the values fit the width. -/
structure FastLanes (bytes : Nat) where
  packedWords : Nat → Nat
  pack : Nat → List (Word bytes) → List (Word bytes)
  unpack : Nat → List (Word bytes) → List (Word bytes)
  size : ∀ width block, block.length = 1024 → (pack width block).length = packedWords width
  inverse : ∀ width block, width ≤ 8 * bytes → block.length = 1024 →
    (∀ v ∈ block, v.toNat < 2 ^ width) → unpack width (pack width block) = block

/-! ## Memory -/

def leBytes : Nat → Nat → List UInt8
  | 0, _ => []
  | n + 1, v => UInt8.ofNat v :: leBytes n (v / 256)

def ofLeBytes : List UInt8 → Nat
  | [] => 0
  | b :: rest => b.toNat + 256 * ofLeBytes rest

/-- `memcpy` from an array of elements. -/
def bytesOf {bytes : Nat} (words : List (Word bytes)) : List UInt8 :=
  words.flatMap (fun w => leBytes bytes w.toNat)

/-- `memcpy` to an array of `n` elements. -/
def wordsOf (bytes : Nat) : Nat → List UInt8 → List (Word bytes)
  | 0, _ => []
  | n + 1, memory =>
    BitVec.ofNat _ (ofLeBytes (memory.take bytes)) :: wordsOf bytes n (memory.drop bytes)

/-! ## Packing -/

variable {bytes : Nat}

/-- The bits of the largest value. -/
def bitWidth (values : List (Word bytes)) : Nat :=
  (values.foldl (· ||| ·) 0).toNat.size

/-- A block, filled up with zeros. -/
def padded (values : List (Word bytes)) : List (Word bytes) :=
  values ++ replicate (1024 - values.length) 0

def encodeBlock (k : FastLanes bytes) (values : List (Word bytes)) : List UInt8 :=
  let width := bitWidth values
  bytesOf (BitVec.ofNat _ width :: k.pack width (padded values))

def decodeBlock (k : FastLanes bytes) (chunk : List UInt8) (numValues : Nat) (out : List UInt8) :
    Except String (List UInt8) := do
  ensure (!(chunk.length < bytes)) "bitpacked chunk shorter than width header"
  let width := ofLeBytes (chunk.take bytes) % 2 ^ 32
  ensure (!(8 * bytes < width)) "bitpacked chunk has invalid bit width"
  ensure (chunk.length = bytes * (1 + k.packedWords width))
    "bitpacked chunk size does not match bit width"
  let packed := wordsOf bytes (k.packedWords width) (chunk.drop bytes)
  ensure (!(1024 < numValues)) "bitpacked chunk value count exceeds FastLanes block size"
  return out ++ (bytesOf (k.unpack width packed)).take (numValues * bytes)

def packBlocks (k : FastLanes bytes) (width : Nat) : Nat → List (Word bytes) → List (Word bytes)
  | 0, _ => []
  | n + 1, values =>
    k.pack width (padded (values.take 1024)) ++ packBlocks k width n (values.drop 1024)

def encodeOutOfLine (k : FastLanes bytes) (values : List (Word bytes)) (width : Nat) :
    List UInt8 :=
  bytesOf (packBlocks k width ((values.length + 1023) / 1024) values)

def unpackBlocks (k : FastLanes bytes) (width : Nat) : Nat → List (Word bytes) → List (Word bytes)
  | 0, _ => []
  | n + 1, words =>
    k.unpack width (words.take (k.packedWords width)) ++
      unpackBlocks k width n (words.drop (k.packedWords width))

def decodeOutOfLine (k : FastLanes bytes) (buffer : List UInt8) (count width : Nat)
    (what : String) : Except String (List (Word bytes)) := do
  ensure (!(8 * bytes < width)) s!"{what} declares an unsupported width of {width} bits"
  ensure (buffer.length % bytes = 0) s!"{what} is not a whole number of {bytes * 8}-bit words"
  let packedWords := k.packedWords width
  let words := buffer.length / bytes
  let wholeBlocks := count / 1024
  let tail := count % 1024
  let fullWords := wholeBlocks * packedWords
  let tailIsRaw := tail ≠ 0 && words = fullWords + tail
  let expectedWords :=
    if tailIsRaw then fullWords + tail else fullWords + if tail ≠ 0 then packedWords else 0
  ensure (words = expectedWords) (s!"{what} is {buffer.length} bytes, expected " ++
    s!"{expectedWords * bytes} for {count} values at {width} bits")
  let memory := wordsOf bytes words buffer
  let whole := unpackBlocks k width wholeBlocks memory
  let rest := memory.drop fullWords
  return whole ++
    if tailIsRaw then rest.take tail
    else if tail ≠ 0 then (k.unpack width (rest.take packedWords)).take tail
    else []

/-- When a dictionary is packed out of line: its blocks are several, and a last block that is not
    full is not as long packed as raw. -/
structure OutOfLine (k : FastLanes bytes) (values : List (Word bytes)) (width : Nat) : Prop where
  blocks : 1024 < values.length
  largest : width = bitWidth values
  nonzero : width ≠ 0
  told : ¬(values.length % 1024 ≠ 0 ∧ values.length % 1024 = k.packedWords width)

/-! ## Reading back -/

theorem length_leBytes (n v : Nat) : (leBytes n v).length = n := by
  induction n generalizing v with
  | zero => rfl
  | succ n ih => rw [leBytes, length_cons, ih]

theorem ofLeBytes_leBytes (n v : Nat) (h : v < 256 ^ n) : ofLeBytes (leBytes n v) = v := by
  induction n generalizing v with
  | zero => exact (Nat.lt_one_iff.mp h).symm
  | succ n ih =>
    rw [leBytes, ofLeBytes, ih (v / 256) (by rw [Nat.pow_succ] at h; omega), UInt8.toNat_ofNat']
    omega

theorem ofLeBytes_word (w : Word bytes) : ofLeBytes (leBytes bytes w.toNat) = w.toNat := by
  refine ofLeBytes_leBytes bytes w.toNat ?_
  rw [show 256 = 2 ^ 8 from rfl, ← Nat.pow_mul]
  exact w.isLt

variable (words : List (Word bytes))

theorem length_bytesOf : (bytesOf words).length = words.length * bytes := by
  simp [bytesOf, length_leBytes]

theorem wordsOf_bytesOf (rest : List UInt8) :
    wordsOf bytes words.length (bytesOf words ++ rest) = words := by
  induction words with
  | nil => rfl
  | cons w words ih =>
    have hlen := length_leBytes bytes w.toNat
    rw [bytesOf, flatMap_cons, ← bytesOf, append_assoc, length_cons, wordsOf,
      take_left' hlen, drop_left' hlen, ih, ofLeBytes_word, BitVec.ofNat_toNat, BitVec.setWidth_eq]

variable {values : List (Word bytes)}

theorem length_padded (h : values.length ≤ 1024) : (padded values).length = 1024 := by
  rw [padded, length_append, length_replicate, Nat.add_sub_cancel' h]

theorem le_foldl_or (values : List (Word bytes)) (acc : Word bytes) :
    acc.toNat ≤ (values.foldl (· ||| ·) acc).toNat ∧
      ∀ v ∈ values, v.toNat ≤ (values.foldl (· ||| ·) acc).toNat := by
  induction values generalizing acc with
  | nil => exact ⟨Nat.le_refl _, nofun⟩
  | cons w values ih =>
    rcases ih (acc ||| w) with ⟨hacc, hrest⟩
    rw [BitVec.toNat_or] at hacc
    refine ⟨Nat.le_trans Nat.left_le_or hacc, fun v hv => ?_⟩
    rcases mem_cons.mp hv with rfl | hv
    · exact Nat.le_trans Nat.right_le_or hacc
    · exact hrest v hv

theorem lt_bitWidth {v : Word bytes} (hv : v ∈ values) : v.toNat < 2 ^ bitWidth values :=
  Nat.lt_of_le_of_lt ((le_foldl_or values 0).2 v hv) (Nat.lt_size_self _)

theorem bitWidth_le (values : List (Word bytes)) : bitWidth values ≤ 8 * bytes :=
  Nat.size_le.mpr (BitVec.isLt _)

section

variable (k : FastLanes bytes) {values : List (Word bytes)} {width : Nat}
  (hfit : ∀ v ∈ values, v.toNat < 2 ^ width) (hwidth : width ≤ 8 * bytes)

include hfit hwidth

/-- A block that may not be full is read back. -/
theorem unpack_padded (hlen : values.length ≤ 1024) :
    k.unpack width (k.pack width (padded values)) = padded values := by
  refine k.inverse width _ hwidth (length_padded hlen) fun v hv => ?_
  rcases mem_append.mp hv with hv | hv
  · exact hfit v hv
  · rw [eq_of_mem_replicate hv]
    exact Nat.two_pow_pos width

/-- Full blocks are read back. -/
theorem unpackBlocks_packBlocks (n : Nat) (hn : n * 1024 ≤ values.length) (rest : List (Word bytes)) :
    unpackBlocks k width n (packBlocks k width n values ++ rest) = values.take (n * 1024) := by
  induction n generalizing values with
  | zero => rfl
  | succ n ih =>
    have hfull : (values.take 1024).length = 1024 := length_take_of_le (by omega)
    have hsize := k.size width _ (length_padded (length_take_le 1024 values))
    have hhead : ∀ v ∈ values.take 1024, v.toNat < 2 ^ width := fun v hv =>
      hfit v ((take_sublist _ _).subset hv)
    have hblock := unpack_padded k hhead hwidth (Nat.le_of_eq hfull)
    have hpad : padded (values.take 1024) = values.take 1024 := by simp [padded, hfull]
    have hlen : n * 1024 ≤ (values.drop 1024).length := by
      rw [length_drop]
      exact Nat.le_sub_of_add_le (Nat.succ_mul n 1024 ▸ hn)
    have hrest := ih (fun v hv => hfit v (mem_of_mem_drop hv)) hlen
    rw [packBlocks, append_assoc, unpackBlocks, take_left' hsize, drop_left' hsize, hblock, hrest,
      hpad, ← take_add, Nat.succ_mul, Nat.add_comm]

end

variable (k : FastLanes bytes)

theorem packBlocks_succ (width n : Nat) (values : List (Word bytes)) :
    packBlocks k width (n + 1) values =
      packBlocks k width n values ++ k.pack width (padded ((values.drop (n * 1024)).take 1024)) := by
  induction n generalizing values with
  | zero => simp [packBlocks]
  | succ n ih =>
    rw [packBlocks, ih, packBlocks, append_assoc, drop_drop, Nat.succ_mul, Nat.add_comm 1024]

theorem length_packBlocks (width n : Nat) (values : List (Word bytes)) :
    (packBlocks k width n values).length = n * k.packedWords width := by
  induction n generalizing values with
  | zero => exact (Nat.zero_mul _).symm
  | succ n ih =>
    rw [packBlocks, length_append, k.size width _ (length_padded (length_take_le 1024 values)), ih,
      Nat.succ_mul, Nat.add_comm]

theorem decode_encodeBlock (hbytes : bytes ∈ [1, 2, 4, 8]) (hlen : values.length ≤ 1024)
    (out : List UInt8) :
    decodeBlock k (encodeBlock k values) values.length out = .ok (out ++ bytesOf values) := by
  have hwidth := bitWidth_le values
  have hsmall : bitWidth values < 2 ^ (8 * bytes) ∧ bitWidth values < 2 ^ 32 := by
    simp only [mem_cons, not_mem_nil, or_false] at hbytes
    rcases hbytes with rfl | rfl | rfl | rfl <;> omega
  have hblock := unpack_padded k (fun v => lt_bitWidth) hwidth hlen
  have hsize := k.size (bitWidth values) _ (length_padded hlen)
  set word : Word bytes := BitVec.ofNat _ (bitWidth values)
  have hword : ofLeBytes (leBytes bytes word.toNat) % 2 ^ 32 = bitWidth values := by
    rw [ofLeBytes_word, BitVec.toNat_ofNat, Nat.mod_eq_of_lt hsmall.1, Nat.mod_eq_of_lt hsmall.2]
  have hhead := length_leBytes bytes word.toNat
  have hread := wordsOf_bytesOf (k.pack (bitWidth values) (padded values)) []
  rw [hsize, append_nil] at hread
  have hchunk : encodeBlock k values = leBytes bytes word.toNat ++
      bytesOf (k.pack (bitWidth values) (padded values)) := rfl
  simp only [decodeBlock, bind_eq_ok, pure_eq_ok, ensure_eq_ok, exists_const]
  rw [hchunk, take_left' hhead, drop_left' hhead, hword, length_append, hhead, length_bytesOf, hsize,
    hread, hblock]
  have hvalues : (bytesOf (padded values)).take (values.length * bytes) = bytesOf values := by
    rw [padded, bytesOf, flatMap_append]
    exact take_left' (length_bytesOf values)
  rw [hvalues]
  simp [hwidth, hlen, Nat.add_mul, Nat.mul_comm bytes]

theorem decode_encodeOutOfLine (hbytes : 0 < bytes) {width : Nat} (h : OutOfLine k values width)
    (what : String) :
    decodeOutOfLine k (encodeOutOfLine k values width) values.length width what = .ok values := by
  have hwidth : width ≤ 8 * bytes := h.largest ▸ bitWidth_le values
  have hfit : ∀ v ∈ values, v.toNat < 2 ^ width := fun v hv => h.largest ▸ lt_bitWidth hv
  have hdiv := Nat.div_add_mod values.length 1024
  generalize hn : values.length / 1024 = n at hdiv
  generalize ht : values.length % 1024 = tail at hdiv
  set packed := packBlocks k width ((values.length + 1023) / 1024) values with hpacked
  have hencode : encodeOutOfLine k values width = bytesOf packed := rfl
  have hlen : (bytesOf packed).length = packed.length * bytes := length_bytesOf packed
  have hread := wordsOf_bytesOf packed []
  rw [append_nil] at hread
  rw [hencode]
  simp only [decodeOutOfLine, bind_eq_ok, pure_eq_ok, ensure_eq_ok, exists_const]
  rw [hlen, Nat.mul_div_cancel _ hbytes, Nat.mul_mod_left, hread, hn, ht]
  by_cases htail : tail = 0
  · have hblocks : (values.length + 1023) / 1024 = n := by omega
    rw [hblocks] at hpacked
    have hwhole := unpackBlocks_packBlocks k hfit hwidth n (by omega) []
    rw [append_nil, ← hpacked, take_of_length_le (by omega)] at hwhole
    have hwords : packed.length = n * k.packedWords width := by rw [hpacked, length_packBlocks]
    simp [htail, hwhole, hwords, hwidth]
  · have hblocks : (values.length + 1023) / 1024 = n + 1 := by omega
    rw [hblocks, packBlocks_succ] at hpacked
    have hwhole := unpackBlocks_packBlocks k hfit hwidth n (by omega)
      (k.pack width (padded ((values.drop (n * 1024)).take 1024)))
    rw [← hpacked] at hwhole
    have hlast : (values.drop (n * 1024)).take 1024 = values.drop (n * 1024) :=
      take_of_length_le (by rw [length_drop]; omega)
    rw [hlast] at hpacked
    have hprefix := length_packBlocks k width n values
    have hshort : (values.drop (n * 1024)).length ≤ 1024 := by rw [length_drop]; omega
    have hsize := k.size width _ (length_padded hshort)
    have hwords : packed.length = n * k.packedWords width + k.packedWords width := by
      rw [hpacked, length_append, hprefix, hsize]
    have hrest : packed.drop (n * k.packedWords width) =
        k.pack width (padded (values.drop (n * 1024))) := by rw [hpacked, drop_left' hprefix]
    have hblock := unpack_padded k (fun v hv => hfit v (mem_of_mem_drop hv)) hwidth hshort
    have hvalues : (padded (values.drop (n * 1024))).take tail = values.drop (n * 1024) :=
      take_left' (by simp only [length_drop]; omega)
    -- The buffer has the length of a raw last block only where the writer plans no dictionary.
    have htold : k.packedWords width ≠ tail := fun heq => h.told (ht.symm ▸ ⟨htail, heq.symm⟩)
    rw [hwhole, hrest, take_of_length_le (Nat.le_of_eq hsize), hblock, hvalues]
    simp [htail, htold, hwords, hwidth]

/-- A block of up to 1024 values of 1, 2, 4 or 8 bytes is read back, and so is every dictionary that
    is packed out of line, with a last block of any length. -/
theorem bitpacked_round_trip :
    (∀ bytes ∈ [1, 2, 4, 8], ∀ (k : FastLanes bytes) (values : List (Word bytes))
      (out : List UInt8), values.length ≤ 1024 →
      decodeBlock k (encodeBlock k values) values.length out = .ok (out ++ bytesOf values)) ∧
    ∀ (k : FastLanes 8) (values : List (Word 8)) (width : Nat) (what : String),
      OutOfLine k values width →
      decodeOutOfLine k (encodeOutOfLine k values width) values.length width what = .ok values :=
  ⟨fun _ hbytes k _ out hlen => decode_encodeBlock k hbytes hlen out,
    fun k _ _ what h => decode_encodeOutOfLine k (by decide) h what⟩

/-! ## A packing kernel -/

/-- Kernels that store the values one after another, each in `width` bits. -/
def packing (bytes : Nat) (h : 8 * bytes ∣ 1024) : FastLanes bytes where
  packedWords := fun width => 1024 * width / (8 * bytes)
  pack := fun width block =>
    (Limbs.cut (2 ^ (8 * bytes)) (1024 * width / (8 * bytes))
      (Nat.ofDigits (2 ^ width) (block.map BitVec.toNat))).map (BitVec.ofNat _)
  unpack := fun width words =>
    (Limbs.cut (2 ^ width) 1024
      (Nat.ofDigits (2 ^ (8 * bytes)) (words.map BitVec.toNat))).map (BitVec.ofNat _)
  size := fun width block _ => by rw [length_map, Limbs.length_cut]
  inverse := by
    intro width block hwidth hlen hfit
    have hfits : Limbs.Small (2 ^ width) (block.map BitVec.toNat) := by simpa [Limbs.Small] using hfit
    have hvalues := Limbs.cut_value _ hfits
    have hlt := Limbs.value_lt _ hfits
    rw [length_map] at hvalues hlt
    rw [hlen] at hvalues
    set v := Nat.ofDigits (2 ^ width) (block.map BitVec.toNat)
    -- The words hold exactly the bits of the values.
    have hbits : 8 * bytes * (1024 * width / (8 * bytes)) = width * 1024 := by
      rw [Nat.mul_div_cancel' (Dvd.dvd.mul_right h width), Nat.mul_comm]
    have hwords := Limbs.value_cut (2 ^ (8 * bytes)) (1024 * width / (8 * bytes)) v (by
      rw [← Nat.pow_mul, hbits, ← hlen, Nat.pow_mul]
      exact hlt)
    have hsmall := Limbs.small_cut (Nat.two_pow_pos (8 * bytes)) (1024 * width / (8 * bytes)) v
    rw [map_map, map_congr_left (g := id) (fun d hd => by simp [Nat.mod_eq_of_lt (hsmall d hd)]),
      map_id, hwords, hvalues, map_map, map_congr_left (g := id) (fun w _ => by simp), map_id]

def ones : List (Word 8) := replicate 1025 1

theorem ones_length : ones.length = 1025 := length_replicate

theorem ones_outOfLine : OutOfLine (packing 8 (by decide)) ones (bitWidth ones) where
  blocks := by rw [ones_length]; decide
  largest := rfl
  nonzero := fun h => by
    have hone : (1 : Word 8).toNat < 2 ^ bitWidth ones :=
      lt_bitWidth (mem_replicate.mpr ⟨by decide, rfl⟩)
    rw [h] at hone
    exact absurd hone (by decide)
  told := by
    rw [ones_length]
    rintro ⟨-, h⟩
    change 1025 % 1024 = 1024 * bitWidth ones / (8 * 8) at h
    omega

theorem bitpacked_round_trip_ones :
    decodeBlock (packing 1 (by decide)) (encodeBlock (packing 1 (by decide)) [3]) 1 [] =
        .ok (bytesOf [(3 : Word 1)]) ∧
      decodeOutOfLine (packing 8 (by decide))
        (encodeOutOfLine (packing 8 (by decide)) ones (bitWidth ones)) ones.length
        (bitWidth ones) "dictionary" = .ok ones :=
  ⟨bitpacked_round_trip.1 1 (by decide) (packing 1 (by decide)) [3] [] (by decide),
    bitpacked_round_trip.2 (packing 8 (by decide)) ones _ "dictionary" ones_outOfLine⟩

end Bitpack

end NanoLance
