import NanoLance.Lib.Slices

/-!
# Reads Through Two Caches

An open data file keeps the end of the file, once a footer was read, and the block
that held the last small read. A read is answered from the end, from the block, or
from the file; a small read loads its block, cut at the end of the file and widened
when the read goes past it.

A read is given what the source's failure is, if it fails, and a file may be
closed and opened again in between.
-/

namespace NanoLance

namespace BlockReads

open List Lib

/-- A file, how much of its end a footer takes, and the block a small read loads. -/
structure Source where
  bytes : List UInt8
  footerReadSize : Nat
  smallReadBlock : Nat
  fits : bytes.length < 2 ^ 64

/-- The start of a cache that holds nothing. -/
def unset : Nat := 2 ^ 64 - 1

/-- An open file's caches. -/
structure DataFile where
  tailStart : Nat := unset
  tail : List UInt8 := []
  blockStart : Nat := unset
  block : List UInt8 := []
  deriving DecidableEq, Repr

inductive Answer where
  | ok (bytes : List UInt8)
  | failed (message : String)
  /-- A copy from outside a cache, which the source has no word for. -/
  | fault
  deriving DecidableEq, Repr

def readAt (source : Source) (trouble : Option String) (start size : Nat) :
    Except String (List UInt8) :=
  match trouble with
  | some message => .error message
  | none => .ok (slice source.bytes start (start + size))

def copy (buffer : List UInt8) (start size : Nat) : Answer :=
  if start + size ≤ buffer.length then .ok (slice buffer start (start + size)) else .fault

/-- The caches after a footer was read. -/
def readFooter (source : Source) (trouble : Option String) (file : DataFile) : DataFile :=
  let fileSize := source.bytes.length
  if fileSize < 64 ∨ file.tailStart ≠ unset then file
  else
    let size := min (max source.footerReadSize 512) fileSize
    match readAt source trouble (fileSize - size) size with
    | .error _ => { file with tail := [] }
    | .ok tail => { file with tail := tail, tailStart := fileSize - size }

/-- The block of a small read. -/
def loadBlock (source : Source) (trouble : Option String) (file : DataFile) (offset size : Nat) :
    Except String DataFile :=
  if file.blockStart = unset ∨ offset < file.blockStart ∨
      (file.blockStart + file.block.length) % 2 ^ 64 < (offset + size) % 2 ^ 64 then
    let start := offset - offset % source.smallReadBlock
    let stop := min source.bytes.length
      (max ((start + source.smallReadBlock) % 2 ^ 64) ((offset + size) % 2 ^ 64))
    (readAt source trouble start (stop - start)).map
      fun block => { file with block := block, blockStart := start }
  else .ok file

def readBytes (source : Source) (trouble : Option String) (file : DataFile) (offset size : Nat) :
    Answer × DataFile :=
  let fileSize := source.bytes.length
  if fileSize < offset ∨ fileSize - offset < size then
    (.failed "read range exceeds data file size", file)
  else if size = 0 then (.ok [], file)
  else if file.tailStart ≤ offset then (copy file.tail (offset - file.tailStart) size, file)
  else if size < source.smallReadBlock then
    match loadBlock source trouble file offset size with
    | .error message => (.failed message, { file with block := [], blockStart := unset })
    | .ok file => (copy file.block (offset - file.blockStart) size, file)
  else
    match readAt source trouble offset size with
    | .error message => (.failed message, file)
    | .ok bytes => (.ok bytes, file)

inductive Request where
  | footer (trouble : Option String)
  | read (trouble : Option String) (offset size : Nat)
  | reopen

def step (source : Source) (file : DataFile) : Request → DataFile
  | .footer trouble => readFooter source trouble file
  | .read trouble offset size => (readBytes source trouble file offset size).2
  | .reopen => {}

def run (source : Source) (requests : List Request) : DataFile :=
  requests.foldl (step source) {}

/-! ## What the caches hold -/

/-- A buffer holds the file's bytes from `start` to `stop`. -/
structure Holds (source : Source) (start stop : Nat) (buffer : List UInt8) : Prop where
  start_le : start ≤ stop
  stop_le : stop ≤ source.bytes.length
  bytes : buffer = slice source.bytes start stop

/-- Each cache that is set holds its part of the file, the tail up to the end. -/
structure Cached (source : Source) (file : DataFile) : Prop where
  tail : file.tailStart = unset ∨ Holds source file.tailStart source.bytes.length file.tail
  block : file.blockStart = unset ∨ ∃ stop, Holds source file.blockStart stop file.block

variable {source : Source} {file next : DataFile} {trouble : Option String} {buffer : List UInt8}
  {start stop offset size : Nat}

theorem holds_slice (hstop : start + size = stop) (hle : stop ≤ source.bytes.length) :
    Holds source start stop (slice source.bytes start (start + size)) :=
  ⟨hstop ▸ Nat.le_add_right _ _, hle, by rw [hstop]⟩

theorem Holds.length_eq (h : Holds source start stop buffer) : start + buffer.length = stop := by
  have hstart := h.start_le
  have hstop := h.stop_le
  rw [h.bytes, slice, length_take, length_drop]
  omega

/-- A copy from inside a cache is the file's bytes. -/
theorem Holds.copy_eq (h : Holds source start stop buffer) (hstart : start ≤ offset)
    (hstop : offset + size ≤ stop) :
    copy buffer (offset - start) size = .ok (slice source.bytes offset (offset + size)) := by
  have hlength := h.length_eq
  rw [copy, if_pos (by omega), h.bytes, slice_slice _ _ _ _ _ (by omega)]
  congr 2 <;> omega

theorem Cached.empty : Cached source {} := ⟨.inl rfl, .inl rfl⟩

theorem readFooter_cached (h : Cached source file) :
    Cached source (readFooter source trouble file) := by
  unfold readFooter
  simp only []
  split
  · exact h
  · next hunset =>
    cases trouble with
    | some message => exact ⟨.inl (not_not.mp (not_or.mp hunset).2), h.block⟩
    | none =>
      simp only [readAt]
      exact ⟨.inr (holds_slice (Nat.sub_add_cancel (Nat.min_le_right _ _)) (Nat.le_refl _)), h.block⟩

/-- A small read's block holds the read. -/
theorem loadBlock_ok (h : Cached source file) (hin : offset + size ≤ source.bytes.length)
    (hloaded : loadBlock source trouble file offset size = .ok next) :
    next.tailStart = file.tailStart ∧ next.tail = file.tail ∧
      ∃ stop, Holds source next.blockStart stop next.block ∧ next.blockStart ≤ offset ∧
        offset + size ≤ stop := by
  have hfits := source.fits
  unfold loadBlock at hloaded
  split at hloaded
  · cases trouble with
    | some message => cases hloaded
    | none =>
      cases hloaded
      rw [Nat.mod_eq_of_lt (show offset + size < 2 ^ 64 by omega)]
      have hstart := Nat.sub_le offset (offset % source.smallReadBlock)
      have hstop : ∀ wide, offset + size ≤ min source.bytes.length (max wide (offset + size)) :=
        fun _ => Nat.le_min.mpr ⟨hin, Nat.le_max_right _ _⟩
      have hle := fun wide =>
        Nat.le_trans hstart (Nat.le_trans (Nat.le_add_right offset size) (hstop wide))
      exact ⟨rfl, rfl, _, holds_slice (Nat.add_sub_cancel' (hle _)) (Nat.min_le_left _ _), hstart,
        hstop _⟩
  · next hheld =>
    cases hloaded
    simp only [not_or, Nat.not_lt] at hheld
    rcases h.block with hunset | ⟨stop, hstop⟩
    · exact absurd hunset hheld.1
    · have hlength := hstop.length_eq
      have hle := hstop.stop_le
      rw [hlength, Nat.mod_eq_of_lt (by omega), Nat.mod_eq_of_lt (by omega)] at hheld
      exact ⟨rfl, rfl, stop, hstop, hheld.2.1, hheld.2.2⟩

/-- A read in bounds is answered with the file's bytes, or fails as the source does. -/
theorem readBytes_spec (h : Cached source file) (offset size : Nat) :
    let out := readBytes source trouble file offset size
    Cached source out.2 ∧ (offset + size ≤ source.bytes.length →
      out.1 = .ok (slice source.bytes offset (offset + size)) ∨
        ∃ message, trouble = some message ∧ out.1 = .failed message) := by
  have hfits := source.fits
  simp only [readBytes]
  split
  · exact ⟨h, fun hin => by omega⟩
  next hin =>
  have hin : offset + size ≤ source.bytes.length := by omega
  split
  · next hzero =>
    subst hzero
    exact ⟨h, fun _ => .inl (by rw [Nat.add_zero, slice_of_le _ (Nat.le_refl _)])⟩
  split
  · next htail =>
    refine ⟨h, fun _ => .inl ?_⟩
    rcases h.tail with hunset | hholds
    · rw [hunset, unset] at htail
      omega
    · exact hholds.copy_eq htail hin
  split
  · cases hloaded : loadBlock source trouble file offset size with
    | error message =>
      refine ⟨⟨h.tail, .inl rfl⟩, fun _ => .inr ⟨message, ?_, rfl⟩⟩
      unfold loadBlock at hloaded
      split at hloaded
      · cases trouble with
        | none => cases hloaded
        | some _ =>
          cases hloaded
          rfl
      · cases hloaded
    | ok next =>
      rcases loadBlock_ok h hin hloaded with ⟨hstart, htail, stop, hholds, hlow, hhigh⟩
      refine ⟨⟨?_, .inr ⟨stop, hholds⟩⟩, fun _ => .inl (hholds.copy_eq hlow hhigh)⟩
      simp only [hstart, htail]
      exact h.tail
  · cases trouble with
    | none => exact ⟨h, fun _ => .inl rfl⟩
    | some message => exact ⟨h, fun _ => .inr ⟨message, rfl, rfl⟩⟩

theorem run_cached (source : Source) (requests : List Request) :
    Cached source (run source requests) := by
  suffices hall : ∀ file, Cached source file → Cached source (requests.foldl (step source) file) from
    hall {} .empty
  induction requests with
  | nil => exact fun _ h => h
  | cons request requests ih =>
    intro file h
    refine ih _ ?_
    cases request with
    | footer trouble => exact readFooter_cached h
    | read trouble offset size => exact (readBytes_spec h offset size).1
    | reopen => exact .empty

/-- After any requests a read in bounds gives the file's bytes, unless the source fails. -/
theorem reads_file_bytes (source : Source) (requests : List Request) (trouble : Option String)
    (offset size : Nat) (h : offset + size ≤ source.bytes.length) :
    let answer := (readBytes source trouble (run source requests) offset size).1
    answer = .ok (slice source.bytes offset (offset + size)) ∨
      ∃ message, trouble = some message ∧ answer = .failed message :=
  (readBytes_spec (run_cached source requests) offset size).2 h

/-- Six hundred bytes, in blocks of eight. -/
def sixHundred : Source := ⟨(range 600).map UInt8.ofNat, 512, 8, by simp⟩

/-- The footer, and a read past the end of its block. -/
def footerThenSmall : List Request := [.footer none, .read none 5 6]

/-- The end and a widened block are held: a read from each. -/
theorem reads_file_bytes_held :
    (run sixHundred footerThenSmall).tailStart = 88 ∧
      (run sixHundred footerThenSmall).block = [0, 1, 2, 3, 4, 5, 6, 7, 8, 9, 10] ∧
      (readBytes sixHundred none (run sixHundred footerThenSmall) 9 2).1 = .ok [9, 10] ∧
      (readBytes sixHundred none (run sixHundred footerThenSmall) 590 3).1 =
        .ok [78, 79, 80] := by
  have hblock := reads_file_bytes sixHundred footerThenSmall none 9 2 (by decide +kernel)
  have htail := reads_file_bytes sixHundred footerThenSmall none 590 3 (by decide +kernel)
  rw [show slice sixHundred.bytes 9 (9 + 2) = [9, 10] by decide +kernel] at hblock
  rw [show slice sixHundred.bytes 590 (590 + 3) = [78, 79, 80] by decide +kernel] at htail
  exact ⟨by decide +kernel, by decide +kernel, hblock.resolve_right (by simp),
    htail.resolve_right (by simp)⟩

end BlockReads

end NanoLance
