import Mathlib.Data.List.Dedup
import NanoLance.Roaring

/-!
# Deletion Bitmaps

The table layer has its own reader for the roaring bitmap of a deletion file. It
expands the containers one after another under a budget, takes their keys in any
order, and sorts what it has at the end. A run may end past the last value of its
container, and its rows then carry into the key above (`rowOf`), so the rows
deleted are those the containers store exactly when such rows are stored anyway
(`deletes_stored_iff`).

## Main definitions

* `storedContainers`: The keys and values of the containers of a file.
* `parseRoaringBitmap`: The rows it deletes.

## Theorems

* `length_readContainer`: A container holds as many values as its header says.
* `deletes_stored_iff`: When only stored rows are deleted.
* `long_run_deletes`: A run that deletes a row of another container.
-/

namespace NanoLance

namespace DeletionBitmap

open List Lib

open Roaring (Containers orError orError_eq_ok u16 u32 isRun cookieRuns cookieNoRuns arrayMax
  bitmapBytes)

/-! ## Reading -/

/-- The flags are empty unless the cookie says there are runs. -/
def readCookie (bytes : List UInt8) : Except String (Containers × List UInt8) := do
  let (cookie, bytes) ← orError "deletion bitmap is truncated" (u32 bytes)
  if cookie % 65536 = cookieRuns then
    let count := cookie / 65536 % 65536 + 1
    ensure (!(bytes.length < (count + 7) / 8)) "deletion bitmap run header is truncated"
    return ({ count := count, runFlags := bytes.take ((count + 7) / 8)
              offsets := Roaring.noOffsetThreshold ≤ count }, bytes.drop ((count + 7) / 8))
  else if cookie = cookieNoRuns then
    let (count, bytes) ← orError "deletion bitmap is truncated" (u32 bytes)
    return ({ count := count }, bytes)
  else .error "deletion bitmap has an unrecognized cookie"

/-- The keys and cardinalities of the containers, in any order. -/
def readDescriptors : Nat → List UInt8 → Except String (List (Nat × Nat) × List UInt8)
  | 0, bytes => .ok ([], bytes)
  | count + 1, bytes => do
    let (key, bytes) ← orError "deletion bitmap descriptor header is truncated" (u16 bytes)
    let (less, bytes) ← orError "deletion bitmap descriptor header is truncated" (u16 bytes)
    let (others, bytes) ← readDescriptors count bytes
    return ((key, less + 1) :: others, bytes)

def skipOffsets (containers : Containers) (bytes : List UInt8) : Except String (List UInt8) :=
  if containers.offsets then
    if bytes.length < containers.count * 4 then .error "deletion bitmap offset header is truncated"
    else .ok (bytes.drop (containers.count * 4))
  else .ok bytes

def overBudget : String := "deletion bitmap expands past the read budget"

/-- The values of some runs, after `size` values; nothing keeps a run in its container. -/
def readRuns (budget : Nat) : Nat → Nat → List UInt8 → Except String (List Nat × List UInt8)
  | 0, _, bytes => .ok ([], bytes)
  | runs + 1, size, bytes => do
    let (start, bytes) ← orError "deletion bitmap run container is truncated" (u16 bytes)
    let (less, bytes) ← orError "deletion bitmap run container is truncated" (u16 bytes)
    ensure (size + (less + 1) ≤ budget) overBudget
    let (others, bytes) ← readRuns budget runs (size + (less + 1)) bytes
    return (range' start (less + 1) ++ others, bytes)

def popcount (b : UInt8) : Nat := (range 8).countP b.toNat.testBit

/-- Bit `v` of a bitmap container. -/
def bitAt (bytes : List UInt8) (v : Nat) : Bool := ((bytes.getD (v / 8) 0).toNat).testBit (v % 8)

def readBitmap (budget size cardinality : Nat) (bytes : List UInt8) :
    Except String (List Nat × List UInt8) := do
  ensure (!(bytes.length < bitmapBytes)) "deletion bitmap container is truncated"
  let setBits := ((bytes.take bitmapBytes).map popcount).sum
  ensure (setBits = cardinality)
    s!"deletion bitmap container holds {setBits} values but its header declares {cardinality}"
  ensure (size + setBits ≤ budget) overBudget
  return ((range 65536).filter (bitAt bytes), bytes.drop bitmapBytes)

def readValues : Nat → List UInt8 → Except String (List Nat × List UInt8)
  | 0, bytes => .ok ([], bytes)
  | count + 1, bytes => do
    let (v, bytes) ← orError "deletion bitmap array container is truncated" (u16 bytes)
    let (others, bytes) ← readValues count bytes
    return (v :: others, bytes)

def readArray (budget size cardinality : Nat) (bytes : List UInt8) :
    Except String (List Nat × List UInt8) := do
  ensure (!(bytes.length < cardinality * 2)) "deletion bitmap array container is truncated"
  ensure (size + cardinality ≤ budget) overBudget
  readValues cardinality bytes

def readContainer (budget : Nat) (run : Bool) (size cardinality : Nat) (bytes : List UInt8) :
    Except String (List Nat × List UInt8) :=
  if run then do
    let (runs, bytes) ← orError "deletion bitmap run container is truncated" (u16 bytes)
    let (values, bytes) ← readRuns budget runs size bytes
    let holds := s!"deletion bitmap run container holds {values.length} values"
    ensure (values.length = cardinality) s!"{holds} but its header declares {cardinality}"
    return (values, bytes)
  else if arrayMax < cardinality then readBitmap budget size cardinality bytes
  else readArray budget size cardinality bytes

def readContainers (budget : Nat) (runFlags : List UInt8) : List (Nat × Nat) → Nat → Nat →
    List UInt8 → Except String (List (Nat × List Nat))
  | [], _, _, _ => .ok []
  | (key, cardinality) :: rest, c, size, bytes => do
    let (values, bytes) ← readContainer budget (isRun runFlags c) size cardinality bytes
    let others ← readContainers budget runFlags rest (c + 1) (size + values.length) bytes
    return (key, values) :: others

def storedContainers (budget : Nat) (bytes : List UInt8) :
    Except String (List (Nat × List Nat)) := do
  let (containers, bytes) ← readCookie bytes
  ensure (!(65536 < containers.count)) "deletion bitmap declares an implausible container count"
  let (descriptors, bytes) ← readDescriptors containers.count bytes
  let bytes ← skipOffsets containers bytes
  ensure ((descriptors.map (·.2)).sum ≤ budget) overBudget
  readContainers budget containers.runFlags descriptors 0 0 bytes

/-- `base | v`: a value past the end of the container sets the lowest bit of the key. -/
def rowOf (key v : Nat) : Nat := key * 65536 ||| v

def rowsOf (containers : List (Nat × List Nat)) : List Nat :=
  containers.flatMap (fun c => c.2.map (rowOf c.1))

/-- Without a bound on the values, as many as the read limits have bytes for. -/
def budgetOf (limitBytes maxValues : Nat) : Nat :=
  if maxValues ≠ 0 then maxValues else limitBytes / 4

def parseRoaringBitmap (limitBytes : Nat) (bytes : List UInt8) (maxValues : Nat) :
    Except String (List Nat) := do
  let containers ← storedContainers (budgetOf limitBytes maxValues) bytes
  return ((rowsOf containers).insertionSort (· ≤ ·)).dedup

/-! ## What is meant -/

/-- Some container with the key of a row stores its low sixteen bits. -/
def Stored (containers : List (Nat × List Nat)) (r : Nat) : Prop :=
  ∃ c ∈ containers, c.1 = r / 65536 ∧ r % 65536 ∈ c.2

/-- Of an accepted file, the rows are ascending, within the budget, the stored ones, and those the
    other reader of the format gives. -/
def DeletesStored (limitBytes : Nat) (bytes : List UInt8) (maxValues : Nat) : Prop :=
  ∀ containers rows, storedContainers (budgetOf limitBytes maxValues) bytes = .ok containers →
    parseRoaringBitmap limitBytes bytes maxValues = .ok rows →
    rows.Pairwise (· < ·) ∧ rows.length ≤ budgetOf limitBytes maxValues ∧
      (∀ r, r ∈ rows ↔ Stored containers r) ∧
      ∀ others, Roaring.decode bytes = .ok others → others = rows

/-- Where a run ends past its container, the rows it carries into are stored anyway. -/
def StaysStored (limitBytes : Nat) (bytes : List UInt8) (maxValues : Nat) : Prop :=
  ∀ containers, storedContainers (budgetOf limitBytes maxValues) bytes = .ok containers →
    ∀ c ∈ containers, ∀ v ∈ c.2, 65536 ≤ v → Stored containers (rowOf c.1 v)

variable {budget size cardinality key count : Nat} {bytes rest rest' flags : List UInt8}
  {values ids : List Nat} {headers : List (Nat × Nat)} {stored : List (Nat × List Nat)}

/-! ## As many values as declared -/

/-- Counting the bits of the bytes is counting the values. -/
theorem sum_popcount {n : Nat} (h : n ≤ bytes.length) :
    ((bytes.take n).map popcount).sum = (range (8 * n)).countP (bitAt bytes) := by
  induction n with
  | zero => rfl
  | succ n ih =>
    have hlast : ((range 8).map (8 * n + ·)).countP (bitAt bytes) =
        popcount (bytes.get ⟨n, h⟩) := by
      rw [countP_map]
      refine countP_congr (fun j hj => ?_)
      have hj' := mem_range.mp hj
      rw [Function.comp_apply, bitAt, show (8 * n + j) / 8 = n by omega,
        show (8 * n + j) % 8 = j by omega, getD_eq_getElem _ _ h, get_eq_getElem]
    rw [take_succ_eq_append_getElem h, map_append, sum_append, ih (by omega),
      show 8 * (n + 1) = 8 * n + 8 by omega, range_add, countP_append, hlast]
    simp

theorem length_readValues (h : readValues count bytes = .ok (values, rest)) :
    values.length = count := by
  induction count generalizing bytes values with
  | zero =>
    cases h
    rfl
  | succ count ih =>
    simp only [readValues, bind_eq_ok, pure_eq_ok] at h
    rcases h with ⟨⟨v, bytes'⟩, -, ⟨others, rest'⟩, hothers, hout⟩
    cases hout
    rw [length_cons, ih hothers]

theorem length_readContainer {run : Bool}
    (h : readContainer budget run size cardinality bytes = .ok (values, rest)) :
    values.length = cardinality := by
  unfold readContainer at h
  split at h
  · simp only [bind_eq_ok, ensure_eq_ok, pure_eq_ok, decide_eq_true_eq] at h
    rcases h with ⟨⟨runs, bytes'⟩, -, ⟨mine, rest'⟩, -, _, hlen, hout⟩
    cases hout
    exact hlen
  split at h
  · simp only [readBitmap, bind_eq_ok, ensure_eq_ok, pure_eq_ok, decide_eq_true_eq] at h
    rcases h with ⟨_, hlong, _, hbits, _, -, hout⟩
    obtain ⟨rfl, rfl⟩ := Prod.mk.inj hout
    have hlength : bitmapBytes ≤ bytes.length := by simpa using hlong
    rw [← hbits, sum_popcount hlength, countP_eq_length_filter]
    rfl
  · simp only [readArray, bind_eq_ok, ensure_eq_ok] at h
    rcases h with ⟨_, -, _, -, h⟩
    exact length_readValues h

variable {c : Nat}

theorem length_rows (h : readContainers budget flags headers c size bytes = .ok stored) :
    (rowsOf stored).length = (headers.map (·.2)).sum := by
  induction headers generalizing c size bytes stored with
  | nil =>
    cases h
    rfl
  | cons e headers ih =>
    simp only [readContainers, bind_eq_ok, pure_eq_ok] at h
    rcases h with ⟨⟨mine, bytes'⟩, hmine, others, hothers, rfl⟩
    rw [rowsOf, flatMap_cons, length_append, length_map, length_readContainer hmine,
      map_cons, sum_cons]
    exact congrArg (e.2 + ·) (ih hothers)

/-! ## The other reader -/

theorem rowOf_low {v : Nat} (key : Nat) (h : v < 65536) : rowOf key v = key * 65536 + v := by
  rw [rowOf, Nat.mul_comm]
  exact (Nat.two_pow_add_eq_or_of_lt (i := 16) h key).symm

/-- The values of a container as the other reader gives them. -/
structure Agrees (key : Nat) (values ids : List Nat) (rest rest' : List UInt8) : Prop where
  rows : ids = values.map (rowOf key)
  rest : rest' = rest

variable {previous : Option Nat}

theorem readRuns_agrees (h : readRuns budget count size bytes = .ok (values, rest))
    (h' : Roaring.readRuns key count previous bytes = .ok (ids, rest')) :
    Agrees key values ids rest rest' := by
  induction count generalizing previous size bytes values ids with
  | zero =>
    cases h
    cases h'
    exact ⟨rfl, rfl⟩
  | succ count ih =>
    simp only [readRuns, bind_eq_ok, pure_eq_ok] at h
    simp only [Roaring.readRuns, bind_eq_ok, ensure_eq_ok, pure_eq_ok] at h'
    rcases h with ⟨⟨v, bytes₁⟩, hv, ⟨less, bytes₂⟩, hless, _, -, ⟨others, _⟩, hothers, hout⟩
    rcases h' with ⟨⟨w, bytes₃⟩, hw, ⟨less', bytes₄⟩, hless', _, hlt, ⟨ids', _⟩, hids, hout'⟩
    cases (orError_eq_ok hv).symm.trans (orError_eq_ok hw)
    cases (orError_eq_ok hless).symm.trans (orError_eq_ok hless')
    cases hout
    cases hout'
    rcases ih hothers hids with ⟨hrows, hrest⟩
    refine ⟨?_, hrest⟩
    rw [hrows, map_append]
    congr 1
    refine map_congr_left (fun x hx => (rowOf_low key ?_).symm)
    have hx' := mem_range'_1.mp hx
    simp only [Bool.and_eq_true, Bool.not_eq_true', decide_eq_false_iff_not] at hlt
    omega

theorem readValues_agrees (h : readValues count bytes = .ok (values, rest))
    (h' : Roaring.readArray key count previous bytes = .ok (ids, rest')) :
    Agrees key values ids rest rest' := by
  induction count generalizing previous bytes values ids with
  | zero =>
    cases h
    cases h'
    exact ⟨rfl, rfl⟩
  | succ count ih =>
    simp only [readValues, bind_eq_ok, pure_eq_ok] at h
    simp only [Roaring.readArray, bind_eq_ok, pure_eq_ok] at h'
    rcases h with ⟨⟨v, bytes₁⟩, hv, ⟨others, _⟩, hothers, hout⟩
    rcases h' with ⟨⟨w, bytes₂⟩, hw, _, -, ⟨ids', _⟩, hids, hout'⟩
    cases (orError_eq_ok hv).symm.trans (orError_eq_ok hw)
    cases hout
    cases hout'
    rcases ih hothers hids with ⟨hrows, hrest⟩
    refine ⟨?_, hrest⟩
    rw [hrows, map_cons, rowOf_low key (Roaring.u16_some (orError_eq_ok hv)).1]

/-- Both readers read a container alike. -/
theorem readContainer_agrees {run : Bool}
    (h : readContainer budget run size cardinality bytes = .ok (values, rest))
    (h' : Roaring.readContainer run key cardinality bytes = .ok (ids, rest')) :
    Agrees key values ids rest rest' := by
  unfold readContainer at h
  unfold Roaring.readContainer at h'
  split at h
  · next hrun =>
    rw [if_pos hrun] at h'
    simp only [bind_eq_ok, pure_eq_ok] at h h'
    rcases h with ⟨⟨runs, bytes₁⟩, hruns, ⟨mine, _⟩, hmine, _, -, hout⟩
    rcases h' with ⟨⟨runs', bytes₂⟩, hruns', h'⟩
    cases (orError_eq_ok hruns).symm.trans (orError_eq_ok hruns')
    cases hout
    exact readRuns_agrees hmine h'
  next hrun =>
    rw [if_neg hrun] at h'
    split at h
    · next hlarge =>
      rw [if_neg (by omega)] at h'
      simp only [readBitmap, Roaring.readBitmap, bind_eq_ok, pure_eq_ok] at h h'
      rcases h with ⟨_, -, _, -, _, -, hout⟩
      rcases h' with ⟨_, -, hout'⟩
      obtain ⟨rfl, rfl⟩ := Prod.mk.inj hout
      obtain ⟨rfl, rfl⟩ := Prod.mk.inj hout'
      refine ⟨map_congr_left (fun v hv => (rowOf_low key ?_).symm), rfl⟩
      exact mem_range.mp (mem_of_mem_filter hv)
    · next hsmall =>
      rw [if_pos (by omega)] at h'
      simp only [readArray, bind_eq_ok] at h
      rcases h with ⟨_, -, _, -, h⟩
      exact readValues_agrees h h'

theorem readContainers_agree (h : readContainers budget flags headers c size bytes = .ok stored)
    (h' : Roaring.readContainers flags headers c bytes = .ok (ids, rest)) :
    ids = rowsOf stored := by
  induction headers generalizing c size bytes stored ids with
  | nil =>
    cases h
    cases h'
    rfl
  | cons e headers ih =>
    simp only [readContainers, Roaring.readContainers, bind_eq_ok, pure_eq_ok] at h h'
    rcases h with ⟨⟨mine, bytes₁⟩, hmine, others, hothers, rfl⟩
    rcases h' with ⟨⟨ids₁, bytes₂⟩, hids, _, -, ⟨ids₂, _⟩, hrest, hout⟩
    cases hout
    rcases readContainer_agrees hmine hids with ⟨rfl, rfl⟩
    rw [ih hothers hrest, rowsOf, rowsOf, flatMap_cons]

theorem readDescriptors_agree {headers' : List (Nat × Nat)}
    (h : readDescriptors count bytes = .ok (headers, rest))
    (h' : Roaring.readHeaders count previous bytes = .ok (headers', rest')) :
    headers' = headers ∧ rest' = rest := by
  induction count generalizing previous bytes headers headers' with
  | zero =>
    cases h
    cases h'
    exact ⟨rfl, rfl⟩
  | succ count ih =>
    simp only [readDescriptors, bind_eq_ok, pure_eq_ok] at h
    simp only [Roaring.readHeaders, bind_eq_ok, pure_eq_ok] at h'
    rcases h with ⟨⟨k, bytes₁⟩, hk, ⟨less, bytes₂⟩, hless, ⟨others, _⟩, hothers, hout⟩
    rcases h' with ⟨⟨k', bytes₃⟩, hk', ⟨less', bytes₄⟩, hless', _, -, ⟨others', _⟩, hothers', hout'⟩
    cases (orError_eq_ok hk).symm.trans (orError_eq_ok hk')
    cases (orError_eq_ok hless).symm.trans (orError_eq_ok hless')
    cases hout
    cases hout'
    rcases ih hothers hothers' with ⟨rfl, rfl⟩
    exact ⟨rfl, rfl⟩

theorem readCookie_agrees {containers containers' : Containers}
    (h : readCookie bytes = .ok (containers, rest))
    (h' : Roaring.readCookie bytes = .ok (containers', rest')) :
    containers' = containers ∧ rest' = rest := by
  rcases (bind_eq_ok _ _ _).mp h with ⟨⟨cookie, bytes₁⟩, hcookie, h⟩
  rcases (bind_eq_ok _ _ _).mp h' with ⟨⟨cookie', bytes₂⟩, hcookie', h'⟩
  cases (orError_eq_ok hcookie).symm.trans (orError_eq_ok hcookie')
  have hsmall : cookie / 65536 % 65536 = cookie / 65536 :=
    Nat.mod_eq_of_lt (Roaring.highOf_lt (Roaring.u32_some (orError_eq_ok hcookie)).1)
  simp only [hsmall] at h h'
  split at h
  · next hruns =>
    rw [if_neg (by unfold cookieRuns at hruns; unfold cookieNoRuns; omega), if_pos hruns] at h'
    simp only [bind_eq_ok, pure_eq_ok] at h h'
    rcases h with ⟨_, -, hout⟩
    rcases h' with ⟨_, -, hout'⟩
    obtain ⟨rfl, rfl⟩ := Prod.mk.inj hout
    obtain ⟨rfl, rfl⟩ := Prod.mk.inj hout'
    exact ⟨rfl, rfl⟩
  split at h
  · next hplain =>
    rw [if_pos hplain] at h'
    simp only [bind_eq_ok, pure_eq_ok] at h h'
    rcases h with ⟨⟨count, _⟩, hcount, hout⟩
    rcases h' with ⟨⟨count', _⟩, hcount', hout'⟩
    cases (orError_eq_ok hcount).symm.trans (orError_eq_ok hcount')
    cases hout
    cases hout'
    exact ⟨rfl, rfl⟩
  · cases h

/-- What both readers accept they read alike. -/
theorem rows_agree (h : storedContainers budget bytes = .ok stored)
    (h' : Roaring.decode bytes = .ok ids) : ids = rowsOf stored ∧ ids.Pairwise (· < ·) := by
  simp only [Roaring.decode, bind_eq_ok, pure_eq_ok] at h'
  rcases h' with ⟨⟨_, _⟩, h', rfl⟩
  refine ⟨?_, (Roaring.decodePrefix_ok h').2⟩
  simp only [storedContainers, Roaring.decodePrefix, bind_eq_ok] at h h'
  rcases h with ⟨⟨containers, bytes₁⟩, hcookie, _, -, ⟨headers, bytes₂⟩, hheaders, bytes₃, hskip, _, -,
    hread⟩
  rcases h' with ⟨⟨containers', bytes₄⟩, hcookie', _, -, ⟨headers', bytes₅⟩, hheaders', bytes₆, hskip',
    hread'⟩
  rcases readCookie_agrees hcookie hcookie' with ⟨rfl, rfl⟩
  rcases readDescriptors_agree hheaders hheaders' with ⟨rfl, rfl⟩
  have hsame : bytes₆ = bytes₃ := by
    unfold skipOffsets at hskip
    unfold Roaring.skipOffsets at hskip'
    grind
  subst hsame
  exact readContainers_agree hread hread'

/-! ## The rows deleted -/

theorem length_stored (h : storedContainers budget bytes = .ok stored) :
    (rowsOf stored).length ≤ budget := by
  simp only [storedContainers, bind_eq_ok, ensure_eq_ok, decide_eq_true_eq] at h
  rcases h with ⟨⟨containers, bytes₁⟩, -, _, -, ⟨headers, bytes₂⟩, -, bytes₃, -, _, htotal, hread⟩
  rw [length_rows hread]
  exact htotal

theorem pairwise_sorted (rows : List Nat) :
    ((rows.insertionSort (· ≤ ·)).dedup).Pairwise (· < ·) := by
  have hsorted := (pairwise_insertionSort (· ≤ ·) rows).sublist (dedup_sublist _)
  exact hsorted.imp₂ (fun _ _ hle hne => lt_of_le_of_ne hle hne) (nodup_dedup _)

theorem mem_sorted {rows : List Nat} {r : Nat} :
    r ∈ (rows.insertionSort (· ≤ ·)).dedup ↔ r ∈ rows := by
  rw [mem_dedup, mem_insertionSort]

/-- A file deletes what its containers store, and nothing else, exactly when a run past the end of
    its container only names rows that are stored anyway. -/
theorem deletes_stored_iff (limitBytes : Nat) (bytes : List UInt8) (maxValues : Nat) :
    DeletesStored limitBytes bytes maxValues ↔ StaysStored limitBytes bytes maxValues := by
  have hparse : ∀ {containers}, storedContainers (budgetOf limitBytes maxValues) bytes =
      .ok containers → parseRoaringBitmap limitBytes bytes maxValues =
        .ok ((rowsOf containers).insertionSort (· ≤ ·)).dedup := by
    intro containers h
    rw [parseRoaringBitmap, h]
    rfl
  constructor
  · intro hd containers h c hc v hv _
    refine ((hd containers _ h (hparse h)).2.2.1 _).mp (mem_sorted.mpr ?_)
    exact mem_flatMap.mpr ⟨c, hc, mem_map_of_mem hv⟩
  · intro hstays containers rows h hrows
    cases (hparse h).symm.trans hrows
    refine ⟨pairwise_sorted _, ?_, fun r => mem_sorted.trans ⟨?_, ?_⟩, fun others hothers => ?_⟩
    · refine le_trans ((dedup_sublist _).length_le.trans ?_) (length_stored h)
      rw [length_insertionSort]
    · intro hr
      rcases mem_flatMap.mp hr with ⟨c, hc, hrow⟩
      rcases mem_map.mp hrow with ⟨v, hv, rfl⟩
      by_cases hlow : v < 65536
      · rw [rowOf_low c.1 hlow]
        refine ⟨c, hc, by omega, ?_⟩
        rwa [show (c.1 * 65536 + v) % 65536 = v by omega]
      · exact hstays containers h c hc v hv (by omega)
    · rintro ⟨c, hc, hkey, hlow⟩
      refine mem_flatMap.mpr ⟨c, hc, mem_map.mpr ⟨_, hlow, ?_⟩⟩
      rw [rowOf_low c.1 (by omega)]
      omega
    · rcases rows_agree h hothers with ⟨rfl, hasc⟩
      exact eq_of_ascending hasc (pairwise_sorted _) (fun r => mem_sorted.symm)

/-- A container of key 0 with one run of two values from 65535 on: row 65536 goes too. -/
theorem long_run_deletes : ¬DeletesStored 0
    [0x3B, 0x30, 0, 0, 1, 0, 0, 1, 0, 1, 0, 0xFF, 0xFF, 1, 0] 2 := by
  intro h
  have hrow := (h [(0, [65535, 65536])] [65535, 65536] (by decide +kernel)
    (by decide +kernel)).2.2.1 65536
  rcases hrow.mp (by decide) with ⟨c, hc, hkey, _⟩
  rw [mem_singleton.mp hc] at hkey
  exact absurd hkey (by decide)

end DeletionBitmap

end NanoLance
