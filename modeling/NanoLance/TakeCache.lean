import Mathlib.Algebra.Order.Ring.Int
import Mathlib.Data.List.Induction

/-!
# Take Cache

Columns decoded whole, kept for later takes. A call takes the lock twice: to look for a copy, and
after decoding the column, without the lock, to keep its own. `held` is adjusted by hand wherever
an entry comes or goes, except where a column over the whole budget replaces one.

## Theorems

* `key_inj`: No two files or fields share a key.
* `keep_accounted_iff`: What one lock section does to exact accounts.
* `take_cache_exact_iff`: The accounts of a run are exact unless a column over the budget replaces
  a copy.
-/

namespace NanoLance

namespace TakeCache

/-- What a call sees of its file, and its field. A file without an identity is not looked up. -/
@[ext]
structure Call where
  name : String
  fieldId : Int
  size : UInt64
  mtime : Int64
  deriving DecidableEq

/-- A decoded column: the call that decoded it and its `decoded_bytes`. -/
structure Copy where
  call : Call
  bytes : UInt64
  deriving DecidableEq

structure Entry where
  size : UInt64
  mtime : Int64
  values : Option Copy
  bytes : UInt64
  used : Int
  rejected : Bool

abbrev Cache := List (String × Entry)

/-- What the lock guards, and the calls between their two sections. -/
structure State where
  cache : Cache
  held : UInt64
  decoding : List Call

inductive CacheFill where
  | never
  | secondTake
  | firstTake

/-- Ten seconds, in the nanoseconds of the clock. -/
def idle : Int := 10000000000

def Call.key (call : Call) : String := call.name ++ "#" ++ toString call.fieldId

def put (cache : Cache) (key : String) (entry : Entry) : Cache :=
  (key, entry) :: cache.eraseP (·.1 == key)

/-- The bytes of an entry, none where `cache[key]` makes one. -/
def bytesAt (cache : Cache) (key : String) : UInt64 :=
  (cache.lookup key).elim 0 (·.bytes)

/-- The first section: the state after it and the copy the call returns. -/
def look (s : State) (call : Call) (fill : CacheFill) (now : Int) : State × Option Copy :=
  let found := s.cache.lookup call.key
  match found.filter (fun e => e.size = call.size && e.mtime = call.mtime), fill with
  | some e, fill =>
    match e.values with
    | some copy => ({ s with cache := put s.cache call.key { e with used := now } }, some copy)
    | none =>
      if e.rejected && (now - e.used ≤ idle || 0 < s.held) then (s, none)
      else
        match fill with
        | .never => (s, none)
        | _ => ({ s with decoding := call :: s.decoding }, none)
  | none, .never => (s, none)
  | none, .secondTake =>
    let entry := ⟨call.size, call.mtime, none, 0, now, false⟩
    let held := s.held - bytesAt s.cache call.key
    ({ s with cache := put s.cache call.key entry, held := held }, none)
  | none, .firstTake => ({ s with decoding := call :: s.decoding }, none)

/-- Copies unused for a while are dropped. -/
def evict (now : Int) : Cache → UInt64 → Cache × UInt64
  | [], held => ([], held)
  | (key, e) :: cache, held =>
    if e.values.isSome && idle < now - e.used then evict now cache (held - e.bytes)
    else
      let rest := evict now cache held
      ((key, e) :: rest.1, rest.2)

def makeRoom (budget : UInt64) (s : State) (bytes : UInt64) (now : Int) : Cache × UInt64 :=
  if budget < s.held + bytes then evict now s.cache s.held else (s.cache, s.held)

/-- The second section, with `bytes` decoded. -/
def keep (budget : UInt64) (s : State) (call : Call) (bytes : UInt64) (now stamp : Int) : State :=
  let rejected : Entry := ⟨call.size, call.mtime, none, 0, stamp, true⟩
  if bytes ≤ budget then
    let room := makeRoom budget s bytes now
    let held := room.2 - bytesAt room.1 call.key
    if held + bytes ≤ budget then
      let entry := ⟨call.size, call.mtime, some ⟨call, bytes⟩, bytes, stamp, false⟩
      { s with cache := put room.1 call.key entry, held := held + bytes }
    else { s with cache := put room.1 call.key rejected, held := held }
  else { s with cache := put s.cache call.key rejected }

/-- What a call does, from any thread: its first section, a decoding that fails, or its second. -/
inductive Event where
  | look (call : Call) (fill : CacheFill) (now : Int)
  | fail (call : Call)
  | keep (call : Call) (bytes : UInt64) (now stamp : Int)

def step (budget : UInt64) (s : State) : Event → State
  | .look call fill now => (look s call fill now).1
  | .fail call => { s with decoding := s.decoding.erase call }
  | .keep call bytes now stamp =>
    if call ∈ s.decoding then
      { keep budget s call bytes now stamp with decoding := s.decoding.erase call }
    else s

def run (budget : UInt64) (events : List Event) : State :=
  events.foldl (step budget) ⟨[], 0, []⟩

def total (cache : Cache) : Nat :=
  (cache.map (·.2.bytes.toNat)).sum

/-- What should hold whenever the lock is free. -/
def Accounted (budget : UInt64) (cache : Cache) (held : UInt64) : Prop :=
  held.toNat = total cache ∧ held ≤ budget

/-- A column over the budget replaces an entry that is counted, or a sum of sizes wraps. -/
def Drifts (budget : UInt64) (s : State) (call : Call) (bytes : UInt64) (now : Int) : Prop :=
  if bytes ≤ budget then
    let room := makeRoom budget s bytes now
    let held := room.2 - bytesAt room.1 call.key
    held + bytes ≤ budget ∧ 2 ^ 64 ≤ held.toNat + bytes.toNat
  else bytesAt s.cache call.key ≠ 0

/-! ## Keys -/

theorem toList_toString (n : Int) : (toString n).toList =
    if 0 ≤ n then Nat.toDigits 10 n.toNat else '-' :: Nat.toDigits 10 (-n).toNat := by
  change n.repr.toList = _
  rw [Int.repr_eq_if]
  split
  · exact Nat.toList_repr
  · rw [String.toList_append, Nat.toList_repr]
    rfl

theorem notMem_digits {c : Char} (hc : ¬ c.isDigit = true) (n : Nat) : c ∉ Nat.toDigits 10 n :=
  fun h => hc (Nat.isDigit_of_mem_toDigits (by decide) (by decide) h)

theorem digits_inj {m n : Nat} (h : Nat.toDigits 10 m = Nat.toDigits 10 n) : m = n := by
  have hread := congrArg (Nat.ofDigitChars 10 · 0) h
  simpa [Nat.ofDigitChars_toDigits] using hread

theorem toString_inj {m n : Int} (h : (toString m).toList = (toString n).toList) : m = n := by
  have hminus := notMem_digits (c := '-') (by decide)
  rw [toList_toString, toList_toString] at h
  split at h <;> split at h
  · have hnat := digits_inj h
    omega
  · exact absurd (h ▸ List.mem_cons_self) (hminus _)
  · exact absurd (h ▸ List.mem_cons_self) (hminus _)
  · have hnat := digits_inj (List.cons.inj h).2
    omega

theorem hash_notMem (n : Int) : '#' ∉ (toString n).toList := by
  have hhash := notMem_digits (c := '#') (by decide)
  rw [toList_toString]
  split <;> simp [hhash]

/-- The field is what stands behind the last `#`, whatever the name. -/
theorem key_inj {a b : Call} (h : a.key = b.key) : a.name = b.name ∧ a.fieldId = b.fieldId := by
  have hlist : a.name.toList ++ '#' :: (toString a.fieldId).toList =
      b.name.toList ++ '#' :: (toString b.fieldId).toList := by
    simpa [Call.key] using congrArg String.toList h
  have ha := hash_notMem a.fieldId
  have hb := hash_notMem b.fieldId
  have hboth : a.name.toList = b.name.toList ∧
      (toString a.fieldId).toList = (toString b.fieldId).toList := by
    rcases List.append_eq_append_iff.mp hlist with ⟨d, hname, hd⟩ | ⟨d, hname, hd⟩ <;>
      cases d <;> grind
  exact ⟨String.toList_inj.mp hboth.1, toString_inj hboth.2⟩

/-! ## Accounts -/

variable {budget : UInt64} {s : State}

theorem total_cons (pair : String × Entry) (cache : Cache) :
    total (pair :: cache) = pair.2.bytes.toNat + total cache :=
  List.sum_cons

variable {held : UInt64}

theorem toNat_sub_bytes {bytes : UInt64} {rest : Nat} (h : held.toNat = bytes.toNat + rest) :
    (held - bytes).toNat = rest := by
  rw [UInt64.toNat_sub_of_le _ _ (UInt64.le_iff_toNat_le.mpr (by omega)), h, Nat.add_sub_cancel_left]

/-- Eviction takes off the bytes of what it drops. -/
theorem evict_total (now : Int) (cache : Cache) (extra : Nat) (h : held.toNat = total cache + extra) :
    let out := evict now cache held
    out.2.toNat = total out.1 + extra ∧ out.2.toNat ≤ held.toNat := by
  induction cache generalizing held extra with
  | nil => exact ⟨h, Nat.le_refl _⟩
  | cons pair cache ih =>
    rw [total_cons, Nat.add_assoc] at h
    rw [evict]
    split
    · have hless := toNat_sub_bytes h
      have hrest := ih extra hless
      exact ⟨hrest.1, by omega⟩
    · have hrest := ih (pair.2.bytes.toNat + extra) (h.trans (Nat.add_left_comm _ _ _))
      simp only [total_cons]
      exact ⟨by omega, hrest.2⟩

theorem makeRoom_accounted (h : Accounted budget s.cache s.held) (bytes : UInt64) (now : Int) :
    let room := makeRoom budget s bytes now
    Accounted budget room.1 room.2 := by
  rw [makeRoom]
  split
  · have hout := evict_total now s.cache 0 h.1
    exact ⟨hout.1, Nat.le_trans hout.2 h.2⟩
  · exact h

theorem total_erase (cache : Cache) (key : String) :
    total cache = (bytesAt cache key).toNat + total (cache.eraseP (·.1 == key)) := by
  induction cache with
  | nil => rfl
  | cons pair cache ih =>
    rw [bytesAt, List.lookup_cons, List.eraseP_cons, total_cons, BEq.comm]
    cases pair.1 == key with
    | true => rfl
    | false => exact (congrArg _ ih).trans (Nat.add_left_comm _ _ _)

variable {cache : Cache}

/-- What is held without an entry, and what a cache takes where another stands in its place. -/
theorem held_without (h : held.toNat = total cache) (key : String) :
    let left := (held - bytesAt cache key).toNat
    held.toNat = (bytesAt cache key).toNat + left ∧
      ∀ e, total (put cache key e) = e.bytes.toNat + left := by
  have hsplit := h.trans (total_erase cache key)
  rw [toNat_sub_bytes hsplit]
  exact ⟨hsplit, fun e => total_cons _ _⟩

/-- What the first section can do: return a copy, leave the entries alone, or note a first take. -/
theorem look_cases (s : State) (call : Call) (fill : CacheFill) (now : Int) :
    let out := look s call fill now
    (∃ e, s.cache.lookup call.key = some e ∧ (e.size = call.size ∧ e.mtime = call.mtime) ∧
      out.2 = e.values ∧ out.1.held = s.held ∧
        out.1.cache = put s.cache call.key { e with used := now }) ∨
    (out.2 = none ∧ out.1.held = s.held ∧ out.1.cache = s.cache) ∨
    (out.2 = none ∧ out.1.held = s.held - bytesAt s.cache call.key ∧
      ∃ e, e.values = none ∧ e.bytes = 0 ∧ out.1.cache = put s.cache call.key e) := by
  dsimp only [look]
  split
  · next e hfound =>
    rw [Option.filter_eq_some_iff, Bool.and_eq_true, decide_eq_true_eq, decide_eq_true_eq] at hfound
    split
    · next copy hcopy => exact .inl ⟨e, hfound.1, hfound.2, hcopy.symm, rfl, rfl⟩
    · split
      · exact .inr (.inl ⟨rfl, rfl, rfl⟩)
      · split <;> exact .inr (.inl ⟨rfl, rfl, rfl⟩)
  · exact .inr (.inl ⟨rfl, rfl, rfl⟩)
  · exact .inr (.inr ⟨rfl, rfl, _, rfl, rfl, rfl⟩)
  · exact .inr (.inl ⟨rfl, rfl, rfl⟩)

theorem look_accounted (h : Accounted budget s.cache s.held) (call : Call) (fill : CacheFill)
    (now : Int) :
    let out := (look s call fill now).1
    Accounted budget out.cache out.held := by
  rcases look_cases s call fill now with ⟨e, hfound, -, -, hheld, hcache⟩ | ⟨-, hheld, hcache⟩ |
    ⟨-, hheld, e, -, hzero, hcache⟩
  · have hleft := held_without h.1 call.key
    rw [bytesAt, hfound, Option.elim_some] at hleft
    rw [Accounted, hheld, hcache, hleft.2]
    exact ⟨hleft.1, h.2⟩
  · rwa [Accounted, hheld, hcache]
  · have hleft := held_without h.1 call.key
    rw [Accounted, hheld, hcache, hleft.2, hzero, UInt64.toNat_zero, Nat.zero_add]
    have hle : (s.held - bytesAt s.cache call.key).toNat ≤ s.held.toNat := by omega
    exact ⟨rfl, Nat.le_trans hle h.2⟩

/-- The second section keeps the accounts unless it drifts. -/
theorem keep_accounted_iff (h : Accounted budget s.cache s.held) (call : Call) (bytes : UInt64)
    (now stamp : Int) :
    let out := keep budget s call bytes now stamp
    Accounted budget out.cache out.held ↔ ¬ Drifts budget s call bytes now := by
  rw [keep, Drifts]
  split
  · have hroom := makeRoom_accounted h bytes now
    generalize makeRoom budget s bytes now = room at hroom
    have hleft := held_without hroom.1 call.key
    dsimp only at hroom hleft ⊢
    generalize room.2 - bytesAt room.1 call.key = held at hleft ⊢
    split
    · next hsum =>
      have hwrap : (held + bytes).toNat = bytes.toNat + held.toNat ↔
          ¬ 2 ^ 64 ≤ held.toNat + bytes.toNat := by
        rw [UInt64.toNat_add, Nat.add_comm bytes.toNat, Nat.not_le]
        exact Nat.mod_eq_iff_lt (by decide)
      rw [and_iff_right hsum, ← hwrap, Accounted, hleft.2]
      exact and_iff_left hsum
    · next hsum =>
      rw [Accounted, hleft.2, UInt64.toNat_zero, Nat.zero_add]
      have hle : held.toNat ≤ room.2.toNat := hleft.1 ▸ Nat.le_add_left _ _
      exact iff_of_true ⟨rfl, Nat.le_trans hle hroom.2⟩ fun hdrift => hsum hdrift.1
  · have hleft := held_without h.1 call.key
    dsimp only
    rw [Accounted, hleft.2, UInt64.toNat_zero, not_not, ← UInt64.toNat_inj, UInt64.toNat_zero,
      and_iff_left h.2]
    omega

/-! ## Copies -/

/-- A copy is under the key and the identity its call saw. -/
def Faithful (key : String) (e : Entry) : Prop :=
  ∀ copy, e.values = some copy →
    key = copy.call.key ∧ e.size = copy.call.size ∧ e.mtime = copy.call.mtime

theorem faithful_put (h : ∀ p ∈ cache, Faithful p.1 p.2) {key : String} {e : Entry}
    (he : Faithful key e) : ∀ p ∈ put cache key e, Faithful p.1 p.2 := by
  intro p hp
  rcases List.mem_cons.mp hp with rfl | hp
  · exact he
  · exact h p (List.mem_of_mem_eraseP hp)

theorem evict_subset (now : Int) (cache : Cache) (held : UInt64) :
    (evict now cache held).1 ⊆ cache := by
  induction cache generalizing held with
  | nil => exact fun _ h => h
  | cons pair cache ih =>
    rw [evict]
    split
    · exact List.subset_cons_of_subset pair (ih _)
    · exact List.cons_subset_cons pair (ih _)

/-- The first section returns the copy of a call that saw the same. -/
theorem look_faithful (h : ∀ p ∈ s.cache, Faithful p.1 p.2) (call : Call) (fill : CacheFill)
    (now : Int) :
    let out := look s call fill now
    (∀ p ∈ out.1.cache, Faithful p.1 p.2) ∧ ∀ copy, out.2 = some copy → copy.call = call := by
  rcases look_cases s call fill now with ⟨e, hfound, hcurrent, hcopy, -, hcache⟩ |
    ⟨hnone, -, hcache⟩ | ⟨hnone, -, e, hvalues, -, hcache⟩
  · rcases List.lookup_eq_some_iff.mp hfound with ⟨first, rest, hsplit, -⟩
    have he : Faithful call.key e := h (call.key, e) (by simp [hsplit])
    dsimp only
    rw [hcache, hcopy]
    refine ⟨faithful_put h he, fun copy hvalues => ?_⟩
    have hsame := he copy hvalues
    have hkey := key_inj hsame.1
    exact Call.ext hkey.1.symm hkey.2.symm (hsame.2.1.symm.trans hcurrent.1)
      (hsame.2.2.symm.trans hcurrent.2)
  · simpa [hcache, hnone] using h
  · dsimp only
    rw [hcache, hnone]
    refine ⟨faithful_put h fun copy hcopy => ?_, fun _ h => nomatch h⟩
    rw [hvalues] at hcopy
    cases hcopy

theorem step_faithful (h : ∀ p ∈ s.cache, Faithful p.1 p.2) (event : Event) :
    ∀ p ∈ (step budget s event).cache, Faithful p.1 p.2 := by
  cases event with
  | look call fill now => exact (look_faithful h call fill now).1
  | fail call => exact h
  | keep call bytes now stamp =>
    have hroom : ∀ p ∈ (makeRoom budget s bytes now).1, Faithful p.1 p.2 := by
      rw [makeRoom]
      split
      · exact fun p hp => h p (evict_subset now s.cache s.held hp)
      · exact h
    rw [step]
    split
    · dsimp only [keep]
      split
      · split
        · exact faithful_put hroom fun copy hcopy => by cases hcopy; exact ⟨rfl, rfl, rfl⟩
        · exact faithful_put hroom nofun
      · exact faithful_put h nofun
    · exact h

theorem run_append (budget : UInt64) (events : List Event) (event : Event) :
    run budget (events ++ [event]) = step budget (run budget events) event := by
  rw [run, List.foldl_append, run]
  rfl

theorem run_faithful {events : List Event} : ∀ p ∈ (run budget events).cache, Faithful p.1 p.2 := by
  induction events using List.reverseRecOn with
  | nil => exact fun _ h => nomatch h
  | append_singleton events event ih =>
    rw [run_append]
    exact step_faithful ih event

/-- In every interleaving the accounts are exact and within the budget whenever the lock is free,
    and a copy that is returned was decoded by a call that saw the same, exactly when no column
    over the budget replaces an entry that is counted and no sum of sizes wraps. -/
theorem take_cache_exact_iff (budget : UInt64) (events : List Event) :
    (∀ before, before <+: events →
      let s := run budget before
      Accounted budget s.cache s.held ∧
        ∀ call fill now copy, (look s call fill now).2 = some copy → copy.call = call) ↔
      ∀ before call bytes now stamp, before ++ [.keep call bytes now stamp] <+: events →
        call ∈ (run budget before).decoding → ¬ Drifts budget (run budget before) call bytes now := by
  constructor
  · intro h before call bytes now stamp hevents hdecoding
    have hbefore := (h before ((List.prefix_append _ _).trans hevents)).1
    have hafter := (h _ hevents).1
    rw [run_append, step, if_pos hdecoding] at hafter
    exact (keep_accounted_iff hbefore call bytes now stamp).mp hafter
  · intro h before hevents
    refine ⟨?_, fun call fill now => (look_faithful (run_faithful) call fill now).2⟩
    induction before using List.reverseRecOn with
    | nil => exact ⟨rfl, Nat.zero_le _⟩
    | append_singleton before event ih =>
      have hbefore := ih ((List.prefix_append _ _).trans hevents)
      rw [run_append]
      cases event with
      | look call fill now => exact look_accounted hbefore call fill now
      | fail call => exact hbefore
      | keep call bytes now stamp =>
        rw [step]
        split
        · next hdecoding =>
          exact (keep_accounted_iff hbefore call bytes now stamp).mpr
            (h before call bytes now stamp hevents hdecoding)
        · exact hbefore

/-- A file whose column of 600000 bytes is cached, and another at its path whose column has more
    than the budget of 1 MiB. -/
def replaced : List Event :=
  let old : Call := ⟨"a.lance", 0, 400000, 1⟩
  let new : Call := ⟨"a.lance", 0, 500000, 2⟩
  [.look old .firstTake 0, .keep old 600000 0 0, .look new .firstTake 0, .keep new 2000000 0 0]

/-- Nothing is cached any more, and 600000 bytes stay held. -/
theorem replaced_stays_held :
    (run 1048576 replaced).held = 600000 ∧ total (run 1048576 replaced).cache = 0 := by
  decide +kernel

end TakeCache

end NanoLance
