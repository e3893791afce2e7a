import Mathlib.Data.List.Infix
import NanoLance.CandidateSets
import NanoLance.Lib.Utf8
import NanoLance.Roaring

/-!
# Trigram Indices

An n-gram index lists for every trigram the rows whose text has it. The text is
lower-cased and folded to ASCII first, character by character, and a trigram is
three ASCII letters or digits in a row of what comes out. A search for rows that
contain a text cuts it into trigrams the same way and takes the rows every one of
them lists.

Case and accents change how many bytes a character has, so a text and a part of
it are folded at different places. What makes the search complete is that both
mappings work on one character at a time and that a text inside another starts
and ends between characters (`Utf8.Text.around`): the folded part is a part
of the folded text, and so are its trigrams. The second mapping reads what the
first one wrote, which is why the first has to write whole characters.

The two tables of mappings are generated from Unicode data and are a parameter
here. Only a `contains` with a literal becomes a test an index is asked about;
LIKE is left to the scan.

## Main definitions

* `decode`, `mapChars`, `lowerAndFold`, `ngramTokens`: The trigrams of a text.
* `writeNgram`, `loadPostings`, `readBase`: The index file, and the postings of
  older ones it continues.

## Theorems

* `ngram_answer_complete`: No row that contains the text is missing.
-/

namespace NanoLance

namespace NGram

open List Lib

open IndexAnswers (Rows)

open Lib.Utf8 (Text IsChar isTail width)

/-! ## Folding -/

/-- Mappings of single characters, by code point. -/
abbrev CharTable := List (Nat × List UInt8)

/-- The tables of the lower-case and of the ASCII mappings. -/
structure CharMaps where
  lower : CharTable
  fold : CharTable
  /-- A lower-cased character is a text. -/
  lower_text : ∀ e ∈ lower, Text e.2

def isContinuation (b : UInt8) : Bool := b &&& 0xC0 = 0x80

/-- The code point a text starts with and its length in bytes, of an invalid byte the replacement
    character and one. -/
def decode : List UInt8 → Nat × Nat
  | [] => (0xFFFD, 1)
  | b0 :: rest =>
    let cont := fun k => (rest[k]?).any isContinuation
    let c := fun k => (rest.getD k 0 &&& 0x3F).toNat
    if b0 < 0x80 then (b0.toNat, 1)
    else if 0xC2 ≤ b0 && b0 < 0xE0 && cont 0 then
      ((b0 &&& 0x1F).toNat <<< 6 ||| c 0, 2)
    else if 0xE0 ≤ b0 && b0 < 0xF0 && cont 0 && cont 1 then
      ((b0 &&& 0x0F).toNat <<< 12 ||| c 0 <<< 6 ||| c 1, 3)
    else if 0xF0 ≤ b0 && b0 < 0xF5 && cont 0 && cont 1 && cont 2 then
      ((b0 &&& 0x07).toNat <<< 18 ||| c 0 <<< 12 ||| c 1 <<< 6 ||| c 2, 4)
    else (0xFFFD, 1)

/-- The mapping of a code point, by binary search. -/
def lookup (table : CharTable) (cp : Nat) : Option (List UInt8) :=
  match (table.dropWhile (fun e => e.1 < cp)).head? with
  | some e => if e.1 = cp then some e.2 else none
  | none => none

def toLower (b : UInt8) : UInt8 := if 0x41 ≤ b && b ≤ 0x5A then b + 32 else b

def isAscii (s : List UInt8) : Bool := s.all (· < 0x80)

/-- One character as a table maps it. -/
def mapChar (table : CharTable) (lowerAscii : Bool) (cp : Nat) (char : List UInt8) :
    List UInt8 :=
  if cp < 0x80 then [if lowerAscii then toLower (UInt8.ofNat cp) else UInt8.ofNat cp]
  else (lookup table cp).getD char

/-- Each character on its own, at most `fuel` of them. -/
def mapChars (table : CharTable) (lowerAscii : Bool) : Nat → List UInt8 → List UInt8
  | 0, _ => []
  | _ + 1, [] => []
  | fuel + 1, b :: s =>
    mapChar table lowerAscii (decode (b :: s)).1 ((b :: s).take (decode (b :: s)).2) ++
      mapChars table lowerAscii fuel ((b :: s).drop (decode (b :: s)).2)

def lowerCase (maps : CharMaps) (word : List UInt8) : List UInt8 :=
  if isAscii word then word.map toLower else mapChars maps.lower true word.length word

def asciiFold (maps : CharMaps) (text : List UInt8) : List UInt8 :=
  if isAscii text then text else mapChars maps.fold false text.length text

def lowerAndFold (maps : CharMaps) (word : List UInt8) : List UInt8 :=
  asciiFold maps (lowerCase maps word)

/-! ## Trigrams -/

def ngramAlphanumeric (c : UInt8) : Bool :=
  (0x30 ≤ c && c ≤ 0x39) || (0x61 ≤ c && c ≤ 0x7A) || (0x41 ≤ c && c ≤ 0x5A)

/-- A byte of a trigram, in arithmetic of eight bits. -/
def trigramDigit (byte : UInt8) : UInt8 :=
  (if byte ≤ 0x39 then byte - 0x30 else byte - 0x61 + 10) + 1

def trigramToken (a b c : UInt8) : Nat :=
  [a, b, c].foldl (fun token byte => token * 37 + (trigramDigit byte).toNat) 0

/-- The trigrams of a text, in its order. -/
def trigrams : List UInt8 → List Nat
  | a :: b :: c :: rest =>
    (if ngramAlphanumeric a && ngramAlphanumeric b && ngramAlphanumeric c then
      [trigramToken a b c] else []) ++ trigrams (b :: c :: rest)
  | _ => []

def ngramTokens (folded : List UInt8) : List Nat := ascending (trigrams folded)

def tokensOf (maps : CharMaps) (text : List UInt8) : List Nat :=
  ngramTokens (lowerAndFold maps text)

/-! ## The index file -/

/-- A row to be indexed: its id or address and its text, if it has one. -/
abbrev Item := Nat × Option (List UInt8)

/-- `ngram_postings.lance`: a token and its posting list in each row. -/
abbrev PostingsFile := List (Nat × List UInt8)

/-- A row put to the postings of its tokens. Rows without a text are listed under token 0. -/
def addItem (maps : CharMaps) (postings : Rows) (item : Item) : Rows :=
  match item.2 with
  | none => postings.push 0 [item.1]
  | some text => (tokensOf maps text).foldl (fun p token => p.push token [item.1]) postings

def pushAll (postings base : Rows) : Rows := base.foldl (fun p e => p.push e.1 e.2) postings

/-- The file of some rows and of the postings of older files. -/
def writeNgram (maps : CharMaps) (base : Rows) (items : List Item) : PostingsFile :=
  ((items.foldl (addItem maps) (pushAll [] base)).insertionSort (fun a b => a.1 ≤ b.1)).map
    (fun e => (e.1, Roaring.encodeTreemap (ascending e.2)))

def loadPosting (out : Rows) (e : Nat × List UInt8) : Except String Rows := do
  let ids ← Roaring.decodeTreemap e.2
  return out.push e.1 ids

def loadPostings (file : PostingsFile) : Except String Rows := file.foldlM loadPosting []

/-- The rows of the live fragments among one file's postings. -/
def addLive (live : List Nat) (base part : Rows) : Rows :=
  part.foldl (fun base e =>
    let kept := e.2.filter (fun r => fragmentOf r ∈ live)
    if kept.isEmpty then base else base.push e.1 kept) base

def readPart (live : List Nat) (base : Rows) (file : PostingsFile) : Except String Rows := do
  let part ← loadPostings file
  return addLive live base part

/-- The postings an optimized index keeps of the files it replaces. -/
def readBase (live : List Nat) (files : List PostingsFile) : Except String Rows :=
  files.foldlM (readPart live) []

/-! ## The search -/

/-- A test of a text column. -/
inductive TextTest where
  | contains (needle : Option (List UInt8))
  | other
  deriving DecidableEq, Repr

/-- Characters as they are counted: all bytes but continuation bytes. -/
def characters (text : List UInt8) : Nat := (text.filter (fun b => !isContinuation b)).length

def intersectAll : List (List Nat) → List Nat
  | [] => []
  | first :: rest => rest.foldl setIntersection first

/-- Ids as rows by their upper halves. -/
def rowsOfIds (ids : List Nat) : Rows :=
  ids.foldl (fun rows id => rows.push (id / 2 ^ 32 % 2 ^ 32) [id % 2 ^ 32]) []

/-- The posting lists of some tokens, `none` when one is not in the file. -/
def postingsOf (file : PostingsFile) (tokens : List Nat) : Option (List (List UInt8)) :=
  tokens.mapM (fun token => (file.find? (fun e => e.1 = token)).map Prod.snd)

/-- The rows that may contain a text; `none` when the index does not say. -/
def searchNgram (maps : CharMaps) (file : PostingsFile) (test : TextTest) :
    Except String (Option Rows) :=
  match test with
  | .other => .ok none
  | .contains none => .ok none
  | .contains (some text) =>
    if characters text < 3 then .ok none
    else if (tokensOf maps text).isEmpty then .ok none
    else
      match postingsOf file (tokensOf maps text) with
      | none => .ok (some [])
      | some lists => do
        let ids ← lists.mapM Roaring.decodeTreemap
        return some (rowsOfIds (intersectAll ids))

/-! ## Filters -/

/-- Filters of a text column. -/
inductive TextFilter where
  | contains (column : List String) (needle : List UInt8)
  | like (column : List String) (pattern : List UInt8) (fold negated : Bool)
  deriving DecidableEq, Repr

/-- What an index sees of them. -/
def conditionAt : TextFilter → IndexAnswers.Condition TextTest TextFilter
  | .contains column needle => .predicate ⟨column, false, .contains (some needle)⟩
  | f => .other f

/-- `contains` of a row, NULL when the row has no text. -/
def containsValue (value : Option (List UInt8)) (needle : List UInt8) : Option Bool :=
  value.map (fun s => needle <:+: s)

/-! ## Characters -/

theorem isContinuation_eq (b : UInt8) : isContinuation b = isTail b := by
  have hall : ∀ n < 256, (n &&& 192 = 128 ↔ 128 ≤ n ∧ n < 192) := by decide +kernel
  rw [Bool.eq_iff_iff, Utf8.isTail_iff, isContinuation, decide_eq_true_eq,
    ← UInt8.toNat_inj, UInt8.toNat_and]
  exact hall b.toNat b.toNat_lt

variable {b : UInt8} {c a s : List UInt8} {chars : List (List UInt8)} {t : Nat}
  {file : PostingsFile} {rows : List Item}

theorem width_one (h : width b = 1) : b < 0x80 := by
  unfold width at h
  grind

theorem width_two (h : width b = 2) :
    ¬b < 0x80 ∧ (0xC2 ≤ b && b < 0xE0) = true := by
  unfold width at h
  grind

theorem width_three (h : width b = 3) :
    ¬b < 0x80 ∧ (0xC2 ≤ b && b < 0xE0) = false ∧ (0xE0 ≤ b && b < 0xF0) = true := by
  unfold width at h
  by_cases h1 : b < 0x80
  · rw [if_pos h1] at h
    cases h
  · grind

theorem width_four (h : width b = 4) :
    ¬b < 0x80 ∧ (0xC2 ≤ b && b < 0xE0) = false ∧ (0xE0 ≤ b && b < 0xF0) = false ∧
      (0xF0 ≤ b && b < 0xF5) = true := by
  unfold width at h
  by_cases h1 : b < 0x80
  · rw [if_pos h1] at h
    cases h
  · rw [if_neg h1] at h
    split at h
    · cases h
    · grind

theorem width_le (b : UInt8) : width b ≤ 4 := by grind [width]

/-- A character is decoded as a whole, whatever follows it. -/
theorem decode_char (h : IsChar c) (s : List UInt8) :
    decode (c ++ s) = ((decode c).1, c.length) := by
  rcases c with _ | ⟨b, tail⟩
  · exact absurd h id
  rcases h with ⟨hwidth, htail⟩
  have hcont : ∀ t ∈ tail, isContinuation t = true := fun t ht => by
    rw [isContinuation_eq]
    exact htail t ht
  have hle := width_le b
  -- One case for each width.
  rcases tail with _ | ⟨t, _ | ⟨t', _ | ⟨t'', _ | ⟨x, more⟩⟩⟩⟩
  · have hb := width_one hwidth
    simp [decode, hb]
  · rcases width_two hwidth with ⟨h1, h2⟩
    grind [decode]
  · rcases width_three hwidth with ⟨h1, h2, h3⟩
    grind [decode]
  · rcases width_four hwidth with ⟨h1, h2, h3, h4⟩
    have ht := hcont t (by simp)
    have ht' := hcont t' (by simp)
    have ht'' := hcont t'' (by simp)
    simp [decode, h1, h2, h3, h4, ht, ht', ht'']
  · grind

/-- What a table makes of a character. -/
def charImage (table : CharTable) (lowerAscii : Bool) (c : List UInt8) : List UInt8 :=
  mapChar table lowerAscii (decode c).1 c

variable {table : CharTable} {maps : CharMaps} {live : List Nat} (postings : Rows)
  {lowerAscii : Bool}

theorem mapChars_text (hchars : ∀ c ∈ chars, IsChar c) (fuel : Nat)
    (hfuel : chars.flatten.length ≤ fuel) :
    mapChars table lowerAscii fuel chars.flatten = chars.flatMap (charImage table lowerAscii) := by
  induction chars generalizing fuel with
  | nil => cases fuel <;> rfl
  | cons c chars ih =>
    have hc := hchars c (.head _)
    rw [flatten_cons, length_append] at hfuel
    rcases c with _ | ⟨b, tail⟩
    · exact absurd hc id
    rw [length_cons] at hfuel
    rcases fuel with _ | fuel
    · omega
    rw [flatten_cons, cons_append, mapChars, ← cons_append, decode_char hc,
      take_left, drop_left, ih (fun d hd => hchars d (.tail _ hd)) fuel
      (by omega)]
    rfl

/-- ASCII characters are single bytes. -/
theorem ascii_char (h : IsChar c) (hascii : isAscii c = true) :
    ∃ b, c = [b] ∧ b < 0x80 := by
  rcases c with _ | ⟨b, tail⟩
  · exact absurd h id
  · have hb : b < 0x80 := of_decide_eq_true (all_eq_true.mp hascii b (.head _))
    have hwidth : width b = 1 := by rw [width, if_pos hb]
    have hlen : tail.length = 0 := by
      have := h.1
      omega
    exact ⟨b, by rw [length_eq_zero_iff.mp hlen], hb⟩

theorem charImage_ascii (b : UInt8) (hb : b < 0x80) :
    charImage table lowerAscii [b] = [if lowerAscii then toLower b else b] := by
  have hcp : (decode [b]).1 = b.toNat := by simp only [decode, if_pos hb]
  have hlt : b.toNat < 0x80 := UInt8.lt_iff_toNat_lt.mp hb
  rw [charImage, hcp, mapChar, if_pos hlt, UInt8.ofNat_toNat]

theorem ascii_text (hchars : ∀ c ∈ chars, IsChar c) (hascii : isAscii chars.flatten = true) :
    chars.flatMap (charImage table lowerAscii) =
      chars.flatten.map (fun b => if lowerAscii then toLower b else b) := by
  induction chars with
  | nil => rfl
  | cons c chars ih =>
    rw [isAscii, flatten_cons, all_append, Bool.and_eq_true] at hascii
    rcases ascii_char (hchars c (.head _)) hascii.1 with ⟨b, rfl, hb⟩
    rw [flatMap_cons, charImage_ascii b hb, flatten_cons,
      map_append, ih (fun d hd => hchars d (.tail _ hd)) hascii.2]
    rfl

theorem lowerCase_text (hchars : ∀ c ∈ chars, IsChar c) :
    lowerCase maps chars.flatten = chars.flatMap (charImage maps.lower true) := by
  unfold lowerCase
  by_cases hascii : isAscii chars.flatten = true
  · rw [if_pos hascii, ascii_text hchars hascii]
    simp
  · rw [if_neg hascii, mapChars_text hchars _ (Nat.le_refl _)]

theorem asciiFold_text (hchars : ∀ c ∈ chars, IsChar c) :
    asciiFold maps chars.flatten = chars.flatMap (charImage maps.fold false) := by
  unfold asciiFold
  by_cases hascii : isAscii chars.flatten = true
  · rw [if_pos hascii, ascii_text hchars hascii]
    simp
  · rw [if_neg hascii, mapChars_text hchars _ (Nat.le_refl _)]

theorem lookup_mem {cp : Nat} {image : List UInt8} (h : lookup table cp = some image) :
    ∃ e ∈ table, e.2 = image := by
  unfold lookup at h
  split at h
  · next e he =>
    have hmem : e ∈ table := (dropWhile_sublist _).subset (mem_of_head? he)
    grind
  · cases h

/-- An ASCII byte is a character, lower-cased or not. -/
theorem lower_ascii_char (cp : Nat) (h : cp < 0x80) : IsChar [toLower (UInt8.ofNat cp)] := by
  refine ⟨?_, nofun⟩
  have hall : ∀ n < 0x80, width (toLower (UInt8.ofNat n)) = 1 := by decide
  exact hall cp h

/-- The lower-cased character is a text. -/
theorem lower_char_text (h : IsChar c) : Text (charImage maps.lower true c) := by
  unfold charImage mapChar
  by_cases hcp : (decode c).1 < 0x80
  · rw [if_pos hcp]
    exact (lower_ascii_char _ hcp).text
  · rw [if_neg hcp]
    cases hlookup : lookup maps.lower (decode c).1 with
    | none => exact h.text
    | some image =>
      rcases lookup_mem hlookup with ⟨e, he, rfl⟩
      exact maps.lower_text e he

theorem lowerCase_append {b : List UInt8} (ha : Text a) (hb : Text b) :
    lowerCase maps (a ++ b) = lowerCase maps a ++ lowerCase maps b ∧
      Text (lowerCase maps a) ∧ Text (lowerCase maps b) := by
  rcases ha with ⟨as, has, rfl⟩
  rcases hb with ⟨bs, hbs, rfl⟩
  have hall : ∀ c ∈ as ++ bs, IsChar c := fun c hc =>
    (mem_append.mp hc).elim (has c) (hbs c)
  rw [← flatten_append, lowerCase_text hall, lowerCase_text has,
    lowerCase_text hbs, flatMap_append]
  exact ⟨rfl, Text.flatMap _ (fun c hc => lower_char_text (has c hc)),
    Text.flatMap _ (fun c hc => lower_char_text (hbs c hc))⟩

theorem asciiFold_append {b : List UInt8} (ha : Text a) (hb : Text b) :
    asciiFold maps (a ++ b) = asciiFold maps a ++ asciiFold maps b := by
  rcases ha with ⟨as, has, rfl⟩
  rcases hb with ⟨bs, hbs, rfl⟩
  have hall : ∀ c ∈ as ++ bs, IsChar c := fun c hc =>
    (mem_append.mp hc).elim (has c) (hbs c)
  rw [← flatten_append, asciiFold_text hall, asciiFold_text has,
    asciiFold_text hbs, flatMap_append]

/-- **Folding a text in parts.** -/
theorem lowerAndFold_append {b : List UInt8} (ha : Text a) (hb : Text b) :
    lowerAndFold maps (a ++ b) = lowerAndFold maps a ++ lowerAndFold maps b := by
  rcases lowerCase_append ha hb with ⟨happend, hta, htb⟩
  rw [lowerAndFold, happend, asciiFold_append hta htb]
  rfl

/-! ## Trigrams of a part -/

theorem trigrams_after (before : List UInt8) (h : t ∈ trigrams s) :
    t ∈ trigrams (before ++ s) := by
  induction before with
  | nil => exact h
  | cons a before ih =>
    rw [cons_append]
    rcases hrest : before ++ s with _ | ⟨b, _ | ⟨c, rest⟩⟩
    · rw [hrest] at ih
      nomatch ih
    · rw [hrest] at ih
      nomatch ih
    · grind [trigrams]

theorem trigrams_before (after : List UInt8) (h : t ∈ trigrams s) :
    t ∈ trigrams (s ++ after) := by
  induction s using trigrams.induct with
  | case1 a b c rest ih => grind [trigrams]
  | case2 s hshort => grind [trigrams]

/-- **The trigrams of a part of a text are trigrams of the text.** -/
theorem tokens_subset (text needle : List UInt8) (htext : Text text) (hneedle : Text needle)
    (hpart : needle <:+: text) :
    ∀ t ∈ tokensOf maps needle, t ∈ tokensOf maps text := by
  intro t ht
  by_cases hempty : needle = []
  · subst hempty
    nomatch ht
  rcases hpart with ⟨before, after, rfl⟩
  rw [append_assoc] at htext ⊢
  rcases hneedle.around hempty htext with ⟨hbefore, hafter⟩
  unfold tokensOf ngramTokens at ht ⊢
  rw [mem_ascending] at ht ⊢
  rw [lowerAndFold_append hbefore (hneedle.append hafter),
    lowerAndFold_append hneedle hafter]
  exact trigrams_after _ (trigrams_before _ ht)

/-! ## Postings -/

theorem mem_push (rows : Rows) (token : Nat) (ids : List Nat) (t a : Nat) :
    a ∈ (rows.push token ids).offsets t ↔ a ∈ rows.offsets t ∨ (t = token ∧ a ∈ ids) := by
  rw [IndexAnswers.offsets_push]
  grind

theorem mem_pushAll (base : Rows) (t a : Nat) :
    a ∈ (pushAll postings base).offsets t ↔
      a ∈ postings.offsets t ∨ ∃ e ∈ base, e.1 = t ∧ a ∈ e.2 := by
  unfold pushAll
  induction base generalizing postings with
  | nil => simp only [foldl_nil, not_mem_nil, false_and, exists_false, or_false]
  | cons e base ih =>
    rw [foldl_cons, ih, mem_push, exists_mem_cons_iff, or_assoc]
    constructor
    · grind
    · grind

theorem mem_addItem (item : Item) (t a : Nat) :
    a ∈ (addItem maps postings item).offsets t ↔ a ∈ postings.offsets t ∨
      (a = item.1 ∧ t ∈ (item.2.map (tokensOf maps)).getD [0]) := by
  unfold addItem
  cases item.2 with
  | none => grind [mem_push]
  | some text =>
    simp only [Option.map_some, Option.getD_some]
    induction tokensOf maps text generalizing postings with
    | nil => simp only [foldl_nil, not_mem_nil, and_false, or_false]
    | cons token tokens ih =>
      rw [foldl_cons, ih, mem_push, mem_singleton, mem_cons, or_assoc]
      constructor
      · grind
      · grind

/-- What all the rows of a build list. -/
theorem mem_items (items : List Item) (t a : Nat) :
    a ∈ (items.foldl (addItem maps) postings).offsets t ↔ a ∈ postings.offsets t ∨
      ∃ item ∈ items, a = item.1 ∧ t ∈ (item.2.map (tokensOf maps)).getD [0] := by
  induction items generalizing postings with
  | nil => simp only [foldl_nil, not_mem_nil, false_and, exists_false, or_false]
  | cons item items ih =>
    rw [foldl_cons, ih, mem_addItem, exists_mem_cons_iff, or_assoc]

theorem keyed_pushAll {postings : Rows} (h : postings.Keyed) (base : Rows) :
    (pushAll postings base).Keyed := by
  unfold pushAll
  induction base generalizing postings with
  | nil => exact h
  | cons e base ih => exact ih (h.modify _ _)

theorem keyed_items (maps : CharMaps) {postings : Rows} (h : postings.Keyed) (items : List Item) :
    (items.foldl (addItem maps) postings).Keyed := by
  induction items generalizing postings with
  | nil => exact h
  | cons item items ih =>
    refine ih ?_
    unfold addItem
    cases item.2 with
    | none => exact h.modify _ _
    | some text =>
      simp only []
      induction tokensOf maps text generalizing postings with
      | nil => exact h
      | cons token tokens ih' => exact ih' (h.modify _ _)

theorem offsets_perm {a b : Rows} (hperm : a.Perm b) (ha : a.Keyed) (t x : Nat) :
    x ∈ a.offsets t ↔ x ∈ b.offsets t := by
  have hb : b.Keyed := (hperm.map Prod.fst).nodup_iff.mp ha
  constructor
  · intro h
    rcases IndexAnswers.mem_offsets h with ⟨e, he, rfl, hx⟩
    rw [hb.offsets_eq (hperm.mem_iff.mp he)]
    exact hx
  · intro h
    rcases IndexAnswers.mem_offsets h with ⟨e, he, rfl, hx⟩
    rw [ha.offsets_eq (hperm.mem_iff.mpr he)]
    exact hx

/-! ## What a built file lists -/

/-- A file a build or an optimization leaves, with the rows that are indexed in it: those of the
    older files in fragments that are still live, and the new ones. Ids are of 64 bits and posting
    lists fit in memory. -/
inductive Built (maps : CharMaps) : PostingsFile → List Item → Prop where
  | write (live : List Nat) (parts : List (PostingsFile × List Item)) (base : Rows)
      (items : List Item) : (∀ part ∈ parts, Built maps part.1 part.2) →
      readBase live (parts.map Prod.fst) = .ok base → (∀ item ∈ items, item.1 < 2 ^ 64) →
      (∀ e ∈ writeNgram maps base items, e.2.length < 2 ^ 64) →
      Built maps (writeNgram maps base items)
        ((parts.flatMap Prod.snd).filter (fun item => fragmentOf item.1 ∈ live) ++ items)

/-- The file holds some posting lists, one for each token, and every row is in
    those of its tokens. -/
structure Lists (maps : CharMaps) (file : PostingsFile) (rows : List Item) (postings : Rows) :
    Prop where
  file_eq : file = postings.map (fun e => (e.1, Roaring.encodeTreemap e.2))
  keyed : postings.Keyed
  ascending : ∀ e ∈ postings, e.2.Pairwise (· < ·)
  small : ∀ e ∈ postings, ∀ id ∈ e.2, id < 2 ^ 64
  memory : ∀ e ∈ postings, (Roaring.encodeTreemap e.2).length < 2 ^ 64
  listed : ∀ row ∈ rows, ∀ text, row.2 = some text → ∀ t ∈ tokensOf maps text,
    row.1 ∈ postings.offsets t

section File

variable {postings : Rows}

/-- A posting list reads back. -/
theorem Lists.decode (h : Lists maps file rows postings) (e : Nat × List Nat)
    (he : e ∈ postings) : Roaring.decodeTreemap (Roaring.encodeTreemap e.2) = .ok e.2 := by
  refine Roaring.decodeTreemap_encode (h.small e he) (h.memory e he) (fun span hspan => ?_)
  have hflat := Roaring.flatten_spansBy Roaring.upperOf e.2
  refine (h.ascending e he).sublist ?_
  rw [← hflat]
  exact sublist_flatten_of_mem hspan

theorem loadPostings_lists {l : Rows}
    (hdecode : ∀ e ∈ l, Roaring.decodeTreemap (Roaring.encodeTreemap e.2) = .ok e.2)
    (out : Rows) : (l.map (fun e => (e.1, Roaring.encodeTreemap e.2))).foldlM loadPosting out =
      .ok (pushAll out l) := by
  induction l generalizing out with
  | nil => rfl
  | cons e l ih =>
    rw [map_cons, foldlM_cons, loadPosting, hdecode e (.head _)]
    exact ih (fun e' he' => hdecode e' (.tail _ he')) _

/-- **The postings of a file read back.** -/
theorem Lists.load (h : Lists maps file rows postings) :
    loadPostings file = .ok (pushAll [] postings) := by
  rw [loadPostings, h.file_eq]
  exact loadPostings_lists h.decode []

theorem mem_addLive (base part : Rows) (t a : Nat) :
    a ∈ (addLive live base part).offsets t ↔ a ∈ base.offsets t ∨
      ∃ e ∈ part, e.1 = t ∧ a ∈ e.2 ∧ fragmentOf a ∈ live := by
  unfold addLive
  induction part generalizing base with
  | nil => simp only [foldl_nil, not_mem_nil, false_and, exists_false, or_false]
  | cons e part ih =>
    rw [foldl_cons, ih, exists_mem_cons_iff, ← or_assoc]
    refine or_congr ?_ Iff.rfl
    have hkept : a ∈ e.2.filter (fun r => decide (fragmentOf r ∈ live)) ↔
        a ∈ e.2 ∧ fragmentOf a ∈ live := by
      rw [mem_filter, decide_eq_true_eq]
    simp only []
    split
    · grind
    · grind [mem_push]

theorem keyed_addLive {base : Rows} (h : base.Keyed) (part : Rows) :
    (addLive live base part).Keyed := by
  unfold addLive
  induction part generalizing base with
  | nil => exact h
  | cons e part ih =>
    rw [foldl_cons]
    refine ih ?_
    simp only []
    split
    · exact h
    · exact h.modify _ _

theorem keyed_readBase (files : List PostingsFile) (start base : Rows) (hstart : start.Keyed)
    (hread : files.foldlM (readPart live) start = .ok base) :
    base.Keyed := by
  induction files generalizing start with
  | nil =>
    cases hread
    exact hstart
  | cons file files ih =>
    rw [foldlM_cons] at hread
    rcases (bind_eq_ok _ _ _).mp hread with ⟨next, hnext, hread⟩
    rcases (bind_eq_ok _ _ _).mp hnext with ⟨part, -, hnext⟩
    rw [pure_eq_ok] at hnext
    subst hnext
    exact ih _ (keyed_addLive hstart part) hread

/-- **The postings kept of older files.** -/
theorem readBase_lists (parts : List (PostingsFile × List Item))
    (hparts : ∀ part ∈ parts, ∃ postings, Lists maps part.1 part.2 postings) (start base : Rows)
    (hread : (parts.map Prod.fst).foldlM (readPart live) start = .ok base) (t a : Nat) :
    (a ∈ start.offsets t → a ∈ base.offsets t) ∧
    (a ∈ base.offsets t → a ∈ start.offsets t ∨ a < 2 ^ 64) ∧
    ∀ part ∈ parts, ∀ row ∈ part.2, ∀ text, row.2 = some text → t ∈ tokensOf maps text →
      fragmentOf row.1 ∈ live → a = row.1 → a ∈ base.offsets t := by
  induction parts generalizing start with
  | nil =>
    cases hread
    exact ⟨id, .inl, nofun⟩
  | cons part parts ih =>
    rcases hparts part (.head _) with ⟨postings, hlists⟩
    rw [map_cons, foldlM_cons, readPart, hlists.load] at hread
    rcases ih (fun p hp => hparts p (.tail _ hp))
      (addLive live start (pushAll [] postings)) hread with ⟨hkeep, hsmall, hlisted⟩
    -- The part's posting lists, live rows only.
    have hpart : a ∈ (addLive live start (pushAll [] postings)).offsets t ↔
        a ∈ start.offsets t ∨ (a ∈ postings.offsets t ∧ fragmentOf a ∈ live) := by
      have hnil : Rows.Keyed [] := nodup_nil
      have hkeyed : (pushAll [] postings).Keyed := keyed_pushAll hnil postings
      have hsame : a ∈ (pushAll [] postings).offsets t ↔ a ∈ postings.offsets t := by
        rw [mem_pushAll]
        constructor
        · rintro (hnil | ⟨e, he, rfl, hin⟩)
          · nomatch hnil
          · rw [hlists.keyed.offsets_eq he]
            exact hin
        · exact fun hin => .inr (IndexAnswers.mem_offsets hin)
      rw [mem_addLive]
      refine or_congr Iff.rfl ?_
      rw [← hsame]
      constructor
      · rintro ⟨e, he, rfl, hin, hlive⟩
        rw [hkeyed.offsets_eq he]
        exact ⟨hin, hlive⟩
      · rintro ⟨hin, hlive⟩
        rcases IndexAnswers.mem_offsets hin with ⟨e, he, het, hein⟩
        exact ⟨e, he, het, hein, hlive⟩
    refine ⟨fun hin => hkeep (hpart.mpr (.inl hin)), fun hin => ?_, ?_⟩
    · rcases hsmall hin with hin | hlt
      · rcases hpart.mp hin with hin | ⟨hin, -⟩
        · exact .inl hin
        · rcases IndexAnswers.mem_offsets hin with ⟨e, he, -, hein⟩
          exact .inr (hlists.small e he a hein)
      · exact .inr hlt
    · intro p hp row hrow text htext ht hlive ha
      rcases mem_cons.mp hp with rfl | hp
      · refine hkeep (hpart.mpr (.inr ⟨?_, ha ▸ hlive⟩))
        rw [ha]
        exact hlists.listed row hrow text htext t ht
      · exact hlisted p hp row hrow text htext ht hlive ha

end File

/-- **Every row of a built file is in the posting lists of its tokens.** -/
theorem Built.lists (h : Built maps file rows) : ∃ postings, Lists maps file rows postings := by
  induction h with
  | write live parts base items _ hread hsmall hmemory ih =>
    have hbase := fun t a => readBase_lists parts ih [] base hread t a
    have hnil : Rows.Keyed [] := nodup_nil
    have hkeyed := keyed_items maps (keyed_pushAll hnil base) items
    have hperm := perm_insertionSort (fun a b : Nat × List Nat => a.1 ≤ b.1)
      (items.foldl (addItem maps) (pushAll [] base))
    have hsorted := (hperm.map Prod.fst).nodup_iff.mpr hkeyed
    have hbasekeyed := keyed_readBase _ [] base hnil hread
    -- A row is listed by the older files or by this build.
    have hmem : ∀ t a, a ∈ (items.foldl (addItem maps) (pushAll [] base)).offsets t ↔
        a ∈ base.offsets t ∨
          ∃ item ∈ items, a = item.1 ∧ t ∈ (item.2.map (tokensOf maps)).getD [0] := by
      intro t a
      rw [mem_items, mem_pushAll]
      refine or_congr ?_ Iff.rfl
      constructor
      · rintro (hnone | ⟨e, he, rfl, hin⟩)
        · nomatch hnone
        · rw [hbasekeyed.offsets_eq he]
          exact hin
      · exact fun hin => .inr (IndexAnswers.mem_offsets hin)
    have hlt : ∀ t a, a ∈ (items.foldl (addItem maps) (pushAll [] base)).offsets t →
        a < 2 ^ 64 := by
      intro t a hin
      rcases (hmem t a).mp hin with hin | ⟨item, hitem, rfl, -⟩
      · rcases (hbase t a).2.1 hin with hnone | hlt
        · nomatch hnone
        · exact hlt
      · exact hsmall item hitem
    refine ⟨((items.foldl (addItem maps) (pushAll [] base)).insertionSort
      (fun a b => a.1 ≤ b.1)).map (fun e => (e.1, ascending e.2)), ?_, ?_, ?_, ?_, ?_, ?_⟩
    · rw [writeNgram, map_map]
      rfl
    · exact IndexAnswers.keyed_map ascending hsorted
    · intro e he
      rcases mem_map.mp he with ⟨e', -, rfl⟩
      exact ascending_pairwise e'.2
    · intro e he id hid
      rcases mem_map.mp he with ⟨e', he', rfl⟩
      refine hlt e'.1 id ?_
      rw [hkeyed.offsets_eq (hperm.mem_iff.mp he')]
      exact (mem_ascending id e'.2).mp hid
    · intro e he
      rcases mem_map.mp he with ⟨e', he', rfl⟩
      exact hmemory (e'.1, _) (mem_map.mpr ⟨e', he', rfl⟩)
    · intro row hrow text htext t ht
      have hin : row.1 ∈ (items.foldl (addItem maps) (pushAll [] base)).offsets t := by
        rcases mem_append.mp hrow with hrow | hrow
        · rcases mem_filter.mp hrow with ⟨hold, hlive⟩
          rcases mem_flatMap.mp hold with ⟨part, hpart, hin⟩
          grind
        · grind
      rw [IndexAnswers.offsets_map rfl, mem_ascending]
      exact (offsets_perm hperm hsorted t row.1).mpr hin

/-! ## The answer -/

theorem mem_intersectAll (first : List Nat) (rest : List (List Nat)) (a : Nat)
    (hfirst : first.Pairwise (· < ·)) (hrest : ∀ l ∈ rest, l.Pairwise (· < ·)) :
    a ∈ intersectAll (first :: rest) ↔ a ∈ first ∧ ∀ l ∈ rest, a ∈ l := by
  change a ∈ rest.foldl setIntersection first ↔ _
  induction rest generalizing first with
  | nil =>
    exact ⟨fun h => ⟨h, nofun⟩, fun h => h.1⟩
  | cons l rest ih =>
    have hl := hrest l (.head _)
    rw [foldl_cons, ih _ (hfirst.sublist (setIntersection_sublist first l))
      (fun l' hl' => hrest l' (.tail _ hl')),
      mem_setIntersection a first l hfirst hl, forall_mem_cons, and_assoc]

theorem mem_rowsOfIds {ids : List Nat} {a : Nat} (ha : a ∈ ids) (hlt : a < 2 ^ 64) :
    offsetOf a ∈ (rowsOfIds ids).offsets (fragmentOf a) := by
  have hfold : ∀ (l : List Nat) (rows : Rows),
      (offsetOf a ∈ rows.offsets (fragmentOf a) ∨ a ∈ l) → offsetOf a ∈ (l.foldl
        (fun rows id => rows.push (id / 2 ^ 32 % 2 ^ 32) [id % 2 ^ 32]) rows).offsets
        (fragmentOf a) := by
    intro l
    induction l with
    | nil => exact fun rows h => h.elim id nofun
    | cons id l ih =>
      intro rows h
      rw [foldl_cons]
      refine ih _ ?_
      rw [mem_push]
      rcases h with h | h
      · exact .inl (.inl h)
      · rcases mem_cons.mp h with rfl | h
        · refine .inl (.inr ⟨?_, mem_singleton.mpr rfl⟩)
          unfold fragmentOf
          omega
        · exact .inr h
  exact hfold ids [] (.inr ha)

section

variable {postings : Rows} (h : Lists maps file rows postings) (tokens : List Nat)

include h

/-- The posting lists of tokens that are all in the file. -/
theorem postingsOf_some (lists : List (List UInt8)) (hlists : postingsOf file tokens = some lists) :
    ∃ ids, lists.mapM Roaring.decodeTreemap = .ok ids ∧
      ids = tokens.map postings.offsets ∧ ∀ l ∈ ids, l.Pairwise (· < ·) := by
  unfold postingsOf at hlists
  induction tokens generalizing lists with
  | nil =>
    cases hlists
    exact ⟨[], rfl, rfl, nofun⟩
  | cons token tokens ih =>
    rw [mapM_cons] at hlists
    simp only [Option.bind_eq_bind, Option.bind_eq_some_iff, Option.map_eq_some_iff,
      Option.pure_def, Option.some.injEq] at hlists
    rcases hlists with ⟨bytes, ⟨e, hfind, rfl⟩, more, hmore, rfl⟩
    rcases ih more hmore with ⟨ids, hids, hsame, hasc⟩
    have hmem := mem_of_find?_eq_some hfind
    have hkey := find?_some hfind
    rw [decide_eq_true_eq] at hkey
    rw [h.file_eq] at hmem
    rcases mem_map.mp hmem with ⟨e', he', rfl⟩
    refine ⟨e'.2 :: ids, ?_, ?_, ?_⟩
    · rw [mapM_cons, h.decode e' he', hids]
      rfl
    · rw [map_cons, ← hkey, h.keyed.offsets_eq he', hsame]
    · intro l hl
      rcases mem_cons.mp hl with rfl | hl
      · exact h.ascending e' he'
      · exact hasc l hl

/-- A row that is listed under every token keeps the search from stopping. -/
theorem postingsOf_isSome {a : Nat} (hall : ∀ t ∈ tokens, a ∈ postings.offsets t) :
    ∃ lists, postingsOf file tokens = some lists := by
  unfold postingsOf
  induction tokens with
  | nil => exact ⟨[], rfl⟩
  | cons token tokens ih =>
    rcases ih (fun t ht => hall t (.tail _ ht)) with ⟨lists, hlists⟩
    rcases IndexAnswers.mem_offsets (hall token (.head _)) with ⟨e, he, rfl, -⟩
    have hfound : ∃ e', file.find? (fun x => decide (x.1 = e.1)) = some e' := by
      rw [← Option.isSome_iff_exists, find?_isSome, h.file_eq]
      exact ⟨_, mem_map.mpr ⟨e, he, rfl⟩, decide_eq_true rfl⟩
    rcases hfound with ⟨e', hfound⟩
    simp [hfound, hlists]

end

/-- **The answer about a text over a built file.** It never fails, and no row that contains the text
    is missing. -/
theorem searchNgram_complete (h : Built maps file rows) {needle : List UInt8}
    (hneedle : Text needle) :
    ∃ answer, searchNgram maps file (.contains (some needle)) = .ok answer ∧
      ∀ found, answer = some found → ∀ row ∈ rows, (∀ text, row.2 = some text → Text text) →
        containsValue row.2 needle = some true →
        offsetOf row.1 ∈ found.offsets (fragmentOf row.1) := by
  rcases h.lists with ⟨postings, hlists⟩
  unfold searchNgram
  by_cases hshort : characters needle < 3
  · exact ⟨none, by simp only [if_pos hshort], fun found hfound => by cases hfound⟩
  by_cases hempty : (tokensOf maps needle).isEmpty = true
  · exact ⟨none, by simp only [if_neg hshort, if_pos hempty], fun found hfound => by cases hfound⟩
  -- A row that contains the text is listed under every token of it.
  have hevery : ∀ row ∈ rows, (∀ text, row.2 = some text → Text text) →
      containsValue row.2 needle = some true → ∀ t ∈ tokensOf maps needle,
        row.1 ∈ postings.offsets t := by
    intro row hrow htext hcontains t ht
    rcases Option.map_eq_some_iff.mp hcontains with ⟨text, hrowtext, hpart⟩
    exact hlists.listed row hrow text hrowtext t (tokens_subset text needle
      (htext text hrowtext) hneedle (of_decide_eq_true hpart) t ht)
  simp only [if_neg hshort, if_neg hempty]
  cases hfiles : postingsOf file (tokensOf maps needle) with
  | none =>
    refine ⟨some [], rfl, fun found _ row hrow htext hcontains => ?_⟩
    rcases postingsOf_isSome hlists _ (hevery row hrow htext hcontains) with ⟨lists, hsome⟩
    rw [hsome] at hfiles
    cases hfiles
  | some lists =>
    rcases postingsOf_some hlists _ lists hfiles with ⟨ids, hids, hsame, hasc⟩
    refine ⟨some (rowsOfIds (intersectAll ids)), by simp only [hids]; rfl, ?_⟩
    intro found hfound row hrow htext hcontains
    cases hfound
    have hlt : row.1 < 2 ^ 64 := by
      rcases exists_mem_of_ne_nil _ (fun hnil => hempty (isEmpty_iff.mpr hnil)) with ⟨t, ht⟩
      rcases IndexAnswers.mem_offsets (hevery row hrow htext hcontains t ht) with ⟨e, he, -, hin⟩
      exact hlists.small e he row.1 hin
    refine mem_rowsOfIds ?_ hlt
    have hin : ∀ l ∈ ids, row.1 ∈ l := by grind
    cases ids with
    | nil =>
      rw [map_eq_nil_iff.mp hsame.symm] at hempty
      exact absurd rfl hempty
    | cons first rest =>
      refine (mem_intersectAll first rest row.1 (hasc first (.head _))
        (fun l hl => hasc l (.tail _ hl))).mpr ?_
      exact ⟨hin first (.head _), fun l hl => hin l (.tail _ hl)⟩

/-- **The trigrams of a text are among those of every text that contains it; over a built file the
    rows left for a `contains` have every indexed row it is TRUE of; and no index is asked about a
    LIKE, so that every row is looked at.** -/
theorem ngram_answer_complete (maps : CharMaps) :
    (∀ text needle, Text text → Text needle → needle <:+: text →
      ∀ t ∈ ngramTokens (lowerAndFold maps needle), t ∈ ngramTokens (lowerAndFold maps text)) ∧
    (∀ file rows, Built maps file rows → ∀ needle, Text needle →
      ∃ answer, searchNgram maps file (.contains (some needle)) = .ok answer ∧
        ∀ found, answer = some found → ∀ row ∈ rows, (∀ text, row.2 = some text → Text text) →
          containsValue row.2 needle = some true →
          offsetOf row.1 ∈ found.offsets (fragmentOf row.1)) ∧
    ∀ (files : IndexAnswers.DatasetFiles) (env : IndexAnswers.Searches TextTest) (m : Manifest)
      column pattern fold negated out,
      IndexAnswers.indexCandidates files env m
        (conditionAt (.like column pattern fold negated)) = .ok out → out.rows = [] := by
  refine ⟨tokens_subset, fun file rows h needle hneedle =>
    searchNgram_complete h hneedle, ?_⟩
  intro files env m column pattern fold negated out hout
  unfold IndexAnswers.indexCandidates at hout
  by_cases hindices : m.indices.isEmpty = true
  · grind
  · rw [if_neg hindices] at hout
    rcases (bind_eq_ok _ _ _).mp hout with ⟨steps, -, hout⟩
    rcases (bind_eq_ok _ _ _).mp hout with ⟨rowIds, -, hout⟩
    rcases (bind_eq_ok _ _ _).mp hout with ⟨answer, hanswer, hout⟩
    cases hanswer
    cases hout
    rfl

/-- Two mappings of `É`. -/
def acuteMaps : CharMaps where
  lower := [(0xC9, [0xC3, 0xA9])]
  fold := [(0xE9, [0x65])]
  lower_text := by
    intro e he
    rw [mem_singleton.mp he]
    exact Utf8.IsChar.text ⟨rfl, forall_mem_singleton.mpr rfl⟩

/-- The rows "CAFÉ" and "tea". -/
def cafe : List Item := [(7, some [0x43, 0x41, 0x46, 0xC3, 0x89]), (8, some [0x74, 0x65, 0x61])]

theorem cafe_built : Built acuteMaps (writeNgram acuteMaps [] cafe) cafe :=
  .write [] [] [] cafe (forall_mem_nil _) rfl (by decide) (by decide +kernel)

/-- "AFÉ" has the trigram of "afe", and so has "CAFÉ"; the file of the two rows gives the first. -/
theorem ngram_finds_acute :
    (∀ t ∈ ngramTokens (lowerAndFold acuteMaps [0x41, 0x46, 0xC3, 0x89]),
      t ∈ ngramTokens (lowerAndFold acuteMaps [0x43, 0x41, 0x46, 0xC3, 0x89])) ∧
    searchNgram acuteMaps (writeNgram acuteMaps [] cafe)
      (.contains (some [0x41, 0x46, 0xC3, 0x89])) = .ok (some [(0, [7])]) ∧
    ∃ answer, searchNgram acuteMaps (writeNgram acuteMaps [] cafe)
        (.contains (some [0x41, 0x46, 0xC3, 0x89])) = .ok answer ∧
      ∀ found, answer = some found → ∀ row ∈ cafe, (∀ text, row.2 = some text → Text text) →
        containsValue row.2 [0x41, 0x46, 0xC3, 0x89] = some true →
        offsetOf row.1 ∈ found.offsets (fragmentOf row.1) := by
  have hacute : Text [0x41, 0x46, 0xC3, 0x89] :=
    ⟨[[0x41], [0x46], [0xC3, 0x89]], by
      intro c hc
      rcases mem_cons.mp hc with rfl | hc
      · exact ⟨rfl, forall_mem_nil _⟩
      rcases mem_cons.mp hc with rfl | hc
      · exact ⟨rfl, forall_mem_nil _⟩
      rw [mem_singleton.mp hc]
      exact ⟨rfl, forall_mem_singleton.mpr rfl⟩, rfl⟩
  have hc : Text [0x43] := Lib.Utf8.IsChar.text ⟨rfl, forall_mem_nil _⟩
  exact ⟨(ngram_answer_complete acuteMaps).1 _ _ (hc.append hacute) hacute ⟨[0x43], [], rfl⟩,
    by decide +kernel, (ngram_answer_complete acuteMaps).2.1 _ _ cafe_built _ hacute⟩

end NGram

end NanoLance
