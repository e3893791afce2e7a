import NanoLance.Lib.Lists
import NanoLance.RepDefSerialize
import NanoLance.RepDefShape

/-!
# What the Rows of a Nested Column Show

Arrow lets anything stand under a null list, an empty list or a null struct
above a list. `visible` is what is left of a stack of layers without it: the
entries of each layer that the rows show, an entry under a null struct being
masked until a list hides it. `ShowsAll` says that unraveled layers hold
exactly that, and nothing about levels.

Between the two stand the `tokens` of the serializer at each layer: an entry
that is still to be expanded, or a level that some layer further out has
already decided. Unraveling goes the other way. The levels of the tokens at a
layer are what is left of the streams there, so each layer that is peeled off
takes the levels of one row of tokens back to those of the row before.

## Theorems

* `tokens_inRange`: Which definition levels can stand at a layer.
-/

namespace NanoLance

namespace RepDef

open List Lib

/-! ### The entries that the rows show -/

/-- An entry of a layer: as it is, or under a null struct with no list between. -/
inductive Slot
  | live (idx : Nat)
  | masked (idx : Nat)
  deriving DecidableEq, Repr

def Slot.idx : Slot → Nat
  | .live idx | .masked idx => idx

/-- The children of list `idx`. -/
def listChildren (layer : SerializeLayer) (idx : Nat) : List Nat :=
  match listBounds 0 layer idx with
  | .ok (first, last) => childIndices first last
  | .error _ => []

/-- What the next layer in shows of an entry: nothing under a null or a masked list. -/
def SerializeLayer.children (layer : SerializeLayer) : Slot → List Slot
  | .live idx =>
      if layer.isList then
        if validAt layer.validity idx then (listChildren layer idx).map .live else []
      else if validAt layer.validity idx then [.live idx]
      else [.masked idx]
  | .masked idx => if layer.isList then [] else [.masked idx]

/-- The entries of a layer, under the layers `outer` from the inside out. -/
def visible (rows : List Slot) : List SerializeLayer → List Slot
  | [] => rows
  | layer :: outer => (visible rows outer).flatMap layer.children

def SerializeLayer.isNull (layer : SerializeLayer) (slot : Slot) : Bool :=
  !validAt layer.validity slot.idx

def SerializeLayer.isEmpty (layer : SerializeLayer) : Slot → Bool
  | .live idx => layer.isList && validAt layer.validity idx && (listChildren layer idx).isEmpty
  | .masked _ => false

/-- What occurs among the entries of a layer, a null under a null struct included. -/
def SerializeLayer.flagsOver (layer : SerializeLayer) (slots : List Slot) : LayerFlags :=
  { hasNull := slots.any layer.isNull, hasEmpty := slots.any layer.isEmpty }

def SerializeLayer.kindOver (layer : SerializeLayer) (slots : List Slot) : LayerKind :=
  kindOfFlags layer.isList (layer.flagsOver slots)

/-- The layers with their kinds. -/
def kinded (rows : List Slot) : List SerializeLayer → List (SerializeLayer × LayerKind)
  | [] => []
  | layer :: outer => (layer, layer.kindOver (visible rows outer)) :: kinded rows outer

/-- How an entry reads: a list under a null struct is null; an item or struct there is null where
    the layer has a null at all. -/
def SerializeLayer.reads (layer : SerializeLayer) (slots : List Slot) : Slot → Bool
  | .live idx => validAt layer.validity idx
  | .masked _ => !layer.isList && !slots.any layer.isNull

/-- An unraveled layer holds exactly these entries: their validity, and where it is a list the
    offsets from 0, with each list as long as what it shows. -/
structure Shows (layer : SerializeLayer) (slots : List Slot) (out : UnraveledLayer) : Prop where
  kind : out.kind = layer.kindOver slots
  validity : Represents out (slots.map (layer.reads slots))
  offsets : out.offsets =
    if layer.isList then (slots.map fun slot => (layer.children slot).length).scanl (· + ·) 0
    else []

/-- Unraveled layers, innermost first, hold exactly what the rows show. -/
def ShowsAll (rows : List Slot) : List SerializeLayer → List UnraveledLayer → Prop
  | [], [] => True
  | layer :: outer, out :: outs => Shows layer (visible rows outer) out ∧ ShowsAll rows outer outs
  | _, _ => False

theorem Shows.length {layer : SerializeLayer} {slots : List Slot} {out : UnraveledLayer}
    (h : Shows layer slots out) : out.length = slots.length := by
  rw [h.validity.length, length_map]

theorem isItem_cases {kind : LayerKind} (h : kind.isItem = true) :
    kind = .allValidItem ∨ kind = .nullableItem := by
  cases kind with
  | allValidItem => exact .inl rfl
  | nullableItem => exact .inr rfl
  | allValidList | nullableList | emptyableList | nullAndEmptyList => cases h

theorem kindOfFlags_isItem (isList : Bool) (flags : LayerFlags) :
    (kindOfFlags isList flags).isItem = !isList := by
  unfold kindOfFlags
  cases isList <;> cases flags.hasNull <;> cases flags.hasEmpty <;> rfl

theorem kindOver_isItem (layer : SerializeLayer) (slots : List Slot) :
    (layer.kindOver slots).isItem = !layer.isList :=
  kindOfFlags_isItem _ _

theorem visible_length_of_no_lists (rows : List Slot) (layers : List SerializeLayer)
    (h : ∀ layer ∈ layers, layer.isList = false) :
    (visible rows layers).length = rows.length := by
  induction layers with
  | nil => rfl
  | cons layer outer ih =>
    have hone : ∀ slot, (layer.children slot).length = 1 := by
      intro slot
      cases slot with
      | live idx =>
        simp only [SerializeLayer.children, h layer (.head _), Bool.false_eq_true, if_false]
        split <;> rfl
      | masked idx => simp [SerializeLayer.children, h layer (.head _)]
    rw [visible, length_flatMap, ← ih fun l hl => h l (.tail _ hl)]
    simp [hone]

/-! ### Definition levels by layer kind -/

/-- How many definition levels a layer of this kind has. -/
def LayerKind.levels (kind : LayerKind) : Nat :=
  (levelsOf 0 kind).length

/-- The level of a null at a layer with `c` levels inside it. -/
def nullLevel (c : Nat) : LayerKind → Nat
  | .nullableItem | .nullableList | .nullAndEmptyList => c + 1
  | .allValidItem | .allValidList | .emptyableList => 0

def emptyLevel (c : Nat) : LayerKind → Nat
  | .emptyableList => c + 1
  | .nullAndEmptyList => c + 2
  | .allValidItem | .allValidList | .nullableItem | .nullableList => 0

def levelTotal (kinds : List LayerKind) : Nat :=
  (kinds.map LayerKind.levels).sum

def listTotal (kinds : List LayerKind) : Nat :=
  kinds.countP fun kind => !kind.isItem

/-- The nullable structs above a layer, up to the next list. -/
def nullsAbove (kinds : List LayerKind) : Nat :=
  (kinds.takeWhile LayerKind.isItem).countP (· == .nullableItem)

variable (n : Nat) (kind : LayerKind) (kinds : List LayerKind)

theorem length_levelsOf : (levelsOf n kind).length = kind.levels := by
  cases kind <;> rfl

theorem levelTotal_cons :
    levelTotal (kind :: kinds) = kind.levels + levelTotal kinds := by
  rw [levelTotal, map_cons, sum_cons, levelTotal]

theorem listTotal_cons :
    listTotal (kind :: kinds) = (if kind.isItem then 0 else 1) + listTotal kinds := by
  grind [listTotal]

theorem nullsAbove_cons :
    nullsAbove (kind :: kinds) = if kind.isItem then kind.levels + nullsAbove kinds else 0 := by
  cases kind <;>
    simp [nullsAbove, takeWhile_cons, LayerKind.isItem, LayerKind.levels, levelsOf, Nat.add_comm]

theorem nullsAbove_le : nullsAbove kinds ≤ levelTotal kinds := by
  induction kinds with
  | nil => exact Nat.le_refl _
  | cons kind kinds ih =>
    rw [levelTotal_cons, nullsAbove_cons]
    split <;> omega

theorem length_levelTableFrom : (levelTableFrom n kinds).1.length = levelTotal kinds := by
  induction kinds generalizing n with
  | nil => rfl
  | cons kind kinds ih =>
    rw [levelTableFrom, length_append, ih, length_levelsOf, levelTotal_cons]

/-- Without a wrap, `num_lists` counts the list layers. -/
theorem listsAfter_eq (h : n + (if kind.isItem then 0 else 1) < 2 ^ 16) :
    listsAfter n kind = n + if kind.isItem then 0 else 1 := by
  unfold listsAfter next16
  grind

theorem levelTableFrom_lists (h : n + listTotal kinds < 2 ^ 16) :
    (levelTableFrom n kinds).2 = n + listTotal kinds := by
  induction kinds generalizing n with
  | nil => rfl
  | cons kind kinds ih =>
    rw [listTotal_cons] at h ⊢
    rw [levelTableFrom, listsAfter_eq n kind (by omega), ih _ (by omega), Nat.add_assoc]

theorem levelsOf_getD (i : Nat) (h : i < kind.levels) : (levelsOf n kind).getD i 0 = n := by
  have hlen := length_levelsOf n kind
  rw [getD_eq_getElem _ _ (hlen.symm ▸ h)]
  refine eq_of_mem_singleton (?_ : _ ∈ [n])
  have hall : ∀ x ∈ levelsOf n kind, x ∈ [n] := by
    cases kind <;> simp [levelsOf]
  exact hall _ (getElem_mem _)

/-- The entries of the table that remain are at least the depth, and past the structs directly
    above they are beyond it. -/
theorem levelTableFrom_getD (h : n + listTotal kinds < 2 ^ 16) (i : Nat) (hi : i < levelTotal kinds) :
    n ≤ (levelTableFrom n kinds).1.getD i 0 ∧
      (i < nullsAbove kinds → (levelTableFrom n kinds).1.getD i 0 = n) ∧
      (nullsAbove kinds ≤ i → n < (levelTableFrom n kinds).1.getD i 0) := by
  induction kinds generalizing n i with
  | nil => exact absurd hi (Nat.not_lt_zero _)
  | cons kind kinds ih =>
    rw [listTotal_cons] at h
    rw [levelTotal_cons] at hi
    have hlen := length_levelsOf (n + if kind.isItem then 0 else 1) kind
    rw [levelTableFrom, listsAfter_eq n kind (by omega)]
    rw [nullsAbove_cons]
    by_cases hown : i < kind.levels
    · rw [getD_append _ _ _ _ (by omega), levelsOf_getD _ _ _ hown]
      split <;> omega
    · have hrest := ih (n + if kind.isItem then 0 else 1) (by omega) (i - kind.levels) (by omega)
      rw [getD_append_right _ _ _ _ (by omega), hlen]
      generalize (levelTableFrom _ kinds).1.getD _ 0 = level at hrest ⊢
      cases hkind : kind.isItem <;>
        simp only [hkind, if_true, if_false, Bool.false_eq_true] at hrest ⊢ <;> omega

variable {outer : List LayerKind} {c depth : Nat} {kind : LayerKind} {layer : SerializeLayer}
  {slots : List Slot} {levels : List (Nat × Nat)} {table : List Nat} {ts : List Token}

theorem raise_eq {max : Nat} (h : max + nullsAbove outer < 2 ^ 16) :
    raise max outer = max + nullsAbove outer := by
  unfold raise nullsAbove at *
  generalize outer.takeWhile LayerKind.isItem = above at h ⊢
  induction above generalizing max with
  | nil => rfl
  | cons kind above ih =>
    rw [countP_cons] at h ⊢
    rw [foldl_cons]
    by_cases hkind : kind = .nullableItem
    · rw [hkind, beq_self_eq_true, if_pos rfl] at h
      have hnext : next16 max = max + 1 := Nat.mod_eq_of_lt (by omega)
      grind
    · grind

/-- What the levels mean at a list layer over `c` levels and under `above` nullable structs, where
    no level wraps. -/
def levelsAt (c : Nat) (kind : LayerKind) (above : Nat) : ListLevels :=
  { null := nullLevel c kind, empty := emptyLevel c kind, upperNull := c + kind.levels
    max := c + kind.levels + above, defCmp := c + kind.levels }

theorem listLevels_eq (hkind : kind.isItem = false)
    (h : c + kind.levels + nullsAbove outer < 2 ^ 16) :
    listLevels c kind outer = levelsAt c kind (nullsAbove outer) := by
  have hplus : ∀ n, n ≤ kind.levels → (c + n) % 65536 = c + n := fun n hn =>
    Nat.mod_eq_of_lt (by omega)
  have hfields : listLevels c kind outer =
      { levelsAt c kind 0 with max := raise (c + kind.levels) outer } := by
    cases kind with
    | allValidItem | nullableItem => exact absurd hkind (by decide)
    | allValidList => simp [listLevels, levelsAt, nullLevel, emptyLevel, LayerKind.levels, levelsOf]
    | nullableList | emptyableList =>
      simp [listLevels, levelsAt, nullLevel, emptyLevel, LayerKind.levels, levelsOf,
        hplus 1 (Nat.le_refl _)]
    | nullAndEmptyList =>
      simp [listLevels, levelsAt, nullLevel, emptyLevel, LayerKind.levels, levelsOf,
        hplus 1 (by decide), hplus 2 (Nat.le_refl _)]
  rw [hfields, raise_eq h]
  rfl

/-! ### Tokens -/

/-- A level of the rows, down to some layer: an entry of the layer that begins with the repetition
    level `rep`, or a definition level that a layer further out has decided on, with the entry
    still there under a null struct and gone under a list. -/
inductive Token
  | entry (idx rep : Nat)
  | masked (idx rep d : Nat)
  | gone (rep d : Nat)
  deriving DecidableEq, Repr

def Token.slot : Token → Option Slot
  | .entry idx _ => some (.live idx)
  | .masked idx _ _ => some (.masked idx)
  | .gone _ _ => none

/-- The tokens that a token of a layer turns into at the next layer in, with `c` definition levels
    and `depth` lists inside the layer. -/
def expand (layer : SerializeLayer) (kind : LayerKind) (c depth : Nat) : Token → List Token
  | .entry idx rep =>
      if layer.isList then
        if validAt layer.validity idx then
          match listChildren layer idx with
          | [] => [.gone rep (emptyLevel c kind)]
          | first :: rest => .entry first rep :: rest.map (.entry · depth)
        else [.gone rep (nullLevel c kind)]
      else if validAt layer.validity idx then [.entry idx rep]
      else [.masked idx rep (nullLevel c kind)]
  | .masked idx rep d => if layer.isList then [.gone rep d] else [.masked idx rep d]
  | .gone rep d => [.gone rep d]

/-- The tokens inside `layers`, which stand from the inside out, with `c` definition levels and
    `depth` lists inside them. -/
def tokens (start : List Token) : Nat → Nat → List (SerializeLayer × LayerKind) → List Token
  | _, _, [] => start
  | c, depth, (layer, kind) :: outer =>
      (tokens start (c + kind.levels) (depth + if kind.isItem then 0 else 1) outer).flatMap
        (expand layer kind c depth)

/-- What a token of a struct layer turns into. -/
def Token.inStruct (layer : SerializeLayer) (kind : LayerKind) (c : Nat) : Token → Token
  | .entry idx rep =>
      if validAt layer.validity idx then .entry idx rep else .masked idx rep (nullLevel c kind)
  | t => t

theorem expand_struct (hlist : layer.isList = false) (kind : LayerKind) (c depth : Nat)
    (t : Token) :
    expand layer kind c depth t = [t.inStruct layer kind c] := by
  cases t with
  | entry idx rep =>
    simp only [expand, hlist, Bool.false_eq_true, if_false, Token.inStruct]
    split <;> rfl
  | masked idx rep d => simp [expand, hlist, Token.inStruct]
  | gone rep d => rfl

theorem expand_slots (layer : SerializeLayer) (kind : LayerKind) (c depth : Nat) (t : Token) :
    (expand layer kind c depth t).filterMap Token.slot =
      t.slot.toList.flatMap layer.children := by
  cases t with
  | entry idx rep =>
    simp only [expand, Token.slot, Option.toList_some, flatMap_singleton, SerializeLayer.children]
    split
    · split
      · cases listChildren layer idx with
        | nil => rfl
        | cons first rest => simp [Token.slot, filterMap_map, Function.comp_def]
      · rfl
    · split <;> rfl
  | masked idx rep d =>
    simp only [expand, Token.slot, Option.toList_some, flatMap_singleton, SerializeLayer.children]
    split <;> rfl
  | gone rep d => rfl

theorem flatMap_expand_slots (layer : SerializeLayer) (kind : LayerKind) (c depth : Nat)
    (ts : List Token) :
    (ts.flatMap (expand layer kind c depth)).filterMap Token.slot =
      (ts.filterMap Token.slot).flatMap layer.children := by
  induction ts with
  | nil => rfl
  | cons t ts ih =>
    rw [flatMap_cons, filterMap_append, ih, expand_slots, filterMap_cons]
    grind

/-- The tokens of a layer that are not gone are the entries that the rows show there. -/
theorem tokens_slots (start : List Token) (c depth : Nat) (rows : List Slot)
    (layers : List SerializeLayer) (hstart : start.filterMap Token.slot = rows) :
    (tokens start c depth (kinded rows layers)).filterMap Token.slot = visible rows layers := by
  induction layers generalizing c depth with
  | nil => exact hstart
  | cons layer outer ih => rw [kinded, tokens, flatMap_expand_slots, ih, visible]

/-- The levels that a token of a layer can have: `c` and `depth` count the levels and lists inside
    it, `above` and `total` the levels of the structs directly above and of all layers further
    out. -/
def Token.InRange (c depth above total : Nat) : Token → Prop
  | .entry _ rep => depth ≤ rep
  | .masked _ rep d => depth ≤ rep ∧ c < d ∧ d ≤ c + above
  | .gone rep d => depth ≤ rep ∧ c + above < d ∧ d ≤ c + total

variable {slot : Slot}

theorem kindOver_null (hmem : slot ∈ slots) (hnull : validAt layer.validity slot.idx = false)
    (c : Nat) :
    nullLevel c (layer.kindOver slots) = c + 1 ∧ 1 ≤ (layer.kindOver slots).levels := by
  have hflag : (layer.flagsOver slots).hasNull = true := by
    refine any_eq_true.2 ⟨slot, hmem, ?_⟩
    rw [SerializeLayer.isNull, hnull]
    rfl
  unfold SerializeLayer.kindOver kindOfFlags
  cases layer.isList with
  | false => simp only [hflag, Bool.false_eq_true, if_false, if_true, nullLevel]; decide
  | true =>
    cases (layer.flagsOver slots).hasEmpty <;>
      simp only [hflag, if_true, nullLevel, true_and] <;> decide

theorem kindOver_empty (hmem : slot ∈ slots) (hempty : layer.isEmpty slot = true) (c : Nat) :
    c < emptyLevel c (layer.kindOver slots) ∧
      emptyLevel c (layer.kindOver slots) ≤ c + (layer.kindOver slots).levels := by
  have hflag : (layer.flagsOver slots).hasEmpty = true := any_eq_true.2 ⟨slot, hmem, hempty⟩
  have hlist : layer.isList = true := by
    cases slot with
    | live idx => grind [SerializeLayer.isEmpty]
    | masked idx => cases hempty
  grind [SerializeLayer.kindOver, kindOfFlags, emptyLevel, LayerKind.levels, levelsOf]

/-- One layer narrows the levels that can stand at it. -/
theorem expand_inRange (layer : SerializeLayer) (slots : List Slot) (outer : List LayerKind)
    (c depth total : Nat) (t t' : Token) (hslot : ∀ slot, t.slot = some slot → slot ∈ slots)
    (ht : t.InRange (c + (layer.kindOver slots).levels)
      (depth + if (layer.kindOver slots).isItem then 0 else 1) (nullsAbove outer) total)
    (habove : nullsAbove outer ≤ total)
    (hmem : t' ∈ expand layer (layer.kindOver slots) c depth t) :
    t'.InRange c depth (nullsAbove (layer.kindOver slots :: outer))
      ((layer.kindOver slots).levels + total) := by
  have hitem := kindOver_isItem layer slots
  rw [nullsAbove_cons]
  cases hlist : layer.isList with
  | false =>
    rw [hlist, Bool.not_false] at hitem
    rw [hitem, if_pos rfl, Nat.add_zero] at ht
    rw [expand_struct hlist, mem_singleton] at hmem
    rw [hmem, hitem, if_pos rfl]
    cases t with
    | entry idx rep =>
      rw [Token.inStruct]
      split
      · exact ht
      · next hnull =>
        rw [Bool.not_eq_true] at hnull
        rcases kindOver_null (hslot _ rfl) hnull c with ⟨hlevel, hone⟩
        rw [hlevel]
        exact ⟨ht, by omega, by omega⟩
    | masked idx rep d | gone rep d =>
      simp only [Token.inStruct, Token.InRange] at ht ⊢
      omega
  | true =>
    rw [hlist, Bool.not_true] at hitem
    rw [hitem, if_neg (by decide)] at ht ⊢
    cases t with
    | entry idx rep =>
      have hrep : depth + 1 ≤ rep := ht
      simp only [expand, hlist, if_true] at hmem
      split at hmem
      · next hvalid =>
        cases hchildren : listChildren layer idx with
        | nil =>
          simp only [hchildren, mem_singleton] at hmem
          have hempty : layer.isEmpty (.live idx) = true := by
            simp [SerializeLayer.isEmpty, hlist, hvalid, hchildren]
          rcases kindOver_empty (hslot _ rfl) hempty c with ⟨hgt, hle⟩
          rw [hmem]
          exact ⟨by omega, by omega, by omega⟩
        | cons first rest =>
          simp only [hchildren, mem_cons, mem_map] at hmem
          rcases hmem with rfl | ⟨child, _, rfl⟩
          · exact Nat.le_of_succ_le hrep
          · exact Nat.le_refl _
      · next hnull =>
        rw [Bool.not_eq_true] at hnull
        rcases kindOver_null (hslot _ rfl) hnull c with ⟨hlevel, hone⟩
        rw [mem_singleton.1 hmem, hlevel]
        exact ⟨by omega, by omega, by omega⟩
    | masked idx rep d | gone rep d =>
      simp only [expand, hlist, if_true, mem_singleton] at hmem
      rw [hmem]
      simp only [Token.InRange] at ht ⊢
      omega

theorem tokens_inRange (start : List Token) (rows : List Slot) (layers : List SerializeLayer)
    (c depth : Nat) (hrows : start.filterMap Token.slot = rows)
    (hstart : ∀ t ∈ start, ∃ idx,
      t = .entry idx (depth + listTotal ((kinded rows layers).map Prod.snd))) :
    ∀ t ∈ tokens start c depth (kinded rows layers),
      t.InRange c depth (nullsAbove ((kinded rows layers).map Prod.snd))
        (levelTotal ((kinded rows layers).map Prod.snd)) := by
  induction layers generalizing c depth with
  | nil =>
    intro t ht
    rcases hstart t ht with ⟨idx, rfl⟩
    exact Nat.le_add_right _ _
  | cons layer outer ih =>
    intro t' ht'
    rw [kinded, tokens] at ht'
    rw [kinded, map_cons, levelTotal_cons]
    rcases mem_flatMap.1 ht' with ⟨t, ht, hmem⟩
    refine expand_inRange layer (visible rows outer) _ c depth _ t t' ?_ (ih _ _ ?_ t ht)
      (nullsAbove_le _) hmem
    · intro slot hslot
      rw [← tokens_slots start _ _ rows outer hrows]
      exact mem_filterMap.2 ⟨t, ht, hslot⟩
    · intro s hs
      rcases hstart s hs with ⟨idx, hidx⟩
      refine ⟨idx, ?_⟩
      rw [hidx, kinded, map_cons, listTotal_cons, Nat.add_assoc]

/-! ### Reading the levels back -/

/-- A level of the streams at a layer stands for a token: the repetition level counts the lists from
    the layer on, and an entry can show any definition level from inside the layer. -/
def Token.Matches (c depth : Nat) : Token → Nat × Nat → Prop
  | .entry _ rep, (r, d) => rep = r + depth ∧ d ≤ c
  | .masked _ rep d', (r, d) => rep = r + depth ∧ d = d'
  | .gone rep d', (r, d) => rep = r + depth ∧ d = d'

/-- What a list layer has so far: the layer and its number of children. -/
def ListRead.view (s : ListRead) : UnraveledLayer × Nat :=
  (s.layer, s.curlen)

/-- Add a list with a number of children and its validity. -/
def addList (at_ : UnraveledLayer × Nat) (list : Nat × Bool) : UnraveledLayer × Nat :=
  (appendBit { at_.1 with offsets := at_.1.offsets ++ [at_.2] } list.2, at_.2 + list.1)

variable (s : ListRead)

theorem view_start (child valid : Bool) :
    (s.start child valid).view = addList s.view (if child then 1 else 0, valid) := by
  cases child <;> rfl

theorem foldl_continuations (hasDef : Bool) (l : ListLevels) (levels : List (Nat × Nat))
    (s : ListRead) (h : ∀ level ∈ levels, level.1 = 0) :
    (levels.foldl (readLevel hasDef l) s).view = (s.layer, s.curlen + levels.length) ∧
      peel levels = [] := by
  induction levels generalizing s with
  | nil => exact ⟨rfl, rfl⟩
  | cons level levels ih =>
    rcases level with ⟨r, d⟩
    have hr : r = 0 := h (r, d) (.head _)
    subst hr
    rcases ih { s with curlen := s.curlen + 1 } fun x hx => h x (.tail _ hx) with
      ⟨hview, hpeel⟩
    refine ⟨?_, hpeel⟩
    grind [readLevel]

variable (l : ListLevels)

theorem enter_child (d : Nat) (s : ListRead) (hmax : d ≤ l.max) (hupper : d ≤ l.upperNull)
    (hnull : l.null ≠ d ∨ d = 0) (hempty : l.empty ≠ d ∨ d = 0) :
    ListRead.enter l d s = s.start true true := by grind [ListRead.enter]

theorem enter_null (d : Nat) (s : ListRead) (hzero : d ≠ 0) (hmax : d ≤ l.max)
    (hnull : d = l.null ∨ l.upperNull < d) : ListRead.enter l d s = s.start false false := by
  grind [ListRead.enter]

theorem enter_empty {l : ListLevels} {d : Nat} (hzero : d ≠ 0) (hmax : d ≤ l.max)
    (hupper : d ≤ l.upperNull) (hnull : d ≠ l.null) (hempty : d = l.empty) :
    ListRead.enter l d s = s.start false true := by grind [ListRead.enter]

/-- What a list layer gets for an entry: how many children it shows, and whether it is valid. -/
def SerializeLayer.listOf (layer : SerializeLayer) (slots : List Slot) (slot : Slot) : Nat × Bool :=
  ((layer.children slot).length, layer.reads slots slot)

theorem view_start_slot {child valid : Bool}
    (hcount : (layer.children slot).length = if child then 1 else 0)
    (hvalid : layer.reads slots slot = valid) :
    (s.start child valid).view = ([slot].map (layer.listOf slots)).foldl addList s.view := by
  rw [view_start, map_singleton, foldl_cons, foldl_nil, SerializeLayer.listOf, hcount, hvalid]

/-- The one level of a token that is gone. -/
theorem gone_block {rep d : Nat} {block : List (Nat × Nat)} (hrep : depth + 1 ≤ rep)
    (hblock : List.Forall₂ (Token.Matches c depth) [.gone rep d] block) :
    ∃ r, rep = r + (depth + 1) ∧ block = [(r + 1, d)] := by
  rcases (forall₂_singleton_left _ _).1 hblock with ⟨⟨r, d⟩, ⟨hr, rfl⟩, rfl⟩
  obtain ⟨r, rfl⟩ : ∃ r', r = r' + 1 := ⟨r - 1, by omega⟩
  exact ⟨r, by omega, rfl⟩

theorem emptyLevel_ne_nullLevel (h : c < emptyLevel c kind) :
    emptyLevel c kind ≠ nullLevel c kind := by
  cases kind <;> simp only [emptyLevel, nullLevel] at h ⊢ <;> omega

section

variable (hasDef : Bool) (above total : Nat) (hlist : layer.isList = true)
  (hkind : layer.kindOver slots = kind)

include hlist hkind

/-- Reading the levels that one token of a list layer turns into: they add the list that the rows
    show for it, and one level that stands for the token goes on. -/
theorem foldl_block (t : Token) (block : List (Nat × Nat)) (s : ListRead)
    (hslot : ∀ slot, t.slot = some slot → slot ∈ slots)
    (ht : t.InRange (c + kind.levels) (depth + 1) above total)
    (hblock : List.Forall₂ (Token.Matches c depth) (expand layer kind c depth t) block) :
    (block.foldl (readLevel hasDef (levelsAt c kind above)) s).view =
        (t.slot.toList.map (layer.listOf slots)).foldl addList s.view ∧
      ∃ level, peel block = [level] ∧ t.Matches (c + kind.levels) (depth + 1) level := by
  cases t with
  | entry idx rep =>
    have hrep : depth + 1 ≤ rep := ht
    simp only [expand, hlist, if_true] at hblock
    split at hblock
    · next hvalid =>
      have hreads : layer.reads slots (.live idx) = true := hvalid
      cases hchildren : listChildren layer idx with
      | nil =>
        simp only [hchildren] at hblock
        rcases gone_block hrep hblock with ⟨r, hr, rfl⟩
        have hempty : layer.isEmpty (.live idx) = true := by
          simp [SerializeLayer.isEmpty, hlist, hvalid, hchildren]
        rcases kindOver_empty (hslot _ rfl) hempty c with ⟨hgt, hle⟩
        rw [hkind] at hgt hle
        have hne := emptyLevel_ne_nullLevel hgt
        refine ⟨?_, (r, emptyLevel c kind), rfl, hr, hle⟩
        rw [foldl_cons, foldl_nil, readLevel, enter_empty _ (by omega)
          (hle.trans (Nat.le_add_right _ _)) hle hne rfl]
        exact view_start_slot _ (by simp [SerializeLayer.children, hlist, hvalid, hchildren]) hreads
      | cons first rest =>
        simp only [hchildren] at hblock
        rcases forall₂_cons_left_iff.1 hblock with ⟨⟨r, d⟩, levels, ⟨hr, hd⟩, hrest, rfl⟩
        obtain ⟨r, rfl⟩ : ∃ r', r = r' + 1 := ⟨r - 1, by omega⟩
        have hzeros : ∀ level ∈ levels, level.1 = 0 := by
          intro level hlevel
          rw [forall₂_map_left_iff] at hrest
          rcases forall₂_iff_get.1 hrest with ⟨hlen, hget⟩
          rcases get_of_mem hlevel with ⟨i, hi⟩
          have hmatch := hget i (by omega) i.isLt
          rw [show levels.get ⟨i, i.isLt⟩ = level from hi] at hmatch
          have hzero := hmatch.1
          omega
        have hlen : rest.length = levels.length := by
          have := hrest.length_eq
          rwa [length_map] at this
        have hnull : nullLevel c kind ≠ d ∨ d = 0 := by
          cases kind <;> simp only [nullLevel] <;> omega
        have hempty : emptyLevel c kind ≠ d ∨ d = 0 := by
          cases kind <;> simp only [emptyLevel] <;> omega
        have henter := enter_child (levelsAt c kind above) d (s.passOn hasDef r d)
          (by show d ≤ c + _ + _; omega) (by show d ≤ c + _; omega) hnull hempty
        rcases foldl_continuations hasDef (levelsAt c kind above) levels
          ((s.passOn hasDef r d).start true true) hzeros with ⟨hview, hpeeled⟩
        refine ⟨?_, (r, d), ?_, by omega, by omega⟩
        · have hcount : (layer.children (.live idx)).length = levels.length + 1 := by
            simp [SerializeLayer.children, hlist, hvalid, hchildren, hlen]
          rw [foldl_cons, readLevel, henter, hview]
          simp only [Token.slot, Option.toList_some, map_cons, map_nil, foldl_cons, foldl_nil,
            SerializeLayer.listOf, hcount, hreads, addList, ListRead.view, ListRead.start,
            ListRead.passOn, if_true, Prod.mk.injEq, true_and]
          omega
        · grind [peel]
    · next hnull =>
      rw [Bool.not_eq_true] at hnull
      rcases gone_block hrep hblock with ⟨r, hr, rfl⟩
      rcases kindOver_null (hslot _ rfl) hnull c with ⟨hlevel, hone⟩
      rw [hkind] at hlevel hone
      refine ⟨?_, (r, nullLevel c kind), rfl, hr, by omega⟩
      rw [foldl_cons, foldl_nil, readLevel, enter_null _ (nullLevel c kind) _ (by omega)
        (by show _ ≤ c + _ + _; omega) (.inl rfl)]
      exact view_start_slot _ (by simp [SerializeLayer.children, hlist, hnull]) hnull
  | masked idx rep d =>
    rcases ht with ⟨hrep, hgt, hle⟩
    simp only [expand, hlist, if_true] at hblock
    rcases gone_block hrep hblock with ⟨r, hr, rfl⟩
    refine ⟨?_, (r, d), rfl, hr, rfl⟩
    rw [foldl_cons, foldl_nil, readLevel, enter_null _ d _ (by omega) hle (.inr hgt)]
    exact view_start_slot _ (by simp [SerializeLayer.children, hlist])
      (by simp [SerializeLayer.reads, hlist])
  | gone rep d =>
    rcases ht with ⟨hrep, hgt, hle⟩
    rcases gone_block hrep hblock with ⟨r, hr, rfl⟩
    refine ⟨?_, (r, d), rfl, hr, rfl⟩
    rcases enter_cases (levelsAt c kind above) d (s.passOn hasDef r d) with ⟨_, hsame⟩ | ⟨hmax, _⟩
    · rw [foldl_cons, foldl_nil, readLevel, hsame]
      rfl
    · exact absurd hgt (Nat.not_lt.2 hmax)

/-- Reading the levels of all tokens of a list layer. -/
theorem foldl_blocks (ts : List Token) (levels : List (Nat × Nat)) (s : ListRead)
    (hslot : ∀ t ∈ ts, ∀ slot, t.slot = some slot → slot ∈ slots)
    (ht : ∀ t ∈ ts, t.InRange (c + kind.levels) (depth + 1) above total)
    (hlevels : List.Forall₂ (Token.Matches c depth) (ts.flatMap (expand layer kind c depth)) levels) :
    (levels.foldl (readLevel hasDef (levelsAt c kind above)) s).view =
        ((ts.filterMap Token.slot).map (layer.listOf slots)).foldl addList s.view ∧
      List.Forall₂ (Token.Matches (c + kind.levels) (depth + 1)) ts (peel levels) := by
  induction ts generalizing levels s with
  | nil =>
    rw [flatMap_nil, forall₂_nil_left_iff] at hlevels
    rw [hlevels]
    exact ⟨rfl, List.Forall₂.nil⟩
  | cons t ts ih =>
    rw [flatMap_cons] at hlevels
    rcases forall₂_append_left _ _ _ hlevels with ⟨block, rest, rfl, hblock, hrest⟩
    rcases foldl_block hasDef above total hlist hkind t block s (hslot t (.head _))
      (ht t (.head _)) hblock with
      ⟨hview, level, hpeel, hmatch⟩
    rcases ih rest (block.foldl (readLevel hasDef (levelsAt c kind above)) s)
      (fun t ht' => hslot t (.tail _ ht'))
      (fun t ht' => ht t (.tail _ ht')) hrest with ⟨hviews, hmatches⟩
    refine ⟨?_, ?_⟩
    · grind
    · rw [peel, filter_append, map_append]
      exact (congrArg (· ++ peel rest) hpeel).symm ▸ List.Forall₂.cons hmatch hmatches

end

/-- The lists added one after another: their validity, and offsets that are running sums. -/
theorem foldl_addList (lists : List (Nat × Bool)) (at_ : UnraveledLayer × Nat) (flags : List Bool)
    (h : Represents at_.1 flags) :
    Represents (lists.foldl addList at_).1 (flags ++ lists.map Prod.snd) ∧
      (lists.foldl addList at_).1.kind = at_.1.kind ∧
      (lists.foldl addList at_).2 = at_.2 + (lists.map Prod.fst).sum ∧
      (lists.foldl addList at_).1.offsets ++ [(lists.foldl addList at_).2] =
        at_.1.offsets ++ (lists.map Prod.fst).scanl (· + ·) at_.2 := by
  induction lists generalizing at_ flags with
  | nil => simp [h]
  | cons list lists ih =>
    have hnext := appendBit_represents list.2 (h.withOffsets (at_.1.offsets ++ [at_.2]))
    rcases ih (addList at_ list) (flags ++ [list.2]) hnext with ⟨hflags, hkind, hcount, hoffsets⟩
    grind [addList, appendBit_kind, appendBit_offsets]

theorem readLists_eq_ok {hasDef : Bool} (s : ListRead)
    (hzero : hasDef = false → ∀ level ∈ levels, level.2 = 0) :
    readLists hasDef l (levels.map Prod.fst) (if hasDef then levels.map Prod.snd else []) s =
      .ok (levels.foldl (readLevel hasDef l) s) := by
  induction levels generalizing s with
  | nil => cases hasDef <;> rfl
  | cons level levels ih =>
    rcases level with ⟨r, d⟩
    have hnext := fun s => ih s fun hno x hx => hzero hno x (.tail _ hx)
    cases hasDef with
    | true => cases r <;> exact hnext _
    | false =>
      have hd : d = 0 := hzero rfl (r, d) (.head _)
      subst hd
      cases r <;> exact hnext _

/-- What is left of a page's streams. -/
def Page.left (page : Page) (levels : List (Nat × Nat)) (c depth : Nat) : Levels :=
  { rep := levels.map Prod.fst, defs := if page.hasDef then levels.map Prod.snd else []
    defCmp := c, repCmp := depth }

/-- The tokens of a list layer, and one level for each of them. -/
theorem listLayer_tokens (page : Page) (li : Nat) {total : Nat} (inner : UnraveledLayer)
    (hlist : layer.isList = true) (hkind : layer.kindOver slots = kind)
    (hslots : ts.filterMap Token.slot = slots)
    (ht : ∀ t ∈ ts, t.InRange (c + kind.levels) (depth + 1) (nullsAbove outer) total)
    (hsmall : c + kind.levels + nullsAbove outer < 2 ^ 16) (hdepth : depth + 1 < 2 ^ 16)
    (hzero : page.hasDef = false → ∀ level ∈ levels, level.2 = 0)
    (hinner : inner.length = (slots.flatMap layer.children).length)
    (hlevels : List.Forall₂ (Token.Matches c depth) (ts.flatMap (expand layer kind c depth)) levels) :
    ∃ out, Shows layer slots out ∧
      List.Forall₂ (Token.Matches (c + kind.levels) (depth + 1)) ts (peel levels) ∧
      listLayer page li kind outer inner (page.left levels c depth) =
        .ok (out, page.left (peel levels) (c + kind.levels) (depth + 1)) := by
  have hitem : kind.isItem = false := by
    rw [← hkind, kindOver_isItem, hlist]
    rfl
  have hslot : ∀ t ∈ ts, ∀ slot, t.slot = some slot → slot ∈ slots := by grind
  rcases foldl_blocks page.hasDef (nullsAbove outer) total hlist hkind ts levels
    { layer := { kind := kind } } hslot ht hlevels with ⟨hview, hpeeled⟩
  have hstreams := foldl_streams page.hasDef (levelsAt c kind (nullsAbove outer)) levels
    { layer := { kind := kind } }
  have hread := readLists_eq_ok (levelsAt c kind (nullsAbove outer))
    { layer := { kind := kind } } hzero
  generalize levels.foldl (readLevel page.hasDef (levelsAt c kind (nullsAbove outer)))
    { layer := { kind := kind } } = read at hview hstreams hread
  rw [hslots] at hview
  rcases foldl_addList (slots.map (layer.listOf slots)) ({ kind := kind }, 0) []
    (represents_empty kind) with ⟨hflags, hkinds, hcount, hoffsets⟩
  have hstart : ({ layer := { kind := kind } } : ListRead).view = ({ kind := kind }, 0) := rfl
  rw [hstart] at hview
  rw [← hview] at hflags hkinds hcount hoffsets
  have hsums : (slots.map (layer.listOf slots)).map Prod.fst =
      slots.map fun slot => (layer.children slot).length := by
    rw [map_map]
    rfl
  have hreads : (slots.map (layer.listOf slots)).map Prod.snd = slots.map (layer.reads slots) := by
    rw [map_map]
    rfl
  rw [hsums] at hcount hoffsets
  rw [hreads] at hflags
  have hend : read.curlen = inner.length := by
    rw [hinner, length_flatMap]
    exact hcount.trans (Nat.zero_add _)
  refine ⟨{ read.layer with offsets := read.layer.offsets ++ [read.curlen] },
    ⟨?_, hflags.withOffsets _, ?_⟩, hpeeled, ?_⟩
  · rw [hkind]
    exact hkinds
  · rw [if_pos hlist]
    exact hoffsets
  · have hnext : next16 depth = depth + 1 := Nat.mod_eq_of_lt hdepth
    simp only [listLayer, Page.left, listLevels_eq hitem hsmall, hread, hend, hnext, hstreams,
      bind, Except.bind, ensure, beq_self_eq_true, if_true, pure, Except.pure,
      nil_append]
    rfl

/-! ### An item or struct layer -/

/-- The level of a token at an item or struct layer: it is visible there when the token is not
    gone, and then it reads as the entry does. -/
def Reads (table : List Nat) (c depth : Nat) (nullable : Bool) (reads : Slot → Bool) (t : Token)
    (level : Nat × Nat) : Prop :=
  match t.slot with
  | some slot =>
      table.getD level.2 0 ≤ depth ∧ (!nullable || decide (level.2 ≤ c)) = reads slot
  | none => depth < table.getD level.2 0

theorem itemEntries_reads {nullable : Bool} {reads : Slot → Bool} (rep : List Nat)
    (layer : UnraveledLayer) (h : List.Forall₂ (Reads table c depth nullable reads) ts levels) :
    itemEntries table nullable
        { rep, defs := levels.map Prod.snd, defCmp := c, repCmp := depth } layer =
      ((ts.filterMap Token.slot).map reads).foldl appendBit layer := by
  unfold itemEntries
  induction h generalizing layer with
  | nil => rfl
  | @cons t level ts levels hread _ ih =>
    simp only [map_cons, foldl_cons, filterMap_cons] at ih ⊢
    unfold Reads at hread
    grind

theorem foldl_appendBit (flags : List Bool) (layer : UnraveledLayer) (before : List Bool)
    (h : Represents layer before) :
    Represents (flags.foldl appendBit layer) (before ++ flags) ∧
      (flags.foldl appendBit layer).kind = layer.kind ∧
      (flags.foldl appendBit layer).offsets = layer.offsets := by
  induction flags generalizing layer before with
  | nil =>
    rw [append_nil]
    exact ⟨h, rfl, rfl⟩
  | cons flag flags ih =>
    rcases ih _ _ (appendBit_represents flag h) with ⟨hflags, hkind, hoffsets⟩
    grind [appendBit_kind, appendBit_offsets]

/-- Without a null no bitmap is made. -/
theorem represents_all_valid (kind : LayerKind) (flags : List Bool) (h : false ∉ flags) :
    Represents { kind := kind, length := flags.length } flags :=
  ⟨rfl, (count_eq_zero.2 h).symm, fun _ => h, fun hne => absurd rfl hne, fun hne => absurd rfl hne⟩

/-- The table of levels, as far as it matters over `c` levels and `depth` lists: what is inside is
    visible, and what is further out is where the layers that remain put it. -/
structure TableFits (table : List Nat) (c depth : Nat) (kinds : List LayerKind) : Prop where
  inside : ∀ d, d ≤ c → table.getD d 0 ≤ depth
  outside : ∀ i, table.getD (c + 1 + i) 0 = (levelTableFrom depth kinds).1.getD i 0

section

variable {kinds : List LayerKind} (h : TableFits table c depth (kind :: kinds))

include h

theorem TableFits.next (hdepth : depth + (if kind.isItem then 0 else 1) < 2 ^ 16) :
    TableFits table (c + kind.levels) (depth + if kind.isItem then 0 else 1) kinds := by
  have houtside : ∀ i, table.getD (c + 1 + i) 0 =
      (levelsOf (depth + if kind.isItem then 0 else 1) kind ++
        (levelTableFrom (depth + if kind.isItem then 0 else 1) kinds).1).getD i 0 := by
    intro i
    rw [h.outside, levelTableFrom, listsAfter_eq depth kind hdepth]
  have hlen := length_levelsOf (depth + if kind.isItem then 0 else 1) kind
  constructor
  · intro d hd
    by_cases hin : d ≤ c
    · exact (h.inside d hin).trans (Nat.le_add_right _ _)
    · have hown := houtside (d - c - 1)
      rw [show c + 1 + (d - c - 1) = d by omega, getD_append _ _ _ _ (by omega),
        levelsOf_getD _ _ _ (by omega)] at hown
      exact Nat.le_of_eq hown
  · intro i
    have hbeyond := houtside (kind.levels + i)
    grind

/-- The null level of a struct layer is visible at it. -/
theorem TableFits.own (hkind : kind.isItem = true) (hdepth : depth < 2 ^ 16)
    (hlevels : 1 ≤ kind.levels) :
    table.getD (c + 1) 0 ≤ depth := by
  have hnext := h.next (by rw [hkind]; exact hdepth)
  have hle := hnext.inside (c + 1) (by omega)
  grind

end

/-- The levels of the structs directly above a layer are visible at it, those beyond are not. -/
theorem TableFits.above {kinds : List LayerKind} (h : TableFits table c depth kinds)
    (hdepth : depth + listTotal kinds < 2 ^ 16) (d : Nat) (hgt : c < d)
    (hle : d ≤ c + levelTotal kinds) :
    (d ≤ c + nullsAbove kinds → table.getD d 0 = depth) ∧
      (c + nullsAbove kinds < d → depth < table.getD d 0) := by
  have houtside := h.outside (d - c - 1)
  rw [show c + 1 + (d - c - 1) = d by omega] at houtside
  rcases levelTableFrom_getD depth kinds hdepth (d - c - 1) (by omega) with ⟨_, hsame, hbeyond⟩
  omega

/-- Where no layer has a definition level, every token is an entry and every entry is valid. -/
theorem all_live (hkind : layer.kindOver slots = kind) (hslots : ts.filterMap Token.slot = slots)
    (ht : ∀ t ∈ ts, t.InRange (c + kind.levels) depth (nullsAbove outer) (levelTotal outer))
    (hnone : kind.levels = 0 ∧ levelTotal outer = 0) :
    ts.length = slots.length ∧ false ∉ slots.map (layer.reads slots) := by
  have habove := nullsAbove_le outer
  have hentry : ∀ t ∈ ts, ∃ idx rep, t = .entry idx rep := by
    intro t htmem
    have hrange := ht t htmem
    cases t with
    | entry idx rep => exact ⟨idx, rep, rfl⟩
    | masked idx rep d =>
      rcases hrange with ⟨_, hgt, hle⟩
      omega
    | gone rep d =>
      rcases hrange with ⟨_, hgt, hle⟩
      omega
  constructor
  · rw [← hslots]
    clear hslots ht
    induction ts with
    | nil => rfl
    | cons t ts ih =>
      rcases hentry t (.head _) with ⟨idx, rep, rfl⟩
      rw [filterMap_cons]
      exact congrArg (· + 1) (ih fun t ht => hentry t (.tail _ ht))
  · intro hfalse
    rcases mem_map.1 hfalse with ⟨slot, hslot, hreads⟩
    rw [← hslots] at hslot
    rcases mem_filterMap.1 hslot with ⟨t, htmem, hts⟩
    rcases hentry t htmem with ⟨idx, rep, rfl⟩
    cases hts
    rw [hslots] at hslot
    rcases kindOver_null hslot hreads c with ⟨_, hone⟩
    rw [hkind] at hone
    omega

section

variable (hlist : layer.isList = false)

include hlist

theorem kindOver_nullable : (layer.kindOver slots == .nullableItem) = slots.any layer.isNull := by
  grind [SerializeLayer.kindOver, kindOfFlags, SerializeLayer.flagsOver]

theorem kindOver_null_struct (hmem : slot ∈ slots) (hnull : validAt layer.validity slot.idx = false) :
    layer.kindOver slots = .nullableItem := by
  rw [← beq_iff_eq, kindOver_nullable hlist]
  grind [SerializeLayer.isNull]

/-- One token of a struct layer and the level that stands for it. -/
theorem struct_reads {t : Token} {level : Nat × Nat} (hkind : layer.kindOver slots = kind)
    (hslot : ∀ slot, t.slot = some slot → slot ∈ slots)
    (ht : t.InRange (c + kind.levels) depth (nullsAbove outer) (levelTotal outer))
    (hfits : TableFits table c depth (kind :: outer)) (hdepth : depth + listTotal outer < 2 ^ 16)
    (hmatch : (t.inStruct layer kind c).Matches c depth level) :
    Reads table c depth (kind == .nullableItem) (layer.reads slots) t level ∧
      t.Matches (c + kind.levels) depth level := by
  rcases level with ⟨r, d⟩
  have hitem : kind.isItem = true := by
    rw [← hkind, kindOver_isItem, hlist]
    rfl
  have hnext := hfits.next (by rw [hitem, if_pos rfl]; omega)
  rw [hitem, if_pos rfl, Nat.add_zero] at hnext
  cases t with
  | entry idx rep =>
    rw [Token.inStruct] at hmatch
    split at hmatch
    · next hvalid =>
      rcases hmatch with ⟨hr, hd⟩
      refine ⟨⟨hfits.inside d hd, ?_⟩, hr, by omega⟩
      rw [decide_eq_true hd, Bool.or_true]
      exact hvalid.symm
    · next hvalid =>
      rw [Bool.not_eq_true] at hvalid
      rcases hmatch with ⟨hr, hd⟩
      have hnullable := kindOver_null_struct hlist (hslot _ rfl) hvalid
      rw [hkind] at hnullable
      rw [hnullable] at hfits hd ⊢
      have hlevel : d = c + 1 := hd
      refine ⟨⟨?_, ?_⟩, hr, ?_⟩
      · rw [hlevel]
        exact hfits.own rfl (by omega) (by decide)
      · rw [decide_eq_false (by omega)]
        exact hvalid.symm
      · rw [hlevel]
        exact Nat.le_refl _
  | masked idx rep d' =>
    rcases ht with ⟨_, hgt, hle⟩
    rcases hmatch with ⟨hr, hd⟩
    have habove := (hnext.above hdepth d (by omega)
      (by have := nullsAbove_le outer; omega)).1 (by omega)
    refine ⟨⟨Nat.le_of_eq habove, ?_⟩, hr, hd⟩
    rw [decide_eq_false (by omega), Bool.or_false, ← hkind, kindOver_nullable hlist]
    simp [SerializeLayer.reads, hlist]
  | gone rep d' =>
    rcases ht with ⟨_, hgt, hle⟩
    rcases hmatch with ⟨hr, hd⟩
    have hbeyond := (hnext.above hdepth d (by omega) (by omega)).2 (by omega)
    exact ⟨hbeyond, hr, hd⟩

/-- The tokens of an item or struct layer, and one level for each of them. -/
theorem itemLayer_tokens (page : Page) (li : Nat) (inner : Option UnraveledLayer)
    (hkind : layer.kindOver slots = kind) (hslots : ts.filterMap Token.slot = slots)
    (ht : ∀ t ∈ ts, t.InRange (c + kind.levels) depth (nullsAbove outer) (levelTotal outer))
    (hfits : TableFits table c depth (kind :: outer)) (hsmall : c + kind.levels < 2 ^ 16)
    (hdepth : depth + listTotal outer < 2 ^ 16)
    (hnone : page.hasDef = false → kind.levels = 0 ∧ levelTotal outer = 0)
    (hitems : page.hasRep = false → page.numItems = slots.length ∧ page.numItems ≠ inferItems)
    (hinner : (inner.map (·.length)).getD page.numItems = slots.length)
    (hlevels : List.Forall₂ (Token.Matches c depth) (ts.flatMap (expand layer kind c depth)) levels) :
    ∃ out, Shows layer slots out ∧
      List.Forall₂ (Token.Matches (c + kind.levels) depth) ts levels ∧
      itemLayer page table li kind inner (page.left levels c depth) =
        .ok (out, page.left levels (c + kind.levels) depth) := by
  have hitem : kind.isItem = true := by
    rw [← hkind, kindOver_isItem, hlist]
    rfl
  have hpairs : List.Forall₂ (fun t level =>
      Reads table c depth (kind == .nullableItem) (layer.reads slots) t level ∧
        t.Matches (c + kind.levels) depth level) ts levels := by
    have hstruct : expand layer kind c depth = fun t => [t.inStruct layer kind c] :=
      funext (expand_struct hlist kind c depth)
    rw [hstruct, ← map_eq_flatMap, forall₂_map_left_iff] at hlevels
    rw [forall₂_iff_zip] at hlevels ⊢
    refine ⟨hlevels.1, fun {t level} hzip => ?_⟩
    have htmem : t ∈ ts := (of_mem_zip hzip).1
    refine struct_reads hlist hkind ?_ (ht t htmem) hfits hdepth (hlevels.2 hzip)
    grind
  -- the entries of the layer: one for each level that is visible, or all of them
  have hentries : ∃ out, itemLayerEntries page table kind (page.left levels c depth) = .ok out ∧
      Shows layer slots out := by
    unfold itemLayerEntries Page.left
    by_cases hdef : page.hasDef = true
    · rw [if_pos hdef, if_pos hdef, itemEntries_reads _ _ (hpairs.imp fun _ _ h => h.1), hslots]
      rcases foldl_appendBit (slots.map (layer.reads slots)) { kind := kind } []
        (represents_empty kind) with ⟨hflags, hkinds, hoffsets⟩
      refine ⟨_, rfl, ⟨?_, hflags, ?_⟩⟩
      · rw [hkinds, hkind]
      · rw [hoffsets, hlist]
        rfl
    · rw [Bool.not_eq_true] at hdef
      rcases all_live hkind hslots ht (hnone hdef) with ⟨hlength, hvalid⟩
      rw [hdef, if_neg (by decide), if_neg]
      · have hcount : (if page.hasRep then (levels.map Prod.fst).length else page.numItems) =
            (slots.map (layer.reads slots)).length := by
          rw [length_map, length_map]
          by_cases hrep : page.hasRep = true
          · rw [if_pos hrep, ← hlength, hpairs.length_eq]
          · rw [if_neg hrep, (hitems (Bool.not_eq_true _ ▸ hrep)).1]
        refine ⟨_, rfl, ⟨hkind.symm, ?_, ?_⟩⟩
        · simp only [hcount]
          exact represents_all_valid kind _ hvalid
        · rw [hlist]
          rfl
      · grind
  rcases hentries with ⟨out, hout, hshows⟩
  have hlength := hshows.length
  have hcheck : checkItemLayer page li inner out = .ok () := by
    unfold checkItemLayer
    cases inner with
    | none =>
      have hnum : page.numItems = slots.length := hinner
      rw [ensure_eq_ok, hlength, hnum, beq_self_eq_true, Bool.or_true]
    | some inner =>
      have hnum : inner.length = slots.length := hinner
      simp only [ensure_eq_ok, hlength, hnum, beq_self_eq_true]
  refine ⟨out, hshows, hpairs.imp fun _ _ h => h.2, ?_⟩
  have hcmp : (if kind = .nullableItem then next16 c else c) = c + kind.levels := by
    rcases isItem_cases hitem with rfl | rfl
    · rfl
    · exact Nat.mod_eq_of_lt hsmall
  unfold Page.left at hout ⊢
  simp [itemLayer, hout, hcheck, hcmp]

end

/-! ### All layers -/

/-- Unraveling the levels of the tokens inside some layers gives back what the rows show at each
    of them. -/
theorem unravelFrom_tokens (page : Page) (table : List Nat) (rows : List Slot)
    (start : List Token) (layers : List SerializeLayer) (li c depth : Nat)
    (inner : Option UnraveledLayer) (levels : List (Nat × Nat))
    (hrows : start.filterMap Token.slot = rows)
    (hstart : ∀ t ∈ start, ∃ idx,
      t = .entry idx (depth + listTotal ((kinded rows layers).map Prod.snd)))
    (hlevels : List.Forall₂ (Token.Matches c depth) (tokens start c depth (kinded rows layers))
      levels)
    (hfits : TableFits table c depth ((kinded rows layers).map Prod.snd))
    (hsmall : c + levelTotal ((kinded rows layers).map Prod.snd) < 2 ^ 16)
    (hdepth : depth + listTotal ((kinded rows layers).map Prod.snd) < 2 ^ 16)
    (hnone : page.hasDef = false → levelTotal ((kinded rows layers).map Prod.snd) = 0 ∧
      ∀ level ∈ levels, level.2 = 0)
    (hitems : page.hasRep = false → (∀ layer ∈ layers, layer.isList = false) ∧
      page.numItems = rows.length ∧ page.numItems ≠ inferItems)
    (hinner : (inner.map (·.length)).getD page.numItems = (visible rows layers).length)
    (hfirst : inner = none → layers.head?.all (fun layer => !layer.isList) = true) :
    ∃ outs, ShowsAll rows layers outs ∧
      unravelFrom page table li ((kinded rows layers).map Prod.snd) inner
        (page.left levels c depth) = .ok outs := by
  induction layers generalizing li c depth inner levels with
  | nil => exact ⟨[], trivial, rfl⟩
  | cons layer outer ih =>
    have hslots := tokens_slots start (c + (layer.kindOver (visible rows outer)).levels)
      (depth + if (layer.kindOver (visible rows outer)).isItem then 0 else 1) rows outer hrows
    simp only [kinded, map_cons, listTotal_cons] at hstart hfits ⊢
    simp only [kinded, map_cons, levelTotal_cons, listTotal_cons] at hsmall hdepth hnone
    have hstart' : ∀ t ∈ start, ∃ idx, t = .entry idx
        (depth + (if (layer.kindOver (visible rows outer)).isItem then 0 else 1) +
          listTotal ((kinded rows outer).map Prod.snd)) := by grind
    have hrange := tokens_inRange start rows outer
      (c + (layer.kindOver (visible rows outer)).levels) _ hrows hstart'
    have hfits' := hfits.next (by omega)
    rw [kinded, tokens] at hlevels
    have habove := nullsAbove_le ((kinded rows outer).map Prod.snd)
    rw [unravelFrom]
    generalize hkind : layer.kindOver (visible rows outer) = kind at *
    have hitem : kind.isItem = !layer.isList := by
      rw [← hkind, kindOver_isItem]
    cases hlist : layer.isList with
    | false =>
      rw [hlist, Bool.not_false] at hitem
      rw [hitem, if_pos rfl, Nat.add_zero] at hstart' hrange hfits' hslots hlevels
      rw [hitem, if_pos rfl] at hdepth
      have hsame : ∀ slots : List Slot, (slots.flatMap layer.children).length = slots.length :=
        fun slots => visible_length_of_no_lists slots [layer]
          fun l hl => by rw [mem_singleton.1 hl, hlist]
      rw [visible, hsame] at hinner
      have hcount : page.hasRep = false →
          page.numItems = (visible rows outer).length ∧ page.numItems ≠ inferItems := by
        intro hno
        rcases hitems hno with ⟨hlists, hnum, hinfer⟩
        rw [visible_length_of_no_lists rows outer fun l hl => hlists l (.tail _ hl)]
        exact ⟨hnum, hinfer⟩
      rcases itemLayer_tokens hlist page li inner hkind hslots hrange hfits (by omega) (by omega)
        (fun hno => by have := (hnone hno).1; omega) hcount hinner hlevels with
        ⟨out, hshows, hmatches, hlayer⟩
      rcases ih (li + 1) (c + kind.levels) depth (some out) levels hstart' hmatches hfits'
        (by omega) (by omega)
        (fun hno => ⟨by have := (hnone hno).1; omega, (hnone hno).2⟩)
        (fun hno => ⟨fun l hl => (hitems hno).1 l (.tail _ hl), (hitems hno).2⟩)
        hshows.length (by simp) with ⟨outs, hall, hrest⟩
      refine ⟨out :: outs, ⟨hshows, hall⟩, ?_⟩
      simp [peelLayer, hitem, hlayer, hrest]
    | true =>
      rw [hlist, Bool.not_true] at hitem
      rw [hitem, if_neg (by decide)] at hstart' hrange hfits' hslots hlevels hdepth
      -- a list layer has a layer inside it
      rcases inner with _ | inner
      · grind
      rcases listLayer_tokens page li inner hlist hkind hslots hrange (by omega) (by omega)
        (fun hno => (hnone hno).2) hinner
        hlevels with ⟨out, hshows, hmatches, hlayer⟩
      rcases ih (li + 1) (c + kind.levels) (depth + 1) (some out) (peel levels) hstart' hmatches
        hfits' (by omega) (by omega)
        (fun hno => ⟨by have := (hnone hno).1; omega, peel_snd (hnone hno).2⟩)
        (fun hno => ⟨fun l hl => (hitems hno).1 l (.tail _ hl), (hitems hno).2⟩)
        hshows.length (by simp) with ⟨outs, hall, hrest⟩
      refine ⟨out :: outs, ⟨hshows, hall⟩, ?_⟩
      simp [peelLayer, hitem, hlayer, hrest]

end RepDef

end NanoLance
