import NanoLance.RepDefTokens

/-!
# Serialize, then Unravel

The serializer's two passes go down the layers entry by entry; what they find
and write is what the tokens say layer by layer. The first pass finds the
flags of each layer's entries, so the layers get the kinds of `kinded`; the
second writes one level for each token inside the items, in order. With that,
unraveling what was serialized is `unravelFrom_tokens`.

The items are a layer of their own here, a struct with nothing inside it.

## Theorems

* `unravel_serialize`: Unraveling what was serialized gives what the rows show.
-/

namespace NanoLance

namespace RepDef

open List Lib

/-- The items as a layer: a struct with nothing inside it. -/
def itemsOf (items : List Nat) : SerializeLayer :=
  { isList := false, validity := some items }

/-! ### The first pass -/

/-- What the entries `slots` of a layer show inside the last of `layers`. -/
def descend (slots : List Slot) (layers : List SerializeLayer) : List Slot :=
  layers.foldl (fun slots layer => slots.flatMap layer.children) slots

/-- What occurs at each layer, and among the items, under the entries `slots`. -/
def flagsOf (items : List Nat) : List SerializeLayer → List Slot → List LayerFlags
  | [], slots => [(itemsOf items).flagsOver slots]
  | layer :: inner, slots =>
      layer.flagsOver slots :: flagsOf items inner (slots.flatMap layer.children)

variable {items : List Nat} {layer : SerializeLayer} {kinds : List LayerKind} {start : List Token}
  {layers : List SerializeLayer} {k idx : Nat} {a b : List Slot} {flags : List LayerFlags}

theorem descend_append :
    descend (a ++ b) layers = descend a layers ++ descend b layers := by
  unfold descend
  induction layers generalizing a b with
  | nil => rfl
  | cons layer layers ih =>
    rw [foldl_cons, foldl_cons, foldl_cons, flatMap_append, ih]

theorem descend_nil : descend [] layers = [] := by
  unfold descend
  induction layers with
  | nil => rfl
  | cons layer layers ih => exact ih

theorem flagsOf_nil :
    flagsOf items layers [] = replicate (layers.length + 1) {} := by
  induction layers with
  | nil => rfl
  | cons layer inner ih =>
    rw [flagsOf, flatMap_nil, ih]
    rfl

theorem flagsOver_append :
    layer.flagsOver (a ++ b) = (layer.flagsOver a).merge (layer.flagsOver b) := by
  simp [SerializeLayer.flagsOver, LayerFlags.merge]

theorem flagsOf_append :
    flagsOf items layers (a ++ b) =
      zipWith LayerFlags.merge (flagsOf items layers a) (flagsOf items layers b) := by
  induction layers generalizing a b with
  | nil =>
    rw [flagsOf, flagsOver_append]
    rfl
  | cons layer inner ih =>
    rw [flagsOf, flagsOver_append, flatMap_append, ih]
    rfl

/-- The nulls hidden under a null struct are those of the entries it masks. -/
theorem hiddenNulls_eq (layers : List SerializeLayer) :
    hiddenNulls items idx layers = flagsOf items layers [.masked idx] := by
  induction layers with
  | nil =>
    simp only [hiddenNulls, flagsOf, SerializeLayer.flagsOver, itemsOf, SerializeLayer.isNull,
      SerializeLayer.isEmpty, Slot.idx, any_cons, any_nil, Bool.or_false]
  | cons layer inner ih =>
    rw [hiddenNulls, flagsOf]
    have hown : layer.flagsOver [.masked idx] = { hasNull := !validAt layer.validity idx } := by
      simp [SerializeLayer.flagsOver, SerializeLayer.isNull, SerializeLayer.isEmpty, Slot.idx]
    rw [hown]
    cases hlist : layer.isList with
    | true => simp [SerializeLayer.children, flagsOf_nil, hlist]
    | false => simp [SerializeLayer.children, ih, hlist]

/-- A masked entry keeps its place down to the items unless a list hides it. -/
theorem descend_masked :
    descend [.masked idx] layers =
      if layers.any (·.isList) then [] else [.masked idx] := by
  induction layers with
  | nil => rfl
  | cons layer inner ih =>
    rw [descend, foldl_cons, any_cons]
    cases hlist : layer.isList with
    | true =>
      simp only [flatMap_cons, flatMap_nil, SerializeLayer.children, hlist, if_true,
        append_nil, Bool.true_or]
      exact descend_nil
    | false =>
      simp only [flatMap_cons, flatMap_nil, SerializeLayer.children, hlist,
        Bool.false_eq_true, if_false, append_nil, Bool.false_or]
      exact ih

theorem listDepth_eq_zero (h : layers.countP (·.isList) < 2 ^ 16) :
    listDepth layers = 0 ↔ layers.any (·.isList) = false := by
  rw [listDepth, Nat.mod_eq_of_lt h, countP_eq_zero, any_eq_false]

theorem listBounds_ok (layer : SerializeLayer) (idx : Nat) (first last : Int)
    (h : listBounds k layer idx = .ok (first, last)) :
    listChildren layer idx = childIndices first last := by
  have hzero : listBounds 0 layer idx = .ok (first, last) := by grind [listBounds]
  rw [listChildren, hzero]

theorem childIndices_eq_nil (first last : Int) (h : ¬last < first) :
    childIndices first last = [] ↔ last = first := by
  rw [childIndices, map_eq_nil_iff, range_eq_nil]
  omega

/-- A part of the first pass over the entries `slots` under the layers left. -/
structure Counted (items : List Nat) (layers : List SerializeLayer) (slots : List Slot)
    (counts : Counts) : Prop where
  flags : counts.flags = flagsOf items layers slots
  items : counts.items = (descend slots layers).length

theorem Counted.zero :
    Counted items layers [] (Counts.zero layers.length) :=
  ⟨(flagsOf_nil).symm, by rw [descend_nil]; rfl⟩

variable {x y : Counts} {firstRow numRows rowRep threads : Nat} {out : Serialized}
  {rows : List Slot}

theorem Counted.merge (hx : Counted items layers a x) (hy : Counted items layers b y) :
    Counted items layers (a ++ b) (x.merge y) := by
  constructor
  · rw [Counts.merge, hx.flags, hy.flags, flagsOf_append]
  · rw [Counts.merge, hx.items, hy.items, descend_append, length_append]

/-- A loop of the first pass over the children of an entry, or over rows. -/
theorem countLoop {visit : Nat → Except SerializeError Counts}
    (hvisit : ∀ idx counts, visit idx = .ok counts → Counted items layers [.live idx] counts)
    {indices : List Nat} {slots : List Slot} {before after : Counts}
    (hbefore : Counted items layers slots before)
    (h : indices.foldlM (fun (counts : Counts) child => do
      let more ← visit child
      return counts.merge more) before = .ok after) :
    Counted items layers (slots ++ indices.map .live) after := by
  induction indices generalizing slots before with
  | nil => grind [pure_eq_ok]
  | cons idx indices ih =>
    rw [foldlM_cons] at h
    simp only [bind_eq_ok, pure_eq_ok] at h
    rcases h with ⟨next, ⟨more, hmore, hnext⟩, hrest⟩
    have hmerged := hbefore.merge (hvisit idx more hmore)
    grind

/-- The first pass finds the flags of what an entry shows at each layer, and counts its items. -/
theorem countVisit_spec {counts : Counts}
    (hlists : layers.countP (·.isList) < 2 ^ 16) (h : countVisit items k layers idx = .ok counts) :
    Counted items layers [.live idx] counts := by
  induction layers generalizing k idx counts with
  | nil =>
    rw [← Except.ok.inj h]
    constructor
    · simp only [flagsOf, SerializeLayer.flagsOver, itemsOf, SerializeLayer.isNull,
        SerializeLayer.isEmpty, Slot.idx, any_cons, any_nil, Bool.or_false,
        Bool.false_and]
    · rfl
  | cons layer inner ih =>
    have hinner : inner.countP (·.isList) < 2 ^ 16 := by
      rw [countP_cons] at hlists
      omega
    have hnull : layer.isNull (.live idx) = !validAt layer.validity idx := rfl
    cases hlist : layer.isList with
    | false =>
      simp only [countVisit, hlist, Bool.not_false, if_true] at h
      by_cases hvalid : validAt layer.validity idx = true
      · simp only [if_pos hvalid, bind_eq_ok, pure_eq_ok] at h
        rcases h with ⟨below, hbelow, hcounts⟩
        have hchildren : layer.children (.live idx) = [.live idx] := by
          simp [SerializeLayer.children, hlist, hvalid]
        rcases ih hinner hbelow with ⟨hflags, hitems⟩
        rw [← hcounts]
        constructor
        · grind [flagsOf, SerializeLayer.flagsOver, SerializeLayer.isEmpty]
        · simp [descend, hchildren, hitems]
      · rw [if_neg hvalid] at h
        rw [Bool.not_eq_true] at hvalid
        have hchildren : layer.children (.live idx) = [.masked idx] := by
          simp [SerializeLayer.children, hlist, hvalid]
        rw [← Except.ok.inj h]
        constructor
        · grind [flagsOf, hiddenNulls_eq, SerializeLayer.flagsOver, SerializeLayer.isEmpty]
        · simp only [descend, foldl_cons, flatMap_cons, flatMap_nil, append_nil, hchildren]
          show _ = (descend [.masked idx] inner).length
          rw [descend_masked]
          have hdepth := listDepth_eq_zero hinner
          by_cases hany : inner.any (·.isList) = true
          · grind
          · grind
    | true =>
      simp only [countVisit, hlist, Bool.not_true, Bool.false_eq_true, if_false,
        bind_eq_ok] at h
      rcases h with ⟨⟨first, last⟩, hbounds, h⟩
      have hchildren := listBounds_ok layer idx first last hbounds
      have hdown : layer.children (.live idx) =
          if validAt layer.validity idx then (childIndices first last).map .live else [] := by
        simp [SerializeLayer.children, hlist, hchildren]
      have hempty : layer.isEmpty (.live idx) =
          (validAt layer.validity idx && (childIndices first last).isEmpty) := by
        simp [SerializeLayer.isEmpty, hlist, hchildren]
      -- the flags of this layer and what is below it, by what the list is
      have hown : ∀ below : Counts, Counted items inner (layer.children (.live idx)) below →
          Counted items (layer :: inner) [.live idx]
            { below with flags := layer.flagsOver [.live idx] :: below.flags } := by
        intro below hbelow
        constructor
        · simp [flagsOf, hbelow.flags]
        · simp only [descend, foldl_cons, flatMap_cons, flatMap_nil,
            append_nil]
          exact hbelow.items
      have hflags : layer.flagsOver [.live idx] =
          { hasNull := !validAt layer.validity idx
            hasEmpty := validAt layer.validity idx && (childIndices first last).isEmpty } := by
        simp [SerializeLayer.flagsOver, hnull, hempty]
      by_cases hvalid : validAt layer.validity idx = true
      · simp only [hvalid, Bool.not_true, Bool.false_eq_true, if_false] at h
        rw [hvalid] at hdown hflags
        by_cases hdec : last < first
        · grind
        rw [if_neg hdec] at h
        by_cases hsame : last = first
        · rw [if_pos hsame] at h
          have hnil := (childIndices_eq_nil first last hdec).2 hsame
          have hzero := hown (Counts.zero inner.length) (by
            rw [hdown, hnil]
            exact Counted.zero)
          rw [hflags, hnil] at hzero
          rw [← Except.ok.inj h]
          exact ⟨hzero.flags, hzero.items⟩
        · simp only [if_neg hsame, bind_eq_ok, pure_eq_ok] at h
          rcases h with ⟨below, hbelow, hcounts⟩
          have hloop := countLoop
            (fun _ _ => ih hinner)
            (Counted.zero) hbelow
          grind [childIndices_eq_nil]
      · rw [Bool.not_eq_true] at hvalid
        simp only [hvalid, Bool.not_false, if_true] at h
        have hzero := hown (Counts.zero inner.length) (by
          rw [hdown, hvalid]
          exact Counted.zero)
        rw [hflags, hvalid] at hzero
        rw [← Except.ok.inj h]
        exact ⟨hzero.flags, hzero.items⟩

/-! ### The levels -/

/-- The layers with their kinds, from the outside in and with the items last. -/
def flagged (items : List Nat) :
    List SerializeLayer → List LayerFlags → List (SerializeLayer × LayerKind)
  | [], flags => [(itemsOf items, kindOfFlags false (flags.headD {}))]
  | layer :: inner, flags =>
      (layer, kindOfFlags layer.isList (flags.headD {})) :: flagged items inner flags.tail

/-- The definition levels of the layers left and the items. -/
def levelsLeft (items : List Nat) (layers : List SerializeLayer) (flags : List LayerFlags) : Nat :=
  levelTotal ((flagged items layers flags).map Prod.snd)

theorem next16_mod (n : Nat) : next16 (n % 2 ^ 16) = (n + 1) % 2 ^ 16 := by
  unfold next16
  omega

/-- The next level to give out is one more than the levels there are, in sixteen bits. -/
theorem assignLevels_next (items : List Nat) :
    (assignLevels layers flags).next = (levelsLeft items layers flags + 1) % 2 ^ 16 := by
  unfold levelsLeft
  induction layers generalizing flags with
  | nil =>
    simp only [assignLevels, flagged, map_cons, map_nil]
    have hkind := kindOfFlags_isItem false (flags.headD {})
    generalize kindOfFlags false (flags.headD {}) = kind at *
    rcases isItem_cases hkind with rfl | rfl <;> rfl
  | cons layer inner ih =>
    simp only [assignLevels, flagged, map_cons, levelTotal_cons, ih]
    grind [LayerKind.levels, levelsOf, next16_mod]

/-- The kinds are those of the flags. -/
theorem assignLevels_kinds (items : List Nat) (layers : List SerializeLayer)
    (flags : List LayerFlags) :
    (assignLevels layers flags).kinds = ((flagged items layers flags).map Prod.snd).reverse ∧
      (assignLevels layers flags).layers.map (·.layer) = layers := by
  induction layers generalizing flags with
  | nil => grind [assignLevels, flagged]
  | cons layer inner ih => grind [assignLevels, flagged]

/-- The numbers of the outermost layer left. -/
theorem assignLevels_cons (inner : List SerializeLayer) (flags : List LayerFlags)
    (hsmall : levelsLeft items (layer :: inner) flags + 1 < 2 ^ 16) :
    (assignLevels (layer :: inner) flags).layers =
      { layer
        nullLevel := nullLevel (levelsLeft items inner flags.tail)
          (kindOfFlags layer.isList (flags.headD {}))
        emptyLevel := emptyLevel (levelsLeft items inner flags.tail)
          (kindOfFlags layer.isList (flags.headD {})) } ::
        (assignLevels inner flags.tail).layers := by
  have hle : levelsLeft items (layer :: inner) flags =
      (kindOfFlags layer.isList (flags.headD {})).levels + levelsLeft items inner flags.tail := by
    rw [levelsLeft, flagged, map_cons, levelTotal_cons, levelsLeft]
  rw [hle] at hsmall
  have hnext : (assignLevels inner flags.tail).next = levelsLeft items inner flags.tail + 1 := by
    rw [assignLevels_next items, Nat.mod_eq_of_lt (by omega)]
  simp only [assignLevels, hnext]
  generalize kindOfFlags layer.isList (flags.headD {}) = kind at *
  cases kind with
  | nullAndEmptyList =>
    simp only [LayerKind.levels, levelsOf, length_cons, length_nil] at hsmall
    rw [show next16 (levelsLeft items inner flags.tail + 1) =
      levelsLeft items inner flags.tail + 2 from Nat.mod_eq_of_lt (by omega)]
    rfl
  | allValidItem | allValidList | nullableItem | nullableList | emptyableList => rfl

/-! ### The second pass -/

/-- The level of a token inside the items. -/
def Token.level : Token → Nat × Nat
  | .entry _ rep => (rep, 0)
  | .masked _ rep d | .gone rep d => (rep, d)

/-- The tokens that a token turns into, down through the layers left and the items. -/
def run (items : List Nat) : List SerializeLayer → List LayerFlags → Token → List Token
  | [], flags, t => expand (itemsOf items) (kindOfFlags false (flags.headD {})) 0 0 t
  | layer :: inner, flags, t =>
      (expand layer (kindOfFlags layer.isList (flags.headD {}))
        (levelsLeft items inner flags.tail) (inner.countP (·.isList)) t).flatMap
        (run items inner flags.tail)

theorem run_gone (rep d : Nat) : run items layers flags (.gone rep d) = [.gone rep d] := by
  induction layers generalizing flags with
  | nil => rfl
  | cons layer inner ih => simp [run, expand, ih]

/-- A token under a null struct is one level, whatever is inside. -/
theorem run_masked (rep d : Nat) :
    (run items layers flags (.masked idx rep d)).map Token.level = [(rep, d)] := by
  induction layers generalizing flags with
  | nil => rfl
  | cons layer inner ih =>
    rw [run]
    cases hlist : layer.isList with
    | true => simp [expand, run_gone, Token.level, hlist]
    | false => simp [expand, ih, hlist]

/-- The level a push writes. -/
def Push.level (push : Push) : Nat × Nat :=
  (push.rep, push.defn)

variable {pushes : List Push}

theorem emitChildren_run {visit : Nat → Nat → Except SerializeError (List Push)}
    {tokensOf : Token → List Token}
    (hvisit : ∀ idx rep pushes, visit idx rep = .ok pushes → pushes.map Push.level =
      (tokensOf (.entry idx rep)).map Token.level) {continuation : Nat} {first : Nat}
    {rest : List Nat} {rep : Nat}
    (h : emitChildren visit continuation (first :: rest) rep = .ok pushes) :
    pushes.map Push.level =
      ((Token.entry first rep :: rest.map (.entry · continuation)).flatMap tokensOf).map
        Token.level := by
  induction rest generalizing first rep pushes with
  | nil =>
    simp only [emitChildren, bind_eq_ok, pure_eq_ok] at h
    grind
  | cons second rest ih =>
    rw [emitChildren, bind_eq_ok] at h
    rcases h with ⟨head, hhead, h⟩
    rw [bind_eq_ok] at h
    rcases h with ⟨tail, htail, h⟩
    rw [pure_eq_ok] at h
    grind

theorem continuation_eq (inner : List SerializeLayer) (hlist : layer.isList = true)
    (hlists : (layer :: inner).countP (·.isList) < 2 ^ 16) :
    (listDepth (layer :: inner) + (2 ^ 16 - 1)) % 2 ^ 16 = inner.countP (·.isList) := by
  grind [listDepth]

/-- The second pass writes the levels of the tokens that an entry turns into. -/
theorem emitVisit_run {rep : Nat} (hlists : layers.countP (·.isList) < 2 ^ 16)
    (hsmall : levelsLeft items layers flags + 1 < 2 ^ 16)
    (h : emitVisit items (assignLevels layers flags).itemNull k (assignLevels layers flags).layers
      idx rep = .ok pushes) :
    pushes.map Push.level = (run items layers flags (.entry idx rep)).map Token.level := by
  induction layers generalizing k flags idx rep pushes with
  | nil =>
    have hkind := kindOfFlags_isItem false (flags.headD {})
    have hnil : (assignLevels [] flags).layers = [] ∧ (assignLevels [] flags).itemNull =
          nullLevel 0 (kindOfFlags false (flags.headD {})) := by
      simp only [assignLevels]
      generalize kindOfFlags false (flags.headD {}) = kind at *
      rcases isItem_cases hkind with rfl | rfl <;> exact ⟨rfl, rfl⟩
    rw [hnil.1, hnil.2] at h
    rw [← Except.ok.inj h]
    have hstruct : (itemsOf items).isList = false := rfl
    by_cases hvalid : validAt (itemsOf items).validity idx = true
    · have hitem : validAt (some items) idx = true := hvalid
      simp [run, expand, Push.level, Token.level, hstruct, hvalid, hitem]
    · have hitem : validAt (some items) idx = false := Bool.not_eq_true _ ▸ hvalid
      simp [run, expand, Push.level, Token.level, hstruct, hvalid, hitem]
  | cons layer inner ih =>
    have hinner : inner.countP (·.isList) < 2 ^ 16 := by
      rw [countP_cons] at hlists
      omega
    have hleft : levelsLeft items inner flags.tail + 1 < 2 ^ 16 := by
      grind [levelsLeft, flagged, levelTotal_cons]
    have hlayers := (assignLevels_kinds items inner flags.tail).2
    have hitem : (assignLevels (layer :: inner) flags).itemNull =
      (assignLevels inner flags.tail).itemNull := rfl
    rw [hitem, assignLevels_cons inner flags hsmall] at h
    rw [run]
    -- one level, whatever the layers inside make of the token
    have hgone : ∀ d, [(rep, d)] =
        (([Token.gone rep d].flatMap (run items inner flags.tail)).map Token.level) := by
      simp [run_gone, Token.level]
    cases hlist : layer.isList with
    | false =>
      simp only [emitVisit, hlist, Bool.not_false, if_true] at h
      simp only [expand, hlist, Bool.false_eq_true, if_false]
      by_cases hvalid : validAt layer.validity idx = true
      · grind
      · rw [if_neg hvalid] at h ⊢
        rw [← Except.ok.inj h, flatMap_cons, flatMap_nil, append_nil, run_masked]
        rfl
    | true =>
      simp only [emitVisit, hlist, Bool.not_true, Bool.false_eq_true, if_false,
        bind_eq_ok, hlayers] at h
      rcases h with ⟨⟨first, last⟩, hbounds, h⟩
      have hchildren := listBounds_ok layer idx first last hbounds
      simp only [expand, hlist, if_true, hchildren]
      by_cases hvalid : validAt layer.validity idx = true
      · simp only [hvalid, Bool.not_true, Bool.false_eq_true, if_false] at h
        rw [if_pos hvalid]
        by_cases hdec : last < first
        · grind
        rw [if_neg hdec] at h
        by_cases hsame : last = first
        · rw [if_pos hsame] at h
          rw [(childIndices_eq_nil first last hdec).2 hsame, ← Except.ok.inj h]
          exact hgone _
        · rw [if_neg hsame, continuation_eq inner hlist hlists] at h
          cases hindices : childIndices first last with
          | nil => exact absurd ((childIndices_eq_nil first last hdec).1 hindices) hsame
          | cons child rest =>
            rw [hindices] at h
            exact emitChildren_run (fun _ _ _ => ih hinner hleft) h
      · rw [Bool.not_eq_true] at hvalid
        simp only [hvalid, Bool.not_false, if_true] at h
        rw [hvalid, if_neg (by decide), ← Except.ok.inj h]
        exact hgone _

theorem slotsOf_append (a b : List Push) : slotsOf (a ++ b) = slotsOf a ++ slotsOf b := by
  rw [slotsOf, map_append, filter_append, slotsOf, slotsOf]

/-- The first pass counts what the second one writes: every level, and a place for every value
    slot. -/
def Sized (counts : Counts) (pushes : List Push) : Prop :=
  pushes.length = counts.levels ∧ (slotsOf pushes).length ≤ counts.items

theorem Sized.append {a b : List Push} (hx : Sized x a) (hy : Sized y b) :
    Sized (x.merge y) (a ++ b) := by
  refine ⟨?_, ?_⟩
  · rw [length_append, hx.1, hy.1]
    rfl
  · rw [slotsOf_append, length_append]
    exact Nat.add_le_add hx.2 hy.2

theorem sized_one (push : Push) (flags : List LayerFlags) (items : Nat)
    (h : push.slot = noSlot ∨ items = 1) : Sized { flags, levels := 1, items } [push] := by
  refine ⟨rfl, ?_⟩
  grind [slotsOf, bne_self_eq_false]

theorem emitChildren_sized {count : Nat → Except SerializeError Counts}
    {emit : Nat → Nat → Except SerializeError (List Push)}
    (hboth : ∀ idx rep counts pushes, count idx = .ok counts → emit idx rep = .ok pushes →
      Sized counts pushes)
    {continuation : Nat} {indices : List Nat} {rep : Nat} {before after : Counts}
    (written : List Push) {pushes : List Push} (hbefore : Sized before written)
    (hcount : indices.foldlM (fun (counts : Counts) child => do
      let more ← count child
      return counts.merge more) before = .ok after)
    (hemit : emitChildren emit continuation indices rep = .ok pushes) :
    Sized after (written ++ pushes) := by
  induction indices generalizing rep before written pushes with
  | nil =>
    rw [foldlM_nil, pure_eq_ok] at hcount
    cases hemit
    grind
  | cons idx indices ih =>
    rw [foldlM_cons] at hcount
    simp only [bind_eq_ok, pure_eq_ok] at hcount
    rcases hcount with ⟨next, ⟨more, hmore, hnext⟩, hrest⟩
    rw [emitChildren] at hemit
    simp only [bind_eq_ok, pure_eq_ok] at hemit
    rcases hemit with ⟨head, hhead, tail, htail, hpushes⟩
    have hmerged := hbefore.append (hboth idx rep more head hmore hhead)
    grind

/-- Both passes agree on how much there is to write for an entry. -/
theorem emitVisit_sized {itemNull rep : Nat} {layers : List NumberedLayer} {counts : Counts}
    (hcount : countVisit items k (layers.map (·.layer)) idx = .ok counts)
    (hemit : emitVisit items itemNull k layers idx rep = .ok pushes) : Sized counts pushes := by
  induction layers generalizing k idx rep counts pushes with
  | nil =>
    rw [← Except.ok.inj hcount, ← Except.ok.inj hemit]
    exact sized_one _ _ _ (.inr rfl)
  | cons numbered inner ih =>
    rw [map_cons] at hcount
    cases hlist : numbered.layer.isList with
    | false =>
      simp only [countVisit, hlist, Bool.not_false, if_true] at hcount
      simp only [emitVisit, hlist, Bool.not_false, if_true] at hemit
      by_cases hvalid : validAt numbered.layer.validity idx = true
      · simp only [if_pos hvalid, bind_eq_ok, pure_eq_ok] at hcount
        rw [if_pos hvalid] at hemit
        rcases hcount with ⟨below, hbelow, hcounts⟩
        rw [← hcounts]
        have hdone := ih hbelow hemit
        exact hdone
      · rw [if_neg hvalid] at hcount hemit
        rw [← Except.ok.inj hcount, ← Except.ok.inj hemit]
        refine sized_one _ _ _ ?_
        grind
    | true =>
      simp only [countVisit, hlist, Bool.not_true, Bool.false_eq_true, if_false,
        bind_eq_ok] at hcount
      simp only [emitVisit, hlist, Bool.not_true, Bool.false_eq_true, if_false, bind_eq_ok] at hemit
      rcases hcount with ⟨⟨first, last⟩, hbounds, hcount⟩
      rcases hemit with ⟨bounds, hbounds', hemit⟩
      rw [hbounds, Except.ok.injEq] at hbounds'
      subst hbounds'
      by_cases hvalid : validAt numbered.layer.validity idx = true
      · simp only [hvalid, Bool.not_true, Bool.false_eq_true, if_false] at hcount hemit
        by_cases hdec : last < first
        · grind
        rw [if_neg hdec] at hcount hemit
        by_cases hsame : last = first
        · rw [if_pos hsame] at hcount hemit
          rw [← Except.ok.inj hcount, ← Except.ok.inj hemit]
          exact sized_one _ _ _ (.inl rfl)
        · rw [if_neg hsame] at hcount hemit
          simp only [bind_eq_ok, pure_eq_ok] at hcount
          rcases hcount with ⟨below, hbelow, hcounts⟩
          have hdone := emitChildren_sized (fun _ _ _ _ => ih) []
            ⟨rfl, Nat.le_refl _⟩ hbelow hemit
          rw [← hcounts]
          exact hdone
      · rw [Bool.not_eq_true] at hvalid
        simp only [hvalid, Bool.not_false, if_true] at hcount hemit
        rw [← Except.ok.inj hcount, ← Except.ok.inj hemit]
        exact sized_one _ _ _ (.inl rfl)

/-! ### Entry by entry, layer by layer -/

theorem tokens_append (layer : SerializeLayer) (kind : LayerKind)
    (layers : List (SerializeLayer × LayerKind)) (c depth : Nat) :
    tokens start c depth (layers ++ [(layer, kind)]) =
      tokens (start.flatMap (expand layer kind (c + levelTotal (layers.map Prod.snd))
        (depth + listTotal (layers.map Prod.snd)))) c depth layers := by
  induction layers generalizing c depth with
  | nil => rfl
  | cons pair layers ih =>
    rcases pair with ⟨inner, innerKind⟩
    rw [cons_append, tokens, tokens, ih, map_cons, levelTotal_cons, listTotal_cons,
      Nat.add_assoc, Nat.add_assoc]

theorem levelTotal_reverse :
    levelTotal kinds.reverse = levelTotal kinds := by
  rw [levelTotal, map_reverse, sum_reverse, levelTotal]

theorem listTotal_reverse :
    listTotal kinds.reverse = listTotal kinds := by
  rw [listTotal, countP_reverse, listTotal]

theorem listTotal_flagged :
    listTotal ((flagged items layers flags).map Prod.snd) = layers.countP (·.isList) := by
  induction layers generalizing flags with
  | nil =>
    rw [flagged, map_cons, listTotal_cons, kindOfFlags_isItem]
    rfl
  | cons layer inner ih =>
    rw [flagged, map_cons, listTotal_cons, kindOfFlags_isItem, ih, countP_cons]
    grind

/-- Going down entry by entry gives the tokens of the layers. -/
theorem run_tokens (start : List Token) :
    tokens start 0 0 (flagged items layers flags).reverse =
      start.flatMap (run items layers flags) := by
  induction layers generalizing flags start with
  | nil => rfl
  | cons layer inner ih =>
    rw [flagged, reverse_cons, tokens_append, ih, flatMap_assoc, map_reverse,
      levelTotal_reverse, listTotal_reverse, listTotal_flagged, Nat.zero_add, Nat.zero_add]
    rfl

theorem visible_append (rows : List Slot) (layer : SerializeLayer)
    (layers : List SerializeLayer) :
    visible rows (layers ++ [layer]) = visible (rows.flatMap layer.children) layers := by
  induction layers with
  | nil => rfl
  | cons inner layers ih => rw [cons_append, visible, visible, ih]

theorem kinded_append (rows : List Slot) (layer : SerializeLayer) (layers : List SerializeLayer) :
    kinded rows (layers ++ [layer]) =
      kinded (rows.flatMap layer.children) layers ++ [(layer, layer.kindOver rows)] := by
  induction layers with
  | nil => rfl
  | cons inner layers ih =>
    rw [cons_append, kinded, kinded, ih, visible_append, cons_append]

/-- The layers from the inside out, the items first. -/
def stack (layers : List SerializeLayer) (items : List Nat) : List SerializeLayer :=
  (layers ++ [itemsOf items]).reverse

theorem stack_cons (items : List Nat) :
    stack (layer :: layers) items = stack layers items ++ [layer] := by
  rw [stack, cons_append, reverse_cons, stack]

/-- The flags of the first pass give the layers the kinds of their entries. -/
theorem flagged_flagsOf (items : List Nat) (layers : List SerializeLayer) (slots : List Slot) :
    (flagged items layers (flagsOf items layers slots)).reverse =
      kinded slots (stack layers items) := by
  induction layers generalizing slots with
  | nil => rfl
  | cons layer inner ih =>
    rw [flagsOf, flagged, reverse_cons, tail_cons, ih, stack_cons, kinded_append]
    rfl

theorem visible_stack (items : List Nat) (slots : List Slot) :
    (visible slots (stack layers items)).length = (descend slots layers).length := by
  induction layers generalizing slots with
  | nil =>
    exact visible_length_of_no_lists slots [itemsOf items] fun l hl => by
      rw [mem_singleton.1 hl]
      rfl
  | cons layer inner ih =>
    rw [stack_cons, visible_append, ih]
    rfl

/-! ### All rows, in one part or several -/

theorem flatten_ranges {rowOf : Nat → Nat} (hmono : ∀ k, rowOf k ≤ rowOf (k + 1)) (n : Nat) :
    ((range n).map fun k => range' (rowOf k) (rowOf (k + 1) - rowOf k)).flatten =
      range' (rowOf 0) (rowOf n - rowOf 0) ∧ rowOf 0 ≤ rowOf n := by
  induction n with
  | zero => exact ⟨by rw [Nat.sub_self]; rfl, Nat.le_refl _⟩
  | succ n ih =>
    rcases ih with ⟨hflat, hle⟩
    have hstep := hmono n
    refine ⟨?_, hle.trans hstep⟩
    rw [range_succ, map_append, flatten_append, hflat, map_singleton, flatten_singleton]
    have hjoin := @range'_append_1 (rowOf 0) (rowOf n - rowOf 0) (rowOf (n + 1) - rowOf n)
    rw [show rowOf 0 + (rowOf n - rowOf 0) = rowOf n by omega] at hjoin
    rw [hjoin]
    congr 1
    omega

/-- Every row is in one part, in order. -/
theorem partRows_flatten (threads : Nat) (h : firstRow + numRows < 2 ^ 64) :
    (partRows threads firstRow numRows).flatten = range' firstRow numRows := by
  simp only [partRows]
  split
  · next hparts =>
    generalize min threads (numRows / 8192) = parts at *
    have hmono : ∀ k, firstRow + numRows * k / parts ≤ firstRow + numRows * (k + 1) / parts := by
      intro k
      have hstep : numRows * k / parts ≤ numRows * (k + 1) / parts :=
        Nat.div_le_div_right (Nat.mul_le_mul_left numRows (Nat.le_succ k))
      omega
    rw [(flatten_ranges hmono parts).1]
    have hlast : numRows * parts / parts = numRows := Nat.mul_div_cancel numRows (by omega)
    simp only [hlast, Nat.mul_zero, Nat.zero_div, Nat.add_zero, Nat.add_sub_cancel_left]
  · rw [flatten_singleton, Nat.mod_eq_of_lt h, Nat.add_sub_cancel_left]

theorem length_fill {size : Nat} {written : List Nat} (h : written.length ≤ size) :
    (fill size written).length = size := by grind [fill]

theorem fill_eq {size : Nat} {written : List Nat} (h : written.length = size) :
    fill size written = written := by
  rw [fill, h, Nat.sub_self, replicate_zero, append_nil]

section

variable {counted : List (List Nat × Counts)} (hrange : firstRow + numRows < 2 ^ 64)
  (hlists : layers.countP (·.isList) < 2 ^ 16)
  (h : serialize threads layers items firstRow numRows = .ok out)

include hlists

/-- The first pass over the parts. -/
theorem countParts {slots : List Slot} {before : Counts}
    (hcounted : ∀ part ∈ counted, countRows layers items part.1 = .ok part.2)
    (hbefore : Counted items layers slots before) :
    Counted items layers (slots ++ (counted.map Prod.fst).flatten.map .live)
      ((counted.map Prod.snd).foldl Counts.merge before) := by
  induction counted generalizing slots before with
  | nil => simp [hbefore]
  | cons part counted ih =>
    have hpart := countLoop (fun _ _ => countVisit_spec hlists) Counted.zero
      (hcounted part (.head _))
    have hdone := ih (fun p hp => hcounted p (.tail _ hp)) (hbefore.merge hpart)
    grind

theorem emitRows_run {rows : List Nat}
    (hsmall : levelsLeft items layers flags + 1 < 2 ^ 16)
    (h : emitChildren (emitVisit items (assignLevels layers flags).itemNull 0 (assignLevels layers
      flags).layers) rowRep rows rowRep = .ok pushes) :
    pushes.map Push.level =
      ((rows.map (Token.entry · rowRep)).flatMap (run items layers flags)).map Token.level := by
  cases rows with
  | nil =>
    cases h
    rfl
  | cons first rest =>
    exact emitChildren_run (fun _ _ _ => emitVisit_run hlists hsmall) h

/-- The second pass over the parts writes the levels of the tokens, and fills what the first pass
    sized. -/
theorem emitParts {written : List (List Push × List Nat)} (before : Counts) (done : List Push)
    (hsmall : levelsLeft items layers flags + 1 < 2 ^ 16)
    (hcounted : ∀ part ∈ counted, countRows layers items part.1 = .ok part.2)
    (hwritten : List.Forall₂ (fun part output => emitRows items (assignLevels layers flags) rowRep
      part.1 part.2 = .ok output) counted written) (hdone : Sized before done) :
    (written.map Prod.fst).flatten.map Push.level =
        (((counted.map Prod.fst).flatten.map (Token.entry · rowRep)).flatMap
          (run items layers flags)).map Token.level ∧
      Sized ((counted.map Prod.snd).foldl Counts.merge before)
        (done ++ (written.map Prod.fst).flatten) ∧
      before.items + (written.map Prod.snd).flatten.length =
        ((counted.map Prod.snd).foldl Counts.merge before).items := by
  induction hwritten generalizing before done with
  | nil => grind
  | @cons part output counted written hpart _ ih =>
    simp only [emitRows, bind_eq_ok, pure_eq_ok] at hpart
    rcases hpart with ⟨pushes, hpushes, houtput⟩
    have hlayers := (assignLevels_kinds items layers flags).2
    have hsized := emitChildren_sized (fun _ _ _ _ hc he =>
        emitVisit_sized (by rw [hlayers]; exact hc) he)
      [] ⟨rfl, Nat.le_refl _⟩ (hcounted part (.head _)) hpushes
    rw [nil_append] at hsized
    have hlevels := emitRows_run hlists hsmall hpushes
    rcases ih (before.merge part.2) (done ++ pushes)
      (fun p hp => hcounted p (.tail _ hp)) (hdone.append hsized) with
      ⟨hrest, hfilled, hslots⟩
    rw [← houtput]
    simp only [map_cons, flatten_cons, map_append, foldl_cons, flatMap_append, length_append]
    refine ⟨by rw [hlevels, hrest], by rw [← append_assoc]; exact hfilled, ?_⟩
    rw [← hslots, length_fill hsized.2]
    simp only [Counts.merge]
    omega

omit hlists

theorem emitChildren_append (visit : Nat → Nat → Except SerializeError (List Push)) (c : Nat)
    (xs ys : List Nat) : emitChildren visit c (xs ++ ys) c =
      (return (← emitChildren visit c xs c) ++ (← emitChildren visit c ys c)) := by
  induction xs with
  | nil => exact (bind_pure _).symm
  | cons x xs ih =>
    simp only [cons_append, emitChildren, ih, bind_assoc, pure_bind, append_assoc]

/-- Parts side by side are written as in one go, and every slot has a place among the items. -/
theorem emitRows_parts {assigned : Assigned} {written : List (List Push × List Nat)}
    (h : List.Forall₂ (fun part output => emitRows items assigned rowRep part.1 part.2 =
      .ok output) counted written) :
    emitChildren (emitVisit items assigned.itemNull 0 assigned.layers) rowRep
        (counted.map Prod.fst).flatten rowRep = .ok (written.map Prod.fst).flatten ∧
      slotsOf (written.map Prod.fst).flatten <+ (written.map Prod.snd).flatten := by
  induction h with
  | nil => exact ⟨rfl, .slnil⟩
  | cons hpart _ ih =>
    simp only [emitRows, bind_eq_ok, pure_eq_ok] at hpart
    rcases hpart with ⟨pushes, hpushes, rfl⟩
    simp only [map_cons, flatten_cons, slotsOf_append, emitChildren_append, hpushes, ih.1]
    exact ⟨rfl, (sublist_append_left _ _).append ih.2⟩

/-- The rows serialized, as entries. -/
def rowSlots (firstRow numRows : Nat) : List Slot :=
  (range' firstRow numRows).map .live

/-- The definition levels that the rows of a nested column need. -/
def definitionLevels (layers : List SerializeLayer) (items : List Nat) (rows : List Slot) : Nat :=
  levelTotal ((kinded rows (stack layers items)).map Prod.snd)

/-- The flags of the first pass need the definition levels of the kinds. -/
theorem levelsLeft_flagsOf (layers : List SerializeLayer) (items : List Nat) (rows : List Slot) :
    levelsLeft items layers (flagsOf items layers rows) = definitionLevels layers items rows := by
  rw [definitionLevels, ← flagged_flagsOf, map_reverse, levelTotal_reverse, levelsLeft]

include hrange hlists h

/-- What the first pass leaves to the second one: the parts with their counts, and in all the flags
    and items of what the rows show. -/
theorem serialize_counted :
    ∃ counted written,
      (counted.map Prod.fst).flatten = range' firstRow numRows ∧
      (∀ part ∈ counted, countRows layers items part.1 = .ok part.2) ∧
      Counted items layers (rowSlots firstRow numRows)
        ((counted.map Prod.snd).foldl Counts.merge (Counts.zero layers.length)) ∧
      List.Forall₂ (fun part output =>
        emitRows items (assignLevels layers (flagsOf items layers (rowSlots firstRow numRows)))
          (listDepth layers) part.1 part.2 = .ok output) counted written ∧
      out = assemble (listDepth layers)
        (assignLevels layers (flagsOf items layers (rowSlots firstRow numRows)))
        ((counted.map Prod.snd).foldl Counts.merge (Counts.zero layers.length)) written := by
  simp only [serialize, bind_eq_ok, pure_eq_ok, mapM_eq_ok] at h
  rcases h with ⟨_, _, counted, hcounted, written, hwritten, hout⟩
  have hfst : counted.map Prod.fst = partRows threads firstRow numRows := by
    rw [← forall₂_eq_eq_eq, forall₂_map_left_iff]
    refine hcounted.flip.imp fun part rows hpart => ?_
    rcases hpart with ⟨counts, _, rfl⟩
    rfl
  have hparts : ∀ part ∈ counted, countRows layers items part.1 = .ok part.2 := by
    intro part hpart
    rcases (forall₂_partner hcounted).2 part hpart with ⟨rows, _, counts, hcounts, rfl⟩
    exact hcounts
  have hrows : (counted.map Prod.fst).flatten = range' firstRow numRows := by
    rw [hfst, partRows_flatten threads hrange]
  have hpass := countParts hlists hparts Counted.zero
  rw [hrows, nil_append] at hpass
  rw [show ((counted.map Prod.snd).foldl Counts.merge (Counts.zero layers.length)).flags = _ from
    hpass.flags] at hwritten hout
  exact ⟨counted, written, hrows, hparts, hpass, hwritten, hout.symm⟩

/-- With 65535 definition levels the next one to give out wraps to 0, and the definition levels are
    left out although the layers need them. -/
theorem serialize_levels_wrap
    (hlevels : definitionLevels layers items (rowSlots firstRow numRows) = 2 ^ 16 - 1) :
    out.hasDef = false ∧ out.defs = [] := by
  rcases serialize_counted hrange hlists h with ⟨counted, written, _, _, _, _, rfl⟩
  simp [assemble, assignLevels_next items, levelsLeft_flagsOf, hlevels]

/-- The tokens of the rows inside the items. -/
def rowTokens (layers : List SerializeLayer) (items : List Nat) (firstRow numRows : Nat) :
    List Token :=
  tokens ((range' firstRow numRows).map (.entry · (layers.countP (·.isList)))) 0 0
    (kinded (rowSlots firstRow numRows) (stack layers items))

/-- What `serialize` returns: the levels of the tokens, in streams that are left out where no layer
    needs them. -/
structure Written (layers : List SerializeLayer) (items : List Nat) (firstRow numRows : Nat)
    (out : Serialized) (levels : List (Nat × Nat)) : Prop where
  stream : levels = (rowTokens layers items firstRow numRows).map Token.level
  hasRep : out.hasRep = (layers.countP (·.isList) != 0)
  hasDef : out.hasDef =
    decide (definitionLevels layers items (rowSlots firstRow numRows) ≠ 0)
  rep : out.rep = if out.hasRep then levels.map Prod.fst else []
  defs : out.defs = if out.hasDef then levels.map Prod.snd else []
  kinds : out.layers =
    ((kinded (rowSlots firstRow numRows) (stack layers items)).map Prod.snd).map LayerKind.code
  items : out.items.length =
    (visible (rowSlots firstRow numRows) (stack layers items)).length

theorem serialize_written
    (hsmall : definitionLevels layers items (rowSlots firstRow numRows) + 1 < 2 ^ 16) :
    ∃ levels, Written layers items firstRow numRows out levels := by
  rcases serialize_counted hrange hlists h with
    ⟨counted, written, hrows, hparts, hpass, hwritten, rfl⟩
  have hkinded := flagged_flagsOf items layers (rowSlots firstRow numRows)
  have htotal := levelsLeft_flagsOf layers items (rowSlots firstRow numRows)
  have hkinds := (assignLevels_kinds items layers
    (flagsOf items layers (rowSlots firstRow numRows))).1
  have hdepth : listDepth layers = layers.countP (·.isList) := Nat.mod_eq_of_lt hlists
  rcases emitParts hlists (Counts.zero layers.length) []
    (by rw [htotal]; exact hsmall) hparts hwritten ⟨rfl, Nat.le_refl _⟩ with
    ⟨hlevels, hsized, hslots⟩
  rw [nil_append] at hsized
  rw [hrows, ← run_tokens, hkinded, hdepth] at hlevels
  have hrep : (written.map Prod.fst).flatten.map (·.rep) =
      ((written.map Prod.fst).flatten.map Push.level).map Prod.fst := by
    rw [map_map]
    rfl
  have hdefn : (written.map Prod.fst).flatten.map (·.defn) =
      ((written.map Prod.fst).flatten.map Push.level).map Prod.snd := by
    rw [map_map]
    rfl
  refine ⟨(written.map Prod.fst).flatten.map Push.level, hlevels, ?_, ?_, ?_, ?_, ?_, ?_⟩
  · simp only [assemble, hdepth]
  · simp only [assemble, assignLevels_next items, htotal, Nat.mod_eq_of_lt hsmall]
    congr 1
    rw [eq_iff_iff]
    omega
  · rw [← hrep]
    simp only [assemble]
    rw [fill_eq (by rw [length_map]; exact hsized.1)]
    rfl
  · rw [← hdefn]
    simp only [assemble]
    rw [fill_eq (by rw [length_map]; exact hsized.1)]
    rfl
  · rw [← hkinded, map_reverse, ← hkinds]
    rfl
  · have hzero : (Counts.zero layers.length).items = 0 := rfl
    rw [hzero, Nat.zero_add] at hslots
    simp only [assemble]
    rw [hslots, hpass.items, visible_stack]

end

/-! ### What unravel checks -/

theorem decodeKinds_code :
    decodeKinds (kinds.map LayerKind.code) = .ok kinds := by
  induction kinds with
  | nil => rfl
  | cons kind kinds ih => simp [decodeKinds, kindOf_code, ih]

def Token.rep : Token → Nat
  | .entry _ rep | .masked _ rep _ | .gone rep _ => rep

/-- The first token that a token turns into begins with its repetition level, and the others with
    the number of lists inside. -/
theorem expand_rep (layer : SerializeLayer) (kind : LayerKind) (c depth : Nat) (t : Token) :
    ∃ first rest, expand layer kind c depth t = first :: rest ∧ first.rep = t.rep ∧
      ∀ t' ∈ rest, t'.rep = depth := by
  have hone : ∀ t' : Token, ∃ first rest, [t'] = first :: rest ∧ first.rep = t'.rep ∧
      ∀ x ∈ rest, x.rep = depth :=
    fun t' => ⟨t', [], rfl, rfl, nofun⟩
  cases t with
  | entry idx rep =>
    simp only [expand]
    split
    · split
      · split
        · exact hone _
        · next first rest _ =>
          refine ⟨_, _, rfl, rfl, fun t' ht' => ?_⟩
          rcases mem_map.1 ht' with ⟨child, _, rfl⟩
          rfl
      · exact hone _
    · split
      · exact hone _
      · exact hone _
  | masked idx rep d =>
    simp only [expand]
    split
    · exact hone _
    · exact hone _
  | gone rep d => exact hone _

/-- Repetition levels are at most the number of lists, and the first one is that number. -/
theorem tokens_rep (start : List Token) (c depth lists : Nat)
    (layers : List (SerializeLayer × LayerKind))
    (hstart : ∀ t ∈ start, t.rep = lists) (hdepth : depth + listTotal (layers.map Prod.snd) ≤ lists) :
    (∀ t ∈ tokens start c depth layers, t.rep ≤ lists) ∧
      ∀ t, (tokens start c depth layers).head? = some t → t.rep = lists := by
  induction layers generalizing c depth with
  | nil =>
    refine ⟨fun t ht => Nat.le_of_eq (hstart t ht), fun t ht => hstart t ?_⟩
    exact mem_of_mem_head? ht
  | cons pair outer ih =>
    rcases pair with ⟨layer, kind⟩
    rw [map_cons, listTotal_cons] at hdepth
    rcases ih (c + kind.levels) (depth + if kind.isItem then 0 else 1)
      (by rw [Nat.add_assoc]; exact hdepth) with ⟨hle, hhead⟩
    rw [tokens]
    generalize tokens start (c + kind.levels) (depth + if kind.isItem then 0 else 1) outer = ts at *
    constructor
    · intro t' ht'
      rcases mem_flatMap.1 ht' with ⟨t, ht, hmem⟩
      rcases expand_rep layer kind c depth t with ⟨first, rest, hexpand, hfirst, hrest⟩
      grind
    · intro t' ht'
      cases ts with
      | nil => cases ht'
      | cons t ts =>
        rcases expand_rep layer kind c depth t with ⟨first, rest, hexpand, hfirst, _⟩
        grind

theorem Token.level_fst (t : Token) : t.level.1 = t.rep := by
  cases t <;> rfl

/-- A level of the streams at the items stands for its token. -/
theorem Token.matches_level (t : Token) : t.Matches 0 0 t.level := by
  cases t with
  | entry idx rep => exact ⟨rfl, Nat.le_refl _⟩
  | masked idx rep d => exact ⟨rfl, rfl⟩
  | gone rep d => exact ⟨rfl, rfl⟩

theorem Token.InRange.level_le {t : Token} {above total : Nat} (h : t.InRange 0 0 above total)
    (habove : above ≤ total) : t.level.2 ≤ total := by
  cases t with
  | entry idx rep => exact Nat.zero_le _
  | masked idx rep d =>
    have hle : d ≤ 0 + above := h.2.2
    exact (show d ≤ above by omega).trans habove
  | gone rep d =>
    have hle : d ≤ 0 + total := h.2.2
    exact show d ≤ total by omega

/-- Without lists there is a level for each row. -/
theorem tokens_length_of_no_lists (c depth : Nat) (layers : List (SerializeLayer × LayerKind))
    (h : ∀ pair ∈ layers, pair.1.isList = false) :
    (tokens start c depth layers).length = start.length := by
  induction layers generalizing c depth with
  | nil => rfl
  | cons pair outer ih =>
    rcases pair with ⟨layer, kind⟩
    have hlist : layer.isList = false := h (layer, kind) (.head _)
    have hrest := fun c depth => ih c depth fun pair hpair => h pair (.tail _ hpair)
    simp [tokens, length_flatMap, expand_struct hlist, hrest]

/-- Item and struct layers do not read the repetition levels of a page that has none. -/
theorem unravelFrom_rep (page : Page) (table : List Nat) (li : Nat) (kinds : List LayerKind)
    (inner : Option UnraveledLayer) (rep rep' defs : List Nat) (defCmp repCmp : Nat)
    (hrep : page.hasRep = false) (hkinds : ∀ kind ∈ kinds, kind.isItem = true) :
    unravelFrom page table li kinds inner { rep, defs, defCmp, repCmp } =
      unravelFrom page table li kinds inner { rep := rep', defs, defCmp, repCmp } := by
  induction kinds generalizing li inner defCmp with
  | nil => rfl
  | cons kind outer ih =>
    have hentries : itemLayerEntries page table kind { rep, defs, defCmp, repCmp } =
        itemLayerEntries page table kind { rep := rep', defs, defCmp, repCmp } := by
      simp [itemLayerEntries, itemEntries, hrep]
    simp only [unravelFrom, peelLayer, hkinds kind (.head _), if_true, itemLayer, hentries]
    cases itemLayerEntries page table kind { rep := rep', defs, defCmp, repCmp } with
    | error e => rfl
    | ok layer =>
      simp only [bind, Except.bind]
      cases checkItemLayer page li inner layer with
      | error e => rfl
      | ok _ =>
        simp only [pure, Except.pure]
        rw [ih (li + 1) (some layer) _ fun k hk => hkinds k (.tail _ hk)]

theorem tableFits_start : TableFits (levelTable kinds) 0 0 kinds := by
  constructor
  · intro d hd
    rw [Nat.le_zero.1 hd]
    exact Nat.le_refl _
  · grind [levelTable]

/-- The page that `unravel` is given for what was serialized. -/
def Serialized.page (out : Serialized) : Page :=
  { rep := out.rep, hasRep := out.hasRep, defs := out.defs, hasDef := out.hasDef
    layers := out.layers, numItems := out.items.length }

theorem listTotal_stack (items : List Nat) (rows : List Slot) :
    listTotal ((kinded rows (stack layers items)).map Prod.snd) = layers.countP (·.isList) := by
  rw [← flagged_flagsOf, map_reverse, listTotal_reverse, listTotal_flagged]

theorem kinded_isItem :
    ∀ pair ∈ kinded rows layers, pair.1 ∈ layers ∧ pair.2.isItem = !pair.1.isList := by
  induction layers with
  | nil => exact forall_mem_nil _
  | cons layer outer ih =>
    intro pair hpair
    rcases mem_cons.1 hpair with rfl | hin
    · exact ⟨mem_cons_self, kindOver_isItem layer _⟩
    · exact ⟨mem_cons_of_mem _ (ih pair hin).1, (ih pair hin).2⟩

theorem stack_head (layers : List SerializeLayer) (items : List Nat) :
    ∃ outer, stack layers items = itemsOf items :: outer := by simp [stack]

/-- Without a list layer no layer of the stack is a list. -/
theorem stack_no_lists (items : List Nat) (h : layers.countP (·.isList) = 0) :
    ∀ layer ∈ stack layers items, layer.isList = false := by
  intro layer hlayer
  rw [stack, mem_reverse, mem_append, mem_singleton] at hlayer
  rcases hlayer with hin | rfl
  · grind
  · rfl

section Written

variable {levels : List (Nat × Nat)}

/-- The entries of the rows are the rows. -/
theorem entries_slot (firstRow numRows rep : Nat) :
    ((range' firstRow numRows).map (Token.entry · rep)).filterMap Token.slot =
      rowSlots firstRow numRows := by
  rw [filterMap_map, rowSlots, ← filterMap_eq_map]
  rfl

/-- The tokens of the rows have the levels their layers allow. -/
theorem rowTokens_inRange :
    ∀ t ∈ rowTokens layers items firstRow numRows, t.InRange 0 0
      (nullsAbove ((kinded (rowSlots firstRow numRows) (stack layers items)).map Prod.snd))
      (definitionLevels layers items (rowSlots firstRow numRows)) := by
  refine tokens_inRange _ _ _ 0 0 (entries_slot ..) ?_
  grind [listTotal_stack]

section

variable (h : Written layers items firstRow numRows out levels)

include h

theorem Written.level_le :
    ∀ level ∈ levels,
      level.2 ≤ definitionLevels layers items (rowSlots firstRow numRows) := by
  intro level hlevel
  rw [h.stream] at hlevel
  rcases mem_map.1 hlevel with ⟨t, ht, rfl⟩
  exact (rowTokens_inRange t ht).level_le (nullsAbove_le _)

theorem Written.rep_le :
    (∀ level ∈ levels, level.1 ≤ layers.countP (·.isList)) ∧
      ∀ level, levels.head? = some level → level.1 = layers.countP (·.isList) := by
  have hrep := tokens_rep ((range' firstRow numRows).map
    (Token.entry · (layers.countP (·.isList)))) 0 0 (layers.countP (·.isList))
    (kinded (rowSlots firstRow numRows) (stack layers items))
    (fun t ht => by rcases mem_map.1 ht with ⟨row, _, rfl⟩; rfl)
    (by rw [listTotal_stack, Nat.zero_add])
  rw [h.stream, rowTokens]
  constructor
  · grind [Token.level_fst]
  · intro level hlevel
    rw [head?_map, Option.map_eq_some_iff] at hlevel
    grind [Token.level_fst]

/-- Without lists there is one level and one item for each row. -/
theorem Written.no_lists (hno : out.hasRep = false) :
    (∀ layer ∈ stack layers items, layer.isList = false) ∧ levels.length = numRows ∧
      out.items.length = numRows := by
  have hcount : layers.countP (·.isList) = 0 := by
    have hrep := h.hasRep
    rw [hno] at hrep
    simpa using hrep.symm
  have hlists := stack_no_lists items hcount
  refine ⟨hlists, ?_, ?_⟩
  · rw [h.stream, rowTokens, length_map, tokens_length_of_no_lists, length_map, length_range']
    exact fun pair hpair => hlists pair.1 (kinded_isItem pair hpair).1
  · rw [h.items, visible_length_of_no_lists _ _ hlists, rowSlots, length_map, length_range']

end

section

variable (h : Written layers items firstRow numRows out levels)
  (hlists : layers.countP (·.isList) < 2 ^ 16)
  (hsmall : definitionLevels layers items (rowSlots firstRow numRows) + 1 < 2 ^ 16)

include h hlists hsmall

/-- The streams pass every check that comes before the layers. -/
theorem Written.checked :
    checkLevels out.page ((kinded (rowSlots firstRow numRows) (stack layers items)).map Prod.snd) =
      .ok () := by
  have hnum : numLists ((kinded (rowSlots firstRow numRows) (stack layers items)).map Prod.snd) =
      layers.countP (·.isList) := by grind [numLists, levelTableFrom_lists, listTotal_stack]
  have hmax : maxDef ((kinded (rowSlots firstRow numRows) (stack layers items)).map Prod.snd) =
      definitionLevels layers items (rowSlots firstRow numRows) := by
    grind [maxDef, levelTable, length_levelTableFrom, definitionLevels]
  simp only [checkLevels, bind_eq_ok, ensure_eq_ok, hnum, hmax, Serialized.page]
  refine ⟨(), ?_, (), ?_, (), ?_, (), ?_, (), ?_, ?_⟩
  · rw [h.hasRep, beq_self_eq_true]
  · rw [h.rep, h.defs]
    cases out.hasRep <;> cases out.hasDef <;> simp
  · cases hrep : out.hasRep with
    | true => simp
    | false =>
      rcases h.no_lists hrep with ⟨_, hlevels, hitems⟩
      rw [h.defs, hitems]
      grind
  · rw [h.defs]
    cases out.hasDef with
    | false => simp
    | true =>
      simpa using h.level_le
  · rw [h.rep]
    cases out.hasRep with
    | false => simp
    | true =>
      simpa using h.rep_le.1
  · rw [h.rep]
    cases out.hasRep with
    | false => simp
    | true =>
      simp only [if_true, Bool.true_and, head?_map]
      cases hhead : levels.head? with
      | none => rfl
      | some level =>
        rw [Option.map_some, Option.any_some, h.rep_le.2 level hhead]
        simp

/-- Past its checks `unravel` peels the layers off the levels of the tokens. -/
theorem Written.unravel_eq :
    let kinds := (kinded (rowSlots firstRow numRows) (stack layers items)).map Prod.snd
    unravel out.page = unravelFrom out.page (levelTable kinds) 0 kinds none
      (out.page.left levels 0 0) := by
  intro kinds
  have hlayers : out.page.layers = kinds.map LayerKind.code := h.kinds
  have hkinds : decodeKinds out.page.layers = .ok kinds := by
    rw [hlayers, decodeKinds_code]
  have hfirst : out.page.layers.head?.any isItemLayer = true := by
    rcases stack_head layers items with ⟨outer, houter⟩
    have hcons : kinds = (itemsOf items).kindOver (visible (rowSlots firstRow numRows) outer) ::
        (kinded (rowSlots firstRow numRows) outer).map Prod.snd := by grind [kinded]
    rw [hlayers, hcons, map_cons, head?_cons, Option.any_some, isItemLayer_code, kindOver_isItem]
    rfl
  have hdefs : (if out.page.hasDef then out.page.defs else []) =
      if out.page.hasDef then levels.map Prod.snd else [] := by
    cases hdef : out.page.hasDef with
    | false => rfl
    | true =>
      rw [if_pos rfl, if_pos rfl, show out.page.defs = _ from h.defs,
        show out.hasDef = true from hdef, if_pos rfl]
  simp only [unravel, hfirst, hkinds, show checkLevels out.page kinds = _ from
    h.checked hlists hsmall, ensure, if_true, bind, Except.bind, hdefs, Page.left]
  cases hrep : out.page.hasRep with
  | true => rw [show out.page.rep = _ from h.rep, show out.hasRep = true from hrep, if_pos rfl]
  | false =>
    -- a page without repetition levels has no list layer to read them
    refine unravelFrom_rep _ _ _ _ _ _ _ _ _ _ hrep ?_
    intro kind hkind
    rcases mem_map.1 hkind with ⟨pair, hpair, rfl⟩
    rcases kinded_isItem pair hpair with ⟨hmem, hitem⟩
    rw [hitem, (h.no_lists hrep).1 pair.1 hmem]
    rfl

end

end Written

theorem showsAll_last {outs : List UnraveledLayer} (h : ShowsAll rows layers outs)
    (hne : layers ≠ []) : outs.getLast?.map (·.length) = some rows.length := by
  induction layers generalizing outs with
  | nil => exact absurd rfl hne
  | cons layer outer ih =>
    rcases outs with _ | ⟨out, outs⟩
    · cases h
    rcases h with ⟨hshows, hrest⟩
    cases outer with
    | nil =>
      rcases outs with _ | ⟨out', outs⟩
      · rw [getLast?_singleton, Option.map_some, hshows.validity.length, length_map]
        rfl
      · cases hrest
    | cons next outer => grind

/-- Unraveling what was serialized gives back, layer by layer, exactly what the rows show, and the
    outermost layer has an entry for each row. -/
theorem unravel_serialize (threads : Nat) (layers : List SerializeLayer) (items : List Nat)
    (firstRow numRows : Nat) (out : Serialized) (hrange : firstRow + numRows < 2 ^ 64)
    (hlists : layers.countP (·.isList) < 2 ^ 16)
    (hlevels : definitionLevels layers items (rowSlots firstRow numRows) < 2 ^ 16 - 1)
    (hitems : out.items.length ≠ inferItems)
    (h : serialize threads layers items firstRow numRows = .ok out) :
    ∃ outs, unravel out.page = .ok outs ∧
      ShowsAll (rowSlots firstRow numRows) (stack layers items) outs ∧
      outs.getLast?.map (·.length) = some numRows := by
  have hsmall : definitionLevels layers items (rowSlots firstRow numRows) + 1 < 2 ^ 16 := by omega
  rcases serialize_written hrange hlists h hsmall with ⟨levels, hwritten⟩
  -- the levels of the tokens are the streams that unravel starts from
  have hmatches : List.Forall₂ (Token.Matches 0 0) (rowTokens layers items firstRow numRows)
      levels := by
    rw [hwritten.stream, forall₂_map_right_iff, forall₂_same]
    exact fun t _ => t.matches_level
  have hstart : ∀ t ∈ (range' firstRow numRows).map
      (Token.entry · (layers.countP (·.isList))), ∃ idx, t = .entry idx
        (0 + listTotal ((kinded (rowSlots firstRow numRows) (stack layers items)).map
          Prod.snd)) := by grind [listTotal_stack]
  have hnone : out.page.hasDef = false →
      levelTotal ((kinded (rowSlots firstRow numRows) (stack layers items)).map Prod.snd) = 0 ∧
        ∀ level ∈ levels, level.2 = 0 := by
    intro hno
    have hzero : definitionLevels layers items (rowSlots firstRow numRows) = 0 := by
      have hdef := hwritten.hasDef
      rw [show out.hasDef = false from hno] at hdef
      simpa using hdef.symm
    refine ⟨hzero, fun level hlevel => ?_⟩
    have hle := hwritten.level_le level hlevel
    omega
  have hcounts : out.page.hasRep = false → (∀ layer ∈ stack layers items, layer.isList = false) ∧
        out.page.numItems = (rowSlots firstRow numRows).length ∧
          out.page.numItems ≠ inferItems := by
    intro hno
    rcases hwritten.no_lists hno with ⟨hstack, _, hcount⟩
    refine ⟨hstack, ?_, hitems⟩
    rw [rowSlots, length_map, length_range']
    exact hcount
  rcases stack_head layers items with ⟨outer, houter⟩
  rcases unravelFrom_tokens out.page _ (rowSlots firstRow numRows) _ (stack layers items) 0 0 0
    none levels (entries_slot ..) hstart hmatches (tableFits_start)
    (show 0 + definitionLevels layers items (rowSlots firstRow numRows) < 2 ^ 16 by omega)
    (by rw [listTotal_stack, Nat.zero_add]; exact hlists) hnone hcounts
    hwritten.items (fun _ => by rw [houter]; rfl) with ⟨outs, hshows, hunravel⟩
  refine ⟨outs, ?_, hshows, ?_⟩
  · rw [hwritten.unravel_eq hlists hsmall]
    exact hunravel
  · rw [showsAll_last hshows (by rw [houter]; exact cons_ne_nil _ _), rowSlots,
      length_map, length_range']

/-- A struct that is null in the first row and valid in the second, over an item that is valid in
    the first and null in the second. -/
def maskedLayers : List SerializeLayer :=
  [{ isList := false, validity := some [2] }]

/-- The item under the null struct keeps its place and its value slot, and reads as null: its own
    validity is not kept. -/
theorem masked_item_reads_null :
    ∃ out outs, serialize 1 maskedLayers [1] 0 2 = .ok out ∧ out.items = [0, 1] ∧
      unravel out.page = .ok outs ∧ validAt (some [1]) 0 = true ∧
      ∃ layer, outs.head? = some layer ∧ layer.length = 2 ∧
        Lib.bitAt layer.validity 0 = false := by
  refine ⟨_, _, rfl, rfl, rfl, rfl, _, rfl, rfl, by decide⟩

/-- Lists of structs over four rows: two entries with a null one between, a null list, an empty list
    and a list of one null item. -/
def structLists : List SerializeLayer :=
  [{ isList := true, offsets := some [5, 8, 9, 9, 10], validity := some [13] },
   { isList := false, validity := some [191, 3] }]

theorem unravel_serialize_structLists :
    ∃ out outs, serialize 4 structLists [255, 1] 0 4 = .ok out ∧ unravel out.page = .ok outs ∧
      ShowsAll (rowSlots 0 4) (stack structLists [255, 1]) outs ∧
      outs.getLast?.map (·.length) = some 4 := by
  have hout : ∃ out, serialize 4 structLists [255, 1] 0 4 = .ok out ∧
      out.items.length ≠ inferItems := ⟨_, rfl, by decide⟩
  rcases hout with ⟨out, hserialize, hitems⟩
  rcases unravel_serialize 4 structLists [255, 1] 0 4 out (by decide) (by decide) (by decide)
    hitems hserialize with ⟨outs, hunravel, hshows, hlast⟩
  exact ⟨out, outs, hserialize, hunravel, hshows, hlast⟩

/-- **The number of threads does not show** in the levels, the kinds, the slots and the number of
    values, nor in the values if each one has a level that owns it. -/
theorem serialize_threads (items : List Nat) (layers : List SerializeLayer)
    (s t firstRow numRows : Nat) {a b : Serialized} (hrange : firstRow + numRows < 2 ^ 64)
    (hlists : layers.countP (·.isList) < 2 ^ 16)
    (hsmall : definitionLevels layers items (rowSlots firstRow numRows) + 1 < 2 ^ 16)
    (ha : serialize s layers items firstRow numRows = .ok a)
    (hb : serialize t layers items firstRow numRows = .ok b) :
    a.rep = b.rep ∧ a.defs = b.defs ∧ a.layers = b.layers ∧ a.isSlot = b.isSlot ∧
      a.items.length = b.items.length ∧
      (a.isSlot.count true = a.items.length → a.items = b.items) := by
  rcases serialize_written hrange hlists ha hsmall with ⟨_, wa⟩
  rcases serialize_written hrange hlists hb hsmall with ⟨_, wb⟩
  have hitems := wa.items.trans wb.items.symm
  refine ⟨by rw [wa.rep, wb.rep, wa.hasRep, wb.hasRep, wa.stream, wb.stream],
    by rw [wa.defs, wb.defs, wa.hasDef, wb.hasDef, wa.stream, wb.stream],
    wa.kinds.trans wb.kinds.symm, ?_⟩
  rcases serialize_counted hrange hlists ha with ⟨_, pa, hra, -, -, hea, rfl⟩
  rcases serialize_counted hrange hlists hb with ⟨_, pb, hrb, -, -, heb, rfl⟩
  rcases emitRows_parts hea with ⟨hpa, hsa⟩
  rcases emitRows_parts heb with ⟨hpb, hsb⟩
  rw [hra] at hpa
  rw [hrb, hpa, Except.ok.injEq] at hpb
  simp only [assemble] at hitems ⊢
  rw [hpb] at hsa ⊢
  refine ⟨rfl, hitems, fun hcount => ?_⟩
  have hlen : (pa.map Prod.snd).flatten.length ≤ (slotsOf (pb.map Prod.fst).flatten).length := by
    rw [← hcount, slotsOf]
    split
    · simp [count_eq_countP, countP_eq_length_filter, filter_map, Function.comp_def]
    · exact Nat.zero_le _
  exact (hsa.eq_of_length_le hlen).symm.trans (hsb.eq_of_length_le (hitems ▸ hlen))

/-- Where no visit of either pass fails, nothing does. -/
theorem serialize_total (threads : Nat) (hcheck : checkLayers layers firstRow numRows = .ok ())
    (hcount : ∀ row, ∃ counts, countVisit items 0 layers row = .ok counts)
    (hemit : ∀ flags row rep, ∃ pushes, emitVisit items (assignLevels layers flags).itemNull 0
      (assignLevels layers flags).layers row rep = .ok pushes) :
    ∃ out, serialize threads layers items firstRow numRows = .ok out := by
  choose count hcount using hcount
  choose emit hemit using hemit
  have hrows : ∀ rows, ∃ counts, countRows layers items rows = .ok counts := by
    intro rows
    simp only [countRows, hcount]
    exact ⟨_, foldlM_pure⟩
  choose counts hcounts using hrows
  have hpushes : ∀ flags rows rep, ∃ pushes, emitChildren (emitVisit items
      (assignLevels layers flags).itemNull 0 (assignLevels layers flags).layers)
      (listDepth layers) rows rep = .ok pushes := by
    intro flags rows
    induction rows with
    | nil => exact fun rep => ⟨[], rfl⟩
    | cons row rows ih =>
      intro rep
      rcases ih (listDepth layers) with ⟨rest, hrest⟩
      simp [emitChildren, hemit, hrest]
  choose pushes hpushes using hpushes
  simp only [serialize, emitRows, hcounts, hpushes, bind_eq_ok, pure_eq_ok]
  exact ⟨_, (), hcheck, _, mapM_ok _ (fun _ _ => rfl), _, mapM_ok _ (fun _ _ => rfl), rfl⟩

/-- Rows that four threads share out between two of them. -/
theorem serialize_threads_masked :
    partRows 4 0 16384 = [range' 0 8192, range' 8192 8192] ∧
    ∃ a b, serialize 1 maskedLayers [1] 0 16384 = .ok a ∧
      serialize 4 maskedLayers [1] 0 16384 = .ok b ∧ a.rep = b.rep ∧ a.defs = b.defs ∧
      a.layers = b.layers ∧ a.isSlot = b.isSlot ∧ a.items.length = b.items.length ∧
      (a.isSlot.count true = a.items.length → a.items = b.items) := by
  have hok : ∀ threads, ∃ out, serialize threads maskedLayers [1] 0 16384 = .ok out := by
    refine fun threads => serialize_total threads rfl (fun row => ?_) (fun flags row rep => ?_)
    · simp only [maskedLayers, countVisit, Bool.not_false, if_true]
      split
      · exact ⟨_, rfl⟩
      · exact ⟨_, rfl⟩
    · have hlayers := (assignLevels_kinds [1] maskedLayers flags).2
      rcases map_eq_singleton_iff.mp hlayers with ⟨numbered, hnumbered, hlayer⟩
      simp only [hnumbered, emitVisit, hlayer, Bool.not_false, if_true]
      split
      · exact ⟨_, rfl⟩
      · exact ⟨_, rfl⟩
  rcases hok 1 with ⟨a, ha⟩
  rcases hok 4 with ⟨b, hb⟩
  exact ⟨rfl, a, b, ha, hb, serialize_threads [1] maskedLayers 1 4 0 16384 (by decide)
    (by decide) (by decide +kernel) ha hb⟩

end RepDef

end NanoLance
