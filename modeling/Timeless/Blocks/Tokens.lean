import Timeless.Blocks.Template

/-!
# Tokens — what the tokenizer keeps of a message

A message is read as a sequence of items, literal characters and variables, in its own order. The
template and the variable list of `tokenize` are two projections of that sequence, and the text of
the items is the message again. Three facts about it carry everything said about templates:

* no literal character is a digit, every variable holds a digit, and a number variable nothing else
  (`sound_items`);
* a maximal digit run of the message is a number variable or a maximal run of a string variable
  (`maxRun_var`), and in whole-token mode a text of token bytes that holds a digit and something
  else lies inside one string variable (`confined_var`).
-/

namespace Timeless.Blocks

open Support Codec

/-! ### Characters and their bytes -/

theorem lead_mem (ch : Char) : lead ch ∈ String.utf8EncodeChar ch := by
  have h : String.utf8EncodeChar ch ≠ [] := String.utf8EncodeChar_ne_nil
  obtain ⟨b, bs, hb⟩ := List.exists_cons_of_ne_nil h
  simp [lead, hb]

variable {q : UInt8 → Bool} {t : Text}

/-- A property of ASCII bytes that some byte of a text has is one its character's first byte
has. -/
theorem exists_utf8_iff (hq : ∀ b, 128 ≤ b.toNat → q b = false) :
    (∃ b ∈ utf8 t, q b = true) ↔ ∃ ch ∈ t, q (lead ch) = true := by
  simp only [utf8, List.mem_flatMap]
  constructor
  · rintro ⟨b, ⟨ch, hch, hb⟩, hqb⟩
    refine ⟨ch, hch, ?_⟩
    by_cases hlow : (lead ch).toNat < 128
    · rw [utf8_ascii hlow, List.mem_singleton] at hb
      exact hb ▸ hqb
    · rw [hq b (high_of_mem_utf8EncodeChar (by omega) b hb)] at hqb
      exact absurd hqb (by simp)
  · rintro ⟨ch, hch, hqc⟩
    exact ⟨lead ch, ⟨ch, hch, lead_mem ch⟩, hqc⟩

/-- If every character of a text starts with an ASCII byte of some kind, so is every byte. -/
theorem forall_utf8_of_lead (hq : ∀ b, 128 ≤ b.toNat → q b = false)
    (ht : ∀ ch ∈ t, q (lead ch) = true) : ∀ b ∈ utf8 t, q b = true := by
  intro b hb
  obtain ⟨ch, hch, hb⟩ := List.mem_flatMap.mp hb
  have hlow : (lead ch).toNat < 128 := by
    by_contra h
    have := hq (lead ch) (by omega)
    rw [ht ch hch] at this
    exact absurd this (by simp)
  rw [utf8_ascii hlow, List.mem_singleton] at hb
  exact hb ▸ ht ch hch

theorem isAsciiDigit_high (b : UInt8) (h : 128 ≤ b.toNat) : isAsciiDigit b = false := by
  simp only [isAsciiDigit, Bool.and_eq_false_imp, decide_eq_true_eq, decide_eq_false_iff_not]
  omega

theorem isTokenByte_high (b : UInt8) (h : 128 ≤ b.toNat) : isTokenByte b = false := by
  have hd := isAsciiDigit_high b h
  have ha : isAsciiAlphabetic b = false := by
    simp only [isAsciiAlphabetic, Bool.or_eq_false_iff, Bool.and_eq_false_imp, decide_eq_true_eq,
      decide_eq_false_iff_not]
    omega
  have hp : [95, 46, 58, 45, 43, 47, 64].contains b.toNat = false := by
    simp only [List.contains_eq_mem, List.mem_cons, List.not_mem_nil, or_false,
      decide_eq_false_iff_not]
    omega
  rw [isTokenByte, hd, ha, hp]
  rfl

theorem any_digit_utf8 (t : Text) : (utf8 t).any isAsciiDigit = t.any digitChar := by
  rw [Bool.eq_iff_iff, List.any_eq_true, List.any_eq_true]
  exact exists_utf8_iff isAsciiDigit_high

/-! ### ASCII case leaves digits and tokens alone -/

/-- A byte string in lower case. -/
def low (bs : List UInt8) : List UInt8 :=
  bs.map toAsciiLowercase

@[simp] theorem low_nil : low [] = [] := rfl

@[simp] theorem low_append (a b : List UInt8) : low (a ++ b) = low a ++ low b := by
  simp [low]

@[simp] theorem length_low (a : List UInt8) : (low a).length = a.length := by
  simp [low]

@[simp] theorem low_eq_nil {a : List UInt8} : low a = [] ↔ a = [] := by
  simp [low]

theorem toNat_toAsciiLowercase (b : UInt8) : (toAsciiLowercase b).toNat =
    if 65 ≤ b.toNat ∧ b.toNat ≤ 90 then b.toNat + 32 else b.toNat := by
  unfold toAsciiLowercase
  split_ifs with h
  · rw [UInt8.toNat_add]
    have : (32 : UInt8).toNat = 32 := rfl
    omega
  · rfl

@[simp] theorem isAsciiDigit_lower (b : UInt8) :
    isAsciiDigit (toAsciiLowercase b) = isAsciiDigit b := by
  rw [Bool.eq_iff_iff]
  simp only [isAsciiDigit, toNat_toAsciiLowercase, Bool.and_eq_true, decide_eq_true_eq]
  split_ifs <;> omega

@[simp] theorem isTokenByte_lower (b : UInt8) :
    isTokenByte (toAsciiLowercase b) = isTokenByte b := by
  rw [Bool.eq_iff_iff]
  simp only [isTokenByte, isAsciiDigit, isAsciiAlphabetic, toNat_toAsciiLowercase,
    Bool.or_eq_true, Bool.and_eq_true, decide_eq_true_eq, List.contains_eq_mem, List.mem_cons,
    List.not_mem_nil, or_false]
  split_ifs <;> omega

variable {r l : List UInt8} {tok piece msg : Text}

theorem low_of_digits (h : ∀ b ∈ r, isAsciiDigit b = true) : low r = r := by
  have hb : ∀ b ∈ r, toAsciiLowercase b = b := by
    intro b hb
    have := h b hb
    simp only [isAsciiDigit, Bool.and_eq_true, decide_eq_true_eq] at this
    unfold toAsciiLowercase
    rw [if_neg (by omega)]
  rw [low, List.map_congr_left hb, List.map_id']

theorem free_low (hq : ∀ b, q (toAsciiLowercase b) = q b) (h : Free q l) :
    Free q (low l) := by
  intro b hb
  obtain ⟨a, ha, rfl⟩ := List.mem_map.mp hb
  rw [hq, h a ha]

/-! ### A message as items -/

/-- A literal character of a template, or a variable. -/
inductive Item where
  | lit (ch : Char)
  | var (v : Var)

namespace Item

/-- What an item is in the template. -/
def template : Item → Text
  | .lit ch => if ch = sentinel then [sentinel, sentinel] else [ch]
  | .var v => [sentinel, kindTag v.kind]

/-- What an item is in the message. -/
def text : Item → Text
  | .lit ch => [ch]
  | .var v => v.text

/-- What an item is in the variable list. -/
def vars : Item → List Var
  | .lit _ => []
  | .var v => [v]

end Item

/-- The items of a digit run or of another byte of a token. -/
def runItems (piece : Text) : List Item :=
  if piece.any digitChar then [.var ⟨runKind piece, piece⟩] else piece.map .lit

/-- The digit runs of a token and its other bytes one by one. -/
def runs (tok : Text) : List Text :=
  tok.splitBy fun a b => digitChar a && digitChar b

variable (splitRuns : Bool)

/-- The items of a token, by the rules of `tokenizeToken`. -/
def tokenItems (tok : Text) : List Item :=
  if !(utf8 tok).any isAsciiDigit then tok.map .lit
  else if isHexLike (utf8 tok) || (!splitRuns && !(utf8 tok).all isAsciiDigit) then
    [.var ⟨.str, tok⟩]
  else if !splitRuns then [.var ⟨runKind tok, tok⟩]
  else (runs tok).flatMap runItems

def pieceItems (piece : Text) : List Item :=
  if piece.any tokenChar then tokenItems splitRuns piece else piece.map .lit

/-- The items of a message. -/
def items (msg : Text) : List Item :=
  (pieces msg).flatMap (pieceItems splitRuns)

/-- Template and variables of a list of items, put behind what was collected. -/
def collect (acc : Text × List Var) (is : List Item) : Text × List Var :=
  (acc.1 ++ is.flatMap Item.template, acc.2 ++ is.flatMap Item.vars)

@[simp] theorem collect_nil (acc : Text × List Var) : collect acc [] = acc := by
  simp [collect]

theorem collect_append (acc : Text × List Var) (is js : List Item) :
    collect acc (is ++ js) = collect (collect acc is) js := by
  simp [collect]

theorem collect_var (acc : Text × List Var) (kind : VarKind) (text : Text) :
    collect acc [.var ⟨kind, text⟩] = pushVar acc kind text := by
  simp [collect, pushVar, Item.template, Item.vars]

/-- Literal characters are copied, as long as none is the sentinel. -/
theorem collect_lits (acc : Text × List Var) (ht : sentinel ∉ t) :
    collect acc (t.map .lit) = (acc.1 ++ t, acc.2) := by
  have htpl : (t.map Item.lit).flatMap Item.template = t := by
    induction t with
    | nil => rfl
    | cons ch t ih =>
        obtain ⟨hch, ht⟩ := not_or.mp (List.mem_cons.not.mp ht)
        simp [Item.template, Ne.symm hch, ih ht]
  have hvars : (t.map Item.lit).flatMap Item.vars = [] := by
    simp [List.flatMap_map, Item.vars]
  rw [collect, htpl, hvars, List.append_nil]

/-- A fold that collects piece by piece collects the pieces' items. -/
theorem foldl_collect {f : Text × List Var → Text → Text × List Var} {g : Text → List Item}
    {ps : List Text} (h : ∀ p ∈ ps, ∀ acc, f acc p = collect acc (g p)) (acc : Text × List Var) :
    ps.foldl f acc = collect acc (ps.flatMap g) := by
  induction ps generalizing acc with
  | nil => simp
  | cons p ps ih =>
      rw [List.foldl_cons, List.flatMap_cons, collect_append, h p List.mem_cons_self,
        ih fun q hq => h q (List.mem_cons_of_mem _ hq)]

theorem not_tokenChar_sentinel : tokenChar sentinel = false := by decide

theorem sentinel_not_mem (ht : ∀ ch ∈ t, tokenChar ch = true) : sentinel ∉ t := by
  intro h
  have := ht sentinel h
  simp [not_tokenChar_sentinel] at this

theorem mem_of_mem_runs (h : piece ∈ runs tok) : ∀ ch ∈ piece, ch ∈ tok := by
  intro ch hch
  have hflat := List.flatten_splitBy (fun a b => digitChar a && digitChar b) tok
  rw [← hflat]
  exact List.mem_flatten_of_mem h hch

theorem tokenizeRun_eq (htok : ∀ ch ∈ tok, tokenChar ch = true) (h : piece ∈ runs tok)
    (acc : Text × List Var) :
    tokenizeRun acc piece = collect acc (runItems piece) := by
  unfold tokenizeRun runItems
  split_ifs
  · exact (collect_var acc _ _).symm
  · exact (collect_lits acc (sentinel_not_mem fun ch hch => htok ch (mem_of_mem_runs h ch hch))).symm

theorem tokenizeToken_eq (acc : Text × List Var) (htok : ∀ ch ∈ tok, tokenChar ch = true) :
    tokenizeToken splitRuns acc tok = collect acc (tokenItems splitRuns tok) := by
  unfold tokenizeToken tokenItems
  split_ifs
  · exact (collect_lits acc (sentinel_not_mem htok)).symm
  · exact (collect_var acc _ _).symm
  · exact (collect_var acc _ _).symm
  · exact foldl_collect (fun piece hp acc => tokenizeRun_eq htok hp acc) acc

/-- A piece of a message: a run of token characters, or one other character. -/
theorem piece_cases (h : piece ∈ pieces msg) :
    ((∀ ch ∈ piece, tokenChar ch = true) ∧ piece.any tokenChar = true) ∨
      ∃ ch, piece = [ch] ∧ tokenChar ch = false := by
  rcases splitBy_and_cases h with hall | hone
  · obtain ⟨ch, t, rfl⟩ := List.exists_cons_of_ne_nil (List.ne_nil_of_mem_splitBy h)
    exact .inl ⟨hall, by simp [hall ch List.mem_cons_self]⟩
  · exact .inr hone

theorem tokenizePiece_eq (h : piece ∈ pieces msg) (acc : Text × List Var) :
    tokenizePiece splitRuns acc piece = collect acc (pieceItems splitRuns piece) := by
  unfold tokenizePiece pieceItems
  rcases piece_cases h with ⟨hall, hany⟩ | ⟨ch, rfl, hch⟩
  · have hne : piece ≠ [sentinel] := by
      rintro rfl
      exact sentinel_not_mem hall List.mem_cons_self
    rw [if_neg hne, if_pos hany, if_pos hany]
    exact tokenizeToken_eq splitRuns acc hall
  · have hany : ¬([ch].any tokenChar = true) := by simp [hch]
    rw [if_neg hany, if_neg hany]
    split_ifs with hs
    · obtain rfl : ch = sentinel := by simpa using hs
      simp [collect, Item.template, Item.vars]
    · exact (collect_lits acc (by simpa [eq_comm] using hs)).symm

/-- Template and variables are the projections of the message's items. -/
theorem tokenize_eq (msg : Text) (splitRuns : Bool) :
    tokenize msg splitRuns =
      ((items splitRuns msg).flatMap Item.template, (items splitRuns msg).flatMap Item.vars) := by
  have h : ∀ piece ∈ pieces msg, ∀ acc,
      tokenizePiece splitRuns acc piece = collect acc (pieceItems splitRuns piece) :=
    fun piece hp acc => tokenizePiece_eq splitRuns hp acc
  rw [tokenize, foldl_collect h]
  simp [collect, items]

/-! ### What items are -/

theorem not_digitChar {ch : Char} (h : tokenChar ch = false) : digitChar ch = false := by
  simp only [tokenChar, isTokenByte, Bool.or_eq_false_iff] at h
  exact h.1.1

theorem flatten_pieces (msg : Text) : (pieces msg).flatten = msg :=
  List.flatten_splitBy _ msg

theorem flatten_runs (tok : Text) : (runs tok).flatten = tok :=
  List.flatten_splitBy _ tok

theorem text_lits (t : Text) : (t.map Item.lit).flatMap Item.text = t := by
  simp [List.flatMap_map, Item.text]

theorem text_flatMap {g : Text → List Item} {ps : List Text}
    (h : ∀ p ∈ ps, (g p).flatMap Item.text = p) : (ps.flatMap g).flatMap Item.text = ps.flatten := by
  induction ps with
  | nil => rfl
  | cons p ps ih =>
      rw [List.flatMap_cons, List.flatMap_append, h p List.mem_cons_self,
        ih fun q hq => h q (List.mem_cons_of_mem _ hq), List.flatten_cons]

theorem text_runItems (piece : Text) : (runItems piece).flatMap Item.text = piece := by
  unfold runItems
  split_ifs
  · simp [Item.text]
  · exact text_lits piece

theorem text_tokenItems (tok : Text) :
    (tokenItems splitRuns tok).flatMap Item.text = tok := by
  unfold tokenItems
  split_ifs
  · exact text_lits tok
  · simp [Item.text]
  · simp [Item.text]
  · rw [text_flatMap fun piece _ => text_runItems piece, flatten_runs]

theorem text_items (msg : Text) :
    (items splitRuns msg).flatMap Item.text = msg := by
  unfold items
  rw [text_flatMap, flatten_pieces]
  intro piece _
  unfold pieceItems
  split_ifs
  · exact text_tokenItems splitRuns piece
  · exact text_lits piece

/-- A property of literal and variable items. -/
def Item.Sound : Item → Prop
  | .lit ch => digitChar ch = false
  | .var v => v.text.any digitChar = true ∧
      (v.kind = .num → (∀ ch ∈ v.text, digitChar ch = true) ∧ numRunOk (utf8 v.text) = true)

theorem sound_lits (ht : t.any digitChar = false) :
    ∀ i ∈ t.map Item.lit, i.Sound := by
  intro i hi
  obtain ⟨ch, hch, rfl⟩ := List.mem_map.mp hi
  rw [List.any_eq_false] at ht
  simpa [Item.Sound] using ht ch hch

/-- A run of digits as a variable, number or string. -/
theorem sound_run (hne : t.any digitChar = true) (ht : ∀ ch ∈ t, digitChar ch = true) :
    (Item.var ⟨runKind t, t⟩).Sound := by
  refine ⟨hne, fun hk => ⟨ht, ?_⟩⟩
  by_contra hnum
  simp [runKind, hnum] at hk

theorem sound_runItems (h : piece ∈ runs tok) : ∀ i ∈ runItems piece, i.Sound := by
  unfold runItems
  split_ifs with hd
  · rcases splitBy_and_cases h with hall | ⟨ch, rfl, hch⟩
    · simpa using sound_run hd hall
    · simp [hch] at hd
  · exact sound_lits (by simpa using hd)

theorem digitChar_of_all (h : (utf8 tok).all isAsciiDigit = true) :
    ∀ ch ∈ tok, digitChar ch = true := by
  intro ch hch
  refine List.all_eq_true.mp h (lead ch) ?_
  exact List.mem_flatMap.mpr ⟨ch, hch, lead_mem ch⟩

theorem sound_tokenItems (tok : Text) :
    ∀ i ∈ tokenItems splitRuns tok, i.Sound := by
  unfold tokenItems
  rw [any_digit_utf8]
  split_ifs with hd hstr hmode
  · exact sound_lits (by simpa using hd)
  · have hany : tok.any digitChar = true := by simpa using hd
    simpa [Item.Sound] using hany
  · -- whole-token mode past the string rule: nothing but digits
    have hany : tok.any digitChar = true := by simpa using hd
    have hall : (utf8 tok).all isAsciiDigit = true := by
      by_contra hall
      exact hstr (by simp [hmode, hall])
    simpa using sound_run hany (digitChar_of_all hall)
  · intro i hi
    obtain ⟨piece, hp, hi⟩ := List.mem_flatMap.mp hi
    exact sound_runItems hp i hi

/-- **Items.** No literal is a digit; every variable holds one, and a number nothing else. -/
theorem sound_items (msg : Text) : ∀ i ∈ items splitRuns msg, i.Sound := by
  intro i hi
  obtain ⟨piece, hp, hi⟩ := List.mem_flatMap.mp hi
  unfold pieceItems at hi
  rcases piece_cases hp with ⟨-, hany⟩ | ⟨ch, rfl, hch⟩
  · rw [if_pos hany] at hi
    exact sound_tokenItems splitRuns piece i hi
  · rw [if_neg (by simp [hch])] at hi
    refine sound_lits ?_ i hi
    simp [not_digitChar hch]

/-! ### Where digits and tokens lie -/

theorem utf8_flatten (L : List Text) : utf8 L.flatten = (L.map utf8).flatten := by
  induction L with
  | nil => rfl
  | cons t L ih => simp [ih]

theorem utf8_ne_nil (ht : t ≠ []) : utf8 t ≠ [] := by
  obtain ⟨ch, t, rfl⟩ := List.exists_cons_of_ne_nil ht
  simp [String.utf8EncodeChar_ne_nil]

/-- Seams between texts are seams between their bytes, for a property of ASCII bytes. -/
theorem apart_utf8 (hq : ∀ b, 128 ≤ b.toNat → q b = false) {s t : Text}
    (h : Apart (fun ch => q (lead ch)) s t) : Apart q (utf8 s) (utf8 t) := by
  rintro y hy z hz ⟨hqy, hqz⟩
  cases s using List.reverseRecOn with
  | nil => simp at hy
  | append_singleton s a =>
      cases t with
      | nil => simp at hz
      | cons b t =>
          refine h a (by simp) b (by simp) ⟨?_, ?_⟩
          · have hmem : y ∈ utf8 [a] := by
              have hne : utf8 [a] ≠ [] := utf8_ne_nil (by simp)
              rw [utf8_append, List.getLast?_append_of_ne_nil _ hne] at hy
              exact List.mem_of_mem_getLast? hy
            obtain ⟨ch, hch, hqc⟩ := (exists_utf8_iff hq).mp ⟨y, hmem, hqy⟩
            rwa [List.mem_singleton.mp hch] at hqc
          · have hmem : z ∈ utf8 [b] := by
              have hne : utf8 [b] ≠ [] := utf8_ne_nil (by simp)
              rw [← List.singleton_append, utf8_append, List.head?_append_of_ne_nil _ hne] at hz
              exact List.mem_of_mem_head? hz
            obtain ⟨ch, hch, hqc⟩ := (exists_utf8_iff hq).mp ⟨z, hmem, hqz⟩
            rwa [List.mem_singleton.mp hch] at hqc

/-- The bytes of a message's pieces never touch with token bytes. -/
theorem apart_pieces (msg : Text) : ((pieces msg).map utf8).IsChain (Apart isTokenByte) := by
  rw [List.isChain_map]
  exact (apart_splitBy_and msg).imp fun s t h => apart_utf8 isTokenByte_high h

/-- The bytes of a token's runs never touch with digits. -/
theorem apart_runs (tok : Text) : ((runs tok).map utf8).IsChain (Apart isAsciiDigit) := by
  rw [List.isChain_map]
  exact (apart_splitBy_and tok).imp fun s t h => apart_utf8 isAsciiDigit_high h

theorem isTokenByte_of_digit {b : UInt8} (h : isAsciiDigit b = true) : isTokenByte b = true := by
  simp [isTokenByte, h]

theorem any_digit_of_maxRun (hr : ∀ b ∈ r, isAsciiDigit b = true) (hne : r ≠ [])
    (h : MaxRun isAsciiDigit r l) : ∃ b ∈ l, isAsciiDigit b = true := by
  obtain ⟨a, b, rfl, -, -⟩ := h
  obtain ⟨x, r, rfl⟩ := List.exists_cons_of_ne_nil hne
  exact ⟨x, by simp, hr x List.mem_cons_self⟩

/-- What explains a maximal digit run: a number, or a string that holds it as a maximal run. -/
def ExplainsRun (r : List UInt8) (v : Var) : Prop :=
  (v.kind = .num ∧ utf8 v.text = r) ∨ (v.kind = .str ∧ MaxRun isAsciiDigit r (utf8 v.text))

/-- A variable that is the run, of either kind. -/
theorem explainsRun_self : ExplainsRun (utf8 t) ⟨runKind t, t⟩ := by
  unfold ExplainsRun
  cases runKind t with
  | num => exact .inl ⟨rfl, rfl⟩
  | str => exact .inr ⟨rfl, [], [], by simp, by simp, by simp⟩

theorem maxRun_tokenItems (hr : ∀ b ∈ r, isAsciiDigit b = true) (hne : r ≠ [])
    (h : MaxRun isAsciiDigit r (utf8 tok)) :
    ∃ v, .var v ∈ tokenItems splitRuns tok ∧ ExplainsRun r v := by
  have hany : (utf8 tok).any isAsciiDigit = true :=
    List.any_eq_true.mpr (any_digit_of_maxRun hr hne h)
  unfold tokenItems
  rw [if_neg (by simp [hany])]
  split_ifs with hstr hmode
  · exact ⟨⟨.str, tok⟩, by simp, .inr ⟨rfl, h⟩⟩
  · have hall : (utf8 tok).all isAsciiDigit = true := by
      by_contra hall
      exact hstr (by simp [hmode, hall])
    obtain rfl := maxRun_all (List.all_eq_true.mp hall) h
    exact ⟨_, by simp, explainsRun_self⟩
  · -- the run is one of the token's digit runs
    have hflat : ((runs tok).map utf8).flatten = utf8 tok := by
      rw [← utf8_flatten, flatten_runs]
    rw [← hflat] at h
    have hne' : ∀ l ∈ (runs tok).map utf8, l ≠ [] := by
      intro l hl
      obtain ⟨piece, hp, rfl⟩ := List.mem_map.mp hl
      exact utf8_ne_nil (List.ne_nil_of_mem_splitBy hp)
    obtain ⟨l, hl, hrun⟩ := maxRun_pieces hr hne hne' (apart_runs tok) h
    obtain ⟨piece, hp, rfl⟩ := List.mem_map.mp hl
    have hd : piece.any digitChar = true := by
      rw [← any_digit_utf8]
      exact List.any_eq_true.mpr (any_digit_of_maxRun hr hne hrun)
    have hall : ∀ ch ∈ piece, digitChar ch = true := by
      rcases splitBy_and_cases hp with hall | ⟨ch, rfl, hch⟩
      · exact hall
      · simp [hch] at hd
    obtain rfl := maxRun_all (forall_utf8_of_lead isAsciiDigit_high hall) hrun
    exact ⟨_, List.mem_flatMap.mpr ⟨piece, hp, by simp [runItems, hd]⟩, explainsRun_self⟩

/-- Lower case neither makes nor breaks a digit run. -/
theorem maxRun_of_low (hr : ∀ b ∈ r, isAsciiDigit b = true) (h : MaxRun isAsciiDigit r (low l)) :
    MaxRun isAsciiDigit r l := by
  obtain ⟨a, b, heq, ha, hb⟩ := h
  rw [low, List.map_eq_append_iff] at heq
  obtain ⟨a, rb, rfl, rfl, heq⟩ := heq
  obtain ⟨r', b, rfl, hr', rfl⟩ := List.map_eq_append_iff.mp heq
  have hdig : ∀ b ∈ r', isAsciiDigit b = true := by
    intro b hb
    rw [← isAsciiDigit_lower]
    exact hr _ (hr' ▸ List.mem_map_of_mem hb)
  obtain rfl : r' = r := (low_of_digits hdig).symm.trans hr'
  refine ⟨a, b, rfl, fun y hy => ?_, fun y hy => ?_⟩
  · rw [← isAsciiDigit_lower]
    exact ha _ (by rw [List.getLast?_map]; exact Option.mem_map_of_mem _ hy)
  · rw [← isAsciiDigit_lower]
    exact hb _ (by rw [List.head?_map]; exact Option.mem_map_of_mem _ hy)

/-- **Digit runs.** A maximal digit run of a message is explained by one of its variables. -/
theorem maxRun_var (hr : ∀ b ∈ r, isAsciiDigit b = true) (hne : r ≠ [])
    (h : MaxRun isAsciiDigit r (utf8 msg)) :
    ∃ v, .var v ∈ items splitRuns msg ∧ ExplainsRun r v := by
  have hflat : ((pieces msg).map utf8).flatten = utf8 msg := by
    rw [← utf8_flatten, flatten_pieces]
  rw [← hflat] at h
  have hne' : ∀ l ∈ (pieces msg).map utf8, l ≠ [] := by
    intro l hl
    obtain ⟨piece, hp, rfl⟩ := List.mem_map.mp hl
    exact utf8_ne_nil (List.ne_nil_of_mem_splitBy hp)
  have hapart : ((pieces msg).map utf8).IsChain (Apart isAsciiDigit) :=
    (apart_pieces msg).imp fun s t hst y hy z hz hd =>
      hst y hy z hz ⟨isTokenByte_of_digit hd.1, isTokenByte_of_digit hd.2⟩
  obtain ⟨l, hl, hrun⟩ := maxRun_pieces hr hne hne' hapart h
  obtain ⟨piece, hp, rfl⟩ := List.mem_map.mp hl
  have hd : piece.any digitChar = true := by
    rw [← any_digit_utf8]
    exact List.any_eq_true.mpr (any_digit_of_maxRun hr hne hrun)
  rcases piece_cases hp with ⟨-, hany⟩ | ⟨ch, rfl, hch⟩
  · obtain ⟨v, hv, hex⟩ := maxRun_tokenItems splitRuns hr hne hrun
    exact ⟨v, List.mem_flatMap.mpr ⟨piece, hp, by rwa [pieceItems, if_pos hany]⟩, hex⟩
  · simp [not_digitChar hch] at hd

theorem apart_low (hq : ∀ b, q (toAsciiLowercase b) = q b) {s t : List UInt8} (h : Apart q s t) :
    Apart q (low s) (low t) := by
  rintro y hy z hz ⟨hqy, hqz⟩
  rw [low, List.getLast?_map, Option.mem_map] at hy
  rw [low, List.head?_map, Option.mem_map] at hz
  obtain ⟨y, hy, rfl⟩ := hy
  obtain ⟨z, hz, rfl⟩ := hz
  rw [hq] at hqy hqz
  exact h y hy z hz ⟨hqy, hqz⟩

theorem low_flatten (L : List (List UInt8)) : low L.flatten = (L.map low).flatten := by
  rw [low, List.map_flatten]
  rfl

/-- A text up to case in a list whose bytes are all of a kind has only such bytes. -/
theorem forall_of_low_infix (hq : ∀ b, q (toAsciiLowercase b) = q b) {x : List UInt8}
    (hl : ∀ b ∈ l, q b = true) (h : low x <:+: low l) : ∀ b ∈ x, q b = true := by
  intro b hb
  have hmem : toAsciiLowercase b ∈ low l := h.subset (List.mem_map_of_mem hb)
  obtain ⟨a, ha, hab⟩ := List.mem_map.mp hmem
  rw [← hq b, ← hab, hq, hl a ha]

/-- **Whole tokens.** In whole-token mode a text of token bytes with a digit and something else
lies, up to case, inside a string variable. -/
theorem confined_var {x : List UInt8} (hx : tokenConfinedMixed x = true)
    (h : low x <:+: low (utf8 msg)) :
    ∃ v, .var v ∈ items false msg ∧ v.kind = .str ∧ low x <:+: low (utf8 v.text) := by
  simp only [tokenConfinedMixed, Bool.and_eq_true, List.all_eq_true, List.any_eq_true,
    Bool.not_eq_true'] at hx
  obtain ⟨⟨htok, d, hd, hdigit⟩, o, ho, hother⟩ := hx
  have hflat : (((pieces msg).map utf8).map low).flatten = low (utf8 msg) := by
    rw [← low_flatten, ← utf8_flatten, flatten_pieces]
  rw [← hflat] at h
  have hne : ∀ l ∈ ((pieces msg).map utf8).map low, l ≠ [] := by
    intro l hl
    obtain ⟨m, hm, rfl⟩ := List.mem_map.mp hl
    obtain ⟨piece, hp, rfl⟩ := List.mem_map.mp hm
    exact low_eq_nil.not.mpr (utf8_ne_nil (List.ne_nil_of_mem_splitBy hp))
  have hapart : (((pieces msg).map utf8).map low).IsChain (Apart isTokenByte) := by
    rw [List.isChain_map]
    exact (apart_pieces msg).imp fun s t hst => apart_low isTokenByte_lower hst
  have hall : ∀ b ∈ low x, isTokenByte b = true := by
    intro b hb
    obtain ⟨a, ha, rfl⟩ := List.mem_map.mp hb
    rw [isTokenByte_lower, htok a ha]
  have hx' : low x ≠ [] := low_eq_nil.not.mpr (List.ne_nil_of_mem hd)
  obtain ⟨l, hl, hin⟩ := infix_of_pieces hx' hall hne hapart h
  obtain ⟨m, hm, rfl⟩ := List.mem_map.mp hl
  obtain ⟨piece, hp, rfl⟩ := List.mem_map.mp hm
  -- the piece holds the needle's digit and its other byte
  have hdig : (utf8 piece).any isAsciiDigit = true := by
    by_contra hno
    have hfree : ∀ b ∈ utf8 piece, (!isAsciiDigit b) = true := by
      simpa [List.any_eq_true] using hno
    have := forall_of_low_infix (q := fun b => !isAsciiDigit b) (by simp) hfree hin d hd
    simp [hdigit] at this
  have hmix : ¬((utf8 piece).all isAsciiDigit = true) := by
    intro hdigits
    have := forall_of_low_infix isAsciiDigit_lower (List.all_eq_true.mp hdigits) hin o ho
    simp [hother] at this
  have hany : piece.any tokenChar = true := by
    rcases piece_cases hp with ⟨-, hany⟩ | ⟨ch, rfl, hch⟩
    · exact hany
    · rw [any_digit_utf8] at hdig
      simp [not_digitChar hch] at hdig
  refine ⟨⟨.str, piece⟩, List.mem_flatMap.mpr ⟨piece, hp, ?_⟩, rfl, hin⟩
  rw [pieceItems, if_pos hany, tokenItems, if_neg (by simp [hdig]), if_pos (by simp [hmix])]
  exact List.mem_singleton.mpr rfl

/-! ### Stretches -/

/-- Items as a stretch of literal text followed by variables, each with the stretch behind it. -/
def stretches : List Item → Text × List (Var × Text)
  | [] => ([], [])
  | .lit ch :: is => (ch :: (stretches is).1, (stretches is).2)
  | .var v :: is => ([], (v, (stretches is).1) :: (stretches is).2)

/-- All stretches of a list of items, in order. -/
def stretchTexts (is : List Item) : List Text :=
  (stretches is).1 :: (stretches is).2.map Prod.snd

theorem text_stretches (is : List Item) :
    is.flatMap Item.text = (stretches is).1 ++ (stretches is).2.flatMap fun p => p.1.text ++ p.2 := by
  induction is with
  | nil => rfl
  | cons i is ih => cases i <;> simp [stretches, Item.text, ih]

theorem mem_vars_stretches {is : List Item} {v : Var} :
    (∃ t, (v, t) ∈ (stretches is).2) ↔ .var v ∈ is := by
  induction is with
  | nil => simp [stretches]
  | cons i is ih =>
      cases i with
      | lit ch => simpa [stretches] using ih
      | var w =>
          simp only [stretches, List.mem_cons, Prod.mk.injEq, Item.var.injEq]
          constructor
          · rintro ⟨t, ⟨rfl, -⟩ | h⟩
            · exact .inl rfl
            · exact .inr (ih.mp ⟨t, h⟩)
          · rintro (rfl | h)
            · exact ⟨_, .inl ⟨rfl, rfl⟩⟩
            · obtain ⟨t, ht⟩ := ih.mpr h
              exact ⟨t, .inr ht⟩

theorem templateSegmentsFrom_lit {ch : Char} (h : ch ≠ sentinel) (seg t : Text) :
    templateSegmentsFrom seg (ch :: t) = templateSegmentsFrom (seg ++ [ch]) t := by
  cases t with
  | nil => simp [templateSegmentsFrom]
  | cons k t => rw [templateSegmentsFrom, if_neg h]

theorem templateSegmentsFrom_doubled (seg t : Text) :
    templateSegmentsFrom seg (sentinel :: sentinel :: t) =
      templateSegmentsFrom (seg ++ [sentinel]) t := by
  rw [templateSegmentsFrom, if_pos rfl, if_pos rfl]

theorem templateSegmentsFrom_var (seg t : Text) (kind : VarKind) :
    templateSegmentsFrom seg (sentinel :: kindTag kind :: t) =
      (if seg.isEmpty then [] else [seg]) ++ templateSegmentsFrom [] t := by
  have hs : kindTag kind ≠ sentinel := by cases kind <;> decide
  have hk : kindTag kind = 'd' ∨ kindTag kind = 's' := by cases kind <;> decide
  rw [templateSegmentsFrom, if_pos rfl, if_neg hs, if_pos hk]

/-- The segments of a template are the non-empty stretches of the items it came from. -/
theorem templateSegments_items (is : List Item) :
    templateSegments (is.flatMap Item.template) = (stretchTexts is).filter fun t => !t.isEmpty := by
  have h : ∀ seg, templateSegmentsFrom seg (is.flatMap Item.template) =
      ((seg ++ (stretches is).1) :: (stretches is).2.map Prod.snd).filter
        fun t => !t.isEmpty := by
    induction is with
    | nil =>
        intro seg
        cases seg <;> simp [templateSegmentsFrom, stretches]
    | cons i is ih =>
        intro seg
        rw [List.flatMap_cons]
        cases i with
        | lit ch =>
            rw [Item.template]
            split_ifs with hs
            · subst hs
              rw [List.cons_append, List.singleton_append, templateSegmentsFrom_doubled, ih]
              simp [stretches]
            · rw [List.singleton_append, templateSegmentsFrom_lit hs, ih]
              simp [stretches]
        | var v =>
            rw [Item.template, List.cons_append, List.singleton_append,
              templateSegmentsFrom_var, ih]
            cases seg <;> simp [stretches]
  simpa [templateSegments, stretchTexts] using h []

end Timeless.Blocks
