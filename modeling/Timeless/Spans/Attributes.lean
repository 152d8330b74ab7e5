import Timeless.Blocks.Entry
import Timeless.Spans.Entry
import Timeless.Support.Bloom
import Timeless.Support.Decimal

/-!
# Attributes — equality on an attribute of spans

A table names a few attribute fields by scope and JSON pointer. For each of them a block has a filter
over the texts of the scalars that its spans have there; a query for one scalar skips the blocks whose
filter does not have its text, and compares the scalars themselves in the others.

This is the model of `spans/attributes.rs`. Numbers are those of the JSON library: two kinds of
integers and binary floats, which are compared as floats are.

* `buildSpanAttributeBlooms_spec`: the filter of an index has the text of every scalar that is there;
* `eq_of_scalarEq`: equal scalars are the same, or floats that are both zero.
-/

namespace Timeless.Spans

open Support Codec

open Blocks (Json SerdeJson)

/-! ### Numbers and scalars -/

/-- A number of the JSON library; a float is given by its bits. -/
inductive JsonNumber where
  | posInt (n : UInt64)
  | negInt (n : Int64)
  | float (bits : UInt64)
  deriving DecidableEq

/-- A float without its sign. -/
def f64Magnitude (bits : UInt64) : UInt64 :=
  bits &&& 0x7fffffffffffffff

/-- Is it not a number? -/
def f64IsNan (bits : UInt64) : Bool :=
  0x7ff0000000000000 < f64Magnitude bits

/-- Either zero. -/
def f64IsZero (bits : UInt64) : Bool :=
  f64Magnitude bits == 0

/-- Equality of floats: zeros are equal, and nothing equals what is not a number. -/
def f64Eq (a b : UInt64) : Bool :=
  !f64IsNan a && !f64IsNan b && (a == b || f64IsZero a && f64IsZero b)

/-- Equality of numbers, kind by kind. -/
def JsonNumber.eq : JsonNumber → JsonNumber → Bool
  | .posInt a, .posInt b => a == b
  | .negInt a, .negInt b => a == b
  | .float a, .float b => f64Eq a b
  | _, _ => false

/-- A JSON value. -/
abbrev Value := Json JsonNumber

/-- Neither an array nor an object. -/
def isScalar : Value → Bool
  | .null | .bool _ | .number _ | .string _ => true
  | .array _ | .object _ => false

/-- Equality with a scalar. -/
def scalarEq : Value → Value → Bool
  | .null, .null => true
  | .bool a, .bool b => a == b
  | .number a, .number b => a.eq b
  | .string a, .string b => a == b
  | _, _ => false

/-! ### Pointers -/

/-- Two characters in a row become one. -/
def replacePair (a b r : Char) : Text → Text
  | x :: y :: t => if x = a ∧ y = b then r :: replacePair a b r t else x :: replacePair a b r (y :: t)
  | t => t

/-- The steps of a JSON Pointer, unescaped. -/
def pointerTokens (path : Text) : List Text :=
  (path.splitOn '/').tail.map fun token => replacePair '~' '0' '~' (replacePair '~' '1' '/' token)

/-- A position in an array, without sign and without leading zeros. -/
def parseIndex (token : Text) : Option Nat :=
  if token.isEmpty || token.any (fun ch => !ch.isDigit) ||
      (token.head? == some '0' && token.length != 1) then none
  else
    let value := decimalValue token
    if value < 2 ^ 64 then some value else none

/-- One step of a JSON Pointer. -/
def stepInto (target : Value) (token : Text) : Option Value :=
  match target with
  | .object fields => fields.lookup token
  | .array xs => (parseIndex token).bind fun i => xs[i]?
  | _ => none

/-- The value that a JSON Pointer names. -/
def pointer (root : Value) (path : Text) : Option Value :=
  if path.isEmpty then some root
  else if path.head? = some '/' then (pointerTokens path).foldlM stepInto root
  else none

/-- A `~` has to stand before `0` or `1`. -/
def checkEscapes : List UInt8 → Except String Unit
  | [] => .ok ()
  | b :: bytes =>
      if b = 126 then
        match bytes with
        | [] => .error "trace attribute JSON Pointer ends with an incomplete '~' escape"
        | next :: bytes =>
            if next = 48 ∨ next = 49 then checkEscapes bytes
            else
              let shown := Char.ofNat next.toNat
              .error s!"trace attribute JSON Pointer contains invalid escape '~{shown}'"
      else checkEscapes bytes

/-- The longest path. -/
def maxSpanAttributePathBytes : Nat := 256

/-- The paths that an index may have. -/
def validatePointer (path : Text) : Except String Unit := do
  rejectIf (path.isEmpty ∨ path.head? ≠ some '/')
    "trace attribute path must be a non-empty RFC 6901 JSON Pointer"
  let len := (utf8 path).length
  rejectIf (maxSpanAttributePathBytes < len)
    s!"trace attribute path is {len} bytes; maximum is {maxSpanAttributePathBytes}"
  checkEscapes (utf8 path)

/-! ### Indexes and filters -/

/-- Whose attributes are meant. -/
inductive SpanAttributeScope where
  | span
  | resource
  | instrumentationScope
  deriving DecidableEq

namespace SpanAttributeScope

/-- The scope in errors. -/
def name : SpanAttributeScope → String
  | .span => "span"
  | .resource => "resource"
  | .instrumentationScope => "scope"

/-- The text that a scope's attributes are in. -/
def json {D : Type} (e : SpanEntry D) : SpanAttributeScope → Text
  | .span => e.attributes
  | .resource => e.resource
  | .instrumentationScope => e.instrumentationScope

end SpanAttributeScope

/-- A field by scope and pointer. -/
structure SpanAttributeIndex where
  scope : SpanAttributeScope
  path : Text
  valid : validatePointer path = .ok ()
  deriving DecidableEq

section

variable (js : SerdeJson JsonNumber)

/-- The text of a scalar. -/
def scalarText (v : Value) : Text :=
  (js.toStr v).toOption.getD []

/-- Equality of a field with a scalar, with the scalar's text. -/
structure SpanAttributeFilter where
  index : SpanAttributeIndex
  scalar : Value
  scalarJson : Text
  isScalar_scalar : isScalar scalar = true
  scalarJson_eq : scalarJson = scalarText js scalar

variable {js}

/-- Do stored attributes have the value? -/
def SpanAttributeFilter.matchesJson (f : SpanAttributeFilter js) (encoded : Text) :
    Except String Bool := do
  let scope := f.index.scope.name
  let root ← (js.fromStr encoded).mapError fun error =>
    s!"stored {scope} attributes are invalid JSON: {error}"
  match pointer root f.index.path with
  | none => return false
  | some value => return isScalar value && scalarEq value f.scalar

/-- Does a span have the value? -/
def SpanAttributeFilter.matchesEntry {D : Type} (f : SpanAttributeFilter js) (e : SpanEntry D) :
    Except String Bool :=
  f.matchesJson (f.index.scope.json e)

end

/-! ### Filters of blocks -/

/-- The size of a filter. -/
def spanAttributeBloomBytes : Nat := 4096

/-- The bits for each value. -/
def spanAttributeBloomHashes : Nat := 4

/-- The version that filters are stored under. -/
def spanAttributeBloomVersion : Nat := 1

/-- The hash of bytes, the same in every build. -/
def stableHash (bytes : List UInt8) (seed : UInt64) : UInt64 :=
  let hash := bytes.foldl (fun hash byte => (hash ^^^ byte.toUInt64) * 0x00000100000001b3)
    (0xcbf29ce484222325 ^^^ seed)
  let hash := (hash ^^^ (hash >>> 33)) * 0xff51afd7ed558ccd
  let hash := (hash ^^^ (hash >>> 33)) * 0xc4ceb9fe1a85ec53
  hash ^^^ (hash >>> 33)

/-- The bits of a value. -/
def bloomPositions (bytes : List UInt8) : List Nat :=
  let first := stableHash bytes 0x243f6a8885a308d3
  let second := stableHash bytes 0x13198a2e03707344 ||| 1
  (List.range spanAttributeBloomHashes).map fun i =>
    let index := UInt64.ofNat i
    (first + index * second + index * index).toNat % (spanAttributeBloomBytes * 8)

/-- What is stored beside the bits. -/
def spanAttributeBloomChecksum (bits : List UInt8) : List UInt8 :=
  leBytes 8 (stableHash bits 0xd6e8feb86659fd93).toNat

/-- The values of one attribute in a block. -/
structure SpanAttributeBloom where
  index : SpanAttributeIndex
  bits : List UInt8

/-- A filter of another size is refused. -/
def validateSpanAttributeBloom (bits : List UInt8) : Except String Unit :=
  let got := bits.length
  rejectIf (got ≠ spanAttributeBloomBytes)
    s!"trace attribute bloom is {got} bytes; expected {spanAttributeBloomBytes}"

namespace SpanAttributeBloom

/-- No value. -/
def empty (index : SpanAttributeIndex) : SpanAttributeBloom :=
  ⟨index, List.replicate spanAttributeBloomBytes 0⟩

/-- One more value. -/
def insert (b : SpanAttributeBloom) (scalarJson : Text) : SpanAttributeBloom :=
  { b with bits := Bloom.insert b.bits (bloomPositions (utf8 scalarJson)) }

@[simp] theorem insert_index (b : SpanAttributeBloom) (scalarJson : Text) :
    (b.insert scalarJson).index = b.index := by
  rw [insert]

/-- `false` only if the value is not there. -/
def mightContain (b : SpanAttributeBloom) (scalarJson : Text) : Except String Bool := do
  validateSpanAttributeBloom b.bits
  return Bloom.covers b.bits (bloomPositions (utf8 scalarJson))

end SpanAttributeBloom

section Build

variable (js : SerdeJson JsonNumber) {D : Type}

/-- Attributes, which have to be an object. -/
def parseObject (encoded : Text) (scope : String) : Except String Value := do
  let value ← (js.fromStr encoded).mapError fun error =>
    s!"{scope} attributes are invalid JSON: {error}"
  match value with
  | .object fields => return .object fields
  | _ => throw s!"{scope} attributes must be a JSON object"

/-- The attributes of a scope, if an index is in it. -/
def scopeRoot (indexes : List SpanAttributeIndex) (e : SpanEntry D) (scope : SpanAttributeScope) :
    Except String (Option Value) :=
  if indexes.any fun index => index.scope = scope then
    some <$> parseObject js (scope.json e) scope.name
  else .ok none

/-- Put the scalars of a span into the filters. -/
def insertSpan (indexes : List SpanAttributeIndex) (blooms : List SpanAttributeBloom)
    (e : SpanEntry D) : Except String (List SpanAttributeBloom) := do
  let span ← scopeRoot js indexes e .span
  let resource ← scopeRoot js indexes e .resource
  let scope ← scopeRoot js indexes e .instrumentationScope
  return blooms.map fun bloom =>
    let root := match bloom.index.scope with
      | .span => span
      | .resource => resource
      | .instrumentationScope => scope
    match (root.bind fun root => pointer root bloom.index.path).filter isScalar with
    | some value => bloom.insert (scalarText js value)
    | none => bloom

/-- The filters of a block, one for each index. -/
def buildSpanAttributeBlooms (entries : List (SpanEntry D)) (indexes : List SpanAttributeIndex) :
    Except String (List SpanAttributeBloom) :=
  entries.foldlM (insertSpan js indexes) (indexes.map SpanAttributeBloom.empty)

end Build

/-! ### Equal scalars -/

theorem f64Eq_iff {a b : UInt64} :
    f64Eq a b = true ↔ (a = b ∧ f64IsNan a = false) ∨ (f64IsZero a = true ∧ f64IsZero b = true) := by
  have hzero : ∀ x, f64IsZero x = true → f64IsNan x = false := by
    intro x hx
    rw [f64IsZero, beq_iff_eq] at hx
    rw [f64IsNan, hx]
    decide
  rw [f64Eq]
  simp only [Bool.and_eq_true, Bool.not_eq_true', Bool.or_eq_true, beq_iff_eq]
  constructor
  · rintro ⟨⟨ha, -⟩, rfl | hzeros⟩
    · exact .inl ⟨rfl, ha⟩
    · exact .inr hzeros
  · rintro (⟨rfl, ha⟩ | ⟨ha, hb⟩)
    · exact ⟨⟨ha, ha⟩, .inl rfl⟩
    · exact ⟨⟨hzero a ha, hzero b hb⟩, .inr ⟨ha, hb⟩⟩

/-- A float that is zero, of either sign. -/
def isFloatZero : Value → Bool
  | .number (.float bits) => f64IsZero bits
  | _ => false

/-- **Equality of scalars.** What is equal is the same, or a float zero on both sides. -/
theorem eq_of_scalarEq {v s : Value} (h : scalarEq v s = true) :
    v = s ∨ (isFloatZero v = true ∧ isFloatZero s = true) := by
  unfold scalarEq at h
  split at h
  · exact .inl rfl
  · exact .inl (congrArg Json.bool (beq_iff_eq.mp h))
  · next a b =>
      unfold JsonNumber.eq at h
      split at h
      · exact .inl (congrArg (fun n => Json.number (JsonNumber.posInt n)) (beq_iff_eq.mp h))
      · exact .inl (congrArg (fun n => Json.number (JsonNumber.negInt n)) (beq_iff_eq.mp h))
      · rcases f64Eq_iff.mp h with ⟨rfl, -⟩ | hzeros
        · exact .inl rfl
        · exact .inr hzeros
      · cases h
  · exact .inl (congrArg Json.string (beq_iff_eq.mp h))
  · cases h

/-! ### What the filters of a block have -/

section Built

variable {js : SerdeJson JsonNumber} {D : Type}

/-- A filter of full size that has a text. -/
structure SpanAttributeBloom.Has (b : SpanAttributeBloom) (scalarJson : Text) : Prop where
  size : b.bits.length = spanAttributeBloomBytes
  covers : Bloom.covers b.bits (bloomPositions (utf8 scalarJson)) = true

variable {b : SpanAttributeBloom} {indexes : List SpanAttributeIndex}
  {entries : List (SpanEntry D)} {e : SpanEntry D}

theorem SpanAttributeBloom.Has.mightContain {t : Text} (h : b.Has t) :
    b.mightContain t = .ok true := by
  rw [SpanAttributeBloom.mightContain, validateSpanAttributeBloom, rejectIf_neg (by simp [h.size]),
    ok_bind, h.covers]
  rfl

theorem bloomPositions_lt (bytes : List UInt8) :
    ∀ p ∈ bloomPositions bytes, p / 8 < spanAttributeBloomBytes := by
  intro p hp
  obtain ⟨i, -, rfl⟩ := List.mem_map.mp hp
  refine Nat.div_lt_of_lt_mul ?_
  rw [Nat.mul_comm]
  exact Nat.mod_lt _ (by decide)

theorem SpanAttributeBloom.has_insert_self (h : b.bits.length = spanAttributeBloomBytes) (t : Text) :
    (b.insert t).Has t :=
  ⟨(Bloom.length_insert _ _).trans h,
    Bloom.covers_insert_self fun p hp => h ▸ bloomPositions_lt _ p hp⟩

theorem SpanAttributeBloom.Has.insert {t : Text} (h : b.Has t) (t' : Text) :
    (b.insert t').Has t :=
  ⟨(Bloom.length_insert _ _).trans h.size, Bloom.covers_insert h.covers _⟩

/-- The scalar that a span has at an index. -/
def scalarAt (js : SerdeJson JsonNumber) (index : SpanAttributeIndex) (e : SpanEntry D) :
    Option Value :=
  ((js.fromStr (index.scope.json e)).toOption.bind fun root => pointer root index.path).filter
    isScalar

/-- A filter of full size with the scalars that some spans have at its index. -/
structure SpanAttributeBloom.Over (js : SerdeJson JsonNumber) (b : SpanAttributeBloom)
    (entries : List (SpanEntry D)) : Prop where
  size : b.bits.length = spanAttributeBloomBytes
  has : ∀ e ∈ entries, ∀ v, scalarAt js b.index e = some v → b.Has (scalarText js v)

theorem scopeRoot_ok {index : SpanAttributeIndex} (hindex : index ∈ indexes) {root : Option Value}
    (h : scopeRoot js indexes e index.scope = .ok root) :
    root = (js.fromStr (index.scope.json e)).toOption := by
  have hany : (indexes.any fun i => i.scope = index.scope) = true :=
    List.any_eq_true.mpr ⟨index, hindex, by simp⟩
  rw [scopeRoot, if_pos hany] at h
  obtain ⟨v, hv, rfl⟩ : ∃ v, parseObject js (index.scope.json e) index.scope.name = .ok v ∧
      some v = root := by
    cases hp : parseObject js (index.scope.json e) index.scope.name with
    | error err => rw [hp] at h; cases h
    | ok v => rw [hp] at h; exact ⟨v, rfl, Except.ok.inj h⟩
  obtain ⟨value, hvalue, hv⟩ := of_bind hv
  rw [mapError_eq_ok] at hvalue
  rw [hvalue]
  cases value with
  | object fields => exact congrArg some (Except.ok.inj hv).symm
  | _ => cases hv

/-- The filter of an index after one more span. -/
def putScalar (js : SerdeJson JsonNumber) (e : SpanEntry D) (b : SpanAttributeBloom) :
    SpanAttributeBloom :=
  match scalarAt js b.index e with
  | some v => b.insert (scalarText js v)
  | none => b

theorem putScalar_index (e : SpanEntry D) (b : SpanAttributeBloom) :
    (putScalar js e b).index = b.index := by
  rw [putScalar]
  cases scalarAt js b.index e with
  | none => rfl
  | some v => exact SpanAttributeBloom.insert_index b _

theorem SpanAttributeBloom.Over.putScalar (h : b.Over js entries) (e : SpanEntry D) :
    (putScalar js e b).Over js (entries ++ [e]) := by
  rw [Spans.putScalar]
  cases hv : scalarAt js b.index e with
  | some v =>
      refine ⟨(Bloom.length_insert _ _).trans h.size, fun x hx w hw => ?_⟩
      rw [SpanAttributeBloom.insert_index] at hw
      rcases List.mem_append.mp hx with hx | hx
      · exact (h.has x hx w hw).insert _
      · obtain rfl := List.mem_singleton.mp hx
        obtain rfl := Option.some.inj (hv.symm.trans hw)
        exact SpanAttributeBloom.has_insert_self h.size _
  | none =>
      refine ⟨h.size, fun x hx w hw => ?_⟩
      rcases List.mem_append.mp hx with hx | hx
      · exact h.has x hx w hw
      · obtain rfl := List.mem_singleton.mp hx
        rw [hv] at hw
        cases hw

variable {blooms : List SpanAttributeBloom} {f : SpanAttributeFilter js}

theorem insertSpan_eq {blooms' : List SpanAttributeBloom}
    (hindexes : ∀ b ∈ blooms, b.index ∈ indexes) (h : insertSpan js indexes blooms e = .ok blooms') :
    blooms' = blooms.map (putScalar js e) := by
  obtain ⟨span, hspan, h⟩ := of_bind h
  obtain ⟨resource, hresource, h⟩ := of_bind h
  obtain ⟨scope, hscope, rfl⟩ := bind_pure_eq_ok.mp h
  refine List.map_congr_left fun b hb => ?_
  have hroot : (match b.index.scope with
      | .span => span
      | .resource => resource
      | .instrumentationScope => scope) = (js.fromStr (b.index.scope.json e)).toOption := by
    have hmem := hindexes b hb
    have hok : ∀ root, scopeRoot js indexes e b.index.scope = .ok root →
        root = (js.fromStr (b.index.scope.json e)).toOption := fun root => scopeRoot_ok hmem
    split
    · next hs => exact hok _ (hs ▸ hspan)
    · next hs => exact hok _ (hs ▸ hresource)
    · next hs => exact hok _ (hs ▸ hscope)
  rw [hroot]
  rfl

/-- **Filters of a block.** There is one for each index, and it has the text of every scalar that a
span has there. -/
theorem buildSpanAttributeBlooms_spec (h : buildSpanAttributeBlooms js entries indexes = .ok blooms) :
    blooms.map SpanAttributeBloom.index = indexes ∧ ∀ b ∈ blooms, b.Over js entries := by
  have hstep : ∀ (todo done : List (SpanEntry D)) (start : List SpanAttributeBloom),
      start.map SpanAttributeBloom.index = indexes → (∀ b ∈ start, b.Over js done) →
      todo.foldlM (insertSpan js indexes) start = .ok blooms →
      blooms.map SpanAttributeBloom.index = indexes ∧ ∀ b ∈ blooms, b.Over js (done ++ todo) := by
    intro todo
    induction todo with
    | nil =>
        intro done start hindexes hover hfold
        obtain rfl := Except.ok.inj hfold
        rw [List.append_nil]
        exact ⟨hindexes, hover⟩
    | cons e todo ih =>
        intro done start hindexes hover hfold
        rw [List.foldlM_cons] at hfold
        obtain ⟨next, hnext, hfold⟩ := of_bind hfold
        obtain rfl := insertSpan_eq
          (fun b hb => hindexes ▸ List.mem_map_of_mem hb) hnext
        have hrest := ih (done ++ [e]) _ ?_ ?_ hfold
        · rwa [List.append_assoc, List.singleton_append] at hrest
        · rw [List.map_map, ← hindexes]
          exact List.map_congr_left fun b _ => putScalar_index e b
        · intro b hb
          obtain ⟨b', hb', rfl⟩ := List.mem_map.mp hb
          exact (hover b' hb').putScalar e
  refine hstep entries [] _ ?_ ?_ h
  · rw [List.map_map]
    exact List.map_id _
  · intro b hb
    obtain ⟨index, -, rfl⟩ := List.mem_map.mp hb
    exact ⟨List.length_replicate, by simp⟩

/-- What a filter's exact comparison accepts has the scalar there, up to the sign of a zero. -/
theorem SpanAttributeFilter.scalar_of_match (h : f.matchesEntry e = .ok true) :
    ∃ v, scalarAt js f.index e = some v ∧
      (v = f.scalar ∨ (isFloatZero v = true ∧ isFloatZero f.scalar = true)) := by
  obtain ⟨root, hroot, h⟩ := of_bind h
  rw [mapError_eq_ok] at hroot
  cases hv : pointer root f.index.path with
  | none => rw [hv] at h; cases h
  | some v =>
      rw [hv] at h
      obtain ⟨hscalar, heq⟩ := Bool.and_eq_true_iff.mp (Except.ok.inj h)
      refine ⟨v, ?_, eq_of_scalarEq heq⟩
      rw [scalarAt, hroot]
      simp [Except.toOption, hv, hscalar]

/-- **No false negatives, but for zeros.** A filter that is not for a float zero is found in the
filters of every block with a match. -/
theorem SpanAttributeBloom.Over.mightContain (h : b.Over js entries) (hindex : b.index = f.index)
    (hzero : isFloatZero f.scalar = false) (he : e ∈ entries) (hmatch : f.matchesEntry e = .ok true) :
    b.mightContain f.scalarJson = .ok true := by
  obtain ⟨v, hv, rfl | ⟨-, hzeros⟩⟩ := f.scalar_of_match hmatch
  · rw [← hindex] at hv
    rw [f.scalarJson_eq]
    exact (h.has e he _ hv).mightContain
  · rw [hzero] at hzeros
    cases hzeros

end Built

end Timeless.Spans
