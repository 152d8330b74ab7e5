import Timeless.Codec.Column

/-!
# Lengths — how many values a decoder returns

A decoder is told how many values a column holds. Whatever bytes it is given, and whatever the
compressors make of them, it fails or returns that many values: `decodeI64_length`,
`decodeStr_length`.
-/

namespace Timeless.Codec

open Support

variable {c : Compressors} {n : Nat} {bytes : List UInt8}

theorem undelta_length (prev : Int64) (ds : List Int64) : (undelta prev ds).length = ds.length := by
  induction ds generalizing prev with
  | nil => rfl
  | cons d ds ih => rw [undelta, List.length_cons, ih, List.length_cons]

/-- As many integers as the caller expects. -/
theorem decodeI64_length {out : List Int64} (h : decodeI64 c bytes n = .ok out) :
    out.length = n := by
  have hlast : ∀ {ds : List Int64} {text : String},
      (do rejectIf (ds.length ≠ n) text; return undelta 0 ds : Except String (List Int64)) =
        .ok out → out.length = n := by
    intro ds text h
    obtain ⟨hlen, h⟩ := rejectIf_bind_eq_ok.mp h
    obtain rfl := Except.ok.inj h
    rw [undelta_length]
    exact not_not.mp hlen
  obtain ⟨⟨enc, payload⟩, -, h⟩ := of_bind h
  dsimp only at h
  split_ifs at h
  · obtain ⟨ds, -, h⟩ := of_bind h
    exact hlast h
  · obtain ⟨raw, -, h⟩ := of_bind h
    obtain ⟨-, h⟩ := rejectIf_bind_eq_ok.mp h
    exact hlast h
  · cases h

/-! ### Strings -/

theorem readTexts_length {lenWhat bytesWhat : String} {notUtf8 : Nat → String} {count i : Nat}
    {r r' : Reader} {out : List Text}
    (h : readTexts lenWhat bytesWhat notUtf8 count i r = .ok (out, r')) : out.length = count :=
  (readTexts_eq_ok h).1

/-- As many strings as the caller expects. -/
theorem decodeStr_length {out : List Text} (h : decodeStr c bytes n = .ok out) : out.length = n :=
  (decodeStr_eq_ok.mp h).2

end Timeless.Codec
