import Mathlib.Data.List.Basic
import UrlParseNginx.Library.HexDigits

/-!
Escaped byte strings with an arbitrary mark in place of `%`. Escaping can be undone when the
set has the mark in it; when it has neither the mark nor a digit, escaping twice is escaping
once.
-/
namespace MarkedCoding
open PercentCoding

def encodeByte (mark : UInt8) (set : UInt8 → Bool) (b : UInt8) : List UInt8 :=
  if set b then [mark, hexDigit (b / 16), hexDigit (b % 16)] else [b]

def encode (mark : UInt8) (set : UInt8 → Bool) (s : List UInt8) : List UInt8 :=
  s.flatMap (encodeByte mark set)

/-- Read marked bytes back; a mark without two hex digits after it is an error. -/
def decode (mark : UInt8) : List UInt8 → Option (List UInt8)
  | [] => some []
  | b :: rest =>
      if b = mark then
        match rest with
        | hi :: lo :: rest =>
            match hexValue hi, hexValue lo with
            | some x, some y => (decode mark rest).map ((x * 16 + y) :: ·)
            | _, _ => none
        | _ => none
      else (decode mark rest).map (b :: ·)

section
variable {mark : UInt8} {set : UInt8 → Bool}

theorem encode_cons (b : UInt8) (s : List UInt8) :
    encode mark set (b :: s) = encodeByte mark set b ++ encode mark set s := rfl

theorem encodeByte_of_mem {b : UInt8} (h : set b = true) :
    encodeByte mark set b = [mark, hexDigit (b / 16), hexDigit (b % 16)] := if_pos h

theorem encodeByte_of_not_mem {b : UInt8} (h : set b = false) : encodeByte mark set b = [b] :=
  if_neg (by simp [h])

theorem length_encode (s : List UInt8) :
    (encode mark set s).length = s.length + 2 * s.countP set := by
  induction s with
  | nil => rfl
  | cons b s ih =>
      rw [encode_cons, List.length_append, ih, List.countP_cons, List.length_cons]
      cases hb : set b with
      | true =>
          rw [encodeByte_of_mem hb]
          simp
          omega
      | false =>
          rw [encodeByte_of_not_mem hb]
          simp
          omega

theorem length_encode_le (s : List UInt8) : (encode mark set s).length ≤ s.length * 3 := by
  have hle := List.countP_le_length (p := set) (l := s)
  rw [length_encode]
  omega

/-- An escaped string is made of the mark, hex digits and bytes outside the set. -/
theorem mem_encode {s : List UInt8} {b : UInt8} (h : b ∈ encode mark set s) :
    b = mark ∨ (∃ n < 16, b = hexDigit n) ∨ (b ∈ s ∧ set b = false) := by
  obtain ⟨a, ha, hb⟩ := List.mem_flatMap.mp h
  obtain ⟨hhi, hlo, _⟩ := split_byte a
  cases hset : set a with
  | true =>
      rw [encodeByte_of_mem hset] at hb
      simp only [List.mem_cons, List.not_mem_nil, or_false] at hb
      obtain hb | hb | hb := hb
      · exact .inl hb
      · exact .inr (.inl ⟨_, hhi, hb⟩)
      · exact .inr (.inl ⟨_, hlo, hb⟩)
  | false =>
      rw [encodeByte_of_not_mem hset] at hb
      obtain rfl := List.mem_singleton.mp hb
      exact .inr (.inr ⟨ha, hset⟩)

/-- Escaping is undone by decoding when the mark itself is escaped. -/
theorem decode_encode (hmark : set mark = true) (s : List UInt8) :
    decode mark (encode mark set s) = some s := by
  induction s with
  | nil => simp [encode, decode]
  | cons b s ih =>
      obtain ⟨hhi, hlo, hsplit⟩ := split_byte b
      rw [encode_cons]
      cases hb : set b with
      | true =>
          rw [encodeByte_of_mem hb]
          simp [decode, hexValue_hexDigit _ hhi, hexValue_hexDigit _ hlo, ih, hsplit]
      | false =>
          have hne : b ≠ mark := by
            rintro rfl
            cases hmark.symm.trans hb
          rw [encodeByte_of_not_mem hb, List.singleton_append, decode.eq_def]
          simp [hne, ih]

end
end MarkedCoding
