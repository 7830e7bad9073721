import UrlParseNginx.Library.DotSegmentLaws
import UrlParseNginx.Library.PercentCoding
import UrlParseNginx.Request

/-!
What a request target means. The path is what precedes the first `?` or `#`; it
is decoded in one pass, and the decoded path is normalized. A decoded `/` or `.`
counts as the raw byte would; every other decoded byte is an ordinary one.
-/
namespace UrlParseNginx
open Ascii PercentCoding DotSegments

/-- What precedes the first `?` or `#`. -/
def rawPath (s : List UInt8) : List UInt8 := s.takeWhile fun b => b ≠ question ∧ b ≠ hash

/-- Single-pass percent-decoding, which fails on a malformed escape and on `%00`. -/
def decodePath (s : List UInt8) : Option (List UInt8) :=
  (tokenize s).bind fun ts => if .esc nul ∈ ts then none else some (bytes ts)

/-- Normalize the path of `s` from the state `c` of the streaming normalizer. -/
def meaning (mergeSlashes : Bool) (c : Mode × List UInt8) (s : List UInt8) :
    Option (List UInt8) :=
  (decodePath (rawPath s)).bind fun decoded =>
    (run slash dot mergeSlashes c decoded).bind (finish slash)

theorem slash_ne_dot : slash ≠ dot := by decide

/-- The segments after the leading slash are those of the whole path but for an empty one. -/
theorem splitOn_slash (path : List UInt8) :
    (slash :: path).splitOn slash = [] :: path.splitOn slash := by
  simp [List.splitOn_cons_eq_if_modifyHead]

@[simp] theorem rawPath_nil : rawPath [] = [] := rfl

theorem rawPath_cons {b : UInt8} (h : b ≠ question ∧ b ≠ hash) (s : List UInt8) :
    rawPath (b :: s) = b :: rawPath s := by
  simp [rawPath, h]

theorem rawPath_stop {b : UInt8} (h : b = question ∨ b = hash) (s : List UInt8) :
    rawPath (b :: s) = [] := by
  cases h with
  | inl h => simp [rawPath, h]
  | inr h => simp [rawPath, h]

theorem rawPath_append {s : List UInt8} (hq : question ∉ s) (hh : hash ∉ s)
    (t : List UInt8) : rawPath (s ++ t) = s ++ rawPath t := by
  induction s with
  | nil => rfl
  | cons b s ih =>
      have hb : b ≠ question ∧ b ≠ hash :=
        ⟨fun h => hq (by simp [h]), fun h => hh (by simp [h])⟩
      rw [List.cons_append, rawPath_cons hb, ih (fun h => hq (by simp [h]))
        (fun h => hh (by simp [h])), List.cons_append]

theorem rawPath_alone {s : List UInt8} (hq : question ∉ s) (hh : hash ∉ s) : rawPath s = s := by
  simpa using rawPath_append hq hh []

theorem rawPath_initial (s : List UInt8) : rawPath s <+: s := List.takeWhile_prefix _

theorem rawPath_hex {b x : UInt8} (h : hexValue b = some x) (s : List UInt8) :
    rawPath (b :: s) = b :: rawPath s := by
  have hquestion : hexValue question = none := by decide
  have hhash : hexValue hash = none := by decide
  refine rawPath_cons ⟨?_, ?_⟩ s
  · intro hb
    rw [hb, hquestion] at h
    cases h
  · intro hb
    rw [hb, hhash] at h
    cases h

@[simp] theorem decodePath_nil : decodePath [] = some [] := by simp [decodePath, bytes]

theorem decodePath_lit {b : UInt8} (hb : b ≠ percent) (s : List UInt8) :
    decodePath (b :: s) = (decodePath s).map (b :: ·) := by
  rw [decodePath, decodePath, tokenize_lit hb]
  cases tokenize s with
  | none => rfl
  | some ts =>
      by_cases hmem : .esc nul ∈ ts
      · simp [hmem]
      · simp [hmem, bytes, Token.byte]

theorem decodePath_esc {hi lo x y : UInt8} (hx : hexValue hi = some x)
    (hy : hexValue lo = some y) (s : List UInt8) :
    decodePath (percent :: hi :: lo :: s) =
      if x * 16 + y = nul then none else (decodePath s).map ((x * 16 + y) :: ·) := by
  rw [decodePath, decodePath, tokenize_esc hx hy]
  cases tokenize s with
  | none => simp
  | some ts =>
      by_cases hv : x * 16 + y = nul
      · simp [hv]
      · by_cases hmem : .esc nul ∈ ts
        · simp [hv, hmem, Ne.symm hv]
        · simp [hv, hmem, bytes, Token.byte, Ne.symm hv]

theorem decodePath_of_tokenize {s : List UInt8} {ts : List Token} (h : tokenize s = some ts) :
    decodePath s = if .esc nul ∈ ts then none else some (bytes ts) := by
  simp [decodePath, h]

theorem decodePath_of_malformed {s : List UInt8} (h : tokenize s = none) :
    decodePath s = none := by
  simp [decodePath, h]

section
variable {mergeSlashes : Bool} {c : Mode × List UInt8}

theorem meaning_stop {s : List UInt8} (h : ∀ b, s.head? = some b → b = question ∨ b = hash) :
    meaning mergeSlashes c s = finish slash c := by
  cases s with
  | nil => simp [meaning, run_nil]
  | cons b s => simp [meaning, rawPath_stop (h b rfl), run_nil]

theorem meaning_lit {b : UInt8} (h : b ≠ percent ∧ b ≠ question ∧ b ≠ hash) (s : List UInt8) :
    meaning mergeSlashes c (b :: s) =
      (feed slash dot mergeSlashes c b).bind fun c' => meaning mergeSlashes c' s := by
  rw [meaning, rawPath_cons h.2, decodePath_lit h.1]
  cases hd : decodePath (rawPath s) with
  | none => cases feed slash dot mergeSlashes c b <;> simp [meaning, hd]
  | some decoded => cases hf : feed slash dot mergeSlashes c b <;> simp [meaning, hd, hf]

theorem meaning_esc {hi lo x y : UInt8} (hx : hexValue hi = some x) (hy : hexValue lo = some y)
    (s : List UInt8) :
    meaning mergeSlashes c (percent :: hi :: lo :: s) =
      if x * 16 + y = nul then none
      else (feed slash dot mergeSlashes c (x * 16 + y)).bind fun c' =>
        meaning mergeSlashes c' s := by
  rw [meaning, rawPath_cons (by decide), rawPath_hex hx, rawPath_hex hy, decodePath_esc hx hy]
  by_cases hv : x * 16 + y = nul
  · simp [hv]
  · simp only [hv, ite_false]
    generalize x * 16 + y = v
    cases hd : decodePath (rawPath s) with
    | none => cases feed slash dot mergeSlashes c v <;> simp [meaning, hd]
    | some decoded => cases hf : feed slash dot mergeSlashes c v <;> simp [meaning, hd, hf]

theorem meaning_bad_first {s : List UInt8}
    (h : ∀ b, s.head? = some b → hexValue b = none) :
    meaning mergeSlashes c (percent :: s) = none := by
  rw [meaning, rawPath_cons (by decide)]
  have hmalformed : tokenize (percent :: rawPath s) = none := by
    match s with
    | [] => exact tokenize_truncated (by simp)
    | b :: s =>
        by_cases hb : b = question ∨ b = hash
        · rw [rawPath_stop hb]
          exact tokenize_truncated (by simp)
        · rw [rawPath_cons (not_or.mp hb)]
          match rawPath s with
          | [] => exact tokenize_truncated (by simp)
          | lo :: rest => exact tokenize_bad (.inl (h b rfl)) rest
  rw [decodePath_of_malformed hmalformed]
  rfl

theorem meaning_bad_second {hi x : UInt8} (hx : hexValue hi = some x) {s : List UInt8}
    (h : ∀ b, s.head? = some b → hexValue b = none) :
    meaning mergeSlashes c (percent :: hi :: s) = none := by
  rw [meaning, rawPath_cons (by decide), rawPath_hex hx]
  have hmalformed : tokenize (percent :: hi :: rawPath s) = none := by
    match s with
    | [] => exact tokenize_truncated (by simp)
    | b :: s =>
        by_cases hb : b = question ∨ b = hash
        · rw [rawPath_stop hb]
          exact tokenize_truncated (by simp)
        · rw [rawPath_cons (not_or.mp hb)]
          exact tokenize_bad (.inr (h b rfl)) _
  rw [decodePath_of_malformed hmalformed]
  rfl

end
end UrlParseNginx
