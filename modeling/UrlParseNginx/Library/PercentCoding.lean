import UrlParseNginx.Library.MarkedCoding

/-!
Percent-encoded byte strings. `tokenize` reads a string from left to right into
literal bytes and escapes and fails on a `%` that two hex digits do not follow;
`encode` escapes the bytes of a set.
-/
namespace PercentCoding
open Ascii

inductive Token where
  | lit (b : UInt8)
  | esc (b : UInt8)
  deriving DecidableEq

def Token.byte : Token → UInt8
  | .lit b | .esc b => b

def Token.isEsc : Token → Bool
  | .lit _ => false
  | .esc _ => true

def tokenize : List UInt8 → Option (List Token)
  | [] => some []
  | b :: rest =>
      if b = percent then
        match rest with
        | hi :: lo :: rest =>
            match hexValue hi, hexValue lo with
            | some x, some y => (tokenize rest).map (.esc (x * 16 + y) :: ·)
            | _, _ => none
        | _ => none
      else (tokenize rest).map (.lit b :: ·)

/-- The byte string that a token string stands for. -/
def bytes (ts : List Token) : List UInt8 := ts.map Token.byte

/-- The bytes of the set as escapes. -/
def encode (set : UInt8 → Bool) (s : List UInt8) : List UInt8 :=
  MarkedCoding.encode percent set s

@[simp] theorem tokenize_nil : tokenize [] = some [] := by simp [tokenize]

theorem tokenize_lit {b : UInt8} (hb : b ≠ percent) (rest : List UInt8) :
    tokenize (b :: rest) = (tokenize rest).map (.lit b :: ·) := by
  rw [tokenize.eq_def]
  simp [hb]

theorem tokenize_esc {hi lo x y : UInt8} (hx : hexValue hi = some x) (hy : hexValue lo = some y)
    (rest : List UInt8) :
    tokenize (percent :: hi :: lo :: rest) =
      (tokenize rest).map (.esc (x * 16 + y) :: ·) := by
  simp [tokenize, hx, hy]

theorem tokenize_truncated {rest : List UInt8} (h : rest.length < 2) :
    tokenize (percent :: rest) = none := by
  match rest with
  | [] | [_] => simp [tokenize]
  | _ :: _ :: _ =>
      simp only [List.length_cons] at h
      omega

theorem tokenize_bad {hi lo : UInt8} (h : hexValue hi = none ∨ hexValue lo = none)
    (rest : List UInt8) : tokenize (percent :: hi :: lo :: rest) = none := by
  cases h with
  | inl h => simp [tokenize, h]
  | inr h => cases hx : hexValue hi <;> simp [tokenize, h, hx]

/-- Reading follows the string: a literal byte, a whole escape, or no token at all. -/
theorem tokenize_induction {P : List UInt8 → Prop} (nil : P [])
    (lit : ∀ b rest, b ≠ percent → P rest → P (b :: rest))
    (esc : ∀ hi lo x y rest, hexValue hi = some x → hexValue lo = some y → P rest →
      P (percent :: hi :: lo :: rest))
    (truncated : ∀ rest, rest.length < 2 → P (percent :: rest))
    (bad : ∀ hi lo rest, hexValue hi = none ∨ hexValue lo = none →
      P (percent :: hi :: lo :: rest)) (s : List UInt8) : P s := by
  induction hn : s.length using Nat.strongRecOn generalizing s with
  | ind n ih =>
      subst hn
      match s with
      | [] => exact nil
      | b :: rest =>
          by_cases hb : b = percent
          · subst hb
            match rest with
            | [] | [_] => exact truncated _ (by simp)
            | hi :: lo :: rest =>
                cases hx : hexValue hi with
                | none => exact bad hi lo rest (.inl hx)
                | some x =>
                    cases hy : hexValue lo with
                    | none => exact bad hi lo rest (.inr hy)
                    | some y => exact esc hi lo x y rest hx hy (ih _ (by simp; omega) _ rfl)
          · exact lit b rest hb (ih _ (by simp) _ rfl)

theorem tokenize_append {s : List UInt8} {ts : List Token} (h : tokenize s = some ts)
    (rest : List UInt8) : tokenize (s ++ rest) = (tokenize rest).map (ts ++ ·) := by
  induction s using tokenize_induction generalizing ts with
  | nil =>
      obtain rfl : [] = ts := by simpa using h
      simp
  | lit b s hb ih =>
      rw [tokenize_lit hb, Option.map_eq_some_iff] at h
      obtain ⟨ts, hs, rfl⟩ := h
      rw [List.cons_append, tokenize_lit hb, ih hs, Option.map_map]
      rfl
  | esc hi lo x y s hx hy ih =>
      rw [tokenize_esc hx hy, Option.map_eq_some_iff] at h
      obtain ⟨ts, hs, rfl⟩ := h
      simp only [List.cons_append]
      rw [tokenize_esc hx hy, ih hs, Option.map_map]
      rfl
  | truncated s hs => simp [tokenize_truncated hs] at h
  | bad hi lo s hbad => simp [tokenize_bad hbad] at h

/-- A malformed string stays malformed when what follows cannot complete an escape. -/
theorem tokenize_append_none {s rest : List UInt8} (h : tokenize s = none)
    (hrest : ∀ b, rest.head? = some b → hexValue b = none) : tokenize (s ++ rest) = none := by
  induction s using tokenize_induction with
  | nil => simp at h
  | lit b s hb ih =>
      rw [tokenize_lit hb, Option.map_eq_none_iff] at h
      rw [List.cons_append, tokenize_lit hb, ih h, Option.map_none]
  | esc hi lo x y s hx hy ih =>
      rw [tokenize_esc hx hy, Option.map_eq_none_iff] at h
      simp only [List.cons_append]
      rw [tokenize_esc hx hy, ih h, Option.map_none]
  | truncated s hs =>
      match s, rest with
      | [], [] | [], [_] | [_], [] => exact tokenize_truncated (by simp)
      | [], b :: lo :: rest => exact tokenize_bad (.inl (hrest b rfl)) rest
      | [hi], b :: rest => exact tokenize_bad (.inr (hrest b rfl)) rest
      | _ :: _ :: _, _ =>
          simp only [List.length_cons] at hs
          omega
  | bad hi lo s hbad => exact tokenize_bad hbad _

theorem length_le_of_tokenize {s : List UInt8} {ts : List Token} (h : tokenize s = some ts) :
    ts.length ≤ s.length ∧ (percent ∈ s → ts.length < s.length) := by
  induction s using tokenize_induction generalizing ts with
  | nil =>
      obtain rfl : [] = ts := by simpa using h
      simp
  | lit b s hb ih =>
      rw [tokenize_lit hb, Option.map_eq_some_iff] at h
      obtain ⟨ts, hs, rfl⟩ := h
      obtain ⟨hle, hlt⟩ := ih hs
      refine ⟨by simpa using hle, fun hm => ?_⟩
      have hmem : percent ∈ s := by simpa [Ne.symm hb] using hm
      simpa using hlt hmem
  | esc hi lo x y s hx hy ih =>
      rw [tokenize_esc hx hy, Option.map_eq_some_iff] at h
      obtain ⟨ts, hs, rfl⟩ := h
      obtain ⟨hle, _⟩ := ih hs
      simp only [List.length_cons]
      omega
  | truncated s hs => simp [tokenize_truncated hs] at h
  | bad hi lo s hbad => simp [tokenize_bad hbad] at h

theorem mem_of_lit_mem {s : List UInt8} {ts : List Token} (h : tokenize s = some ts) {b : UInt8}
    (hb : .lit b ∈ ts) : b ∈ s := by
  induction s using tokenize_induction generalizing ts with
  | nil =>
      obtain rfl : [] = ts := by simpa using h
      simp at hb
  | lit c s hc ih =>
      rw [tokenize_lit hc, Option.map_eq_some_iff] at h
      obtain ⟨ts, hs, rfl⟩ := h
      simp only [List.mem_cons, Token.lit.injEq] at hb
      cases hb with
      | inl heq => simp [heq]
      | inr hm => simp [ih hs hm]
  | esc hi lo x y s hx hy ih =>
      rw [tokenize_esc hx hy, Option.map_eq_some_iff] at h
      obtain ⟨ts, hs, rfl⟩ := h
      have hm : .lit b ∈ ts := by simpa using hb
      simp [ih hs hm]
  | truncated s hs => simp [tokenize_truncated hs] at h
  | bad hi lo s hbad => simp [tokenize_bad hbad] at h

/-- A byte that no escape is made of is a literal token. -/
theorem mem_bytes_of_mem {s : List UInt8} {ts : List Token} (h : tokenize s = some ts)
    {b : UInt8} (hb : b ∈ s) (hpercent : b ≠ percent) (hhex : hexValue b = none) :
    b ∈ bytes ts := by
  induction s using tokenize_induction generalizing ts with
  | nil => simp at hb
  | lit a s ha ih =>
      rw [tokenize_lit ha, Option.map_eq_some_iff] at h
      obtain ⟨ts, hs, rfl⟩ := h
      rw [bytes, List.map_cons, List.mem_cons]
      exact (List.mem_cons.mp hb).imp_right (ih hs)
  | esc hi lo x y s hx hy ih =>
      rw [tokenize_esc hx hy, Option.map_eq_some_iff] at h
      obtain ⟨ts, hs, rfl⟩ := h
      have hhi : b ≠ hi := by
        rintro rfl
        cases hhex.symm.trans hx
      have hlo : b ≠ lo := by
        rintro rfl
        cases hhex.symm.trans hy
      have hrest : b ∈ s := by simpa [hpercent, hhi, hlo] using hb
      exact List.mem_cons_of_mem _ (ih hs hrest)
  | truncated s hs => simp [tokenize_truncated hs] at h
  | bad hi lo s hbad => simp [tokenize_bad hbad] at h

/-- The escapes of a string are where its `%` bytes are. -/
theorem any_isEsc {s : List UInt8} {ts : List Token} (h : tokenize s = some ts) :
    ts.any Token.isEsc = decide (percent ∈ s) := by
  induction s using tokenize_induction generalizing ts with
  | nil =>
      obtain rfl : [] = ts := by simpa using h
      simp
  | lit a s ha ih =>
      rw [tokenize_lit ha, Option.map_eq_some_iff] at h
      obtain ⟨ts, hs, rfl⟩ := h
      simp [Token.isEsc, ih hs, Ne.symm ha]
  | esc hi lo x y s hx hy ih =>
      rw [tokenize_esc hx hy, Option.map_eq_some_iff] at h
      obtain ⟨ts, hs, rfl⟩ := h
      simp [Token.isEsc]
  | truncated s hs => simp [tokenize_truncated hs] at h
  | bad hi lo s hbad => simp [tokenize_bad hbad] at h

/-- Encoding turns the bytes of the set into escapes and leaves the others literal. -/
theorem tokenize_encode {set : UInt8 → Bool} (hpercent : set percent = true) (s : List UInt8) :
    tokenize (encode set s) =
      some (s.map fun b => if set b then .esc b else .lit b) := by
  induction s with
  | nil => simp [encode, MarkedCoding.encode]
  | cons b s ih =>
      obtain ⟨hhi, hlo, hsplit⟩ := split_byte b
      rw [encode, MarkedCoding.encode_cons, ← encode]
      cases hb : set b with
      | true =>
          rw [MarkedCoding.encodeByte_of_mem hb]
          simp only [List.cons_append, List.nil_append]
          rw [tokenize_esc (hexValue_hexDigit _ hhi) (hexValue_hexDigit _ hlo), ih, hsplit]
          simp [hb]
      | false =>
          rw [MarkedCoding.encodeByte_of_not_mem hb, List.singleton_append]
          rw [tokenize_lit (fun h => by simp [h, hpercent] at hb), ih]
          simp [hb]

end PercentCoding
