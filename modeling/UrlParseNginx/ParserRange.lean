import UrlParseNginx.FragmentEquivalence

/-!
What the parser can return, and which targets it takes for one another. Its results are
exactly the canonical paths, each with no query or with one of clean bytes. Different
spellings of the same decoded bytes lead to the same result.
-/
namespace UrlParseNginx
open Ascii PercentCoding DotSegments

/-- A query is a part of the target before any `#`. -/
theorem mem_queryOf {target query : List UInt8} (h : queryOf target = some query) :
    hash ∉ query ∧ ∀ b ∈ query, b ∈ target := by
  have hdrop : ∃ c rest, target.drop (rawPath target).length = question :: c :: rest ∧
      query = beforeHash (c :: rest) := by
    rw [queryOf] at h
    split at h
    · rename_i b c rest hdrop
      split at h
      · rename_i hb
        exact ⟨c, rest, hb ▸ hdrop, (Option.some.inj h).symm⟩
      · cases h
    · cases h
  obtain ⟨c, rest, hdrop, rfl⟩ := hdrop
  refine ⟨fun hmem => ?_, fun b hb => ?_⟩
  · simpa using List.mem_takeWhile_imp hmem
  · have hrest : b ∈ c :: rest := (List.takeWhile_prefix _).subset hb
    refine List.mem_of_mem_drop (i := (rawPath target).length) ?_
    rw [hdrop]
    exact List.mem_cons_of_mem _ hrest

/-- A target for a path and args. -/
def targetOf (path : List UInt8) (args : Option (List UInt8)) : List UInt8 :=
  match args with
  | none => encode escaped path
  | some query => encode escaped path ++ question :: (query ++ [hash])

/-- The parser returns a path and args for some target exactly when the path is canonical and
free of NUL, and the args, if any, have no `#` and no blank byte. -/
theorem parseOriginForm_returns_iff (mergeSlashes : Bool) (path : List UInt8)
    (args : Option (List UInt8)) :
    (∃ target, Accepts target mergeSlashes path args) ↔
      (path.head? = some slash ∧ nul ∉ path ∧
        (∀ segment ∈ path.splitOn slash, segment ≠ [dot] ∧ segment ≠ [dot, dot]) ∧
        (mergeSlashes = true → ¬ [slash, slash] <:+: path)) ∧
      ∀ query, args = some query → hash ∉ query ∧ ∀ b ∈ query, ¬ Blank b := by
  constructor
  · rintro ⟨target, haccepts⟩
    obtain ⟨hpath, rfl⟩ := accepts_iff.mp haccepts
    obtain ⟨hcanonical, hnul⟩ := canonical_of_normalPath hpath
    obtain ⟨hwf, _⟩ := wellFormed_of_normalPath hpath
    refine ⟨⟨hcanonical.head, hnul, hcanonical.plain, hcanonical.merged⟩, fun query hquery => ?_⟩
    obtain ⟨hhash, hmem⟩ := mem_queryOf hquery
    exact ⟨hhash, fun b hb => hwf.2 b (hmem b hb)⟩
  · rintro ⟨⟨hhead, hnul, hplain, hmerged⟩, hargs⟩
    have hpath : normalPath mergeSlashes (encode escaped path) = some path := by
      rw [normalPath_encode hhead hnul]
      exact normalize_of_canonical slash_ne_dot ⟨hhead, hplain, hmerged⟩
    obtain ⟨hq, hh⟩ := encoded_no_delimiter path
    refine ⟨targetOf path args, accepts_iff.mpr ?_⟩
    cases args with
    | none => exact ⟨hpath, (queryOf_alone hq hh).symm⟩
    | some query =>
        obtain ⟨hhash, hclear⟩ := hargs query rfl
        have hrest : ∀ b ∈ query ++ [hash], ¬ Blank b :=
          List.forall_mem_append.mpr ⟨hclear, List.forall_mem_singleton.mpr (by decide)⟩
        exact ⟨(normalPath_delimited hq hh (.inl rfl) hrest mergeSlashes).trans hpath,
          (queryOf_both hq hh hhash []).symm⟩

/-- A piece of a raw path, from its slash on, that decodes to `decoded`. -/
structure Spells (a decoded : List UInt8) : Prop where
  rooted : a.head? = some slash
  noQuestion : question ∉ a
  noHash : hash ∉ a
  clear : ∀ b ∈ a, ¬ Blank b
  decoded : decodePath a = some decoded

/-- Whole tokens decode by themselves, whatever comes after them. -/
theorem decodePath_tokens {a decoded : List UInt8} (h : decodePath a = some decoded)
    (rest : List UInt8) : decodePath (a ++ rest) = (decodePath rest).map (decoded ++ ·) := by
  obtain ⟨ts, hts, hnul, rfl⟩ := decodePath_eq_some_iff.mp h
  rw [decodePath, tokenize_append hts, decodePath]
  cases tokenize rest with
  | none => rfl
  | some ts' => by_cases hnul' : .esc nul ∈ ts' <;> simp [hnul, hnul', bytes]

theorem wellFormed_spelled {a decoded : List UInt8} (h : Spells a decoded) (rest : List UInt8) :
    WellFormed (a ++ rest) ↔ WellFormed (slash :: rest) := by
  have hne : a ≠ [] := ne_nil_of_wellFormed ⟨h.rooted, h.clear⟩
  have hslash : WellFormed [slash] := ⟨rfl, clear_of_all (by decide)⟩
  rw [wellFormed_append hne, and_iff_right ⟨h.rooted, h.clear⟩, ← List.singleton_append,
    wellFormed_append (List.cons_ne_nil _ _), and_iff_right hslash]

theorem normalPath_spelled {a decoded rest : List UInt8} (h : Spells a decoded)
    (mergeSlashes : Bool) :
    normalPath mergeSlashes (a ++ rest) =
      if WellFormed (slash :: rest) then
        (decodePath (rawPath rest)).bind fun back =>
          normalizePath slash dot mergeSlashes (decoded ++ back)
      else none := by
  have hwf := wellFormed_spelled h rest
  by_cases hrest : WellFormed (slash :: rest)
  · rw [if_pos hrest, normalPath_eq (hwf.mpr hrest), rawPath_append h.noQuestion h.noHash,
      decodePath_tokens h.decoded]
    cases decodePath (rawPath rest) <;> rfl
  · rw [if_neg hrest, normalPath, if_neg (mt hwf.mp hrest)]

/-- Two spellings of the same bytes give the same outcome before every continuation. -/
theorem spellings_sameOutcome (a a' decoded rest : List UInt8) (mergeSlashes : Bool)
    (h : Spells a decoded) (h' : Spells a' decoded) :
    SameOutcome (a ++ rest) (a' ++ rest) mergeSlashes := by
  rw [sameOutcome_iff, normalPath_spelled h, normalPath_spelled h']
  rw [queryOf_append h.noQuestion h.noHash, queryOf_append h'.noQuestion h'.noHash]

/-- `/%61` and `/a` before `%2f../b?c`. -/
theorem spellings_sameOutcome_letter :
    SameOutcome
      [slash, percent, 0x36, 0x31, percent, 0x32, 0x66, dot, dot, slash, 0x62, question, 0x63]
      [slash, 0x61, percent, 0x32, 0x66, dot, dot, slash, 0x62, question, 0x63] true :=
  spellings_sameOutcome [slash, percent, 0x36, 0x31] [slash, 0x61] [slash, 0x61]
    [percent, 0x32, 0x66, dot, dot, slash, 0x62, question, 0x63] true
    ⟨by decide, by decide, by decide, clear_of_all (by decide), by decide⟩
    ⟨by decide, by decide, by decide, clear_of_all (by decide), by decide⟩

end UrlParseNginx
