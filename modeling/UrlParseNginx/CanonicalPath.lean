import UrlParseNginx.PathEscape

/-!
The shape of an accepted path: it is absolute, has no NUL and no dot segment left, and,
with slashes merged, no empty segment but the last one. Encoding such a path and parsing it
again gives it back.
-/
namespace UrlParseNginx
open Ascii PercentCoding DotSegments

theorem nul_not_mem_decoded {target decoded : List UInt8} (h : WellFormed target)
    (hd : decodePath (rawPath target) = some decoded) : nul ∉ decoded := by
  obtain ⟨ts, hts, hnul, rfl⟩ := decodePath_eq_some_iff.mp hd
  intro hmem
  obtain ⟨t, ht, hbyte⟩ := List.mem_map.mp hmem
  cases t with
  | lit b =>
      have hraw : b ∈ rawPath target := mem_of_lit_mem hts ht
      have hblank : Blank b := by
        have hb : b = nul := hbyte
        rw [hb]
        decide
      exact h.2 b ((rawPath_initial target).subset hraw) hblank
  | esc b =>
      have hb : b = nul := hbyte
      exact hnul (hb ▸ ht)

theorem canonical_of_normalPath {target path : List UInt8} {mergeSlashes : Bool}
    (h : normalPath mergeSlashes target = some path) :
    Canonical slash dot mergeSlashes path ∧ nul ∉ path := by
  obtain ⟨hwf, rest, hd, hnorm⟩ := wellFormed_of_normalPath h
  have hnul := nul_not_mem_decoded hwf hd
  exact ⟨canonical_of_normalize slash_ne_dot hnorm,
    fun hmem => hnul ((normalize_sublist hnorm).subset hmem)⟩

/-- Every accepted path starts with a slash, has no NUL and no `.` or `..` segment, and has
no two adjacent slashes when slashes are merged. -/
theorem parseOriginForm_path_canonical (target : List UInt8) (mergeSlashes : Bool)
    (parsed : Parsed target) (h : parseOriginForm target mergeSlashes = .ok parsed) :
    parsed.path.bytes.head? = some slash ∧ nul ∉ parsed.path.bytes ∧
      (∀ segment ∈ parsed.path.bytes.splitOn slash,
        segment ≠ [dot] ∧ segment ≠ [dot, dot]) ∧
      (mergeSlashes = true → ¬ [slash, slash] <:+: parsed.path.bytes) := by
  obtain ⟨hcanonical, hnul⟩ := canonical_of_normalPath (normalPath_of_ok h).1
  exact ⟨hcanonical.head, hnul, hcanonical.plain, hcanonical.merged⟩

/-- `/%2e/a%2F.` becomes `/a/`. -/
theorem parseOriginForm_path_canonical_escapes :
    [slash, 0x61, slash].head? = some slash ∧ nul ∉ [slash, 0x61, slash] ∧
      (∀ segment ∈ [slash, 0x61, slash].splitOn slash,
        segment ≠ [dot] ∧ segment ≠ [dot, dot]) ∧
      ¬ [slash, slash] <:+: [slash, 0x61, slash] := by
  obtain ⟨hhead, hnul, hplain, hmerged⟩ := parseOriginForm_path_canonical
    [slash, percent, 0x32, 0x65, slash, 0x61, percent, 0x32, 0x46, dot] true
    { path := .owned [slash, 0x61, slash], args := none } (by decide)
  exact ⟨hhead, hnul, hplain, hmerged rfl⟩

/-- A canonical path is the normal path of its encoding, which has no query. -/
theorem parseOriginForm_encode {path : List UInt8} {mergeSlashes : Bool}
    (h : Canonical slash dot mergeSlashes path) (hnul : nul ∉ path) :
    ∃ parsed, parseOriginForm (encode escaped path) mergeSlashes = .ok parsed ∧
      parsed.path.bytes = path ∧ parsed.args = none := by
  have hpath : normalPath mergeSlashes (encode escaped path) = some path := by
    rw [normalPath_encode h.head hnul]
    exact normalize_of_canonical slash_ne_dot h
  obtain ⟨parsed, hok, hbytes, hargs, _⟩ := parseOriginForm_of_some hpath
  refine ⟨parsed, hok, hbytes, ?_⟩
  have hquery : queryOf (encode escaped path) = none := by
    obtain ⟨hq, hh⟩ := encoded_no_delimiter path
    rw [queryOf, rawPath_alone hq hh, List.drop_length]
  rw [hquery] at hargs
  exact Option.map_eq_none_iff.mp hargs

/-- Parsing undoes encoding on canonical paths, so that the path of an accepted target,
encoded and parsed again, comes back. -/
theorem parseOriginForm_percentEncode (crate : PercentEncoding) (hcrate : crate.Documented)
    (mergeSlashes : Bool) :
    (∀ path : List UInt8, path.head? = some slash → nul ∉ path →
      (∀ segment ∈ path.splitOn slash, segment ≠ [dot] ∧ segment ≠ [dot, dot]) →
      (mergeSlashes = true → ¬ [slash, slash] <:+: path) →
      ∃ parsed, parseOriginForm (crate.percentEncode path (PATH_ESCAPE_SET crate))
          mergeSlashes = .ok parsed ∧ parsed.path.bytes = path ∧ parsed.args = none) ∧
    (∀ target parsed, parseOriginForm target mergeSlashes = .ok parsed →
      ∃ parsed', parseOriginForm
          (crate.percentEncode parsed.path.bytes (PATH_ESCAPE_SET crate)) mergeSlashes =
            .ok parsed' ∧ parsed'.path.bytes = parsed.path.bytes) := by
  refine ⟨fun path hhead hnul hplain hmerged => ?_, fun target parsed h => ?_⟩
  · rw [percentEncode_eq hcrate]
    exact parseOriginForm_encode ⟨hhead, hplain, hmerged⟩ hnul
  · obtain ⟨hcanonical, hnul⟩ := canonical_of_normalPath (normalPath_of_ok h).1
    rw [percentEncode_eq hcrate]
    obtain ⟨parsed', hok, hbytes, _⟩ := parseOriginForm_encode hcanonical hnul
    exact ⟨parsed', hok, hbytes⟩

/-- The crate with a set given by its membership test. -/
def byteSets : PercentEncoding where
  AsciiSet := UInt8 → Bool
  CONTROLS b := b < 0x20 || b = 0x7f
  add set a b := b = a || set b
  contains set b := set b
  percentEncode s set := encode (fun b => 0x80 ≤ b || set b) s

theorem byteSets_documented : byteSets.Documented :=
  ⟨fun _ _ => rfl, fun _ _ _ _ _ => rfl, fun _ _ => rfl⟩

/-- `/a b%` is encoded as `/a%20b%25`, and `/a/..//b` is accepted with the path `/b`. -/
theorem parseOriginForm_percentEncode_byteSets :
    (∃ parsed, parseOriginForm (byteSets.percentEncode
        [slash, 0x61, space, 0x62, percent] (PATH_ESCAPE_SET byteSets)) true = .ok parsed ∧
      parsed.path.bytes = [slash, 0x61, space, 0x62, percent] ∧ parsed.args = none) ∧
    ∃ parsed, parseOriginForm (byteSets.percentEncode [slash, 0x62]
        (PATH_ESCAPE_SET byteSets)) true = .ok parsed ∧ parsed.path.bytes = [slash, 0x62] := by
  obtain ⟨hcanonical, haccepted⟩ :=
    parseOriginForm_percentEncode byteSets byteSets_documented true
  refine ⟨hcanonical _ (by decide) (by decide) (by decide) (by decide), ?_⟩
  exact haccepted [slash, 0x61, slash, dot, dot, slash, slash, 0x62]
    { path := .owned [slash, 0x62], args := none } (by decide)

end UrlParseNginx
