import UrlParseNginx.CanonicalPath
import UrlParseNginx.QueryFragment

/-!
A path prefix may be replaced by the encoding of its normal form. What the parser does with
the rest depends on the prefix only through the normalized output, except that with kept
slashes an empty segment left by a last `.` or `..` is seen.
-/
namespace UrlParseNginx
open Ascii PercentCoding DotSegments

theorem hexValue_slash : hexValue slash = none := by decide

/-- The rest starts with a raw slash, so no escape crosses the boundary. -/
theorem decodePath_append (s rest : List UInt8) (hrest : ∀ b, rest.head? = some b → b = slash) :
    decodePath (s ++ rest) =
      (decodePath s).bind fun decoded => (decodePath rest).map (decoded ++ ·) := by
  cases hs : tokenize s with
  | none =>
      have hhead : ∀ b, rest.head? = some b → hexValue b = none := by
        intro b hb
        rw [hrest b hb, hexValue_slash]
      rw [decodePath_of_malformed (tokenize_append_none hs hhead), decodePath_of_malformed hs]
      rfl
  | some ts =>
      rw [decodePath, tokenize_append hs, decodePath_of_tokenize hs, decodePath]
      cases tokenize rest with
      | none => by_cases hnul : .esc nul ∈ ts <;> simp [hnul]
      | some ts' =>
          by_cases hnul : .esc nul ∈ ts
          · simp [hnul]
          · by_cases hnul' : .esc nul ∈ ts' <;> simp [hnul, hnul', bytes]

section
variable {p rest : List UInt8} (hq : question ∉ p) (hh : hash ∉ p)

theorem wellFormed_append (hne : p ≠ []) (rest : List UInt8) :
    WellFormed (p ++ rest) ↔ WellFormed p ∧ ∀ b ∈ rest, ¬ Blank b := by
  obtain ⟨b, p, rfl⟩ := List.exists_cons_of_ne_nil hne
  simp only [WellFormed, List.cons_append, List.head?_cons, List.forall_mem_cons,
    List.forall_mem_append]
  tauto

include hq hh

theorem queryOf_append (rest : List UInt8) : queryOf (p ++ rest) = queryOf rest := by
  rw [queryOf, rawPath_append hq hh, List.length_append, ← List.drop_drop, List.drop_left, queryOf]

/-- The rest of a target resumes the normalizer where the prefix has left it. -/
theorem normalPath_append (hwf : WellFormed p) (hblank : ∀ b ∈ rest, ¬ Blank b)
    (mergeSlashes : Bool) :
    normalPath mergeSlashes (p ++ slash :: rest) =
      (decodePath p).bind fun decoded => (decodePath (rawPath rest)).bind fun decoded' =>
        (((run slash dot mergeSlashes (.usual, []) decoded).bind fun c =>
          feed slash dot mergeSlashes c slash).bind fun c' =>
            run slash dot mergeSlashes c' decoded').bind (finish slash) := by
  have hne := ne_nil_of_wellFormed hwf
  have hwf' : WellFormed (p ++ slash :: rest) :=
    (wellFormed_append hne _).mpr ⟨hwf, List.forall_mem_cons.mpr ⟨by decide, hblank⟩⟩
  rw [normalPath_eq hwf', rawPath_append hq hh, rawPath_cons (by decide),
    decodePath_append _ _ (by simp [eq_comm]), decodePath_lit (by decide)]
  cases decodePath p with
  | none => rfl
  | some decoded =>
      cases decodePath (rawPath rest) with
      | none => rfl
      | some decoded' =>
          simp only [Option.bind_some, Option.map_some, normalizePath, run_append, run_cons]
          cases run slash dot mergeSlashes (.usual, []) decoded <;> rfl

end

/-- The state after a prefix and a slash, if the prefix is accepted so far. -/
theorem feed_after_prefix {decoded : List UInt8} {mergeSlashes : Bool}
    (hnorm : normalizePath slash dot mergeSlashes (slash :: decoded) = none) :
    ((run slash dot mergeSlashes (.usual, []) (slash :: decoded)).bind fun c =>
      feed slash dot mergeSlashes c slash) = none := by
  cases hrun : run slash dot mergeSlashes (.usual, []) (slash :: decoded) with
  | none => rfl
  | some c =>
      rw [normalizePath, hrun] at hnorm
      exact (feed_sep_normalized slash_ne_dot hrun).1 hnorm

/-- A normalized prefix leads to the same state as the prefix it comes from. -/
theorem feed_after_normalized {decoded path : List UInt8} {mergeSlashes : Bool}
    (hnorm : normalizePath slash dot mergeSlashes (slash :: decoded) = some path)
    (hlast : mergeSlashes = true ∨ (decoded.splitOn slash).getLastD [] ≠ [dot] ∧
      (decoded.splitOn slash).getLastD [] ≠ [dot, dot]) :
    ((run slash dot mergeSlashes (.usual, []) path).bind fun c =>
        feed slash dot mergeSlashes c slash) =
      (run slash dot mergeSlashes (.usual, []) (slash :: decoded)).bind fun c =>
        feed slash dot mergeSlashes c slash := by
  rw [normalizePath, Option.bind_eq_some_iff] at hnorm
  obtain ⟨c, hrun, hfin⟩ := hnorm
  obtain ⟨c', hrun', hfeed⟩ := (feed_sep_normalized slash_ne_dot hrun).2 path hfin hlast
  rw [hrun, hrun', Option.bind_some, Option.bind_some, hfeed]

theorem normalPath_append_none {p rest : List UInt8} {mergeSlashes : Bool} (hne : p ≠ [])
    (hq : question ∉ p) (hh : hash ∉ p) (h : normalPath mergeSlashes p = none) :
    normalPath mergeSlashes (p ++ slash :: rest) = none := by
  by_cases hwf : WellFormed p ∧ ∀ b ∈ rest, ¬ Blank b
  · obtain ⟨hwf, hblank⟩ := hwf
    rw [normalPath_append hq hh hwf hblank]
    rw [normalPath_eq hwf, rawPath_alone hq hh] at h
    cases hd : decodePath p with
    | none => rfl
    | some decoded =>
        obtain ⟨decoded, rfl⟩ := decodePath_slash hwf (by rw [rawPath_alone hq hh]; exact hd)
        rw [hd, Option.bind_some] at h
        rw [Option.bind_some, feed_after_prefix h]
        cases decodePath (rawPath rest) <;> rfl
  · rw [normalPath, if_neg]
    intro hwf'
    obtain ⟨hp, hslash⟩ := (wellFormed_append hne _).mp hwf'
    exact hwf ⟨hp, (List.forall_mem_cons.mp hslash).2⟩

theorem normalPath_replace {p rest path : List UInt8} {mergeSlashes : Bool}
    (hq : question ∉ p) (hh : hash ∉ p) (h : normalPath mergeSlashes p = some path)
    (hlast : mergeSlashes = true ∨ ∃ decoded, decodePath p = some decoded ∧
      (decoded.splitOn slash).getLastD [] ≠ [dot] ∧
      (decoded.splitOn slash).getLastD [] ≠ [dot, dot]) :
    normalPath mergeSlashes (encode escaped path ++ slash :: rest) =
      normalPath mergeSlashes (p ++ slash :: rest) := by
  obtain ⟨hcanonical, hnul⟩ := canonical_of_normalPath h
  obtain ⟨hq', hh'⟩ := encoded_no_delimiter path
  obtain ⟨hwf, decoded, hd, hnorm⟩ := wellFormed_of_normalPath h
  have hwf' : WellFormed (encode escaped path) := wellFormed_encode hcanonical.head
  rw [rawPath_alone hq hh] at hd
  have hsegments : mergeSlashes = true ∨ (decoded.splitOn slash).getLastD [] ≠ [dot] ∧
      (decoded.splitOn slash).getLastD [] ≠ [dot, dot] := by
    refine hlast.imp_right fun ⟨decoded', hd', hplain⟩ => ?_
    obtain rfl := Option.some.inj (hd.symm.trans hd')
    rwa [splitOn_slash, List.getLastD_cons] at hplain
  by_cases hblank : ∀ b ∈ rest, ¬ Blank b
  · rw [normalPath_append hq' hh' hwf' hblank, normalPath_append hq hh hwf hblank,
      decodePath_encode hnul, hd, Option.bind_some, Option.bind_some,
      feed_after_normalized hnorm hsegments]
  · have hslash : ¬ ∀ b ∈ slash :: rest, ¬ Blank b :=
      fun hall => hblank (List.forall_mem_cons.mp hall).2
    rw [normalPath, normalPath, if_neg, if_neg]
    · exact fun hall => hslash ((wellFormed_append (ne_nil_of_wellFormed hwf) _).mp hall).2
    · exact fun hall => hslash ((wellFormed_append (ne_nil_of_wellFormed hwf') _).mp hall).2

/-- A rejected prefix rejects every target that continues it with a slash. An accepted one
may be replaced by the encoding of its path: both targets are rejected, or both are accepted
with the same path and args. With slashes kept this needs a last segment of the decoded
prefix that is neither `.` nor `..`. -/
theorem parseOriginForm_replace_prefix (crate : PercentEncoding) (hcrate : crate.Documented)
    (p s : List UInt8) (mergeSlashes : Bool) (hne : p ≠ []) (hq : question ∉ p)
    (hh : hash ∉ p) (hs : s.head? = some slash) :
    (Rejects p mergeSlashes → Rejects (p ++ s) mergeSlashes) ∧
    ∀ path args, Accepts p mergeSlashes path args →
      (mergeSlashes = true ∨ ∃ ts, tokenize p = some ts ∧
        ((bytes ts).splitOn slash).getLast? ≠ some [dot] ∧
        ((bytes ts).splitOn slash).getLast? ≠ some [dot, dot]) →
      (Rejects (p ++ s) mergeSlashes ∧
        Rejects (crate.percentEncode path (PATH_ESCAPE_SET crate) ++ s) mergeSlashes) ∨
      ∃ path' args', Accepts (p ++ s) mergeSlashes path' args' ∧
        Accepts (crate.percentEncode path (PATH_ESCAPE_SET crate) ++ s) mergeSlashes path'
          args' := by
  obtain ⟨rest, rfl⟩ : ∃ rest, s = slash :: rest := by
    cases s with
    | nil => simp at hs
    | cons b rest => exact ⟨rest, by rw [Option.some.inj hs]⟩
  refine ⟨fun h => rejects_iff.mpr (normalPath_append_none hne hq hh (rejects_iff.mp h)), ?_⟩
  intro path args haccepts hlast
  obtain ⟨hpath, _⟩ := accepts_iff.mp haccepts
  obtain ⟨hq', hh'⟩ := encoded_no_delimiter path
  have hreplace : normalPath mergeSlashes (encode escaped path ++ slash :: rest) =
      normalPath mergeSlashes (p ++ slash :: rest) := by
    refine normalPath_replace hq hh hpath (hlast.imp_right fun ⟨ts, hts, hdot, hdd⟩ => ?_)
    obtain ⟨_, decoded, hd, _⟩ := wellFormed_of_normalPath hpath
    rw [rawPath_alone hq hh] at hd
    obtain ⟨ts', hts', _, hbytes⟩ := decodePath_eq_some_iff.mp hd
    obtain rfl := Option.some.inj (hts.symm.trans hts')
    have hsplit := List.getLast?_eq_some_getLast (List.splitOn_ne_nil slash (bytes ts))
    rw [hsplit] at hdot hdd
    refine ⟨bytes ts, hbytes ▸ hd, ?_⟩
    rw [List.getLastD_eq_getLast?, hsplit]
    exact ⟨fun h => hdot (congrArg some h), fun h => hdd (congrArg some h)⟩
  simp only [percentEncode_eq hcrate, rejects_iff, accepts_iff, hreplace, queryOf_append hq hh,
    queryOf_append hq' hh']
  cases normalPath mergeSlashes (p ++ slash :: rest) with
  | none => exact .inl ⟨rfl, rfl⟩
  | some path' => exact .inr ⟨path', _, ⟨rfl, rfl⟩, rfl, rfl⟩

/-- `/a//b%20` becomes `/a/b `; followed by `/../c` it may be replaced by `/a/b%20`. -/
theorem parseOriginForm_replace_prefix_space :
    ∃ path args,
      Accepts [slash, 0x61, slash, slash, 0x62, percent, 0x32, 0x30, slash, dot, dot, slash, 0x63]
        true path args ∧
      Accepts (byteSets.percentEncode [slash, 0x61, slash, 0x62, space]
        (PATH_ESCAPE_SET byteSets) ++ [slash, dot, dot, slash, 0x63]) true path args := by
  have h := parseOriginForm_replace_prefix byteSets byteSets_documented
    [slash, 0x61, slash, slash, 0x62, percent, 0x32, 0x30] [slash, dot, dot, slash, 0x63] true
    (by decide) (by decide) (by decide) rfl
  have haccepts : Accepts [slash, 0x61, slash, slash, 0x62, percent, 0x32, 0x30] true
      [slash, 0x61, slash, 0x62, space] none :=
    ⟨{ path := .owned [slash, 0x61, slash, 0x62, space], args := none }, by decide, rfl, rfl⟩
  have hok : ¬ Rejects ([slash, 0x61, slash, slash, 0x62, percent, 0x32, 0x30] ++
      [slash, dot, dot, slash, 0x63]) true := by decide
  exact (h.2 _ _ haccepts (.inl rfl)).resolve_left fun hrejects => hok hrejects.1

end UrlParseNginx
