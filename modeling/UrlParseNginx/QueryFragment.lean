import UrlParseNginx.OriginFormMeaning

/-!
The query and the fragment do not touch the path: a path by itself, with a query, with a
fragment and with both is accepted or rejected alike and normalized alike, although the
four targets go through different branches of the parser.
-/
namespace UrlParseNginx
open Ascii PercentCoding DotSegments

section
variable {path rest : List UInt8} {d : UInt8}

theorem rawPath_delimited (hq : question ∉ path) (hh : hash ∉ path)
    (hd : d = question ∨ d = hash) : rawPath (path ++ d :: rest) = path := by
  rw [rawPath_append hq hh, rawPath_stop hd, List.append_nil]

/-- What follows the path matters only by its blank bytes. -/
theorem wellFormed_delimited (hd : d = question ∨ d = hash) :
    WellFormed (path ++ d :: rest) ↔ WellFormed path ∧ ∀ b ∈ rest, ¬ Blank b := by
  have hdelim : d ≠ slash ∧ ¬ Blank d := by
    obtain rfl | rfl := hd <;> decide
  cases path with
  | nil => simp [WellFormed, hdelim.1]
  | cons b path =>
      simp only [WellFormed, List.cons_append, List.head?_cons, List.forall_mem_cons,
        List.forall_mem_append]
      tauto

theorem normalPath_delimited (hq : question ∉ path) (hh : hash ∉ path)
    (hd : d = question ∨ d = hash) (hrest : ∀ b ∈ rest, ¬ Blank b) (mergeSlashes : Bool) :
    normalPath mergeSlashes (path ++ d :: rest) = normalPath mergeSlashes path := by
  have hwf : WellFormed (path ++ d :: rest) ↔ WellFormed path := by
    rw [wellFormed_delimited hd, and_iff_left hrest]
  rw [normalPath, normalPath, if_congr hwf rfl rfl, meaning, meaning,
    rawPath_delimited hq hh hd, rawPath_alone hq hh]

theorem normalPath_blank (hd : d = question ∨ d = hash) (hrest : ∃ b ∈ rest, Blank b)
    (mergeSlashes : Bool) : normalPath mergeSlashes (path ++ d :: rest) = none := by
  rw [normalPath, if_neg]
  intro h
  obtain ⟨b, hmem, hblank⟩ := hrest
  exact ((wellFormed_delimited hd).mp h).2 b hmem hblank

end

section
variable {path query : List UInt8} (hq : question ∉ path) (hh : hash ∉ path)
include hq hh

theorem queryOf_alone : queryOf path = none := by
  rw [queryOf, rawPath_alone hq hh, List.drop_length]

theorem queryOf_fragment (fragment : List UInt8) : queryOf (path ++ hash :: fragment) = none := by
  rw [queryOf, rawPath_delimited hq hh (.inr rfl), List.drop_left]
  cases fragment <;> simp +decide

theorem queryOf_end (hquery : hash ∉ query) :
    queryOf (path ++ question :: query) = if query = [] then none else some query := by
  rw [queryOf, rawPath_delimited hq hh (.inl rfl), List.drop_left]
  cases query with
  | nil => rfl
  | cons b rest => simp [beforeHash_of_not_mem hquery]

theorem queryOf_both (hquery : hash ∉ query) (fragment : List UInt8) :
    queryOf (path ++ question :: (query ++ hash :: fragment)) = some query := by
  have hbefore : beforeHash (query ++ hash :: fragment) = query := by
    rw [beforeHash, List.takeWhile_append_of_pos]
    · simp
    · intro b hb
      simpa using fun h : b = hash => hquery (h ▸ hb)
  rw [queryOf, rawPath_delimited hq hh (.inl rfl), List.drop_left]
  cases query with
  | nil => simp [beforeHash]
  | cons b rest => simpa using hbefore

end

/-- A path alone, with a query, with a fragment and with both: the four targets are rejected
together, or accepted with the same path and with the query of each. A blank byte in the
query or in the fragment rejects every target that holds it. -/
theorem parseOriginForm_query_fragment (path query fragment : List UInt8) (mergeSlashes : Bool)
    (hq : question ∉ path) (hh : hash ∉ path) (hquery : hash ∉ query) :
    ((∀ b ∈ query ++ fragment, ¬ (b ≤ space ∨ b = delete)) →
      (Rejects path mergeSlashes ∧
        Rejects (path ++ question :: query) mergeSlashes ∧
        Rejects (path ++ hash :: fragment) mergeSlashes ∧
        Rejects (path ++ question :: (query ++ hash :: fragment)) mergeSlashes) ∨
      ∃ normal,
        Accepts path mergeSlashes normal none ∧
        Accepts (path ++ question :: query) mergeSlashes normal
          (if query = [] then none else some query) ∧
        Accepts (path ++ hash :: fragment) mergeSlashes normal none ∧
        Accepts (path ++ question :: (query ++ hash :: fragment)) mergeSlashes normal
          (some query)) ∧
    ((∃ b ∈ query, b ≤ space ∨ b = delete) →
      Rejects (path ++ question :: query) mergeSlashes ∧
      Rejects (path ++ question :: (query ++ hash :: fragment)) mergeSlashes) ∧
    ((∃ b ∈ fragment, b ≤ space ∨ b = delete) →
      Rejects (path ++ hash :: fragment) mergeSlashes ∧
      Rejects (path ++ question :: (query ++ hash :: fragment)) mergeSlashes) := by
  refine ⟨fun hclean => ?_, fun hblank => ?_, fun hblank => ?_⟩
  · obtain ⟨hcleanQuery, hcleanFragment⟩ := List.forall_mem_append.mp hclean
    have hcleanBoth : ∀ b ∈ query ++ hash :: fragment, ¬ Blank b :=
      List.forall_mem_append.mpr
        ⟨hcleanQuery, List.forall_mem_cons.mpr ⟨by decide, hcleanFragment⟩⟩
    have hend := normalPath_delimited hq hh (.inl rfl) hcleanQuery mergeSlashes
    have hfragment := normalPath_delimited hq hh (.inr rfl) hcleanFragment mergeSlashes
    have hboth := normalPath_delimited hq hh (.inl rfl) hcleanBoth mergeSlashes
    simp only [rejects_iff, accepts_iff, hend, hfragment, hboth, queryOf_alone hq hh,
      queryOf_end hq hh hquery, queryOf_fragment hq hh, queryOf_both hq hh hquery, and_true]
    cases hpath : normalPath mergeSlashes path with
    | none => exact .inl ⟨rfl, rfl, rfl, rfl⟩
    | some normal => exact .inr ⟨normal, rfl, rfl, rfl, rfl⟩
  · obtain ⟨b, hmem, hb⟩ := hblank
    simp only [rejects_iff]
    exact ⟨normalPath_blank (.inl rfl) ⟨b, hmem, hb⟩ mergeSlashes,
      normalPath_blank (.inl rfl) ⟨b, by simp [hmem], hb⟩ mergeSlashes⟩
  · obtain ⟨b, hmem, hb⟩ := hblank
    simp only [rejects_iff]
    exact ⟨normalPath_blank (.inr rfl) ⟨b, hmem, hb⟩ mergeSlashes,
      normalPath_blank (.inl rfl) ⟨b, by simp [hmem], hb⟩ mergeSlashes⟩

/-- `/a/.` with the query `b` and the fragment `?`. -/
theorem parseOriginForm_query_fragment_dot :
    ∃ normal,
      Accepts [slash, 0x61, slash, dot] true normal none ∧
      Accepts [slash, 0x61, slash, dot, question, 0x62] true normal (some [0x62]) ∧
      Accepts [slash, 0x61, slash, dot, hash, question] true normal none ∧
      Accepts [slash, 0x61, slash, dot, question, 0x62, hash, question] true normal
        (some [0x62]) := by
  have h := parseOriginForm_query_fragment [slash, 0x61, slash, dot] [0x62] [question] true
    (by decide) (by decide) (by decide)
  have hok : ¬ Rejects [slash, 0x61, slash, dot] true := by decide
  have hclean : ∀ b ∈ [0x62, question], ¬ (b ≤ space ∨ b = delete) :=
    List.forall_mem_cons.mpr ⟨by decide, List.forall_mem_cons.mpr ⟨by decide, nofun⟩⟩
  exact (h.1 hclean).resolve_left fun hrejects => hok hrejects.1

end UrlParseNginx
