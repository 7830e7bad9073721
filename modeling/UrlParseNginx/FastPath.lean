import UrlParseNginx.OriginFormMeaning

/-!
The branch of `parse_origin_form` that skips stage 2. Stage 2 would change nothing there;
but the patterns that stage 1 looks for also occur in paths that stage 2 leaves as they
are, and such a path is copied although its bytes are the input's own.
-/
namespace UrlParseNginx
open Ascii PercentCoding DotSegments

theorem simple_of_unflagged {target : List UInt8} {r : Request} (hne : target ≠ [])
    (hr : ngxHttpParseUri .default target = .ok r) (hcomplex : r.complexUri = false)
    (hquoted : r.quotedUri = false) :
    WellFormed target ∧ Simple target ∧ SameResults .default r ∧
      r.argsStart = if question ∈ target then some ((beforeQuery target).length + 1) else none := by
  have hwf : WellFormed target := by
    by_contra hwf
    rw [ngxHttpParseUri_reject hne (not_wellFormed hwf)] at hr
    cases hr
  obtain ⟨r', hr', hsame, hflag, hstart⟩ := ngxHttpParseUri_wellFormed hwf
  obtain rfl := Except.ok.inj (hr.symm.trans hr')
  have hunflagged : ¬ Flagged r := by simp [Flagged, hcomplex, hquoted]
  exact ⟨hwf, not_not.mp fun h => hunflagged (hflag.mpr h), hsame, hstart hunflagged⟩

/-- What stage 1 looks for: a slash, any number of `+` bytes, then a dot or another slash. -/
def Suspicious (s : List UInt8) : Prop :=
  ∃ n b, (b = dot ∨ b = slash) ∧ slash :: (List.replicate n plus ++ [b]) <:+: s

/-- The same from just after a slash. -/
def SuspiciousStart (s : List UInt8) : Prop :=
  ∃ n b, (b = dot ∨ b = slash) ∧ List.replicate n plus ++ [b] <+: s

theorem suspiciousStart_cons (b : UInt8) (s : List UInt8) :
    SuspiciousStart (b :: s) ↔ (b = dot ∨ b = slash) ∨ (b = plus ∧ SuspiciousStart s) := by
  constructor
  · rintro ⟨n, c, hc, hpre⟩
    cases n with
    | zero =>
        rw [List.replicate_zero, List.nil_append, List.cons_prefix_cons] at hpre
        exact .inl (hpre.1 ▸ hc)
    | succ n =>
        rw [List.replicate_succ, List.cons_append, List.cons_prefix_cons] at hpre
        exact .inr ⟨hpre.1.symm, n, c, hc, hpre.2⟩
  · rintro (hb | ⟨rfl, n, c, hc, hpre⟩)
    · exact ⟨0, b, hb, by simp⟩
    · refine ⟨n + 1, c, hc, ?_⟩
      rw [List.replicate_succ, List.cons_append, List.cons_prefix_cons]
      exact ⟨rfl, hpre⟩

theorem suspicious_cons (b : UInt8) (s : List UInt8) :
    Suspicious (b :: s) ↔ (b = slash ∧ SuspiciousStart s) ∨ Suspicious s := by
  constructor
  · rintro ⟨n, c, hc, hinfix⟩
    rw [List.infix_cons_iff, List.cons_prefix_cons] at hinfix
    cases hinfix with
    | inl h => exact .inl ⟨h.1.symm, n, c, hc, h.2⟩
    | inr h => exact .inr ⟨n, c, hc, h⟩
  · rintro (⟨rfl, n, c, hc, hpre⟩ | ⟨n, c, hc, hinfix⟩)
    · refine ⟨n, c, hc, ?_⟩
      rw [List.infix_cons_iff, List.cons_prefix_cons]
      exact .inl ⟨rfl, hpre⟩
    · exact ⟨n, c, hc, List.infix_cons hinfix⟩

theorem looksComplex_iff (afterSlash : Bool) (s : List UInt8) :
    looksComplex afterSlash s = true ↔ (afterSlash = true ∧ SuspiciousStart s) ∨ Suspicious s := by
  induction s generalizing afterSlash with
  | nil => simp [looksComplex, SuspiciousStart, Suspicious]
  | cons b s ih =>
      rw [looksComplex, Bool.or_eq_true, ih, suspicious_cons, suspiciousStart_cons]
      simp only [Bool.and_eq_true, Bool.or_eq_true, decide_eq_true_eq]
      tauto

theorem simple_iff {target : List UInt8} (hh : hash ∉ target) :
    Simple target ↔ percent ∉ beforeQuery target ∧ ¬ Suspicious (beforeQuery target) := by
  have hplain := (looksComplex_iff false (beforeQuery target)).not
  simp only [Bool.not_eq_true, Bool.false_eq_true, false_and, false_or] at hplain
  rw [Simple, hplain, and_iff_right hh]

/-- The normal path is the raw one when there is nothing to decode and nothing to resolve. -/
theorem normalPath_unchanged_iff {target path : List UInt8} {mergeSlashes : Bool}
    (hh : hash ∉ target) (h : normalPath mergeSlashes target = some path) :
    path = beforeQuery target ↔
      percent ∉ beforeQuery target ∧ Canonical slash dot mergeSlashes (beforeQuery target) := by
  obtain ⟨_, rest, hd, hnorm⟩ := wellFormed_of_normalPath h
  rw [rawPath_of_no_hash hh] at hd
  constructor
  · intro heq
    refine ⟨fun hpercent => ?_, heq ▸ canonical_of_normalize slash_ne_dot hnorm⟩
    obtain ⟨ts, hts, _, hbytes⟩ := decodePath_eq_some_iff.mp hd
    have hshort : path.length ≤ ts.length := by
      have hle := (normalize_sublist hnorm).length_le
      rwa [hbytes, bytes, List.length_map] at hle
    have hlt := (length_le_of_tokenize hts).2 hpercent
    rw [heq] at hshort
    omega
  · rintro ⟨hpercent, hcanonical⟩
    rw [decodePath_of_not_mem hpercent] at hd
    rw [← Option.some.inj hd, normalize_of_canonical slash_ne_dot hcanonical] at hnorm
    exact (Option.some.inj hnorm).symm

theorem canonical_iff (mergeSlashes : Bool) {path : List UInt8} (hhead : path.head? = some slash) :
    Canonical slash dot mergeSlashes path ↔
      ¬ (∃ segment ∈ path.splitOn slash, segment = [dot] ∨ segment = [dot, dot]) ∧
      ¬ (mergeSlashes = true ∧ [slash, slash] <:+: path) := by
  constructor
  · rintro ⟨_, hplain, hmerged⟩
    refine ⟨fun ⟨segment, hmem, hdots⟩ => ?_, fun ⟨hm, hinfix⟩ => hmerged hm hinfix⟩
    exact hdots.elim (hplain segment hmem).1 (hplain segment hmem).2
  · rintro ⟨hplain, hmerged⟩
    exact ⟨hhead, fun segment hmem => ⟨fun hd => hplain ⟨segment, hmem, .inl hd⟩,
      fun hd => hplain ⟨segment, hmem, .inr hd⟩⟩, fun hm hinfix => hmerged ⟨hm, hinfix⟩⟩

theorem agree_iff {escaped suspicious dotted doubled : Prop}
    (h : ¬ escaped ∧ ¬ suspicious → ¬ dotted ∧ ¬ doubled) :
    (¬ escaped ∧ ¬ suspicious ↔ ¬ escaped ∧ ¬ dotted ∧ ¬ doubled) ↔
      escaped ∨ dotted ∨ doubled ∨ ¬ suspicious := by
  tauto

/-- When the path is borrowed exactly if its bytes are the input's: unless stage 1 has been
alarmed by a pattern in a path that is canonical and has no escape. -/
theorem parseOriginForm_borrowed_iff (target : List UInt8) (mergeSlashes : Bool)
    (parsed : Parsed target) (h : parseOriginForm target mergeSlashes = .ok parsed)
    (hh : hash ∉ target) :
    (parsed.path.isBorrowed = true ↔ parsed.path.bytes = beforeQuery target) ↔
      percent ∈ beforeQuery target ∨
      (∃ segment ∈ (beforeQuery target).splitOn slash,
        segment = [dot] ∨ segment = [dot, dot]) ∨
      (mergeSlashes = true ∧ [slash, slash] <:+: beforeQuery target) ∨
      ¬ Suspicious (beforeQuery target) := by
  obtain ⟨hpath, _, hborrowed⟩ := normalPath_of_ok h
  have hwf := (wellFormed_of_normalPath hpath).1
  have hhead : (beforeQuery target).head? = some slash := by
    obtain ⟨rest, rfl⟩ := slash_cons_of_wellFormed hwf
    rfl
  have hcanonical := canonical_iff mergeSlashes hhead
  have hsimple : Simple target → Canonical slash dot mergeSlashes (beforeQuery target) := by
    intro hs
    rw [normalPath, if_pos hwf, meaning_of_simple hs, rawPath_of_no_hash hh] at hpath
    exact ((normalPath_unchanged_iff hh (normalPath_of_ok h).1).mp
      (Option.some.inj hpath).symm).2
  rw [hborrowed, normalPath_unchanged_iff hh hpath]
  rw [simple_iff hh, hcanonical] at hsimple
  rw [simple_iff hh, hcanonical]
  exact agree_iff hsimple

/-- `/a/../b` is copied, and its bytes change. -/
theorem parseOriginForm_borrowed_iff_dotDot :
    (((.owned [slash, 0x62] : Cow [slash, 0x61, slash, dot, dot, slash, 0x62]).isBorrowed = true ↔
        (.owned [slash, 0x62] : Cow [slash, 0x61, slash, dot, dot, slash, 0x62]).bytes =
          beforeQuery [slash, 0x61, slash, dot, dot, slash, 0x62]) ↔
      percent ∈ beforeQuery [slash, 0x61, slash, dot, dot, slash, 0x62] ∨
      (∃ segment ∈ (beforeQuery [slash, 0x61, slash, dot, dot, slash, 0x62]).splitOn slash,
        segment = [dot] ∨ segment = [dot, dot]) ∨
      (true = true ∧
        [slash, slash] <:+: beforeQuery [slash, 0x61, slash, dot, dot, slash, 0x62]) ∨
      ¬ Suspicious (beforeQuery [slash, 0x61, slash, dot, dot, slash, 0x62])) :=
  parseOriginForm_borrowed_iff [slash, 0x61, slash, dot, dot, slash, 0x62] true
    { path := .owned [slash, 0x62], args := none } (by decide) (by decide)

/-- `/.a` is copied, although its bytes do not change. -/
theorem parseOriginForm_copies_unchanged :
    ¬ ∀ (target : List UInt8) (mergeSlashes : Bool) (parsed : Parsed target), hash ∉ target →
      parseOriginForm target mergeSlashes = .ok parsed →
      (parsed.path.isBorrowed = true ↔ parsed.path.bytes = beforeQuery target) := by
  intro h
  have hcopied := h [slash, dot, 0x61] true { path := .owned [slash, dot, 0x61], args := none }
    (by decide) (by decide)
  exact absurd (hcopied.mpr (by decide)) (by decide)

end UrlParseNginx
