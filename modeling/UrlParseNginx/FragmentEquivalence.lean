import UrlParseNginx.Library.SegmentEffects
import UrlParseNginx.PrefixReplacement

/-!
When two pieces of a path may stand for each other. What the parser makes of a piece that
begins with a slash and is followed by one is the effect of its segments: how far they go up,
and what they leave behind. Pieces with the same effect give the same result in every target,
and pieces with different effects are told apart by some target.
-/
namespace UrlParseNginx
open Ascii PercentCoding DotSegments

/-- A piece of a raw path, without blank bytes, that decodes to these segments, each after a
slash. -/
structure Fragment (m : List UInt8) (segs : List (List UInt8)) : Prop where
  rooted : ∀ b, m.head? = some b → b = slash
  noQuestion : question ∉ m
  noHash : hash ∉ m
  clear : ∀ b ∈ m, ¬ Blank b
  free : ∀ s ∈ segs, slash ∉ s
  decoded : decodePath m = some (separated slash segs)

/-- Both targets are rejected, or both are accepted with the same path and args. -/
def SameOutcome (target target' : List UInt8) (mergeSlashes : Bool) : Prop :=
  (Rejects target mergeSlashes ∧ Rejects target' mergeSlashes) ∨
    ∃ path args, Accepts target mergeSlashes path args ∧ Accepts target' mergeSlashes path args

theorem sameOutcome_iff {target target' : List UInt8} {mergeSlashes : Bool}
    (hquery : queryOf target = queryOf target') :
    SameOutcome target target' mergeSlashes ↔
      normalPath mergeSlashes target = normalPath mergeSlashes target' := by
  simp only [SameOutcome, rejects_iff, accepts_iff, hquery]
  constructor
  · rintro (⟨h, h'⟩ | ⟨path, args, ⟨h, _⟩, h', _⟩) <;> rw [h, h']
  · intro h
    rw [h]
    cases normalPath mergeSlashes target' with
    | none => exact .inl ⟨rfl, rfl⟩
    | some path => exact .inr ⟨path, _, ⟨rfl, rfl⟩, rfl, rfl⟩

theorem separated_of_decodePath {s decoded : List UInt8}
    (h : decodePath (slash :: s) = some decoded) :
    ∃ segs, segs ≠ [] ∧ (∀ seg ∈ segs, slash ∉ seg) ∧ decoded = separated slash segs := by
  rw [decodePath_lit (by decide), Option.map_eq_some_iff] at h
  obtain ⟨path, _, rfl⟩ := h
  exact ⟨path.splitOn slash, List.splitOn_ne_nil slash path,
    fun seg hseg => not_mem_of_mem_splitOn hseg, (separated_splitOn path).symm⟩

section
variable {m m' p rest : List UInt8} {segs segs' : List (List UInt8)} {mergeSlashes : Bool}

theorem wellFormed_fragment (hm : Fragment m segs) (p rest : List UInt8) :
    WellFormed (p ++ m ++ slash :: rest) ↔ WellFormed (p ++ slash :: rest) := by
  have hclear := hm.clear
  have hhead : (p ++ m ++ slash :: rest).head? = (p ++ slash :: rest).head? := by
    cases p with
    | cons b p => rfl
    | nil =>
        cases m with
        | nil => rfl
        | cons b m => rw [hm.rooted b rfl]; rfl
  simp only [WellFormed, hhead, List.forall_mem_append]
  tauto

theorem normalPath_fragment (hm : Fragment m segs) (hq : question ∉ p) (hh : hash ∉ p)
    (mergeSlashes : Bool) :
    normalPath mergeSlashes (p ++ m ++ slash :: rest) =
      if WellFormed (p ++ slash :: rest) then
        (decodePath p).bind fun front => (decodePath (slash :: rawPath rest)).bind fun back =>
          normalizePath slash dot mergeSlashes (front ++ separated slash segs ++ back)
      else none := by
  have hraw : rawPath (p ++ m ++ slash :: rest) = p ++ (m ++ slash :: rawPath rest) := by
    rw [List.append_assoc, rawPath_append hq hh, rawPath_append hm.noQuestion hm.noHash,
      rawPath_cons (by decide)]
  have hslash : ∀ b, (m ++ slash :: rawPath rest).head? = some b → b = slash := by
    cases m with
    | nil => simp [eq_comm]
    | cons b m => exact hm.rooted
  by_cases hwf : WellFormed (p ++ slash :: rest)
  · rw [if_pos hwf, normalPath_eq ((wellFormed_fragment hm p rest).mpr hwf), hraw,
      decodePath_append _ _ hslash, decodePath_append _ _ (by simp [eq_comm]), hm.decoded]
    cases decodePath p with
    | none => rfl
    | some front => cases decodePath (slash :: rawPath rest) <;> simp
  · rw [if_neg hwf, normalPath, if_neg (mt (wellFormed_fragment hm p rest).mp hwf)]

/-- Fragments with the same effect may stand for each other. -/
theorem normalPath_fragments (hm : Fragment m segs) (hm' : Fragment m' segs')
    (heffect : effect dot mergeSlashes segs = effect dot mergeSlashes segs')
    (hq : question ∉ p) (hh : hash ∉ p) :
    normalPath mergeSlashes (p ++ m ++ slash :: rest) =
      normalPath mergeSlashes (p ++ m' ++ slash :: rest) := by
  rw [normalPath_fragment hm hq hh, normalPath_fragment hm' hq hh]
  by_cases hwf : WellFormed (p ++ slash :: rest)
  · rw [if_pos hwf, if_pos hwf]
    cases hfront : decodePath p with
    | none => rfl
    | some front =>
        cases hback : decodePath (slash :: rawPath rest) with
        | none => rfl
        | some back =>
            obtain ⟨before, hbefore, rfl⟩ : ∃ before, (∀ seg ∈ before, slash ∉ seg) ∧
                front = separated slash before := by
              cases p with
              | nil =>
                  obtain rfl : [] = front := by simpa using hfront
                  exact ⟨[], by simp, rfl⟩
              | cons b p =>
                  obtain rfl : b = slash := Option.some.inj hwf.1
                  obtain ⟨before, _, hbefore⟩ := separated_of_decodePath hfront
                  exact ⟨before, hbefore⟩
            obtain ⟨after, hne, hafter, rfl⟩ := separated_of_decodePath hback
            simp only [Option.bind_some, ← separated_append]
            exact normalize_replace slash_ne_dot
              (List.forall_mem_append.mpr ⟨List.forall_mem_append.mpr ⟨hbefore, hm.free⟩, hafter⟩)
              (List.forall_mem_append.mpr ⟨List.forall_mem_append.mpr ⟨hbefore, hm'.free⟩, hafter⟩)
              hne heffect
  · rw [if_neg hwf, if_neg hwf]

theorem queryOf_past_fragment (hm : Fragment m segs) (hq : question ∉ p) (hh : hash ∉ p)
    (s : List UInt8) : queryOf (p ++ m ++ s) = queryOf s := by
  rw [List.append_assoc, queryOf_append hq hh, queryOf_append hm.noQuestion hm.noHash]

/-- A prefix of `n` segments, each one letter. -/
def letters (n : Nat) : List UInt8 := separated slash (List.replicate n [0x61])

theorem mem_letters {n : Nat} {b : UInt8} (hb : b ∈ letters n) : b = slash ∨ b = 0x61 := by
  obtain ⟨seg, hseg, hb⟩ := List.mem_flatMap.mp hb
  rw [List.eq_of_mem_replicate hseg] at hb
  simpa using hb

theorem not_mem_letters (n : Nat) {b : UInt8} (hb : b ≠ slash ∧ b ≠ 0x61) : b ∉ letters n :=
  fun hmem => (mem_letters hmem).elim hb.1 hb.2

theorem wellFormed_letters (n : Nat) : WellFormed (letters n ++ [slash]) := by
  refine ⟨?_, fun b hb => ?_⟩
  · cases n <;> rfl
  · obtain hb | hb := List.mem_append.mp hb
    · obtain rfl | rfl := mem_letters hb <;> decide
    · obtain rfl := List.mem_singleton.mp hb
      decide

/-- Between letters and a final slash, the path shows the effect of a fragment. -/
theorem normalPath_letters (hm : Fragment m segs) (n : Nat) (mergeSlashes : Bool) :
    normalPath mergeSlashes (letters n ++ m ++ [slash]) =
      normalizePath slash dot mergeSlashes
        (separated slash (List.replicate n [0x61] ++ segs ++ [[]])) := by
  rw [normalPath_fragment hm (not_mem_letters n (by decide)) (not_mem_letters n (by decide)),
    if_pos (wellFormed_letters n), decodePath_of_not_mem (not_mem_letters n (by decide)),
    rawPath_nil, decodePath_of_not_mem (s := [slash]) (by decide), separated_append,
    separated_append]
  rfl

end

/-- Two fragments give the same outcome in every target, that is, after every prefix of the
path and before every continuation that starts with a slash, exactly when they go up equally
far and leave the same segments. -/
theorem fragments_equivalent_iff (m m' : List UInt8) (segs segs' : List (List UInt8))
    (mergeSlashes : Bool) (hm : Fragment m segs) (hm' : Fragment m' segs') :
    (∀ p s : List UInt8, question ∉ p → hash ∉ p → s.head? = some slash →
      SameOutcome (p ++ m ++ s) (p ++ m' ++ s) mergeSlashes) ↔
    effect dot mergeSlashes segs = effect dot mergeSlashes segs' := by
  have hquery : ∀ p s : List UInt8, question ∉ p → hash ∉ p →
      queryOf (p ++ m ++ s) = queryOf (p ++ m' ++ s) := by
    intro p s hq hh
    rw [queryOf_past_fragment hm hq hh, queryOf_past_fragment hm' hq hh]
  constructor
  · intro h
    have hplain : Kept slash dot mergeSlashes [0x61] := ⟨by decide, by decide, fun _ => by decide⟩
    refine effect_eq_of_probes slash_ne_dot hplain hm.free hm'.free fun n => ?_
    have hq := not_mem_letters n (show question ≠ slash ∧ question ≠ 0x61 by decide)
    have hh := not_mem_letters n (show hash ≠ slash ∧ hash ≠ 0x61 by decide)
    rw [← normalPath_letters hm, ← normalPath_letters hm']
    exact (sameOutcome_iff (hquery _ _ hq hh)).mp (h (letters n) [slash] hq hh rfl)
  · intro heffect p s hq hh hs
    obtain ⟨rest, rfl⟩ : ∃ rest, s = slash :: rest := by
      cases s with
      | nil => simp at hs
      | cons b rest => exact ⟨rest, by rw [Option.some.inj hs]⟩
    exact (sameOutcome_iff (hquery p _ hq hh)).mpr (normalPath_fragments hm hm' heffect hq hh)

theorem clear_of_all {s : List UInt8} (h : s.all (fun b => decide (¬ Blank b)) = true) :
    ∀ b ∈ s, ¬ Blank b :=
  fun b hb => of_decide_eq_true (List.all_eq_true.mp h b hb)

/-- `/x/%2e.` cancels out, so that `/a/x/%2e./b` means `/a/b`. -/
theorem fragments_equivalent_iff_cancelled :
    effect dot false [[0x78], [dot, dot]] = effect dot false [] ∧
    SameOutcome [slash, 0x61, slash, 0x78, slash, percent, 0x32, 0x65, dot, slash, 0x62]
      [slash, 0x61, slash, 0x62] false := by
  have hm : Fragment [slash, 0x78, slash, percent, 0x32, 0x65, dot] [[0x78], [dot, dot]] :=
    ⟨by simp, by decide, by decide, clear_of_all (by decide), by decide, by decide⟩
  have hm' : Fragment [] [] :=
    ⟨by simp, by decide, by decide, clear_of_all (by decide), by decide, by decide⟩
  have h := (fragments_equivalent_iff _ _ _ _ false hm hm').mpr (by decide)
  exact ⟨by decide, h [slash, 0x61] [slash, 0x62] (by decide) (by decide) rfl⟩

end UrlParseNginx
