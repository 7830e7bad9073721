import UrlParseNginx.OriginFormMeaning

/-!
Which targets are accepted and what their path is, with decoding and dot-segment
resolution taken one after the other: the escapes of the raw path are decoded first, and
the decoded path is then resolved on a stack of segments.
-/
namespace UrlParseNginx
open Ascii PercentCoding DotSegments

theorem normalPath_eq_some_iff {target : List UInt8} {mergeSlashes : Bool}
    {path : List UInt8} :
    normalPath mergeSlashes target = some path ↔
      WellFormed target ∧ ∃ decoded, decodePath (rawPath target) = some decoded ∧
        ∃ segs, resolve dot mergeSlashes (decoded.tail.splitOn slash) = some segs ∧
          path = render slash segs := by
  by_cases hwf : WellFormed target
  · rw [normalPath_eq hwf]
    cases hd : decodePath (rawPath target) with
    | none => simp
    | some decoded =>
        obtain ⟨rest, rfl⟩ := decodePath_slash hwf hd
        rw [Option.bind_some, normalize_path slash_ne_dot, Option.map_eq_some_iff]
        simp [hwf, eq_comm]
  · simp [normalPath, hwf]

/-- `parse_origin_form` accepts exactly the targets that start with a raw slash, have no
blank byte, have only well-formed escapes other than `%00` in their path, and whose decoded
path resolves; the path it returns is the resolved one. It rejects the others with its
error. -/
theorem parseOriginForm_ok_iff (target : List UInt8) (mergeSlashes : Bool) :
    (∀ path, (∃ args, Accepts target mergeSlashes path args) ↔
      target.head? = some slash ∧ (∀ b ∈ target, ¬ (b ≤ space ∨ b = delete)) ∧
      ∃ ts, tokenize (rawPath target) = some ts ∧ .esc nul ∉ ts ∧
        ∃ segs, resolve dot mergeSlashes ((bytes ts).tail.splitOn slash) = some segs ∧
          path = render slash segs) ∧
    ((¬ ∃ path args, Accepts target mergeSlashes path args) → Rejects target mergeSlashes) := by
  refine ⟨fun path => ?_, fun h => ?_⟩
  · have haccepts : (∃ args, Accepts target mergeSlashes path args) ↔
        normalPath mergeSlashes target = some path := by
      simp only [accepts_iff, exists_and_left, exists_eq, and_true]
    rw [haccepts, normalPath_eq_some_iff, WellFormed, and_assoc]
    simp only [decodePath_eq_some_iff]
    refine and_congr_right fun _ => and_congr_right fun _ => ?_
    constructor
    · rintro ⟨decoded, ⟨ts, hts, hnul, rfl⟩, hsegs⟩
      exact ⟨ts, hts, hnul, hsegs⟩
    · rintro ⟨ts, hts, hnul, hsegs⟩
      exact ⟨bytes ts, ⟨ts, hts, hnul, rfl⟩, hsegs⟩
  · cases hparse : parseOriginForm target mergeSlashes with
    | error e => rw [Rejects, hparse, (normalPath_of_error hparse).2]
    | ok parsed => exact absurd ⟨_, _, parsed, hparse, rfl, rfl⟩ h

example : parseOriginForm [slash, 0x61, slash, dot, percent, 0x32, 0x65, slash, 0x62] true =
    .ok { path := .owned [slash, 0x62], args := none } := by decide

end UrlParseNginx
