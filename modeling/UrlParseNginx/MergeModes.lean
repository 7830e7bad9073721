import UrlParseNginx.OriginFormMeaning

/-!
The two values of `merge_slashes`. Merging pops from a stack that is never the higher one,
so it rejects at least as much; where no `..` is popped it only collapses slashes, and
where no slashes are adjacent it changes nothing.
-/
namespace UrlParseNginx
open Ascii PercentCoding DotSegments

theorem normalPath_merge_mono {target path : List UInt8}
    (h : normalPath true target = some path) :
    ∃ path', normalPath false target = some path' := by
  obtain ⟨hwf, rest, hd, hnorm⟩ := wellFormed_of_normalPath h
  rw [normalize_path slash_ne_dot, Option.map_eq_some_iff] at hnorm
  obtain ⟨segs, hsegs, _⟩ := hnorm
  obtain ⟨segs', hsegs'⟩ := resolve_mono hsegs
  refine ⟨render slash segs', ?_⟩
  rw [normalPath_eq hwf, hd, Option.bind_some, normalize_path slash_ne_dot, hsegs']
  rfl

theorem normalPath_malformed {target : List UInt8} (h : decodePath (rawPath target) = none)
    (mergeSlashes : Bool) : normalPath mergeSlashes target = none := by
  by_cases hwf : WellFormed target
  · rw [normalPath_eq hwf, h]
    rfl
  · exact if_neg hwf

theorem normalPath_collapse {target decoded : List UInt8}
    (hd : decodePath (rawPath target) = some decoded)
    (hdd : [dot, dot] ∉ decoded.splitOn slash) :
    (normalPath true target = none ∧ normalPath false target = none) ∨
    ∃ path, normalPath false target = some path ∧
      normalPath true target = some (collapse slash path) := by
  by_cases hwf : WellFormed target
  · obtain ⟨rest, rfl⟩ := decodePath_slash hwf hd
    have hrest : [dot, dot] ∉ rest.splitOn slash := by
      intro hmem
      exact hdd (by rw [splitOn_slash]; exact List.mem_cons_of_mem _ hmem)
    obtain ⟨path, hkept, hmerged⟩ := normalize_collapse slash_ne_dot hrest
    refine .inr ⟨path, ?_, ?_⟩
    · rw [normalPath_eq hwf, hd]
      exact hkept
    · rw [normalPath_eq hwf, hd]
      exact hmerged
  · exact .inl ⟨if_neg hwf, if_neg hwf⟩

theorem normalPath_single {target decoded : List UInt8}
    (hd : decodePath (rawPath target) = some decoded) (h : ¬ [slash, slash] <:+: decoded) :
    normalPath true target = normalPath false target := by
  by_cases hwf : WellFormed target
  · obtain ⟨rest, rfl⟩ := decodePath_slash hwf hd
    rw [normalPath_eq hwf, normalPath_eq hwf, hd]
    exact normalize_of_single slash_ne_dot h
  · rw [normalPath, normalPath, if_neg hwf, if_neg hwf]

theorem leaveAt_args {buf : List UInt8} {stop u u' : Nat} {r r' last last' : Request}
    (hargs : r.args = r'.args) (hstart : r.argsStart = r'.argsStart)
    (h : leaveAt buf stop r u = .ok last) (h' : leaveAt buf stop r' u' = .ok last') :
    last.args = last'.args ∧ last.argsStart = last'.argsStart := by
  by_cases hq : buf[stop]? = some question
  · rw [leaveAt_query hq] at h h'
    obtain rfl := Except.ok.inj h
    obtain rfl := Except.ok.inj h'
    by_cases hhash : hash ∈ buf.drop (stop + 1) <;> simp [withQuery, hhash, hargs]
  · rw [leaveAt_other hq] at h h'
    obtain rfl := Except.ok.inj h
    obtain rfl := Except.ok.inj h'
    simp [hargs, hstart]

theorem parseOriginForm_congr {target : List UInt8} {a b : Bool}
    (h : normalPath a target = normalPath b target) :
    parseOriginForm target a = parseOriginForm target b := by
  cases hpath : normalPath b target with
  | none => rw [parseOriginForm_of_none hpath, parseOriginForm_of_none (h.trans hpath)]
  | some path =>
      have hwf := (wellFormed_of_normalPath hpath).1
      rw [hpath, normalPath, if_pos hwf] at h
      rw [normalPath, if_pos hwf] at hpath
      obtain ⟨r, hr, hsame, _⟩ := ngxHttpParseUri_wellFormed hwf
      obtain ⟨m, last, _, hstage, hbytes, htail, hleave, _⟩ :=
        stageTwo_some (outputRoom target) hsame h
      obtain ⟨m', last', args', hstage', hbytes', htail', hleave', hargs', _⟩ :=
        stageTwo_some (outputRoom target) hsame hpath
      obtain ⟨hsameArgs, hsameStart⟩ := leaveAt_args (htail.args.trans htail'.args.symm)
        (htail.argsStart.trans htail'.argsStart.symm) hleave hleave'
      cases hneeds : needsNormalization r with
      | false => simp [parseOriginForm, hr, hneeds, Bind.bind, Except.bind]
      | true =>
          have hne := ne_nil_of_wellFormed hwf
          have hparsed : parsedArgs last target = .ok args' :=
            (parsedArgs_congr target hsameArgs hsameStart).trans hargs'
          rw [parseOriginForm_copies hne hr hneeds hstage hparsed,
            parseOriginForm_copies hne hr hneeds hstage' hargs', hbytes, hbytes']

/-- The two modes compared. Whatever merging accepts, keeping accepts with the same args. A
malformed path is rejected by both; in a well-formed one without `..` segments merging only
collapses runs of slashes, and without adjacent slashes it changes nothing. -/
theorem parseOriginForm_merge_modes (target : List UInt8) :
    (∀ path args, Accepts target true path args →
      ∃ path', Accepts target false path' args) ∧
    (tokenize (rawPath target) = none → Rejects target true ∧ Rejects target false) ∧
    ∀ ts, tokenize (rawPath target) = some ts →
      ([dot, dot] ∉ (bytes ts).splitOn slash →
        (Rejects target true ∧ Rejects target false) ∨
        ∃ path args, Accepts target false path args ∧
          Accepts target true (collapse slash path) args) ∧
      (¬ [slash, slash] <:+: bytes ts →
        parseOriginForm target true = parseOriginForm target false) := by
  refine ⟨fun path args h => ?_, fun h => ?_, fun ts hts => ?_⟩
  · obtain ⟨hpath, hargs⟩ := accepts_iff.mp h
    obtain ⟨path', hpath'⟩ := normalPath_merge_mono hpath
    exact ⟨path', accepts_iff.mpr ⟨hpath', hargs⟩⟩
  · have hd := decodePath_of_malformed h
    exact ⟨rejects_iff.mpr (normalPath_malformed hd true),
      rejects_iff.mpr (normalPath_malformed hd false)⟩
  · cases hd : decodePath (rawPath target) with
    | none =>
        have htrue := rejects_iff.mpr (normalPath_malformed hd true)
        have hfalse := rejects_iff.mpr (normalPath_malformed hd false)
        exact ⟨fun _ => .inl ⟨htrue, hfalse⟩, fun _ => htrue.trans hfalse.symm⟩
    | some decoded =>
        obtain ⟨ts', hts', _, rfl⟩ := decodePath_eq_some_iff.mp hd
        obtain rfl := Option.some.inj (hts.symm.trans hts')
        refine ⟨fun hdd => ?_, fun hsingle => parseOriginForm_congr (normalPath_single hd hsingle)⟩
        cases normalPath_collapse hd hdd with
        | inl h => exact .inl ⟨rejects_iff.mpr h.1, rejects_iff.mpr h.2⟩
        | inr h =>
            obtain ⟨path, hkept, hmerged⟩ := h
            exact .inr ⟨path, queryOf target, accepts_iff.mpr ⟨hkept, rfl⟩,
              accepts_iff.mpr ⟨hmerged, rfl⟩⟩

/-- `/a//../b`: `..` removes the empty segment where that is kept. -/
example :
    parseOriginForm [slash, 0x61, slash, slash, dot, dot, slash, 0x62] true =
        .ok { path := .owned [slash, 0x62], args := none } ∧
      parseOriginForm [slash, 0x61, slash, slash, dot, dot, slash, 0x62] false =
        .ok { path := .owned [slash, 0x61, slash, 0x62], args := none } := by decide

end UrlParseNginx
