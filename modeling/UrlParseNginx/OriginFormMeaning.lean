import Mathlib.Data.List.TakeWhile
import UrlParseNginx.ComplexUriMeaning
import UrlParseNginx.OriginForm
import UrlParseNginx.ParseUriMeaning

/-!
What `parse_origin_form` returns: a target is rejected or it has a normalized path
and a query string, and both branches of the function compute these two.
-/
namespace UrlParseNginx
open Ascii PercentCoding DotSegments

/-- What precedes the first `#`. -/
def beforeHash (s : List UInt8) : List UInt8 := s.takeWhile (· ≠ hash)

/-- The query string: it follows a `?` that ends the path, up to a `#`. A `?` at the very
end of the target has none, a `?` just before a `#` has the empty one. -/
def queryOf (s : List UInt8) : Option (List UInt8) :=
  match s.drop (rawPath s).length with
  | b :: c :: rest => if b = question then some (beforeHash (c :: rest)) else none
  | _ => none

/-- What stage 1 asks of every byte of the target. -/
def WellFormed (target : List UInt8) : Prop :=
  target.head? = some slash ∧ ∀ b ∈ target, ¬ Blank b

instance (target : List UInt8) : Decidable (WellFormed target) :=
  inferInstanceAs (Decidable (_ ∧ _))

theorem slash_cons_of_wellFormed {target : List UInt8} (h : WellFormed target) :
    ∃ rest, target = slash :: rest := by
  cases target with
  | nil => exact absurd h.1 nofun
  | cons b rest => exact ⟨rest, by rw [Option.some.inj h.1]⟩

theorem ne_nil_of_wellFormed {target : List UInt8} (h : WellFormed target) : target ≠ [] := by
  obtain ⟨rest, rfl⟩ := slash_cons_of_wellFormed h
  exact List.cons_ne_nil _ _

/-- The normalized path of a target, if it has one. -/
def normalPath (mergeSlashes : Bool) (target : List UInt8) : Option (List UInt8) :=
  if WellFormed target then meaning mergeSlashes (.usual, []) target else none

theorem pastHash_eq (buf : List UInt8) (p : Nat) :
    pastHash buf p =
      if hash ∈ buf.drop p then some (p + (beforeHash (buf.drop p)).length + 1) else none := by
  induction p using pastHash.induct buf with
  | case1 p hp hhash =>
      rw [pastHash, dif_pos hp, if_pos hhash, List.drop_eq_getElem_cons hp]
      simp [beforeHash, hhash]
  | case2 p hp hhash ih =>
      rw [pastHash, dif_pos hp, if_neg hhash, ih, List.drop_eq_getElem_cons hp]
      have hlen : p + 1 + (beforeHash (buf.drop (p + 1))).length =
          p + (beforeHash (buf[p] :: buf.drop (p + 1))).length := by
        simp only [beforeHash, List.takeWhile_cons, ne_eq, hhash, not_false_eq_true,
          decide_true, ite_true, List.length_cons]
        omega
      simp only [hlen, List.mem_cons, Ne.symm hhash, false_or]
  | case3 p hp =>
      have hend : buf.drop p = [] := List.drop_eq_nil_of_le (Nat.le_of_not_lt hp)
      rw [pastHash, dif_neg hp, hend]
      simp

/-- The request that `leaveAt` returns from a `?`. -/
def withQuery (buf : List UInt8) (start : Nat) (r : Request) : Request :=
  if hash ∈ buf.drop start then
    { r with
      args := { len := (beforeHash (buf.drop start)).length, data := start }
      argsStart := none }
  else { r with argsStart := some start }

theorem leaveAt_query {buf : List UInt8} {stop : Nat} (h : buf[stop]? = some question)
    (r : Request) (u : Nat) :
    leaveAt buf stop r u = .ok (finishDone (withQuery buf (stop + 1) r) u) := by
  rw [leaveAt, if_pos h, finishArgs, pastHash_eq, withQuery]
  by_cases hhash : hash ∈ buf.drop (stop + 1)
  · simp only [if_pos hhash]
    have hsub : wrappingSub (stop + 1 + (beforeHash (buf.drop (stop + 1))).length + 1 - 1)
        (stop + 1) = (beforeHash (buf.drop (stop + 1))).length := by
      rw [wrappingSub, if_pos (by omega)]
      omega
    rw [hsub]
  · simp only [if_neg hhash]

theorem leaveAt_other {buf : List UInt8} {stop : Nat} (h : buf[stop]? ≠ some question)
    (r : Request) (u : Nat) : leaveAt buf stop r u = .ok (finishDone r u) := if_neg h

theorem beforeHash_length_le (s : List UInt8) : (beforeHash s).length ≤ s.length :=
  (List.takeWhile_prefix _).length_le

theorem pastHash_range {buf : List UInt8} {p q : Nat} (h : pastHash buf p = some q) :
    p ≤ q - 1 ∧ q ≤ buf.length := by
  rw [pastHash_eq] at h
  split at h
  · rename_i hhash
    have hlt : (beforeHash (buf.drop p)).length < (buf.drop p).length := by
      refine Nat.lt_of_le_of_ne (beforeHash_length_le _) fun heq => ?_
      have hall : beforeHash (buf.drop p) = buf.drop p :=
        (List.takeWhile_prefix _).eq_of_length heq
      simpa using List.takeWhile_eq_self_iff.mp hall _ hhash
    rw [List.length_drop] at hlt
    have hq := Option.some.inj h
    omega
  · cases h

theorem take_beforeHash (s : List UInt8) : s.take (beforeHash s).length = beforeHash s :=
  List.prefix_iff_eq_take.mp (List.takeWhile_prefix _) |>.symm

theorem beforeHash_of_not_mem {s : List UInt8} (h : hash ∉ s) : beforeHash s = s := by
  rw [beforeHash, List.takeWhile_eq_self_iff]
  intro b hb
  simpa using fun heq : b = hash => h (heq ▸ hb)

theorem queryOf_query {buf : List UInt8} {stop : Nat} (hstop : (rawPath buf).length = stop)
    (h : buf[stop]? = some question) :
    queryOf buf = if buf.drop (stop + 1) = [] then none
      else some (beforeHash (buf.drop (stop + 1))) := by
  obtain ⟨hlt, hq⟩ := List.getElem?_eq_some_iff.mp h
  rw [queryOf, hstop, List.drop_eq_getElem_cons hlt, hq]
  cases buf.drop (stop + 1) <;> simp

theorem queryOf_other {buf : List UInt8} {stop : Nat} (hstop : (rawPath buf).length = stop)
    (h : buf[stop]? ≠ some question) : queryOf buf = none := by
  rw [queryOf, hstop]
  by_cases hlt : stop < buf.length
  · have hq : buf[stop] ≠ question := fun heq => h (by simp [hlt, heq])
    rw [List.drop_eq_getElem_cons hlt]
    cases buf.drop (stop + 1) <;> simp [hq]
  · rw [List.drop_eq_nil_of_le (Nat.le_of_not_lt hlt)]

theorem parsedArgs_query {buf : List UInt8} {start : Nat} (hpos : 0 < start)
    (hle : start ≤ buf.length) {r : Request} (r' : Request) (hargs : r.args = .default)
    (hsame : r'.args = (withQuery buf start r).args)
    (hsame' : r'.argsStart = (withQuery buf start r).argsStart) :
    ∃ args, parsedArgs r' buf = .ok args ∧
      args.map Slice.bytes = if buf.drop start = [] then none
        else some (beforeHash (buf.drop start)) := by
  by_cases hhash : hash ∈ buf.drop start
  · have hne : buf.drop start ≠ [] := List.ne_nil_of_mem hhash
    have hlen := beforeHash_length_le (buf.drop start)
    rw [List.length_drop] at hlen
    rw [withQuery, if_pos hhash] at hsame
    have hslice : slice buf start (start + (beforeHash (buf.drop start)).length) = _ :=
      slice_eq (Nat.le_add_right _ _) (by omega)
    refine ⟨_, by rw [parsedArgs, if_pos (by simp [hsame]; omega), hsame, hslice]; rfl, ?_⟩
    rw [if_neg hne]
    simp [Slice.bytes, take_beforeHash]
  · rw [withQuery, if_neg hhash] at hsame hsame'
    have hdata : ¬ r'.args.data ≠ 0 := by simp [hsame, hargs, NgxStr.default]
    rw [parsedArgs, if_neg hdata, hsame']
    by_cases hlt : buf.length > start
    · have hne : buf.drop start ≠ [] := by simpa using hlt
      have hslice : slice buf start buf.length = _ :=
        slice_eq (Nat.le_of_lt hlt) (Nat.le_refl _)
      refine ⟨_, by simp only [if_pos hlt, hslice]; rfl, ?_⟩
      rw [if_neg hne, beforeHash_of_not_mem hhash]
      simp [Slice.bytes]
    · refine ⟨none, by simp only [if_neg hlt], ?_⟩
      rw [if_pos (List.drop_eq_nil_of_le (by omega))]
      rfl

theorem parsedArgs_congr (input : List UInt8) {r r' : Request} (hargs : r.args = r'.args)
    (hstart : r.argsStart = r'.argsStart) : parsedArgs r input = parsedArgs r' input := by
  rw [parsedArgs, parsedArgs, hargs, hstart]

theorem parsedArgs_none {buf : List UInt8} {r : Request} (hargs : r.args = .default)
    (hstart : r.argsStart = none) : parsedArgs r buf = .ok none := by
  simp [parsedArgs, hargs, hstart, NgxStr.default]

/-- Where stage 2 leaves the path, the request holds the query of the target. -/
theorem parsedArgs_leaveAt {buf : List UInt8} {r : Request} (hargs : r.args = .default)
    (hstart : r.argsStart = none) (u : Nat) :
    ∃ r' args, leaveAt buf (rawPath buf).length r u = .ok r' ∧ r'.uri.len = u ∧
      parsedArgs r' buf = .ok args ∧ args.map Slice.bytes = queryOf buf := by
  by_cases hq : buf[(rawPath buf).length]? = some question
  · obtain ⟨hlt, _⟩ := List.getElem?_eq_some_iff.mp hq
    obtain ⟨args, hparsed, hbytes⟩ := parsedArgs_query (Nat.succ_pos _) hlt
      (finishDone (withQuery buf ((rawPath buf).length + 1) r) u) hargs
      (finishDone_args _ _) (finishDone_argsStart _ _)
    exact ⟨_, args, leaveAt_query hq r u, finishDone_len _ _, hparsed,
      hbytes.trans (queryOf_query rfl hq).symm⟩
  · refine ⟨_, none, leaveAt_other hq r u, finishDone_len _ _,
      parsedArgs_none (by simpa using hargs) (by simpa using hstart), ?_⟩
    rw [queryOf_other rfl hq]
    rfl

/-- A target without the patterns that stage 1 looks for. -/
def Simple (target : List UInt8) : Prop :=
  hash ∉ target ∧ percent ∉ beforeQuery target ∧
    looksComplex false (beforeQuery target) = false

instance (target : List UInt8) : Decidable (Simple target) :=
  inferInstanceAs (Decidable (_ ∧ _ ∧ _))

theorem decodePath_of_not_mem {s : List UInt8} (h : percent ∉ s) : decodePath s = some s := by
  induction s with
  | nil => simp
  | cons b s ih =>
      rw [decodePath_lit (fun hb => h (by simp [hb])), ih fun hm => h (by simp [hm])]
      rfl

theorem rawPath_of_no_hash {s : List UInt8} (h : hash ∉ s) : rawPath s = beforeQuery s := by
  induction s with
  | nil => rfl
  | cons b s ih =>
      have hb : b ≠ hash := fun heq => h (by simp [heq])
      by_cases hq : b = question
      · rw [rawPath_stop (.inl hq)]
        simp [beforeQuery, hq]
      · rw [rawPath_cons ⟨hq, hb⟩, beforeQuery_cons hq, ih fun hm => h (by simp [hm])]

theorem beforeQuery_of_not_mem {s : List UInt8} (h : question ∉ s) : beforeQuery s = s := by
  rw [beforeQuery, List.takeWhile_eq_self_iff]
  intro b hb
  simpa using fun heq : b = question => h (heq ▸ hb)

theorem getElem_beforeQuery {s : List UInt8} (h : question ∈ s) :
    s[(beforeQuery s).length]? = some question := by
  induction s with
  | nil => simp at h
  | cons b s ih =>
      by_cases hb : b = question
      · simp [beforeQuery, hb]
      · rw [beforeQuery_cons hb, List.length_cons, List.getElem?_cons_succ]
        exact ih (by simpa [Ne.symm hb] using h)

/-- Where nothing looks complex the normalizer copies its input. Stage 1 stays in
`AfterSlash` on a `+`, so its state says less than the normalizer's. -/
theorem run_of_plain {s : List UInt8} {afterSlash : Bool} {k : Mode} (mergeSlashes : Bool)
    (hk : k = .usual ∨ (k = .slash ∧ afterSlash = true)) (h : looksComplex afterSlash s = false)
    (out : List UInt8) :
    ∃ k', run slash dot mergeSlashes (k, out) s = some (k', out ++ s) ∧
      (k' = .usual ∨ k' = .slash) := by
  induction s generalizing k afterSlash out with
  | nil =>
      refine ⟨k, by rw [run_nil, List.append_nil], ?_⟩
      cases hk with
      | inl hk => exact .inl hk
      | inr hk => exact .inr hk.1
  | cons b s ih =>
      rw [looksComplex, Bool.or_eq_false_iff] at h
      obtain ⟨hb, hs⟩ := h
      have hfeed : ∃ k', feed slash dot mergeSlashes (k, out) b = some (k', out ++ [b]) ∧
          (k' = .usual ∨ (k' = .slash ∧
            (decide (b = slash) || (afterSlash && decide (b = plus))) = true)) := by
        obtain rfl | ⟨rfl, rfl⟩ := hk
        · by_cases hslash : b = slash <;> simp [feed, hslash]
        · have hne : b ≠ dot ∧ b ≠ slash := by simpa using hb
          simp [feed, hne]
      obtain ⟨k', hfeed, hk'⟩ := hfeed
      obtain ⟨last, hrun, hlast⟩ := ih hk' hs (out ++ [b])
      refine ⟨last, ?_, hlast⟩
      rw [run_cons, hfeed, Option.bind_some, hrun]
      simp

theorem meaning_of_simple {target : List UInt8} (h : Simple target) (mergeSlashes : Bool) :
    meaning mergeSlashes (.usual, []) target = some (rawPath target) := by
  obtain ⟨hhash, hpercent, hplain⟩ := h
  obtain ⟨k', hrun, hk'⟩ := run_of_plain mergeSlashes (.inl rfl) hplain []
  rw [meaning, rawPath_of_no_hash hhash, decodePath_of_not_mem hpercent, Option.bind_some, hrun]
  cases hk' with
  | inl hk' => simp [finish, hk']
  | inr hk' => simp [finish, hk']

theorem ngxHttpParseUri_wellFormed {target : List UInt8} (h : WellFormed target) :
    ∃ r, ngxHttpParseUri .default target = .ok r ∧ SameResults .default r ∧
      (Flagged r ↔ ¬ Simple target) ∧
      (¬ Flagged r → r.argsStart =
        if question ∈ target then some ((beforeQuery target).length + 1) else none) := by
  obtain ⟨rest, rfl⟩ := slash_cons_of_wellFormed h
  have hrest : ∀ b ∈ rest, ¬ Blank b := fun b hb => h.2 b (List.mem_cons_of_mem _ hb)
  obtain ⟨r, hr, hsame, hflag, hargs⟩ := ngxHttpParseUri_path hrest
  refine ⟨r, hr, hsame, ?_, fun hn => ?_⟩
  · rw [hflag, Simple, beforeQuery_cons (by decide), not_and_or, not_and_or, not_not, not_not,
      Bool.not_eq_false]
    simp +decide [looksComplex]
  · rw [hargs hn]
    simp +decide

/-- The borrowed branch: what stage 1 found is the path and the query. -/
theorem simple_results {target : List UInt8} (h : Simple target) {r : Request}
    (hargs : r.args = .default)
    (hstart : r.argsStart =
      if question ∈ target then some ((beforeQuery target).length + 1) else none) :
    ∃ path args, simplePath r target = .ok path ∧ path.bytes = rawPath target ∧
      parsedArgs r target = .ok args ∧ args.map Slice.bytes = queryOf target := by
  have hraw := rawPath_of_no_hash h.1
  have hpre : beforeQuery target <+: target := List.takeWhile_prefix _
  by_cases hq : question ∈ target
  · rw [if_pos hq] at hstart
    have hstop : target[(beforeQuery target).length]? = some question := getElem_beforeQuery hq
    obtain ⟨hlt, _⟩ := List.getElem?_eq_some_iff.mp hstop
    have hno : hash ∉ target.drop ((beforeQuery target).length + 1) :=
      fun hm => h.1 (List.mem_of_mem_drop hm)
    obtain ⟨args, hparsed, hbytes⟩ := parsedArgs_query (Nat.succ_pos _) hlt r hargs
      (by rw [withQuery, if_neg hno]) (by rw [withQuery, if_neg hno, hstart])
    have hpath : simplePath r target = slice target 0 (beforeQuery target).length := by
      simp [simplePath, hstart]
    have hslice := slice_eq (Nat.zero_le (beforeQuery target).length) (Nat.le_of_lt hlt)
    have hquery := queryOf_query (by rw [hraw]) hstop
    refine ⟨_, args, hpath.trans hslice, ?_, hparsed, hbytes.trans hquery.symm⟩
    rw [hraw, Slice.bytes]
    exact (List.prefix_iff_eq_take.mp hpre).symm
  · rw [if_neg hq] at hstart
    have hall : beforeQuery target = target := beforeQuery_of_not_mem hq
    have hpath : simplePath r target = slice target 0 target.length := by
      simp [simplePath, hstart]
    have hslice := slice_eq (Nat.zero_le target.length) (Nat.le_refl target.length)
    refine ⟨_, none, hpath.trans hslice, ?_, parsedArgs_none hargs hstart, ?_⟩
    · rw [hraw, hall, Slice.bytes]
      simp
    · rw [queryOf_other (by rw [hraw]) (by simp [hall])]
      rfl

section
variable {target : List UInt8} {mergeSlashes : Bool} {r : Request}

theorem emptyPath_of_same (hsame : SameResults .default r) : emptyPath r = [] := by
  simp [emptyPath, hsame.emptyPathInUri, Request.default]

theorem stageTwo_none {out : List UInt8} (hout : target.length + 1 ≤ out.length)
    (hsame : SameResults .default r) (h : meaning mergeSlashes (.usual, []) target = none) :
    ngxHttpParseComplexUri r target out mergeSlashes = .error .parseError := by
  have hmeaning := parseComplexUriWith_meaning (readsBuffer_sentinel lineFeed target)
    mergeSlashes r hout
  rw [emptyPath_of_same hsame, h] at hmeaning
  exact hmeaning

theorem stageTwo_some {out : List UInt8} (hout : target.length + 1 ≤ out.length)
    (hsame : SameResults .default r) {path : List UInt8}
    (h : meaning mergeSlashes (.usual, []) target = some path) :
    ∃ (m : Locals) (last : Request) (args : Option (Slice target)),
      ngxHttpParseComplexUri r target out mergeSlashes = .ok (last, m.out) ∧
      m.out.take last.uri.len = path ∧
      SameTail { r with uriExt := none, argsStart := none } m.r ∧
      leaveAt target (rawPath target).length m.r m.u = .ok last ∧
      parsedArgs last target = .ok args ∧ args.map Slice.bytes = queryOf target := by
  have hmeaning := parseComplexUriWith_meaning (readsBuffer_sentinel lineFeed target)
    mergeSlashes r hout
  rw [emptyPath_of_same hsame, h] at hmeaning
  obtain ⟨m, hpath, _, _, htail, hresult⟩ := hmeaning
  obtain ⟨last, args, hleave, hlen, hparsed, hquery⟩ :=
    parsedArgs_leaveAt (htail.args.trans hsame.args) htail.argsStart m.u
  rw [hleave] at hresult
  exact ⟨m, last, args, hresult, by rw [hlen]; exact hpath, htail, hleave, hparsed, hquery⟩

end

theorem outputRoom (target : List UInt8) :
    target.length + 1 ≤ (List.replicate (target.length + 1) (0 : UInt8)).length := by simp

theorem not_wellFormed {target : List UInt8} (h : ¬ WellFormed target) :
    target.head? ≠ some slash ∨ ∃ b ∈ target, Blank b := by
  rw [WellFormed, not_and_or] at h
  refine h.imp_right fun hall => ?_
  push Not at hall
  exact hall

section
variable {target : List UInt8} {mergeSlashes : Bool} {r : Request}

/-- The results of `parse_origin_form` from those of its stages. -/
theorem parseOriginForm_borrows (hne : target ≠ []) (hr : ngxHttpParseUri .default target = .ok r)
    (hneeds : needsNormalization r = false) {path : Slice target} {args : Option (Slice target)}
    (hpath : simplePath r target = .ok path) (hargs : parsedArgs r target = .ok args) :
    parseOriginForm target mergeSlashes = .ok { path := .borrowed path, args } := by
  simp [parseOriginForm, hne, hr, hneeds, hpath, hargs, Bind.bind, Except.bind, pure, Except.pure]

theorem parseOriginForm_copies (hne : target ≠ []) (hr : ngxHttpParseUri .default target = .ok r)
    (hneeds : needsNormalization r = true) {last : Request} {out : List UInt8}
    {args : Option (Slice target)}
    (hstage : ngxHttpParseComplexUri r target (List.replicate (target.length + 1) 0)
      mergeSlashes = .ok (last, out))
    (hargs : parsedArgs last target = .ok args) :
    parseOriginForm target mergeSlashes =
      .ok { path := .owned (out.take last.uri.len), args } := by
  simp [parseOriginForm, hne, hr, hneeds, hstage, hargs, Bind.bind, Except.bind, pure, Except.pure]

theorem needsNormalization_iff (hsame : SameResults .default r) :
    needsNormalization r = true ↔ Flagged r := by
  have hempty : r.emptyPathInUri = false := hsame.emptyPathInUri
  simp [needsNormalization, Flagged, hempty]

/-- `parse_origin_form` computes the normal path and the query of its target, and borrows
the path exactly when the target is simple. -/
theorem parseOriginForm_meaning (target : List UInt8) (mergeSlashes : Bool) :
    match normalPath mergeSlashes target with
    | none => parseOriginForm target mergeSlashes = .error .parseError
    | some path => ∃ parsed, parseOriginForm target mergeSlashes = .ok parsed ∧
        parsed.path.bytes = path ∧ parsed.argsBytes = queryOf target ∧
        (parsed.path.isBorrowed = true ↔ Simple target) := by
  by_cases hwf : WellFormed target
  · have hne := ne_nil_of_wellFormed hwf
    obtain ⟨r, hr, hsame, hflag, hstart⟩ := ngxHttpParseUri_wellFormed hwf
    have hneeds := needsNormalization_iff hsame
    rw [normalPath, if_pos hwf]
    by_cases hsimple : Simple target
    · have hunflagged : ¬ Flagged r := fun h => hflag.mp h hsimple
      obtain ⟨path, args, hpath, hbytes, hargs, hquery⟩ :=
        simple_results hsimple hsame.args (hstart hunflagged)
      rw [meaning_of_simple hsimple]
      have hno : needsNormalization r = false := eq_false_of_ne_true (mt hneeds.mp hunflagged)
      exact ⟨_, parseOriginForm_borrows hne hr hno hpath hargs, hbytes, hquery,
        by simp [Cow.isBorrowed, hsimple]⟩
    · have hneeds := hneeds.mpr (hflag.mpr hsimple)
      cases hm : meaning mergeSlashes (.usual, []) target with
      | none =>
          have hstage := stageTwo_none (outputRoom target) hsame hm
          simp [parseOriginForm, hne, hr, hneeds, hstage, Bind.bind, Except.bind]
      | some path =>
          obtain ⟨m, last, args, hstage, hpath, _, _, hargs, hquery⟩ :=
            stageTwo_some (outputRoom target) hsame hm
          exact ⟨_, parseOriginForm_copies hne hr hneeds hstage hargs, hpath, hquery,
            by simp [Cow.isBorrowed, hsimple]⟩
  · rw [normalPath, if_neg hwf]
    by_cases hnil : target = []
    · simp [parseOriginForm, hnil]
    · have hreject := ngxHttpParseUri_reject hnil (not_wellFormed hwf)
      simp [parseOriginForm, hnil, hreject, Bind.bind, Except.bind]

end

section
variable {target : List UInt8} {mergeSlashes : Bool}

theorem parseOriginForm_of_none (h : normalPath mergeSlashes target = none) :
    parseOriginForm target mergeSlashes = .error .parseError := by
  simpa only [h] using parseOriginForm_meaning target mergeSlashes

theorem parseOriginForm_of_some {path : List UInt8}
    (h : normalPath mergeSlashes target = some path) :
    ∃ parsed, parseOriginForm target mergeSlashes = .ok parsed ∧ parsed.path.bytes = path ∧
      parsed.argsBytes = queryOf target ∧
      (parsed.path.isBorrowed = true ↔ Simple target) := by
  simpa only [h] using parseOriginForm_meaning target mergeSlashes

theorem normalPath_of_ok {parsed : Parsed target}
    (h : parseOriginForm target mergeSlashes = .ok parsed) :
    normalPath mergeSlashes target = some parsed.path.bytes ∧
      parsed.argsBytes = queryOf target ∧ (parsed.path.isBorrowed = true ↔ Simple target) := by
  cases hn : normalPath mergeSlashes target with
  | none =>
      rw [parseOriginForm_of_none hn] at h
      cases h
  | some path =>
      obtain ⟨parsed', hok, hpath, hrest⟩ := parseOriginForm_of_some hn
      obtain rfl := Except.ok.inj (h.symm.trans hok)
      exact ⟨by rw [hpath], hrest⟩

theorem normalPath_of_error {e : Failure}
    (h : parseOriginForm target mergeSlashes = .error e) :
    normalPath mergeSlashes target = none ∧ e = .parseError := by
  cases hn : normalPath mergeSlashes target with
  | none => exact ⟨rfl, (Except.error.inj ((parseOriginForm_of_none hn).symm.trans h)).symm⟩
  | some path =>
      obtain ⟨parsed, hok, _⟩ := parseOriginForm_of_some hn
      rw [hok] at h
      cases h

end

/-- The call returns `Err(ParseError)`. -/
def Rejects (target : List UInt8) (mergeSlashes : Bool) : Prop :=
  parseOriginForm target mergeSlashes = .error .parseError

instance (target : List UInt8) (mergeSlashes : Bool) : Decidable (Rejects target mergeSlashes) :=
  inferInstanceAs (Decidable (_ = _))

/-- The call returns `Ok` with these path and args bytes. -/
def Accepts (target : List UInt8) (mergeSlashes : Bool) (path : List UInt8)
    (args : Option (List UInt8)) : Prop :=
  ∃ parsed, parseOriginForm target mergeSlashes = .ok parsed ∧ parsed.path.bytes = path ∧
    parsed.argsBytes = args

theorem rejects_iff {target : List UInt8} {mergeSlashes : Bool} :
    Rejects target mergeSlashes ↔ normalPath mergeSlashes target = none :=
  ⟨fun h => (normalPath_of_error h).1, parseOriginForm_of_none⟩

theorem accepts_iff {target : List UInt8} {mergeSlashes : Bool} {path : List UInt8}
    {args : Option (List UInt8)} :
    Accepts target mergeSlashes path args ↔
      normalPath mergeSlashes target = some path ∧ args = queryOf target := by
  constructor
  · rintro ⟨parsed, hok, rfl, rfl⟩
    obtain ⟨hpath, hargs, _⟩ := normalPath_of_ok hok
    exact ⟨hpath, hargs⟩
  · rintro ⟨hpath, rfl⟩
    obtain ⟨parsed, hok, hbytes, hargs, _⟩ := parseOriginForm_of_some hpath
    exact ⟨parsed, hok, hbytes, hargs⟩

theorem normalPath_eq {target : List UInt8} (h : WellFormed target) (mergeSlashes : Bool) :
    normalPath mergeSlashes target =
      (decodePath (rawPath target)).bind (normalizePath slash dot mergeSlashes) := by
  rw [normalPath, if_pos h]
  rfl

theorem decodePath_slash {target : List UInt8} (h : WellFormed target) {decoded : List UInt8}
    (hd : decodePath (rawPath target) = some decoded) :
    ∃ path, decoded = slash :: path := by
  obtain ⟨rest, rfl⟩ := slash_cons_of_wellFormed h
  rw [rawPath_cons (by decide), decodePath_lit (by decide), Option.map_eq_some_iff] at hd
  obtain ⟨path, _, rfl⟩ := hd
  exact ⟨path, rfl⟩

theorem wellFormed_of_normalPath {target path : List UInt8} {mergeSlashes : Bool}
    (h : normalPath mergeSlashes target = some path) :
    WellFormed target ∧ ∃ rest, decodePath (rawPath target) = some (slash :: rest) ∧
      normalizePath slash dot mergeSlashes (slash :: rest) = some path := by
  by_cases hwf : WellFormed target
  · rw [normalPath_eq hwf, Option.bind_eq_some_iff] at h
    obtain ⟨decoded, hd, hnorm⟩ := h
    obtain ⟨rest, rfl⟩ := decodePath_slash hwf hd
    exact ⟨hwf, rest, hd, hnorm⟩
  · rw [normalPath, if_neg hwf] at h
    cases h

theorem decodePath_eq_some_iff {s decoded : List UInt8} :
    decodePath s = some decoded ↔
      ∃ ts, tokenize s = some ts ∧ .esc nul ∉ ts ∧ decoded = bytes ts := by
  cases h : tokenize s with
  | none => simp [decodePath_of_malformed h]
  | some ts =>
      rw [decodePath_of_tokenize h]
      by_cases hnul : .esc nul ∈ ts
      · simp [hnul]
      · simp [hnul, eq_comm]

end UrlParseNginx
