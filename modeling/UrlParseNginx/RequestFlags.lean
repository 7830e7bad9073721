import UrlParseNginx.FastPath
import UrlParseNginx.StageTwoResult

/-!
The flags and the extension of a request. `quoted_uri` and `plus_in_uri` say of every parsed
target whether its path has an escape and whether it decodes to a `+`, although the two
stages set them in different places. Where stage 1 asks for no normalization, its request is
the one that stage 2 would have left, but for what `finish_done` still does to it.
-/
namespace UrlParseNginx
open Ascii PercentCoding DotSegments

/-- What a byte does to the two flags. -/
structure KeepsFlags (m : UriLocals) (ch : UInt8) (m' : UriLocals) : Prop where
  quotedUri : m'.r.quotedUri = true → m.r.quotedUri = true ∨ ch = percent
  plusInUri : m'.r.plusInUri = true → m.r.plusInUri = true ∨ ch = plus
  uri : m.state = .uri → m'.state = .uri ∧ m'.r.quotedUri = m.r.quotedUri ∧
    m'.r.plusInUri = m.r.plusInUri
  delimiter : ch = question ∨ ch = hash → m.state ≠ .start → m'.state = .uri
  state : m'.state ≠ .start

theorem scanByte_flags {m m' : UriLocals} {ch : UInt8} (h : scanByte m ch = .ok m') :
    KeepsFlags m ch m' := by
  cases hs : m.state <;> simp only [scanByte, hs] at h
  case start =>
    unfold startArm at h
    split at h <;> cases h
    exact ⟨.inl, .inl, fun hu => (by cases hs.symm.trans hu), fun _ hne => absurd hs hne,
      by simp⟩
  case afterSlash =>
    have huri : m.state = .uri → False := fun hu => by cases hs.symm.trans hu
    unfold afterSlashArm rejectBlank at h
    repeat' split at h
    all_goals cases h
    all_goals
      refine ⟨fun hq => ?_, fun hp => ?_, fun hu => (huri hu).elim, fun hd _ => ?_, ?_⟩
      · simp_all
      · simp_all
      · obtain rfl | rfl := hd <;> simp_all +decide
      · simp [hs]
  case checkUri =>
    have huri : m.state = .uri → False := fun hu => by cases hs.symm.trans hu
    unfold checkUriArm rejectBlank at h
    repeat' split at h
    all_goals cases h
    all_goals
      refine ⟨fun hq => ?_, fun hp => ?_, fun hu => (huri hu).elim, fun hd _ => ?_, ?_⟩
      · simp_all
      · simp_all
      · obtain rfl | rfl := hd <;> simp_all +decide
      · simp [hs]
  case uri =>
    unfold uriArm rejectBlank at h
    repeat' split at h
    all_goals cases h
    all_goals exact ⟨.inl, .inl, fun _ => ⟨hs, rfl, rfl⟩, fun _ _ => hs,
      by simp [hs]⟩

theorem scan_uri_flags {m m' : UriLocals} (hs : m.state = .uri) {rest : List UInt8}
    (h : scan m rest = .ok m') :
    m'.r.quotedUri = m.r.quotedUri ∧ m'.r.plusInUri = m.r.plusInUri := by
  induction rest generalizing m with
  | nil =>
      cases h
      exact ⟨rfl, rfl⟩
  | cons ch rest ih =>
      rw [scan] at h
      cases hb : scanByte m ch with
      | error e =>
          rw [hb] at h
          cases h
      | ok next =>
          rw [hb] at h
          obtain ⟨hstate, hquoted, hplus⟩ := (scanByte_flags hb).uri hs
          obtain ⟨hquoted', hplus'⟩ := ih (m := next.next) hstate h
          exact ⟨hquoted'.trans hquoted, hplus'.trans hplus⟩

/-- A flag that stage 1 sets is about a byte of the path. -/
theorem scan_flags {m m' : UriLocals} (hs : m.state ≠ .start) {rest : List UInt8}
    (h : scan m rest = .ok m') :
    (m'.r.quotedUri = true → m.r.quotedUri = true ∨ percent ∈ rawPath rest) ∧
      (m'.r.plusInUri = true → m.r.plusInUri = true ∨ plus ∈ rawPath rest) := by
  induction rest generalizing m with
  | nil =>
      cases h
      exact ⟨.inl, .inl⟩
  | cons ch rest ih =>
      rw [scan] at h
      cases hb : scanByte m ch with
      | error e =>
          rw [hb] at h
          cases h
      | ok next =>
          rw [hb] at h
          have hkeeps := scanByte_flags hb
          by_cases hd : ch = question ∨ ch = hash
          · have hch : ch ≠ percent ∧ ch ≠ plus := by
              obtain rfl | rfl := hd <;> decide
            obtain ⟨hquoted, hplus⟩ := scan_uri_flags (m := next.next) (hkeeps.delimiter hd hs) h
            refine ⟨fun hq => ?_, fun hp => ?_⟩
            · rw [hquoted] at hq
              exact .inl ((hkeeps.quotedUri hq).resolve_right hch.1)
            · rw [hplus] at hp
              exact .inl ((hkeeps.plusInUri hp).resolve_right hch.2)
          · obtain ⟨hquoted, hplus⟩ := ih (m := next.next) hkeeps.state h
            rw [rawPath_cons (not_or.mp hd)]
            refine ⟨fun hq => ?_, fun hp => ?_⟩
            · cases hquoted hq with
              | inl hq => exact (hkeeps.quotedUri hq).imp_right fun hch => by simp [hch]
              | inr hmem => exact .inr (List.mem_cons_of_mem _ hmem)
            · cases hplus hp with
              | inl hp => exact (hkeeps.plusInUri hp).imp_right fun hch => by simp [hch]
              | inr hmem => exact .inr (List.mem_cons_of_mem _ hmem)

/-- The scan of stage 1 and the abstract machine of stage 2 after the same bytes. The scan
stays in `AfterSlash` on a `+`, where the machine is in `Usual` already. -/
structure Abreast (m : UriLocals) (c : Progress) : Prop where
  p : c.out.length = m.p
  ext : c.ext = m.r.uriExt
  state : (m.state = .checkUri ∧ c.mode = .usual) ∨
    (m.state = .afterSlash ∧ (c.mode = .usual ∨ c.mode = .slash) ∧ c.ext = none)

/-- A byte that neither ends the path nor asks for stage 2. -/
structure Unalarming (m : UriLocals) (b : UInt8) : Prop where
  visible : ¬ Blank b
  plain : PlainByte b
  afterSlash : m.state = .afterSlash → b ≠ dot ∧ b ≠ slash

/-- What the scan does to its request on such a byte. -/
def extendRequest (m : UriLocals) (b : UInt8) : Request :=
  { m.r with
    uriExt := if b = slash then none else if b = dot then some (m.p + 1) else m.r.uriExt
    plusInUri := m.r.plusInUri || decide (b = plus) }

theorem scanByte_unalarming {m : UriLocals} {b : UInt8}
    (hs : m.state = .checkUri ∨ m.state = .afterSlash) (h : Unalarming m b) :
    scanByte m b = .ok { m with
      r := extendRequest m b
      state := if b = slash ∨ (m.state = .afterSlash ∧ b = plus) then .afterSlash
        else .checkUri } := by
  obtain ⟨hvisible, ⟨hpercent, hquestion, hhash⟩, hafter⟩ := h
  obtain ⟨r, state, p⟩ := m
  cases hs with
  | inl hs =>
      obtain rfl : state = .checkUri := hs
      obtain hu | rfl | rfl | rfl | rfl | rfl | rfl | hb := byte_cases b
      · have h := (usual_iff b).mp hu
        simp +decide [scanByte, hu, h, extendRequest]
      · simp +decide [scanByte, checkUriArm, extendRequest]
      · simp +decide [scanByte, checkUriArm, extendRequest]
      · exact absurd rfl hpercent
      · exact absurd rfl hquestion
      · exact absurd rfl hhash
      · simp +decide [scanByte, checkUriArm, extendRequest]
      · exact absurd hb hvisible
  | inr hs =>
      obtain rfl : state = .afterSlash := hs
      obtain ⟨hdot, hslash⟩ := hafter rfl
      obtain hu | rfl | rfl | rfl | rfl | rfl | rfl | hb := byte_cases b
      · have h := (usual_iff b).mp hu
        simp +decide [scanByte, afterSlashArm, hu, h, extendRequest]
      · exact absurd rfl hslash
      · exact absurd rfl hdot
      · exact absurd rfl hpercent
      · exact absurd rfl hquestion
      · exact absurd rfl hhash
      · simp +decide [scanByte, afterSlashArm, extendRequest]
      · exact absurd hb hvisible

theorem Abreast.byte {m : UriLocals} {c : Progress} {b : UInt8} (mergeSlashes : Bool)
    (h : Abreast m c) (hb : Unalarming m b) :
    ∃ m' c', scanByte m b = .ok m' ∧ c.absorb mergeSlashes b = some c' ∧ Abreast m'.next c' ∧
      m'.r = extendRequest m b ∧
      decide (m'.next.state = .afterSlash) =
        (decide (b = slash) || (decide (m.state = .afterSlash) && decide (b = plus))) := by
  obtain ⟨hp, hext, hstate⟩ := h
  refine ⟨_, ⟨if b = slash then .slash else .usual, c.out ++ [b], c.nextExt b⟩,
    scanByte_unalarming (by tauto) hb, ?_, ⟨?_, ?_, ?_⟩, rfl, ?_⟩
  · have hfeed : feed slash dot mergeSlashes (c.mode, c.out) b =
        some (if b = slash then .slash else .usual, c.out ++ [b]) := by
      obtain ⟨_, hm⟩ | ⟨hs, hm | hm, _⟩ := hstate
      · by_cases hslash : b = slash <;> simp [feed, hm, hslash]
      · by_cases hslash : b = slash <;> simp [feed, hm, hslash]
      · obtain ⟨hdot, hslash⟩ := hb.afterSlash hs
        simp [feed, hm, hdot, hslash]
    rw [Progress.absorb, hfeed]
    rfl
  · simp [UriLocals.next, hp]
  · obtain ⟨_, hm⟩ | ⟨hs, _, hnone⟩ := hstate
    · simp [Progress.nextExt, extendRequest, UriLocals.next, hm, hp, hext]
    · obtain ⟨hdot, hslash⟩ := hb.afterSlash hs
      simp [Progress.nextExt, extendRequest, UriLocals.next, hdot, hslash, hext]
  · obtain ⟨hs, hm⟩ | ⟨hs, _, hnone⟩ := hstate
    · by_cases hslash : b = slash
      · simp [UriLocals.next, hslash, Progress.nextExt, hm]
      · simp [UriLocals.next, hslash, hs]
    · obtain ⟨hdot, hslash⟩ := hb.afterSlash hs
      by_cases hplus : b = plus
      · simp +decide [UriLocals.next, hplus, hs, Progress.nextExt, hnone]
      · simp [UriLocals.next, hplus, hslash]
  · by_cases hslash : b = slash
    · simp [UriLocals.next, hslash]
    · by_cases hafter : m.state = .afterSlash <;> by_cases hplus : b = plus <;>
        simp [UriLocals.next, hslash, hafter, hplus]

/-- Both stages over the bytes `s` of a path without the patterns that stage 1 looks for. -/
theorem scan_abreast {m : UriLocals} {c : Progress} (mergeSlashes : Bool) (h : Abreast m c)
    (s rest : List UInt8) (hs : ∀ b ∈ s, ¬ Blank b ∧ PlainByte b)
    (hplain : looksComplex (m.state = .afterSlash) s = false) :
    ∃ m' c', scan m (s ++ rest) = scan m' rest ∧ c.absorbAll mergeSlashes s = some c' ∧
      Abreast m' c' ∧ m'.r = { m.r with
        uriExt := c'.ext
        plusInUri := m.r.plusInUri || decide (plus ∈ s) } := by
  induction s generalizing m c with
  | nil =>
      refine ⟨m, c, rfl, rfl, h, ?_⟩
      simp [h.ext]
  | cons b s ih =>
      rw [looksComplex, Bool.or_eq_false_iff] at hplain
      obtain ⟨hhead, htail⟩ := hplain
      obtain ⟨hvisible, hbyte⟩ := hs b (by simp)
      have hb : Unalarming m b := ⟨hvisible, hbyte, fun hafter => by simpa [hafter] using hhead⟩
      obtain ⟨m₁, c₁, hscan, habsorb, habreast, hr, hstate⟩ := h.byte mergeSlashes hb
      obtain ⟨m', c', hscan', habsorb', habreast', hr'⟩ :=
        ih habreast (fun b' hb' => hs b' (by simp [hb'])) (by rw [hstate]; exact htail)
      refine ⟨m', c', ?_, ?_, habreast', ?_⟩
      · rw [List.cons_append, scan, hscan]
        exact hscan'
      · rw [Progress.absorbAll, List.foldlM_cons, habsorb]
        exact habsorb'
      · rw [hr']
        simp [UriLocals.next, hr, extendRequest, Bool.or_assoc, eq_comm]

theorem scan_uri_plain {m m' : UriLocals} (hs : m.state = .uri) {rest : List UInt8}
    (hh : hash ∉ rest) (h : scan m rest = .ok m') : m'.r = m.r := by
  induction rest generalizing m with
  | nil =>
      cases h
      rfl
  | cons ch rest ih =>
      have hch : ch ≠ hash := fun heq => hh (by simp [heq])
      by_cases hb : Blank ch
      · rw [scan, scanByte_blank (by simp [hs]) hb] at h
        cases h
      · rw [scan, scanByte_uri hs hb, if_neg hch] at h
        exact ih (m := m.next) hs (fun hm => hh (by simp [hm])) h

theorem beforeQuery_split (s : List UInt8) :
    ∃ tail, s = beforeQuery s ++ tail ∧ (tail = [] ∨ ∃ query, tail = question :: query) := by
  induction s with
  | nil => exact ⟨[], rfl, .inl rfl⟩
  | cons b s ih =>
      by_cases hb : b = question
      · refine ⟨b :: s, ?_, .inr ⟨s, by rw [hb]⟩⟩
        simp [beforeQuery, hb]
      · obtain ⟨tail, hs, htail⟩ := ih
        refine ⟨tail, ?_, htail⟩
        rw [beforeQuery_cons hb, List.cons_append, ← hs]

/-- What stage 1 leaves of a simple target: the extension and the flag for a `+` that the
abstract machine finds, and the start of the query. -/
theorem parseUri_simple {target : List UInt8} {r : Request} (mergeSlashes : Bool)
    (hwf : WellFormed target) (hsimple : Simple target)
    (hr : ngxHttpParseUri .default target = .ok r) :
    ∃ c, (Progress.start .default).absorbAll mergeSlashes (beforeQuery target) = some c ∧
      r = { Request.default with
        uriExt := c.ext
        plusInUri := decide (plus ∈ beforeQuery target)
        argsStart := r.argsStart } := by
  obtain ⟨rest, rfl⟩ := slash_cons_of_wellFormed hwf
  obtain ⟨hh, hpercent, hplain⟩ := hsimple
  rw [beforeQuery_cons (by decide)] at hpercent hplain ⊢
  obtain ⟨tail, hsplit, htail⟩ := beforeQuery_split rest
  have habreast : Abreast { r := .default, state := .afterSlash, p := 1 }
      ⟨.slash, [slash], none⟩ := ⟨rfl, rfl, .inr ⟨rfl, .inr rfl, rfl⟩⟩
  have hpath : ∀ b ∈ beforeQuery rest, ¬ Blank b ∧ PlainByte b := by
    intro b hb
    have hmem : b ∈ rest := (List.takeWhile_prefix _).subset hb
    refine ⟨hwf.2 b (List.mem_cons_of_mem _ hmem), fun h => hpercent (by simp [← h, hb]), ?_,
      fun h => hh (by simp [← h, hmem])⟩
    simpa using List.mem_takeWhile_imp hb
  obtain ⟨m, c, hscan, habsorb, hstate, hm⟩ := scan_abreast mergeSlashes habreast
    (beforeQuery rest) tail hpath (by simpa [looksComplex] using hplain)
  have hstart : scan { r := .default, state := .start, p := 0 } (slash :: rest) = scan m tail := by
    rw [← hscan, ← hsplit]
    simp [scan, scanByte, startArm, Except.bind, UriLocals.next]
  rw [ngxHttpParseUri_eq, hstart] at hr
  refine ⟨c, ?_, ?_⟩
  · rw [Progress.absorbAll, List.foldlM_cons]
    exact habsorb
  · have hplus : decide (plus ∈ slash :: beforeQuery rest) = decide (plus ∈ beforeQuery rest) := by
      simp +decide
    rw [hplus]
    obtain rfl | ⟨query, rfl⟩ := htail
    · cases hr
      rw [hm]
      simp [Request.default]
    · have hbyte : scanByte m question =
          .ok { m with r.argsStart := some (m.p + 1), state := .uri } := by
        obtain ⟨hs, _⟩ | ⟨hs, _⟩ := hstate.state
        · simp +decide [scanByte, hs, checkUriArm]
        · simp +decide [scanByte, hs, afterSlashArm]
      have hquery : hash ∉ query := fun hmem => hh (by
        rw [hsplit]
        simp [hmem])
      rw [scan, hbyte] at hr
      cases hq : scan { m with r.argsStart := some (m.p + 1), state := .uri, p := m.p + 1 }
          query with
      | error e =>
          rw [Except.bind, UriLocals.next, hq] at hr
          cases hr
      | ok m' =>
          rw [Except.bind, UriLocals.next, hq] at hr
          obtain rfl := Except.ok.inj hr
          rw [scan_uri_plain rfl hquery hq]
          simp [hm, Request.default]

/-- Without a `#`, the query that stage 2 finds starts where stage 1 has put it. -/
theorem atStop_simple {target : List UInt8} (hh : hash ∉ target) {r : Request}
    (hstart : r.argsStart = none) :
    atStop target (beforeQuery target).length r = { r with
      argsStart :=
        if question ∈ target then some ((beforeQuery target).length + 1) else none } := by
  by_cases hq : question ∈ target
  · have hno : hash ∉ target.drop ((beforeQuery target).length + 1) :=
      fun hm => hh (List.mem_of_mem_drop hm)
    rw [atStop, if_pos (getElem_beforeQuery hq), withQuery, if_neg hno, if_pos hq]
  · rw [atStop, if_neg (by simp [beforeQuery_of_not_mem hq]), if_neg hq, ← hstart]

/-- Where stage 1 asks for no normalization, running stage 2 on its request would change
nothing but what `finish_done` does: the same args, the same extension, the same flags, and
the path as it stands in the input. -/
theorem ngxHttpParseComplexUri_simple (target out : List UInt8) (mergeSlashes : Bool)
    (r : Request) (hne : target ≠ []) (hr : ngxHttpParseUri .default target = .ok r)
    (hcomplex : r.complexUri = false) (hquoted : r.quotedUri = false)
    (hout : target.length + 1 ≤ out.length) :
    ∃ out', ngxHttpParseComplexUri r target out mergeSlashes =
        .ok (finishDone r (beforeQuery target).length, out') ∧
      out'.take (beforeQuery target).length = beforeQuery target := by
  obtain ⟨hwf, hsimple, hsame, hstart⟩ := simple_of_unflagged hne hr hcomplex hquoted
  obtain ⟨c, habsorb, hfields⟩ := parseUri_simple mergeSlashes hwf hsimple hr
  have hraw := rawPath_of_no_hash hsimple.1
  have hmeaning := meaning_of_simple hsimple mergeSlashes
  have hempty : emptyPath r = [] := by simp [emptyPath, hsame.emptyPathInUri, Request.default]
  rw [hraw] at hmeaning
  obtain ⟨hnone, _⟩ | ⟨_, last, out', hok, ts, c', path, hfound, htake, hleave⟩ :=
    ngxHttpParseComplexUri_found r mergeSlashes hout
  · rw [hempty, hmeaning] at hnone
    cases hnone
  · have hpath : path = beforeQuery target := by
      have h := hfound.meaning
      rw [hempty, hmeaning] at h
      exact (Option.some.inj h).symm
    have hbytes : bytes ts = beforeQuery target := by
      have h := hfound.decoded
      rw [hraw, decodePath_of_not_mem hsimple.2.1] at h
      exact (Option.some.inj h).symm
    have hesc : ts.any Token.isEsc = false := by
      rw [any_isEsc hfound.tokens, hraw]
      simpa using hsimple.2.1
    have hc : c' = c := by
      have h := hfound.absorbed
      rw [hbytes, Progress.start, hempty] at h
      exact Option.some.inj (h.symm.trans habsorb)
    have harrived : arrived r ts c' = { r with argsStart := none } := by
      rw [arrived, hc, hbytes, hesc]
      rw [hfields]
      simp
    rw [leaveAt_eq, harrived, hraw, atStop_simple hsimple.1 rfl, hpath] at hleave
    obtain rfl := Except.ok.inj hleave
    rw [hpath] at htake
    refine ⟨out', ?_, htake⟩
    rw [hok, ← hstart]

/-- `/a.b?c`. -/
theorem ngxHttpParseComplexUri_simple_query :
    ∃ out', ngxHttpParseComplexUri
        { Request.default with uriExt := some 3, argsStart := some 5 }
        [slash, 0x61, dot, 0x62, question, 0x63] (List.replicate 7 0) false =
          .ok (finishDone { Request.default with uriExt := some 3, argsStart := some 5 } 4,
            out') ∧
      out'.take 4 = [slash, 0x61, dot, 0x62] :=
  ngxHttpParseComplexUri_simple [slash, 0x61, dot, 0x62, question, 0x63] (List.replicate 7 0)
    false _ (by decide) (by decide +kernel) rfl rfl (by decide)

/-- The request from which `parse_origin_form` takes the path and the args. -/
inductive FinalRequest (target : List UInt8) (mergeSlashes : Bool) : Request → Prop
  | simple {r : Request} (stageOne : ngxHttpParseUri .default target = .ok r)
      (unflagged : needsNormalization r = false) : FinalRequest target mergeSlashes r
  | normalized {r last : Request} {out' : List UInt8}
      (stageOne : ngxHttpParseUri .default target = .ok r)
      (flagged : needsNormalization r = true)
      (stageTwo : ngxHttpParseComplexUri r target (List.replicate (target.length + 1) 0)
        mergeSlashes = .ok (last, out')) : FinalRequest target mergeSlashes last

/-- The flags that stage 1 sets are about bytes of the raw path. -/
theorem ngxHttpParseUri_flags {target : List UInt8} {r : Request}
    (hr : ngxHttpParseUri .default target = .ok r) :
    (r.quotedUri = true → percent ∈ rawPath target) ∧
      (r.plusInUri = true → plus ∈ rawPath target) := by
  rw [ngxHttpParseUri_eq] at hr
  cases hscan : scan { r := .default, state := .start, p := 0 } target with
  | error e =>
      rw [hscan] at hr
      cases hr
  | ok m =>
      rw [hscan] at hr
      obtain rfl := Except.ok.inj hr
      cases target with
      | nil =>
          cases hscan
          simp [Request.default]
      | cons ch rest =>
          by_cases hch : ch = slash
          · subst hch
            have hrest : scan { r := .default, state := .afterSlash, p := 1 } rest = .ok m := by
              simpa [scan, scanByte, startArm, Except.bind, UriLocals.next] using hscan
            obtain ⟨hquoted, hplus⟩ := scan_flags (by simp) hrest
            rw [rawPath_cons (by decide)]
            refine ⟨fun h => List.mem_cons_of_mem _ ((hquoted h).resolve_left ?_),
              fun h => List.mem_cons_of_mem _ ((hplus h).resolve_left ?_)⟩ <;>
              simp [Request.default]
          · simp [scan, scanByte, startArm, hch, Except.bind] at hscan

/-- What stage 2 makes of the flags, whatever request it is given. -/
theorem ngxHttpParseComplexUri_flags {buf out out' : List UInt8} {r last : Request}
    {mergeSlashes : Bool} (hout : buf.length + 1 ≤ out.length)
    (h : ngxHttpParseComplexUri r buf out mergeSlashes = .ok (last, out')) :
    ∃ decoded, decodePath (rawPath buf) = some decoded ∧
      last.quotedUri = (r.quotedUri || decide (percent ∈ rawPath buf)) ∧
      last.plusInUri = (r.plusInUri || decide (plus ∈ decoded)) := by
  obtain ⟨_, herror⟩ | ⟨_, last', out₁, hok, ts, c, path, hfound, _, hleave⟩ :=
    ngxHttpParseComplexUri_found r mergeSlashes hout
  · cases h.symm.trans herror
  · cases h.symm.trans hok
    refine ⟨bytes ts, hfound.decoded, ?_⟩
    rw [leaveAt_eq] at hleave
    obtain rfl := Except.ok.inj hleave
    simp [arrived, any_isEsc hfound.tokens]

theorem finalRequest_of_parse {target : List UInt8} {mergeSlashes : Bool}
    {parsed : Parsed target} (h : parseOriginForm target mergeSlashes = .ok parsed) :
    target ≠ [] ∧ ∃ r, FinalRequest target mergeSlashes r := by
  by_cases hne : target = []
  · simp [parseOriginForm, hne] at h
  refine ⟨hne, ?_⟩
  cases hr : ngxHttpParseUri .default target with
  | error e => simp [parseOriginForm, hne, hr, Bind.bind, Except.bind] at h
  | ok r =>
      cases hneeds : needsNormalization r with
      | false => exact ⟨r, .simple hr hneeds⟩
      | true =>
          cases hstage : ngxHttpParseComplexUri r target (List.replicate (target.length + 1) 0)
              mergeSlashes with
          | error e =>
              simp [parseOriginForm, hne, hr, hneeds, hstage, Bind.bind, Except.bind] at h
          | ok result => exact ⟨result.1, .normalized hr hneeds hstage⟩

/-- Decoding keeps a `+`. -/
theorem plus_mem_decoded {s decoded : List UInt8} (h : decodePath s = some decoded)
    (hp : plus ∈ s) : plus ∈ decoded := by
  obtain ⟨ts, hts, hite⟩ := Option.bind_eq_some_iff.mp h
  by_cases hnul : .esc nul ∈ ts
  · rw [if_pos hnul] at hite
    cases hite
  · rw [if_neg hnul] at hite
    rw [← Option.some.inj hite]
    exact mem_bytes_of_mem hts hp (by decide) (by decide)

/-- Of every target that is parsed the two flags tell whether its path has an escape and
whether it decodes to a `+`, whichever stage has set them. -/
theorem parseOriginForm_flags (target : List UInt8) (mergeSlashes : Bool)
    (parsed : Parsed target) (h : parseOriginForm target mergeSlashes = .ok parsed) :
    ∃ r decoded, FinalRequest target mergeSlashes r ∧
      decodePath (rawPath target) = some decoded ∧
      r.quotedUri = decide (percent ∈ rawPath target) ∧
      r.plusInUri = decide (plus ∈ decoded) := by
  obtain ⟨hne, r, hfinal⟩ := finalRequest_of_parse h
  cases hfinal with
  | simple stageOne unflagged =>
      have hflags : (r.complexUri = false ∧ r.quotedUri = false) ∧ r.emptyPathInUri = false := by
        simpa [needsNormalization] using unflagged
      obtain ⟨⟨hcomplex, hquoted⟩, _⟩ := hflags
      obtain ⟨hwf, hsimple, _⟩ := simple_of_unflagged hne stageOne hcomplex hquoted
      obtain ⟨c, _, hfields⟩ := parseUri_simple mergeSlashes hwf hsimple stageOne
      have hraw := rawPath_of_no_hash hsimple.1
      refine ⟨r, beforeQuery target, .simple stageOne unflagged, ?_, ?_, by rw [hfields]⟩
      · rw [hraw, decodePath_of_not_mem hsimple.2.1]
      · rw [hraw, hquoted]
        simpa using hsimple.2.1
  | @normalized first _ out' stageOne flagged stageTwo =>
      obtain ⟨hfirst, hfirst'⟩ := ngxHttpParseUri_flags stageOne
      obtain ⟨decoded, hdecoded, hquoted, hplus⟩ :=
        ngxHttpParseComplexUri_flags (by simp) stageTwo
      refine ⟨r, decoded, .normalized stageOne flagged stageTwo, hdecoded, ?_, ?_⟩
      · simpa [hquoted] using hfirst
      · simpa [hplus] using fun hset => plus_mem_decoded hdecoded (hfirst' hset)

/-- `/%2B`: stage 1 has not seen the `+`. -/
theorem parseOriginForm_flags_escaped :
    ∃ r decoded, FinalRequest [slash, percent, 0x32, 0x42] true r ∧
      decodePath (rawPath [slash, percent, 0x32, 0x42]) = some decoded ∧
      r.quotedUri = decide (percent ∈ rawPath [slash, percent, 0x32, 0x42]) ∧
      r.plusInUri = decide (plus ∈ decoded) :=
  parseOriginForm_flags [slash, percent, 0x32, 0x42] true
    { path := .owned [slash, plus], args := none } (by decide +kernel)

end UrlParseNginx
