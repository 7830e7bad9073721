import UrlParseNginx.Bounds
import UrlParseNginx.Simulation

/-!
The whole result of stage 2: every field of the request and every byte of the path, as a
function of the buffer and of the request it starts from. What it starts from matters in one
flag only, `empty_path_in_uri`; the rest of the request is carried along.
-/
namespace UrlParseNginx
open Ascii PercentCoding DotSegments WhileLoop

/-- What stage 2 has found where the path ends: its tokens, the abstract machine after them,
and the path once a pending dot segment is resolved. -/
structure Found (buf : List UInt8) (mergeSlashes : Bool) (r : Request) (ts : List Token)
    (c : Progress) (path : List UInt8) : Prop where
  tokens : tokenize (rawPath buf) = some ts
  nonzero : .esc nul ∉ ts
  absorbed : (Progress.start r).absorbAll mergeSlashes (bytes ts) = some c
  finished : finish slash (c.mode, c.out) = some path

theorem Found.decoded {buf : List UInt8} {mergeSlashes : Bool} {r : Request} {ts : List Token}
    {c : Progress} {path : List UInt8} (h : Found buf mergeSlashes r ts c path) :
    decodePath (rawPath buf) = some (bytes ts) := by
  rw [decodePath_of_tokenize h.tokens, if_neg h.nonzero]

theorem Found.meaning {buf : List UInt8} {mergeSlashes : Bool} {r : Request} {ts : List Token}
    {c : Progress} {path : List UInt8} (h : Found buf mergeSlashes r ts c path) :
    meaning mergeSlashes (.usual, emptyPath r) buf = some path := by
  have hrun := Progress.absorbAll_run mergeSlashes (.start r) (bytes ts)
  rw [h.absorbed] at hrun
  rw [UrlParseNginx.meaning, h.decoded, Option.bind_some]
  exact (congrArg (·.bind (finish slash)) hrun).symm.trans h.finished

/-- The request where the path ends. -/
def arrived (r : Request) (ts : List Token) (c : Progress) : Request :=
  { r with
    uriExt := c.ext
    argsStart := none
    quotedUri := r.quotedUri || ts.any Token.isEsc
    plusInUri := r.plusInUri || decide (plus ∈ bytes ts) }

section
variable {read : Nat → UInt8} {buf : List UInt8} {mergeSlashes : Bool} {r : Request}
  {m : Locals} {ts : List Token} {c : Progress} {k : Mode} {v : Nat}

/-- A copying state that leaves the loop has taken in the whole path. -/
theorem Reading.stops (hread : ReadsBuffer read buf) (h : Reading read buf r m k ts) {k' : Mode}
    (hs : m.state = stateOf k') (hend : m.p ≤ buf.length → m.ch = question ∨ m.ch = hash) :
    ∃ i, m.p = i + 1 ∧ (m.p ≤ buf.length → buf[i]? = some m.ch) ∧ Flags r m.r ts ∧
      (rawPath buf).length = i ∧ tokenize (rawPath buf) = some ts ∧ .esc nul ∉ ts := by
  cases h with
  | @fresh i state p ch taken flags =>
      have hle := taken.le
      have hb : m.p ≤ buf.length → buf[i]? = some m.ch := by
        intro hp
        rw [p] at hp
        rw [List.getElem?_eq_getElem hp, ch, hread i hp]
      have hraw : rawPath buf = buf.take i := by
        refine taken.rawPath ?_
        by_cases hp : m.p ≤ buf.length
        · have hget := hb hp
          cases hend hp with
          | inl hq => exact .inr (.inl (by rw [hget, hq]))
          | inr hh => exact .inr (.inr (by rw [hget, hh]))
        · exact .inl (by omega)
      refine ⟨i, p, hb, flags, ?_, by rw [hraw]; exact taken.tokens, taken.nonzero⟩
      rw [hraw, List.length_take, Nat.min_eq_left hle]
  | held state ch plain taken flags =>
      -- a held byte is no delimiter, and the cursor is still in the buffer
      have hstop := hend taken.le
      rw [ch] at hstop
      exact absurd hstop (not_or.mpr plain.2)
  | quoted state => exact absurd (hs.symm.trans state) (stateOf_ne_quoted k')
  | quotedSecond state => exact absurd (hs.symm.trans state) (stateOf_ne_quotedSecond k')

theorem arrived_eq (hflags : Flags r m.r ts) (hext : m.r.uriExt = c.ext)
    (htail : SameTail { r with uriExt := none, argsStart := none } m.r) :
    m.r = arrived r ts c := by
  obtain ⟨uri, args, exten, argsStart, complexUri, emptyPathInUri⟩ := htail
  obtain ⟨quotedUri, plusInUri⟩ := hflags
  cases hr : m.r
  simp only [hr] at *
  simp [arrived, *]

/-- How stage 2 returns: with the request that has arrived at the end of the path, and the
path in `out`. -/
def ReturnsFound (buf : List UInt8) (mergeSlashes : Bool) (r : Request) (last : Request)
    (out' : List UInt8) : Prop :=
  ∃ ts c path, Found buf mergeSlashes r ts c path ∧ out'.take path.length = path ∧
    leaveAt buf (rawPath buf).length (arrived r ts c) path.length = .ok last

/-- Out of the loop head `m`, whose output is cut to `v` bytes. -/
theorem Simulates.leaves (hread : ReadsBuffer read buf)
    (h : Simulates read buf mergeSlashes r m ts c) (hc : Coherent m)
    (htail : SameTail { r with uriExt := none, argsStart := none } m.r) {k' : Mode}
    (hs : m.state = stateOf k') (hend : m.p ≤ buf.length → m.ch = question ∨ m.ch = hash)
    (hsettles : Settles k' m v) {last : Request}
    (hlast : ∀ i, m.p = i + 1 → (m.p ≤ buf.length → buf[i]? = some m.ch) →
      (rawPath buf).length = i → leaveAt buf i m.r v = .ok last) :
    ReturnsFound buf mergeSlashes r last m.out := by
  obtain rfl := h.reading.mode hs
  obtain ⟨i, hp, hb, hflags, hlength, htokens, hnonzero⟩ := h.reading.stops hread hs hend
  have hle := Nat.le_trans hsettles.le hc.within
  have hv : (m.out.take v).length = v := by rw [List.length_take, Nat.min_eq_left hle]
  have hfinished := hsettles.finish
  rw [h.written] at hfinished
  refine ⟨ts, c, m.out.take v, ⟨htokens, hnonzero, h.absorbed, hfinished⟩, by rw [hv], ?_⟩
  rw [hv, ← arrived_eq hflags h.ext htail, hlength]
  exact hlast i hp hb hlength

theorem Simulates.leave_end (hread : ReadsBuffer read buf)
    (h : Simulates read buf mergeSlashes r m ts c) (hc : Coherent m)
    (htail : SameTail { r with uriExt := none, argsStart := none } m.r)
    (hp : ¬ m.p ≤ buf.length) {last : Request} {out' : List UInt8}
    (hend : endOfInput m = .ok (last, out')) : ReturnsFound buf mergeSlashes r last out' := by
  have core : ∀ k, m.state = stateOf k → ReturnsFound buf mergeSlashes r last out' := by
    intro k hs
    rw [endOfInput_eq hs] at hend
    obtain ⟨v, hset, hsettles⟩ | hset | ⟨hset, _⟩ := settle_cases hs hc.within
    · rw [hset] at hend
      cases hend
      refine h.leaves hread hc htail hs (fun hp' => absurd hp' hp) hsettles fun i hi _ _ => ?_
      rw [leaveAt_other]
      have hnone : buf[i]? = none := List.getElem?_eq_none (by omega)
      rw [hnone]
      exact nofun
    · rw [hset] at hend
      cases hend
    · rw [hset] at hend
      cases hend
  cases hs : m.state with
  | usual => exact core .usual hs
  | slash => exact core .slash hs
  | dot => exact core .dot hs
  | dotDot => exact core .dotDot hs
  | quoted | quotedSecond => simp [endOfInput, hs] at hend

theorem Simulates.leave_exit (hread : ReadsBuffer read buf)
    (h : Simulates read buf mergeSlashes r m ts c) (hc : Coherent m)
    (htail : SameTail { r with uriExt := none, argsStart := none } m.r)
    (hp : m.p ≤ buf.length) {exit : Exit} {last : Request} {out' : List UInt8}
    (hbody : (complexUriLoop read buf mergeSlashes).body m = .ok (.ret exit))
    (hexit : afterLoop buf (.ret exit) = .ok (last, out')) :
    ReturnsFound buf mergeSlashes r last out' := by
  obtain ⟨a, ⟨iteration, rfl⟩ | ⟨iteration, rfl⟩⟩ := hc.ret hbody
  · cases iteration with
    | @done k v state ch settles =>
        cases hexit
        refine h.leaves hread hc htail state (fun _ => .inr ch) settles fun i _ hb _ => ?_
        rw [leaveAt_other]
        rw [hb hp, ch]
        decide
  · cases iteration with
    | @args k v state ch settles =>
        simp only [afterLoop] at hexit
        cases hargs : finishArgs { m.r with argsStart := some m.p } buf v m.p with
        | error e =>
            rw [hargs] at hexit
            cases hexit
        | ok r' =>
            rw [hargs] at hexit
            cases hexit
            refine h.leaves hread hc htail state (fun _ => .inl ch) settles fun i hi hb _ => ?_
            rw [leaveAt, if_pos (by rw [hb hp, ch]), ← hi, hargs]

theorem returnsFound (hread : ReadsBuffer read buf) {start : Locals} {out out' : List UInt8}
    {last : Request} (hinit : Locals.init read r out = .ok start)
    (hok : parseComplexUriWith read r buf out mergeSlashes = .ok (last, out')) :
    ReturnsFound buf mergeSlashes r last out' := by
  have hstarts := init_starts hinit
  obtain ⟨n, x, hn, heval⟩ := hstarts.coherent.evals read buf mergeSlashes
  have hfuel : n ≤ 2 * buf.length := by
    have hle := hstarts.potential_le buf.length
    omega
  simp only [parseComplexUriWith, hinit, Loop.run_of_evals heval .diverged hfuel] at hok
  obtain ⟨i, m, hreach, hlast⟩ := heval.last
  obtain ⟨hc, ts, c, hsim⟩ := reaches_simulates hread hinit hreach
  have htail : SameTail { r with uriExt := none, argsStart := none } m.r := by
    have hrest := (reaches_coherent hreach hstarts.coherent).2
    obtain ⟨hstart, _⟩ := init_locals hinit
    rwa [hstart] at hrest
  cases hlast with
  | inl hleave =>
      obtain ⟨hguard, rfl⟩ := hleave
      exact hsim.leave_end hread hc htail (by simpa [complexUriLoop] using hguard) hok
  | inr hends =>
      obtain ⟨hguard, hne, hbody⟩ := hends
      cases x with
      | error e => cases hok
      | ok flow =>
          cases flow with
          | next t => exact absurd rfl (hne t)
          | ret exit => exact hsim.leave_exit hread hc htail (guard_iff.mp hguard) hbody hok

/-- What is found is determined by the buffer and the flag for an empty path. -/
theorem Found.unique {r' : Request} {ts' : List Token} {c' : Progress} {path path' : List UInt8}
    (h : Found buf mergeSlashes r ts c path) (h' : Found buf mergeSlashes r' ts' c' path')
    (hempty : r'.emptyPathInUri = r.emptyPathInUri) : ts' = ts ∧ c' = c ∧ path' = path := by
  obtain rfl := Option.some.inj (h'.tokens.symm.trans h.tokens)
  have hstart : Progress.start r' = Progress.start r := by
    simp [Progress.start, emptyPath, hempty]
  have habsorbed := h'.absorbed
  rw [hstart] at habsorbed
  obtain rfl := Option.some.inj (habsorbed.symm.trans h.absorbed)
  exact ⟨rfl, rfl, Option.some.inj (h'.finished.symm.trans h.finished)⟩

end

/-- Stage 2 with room for its output: it rejects, or returns what it found. -/
theorem ngxHttpParseComplexUri_found {buf out : List UInt8} (r : Request) (mergeSlashes : Bool)
    (hout : buf.length + 1 ≤ out.length) :
    (meaning mergeSlashes (.usual, emptyPath r) buf = none ∧
      ngxHttpParseComplexUri r buf out mergeSlashes = .error .parseError) ∨
    (meaning mergeSlashes (.usual, emptyPath r) buf ≠ none ∧
      ∃ last out', ngxHttpParseComplexUri r buf out mergeSlashes = .ok (last, out') ∧
        ReturnsFound buf mergeSlashes r last out') := by
  have hread := readsBuffer_sentinel lineFeed buf
  have hmeaning := parseComplexUriWith_meaning hread mergeSlashes r hout
  cases hpath : meaning mergeSlashes (.usual, emptyPath r) buf with
  | none =>
      rw [hpath] at hmeaning
      exact .inl ⟨rfl, hmeaning⟩
  | some path =>
      rw [hpath] at hmeaning
      obtain ⟨m, _, _, _, _, hresult⟩ := hmeaning
      obtain ⟨last, hleave, _⟩ := leaveAt_len buf (rawPath buf).length m.r m.u
      rw [hleave] at hresult
      obtain ⟨start, hinit, _⟩ := init_invariant (readWithLfSentinel buf) r hout
      exact .inr ⟨nofun, last, m.out, hresult, returnsFound hread hinit hresult⟩

/-- The request where `stop` ends the path. -/
def atStop (buf : List UInt8) (stop : Nat) (r : Request) : Request :=
  if buf[stop]? = some question then withQuery buf (stop + 1) r else r

theorem leaveAt_eq (buf : List UInt8) (stop : Nat) (r : Request) (u : Nat) :
    leaveAt buf stop r u = .ok (finishDone (atStop buf stop r) u) := by
  rw [atStop]
  by_cases hq : buf[stop]? = some question
  · rw [if_pos hq, leaveAt_query hq]
  · rw [if_neg hq, leaveAt_other hq]

@[simp] theorem finishDone_quotedUri (r : Request) (u : Nat) :
    (finishDone r u).quotedUri = r.quotedUri := by
  cases h : r.uriExt <;> simp [finishDone, h]

@[simp] theorem finishDone_plusInUri (r : Request) (u : Nat) :
    (finishDone r u).plusInUri = r.plusInUri := by
  cases h : r.uriExt <;> simp [finishDone, h]

@[simp] theorem atStop_quotedUri (buf : List UInt8) (stop : Nat) (r : Request) :
    (atStop buf stop r).quotedUri = r.quotedUri := by
  unfold atStop withQuery
  split_ifs <;> rfl

@[simp] theorem atStop_plusInUri (buf : List UInt8) (stop : Nat) (r : Request) :
    (atStop buf stop r).plusInUri = r.plusInUri := by
  unfold atStop withQuery
  split_ifs <;> rfl

theorem Progress.absorbAll_ext {mergeSlashes : Bool} {c c' : Progress} {s : List UInt8} {e : Nat}
    (hc : ∀ e, c.ext = some e → 1 ≤ e) (h : c.absorbAll mergeSlashes s = some c')
    (he : c'.ext = some e) : 1 ≤ e := by
  induction s generalizing c with
  | nil =>
      obtain rfl := Option.some.inj h
      exact hc e he
  | cons b s ih =>
      rw [Progress.absorbAll, List.foldlM_cons] at h
      obtain ⟨next, hnext, hrest⟩ := Option.bind_eq_some_iff.mp h
      refine ih (fun e' he' => ?_) hrest
      obtain ⟨c', _, rfl⟩ := Option.map_eq_some_iff.mp hnext
      rw [Progress.nextExt] at he'
      split at he'
      · cases he'
      · split at he'
        · rw [← Option.some.inj he']
          exact Nat.succ_pos _
        · exact hc e' he'

/-- A request that differs from the default one at most in `empty_path_in_uri`. -/
def Request.fresh (emptyPathInUri : Bool) : Request :=
  { Request.default with emptyPathInUri := emptyPathInUri }

/-- What stage 2 makes of `r` when it makes `last` of a fresh request. -/
def carry (r last : Request) : Request :=
  { uri := { len := last.uri.len, data := r.uri.data }
    args := if last.args = .default then r.args else last.args
    exten := if last.exten = .default then r.exten else last.exten
    uriExt := none
    argsStart := last.argsStart
    complexUri := r.complexUri
    quotedUri := r.quotedUri || last.quotedUri
    plusInUri := r.plusInUri || last.plusInUri
    emptyPathInUri := r.emptyPathInUri }

theorem finishDone_carry (buf : List UInt8) (stop u : Nat) (r : Request) (ts : List Token)
    {c : Progress} (hext : ∀ e, c.ext = some e → 1 ≤ e) :
    finishDone (atStop buf stop (arrived r ts c)) u =
      carry r (finishDone (atStop buf stop (arrived (.fresh r.emptyPathInUri) ts c)) u) := by
  have hargs : ∀ len, ({ len := len, data := stop + 1 } : NgxStr) ≠ .default :=
    fun len h => absurd (congrArg NgxStr.data h) (Nat.succ_ne_zero stop)
  by_cases hq : buf[stop]? = some question <;> by_cases hh : hash ∈ buf.drop (stop + 1) <;>
    cases he : c.ext with
    | none => simp [finishDone, atStop, withQuery, arrived, carry, Request.fresh,
        Request.default, hq, hh, he, hargs]
    | some e =>
        have hexten : ∀ len, ({ len := len, data := e } : NgxStr) ≠ .default :=
          fun len h => absurd (congrArg NgxStr.data h) (Nat.ne_of_gt (hext e he))
        simp [finishDone, atStop, withQuery, arrived, carry, Request.fresh, Request.default,
          hq, hh, he, hargs, hexten]

/-- Stage 2 depends on the request it is given in `empty_path_in_uri` only, and not at all on
what `out` holds before: it succeeds as it does on a fresh request, writes the same path, and
carries every other field along or sets it to the same value. -/
theorem ngxHttpParseComplexUri_carries (buf out out₀ : List UInt8) (r : Request)
    (mergeSlashes : Bool) (hout : buf.length + 1 ≤ out.length)
    (hout₀ : buf.length + 1 ≤ out₀.length) :
    match ngxHttpParseComplexUri (.fresh r.emptyPathInUri) buf out₀ mergeSlashes with
    | .error e => e = .parseError ∧
        ngxHttpParseComplexUri r buf out mergeSlashes = .error .parseError
    | .ok (last, out₁) => ∃ out', ngxHttpParseComplexUri r buf out mergeSlashes =
          .ok (carry r last, out') ∧
        out'.take last.uri.len = out₁.take last.uri.len := by
  have hempty : emptyPath (.fresh r.emptyPathInUri) = emptyPath r := rfl
  have hfresh := ngxHttpParseComplexUri_found (.fresh r.emptyPathInUri) mergeSlashes hout₀
  have hgiven := ngxHttpParseComplexUri_found r mergeSlashes hout
  rw [hempty] at hfresh
  obtain ⟨hnone, herror⟩ | ⟨hsome, last, out₁, hok, hfound⟩ := hfresh
  · rw [herror]
    refine ⟨rfl, ?_⟩
    cases hgiven with
    | inl hreject => exact hreject.2
    | inr haccept => exact absurd hnone haccept.1
  · rw [hok]
    obtain ⟨hnone, _⟩ | ⟨_, last', out', hok', hfound'⟩ := hgiven
    · exact absurd hnone hsome
    · obtain ⟨ts, c, path, hf, htake, hleave⟩ := hfound
      obtain ⟨ts', c', path', hf', htake', hleave'⟩ := hfound'
      obtain ⟨rfl, rfl, rfl⟩ := hf'.unique hf rfl
      have hext : ∀ e, c.ext = some e → 1 ≤ e := fun e he =>
        Progress.absorbAll_ext (fun e he => by cases he) hf.absorbed he
      rw [leaveAt_eq] at hleave hleave'
      obtain rfl := Except.ok.inj hleave
      obtain rfl := Except.ok.inj hleave'
      rw [finishDone_carry _ _ _ _ _ hext] at hok'
      refine ⟨out', hok', ?_⟩
      rw [finishDone_len, htake, htake']

/-- `/a.b?c` on a request that stage 1 has left, in an output buffer that is not clear. -/
theorem ngxHttpParseComplexUri_carries_query :
    ∃ out', ngxHttpParseComplexUri
        { Request.default with complexUri := true, argsStart := some 9, uriExt := some 7 }
        [slash, 0x61, dot, 0x62, question, 0x63] (List.replicate 7 0xff) true =
          .ok ({ Request.default with
            uri := { len := 4, data := 0 }, exten := { len := 1, data := 3 },
            argsStart := some 5, complexUri := true }, out') ∧
      out'.take 4 = [slash, 0x61, dot, 0x62] := by
  have h := ngxHttpParseComplexUri_carries [slash, 0x61, dot, 0x62, question, 0x63]
    (List.replicate 7 0xff) (List.replicate 7 0)
    { Request.default with complexUri := true, argsStart := some 9, uriExt := some 7 } true
    (by decide) (by decide)
  have hfresh : ngxHttpParseComplexUri (.fresh false)
      [slash, 0x61, dot, 0x62, question, 0x63] (List.replicate 7 0) true =
        .ok ({ Request.default with
          uri := { len := 4, data := 0 }, exten := { len := 1, data := 3 },
          argsStart := some 5 }, [slash, 0x61, dot, 0x62, 0, 0, 0]) := by
    decide +kernel
  have hempty : ({ Request.default with
      complexUri := true, argsStart := some 9, uriExt := some 7 } : Request).emptyPathInUri =
        false := rfl
  rw [hempty, hfresh] at h
  exact h

end UrlParseNginx
