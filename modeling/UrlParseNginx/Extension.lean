import UrlParseNginx.OutputShape
import UrlParseNginx.Termination

/-!
The extension that stage 2 records. An open extension starts just after a dot of the current
segment, so resolving a dot segment never leaves the cursor before it: the subtraction in
`finish_done` does not wrap, and what it records is the extension of the last segment.
-/
namespace UrlParseNginx
open Ascii PercentCoding DotSegments WhileLoop

/-- Stage 2 returns from the loop head `m`, with `v` bytes of output. -/
structure Returns (buf : List UInt8) (m : Locals) (k : Mode) (v : Nat) (last : Request)
    (out' : List UInt8) : Prop where
  state : m.state = stateOf k
  ends : m.p ≤ buf.length → m.ch = question ∨ m.ch = hash
  settles : Settles k m v
  out : out' = m.out
  len : last.uri.len = v
  exten : last.exten = (finishDone m.r v).exten

section
variable {read : Nat → UInt8} {buf : List UInt8} {mergeSlashes : Bool} {m : Locals}
  {last : Request} {out' : List UInt8}

theorem finishDone_exten {r r' : Request} (hext : r'.uriExt = r.uriExt)
    (hexten : r'.exten = r.exten) (u : Nat) :
    (finishDone r' u).exten = (finishDone r u).exten := by
  cases h : r.uriExt with
  | none => simp [finishDone, hext, h, hexten]
  | some e => simp [finishDone, hext, h]

theorem finishArgs_ok {r : Request} {u p : Nat} (h : finishArgs r buf u p = .ok last) :
    last.uri.len = u ∧ last.exten = (finishDone r u).exten := by
  cases hq : pastHash buf p with
  | none =>
      rw [finishArgs, hq] at h
      cases h
      exact ⟨finishDone_len r u, rfl⟩
  | some q =>
      cases hstart : r.argsStart with
      | none => simp [finishArgs, hq, hstart] at h
      | some a =>
          simp only [finishArgs, hq, hstart, Except.ok.injEq] at h
          subst h
          exact ⟨finishDone_len _ u, finishDone_exten (by rfl) (by rfl) u⟩

theorem Coherent.returns_end (h : Coherent m) (hp : ¬ m.p ≤ buf.length)
    (hend : endOfInput m = .ok (last, out')) :
    ∃ k v, Returns buf m k v last out' := by
  have core : ∀ k, m.state = stateOf k → ∃ k v, Returns buf m k v last out' := by
    intro k hs
    rw [endOfInput_eq hs] at hend
    obtain ⟨v, hset, hsettles⟩ | hset | ⟨hset, _⟩ := settle_cases hs h.within
    · rw [hset] at hend
      cases hend
      exact ⟨k, v, hs, fun hp' => absurd hp' hp, hsettles, rfl, finishDone_len _ v, rfl⟩
    · rw [hset] at hend
      cases hend
    · rw [hset] at hend
      cases hend
  cases hs : m.state with
  | usual => exact core .usual hs
  | slash => exact core .slash hs
  | dot => exact core .dot hs
  | dotDot => exact core .dotDot hs
  | quoted | quotedSecond => simp [endOfInput, hs] at hend

theorem Coherent.returns_exit (h : Coherent m) {exit : Exit}
    (hbody : (complexUriLoop read buf mergeSlashes).body m = .ok (.ret exit))
    (hexit : afterLoop buf (.ret exit) = .ok (last, out')) :
    ∃ k v, Returns buf m k v last out' := by
  obtain ⟨a, ⟨iteration, rfl⟩ | ⟨iteration, rfl⟩⟩ := h.ret hbody
  · cases iteration with
    | @done k v state ch settles =>
        cases hexit
        exact ⟨k, v, state, fun _ => .inr ch, settles, rfl, finishDone_len _ v, rfl⟩
  · cases iteration with
    | @args k v state ch settles =>
        simp only [afterLoop] at hexit
        cases hargs : finishArgs { m.r with argsStart := some m.p } buf v m.p with
        | error e =>
            rw [hargs] at hexit
            cases hexit
        | ok r' =>
            rw [hargs] at hexit
            cases hexit
            obtain ⟨hlen, hexten⟩ := finishArgs_ok hargs
            exact ⟨k, v, state, fun _ => .inl ch, settles, rfl, hlen,
              hexten.trans (finishDone_exten (by rfl) (by rfl) v)⟩

theorem Starts.returns {r : Request} {out : List UInt8} {start : Locals}
    (h : Starts read r start) (hinit : Locals.init read r out = .ok start)
    (hok : parseComplexUriWith read r buf out mergeSlashes = .ok (last, out')) :
    ∃ n m k v, (complexUriLoop read buf mergeSlashes).Reaches n start m ∧
      Returns buf m k v last out' := by
  obtain ⟨n, x, hn, heval⟩ := h.coherent.evals read buf mergeSlashes
  have hfuel : n ≤ 2 * buf.length := by
    have hle := h.potential_le buf.length
    omega
  simp only [parseComplexUriWith, hinit, Loop.run_of_evals heval .diverged hfuel] at hok
  obtain ⟨i, m, hreach, hlast⟩ := heval.last
  obtain ⟨hc, _⟩ := reaches_coherent hreach h.coherent
  cases hlast with
  | inl hleave =>
      obtain ⟨hguard, rfl⟩ := hleave
      have hp : ¬ m.p ≤ buf.length := by
        intro hp
        rw [guard_iff.mpr hp] at hguard
        cases hguard
      obtain ⟨k, v, hreturns⟩ := hc.returns_end hp hok
      exact ⟨i, m, k, v, hreach, hreturns⟩
  | inr hends =>
      obtain ⟨_, hne, hbody⟩ := hends
      cases x with
      | error e => cases hok
      | ok flow =>
          cases flow with
          | next t => exact absurd rfl (hne t)
          | ret exit =>
              obtain ⟨k, v, hreturns⟩ := hc.returns_exit hbody hok
              exact ⟨i, m, k, v, hreach, hreturns⟩

variable {segs : List (List UInt8)} {w : List UInt8}

/-- Resolving a pending dot segment leaves a path that an open extension still fits. -/
theorem Shape.settled {k : Mode} {v : Nat} (h : Shape segs w m) (hs : m.state = stateOf k)
    (hsettles : Settles k m v) :
    ∃ segs' w', m.out.take v = closed slash segs' ++ w' ∧ slash ∉ w' ∧
      ExtensionAt dot (closed slash segs').length w' m.r.uriExt := by
  obtain rfl := h.mode hs
  have hfinish := hsettles.finish
  rw [h.written] at hfinish
  cases finish_shape h.free hfinish with
  | inl hkept => exact ⟨segs, w, hkept, h.current, h.ext⟩
  | inr hempty =>
      obtain ⟨husual, segs', hpath⟩ := hempty
      refine ⟨segs', [], hpath, List.not_mem_nil, ?_⟩
      rw [h.ext.eq_none husual]
      exact extensionAt_nil

/-- What `finish_done` records of an extension that fits the path. -/
structure Recorded (path : List UInt8) (exten : NgxStr) : Prop where
  recorded : exten ≠ .default ↔ ∃ i, (lastSegment slash path)[i]? = some dot ∧
    (3 ≤ i ∨ ∃ b ∈ (lastSegment slash path).take (i + 1), b ≠ dot)
  start : exten ≠ .default →
    1 ≤ exten.data ∧ path[exten.data - 1]? = some dot ∧ dot ∉ path.drop exten.data
  stop : exten ≠ .default → exten.data + exten.len = path.length

theorem finishDone_records {r : Request} (hexten : r.exten = .default) (hw : slash ∉ w)
    (hext : ExtensionAt dot (closed slash segs).length w r.uriExt) :
    Recorded (closed slash segs ++ w) (finishDone r (closed slash segs ++ w).length).exten := by
  have hsome := hext.ne_none_iff
  cases h : r.uriExt with
  | none =>
      have hnone : (finishDone r (closed slash segs ++ w).length).exten = .default := by
        simp [finishDone, h, hexten]
      rw [hnone]
      refine ⟨?_, fun hne => absurd rfl hne, fun hne => absurd rfl hne⟩
      rw [lastSegment_closed hw, ← hsome, h]
      exact iff_of_false (fun hne => hne rfl) fun hne => hne rfl
  | some e =>
      rw [h] at hext hsome
      obtain ⟨hpos, hle, hdot, hlast, _⟩ := hext.position
      have hrecord : (finishDone r (closed slash segs ++ w).length).exten =
          { len := (closed slash segs ++ w).length - e, data := e } := by
        simp only [finishDone, h, wrappingSub, if_pos hle]
      have hne : (finishDone r (closed slash segs ++ w).length).exten ≠ .default := by
        rw [hrecord]
        intro hdefault
        have hzero : e = 0 := congrArg NgxStr.data hdefault
        omega
      refine ⟨?_, fun _ => ?_, fun _ => ?_⟩
      · rw [lastSegment_closed hw, ← hsome]
        exact iff_of_true hne (Option.some_ne_none e)
      · rw [hrecord]
        exact ⟨hpos, hdot, hlast⟩
      · rw [hrecord]
        exact Nat.add_sub_of_le hle

/-- What an open extension says of a loop head. -/
structure OpenExtension (m : Locals) : Prop where
  onlyUsual : m.resumes = .slash ∨ m.resumes = .dot ∨ m.resumes = .dotDot → m.r.uriExt = none
  inSegment : ∀ e, m.r.uriExt = some e →
    1 ≤ e ∧ e ≤ m.u ∧ m.out[e - 1]? = some dot ∧ slash ∉ m.written.drop e

/-- The calls of `finish_done` from a loop head subtract no more than the cursor. -/
structure NeverWraps (buf : List UInt8) (mergeSlashes : Bool) (m : Locals) : Prop where
  exit : ∀ a, complexUriArm mergeSlashes m = .ok (.done a) ∨
      complexUriArm mergeSlashes m = .ok (.args a) →
    ∀ e, a.r.uriExt = some e → e ≤ a.u
  ended : ¬ m.p ≤ buf.length → ∀ last out', endOfInput m = .ok (last, out') →
    ∀ e, m.r.uriExt = some e → e ≤ last.uri.len

theorem Shape.openExtension (h : Shape segs w m) (hc : Coherent m) : OpenExtension m := by
  refine ⟨fun hs => ?_, fun e he => ?_⟩
  · refine h.ext.eq_none fun husual => ?_
    have hresumes := h.resumes
    rw [husual] at hresumes
    rw [hresumes] at hs
    simp [stateOf] at hs
  · have hext := h.ext
    rw [he] at hext
    obtain ⟨hpos, hle, hdot, _, hsegment⟩ := hext.position
    rw [← h.written] at hle hdot hsegment
    rw [hc.length_written] at hle
    refine ⟨hpos, hle, ?_, fun hslash => h.current (hsegment slash hslash)⟩
    rwa [Locals.written, List.getElem?_take_of_lt (by omega)] at hdot

theorem Shape.ext_le {k : Mode} {v e : Nat} (h : Shape segs w m) (hs : m.state = stateOf k)
    (hsettles : Settles k m v) (he : m.r.uriExt = some e) : e ≤ v := by
  obtain ⟨segs', w', hpath, _, hext⟩ := h.settled hs hsettles
  rw [he] at hext
  have hle := hext.position.2.1
  rw [← hpath, List.length_take] at hle
  exact Nat.le_trans hle (Nat.min_le_left _ _)

/-- Every call of `finish_done` passes a cursor that settles the loop head. -/
theorem Coherent.neverWraps (hc : Coherent m)
    (hfits : ∀ k v e, m.state = stateOf k → Settles k m v → m.r.uriExt = some e → e ≤ v) :
    NeverWraps buf mergeSlashes m := by
  refine ⟨fun a harm e he => ?_, fun hp last out' hend e he => ?_⟩
  · have hends := complexUriArm_ends mergeSlashes hc.within hc.digit
    cases harm with
    | inl harm =>
        rw [harm] at hends
        cases hends with
        | ok iteration =>
            cases iteration with
            | done state ch settles => exact hfits _ _ e state settles he
    | inr harm =>
        rw [harm] at hends
        cases hends with
        | ok iteration =>
            cases iteration with
            | args state ch settles => exact hfits _ _ e state settles he
  · obtain ⟨k, v, hreturns⟩ := hc.returns_end hp hend
    rw [hreturns.len]
    exact hfits k v e hreturns.state hreturns.settles he

theorem Shape.records {k : Mode} {v : Nat} (h : Shape segs w m) (hc : Coherent m)
    (hreturns : Returns buf m k v last out') (hexten : m.r.exten = .default) :
    last.uri.len ≤ out'.length ∧ Recorded (out'.take last.uri.len) last.exten := by
  obtain ⟨segs', w', hpath, hw', hext⟩ := h.settled hreturns.state hreturns.settles
  have hle : v ≤ m.out.length := Nat.le_trans hreturns.settles.le hc.within
  have hlength : (closed slash segs' ++ w').length = v := by
    rw [← hpath, List.length_take, Nat.min_eq_left hle]
  have hrecords := finishDone_records hexten hw' hext
  rw [hlength] at hrecords
  rw [hreturns.len, hreturns.out, hreturns.exten, hpath]
  exact ⟨hle, hrecords⟩

end

/-- The extension that stage 2 records on a path that starts with a slash. At every loop head
an open extension follows a dot of the current segment, so no call of `finish_done` wraps;
and on success `exten` is set exactly when the last segment of the path has a dot that cannot
belong to a dot segment, and then runs from the last dot to the end. -/
theorem complexUri_extension (buf out : List UInt8) (r : Request) (mergeSlashes : Bool)
    (hbuf : buf.head? = some slash) (hempty : r.emptyPathInUri = false)
    (hexten : r.exten = .default) :
    (∃ start, Locals.init (readWithLfSentinel buf) r out = .ok start ∧
      ∀ n m, (complexUriLoop (readWithLfSentinel buf) buf mergeSlashes).Reaches n start m →
        OpenExtension m ∧ NeverWraps buf mergeSlashes m) ∧
    ∀ last out', ngxHttpParseComplexUri r buf out mergeSlashes = .ok (last, out') →
      last.uri.len ≤ out'.length ∧ Recorded (out'.take last.uri.len) last.exten := by
  obtain ⟨start, hinit⟩ := init_of_path (readWithLfSentinel buf) hempty out
  have hstarts := init_starts hinit
  obtain ⟨rest, rfl⟩ := List.head?_eq_some_iff.mp hbuf
  refine ⟨⟨start, hinit, fun n m hreach => ?_⟩, fun last out' hok => ?_⟩
  · cases n with
    | zero =>
        cases hreach
        have hnone := hstarts.ext
        refine ⟨⟨fun _ => hnone, fun e he => ?_⟩, hstarts.coherent.neverWraps ?_⟩
        · rw [hnone] at he
          cases he
        · intro k v e _ _ he
          rw [hnone] at he
          cases he
    | succ n =>
        obtain ⟨hc, segs, w, hshape⟩ := hstarts.shape hempty rfl hreach
        exact ⟨hshape.openExtension hc,
          hc.neverWraps fun k v e hs hsettles he => hshape.ext_le hs hsettles he⟩
  · obtain ⟨n, m, k, v, hreach, hreturns⟩ := hstarts.returns hinit hok
    cases n with
    | zero =>
        -- the first byte is a slash, so nothing returns from the first loop head
        cases hreach
        have hp : start.p ≤ (slash :: rest).length := by
          rw [hstarts.p, List.length_cons]
          exact Nat.succ_pos _
        have hch : start.ch = slash := hstarts.ch
        have hends := hreturns.ends hp
        rw [hch] at hends
        exact absurd hends (by decide)
    | succ n =>
        obtain ⟨hc, segs, w, hshape⟩ := hstarts.shape hempty rfl hreach
        obtain ⟨_, htail⟩ := reaches_coherent hreach hstarts.coherent
        exact hshape.records hc hreturns (htail.exten.trans (hstarts.exten.trans hexten))

/-- `/a%2E/..b.c`: the extension is `c`, the ninth byte of `/a./..b.c`. -/
theorem complexUri_extension_dots :
    Recorded [slash, 0x61, dot, slash, dot, dot, 0x62, dot, 0x63] { len := 1, data := 8 } := by
  have hrecords := (complexUri_extension
    [slash, 0x61, percent, 0x32, 0x45, slash, dot, dot, 0x62, dot, 0x63]
    (List.replicate 12 0) .default true rfl rfl rfl).2 _ _ rfl
  exact hrecords.2

end UrlParseNginx
