import UrlParseNginx.ComplexUriIteration
import UrlParseNginx.Library.SegmentExtension

/-!
The output of stage 2 at every loop head. Once the leading slash has been copied, what is
written are closed segments and the bytes of the current one, the state says which of
`""`, `.` and `..` the current one is, and an open extension lies in it. Popping a `..`
therefore goes back to exactly the slash that opened the segment before it.
-/
namespace UrlParseNginx
open Ascii PercentCoding DotSegments WhileLoop

/-- A loop head after the closed segments `segs` and the bytes `w` of the current one. -/
structure Shape (segs : List (List UInt8)) (w : List UInt8) (m : Locals) : Prop where
  free : ∀ s ∈ segs, slash ∉ s
  current : slash ∉ w
  written : m.written = closed slash segs ++ w
  resumes : m.resumes = stateOf (modeOf dot w)
  ext : ExtensionAt dot (closed slash segs).length w m.r.uriExt

section
variable {read : Nat → UInt8} {buf : List UInt8} {mergeSlashes : Bool} {m m' : Locals}
  {segs : List (List UInt8)} {w : List UInt8}

theorem Shape.mode {k : Mode} (h : Shape segs w m) (hs : m.state = stateOf k) :
    k = modeOf dot w :=
  stateOf_injective ((resumes_stateOf hs).symm.trans h.resumes)

theorem Coherent.length_written (h : Coherent m) : m.written.length = m.u := by
  rw [Locals.written, List.length_take, Nat.min_eq_left h.within]

theorem nextRequest_uriExt (k : Mode) (m : Locals) :
    (nextRequest k m).uriExt =
      if k = .usual ∧ m.ch = slash then none
      else if k = .usual ∧ m.ch = dot then some (m.u + 1)
      else m.r.uriExt := by
  by_cases hplus : m.ch = plus
  · simp +decide [nextRequest, hplus]
  · simp only [nextRequest, hplus, ite_false]
    split
    · rfl
    · split <;> rfl

theorem Shape.same (h : Shape segs w m) (hwritten : m'.written = m.written)
    (hresumes : m'.resumes = m.resumes) (hext : m'.r.uriExt = m.r.uriExt) :
    Shape segs w m' :=
  ⟨h.free, h.current, hwritten.trans h.written, hresumes.trans h.resumes, hext ▸ h.ext⟩

/-- An iteration that follows the normalizer on the byte `b`. -/
theorem Shape.fed {b : UInt8} {c : Mode × List UInt8} (h : Shape segs w m)
    (hfeed : feed slash dot mergeSlashes (modeOf dot w, m.written) b = some c)
    (hwritten : m'.written = c.2) (hresumes : m'.resumes = stateOf c.1)
    (hslash : b = slash → m'.r.uriExt = none)
    (hother : b ≠ slash →
      ExtensionAt dot (closed slash segs).length (w ++ [b]) m'.r.uriExt) :
    ∃ segs' w', Shape segs' w' m' := by
  rw [h.written] at hfeed
  by_cases hb : b = slash
  · rw [hb, feed_sep slash_ne_dot segs h.free w, Option.map_eq_some_iff] at hfeed
    obtain ⟨segs', hpush, rfl⟩ := hfeed
    refine ⟨segs', [], push_forall h.free (fun _ _ => h.current) hpush, List.not_mem_nil, ?_,
      hresumes, ?_⟩
    · rw [hwritten, List.append_nil]
    · rw [hslash hb]
      exact extensionAt_nil
  · rw [feed_segment slash_ne_dot segs w hb, Option.some.injEq] at hfeed
    subst hfeed
    refine ⟨segs, w ++ [b], h.free, ?_, hwritten, hresumes, hother hb⟩
    simp [h.current, Ne.symm hb]

theorem Shape.write {k : Mode} (h : Shape segs w m) (hc : Coherent m) (hs : m.state = stateOf k)
    (hwrites : Writes mergeSlashes k m.ch) (hroom : m.u < m.out.length) :
    ∃ segs' w', Shape segs' w' (Locals.advance read { m with
      r := nextRequest k m
      state := stateOf (nextMode k m.ch)
      out := m.out.set m.u m.ch
      u := m.u + 1 }) := by
  obtain rfl := h.mode hs
  have hnone : modeOf dot w ≠ .usual → m.r.uriExt = none := h.ext.eq_none
  refine h.fed (feed_writes hwrites m.written) (Buffer.take_set_succ m.ch hroom)
    (resumes_stateOf rfl) (fun hslash => ?_) (fun hother => ?_)
  · have hext := nextRequest_uriExt (modeOf dot w) m
    by_cases husual : modeOf dot w = .usual
    · rwa [if_pos ⟨husual, hslash⟩] at hext
    · rw [if_neg fun h => husual h.1, if_neg fun h => husual h.1, hnone husual] at hext
      exact hext
  · have hext := nextRequest_uriExt (modeOf dot w) m
    rw [if_neg fun h => hother h.2] at hext
    by_cases hdot : modeOf dot w = .usual ∧ m.ch = dot
    · have hlength : (closed slash segs).length + w.length = m.u := by
        rw [← hc.length_written, h.written, List.length_append]
      rw [if_pos hdot, ← hlength] at hext
      simp only [Locals.advance, hext, hdot.2]
      exact extensionAt_dot hdot.1
    · rw [if_neg hdot] at hext
      simp only [Locals.advance, hext]
      exact h.ext.concat fun hch husual => hdot ⟨husual, hch⟩

theorem Shape.close {k : Mode} {v : Nat} (h : Shape segs w m) (hs : m.state = stateOf k)
    (hch : m.ch = slash) (hcloses : ¬ Writes mergeSlashes k m.ch) (hsettles : Settles k m v) :
    ∃ segs' w', Shape segs' w' (Locals.advance read { m with u := v, state := .slash }) := by
  obtain rfl := h.mode hs
  have hfeed := feed_slash hch hcloses m.written
  rw [hsettles.finish] at hfeed
  have husual : modeOf dot w ≠ .usual := fun hk => hcloses fun _ => .inl hk
  exact h.fed hfeed rfl rfl (fun _ => h.ext.eq_none husual) fun hother => absurd hch hother

theorem Shape.literal {v : UInt8} (h : Shape segs w m) (hlit : Literal v)
    (hroom : m.u < m.out.length) :
    ∃ segs' w', Shape segs' w' (Locals.advance read
      { m with ch := v, state := .usual, out := m.out.set m.u v, u := m.u + 1 }) := by
  have hne : v ≠ slash ∧ v ≠ dot := by
    obtain rfl | rfl | rfl := hlit <;> decide
  have hfeed : feed slash dot true (modeOf dot w, m.written) v = some (.usual, m.written ++ [v]) :=
    feed_literal hlit m.written
  exact h.fed hfeed (Buffer.take_set_succ v hroom) rfl (fun hslash => absurd hslash hne.1)
    fun _ => h.ext.concat fun hdot => absurd hdot hne.2

theorem Shape.next (h : Shape segs w m) (hc : Coherent m)
    (hbody : (complexUriLoop read buf mergeSlashes).body m = .ok (.next m')) :
    ∃ segs' w', Shape segs' w' m' := by
  obtain ⟨k, hk⟩ := hc.saved
  cases hc.next hbody with
  | inl hnext =>
      obtain ⟨a, iteration, rfl⟩ := hnext
      cases iteration with
      | write state ch writes room => exact h.write hc state writes room
      | close state ch closes settles => exact h.close state ch closes settles
      | escape state ch =>
          exact ⟨segs, w, h.same rfl (state.trans (resumes_stateOf state).symm) rfl⟩
      | firstDigit state digit =>
          exact ⟨segs, w, h.same rfl (by simp [Locals.resumes, Locals.advance, state]) rfl⟩
      | literal state digit value literal room => exact h.literal literal room
  | inr iteration =>
      cases iteration with
      | hold state digit value plain nonzero =>
          refine ⟨segs, w, h.same rfl ((resumes_stateOf hk).trans ?_) rfl⟩
          simp [Locals.resumes, state, hk]

/-- The first iteration copies the leading slash. -/
theorem Starts.first {r : Request} (h : Starts read r m) (hempty : r.emptyPathInUri = false)
    (hslash : read 0 = slash)
    (hbody : (complexUriLoop read buf mergeSlashes).body m = .ok (.next m')) :
    Shape [] [] m' := by
  have hch : m.ch = slash := h.ch.trans hslash
  have hu : m.u = 0 := by simpa [hempty] using h.u
  have husual : ∀ {k : Mode}, m.state = stateOf k → k = .usual := fun hs =>
    stateOf_injective (hs.symm.trans h.state)
  cases h.coherent.next hbody with
  | inl hnext =>
      obtain ⟨a, iteration, rfl⟩ := hnext
      cases iteration with
      | write state ch writes room =>
          obtain rfl := husual state
          refine ⟨by simp, List.not_mem_nil, ?_, ?_, ?_⟩
          · have hwritten := Buffer.take_set_succ m.ch room
            simpa [Locals.written, Locals.advance, hu, hch, closed] using hwritten
          · simp [Locals.resumes, Locals.advance, nextMode, hch, stateOf, modeOf]
          · have hext := nextRequest_uriExt .usual m
            rw [if_pos ⟨rfl, hch⟩] at hext
            simp only [Locals.advance, hext]
            exact extensionAt_nil
      | close state ch closes settles => exact absurd (fun _ => .inl (husual state)) closes
      | escape state ch => exact absurd (hch.symm.trans ch) (by decide)
      | firstDigit state digit => exact absurd (h.state.symm.trans state) (by decide)
      | literal state digit value literal room =>
          exact absurd (h.state.symm.trans state) (by decide)
  | inr iteration =>
      cases iteration with
      | hold state digit value plain nonzero =>
          exact absurd (h.state.symm.trans state) (by decide)

theorem Starts.shape {r : Request} {start : Locals} (h : Starts read r start)
    (hempty : r.emptyPathInUri = false) (hslash : read 0 = slash) {n : Nat}
    (hreach : (complexUriLoop read buf mergeSlashes).Reaches (n + 1) start m) :
    Coherent m ∧ ∃ segs w, Shape segs w m := by
  cases hreach with
  | step guard body rest =>
      have hfirst := h.first hempty hslash body
      refine rest.invariant (I := fun m => Coherent m ∧ ∃ segs w, Shape segs w m) ?_
        ⟨h.coherent.body body, [], [], hfirst⟩
      intro s s' hs _ hbody
      obtain ⟨hc, segs, w, hshape⟩ := hs
      exact ⟨hc.body hbody, hshape.next hc hbody⟩

/-- What a state says of the end of the output; `written.drop a` is `out[a..u]`. -/
structure OutputTail (m : Locals) : Prop where
  within : m.u ≤ m.out.length
  root : m.out[0]? = some slash ∧ 1 ≤ m.u
  afterSlash : m.resumes = .slash → m.written.drop (m.u - 1) = [slash]
  afterDot : m.resumes = .dot → m.written.drop (m.u - 2) = [slash, dot]
  afterDotDot : m.resumes = .dotDot → m.written.drop (m.u - 3) = [slash, dot, dot]
  inSegment : m.resumes = .usual →
    lastSegment slash m.written ≠ [] ∧ lastSegment slash m.written ≠ [dot] ∧
      lastSegment slash m.written ≠ [dot, dot]

/-- The current segment and the slash before it. -/
theorem Shape.drop (h : Shape segs w m) (hc : Coherent m) :
    m.written.drop (m.u - (w.length + 1)) = slash :: w := by
  obtain ⟨front, hfront⟩ := closed_last slash segs
  have hsplit : m.written = front ++ slash :: w := by
    rw [h.written, hfront, List.append_assoc, List.singleton_append]
  have hlength : m.u - (w.length + 1) = front.length := by
    rw [← hc.length_written, hsplit, List.length_append, List.length_cons]
    omega
  rw [hlength, hsplit, List.drop_left]

theorem Shape.tail (h : Shape segs w m) (hc : Coherent m) : OutputTail m := by
  have hdrop := h.drop hc
  have hmode : ∀ {k : Mode}, m.resumes = stateOf k → modeOf dot w = k := fun hs =>
    stateOf_injective (h.resumes.symm.trans hs)
  refine ⟨hc.within, ?_, fun hs => ?_, fun hs => ?_, fun hs => ?_, fun hs => ?_⟩
  · have hout : m.out = slash :: (segs.flatMap (· ++ [slash]) ++ w ++ m.out.drop m.u) := by
      conv_lhs => rw [← List.take_append_drop m.u m.out, ← Locals.written, h.written]
      rfl
    refine ⟨by rw [hout]; rfl, ?_⟩
    rw [← hc.length_written, h.written]
    exact Nat.succ_pos _
  · obtain rfl : w = [] := modeOf_eq_slash.mp (hmode (k := .slash) hs)
    exact hdrop
  · obtain rfl : w = [dot] := modeOf_eq_dot.mp (hmode (k := .dot) hs)
    exact hdrop
  · obtain rfl : w = [dot, dot] := modeOf_eq_dotDot.mp (hmode (k := .dotDot) hs)
    exact hdrop
  · rw [h.written, lastSegment_closed h.current]
    exact modeOf_eq_usual.mp (hmode (k := .usual) hs)

/-- `v` bytes of output end with the slash that opened the segment before a final `/..`. -/
def Opens (m : Locals) (v : Nat) : Prop :=
  ∃ front segment, slash ∉ segment ∧
    m.written = front ++ slash :: segment ++ [slash, dot, dot] ∧
    m.out.take v = front ++ [slash] ∧ v = front.length + 1

/-- The cursor that resolving `..` ends with: an error when nothing precedes `/..`. -/
def PopsTo (m : Locals) (cursor : Except Failure Nat) : Prop :=
  (m.written = [slash, dot, dot] → cursor = .error .parseError) ∧
  (m.written ≠ [slash, dot, dot] → ∃ v, cursor = .ok v ∧ Opens m v)

/-- Both places that resolve `..`: `checked_sub(4)`, the search through `out[..=start]`, the
arm on a delimiter and the end of the input. -/
structure Resolves (mergeSlashes : Bool) (m : Locals) : Prop where
  root : m.u < 4 ↔ m.written = [slash, dot, dot]
  found : 4 ≤ m.u → m.u - 4 < m.out.length ∧
    ∃ i, Buffer.rposition (· == slash) (m.out.take (m.u - 4 + 1)) = some i ∧ Opens m (i + 1)
  delimited : m.ch = slash ∨ m.ch = question ∨ m.ch = hash →
    PopsTo m ((complexUriArm mergeSlashes m).map (·.locals.u))
  ended : PopsTo m ((endOfInput m).map (·.1.uri.len))

theorem Shape.pops (h : Shape segs [dot, dot] m) (hc : Coherent m) :
    (m.u < 4 ↔ m.written = [slash, dot, dot]) ∧ PopsTo m (backwardsScan m.out m.u) := by
  have hpop := popOutput_closed dot segs h.free
  rw [← h.written] at hpop
  have hlength := hc.length_written
  have hscan := backwardsScan_eq hc.within
  obtain rfl | ⟨rest, segment, rfl⟩ := List.eq_nil_or_concat' segs
  · -- nothing is closed but the root
    have hroot : m.written = [slash, dot, dot] := h.written
    rw [hroot] at hlength
    have hlt : m.u < 4 := by
      rw [← hlength]
      decide
    refine ⟨iff_of_true hlt hroot, fun _ => ?_, fun hne => absurd hroot hne⟩
    simp [backwardsScan, hlt]
  · obtain ⟨front, hfront⟩ := closed_last slash rest
    have hwritten : m.written = front ++ slash :: segment ++ [slash, dot, dot] := by
      rw [h.written, closed_concat, hfront]
      simp
    have hlong : 4 ≤ m.u := by
      rw [← hlength, hwritten]
      simp only [List.length_append, List.length_cons, List.length_nil]
      omega
    have hne : m.written ≠ [slash, dot, dot] := by
      intro hroot
      rw [hroot] at hlength
      simp only [List.length_cons, List.length_nil] at hlength
      omega
    refine ⟨iff_of_false (Nat.not_lt.mpr hlong) hne, fun hroot => absurd hroot hne, fun _ => ?_⟩
    rw [if_neg (by simp), List.dropLast_concat, hfront] at hpop
    cases hscan with
    | inl hnone => exact absurd (hpop.symm.trans hnone.1) (by simp)
    | inr hsome =>
        obtain ⟨v, hv, hout, hok⟩ := hsome
        have htake : m.out.take v = front ++ [slash] :=
          Option.some.inj (hout.symm.trans hpop)
        have hcursor : v = front.length + 1 := by
          have hmin := congrArg List.length htake
          have hwithin := hc.within
          simp only [List.length_take, List.length_append, List.length_cons,
            List.length_nil] at hmin
          omega
        refine ⟨v, hok, front, segment, h.free segment (by simp), hwritten, htake, hcursor⟩

/-- The search that a successful scan has made. -/
theorem backwardsScan_ok {out : List UInt8} {u v : Nat} (h : backwardsScan out u = .ok v) :
    u - 4 < out.length ∧
      ∃ i, Buffer.rposition (· == slash) (out.take (u - 4 + 1)) = some i ∧ v = i + 1 := by
  by_cases h4 : u < 4
  · simp [backwardsScan, h4] at h
  · by_cases hlt : u - 4 < out.length
    · refine ⟨hlt, ?_⟩
      cases hr : Buffer.rposition (· == slash) (out.take (u - 4 + 1)) with
      | none => simp [backwardsScan, h4, hlt, hr] at h
      | some i =>
          refine ⟨i, rfl, ?_⟩
          simpa [backwardsScan, h4, hlt, hr] using h.symm
    · simp [backwardsScan, h4, hlt] at h

theorem arm_dotDot (hs : m.state = .dotDot)
    (hch : m.ch = slash ∨ m.ch = question ∨ m.ch = hash) :
    (complexUriArm mergeSlashes m).map (·.locals.u) = backwardsScan m.out m.u := by
  have harm : complexUriArm mergeSlashes m = dotDotArm m := by simp [complexUriArm, hs]
  have husual : usual m.ch = false := by
    obtain hch | hch | hch := hch <;> rw [hch] <;> decide
  rw [harm, dotDotArm, if_neg (by simp [husual]), if_pos hch]
  cases backwardsScan m.out m.u with
  | error e => rfl
  | ok v =>
      simp only [Except.map]
      split
      · rfl
      · split <;> rfl

theorem endOfInput_dotDot (hs : m.state = .dotDot) :
    (endOfInput m).map (·.1.uri.len) = backwardsScan m.out m.u := by
  simp only [endOfInput, hs]
  cases backwardsScan m.out m.u with
  | error e => rfl
  | ok v => simp only [Except.map, finishDone_len]

theorem Shape.dotDot (h : Shape segs w m) (hc : Coherent m) (hs : m.state = .dotDot) :
    Resolves mergeSlashes m := by
  obtain rfl : w = [dot, dot] := modeOf_eq_dotDot.mp (h.mode (k := .dotDot) hs).symm
  obtain ⟨hroot, hpops⟩ := h.pops hc
  refine ⟨hroot, fun hlong => ?_, fun hch => ?_, ?_⟩
  · obtain ⟨v, hok, hopens⟩ := hpops.2 fun h => Nat.not_lt.mpr hlong (hroot.mpr h)
    obtain ⟨hlt, i, hi, rfl⟩ := backwardsScan_ok hok
    exact ⟨hlt, i, hi, hopens⟩
  · rw [arm_dotDot hs hch]
    exact hpops
  · rw [endOfInput_dotDot hs]
    exact hpops

theorem init_of_path (read : Nat → UInt8) {r : Request} (hempty : r.emptyPathInUri = false)
    (out : List UInt8) : ∃ start, Locals.init read r out = .ok start := by
  simp [Locals.init, hempty, Except.map]

end

/-- On a path that starts with a slash, every loop head after the first byte has the tail of
output that its state stands for, and a `..` is resolved to just after the slash that opened
the segment before it, or rejected at the root. -/
theorem complexUri_output (buf out : List UInt8) (r : Request) (mergeSlashes : Bool)
    (hbuf : buf.head? = some slash) (hempty : r.emptyPathInUri = false) :
    ∃ start, Locals.init (readWithLfSentinel buf) r out = .ok start ∧
      ∀ n m, (complexUriLoop (readWithLfSentinel buf) buf mergeSlashes).Reaches (n + 1) start m →
        OutputTail m ∧ (m.state = .dotDot → Resolves mergeSlashes m) := by
  obtain ⟨start, hinit⟩ := init_of_path (readWithLfSentinel buf) hempty out
  refine ⟨start, hinit, ?_⟩
  intro n m hreach
  have hslash : readWithLfSentinel buf 0 = slash := by
    obtain ⟨rest, rfl⟩ := List.head?_eq_some_iff.mp hbuf
    rfl
  obtain ⟨hc, segs, w, hshape⟩ := (init_starts hinit).shape hempty hslash hreach
  exact ⟨hshape.tail hc, hshape.dotDot hc⟩

/-- At the end of `/a/..` the cursor goes back to just after the first slash. -/
theorem complexUri_output_dotDot :
    ∃ start m, Locals.init (readWithLfSentinel [slash, 0x61, slash, dot, dot]) .default
        (List.replicate 6 0) = .ok start ∧
      (complexUriLoop (readWithLfSentinel [slash, 0x61, slash, dot, dot])
        [slash, 0x61, slash, dot, dot] true).Reaches 5 start m ∧
      m.state = .dotDot ∧
      endOfInput m = .ok ({ Request.default with uri := { len := 1, data := 0 } }, m.out) ∧
      OutputTail m ∧ Resolves true m := by
  obtain ⟨start, hinit, hheads⟩ := complexUri_output [slash, 0x61, slash, dot, dot]
    (List.replicate 6 0) .default true rfl rfl
  obtain rfl := Except.ok.inj hinit
  refine ⟨_, _, rfl, .step rfl rfl (.step rfl rfl (.step rfl rfl (.step rfl rfl
    (.step rfl rfl .refl)))), rfl, rfl, ?_⟩
  have hhead := hheads 4 _
    (.step rfl rfl (.step rfl rfl (.step rfl rfl (.step rfl rfl (.step rfl rfl .refl)))))
  exact ⟨hhead.1, hhead.2 rfl⟩

end UrlParseNginx
