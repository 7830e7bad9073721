import UrlParseNginx.Termination

/-!
The byte that stage 2 reads past the end of its buffer. It is loaded into `ch` when the
cursor leaves the buffer, which ends the loop, and what follows the loop does not look at
`ch`. Two runs over cursors that agree inside the buffer therefore stay equal but for that
byte, and return the same.
-/
namespace UrlParseNginx
open Ascii WhileLoop

/-- Equal loop heads, but for the byte in `ch` once the cursor has left a buffer of
`length` bytes. -/
structure SameInside (length : Nat) (m m' : Locals) : Prop where
  rest : m' = { m with ch := m'.ch }
  ch : m.p ≤ length → m'.ch = m.ch

section
variable {read read' : Nat → UInt8} {buf : List UInt8} {mergeSlashes : Bool} {m m' : Locals}
  {length : Nat}

theorem SameInside.refl (length : Nat) (m : Locals) : SameInside length m m := ⟨rfl, fun _ => rfl⟩

theorem SameInside.p (h : SameInside length m m') : m'.p = m.p := by
  rw [h.rest]

theorem SameInside.eq (h : SameInside length m m') (hp : m.p ≤ length) : m' = m := by
  rw [h.rest, h.ch hp]

theorem SameInside.advance (hagree : ∀ j < length, read' j = read j) (m : Locals) :
    SameInside length (m.advance read) (m.advance read') :=
  ⟨rfl, fun hp => hagree m.p hp⟩

theorem endOfInput_ch (m : Locals) (ch : UInt8) :
    endOfInput { m with ch := ch } = endOfInput m := by
  cases hs : m.state with
  | usual | slash | quoted | quotedSecond => simp [endOfInput, hs]
  | dot => by_cases hu : m.u = 0 <;> simp [endOfInput, hs, Locals.back, hu, Except.map]
  | dotDot => simp [endOfInput, hs]

theorem body_lockstep (hagree : ∀ j < buf.length, read' j = read j) (m : Locals) :
    (∃ t t', (complexUriLoop read buf mergeSlashes).body m = .ok (.next t) ∧
      (complexUriLoop read' buf mergeSlashes).body m = .ok (.next t') ∧
      SameInside buf.length t t') ∨
    ((∀ t, (complexUriLoop read buf mergeSlashes).body m ≠ .ok (.next t)) ∧
      (complexUriLoop read' buf mergeSlashes).body m =
        (complexUriLoop read buf mergeSlashes).body m) := by
  rw [body_eq, body_eq]
  cases complexUriArm mergeSlashes m with
  | error e => exact .inr ⟨fun t => error_ne_next e t, rfl⟩
  | ok arm =>
      cases arm with
      | advance a => exact .inl ⟨_, _, rfl, rfl, .advance hagree a⟩
      | hold a => exact .inl ⟨a, a, rfl, rfl, .refl _ a⟩
      | done a => exact .inr ⟨fun t => ret_ne_next (Exit.done a) t, rfl⟩
      | args a => exact .inr ⟨fun t => ret_ne_next (Exit.args a) t, rfl⟩

theorem evals_lockstep (hagree : ∀ j < buf.length, read' j = read j) {n : Nat}
    {x : Except Failure (Flow Locals Exit)} (hsame : SameInside buf.length m m')
    (h : (complexUriLoop read buf mergeSlashes).Evals n m x) :
    ∃ y, (complexUriLoop read' buf mergeSlashes).Evals n m' y ∧
      x.bind (afterLoop buf) = y.bind (afterLoop buf) := by
  refine h.lockstep (R := SameInside buf.length)
    (Q := fun x y => x.bind (afterLoop buf) = y.bind (afterLoop buf))
    (fun s t hst => ?_) (fun s t hst hguard => ?_) (fun s t hst _ => ?_) hsame
  · simp only [complexUriLoop, hst.p]
  · obtain rfl := hst.eq (guard_iff.mp hguard)
    cases body_lockstep hagree t with
    | inl hnext => exact .inl hnext
    | inr hends =>
        refine .inr ⟨hends.1, fun t' => ?_, by rw [hends.2]⟩
        rw [hends.2]
        exact hends.1 t'
  · have hend : endOfInput t = endOfInput s := by
      rw [hst.rest]
      exact endOfInput_ch s t.ch
    exact hend.symm

theorem init_lockstep (hagree : ∀ j < length, read' j = read j) (r : Request)
    (out : List UInt8) :
    (∃ e, Locals.init read r out = .error e ∧ Locals.init read' r out = .error e) ∨
    ∃ m m', Locals.init read r out = .ok m ∧ Locals.init read' r out = .ok m' ∧
      SameInside length m m' := by
  simp only [Locals.init]
  generalize (if r.emptyPathInUri then _ else _ : Except Failure Locals) = before
  cases before with
  | error e => exact .inl ⟨e, rfl, rfl⟩
  | ok a => exact .inr ⟨_, _, rfl, rfl, .advance hagree a⟩

/-- Stage 2 depends on its cursor only inside the buffer. -/
theorem parseComplexUriWith_congr (hagree : ∀ j < buf.length, read' j = read j) (r : Request)
    (out : List UInt8) (mergeSlashes : Bool) :
    parseComplexUriWith read' r buf out mergeSlashes =
      parseComplexUriWith read r buf out mergeSlashes := by
  cases init_lockstep hagree r out with
  | inl herror =>
      obtain ⟨e, hinit, hinit'⟩ := herror
      simp only [parseComplexUriWith, hinit, hinit']
  | inr hok =>
      obtain ⟨m, m', hinit, hinit', hsame⟩ := hok
      have hstarts := init_starts hinit
      obtain ⟨n, x, hn, heval⟩ := hstarts.coherent.evals read buf mergeSlashes
      obtain ⟨y, heval', hresult⟩ := evals_lockstep hagree hsame heval
      have hfuel : n ≤ 2 * buf.length := by
        have hle := hstarts.potential_le buf.length
        omega
      simp only [parseComplexUriWith, hinit, hinit']
      rw [Loop.run_of_evals heval .diverged hfuel, Loop.run_of_evals heval' .diverged hfuel,
        hresult]

/-- The index that the iteration from `m` reads the input at. -/
def readIndex (mergeSlashes : Bool) (m : Locals) : Option Nat :=
  match complexUriArm mergeSlashes m with
  | .ok (.advance m') => some m'.p
  | _ => none

/-- The iteration `n` of the loop, from the loop head `m`, reads past the end of the buffer. -/
structure ReadsPastEnd (read : Nat → UInt8) (buf : List UInt8) (mergeSlashes : Bool)
    (start : Locals) (n : Nat) (m : Locals) (index : Nat) : Prop where
  reaches : (complexUriLoop read buf mergeSlashes).Reaches n start m
  guard : m.p ≤ buf.length
  reads : readIndex mergeSlashes m = some index
  outside : buf.length ≤ index

theorem readIndex_eq_some (read : Nat → UInt8) (buf : List UInt8) {index : Nat} (h : Coherent m)
    (hindex : readIndex mergeSlashes m = some index) :
    ∃ a : Locals, (complexUriLoop read buf mergeSlashes).body m = .ok (.next (a.advance read)) ∧
      a.p = m.p ∧ index = m.p := by
  have hends := complexUriArm_ends mergeSlashes h.within h.digit
  cases harm : complexUriArm mergeSlashes m with
  | error e => simp [readIndex, harm] at hindex
  | ok arm =>
      rw [harm] at hends
      cases arm with
      | advance a =>
          cases hends with
          | ok iteration =>
              have hp := iteration.p
              refine ⟨a, by rw [body_eq, harm]; rfl, hp, ?_⟩
              simpa [readIndex, harm, hp] using hindex.symm
      | hold a | done a | args a => simp [readIndex, harm] at hindex

/-- Reading past the end reads the first byte there, and ends the loop. -/
theorem ReadsPastEnd.last {start : Locals} {n index : Nat} (hstart : Coherent start)
    (h : ReadsPastEnd read buf mergeSlashes start n m index) :
    index = buf.length ∧
      ∃ m', (complexUriLoop read buf mergeSlashes).body m = .ok (.next m') ∧
        m'.ch = read buf.length ∧ (complexUriLoop read buf mergeSlashes).guard m' = false := by
  obtain ⟨hc, _⟩ := reaches_coherent h.reaches hstart
  obtain ⟨a, hbody, hp, hindex⟩ :=
    readIndex_eq_some read buf hc h.reads
  have hguard := h.guard
  have houtside := h.outside
  have hend : a.p = buf.length := by omega
  refine ⟨by omega, a.advance read, hbody, ?_, ?_⟩
  · rw [Locals.advance, hend]
  · simp [complexUriLoop, Locals.advance, hend]

theorem ReadsPastEnd.le {start : Locals} {n n' index index' : Nat} (hstart : Coherent start)
    (h : ReadsPastEnd read buf mergeSlashes start n m index)
    (h' : ReadsPastEnd read buf mergeSlashes start n' m' index') : n' ≤ n := by
  obtain ⟨_, t, hbody, _, hleft⟩ := h.last hstart
  obtain ⟨_, t', hbody', _, _⟩ := h'.last hstart
  have hreach := h.reaches.concat (guard_iff.mpr h.guard) hbody
  have hreach' := h'.reaches.concat (guard_iff.mpr h'.guard) hbody'
  exact Nat.le_of_succ_le_succ (hreach.le_of_left hleft hreach')

end

/-- The sentinel has no influence: whatever byte stands past the end of the buffer, stage 2
returns the same. Its loop reads past the end at most once, at the first index there, and
nothing looks at the byte that this gives. -/
theorem sentinel_unread (sentinel : UInt8) (buf out : List UInt8) (r : Request)
    (mergeSlashes : Bool) (hout : buf.length + 1 ≤ out.length) :
    parseComplexUriWith (readWithSentinel sentinel buf) r buf out mergeSlashes =
      ngxHttpParseComplexUri r buf out mergeSlashes ∧
    ∃ start, Locals.init (readWithSentinel sentinel buf) r out = .ok start ∧
      (buf ≠ [] → buf[0]? = some start.ch) ∧
      (∀ n m index,
        ReadsPastEnd (readWithSentinel sentinel buf) buf mergeSlashes start n m index →
        index = buf.length ∧ ∃ m',
          (complexUriLoop (readWithSentinel sentinel buf) buf mergeSlashes).body m =
            .ok (.next m') ∧
          m'.ch = sentinel ∧
          (complexUriLoop (readWithSentinel sentinel buf) buf mergeSlashes).guard m' = false ∧
          ∀ ch, endOfInput { m' with ch := ch } = endOfInput m') ∧
      ∀ n m index n' m' index',
        ReadsPastEnd (readWithSentinel sentinel buf) buf mergeSlashes start n m index →
        ReadsPastEnd (readWithSentinel sentinel buf) buf mergeSlashes start n' m' index' →
        n = n' := by
  obtain ⟨start, hinit, _⟩ := init_invariant (readWithSentinel sentinel buf) r hout
  have hstarts := init_starts hinit
  refine ⟨?_, start, hinit, fun hne => ?_, ?_, ?_⟩
  · refine parseComplexUriWith_congr (fun j hj => ?_) r out mergeSlashes
    rw [readsBuffer_sentinel sentinel buf j hj]
    exact (readsBuffer_sentinel lineFeed buf j hj).symm
  · have hpos : 0 < buf.length := List.length_pos_iff.mpr hne
    rw [hstarts.ch, readsBuffer_sentinel sentinel buf 0 hpos]
    exact List.getElem?_eq_getElem hpos
  · intro n m index h
    obtain ⟨hindex, m', hbody, hch, hleft⟩ := h.last hstarts.coherent
    refine ⟨hindex, m', hbody, ?_, hleft, endOfInput_ch m'⟩
    rw [hch]
    simp [readWithSentinel, List.getD]
  · intro n m index n' m' index' h h'
    exact Nat.le_antisymm (h'.le hstarts.coherent h) (h.le hstarts.coherent h')

/-- `/%2` is rejected whatever byte follows it, be it a hex digit. -/
theorem sentinel_unread_truncated :
    parseComplexUriWith (readWithSentinel 0x65 [slash, percent, 0x32]) .default
      [slash, percent, 0x32] [0, 0, 0, 0] true = .error .parseError := by
  rw [(sentinel_unread 0x65 [slash, percent, 0x32] [0, 0, 0, 0] .default true (by decide)).1]
  rfl

end UrlParseNginx
