import UrlParseNginx.ComplexUriMeaning

/-!
What one iteration of stage 2 can do, said once for every result about runs: the
eight ways in which an arm ends, the error that rejects, and the only panics, which
need a full buffer or a `.` that was never written.
-/
namespace UrlParseNginx
open Ascii PercentCoding DotSegments WhileLoop

def Arm.locals : Arm → Locals
  | .advance m | .hold m | .done m | .args m => m

/-- A byte that no state treats as syntax of its own. -/
def PlainByte (ch : UInt8) : Prop := ch ≠ percent ∧ ch ≠ question ∧ ch ≠ hash

/-- Resolving a pending dot segment leaves the cursor at `v`. -/
structure Settles (k : Mode) (m : Locals) (v : Nat) : Prop where
  le : v ≤ m.u
  finish : finish slash (k, m.written) = some (m.out.take v)

inductive Iteration (mergeSlashes : Bool) (m : Locals) : Arm → Prop
  | write {k : Mode} (state : m.state = stateOf k) (ch : PlainByte m.ch)
      (writes : Writes mergeSlashes k m.ch) (room : m.u < m.out.length) :
      Iteration mergeSlashes m (.advance { m with
        r := nextRequest k m
        state := stateOf (nextMode k m.ch)
        out := m.out.set m.u m.ch
        u := m.u + 1 })
  | close {k : Mode} {v : Nat} (state : m.state = stateOf k) (ch : m.ch = slash)
      (closes : ¬ Writes mergeSlashes k m.ch) (settles : Settles k m v) :
      Iteration mergeSlashes m (.advance { m with u := v, state := .slash })
  | escape {k : Mode} (state : m.state = stateOf k) (ch : m.ch = percent) :
      Iteration mergeSlashes m (.advance { m with quotedState := m.state, state := .quoted })
  | args {k : Mode} {v : Nat} (state : m.state = stateOf k) (ch : m.ch = question)
      (settles : Settles k m v) :
      Iteration mergeSlashes m (.args { m with u := v, r.argsStart := some m.p })
  | done {k : Mode} {v : Nat} (state : m.state = stateOf k) (ch : m.ch = hash)
      (settles : Settles k m v) : Iteration mergeSlashes m (.done { m with u := v })
  | firstDigit {x : UInt8} (state : m.state = .quoted) (digit : hexValue m.ch = some x) :
      Iteration mergeSlashes m
        (.advance { m with r.quotedUri := true, decoded := x, state := .quotedSecond })
  | literal {y v : UInt8} (state : m.state = .quotedSecond) (digit : hexValue m.ch = some y)
      (value : v = m.decoded * 16 + y) (literal : Literal v) (room : m.u < m.out.length) :
      Iteration mergeSlashes m
        (.advance { m with ch := v, state := .usual, out := m.out.set m.u v, u := m.u + 1 })
  | hold {y v : UInt8} (state : m.state = .quotedSecond) (digit : hexValue m.ch = some y)
      (value : v = m.decoded * 16 + y) (plain : PlainByte v) (nonzero : v ≠ nul) :
      Iteration mergeSlashes m (.hold { m with
        r.plusInUri := m.r.plusInUri || v = plus
        ch := v
        state := m.quotedState })

/-- What an arm ends in: one of the iterations, the error, or a panic that the bounds of
the cursor exclude. -/
inductive ArmEnds (mergeSlashes : Bool) (m : Locals) : Except Failure Arm → Prop
  | ok {arm : Arm} (iteration : Iteration mergeSlashes m arm) : ArmEnds mergeSlashes m (.ok arm)
  | reject : ArmEnds mergeSlashes m (.error .parseError)
  | panic (full : m.u = m.out.length ∨ (m.state = .dot ∧ m.u = 0)) :
      ArmEnds mergeSlashes m (.error .panic)

section
variable {mergeSlashes : Bool} {m : Locals} {k : Mode}

theorem settle_cases (hs : m.state = stateOf k) (hu : m.u ≤ m.out.length) :
    (∃ v, settle m = .ok { m with u := v } ∧ Settles k m v) ∨
      settle m = .error .parseError ∨ (settle m = .error .panic ∧ k = .dot ∧ m.u = 0) := by
  by_cases hzero : k = .dot ∧ m.u = 0
  · obtain ⟨rfl, hzero⟩ := hzero
    exact .inr (.inr ⟨by simp [settle, hs, stateOf, Locals.back, hzero], rfl, hzero⟩)
  · have hdot : k = .dot → 1 ≤ m.u := by
      intro hk
      have hne : m.u ≠ 0 := fun h => hzero ⟨hk, h⟩
      omega
    cases settle_eq hs hu hdot with
    | inl hsettle => exact .inr (.inl hsettle.2)
    | inr hsettle =>
        obtain ⟨v, hle, hfinish, hset⟩ := hsettle
        exact .inl ⟨v, hset, hle, hfinish⟩

/-- An arm that resolves the pending dot segment and then ends as `f` says. -/
theorem ArmEnds.settled {f : Locals → Arm} (hs : m.state = stateOf k)
    (hu : m.u ≤ m.out.length)
    (hf : ∀ v, Settles k m v → Iteration mergeSlashes m (f { m with u := v })) :
    ArmEnds mergeSlashes m ((settle m).map f) := by
  obtain ⟨v, hset, hsettles⟩ | hset | ⟨hset, hk, hzero⟩ := settle_cases hs hu
  · rw [hset]
    exact .ok (hf v hsettles)
  · rw [hset]
    exact .reject
  · rw [hset]
    refine .panic (.inr ⟨?_, hzero⟩)
    rw [hs, hk, stateOf]

theorem ArmEnds.written {m₁ : Locals} (hu : m₁.u ≤ m₁.out.length) (hu₁ : m₁.u = m.u)
    (hout : m₁.out = m.out)
    (hwrite : m.u < m.out.length → Iteration mergeSlashes m
      (.advance { m₁ with out := m₁.out.set m₁.u m₁.ch, u := m₁.u + 1 })) :
    ArmEnds mergeSlashes m (m₁.emit.map .advance) := by
  rw [hu₁, hout] at hu
  by_cases hroom : m.u < m.out.length
  · rw [Locals.emit_eq (by rw [hu₁, hout]; exact hroom)]
    exact .ok (hwrite hroom)
  · have hfull : m₁.emit = .error .panic := by
      simp [Locals.emit, Locals.write, hu₁, hout, hroom]
    rw [hfull]
    exact .panic (.inl (by omega))

theorem ArmEnds.core (hs : m.state = stateOf k) (hu : m.u ≤ m.out.length) :
    ArmEnds mergeSlashes m (complexUriArm mergeSlashes m) := by
  by_cases hpercent : m.ch = percent
  · rw [arm_percent mergeSlashes hs hpercent]
    exact .ok (.escape hs hpercent)
  · by_cases hquestion : m.ch = question
    · rw [arm_question mergeSlashes hs hquestion]
      exact .settled hs hu fun v hsettles => .args hs hquestion hsettles
    · by_cases hhash : m.ch = hash
      · rw [arm_hash mergeSlashes hs hhash]
        exact .settled hs hu fun v hsettles => .done hs hhash hsettles
      · have hplain : PlainByte m.ch := ⟨hpercent, hquestion, hhash⟩
        by_cases hwrites : Writes mergeSlashes k m.ch
        · rw [arm_writes hs hplain hwrites]
          exact .written hu rfl rfl (.write hs hplain hwrites)
        · have hslash := slash_of_closes hwrites
          rw [arm_slash hs hslash hwrites]
          exact .settled hs hu fun v hsettles => .close hs hslash hwrites hsettles

theorem ArmEnds.quoted (hs : m.state = .quoted) :
    ArmEnds mergeSlashes m (complexUriArm mergeSlashes m) := by
  rw [arm_quoted mergeSlashes hs]
  cases hx : hexValue m.ch with
  | none => exact .reject
  | some x => exact .ok (.firstDigit hs hx)

theorem ArmEnds.quotedSecond (hs : m.state = .quotedSecond) (hu : m.u ≤ m.out.length)
    (hdigit : m.decoded < 16) : ArmEnds mergeSlashes m (complexUriArm mergeSlashes m) := by
  rw [arm_quotedSecond mergeSlashes hs hdigit]
  cases hy : hexValue m.ch with
  | none => exact .reject
  | some y =>
      simp only
      generalize hv : m.decoded * 16 + y = v
      by_cases hlit : Literal v
      · rw [if_pos hlit]
        exact .written hu rfl rfl (.literal hs hy hv.symm hlit)
      · rw [if_neg hlit]
        by_cases hnul : v = nul
        · rw [if_pos hnul]
          exact .reject
        · rw [if_neg hnul]
          have hplain : PlainByte v := by simpa [Literal, PlainByte] using hlit
          exact .ok (.hold hs hy hv.symm hplain hnul)

theorem complexUriArm_ends (mergeSlashes : Bool) (hu : m.u ≤ m.out.length)
    (hdigit : m.state = .quotedSecond → m.decoded < 16) :
    ArmEnds mergeSlashes m (complexUriArm mergeSlashes m) := by
  cases hs : m.state with
  | usual => exact .core (k := .usual) hs hu
  | slash => exact .core (k := .slash) hs hu
  | dot => exact .core (k := .dot) hs hu
  | dotDot => exact .core (k := .dotDot) hs hu
  | quoted => exact .quoted hs
  | quotedSecond => exact .quotedSecond hs hu (hdigit hs)

/-- The state that goes on after an escape, or else the state itself. -/
def Locals.resumes (m : Locals) : State :=
  match m.state with
  | .quoted | .quotedSecond => m.quotedState
  | state => state

theorem resumes_stateOf (hs : m.state = stateOf k) : m.resumes = stateOf k := by
  cases k <;> simp [Locals.resumes, hs, stateOf]

theorem stateOf_injective {k k' : Mode} (h : stateOf k = stateOf k') : k = k' := by
  cases k <;> cases k' <;> first | rfl | cases h

/-- What the case analysis needs of a loop head: the cursor is in the buffer, and an escape
goes back to a copying state with a digit in hand. -/
structure Coherent (m : Locals) : Prop where
  within : m.u ≤ m.out.length
  saved : ∃ k, m.quotedState = stateOf k
  digit : m.state = .quotedSecond → m.decoded < 16

variable {read : Nat → UInt8} {buf : List UInt8} {m' : Locals}

theorem arm_of_body {flow : Flow Locals Exit}
    (hbody : (complexUriLoop read buf mergeSlashes).body m = .ok flow) :
    ∃ arm, complexUriArm mergeSlashes m = .ok arm ∧ arm.flow read = flow := by
  rw [body_eq] at hbody
  cases harm : complexUriArm mergeSlashes m with
  | error e =>
      rw [harm] at hbody
      cases hbody
  | ok arm =>
      rw [harm] at hbody
      exact ⟨arm, rfl, Except.ok.inj hbody⟩

theorem arm_of_body_error {e : Failure}
    (hbody : (complexUriLoop read buf mergeSlashes).body m = .error e) :
    complexUriArm mergeSlashes m = .error e := by
  rw [body_eq] at hbody
  cases harm : complexUriArm mergeSlashes m with
  | error e' =>
      rw [harm] at hbody
      cases hbody
      rfl
  | ok arm =>
      rw [harm] at hbody
      cases hbody

theorem Coherent.flow (h : Coherent m) {flow : Flow Locals Exit}
    (hbody : (complexUriLoop read buf mergeSlashes).body m = .ok flow) :
    ∃ arm, Iteration mergeSlashes m arm ∧ arm.flow read = flow := by
  have hends := complexUriArm_ends mergeSlashes h.within h.digit
  obtain ⟨arm, harm, hflow⟩ := arm_of_body hbody
  rw [harm] at hends
  cases hends with
  | ok iteration => exact ⟨arm, iteration, hflow⟩

theorem Coherent.next (h : Coherent m)
    (hbody : (complexUriLoop read buf mergeSlashes).body m = .ok (.next m')) :
    (∃ a, Iteration mergeSlashes m (.advance a) ∧ m' = a.advance read) ∨
      Iteration mergeSlashes m (.hold m') := by
  obtain ⟨arm, iteration, hflow⟩ := h.flow hbody
  cases arm with
  | advance a =>
      cases hflow
      exact .inl ⟨a, iteration, rfl⟩
  | hold a =>
      cases hflow
      exact .inr iteration
  | done a | args a => cases hflow

theorem Coherent.ret (h : Coherent m) {exit : Exit}
    (hbody : (complexUriLoop read buf mergeSlashes).body m = .ok (.ret exit)) :
    ∃ a, (Iteration mergeSlashes m (.done a) ∧ exit = .done a) ∨
      (Iteration mergeSlashes m (.args a) ∧ exit = .args a) := by
  obtain ⟨arm, iteration, hflow⟩ := h.flow hbody
  cases arm with
  | advance a | hold a => cases hflow
  | done a =>
      cases hflow
      exact ⟨a, .inl ⟨iteration, rfl⟩⟩
  | args a =>
      cases hflow
      exact ⟨a, .inr ⟨iteration, rfl⟩⟩

theorem stateOf_ne_quotedSecond (k : Mode) : stateOf k ≠ .quotedSecond := by
  cases k <;> simp [stateOf]

theorem Coherent.body (h : Coherent m)
    (hbody : (complexUriLoop read buf mergeSlashes).body m = .ok (.next m')) :
    Coherent m' := by
  obtain ⟨k, hk⟩ := h.saved
  cases h.next hbody with
  | inl hnext =>
      obtain ⟨a, iteration, rfl⟩ := hnext
      cases iteration with
      | write state ch writes room =>
          refine ⟨?_, h.saved, fun hs => absurd hs (stateOf_ne_quotedSecond _)⟩
          rw [Locals.advance, List.length_set]
          exact room
      | close state ch closes settles =>
          exact ⟨Nat.le_trans settles.le h.within, h.saved, fun hs => by cases hs⟩
      | escape state ch => exact ⟨h.within, ⟨_, state⟩, fun hs => by cases hs⟩
      | firstDigit state digit => exact ⟨h.within, h.saved, fun _ => hexValue_lt digit⟩
      | literal state digit value literal room =>
          refine ⟨?_, h.saved, fun hs => by cases hs⟩
          rw [Locals.advance, List.length_set]
          exact room
  | inr iteration =>
      cases iteration with
      | hold state digit value plain nonzero =>
          refine ⟨h.within, h.saved, fun hs => ?_⟩
          exact absurd (hk.symm.trans hs) (stateOf_ne_quotedSecond k)

theorem Coherent.sameTail (h : Coherent m)
    (hbody : (complexUriLoop read buf mergeSlashes).body m = .ok (.next m')) :
    SameTail m.r m'.r := by
  cases h.next hbody with
  | inl hnext =>
      obtain ⟨a, iteration, rfl⟩ := hnext
      cases iteration with
      | write state ch writes room => exact nextRequest_tail _ m
      | close | escape | firstDigit | literal => exact ⟨rfl, rfl, rfl, rfl, rfl, rfl⟩
  | inr iteration =>
      cases iteration with
      | hold => exact ⟨rfl, rfl, rfl, rfl, rfl, rfl⟩

theorem reaches_coherent {n : Nat}
    (h : (complexUriLoop read buf mergeSlashes).Reaches n m m') (hm : Coherent m) :
    Coherent m' ∧ SameTail m.r m'.r := by
  refine h.invariant (I := fun s => Coherent s ∧ SameTail m.r s.r) ?_ ⟨hm, SameTail.refl m.r⟩
  intro s s' hs _ hbody
  exact ⟨hs.1.body hbody, hs.2.trans (hs.1.sameTail hbody)⟩

/-- The first loop head: one byte has been read and at most the slash of an empty path
written. -/
structure Starts (read : Nat → UInt8) (r : Request) (m : Locals) : Prop where
  state : m.state = .usual
  quotedState : m.quotedState = .usual
  p : m.p = 1
  ch : m.ch = read 0
  u : m.u = if r.emptyPathInUri then 1 else 0
  within : m.u ≤ m.out.length
  ext : m.r.uriExt = none
  exten : m.r.exten = r.exten

theorem init_starts {r : Request} {out : List UInt8} (h : Locals.init read r out = .ok m) :
    Starts read r m := by
  cases hempty : r.emptyPathInUri with
  | false =>
      simp only [Locals.init, hempty, Bool.false_eq_true, ite_false, Except.map,
        Except.ok.injEq] at h
      subst h
      exact ⟨rfl, rfl, rfl, rfl, by simp [Locals.advance, hempty], Nat.zero_le _, rfl, rfl⟩
  | true =>
      by_cases hout : 0 < out.length
      · simp only [Locals.init, hempty, Locals.write, hout, ite_true, Except.map,
          Except.ok.injEq] at h
        subst h
        refine ⟨rfl, rfl, rfl, rfl, by simp [Locals.advance, hempty], ?_, rfl, rfl⟩
        rw [Locals.advance, List.length_set]
        exact hout
      · simp [Locals.init, hempty, Locals.write, hout, Except.map] at h

theorem Starts.coherent {r : Request} (h : Starts read r m) : Coherent m := by
  refine ⟨h.within, ⟨.usual, h.quotedState⟩, fun hs => ?_⟩
  rw [h.state] at hs
  cases hs

end
end UrlParseNginx
