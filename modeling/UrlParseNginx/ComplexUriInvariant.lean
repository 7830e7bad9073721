import UrlParseNginx.ComplexUriIteration

/-!
What holds at every loop head of stage 2, for every buffer and every request. The output
cursor trails the input cursor, also over the iteration that decodes without reading; the
saved state is one of the copying states; and an extension is open only in `Usual`.
-/
namespace UrlParseNginx
open Ascii PercentCoding DotSegments WhileLoop

structure Invariant (buf : List UInt8) (m : Locals) : Prop where
  started : 1 ≤ m.p
  cursor : m.p ≤ buf.length + 1
  room : m.u + (buf.length + 1 - m.p) ≤ m.out.length
  mode : ∃ k, m.resumes = stateOf k
  digit : m.state = .quotedSecond → m.decoded < 16
  dot : m.resumes = .dot → 1 ≤ m.u
  ext : ∀ e, m.r.uriExt = some e → m.resumes = .usual ∧ 1 ≤ e ∧ e ≤ m.u

/-- What holds where an arm returns out of the loop. -/
structure Leaving (m : Locals) : Prop where
  written : m.u ≤ m.out.length
  ext : ∀ e, m.r.uriExt = some e → 1 ≤ e ∧ e ≤ m.u

/-- An arm never panics, and what it ends in satisfies the invariant. -/
def ArmKeeps (buf : List UInt8) (m : Locals) : Except Failure Arm → Prop
  | .error e => e = .parseError
  | .ok (.advance m') => ∀ read, Invariant buf (m'.advance read)
  | .ok (.hold m') => Invariant buf m'
  | .ok (.done m') => Leaving m'
  | .ok (.args m') => Leaving m' ∧ m'.r.argsStart = some m'.p ∧ m'.p = m.p

section
variable {buf : List UInt8} {m m' : Locals}

/-- Reading on after a byte has been copied: an extension is kept or opened only in `Usual`,
which the machine then stays in. -/
theorem Invariant.copied (h : Invariant buf m) (hp : m.p ≤ buf.length) {k : Mode}
    (hs : m.state = stateOf k) {c : Mode × List UInt8} (hc : Copied m c m')
    (read : Nat → UInt8) : Invariant buf (m'.advance read) := by
  have hroom := h.room
  have hgrown := hc.grown
  have hresumes : (m'.advance read).resumes = stateOf c.1 := resumes_stateOf hc.state
  refine ⟨Nat.succ_pos _, ?_, ?_, ⟨c.1, hresumes⟩, fun hq => ?_, fun hd => ?_, fun e he => ?_⟩
  · simp only [Locals.advance, hc.p]
    omega
  · simp only [Locals.advance, hc.p, hc.length]
    omega
  · exact absurd (hc.state.symm.trans hq) (stateOf_ne_quotedSecond c.1)
  · have hk : stateOf c.1 = stateOf .dot := hresumes.symm.trans hd
    exact hc.dot (stateOf_injective hk)
  · have hstate : m.state = .usual ∧ 1 ≤ e ∧ e ≤ m.u + 1 := by
      cases hc.ext e he with
      | inl hold =>
          obtain ⟨husual, hle⟩ := h.ext e hold
          exact ⟨by rw [hs, ← resumes_stateOf hs, husual], hle.1, Nat.le_succ_of_le hle.2⟩
      | inr hnew => exact ⟨hnew.1, by omega, by omega⟩
    obtain ⟨hstay, hu⟩ := hc.stays e he hstate.1
    have hle : 1 ≤ e ∧ e ≤ m'.u := hu ▸ hstate.2
    exact ⟨by rw [hresumes, ← hc.state, hstay], hle⟩

/-- The cursor after a pending dot segment has been resolved: an extension is open only in
`Usual`, where the cursor stays. -/
theorem Invariant.leaves (h : Invariant buf m) {k : Mode} (hs : m.state = stateOf k) {v : Nat}
    (hsettles : Settles k m v) :
    v ≤ m.out.length ∧ ∀ e, m.r.uriExt = some e → 1 ≤ e ∧ e ≤ v := by
  have hroom := h.room
  have hv := hsettles.le
  refine ⟨by omega, fun e he => ?_⟩
  obtain ⟨husual, hpos, hle⟩ := h.ext e he
  obtain rfl : k = .usual := stateOf_injective ((resumes_stateOf hs).symm.trans husual)
  have hlength := congrArg List.length (Option.some.inj hsettles.finish)
  simp only [Locals.written, List.length_take] at hlength
  exact ⟨hpos, by omega⟩

theorem Invariant.settled (h : Invariant buf m) {k : Mode} (hs : m.state = stateOf k) :
    settle m = .error .parseError ∨
    ∃ v, settle m = .ok { m with u := v } ∧ v ≤ m.out.length ∧
      ∀ e, m.r.uriExt = some e → 1 ≤ e ∧ e ≤ v := by
  have hroom := h.room
  obtain ⟨v, hset, hsettles⟩ | hset | ⟨_, hk, hzero⟩ := settle_cases hs (by omega)
  · obtain ⟨hv, hext⟩ := h.leaves hs hsettles
    exact .inr ⟨v, hset, hv, hext⟩
  · exact .inl hset
  · have hpos := h.dot (by rw [resumes_stateOf hs, hk, stateOf])
    omega

/-- An iteration that leaves the output and the saved state alone. -/
theorem Invariant.same (h : Invariant buf m) (hu : m'.u = m.u) (hout : m'.out = m.out)
    (hext : m'.r.uriExt = m.r.uriExt) (hresumes : m'.resumes = m.resumes)
    (hdigit : m'.state = .quotedSecond → m'.decoded < 16)
    (hcursor : m.p ≤ m'.p ∧ m'.p ≤ buf.length + 1) : Invariant buf m' := by
  have hroom := h.room
  have hstarted := h.started
  refine ⟨by omega, hcursor.2, ?_, hresumes ▸ h.mode, hdigit, fun hd => ?_, fun e he => ?_⟩
  · rw [hu, hout]
    omega
  · rw [hu]
    exact h.dot (hresumes.symm.trans hd)
  · rw [hext] at he
    rw [hresumes, hu]
    exact h.ext e he

theorem Invariant.literal (h : Invariant buf m) (hp : m.p ≤ buf.length) (v : UInt8)
    (read : Nat → UInt8) :
    Invariant buf (Locals.advance read
      { m with ch := v, state := .usual, out := m.out.set m.u v, u := m.u + 1 }) := by
  have hroom := h.room
  refine ⟨Nat.succ_pos _, Nat.succ_le_succ hp, ?_, ⟨.usual, rfl⟩, fun hq => ?_, fun hd => ?_,
    fun e he => ?_⟩
  · simp only [Locals.advance, List.length_set]
    omega
  · cases hq
  · cases hd
  · obtain ⟨_, hpos, hle⟩ := h.ext e he
    exact ⟨rfl, hpos, Nat.le_succ_of_le hle⟩

theorem Invariant.iteration (h : Invariant buf m) (hp : m.p ≤ buf.length) {mergeSlashes : Bool}
    {arm : Arm} (hit : Iteration mergeSlashes m arm) : ArmKeeps buf m (.ok arm) := by
  cases hit with
  | write state ch writes room => exact h.copied hp state (.write state room)
  | close state ch closes settles => exact h.copied hp state (.close state closes settles.le)
  | escape state ch =>
      intro read
      exact h.same rfl rfl rfl (state.trans (resumes_stateOf state).symm) (fun hq => by cases hq)
        ⟨Nat.le_succ _, Nat.succ_le_succ hp⟩
  | args state ch settles =>
      obtain ⟨hv, hext⟩ := h.leaves state settles
      exact ⟨⟨hv, hext⟩, rfl, rfl⟩
  | done state ch settles =>
      obtain ⟨hv, hext⟩ := h.leaves state settles
      exact ⟨hv, hext⟩
  | firstDigit state digit =>
      intro read
      exact h.same rfl rfl rfl (by simp [Locals.resumes, Locals.advance, state])
        (fun _ => hexValue_lt digit) ⟨Nat.le_succ _, Nat.succ_le_succ hp⟩
  | literal state digit value literal room => exact h.literal hp _
  | hold state digit value plain nonzero =>
      obtain ⟨k, hk⟩ := h.mode
      have hq : m.quotedState = stateOf k := by simpa [Locals.resumes, state] using hk
      refine h.same rfl rfl rfl ((resumes_stateOf (k := k) hq).trans hk.symm) (fun hs' => ?_)
        ⟨Nat.le_refl _, h.cursor⟩
      exact absurd (hq.symm.trans hs') (stateOf_ne_quotedSecond k)

theorem Invariant.arm (h : Invariant buf m) (hp : m.p ≤ buf.length) (mergeSlashes : Bool) :
    ArmKeeps buf m (complexUriArm mergeSlashes m) := by
  have hroom := h.room
  have hends := complexUriArm_ends mergeSlashes (by omega) h.digit
  generalize complexUriArm mergeSlashes m = x at hends
  cases hends with
  | ok iteration => exact h.iteration hp iteration
  | reject => rfl
  | panic full =>
      -- there is room for a byte, and a `.` that is pending has been written
      exfalso
      cases full with
      | inl hfull => omega
      | inr hdot =>
          have hpos := h.dot (by simp [Locals.resumes, hdot.1])
          omega

theorem Between.invariant {read : Nat → UInt8} {k : Mode} {i : Nat} (h : Between read buf k i m)
    (hi : i ≤ buf.length) (hext : m.r.uriExt = none) : Invariant buf m := by
  have hp := h.p
  have hroom := h.room
  have hresumes := resumes_stateOf h.state
  refine ⟨by omega, by omega, by omega, ⟨k, hresumes⟩, fun hq => ?_, fun hd => ?_, fun e he => ?_⟩
  · have hstate := h.state.symm.trans hq
    cases k <;> cases hstate
  · have hk : stateOf k = stateOf .dot := hresumes.symm.trans hd
    exact h.dot (stateOf_injective hk)
  · cases hext.symm.trans he

theorem init_invariant (read : Nat → UInt8) (r : Request) {out : List UInt8}
    (hout : buf.length + 1 ≤ out.length) :
    ∃ m, Locals.init read r out = .ok m ∧ Invariant buf m := by
  obtain ⟨m, hinit, hbetween, _, _, hext, _⟩ := init_between read r hout
  exact ⟨m, hinit, hbetween.invariant (Nat.zero_le _) hext⟩

theorem Invariant.body {read : Nat → UInt8} {mergeSlashes : Bool} (h : Invariant buf m)
    (hguard : (complexUriLoop read buf mergeSlashes).guard m = true)
    (hbody : (complexUriLoop read buf mergeSlashes).body m = .ok (.next m')) :
    Invariant buf m' := by
  have hkeeps := h.arm (guard_iff.mp hguard) mergeSlashes
  obtain ⟨arm, harm, hflow⟩ := arm_of_body hbody
  rw [harm] at hkeeps
  cases arm with
  | advance a =>
      cases hflow
      exact hkeeps read
  | hold a =>
      cases hflow
      exact hkeeps
  | done a | args a => cases hflow

theorem Invariant.body_error {read : Nat → UInt8} {mergeSlashes : Bool} {e : Failure}
    (h : Invariant buf m) (hp : m.p ≤ buf.length)
    (hbody : (complexUriLoop read buf mergeSlashes).body m = .error e) : e = .parseError := by
  have hkeeps := h.arm hp mergeSlashes
  rwa [arm_of_body_error hbody] at hkeeps

theorem reaches_invariant {read : Nat → UInt8} {mergeSlashes : Bool} {n : Nat}
    (h : (complexUriLoop read buf mergeSlashes).Reaches n m m') (hm : Invariant buf m) :
    Invariant buf m' :=
  h.invariant (fun _ _ hs hguard hbody => hs.body hguard hbody) hm

end
end UrlParseNginx
