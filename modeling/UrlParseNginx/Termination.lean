import UrlParseNginx.ComplexUriInvariant

/-!
How long the loop of stage 2 runs. An iteration that decodes an escape reads nothing, but
it takes two digits that have been read, and the byte it leaves in `ch` is no `%`; so every
three bytes of input pay for at most one such iteration.
-/
namespace UrlParseNginx
open Ascii PercentCoding DotSegments WhileLoop

/-- The iterations that are left, counted by the bytes from `ch` on and the escapes that
they, and the one that is being read, have room for. -/
def potential (length : Nat) (m : Locals) : Nat :=
  let ahead := length + 1 - m.p
  match m.state with
  | .quoted => ahead + (ahead + 1) / 3
  | .quotedSecond => ahead + (ahead + 2) / 3
  | .usual | .slash | .dot | .dotDot =>
      if m.ch = percent then ahead + ahead / 3 else ahead + (ahead - 1) / 3

section
variable {read : Nat → UInt8} {buf : List UInt8} {mergeSlashes : Bool} {m m' : Locals}
  {length : Nat}

theorem potential_copying {k : Mode} (hs : m.state = stateOf k) :
    potential length m =
      if m.ch = percent then length + 1 - m.p + (length + 1 - m.p) / 3
      else length + 1 - m.p + (length + 1 - m.p - 1) / 3 := by
  cases k <;> simp [potential, hs, stateOf]

theorem potential_plain {k : Mode} (hs : m.state = stateOf k) (hch : m.ch ≠ percent) :
    potential length m = length + 1 - m.p + (length + 1 - m.p - 1) / 3 := by
  rw [potential_copying hs, if_neg hch]

theorem potential_percent {k : Mode} (hs : m.state = stateOf k) (hch : m.ch = percent) :
    potential length m = length + 1 - m.p + (length + 1 - m.p) / 3 := by
  rw [potential_copying hs, if_pos hch]

theorem potential_le {k : Mode} (hs : m.state = stateOf k) :
    potential length m ≤ length + 1 - m.p + (length + 1 - m.p) / 3 := by
  rw [potential_copying hs]
  split <;> omega

theorem potential_pos (hp : m.p ≤ length) : 0 < potential length m := by
  unfold potential
  cases m.state <;> simp only <;> (try split) <;> omega

/-- The potential at the next loop head of an iteration that reads on to a copying state. -/
theorem potential_advance {k : Mode} (hs : m.state = stateOf k) :
    potential length (m.advance read) ≤ length - m.p + (length - m.p) / 3 := by
  have hle : potential length (m.advance read) ≤ _ := potential_le (k := k) hs
  simp only [Locals.advance] at hle ⊢
  rwa [Nat.add_sub_add_right] at hle

theorem Coherent.spends (h : Coherent m) (hp : m.p ≤ length)
    (hbody : (complexUriLoop read buf mergeSlashes).body m = .ok (.next m')) :
    potential length m' < potential length m := by
  obtain ⟨k, hk⟩ := h.saved
  cases h.next hbody with
  | inl hnext =>
      obtain ⟨a, iteration, rfl⟩ := hnext
      cases iteration with
      | write state ch writes room =>
          rw [potential_plain state ch.1]
          refine Nat.lt_of_le_of_lt (potential_advance rfl) ?_
          simp only
          omega
      | close state ch closes settles =>
          rw [potential_plain state (by rw [ch]; decide)]
          refine Nat.lt_of_le_of_lt (potential_advance (k := .slash) rfl) ?_
          simp only
          omega
      | escape state ch =>
          rw [potential_percent state ch]
          simp only [potential, Locals.advance]
          omega
      | firstDigit state digit =>
          simp only [potential, Locals.advance, state]
          omega
      | literal state digit value literal room =>
          refine Nat.lt_of_le_of_lt (potential_advance (k := .usual) rfl) ?_
          simp only [potential, state]
          omega
  | inr iteration =>
      cases iteration with
      | hold state digit value plain nonzero =>
          rw [potential_plain hk plain.1]
          simp only [potential, state]
          omega

/-- The loop ends within the potential that it starts with, whatever the buffer it writes. -/
theorem Coherent.evals (h : Coherent m) (read : Nat → UInt8) (buf : List UInt8)
    (mergeSlashes : Bool) :
    ∃ n x, n ≤ potential buf.length m ∧
      (complexUriLoop read buf mergeSlashes).Evals n m x := by
  refine Loop.evals_of_potential (potential buf.length)
    (fun s _ hguard => potential_pos (guard_iff.mp hguard)) ?_ h
  intro s s' hs hguard hbody
  exact ⟨hs.body hbody, hs.spends (guard_iff.mp hguard) hbody⟩

theorem Starts.potential_le {r : Request} (h : Starts read r m) (length : Nat) :
    potential length m ≤ length + length / 3 := by
  have hle : potential length m ≤ _ := UrlParseNginx.potential_le (k := .usual) h.state
  rwa [h.p, Nat.add_sub_cancel] at hle

/-- The iteration from `m` reads the next byte or returns. -/
def AdvancesOrReturns (read : Nat → UInt8) (buf : List UInt8) (mergeSlashes : Bool)
    (m : Locals) : Prop :=
  (complexUriLoop read buf mergeSlashes).body m = .error .parseError ∨
  (∃ exit, (complexUriLoop read buf mergeSlashes).body m = .ok (.ret exit)) ∨
  ∃ m', (complexUriLoop read buf mergeSlashes).body m = .ok (.next m') ∧ m'.p = m.p + 1

theorem Iteration.p {a : Locals} (h : Iteration mergeSlashes m (.advance a)) : a.p = m.p := by
  cases h <;> rfl

theorem Coherent.reads (h : Coherent m)
    (hbody : (complexUriLoop read buf mergeSlashes).body m = .ok (.next m')) :
    m'.p = m.p + 1 ∨
      (m'.p = m.p ∧ m.state = .quotedSecond ∧ m'.state ≠ .quoted ∧ m'.state ≠ .quotedSecond) := by
  cases h.next hbody with
  | inl hnext =>
      obtain ⟨a, iteration, rfl⟩ := hnext
      exact .inl (congrArg (· + 1) iteration.p)
  | inr iteration =>
      obtain ⟨k, hk⟩ := h.saved
      cases iteration with
      | hold state digit value plain nonzero =>
          refine .inr ⟨rfl, state, ?_⟩
          simp only [hk]
          cases k <;> simp [stateOf]

/-- A copying state goes back to no digit: it reads on or returns. -/
theorem Invariant.advances (h : Invariant buf m) (hc : Coherent m) (hp : m.p ≤ buf.length)
    (hs : m.state ≠ .quotedSecond) : AdvancesOrReturns read buf mergeSlashes m := by
  cases hbody : (complexUriLoop read buf mergeSlashes).body m with
  | error e =>
      obtain rfl := h.body_error hp hbody
      exact .inl hbody
  | ok flow =>
      cases flow with
      | ret exit => exact .inr (.inl ⟨exit, hbody⟩)
      | next m' =>
          cases hc.reads hbody with
          | inl hp' => exact .inr (.inr ⟨m', hbody, hp'⟩)
          | inr hheld => exact absurd hheld.2.1 hs

end

/-- The loop of stage 2 ends after at most a third more iterations than the buffer has bytes.
At every loop head the saved state is a copying one, and an iteration that reads nothing is
followed by one that reads a byte or returns. -/
theorem complexUriLoop_terminates (buf out : List UInt8) (r : Request) (mergeSlashes : Bool)
    (hout : buf.length + 1 ≤ out.length) :
    ∃ start, Locals.init (readWithLfSentinel buf) r out = .ok start ∧
      (∃ n x, n ≤ buf.length + buf.length / 3 ∧
        (complexUriLoop (readWithLfSentinel buf) buf mergeSlashes).Evals n start x ∧
        (complexUriLoop (readWithLfSentinel buf) buf mergeSlashes).run .diverged
          (buf.length + buf.length / 3) start = x) ∧
      ∀ n m, (complexUriLoop (readWithLfSentinel buf) buf mergeSlashes).Reaches n start m →
        (m.quotedState = .usual ∨ m.quotedState = .slash ∨ m.quotedState = .dot ∨
          m.quotedState = .dotDot) ∧
        (m.p ≤ buf.length → ∀ m',
          (complexUriLoop (readWithLfSentinel buf) buf mergeSlashes).body m = .ok (.next m') →
          m'.p = m.p + 1 ∨
            (m'.p = m.p ∧ m.state = .quotedSecond ∧
              AdvancesOrReturns (readWithLfSentinel buf) buf mergeSlashes m')) := by
  obtain ⟨start, hinit, hinvariant⟩ := init_invariant (readWithLfSentinel buf) r hout
  have hstarts := init_starts hinit
  refine ⟨start, hinit, ?_, ?_⟩
  · obtain ⟨n, x, hn, heval⟩ := hstarts.coherent.evals _ buf mergeSlashes
    have hbound := Nat.le_trans hn (hstarts.potential_le buf.length)
    exact ⟨n, x, hbound, heval, Loop.run_of_evals heval .diverged hbound⟩
  · intro n m hreach
    have hm := reaches_invariant hreach hinvariant
    obtain ⟨hc, _⟩ := reaches_coherent hreach hstarts.coherent
    refine ⟨?_, fun hp m' hbody => ?_⟩
    · obtain ⟨k, hk⟩ := hc.saved
      rw [hk]
      cases k <;> simp [stateOf]
    · refine (hc.reads hbody).imp_right fun hheld => ⟨hheld.1, hheld.2.1, ?_⟩
      have hm' := hm.body (guard_iff.mpr hp) hbody
      exact hm'.advances (hc.body hbody) (by rw [hheld.1]; exact hp) hheld.2.2.2

/-- `%2E`: four iterations suffice for three bytes, the last one on the decoded dot. -/
theorem complexUriLoop_terminates_dot :
    ∃ start x n, Locals.init (readWithLfSentinel [percent, 0x32, 0x45]) .default
        [0, 0, 0, 0] = .ok start ∧ n ≤ 4 ∧
      (complexUriLoop (readWithLfSentinel [percent, 0x32, 0x45]) [percent, 0x32, 0x45]
        true).Evals n start x := by
  obtain ⟨start, hinit, ⟨n, x, hn, heval, _⟩, _⟩ := complexUriLoop_terminates
    [percent, 0x32, 0x45] [0, 0, 0, 0] .default true (by decide)
  exact ⟨start, x, n, hinit, hn, heval⟩

end UrlParseNginx
