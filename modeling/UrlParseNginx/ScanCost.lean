import UrlParseNginx.Termination

/-!
How much of its output stage 2 looks at again. A `..` goes back over the segment before it
byte by byte, and a path can have many of them; but what a scan has looked at is cut off with
it, so every byte that is written pays for at most one look.
-/
namespace UrlParseNginx
open Ascii PercentCoding DotSegments WhileLoop

/-- The bytes that `backwardsScan` looks at. -/
def scanned (out : List UInt8) (u : Nat) : Nat :=
  if u < 4 then 0 else Buffer.examined (· == slash) (out.take (u - 4 + 1))

/-- The bytes that an iteration looks at: only `DotDot` goes back, on a byte that ends it. -/
def scannedBy (m : Locals) : Nat :=
  if m.state = .dotDot ∧ (m.ch = slash ∨ m.ch = question ∨ m.ch = hash) then scanned m.out m.u
  else 0

/-- The bytes that are looked at when the input ends. -/
def scannedAtEnd (m : Locals) : Nat := if m.state = .dotDot then scanned m.out m.u else 0

/-- The bytes that all backwards scans of one call look at. -/
def scannedInAll (r : Request) (buf out : List UInt8) (mergeSlashes : Bool) : Nat :=
  match Locals.init (readWithLfSentinel buf) r out with
  | .error _ => 0
  | .ok m =>
      (complexUriLoop (readWithLfSentinel buf) buf mergeSlashes).work scannedBy scannedAtEnd
        (2 * buf.length) m

/-- Bytes still to be read, and bytes that a scan may still look at. -/
def scanBudget (length : Nat) (m : Locals) : Nat := length + 1 - m.p + m.u

section
variable {read : Nat → UInt8} {buf : List UInt8} {mergeSlashes : Bool} {m m' : Locals}

theorem scanned_le (out : List UInt8) (u : Nat) : scanned out u ≤ u := by
  rw [scanned]
  split
  · exact Nat.zero_le _
  · have hle := Buffer.examined_le (p := (· == slash)) (out.take (u - 4 + 1))
    rw [List.length_take] at hle
    omega

theorem scannedBy_le (m : Locals) : scannedBy m ≤ m.u := by
  rw [scannedBy]
  split
  · exact scanned_le _ _
  · exact Nat.zero_le _

theorem scannedAtEnd_le (m : Locals) : scannedAtEnd m ≤ m.u := by
  rw [scannedAtEnd]
  split
  · exact scanned_le _ _
  · exact Nat.zero_le _

theorem scannedBy_of_state (hs : m.state ≠ .dotDot) : scannedBy m = 0 := by
  simp [scannedBy, hs]

theorem scannedBy_of_ch (hch : m.ch ≠ slash ∧ m.ch ≠ question ∧ m.ch ≠ hash) :
    scannedBy m = 0 := by
  simp [scannedBy, hch]

/-- A scan that finds its slash has looked at no more than it cuts off. -/
theorem Settles.scanned {v : Nat} (h : Settles .dotDot m v) (hu : m.u ≤ m.out.length) :
    scanned m.out m.u + v ≤ m.u := by
  obtain ⟨hle, hfinish⟩ := h
  rw [UrlParseNginx.scanned]
  split
  case isTrue => omega
  case isFalse hlarge =>
    have hlength : m.written.length = m.u := by
      rw [Locals.written, List.length_take, Nat.min_eq_left hu]
    have htaken : m.written.take (m.written.length - 3) = m.out.take (m.u - 4 + 1) := by
      rw [hlength, Locals.written, List.take_take, Nat.min_eq_left (Nat.sub_le _ _)]
      congr 1
      omega
    rw [DotSegments.finish, popOutput, htaken] at hfinish
    obtain ⟨i, hi, htake⟩ := Option.map_eq_some_iff.mp hfinish
    have hexamined := Buffer.examined_of_hit hi
    have hcut := congrArg List.length htake
    rw [Locals.written, List.take_take] at hcut
    simp only [List.length_take] at hcut hexamined
    omega

theorem Iteration.pays {a : Locals} (h : Iteration mergeSlashes m (.advance a))
    (hu : m.u ≤ m.out.length) : scannedBy m + a.u ≤ m.u + 1 := by
  cases h with
  | @write k state ch writes room =>
      have hzero : scannedBy m = 0 := by
        by_cases hs : m.state = .dotDot
        · refine scannedBy_of_ch ⟨fun hslash => ?_, ch.2⟩
          -- a slash in `DotDot` is not written
          have hk : k = .dotDot := stateOf_injective (state.symm.trans hs)
          simp [Writes, hk, hslash] at writes
        · exact scannedBy_of_state hs
      simp [hzero]
  | @close k v state ch closes settles =>
      by_cases hk : k = .dotDot
      · subst hk
        have hpaid := settles.scanned hu
        have hby : scannedBy m = UrlParseNginx.scanned m.out m.u := by
          simp [scannedBy, state, stateOf, ch]
        simp only [hby]
        omega
      · have hs : m.state ≠ .dotDot := fun hs => hk (stateOf_injective (state.symm.trans hs))
        rw [scannedBy_of_state hs]
        have hle := settles.le
        simp only
        omega
  | escape state ch =>
      rw [scannedBy_of_ch (by rw [ch]; decide)]
      simp only
      omega
  | firstDigit state digit =>
      rw [scannedBy_of_state (by simp [state])]
      simp only
      omega
  | literal state digit value literal room =>
      rw [scannedBy_of_state (by simp [state])]
      simp only
      omega

theorem Coherent.pays (h : Coherent m) (hp : m.p ≤ buf.length)
    (hbody : (complexUriLoop read buf mergeSlashes).body m = .ok (.next m')) :
    scannedBy m + scanBudget buf.length m' ≤ scanBudget buf.length m := by
  cases h.next hbody with
  | inl hnext =>
      obtain ⟨a, iteration, rfl⟩ := hnext
      have hpaid := iteration.pays h.within
      have ha := iteration.p
      simp only [scanBudget, Locals.advance, ha]
      omega
  | inr iteration =>
      cases iteration with
      | hold state digit value plain nonzero =>
          rw [scannedBy_of_state (by simp [state])]
          simp [scanBudget]

end

/-- The backwards scans of one call look at no more bytes than the buffer has, and at one
more for the slash of an empty path, however many `..` there are and however the call ends. -/
theorem scannedInAll_le (r : Request) (buf out : List UInt8) (mergeSlashes : Bool) :
    scannedInAll r buf out mergeSlashes ≤ buf.length + if r.emptyPathInUri then 1 else 0 := by
  rw [scannedInAll]
  cases hinit : Locals.init (readWithLfSentinel buf) r out with
  | error e => exact Nat.zero_le _
  | ok m =>
      have hstarts := init_starts hinit
      have hbudget : scanBudget buf.length m =
          buf.length + if r.emptyPathInUri then 1 else 0 := by
        rw [scanBudget, hstarts.p, hstarts.u, Nat.add_sub_cancel]
      rw [← hbudget]
      refine Loop.work_le (scanBudget buf.length) ?_ (fun s _ => ?_) (fun s _ => ?_) _
        hstarts.coherent
      · intro s s' hs hguard hbody
        exact ⟨hs.body hbody, hs.pays (guard_iff.mp hguard) hbody⟩
      · exact Nat.le_trans (scannedBy_le s) (Nat.le_add_left _ _)
      · exact Nat.le_trans (scannedAtEnd_le s) (Nat.le_add_left _ _)

/-- `/ab/..`: the scan looks at three bytes, `b`, `a` and the slash. -/
example : scannedInAll .default [slash, 0x61, 0x62, slash, dot, dot] (List.replicate 7 0)
    true = 3 := by decide +kernel

end UrlParseNginx
