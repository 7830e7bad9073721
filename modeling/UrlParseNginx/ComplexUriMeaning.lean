import UrlParseNginx.ComplexUriArms

/-!
Stage 2 computes the meaning of the target. The proof follows the target token by
token: a loop head between two tokens is described by the streaming normalizer's
state, and what the loop goes on to return is the meaning of the rest.
-/
namespace UrlParseNginx
open Ascii PercentCoding DotSegments WhileLoop

/-- The cursor reads the buffer's own bytes inside the buffer. -/
def ReadsBuffer (read : Nat → UInt8) (buf : List UInt8) : Prop :=
  ∀ j (h : j < buf.length), read j = buf[j]

theorem readsBuffer_sentinel (sentinel : UInt8) (buf : List UInt8) :
    ReadsBuffer (readWithSentinel sentinel buf) buf := by
  intro j h
  simp [readWithSentinel, List.getD, h]

/-- The request after the path has ended at index `stop`, with `u` bytes of output. -/
def leaveAt (buf : List UInt8) (stop : Nat) (r : Request) (u : Nat) : Except Failure Request :=
  if buf[stop]? = some question then
    finishArgs { r with argsStart := some (stop + 1) } buf u (stop + 1)
  else .ok (finishDone r u)

/-- From the loop head `m` the function returns as `result` says, the path ending at
`stop`, after at most a third of `budget` iterations. -/
def Computes (read : Nat → UInt8) (buf : List UInt8) (mergeSlashes : Bool) (budget : Nat)
    (m : Locals) (result : Option (List UInt8)) (stop : Nat) : Prop :=
  ∃ n x, 3 * n ≤ budget ∧ (complexUriLoop read buf mergeSlashes).Evals n m x ∧
    match result with
    | none => x.bind (afterLoop buf) = .error .parseError
    | some path => ∃ m' : Locals, m'.written = path ∧ m'.u ≤ m'.out.length ∧
        m'.out.length = m.out.length ∧ SameTail m.r m'.r ∧
        x.bind (afterLoop buf) = (leaveAt buf stop m'.r m'.u).map (·, m'.out)

section
variable {read : Nat → UInt8} {buf : List UInt8} {mergeSlashes : Bool} {m m' : Locals}
  {result : Option (List UInt8)} {budget stop : Nat}

theorem guard_iff : (complexUriLoop read buf mergeSlashes).guard m = true ↔
    m.p ≤ buf.length := by
  simp [complexUriLoop]

theorem body_eq : (complexUriLoop read buf mergeSlashes).body m =
    (complexUriArm mergeSlashes m).map (·.flow read) := rfl

theorem Computes.step {budget' : Nat} (hp : m.p ≤ buf.length)
    (hbody : (complexUriLoop read buf mergeSlashes).body m = .ok (.next m'))
    (hlen : m'.out.length = m.out.length) (htail : SameTail m.r m'.r)
    (h : Computes read buf mergeSlashes budget m' result stop) (hb : budget + 3 ≤ budget') :
    Computes read buf mergeSlashes budget' m result stop := by
  obtain ⟨n, x, hn, heval, hx⟩ := h
  refine ⟨n + 1, x, by omega, .step (guard_iff.mpr hp) hbody heval, ?_⟩
  cases result with
  | none => exact hx
  | some path =>
      obtain ⟨last, hw, hu, hlen', htail', hout⟩ := hx
      exact ⟨last, hw, hu, hlen'.trans hlen, htail.trans htail', hout⟩

theorem Computes.reject (hp : m.p ≤ buf.length) (hb : 3 ≤ budget)
    (hbody : (complexUriLoop read buf mergeSlashes).body m = .error .parseError) :
    Computes read buf mergeSlashes budget m none stop :=
  ⟨1, .error .parseError, by omega, .error (guard_iff.mpr hp) hbody, rfl⟩

theorem Computes.truncated (hp : ¬ m.p ≤ buf.length)
    (hs : m.state = .quoted ∨ m.state = .quotedSecond) :
    Computes read buf mergeSlashes budget m none stop := by
  have hguard : (complexUriLoop read buf mergeSlashes).guard m = false := by
    simpa [complexUriLoop] using hp
  refine ⟨0, _, by omega, .leave hguard, ?_⟩
  cases hs with
  | inl hs => simp [Except.bind, afterLoop, endOfInput, hs]
  | inr hs => simp [Except.bind, afterLoop, endOfInput, hs]

/-- The path ends at a `?` or a `#` that one of the copying arms sees. -/
theorem Computes.delimited {k : Mode} (f : Locals → Exit) (hs : m.state = stateOf k)
    (hp : m.p ≤ buf.length) (hu : m.u ≤ m.out.length) (hdot : k = .dot → 1 ≤ m.u)
    (hb : 3 ≤ budget)
    (hbody : (complexUriLoop read buf mergeSlashes).body m =
      (settle m).map fun m' => .ret (f m'))
    (hexit : ∀ v, afterLoop buf (.ret (f { m with u := v })) =
      (leaveAt buf stop m.r v).map (·, m.out)) :
    Computes read buf mergeSlashes budget m (finish slash (k, m.written)) stop := by
  have hguard : (complexUriLoop read buf mergeSlashes).guard m = true := guard_iff.mpr hp
  cases settle_eq hs hu hdot with
  | inl h =>
      rw [h.1]
      rw [h.2] at hbody
      exact .reject hp hb hbody
  | inr h =>
      obtain ⟨v, hv, hfin, hset⟩ := h
      rw [hset] at hbody
      rw [hfin]
      exact ⟨1, _, by omega, .ret hguard hbody, { m with u := v }, rfl, hv.trans hu, rfl,
        SameTail.refl _, hexit v⟩

theorem Computes.leave {k : Mode} (hs : m.state = stateOf k) (hp : ¬ m.p ≤ buf.length)
    (hu : m.u ≤ m.out.length) (hdot : k = .dot → 1 ≤ m.u) :
    Computes read buf mergeSlashes budget m (finish slash (k, m.written)) buf.length := by
  have hguard : (complexUriLoop read buf mergeSlashes).guard m = false := by
    simpa [complexUriLoop] using hp
  have hexit : (Except.ok (.next m)).bind (afterLoop buf) =
      (settle m).map fun m' => (finishDone m'.r m'.u, m'.out) := endOfInput_eq hs
  cases settle_eq hs hu hdot with
  | inl h =>
      rw [h.2] at hexit
      rw [h.1]
      exact ⟨0, _, by omega, .leave hguard, hexit⟩
  | inr h =>
      obtain ⟨v, hv, hfin, hset⟩ := h
      rw [hset] at hexit
      rw [hfin]
      refine ⟨0, _, by omega, .leave hguard, { m with u := v }, rfl, hv.trans hu, rfl,
        SameTail.refl _, ?_⟩
      rw [hexit, leaveAt, if_neg (by simp)]
      rfl

theorem forall_head {P : UInt8 → Prop} {b : UInt8} (h : P b) (s : List UInt8) :
    ∀ a, (b :: s).head? = some a → P a := by
  intro a ha
  obtain rfl := Option.some.inj ha
  exact h

/-- The loop head when the tokens before index `i` have been read. -/
structure Between (read : Nat → UInt8) (buf : List UInt8) (k : Mode) (i : Nat) (m : Locals) :
    Prop where
  state : m.state = stateOf k
  p : m.p = i + 1
  ch : m.ch = read i
  room : m.u + (buf.length - i) ≤ m.out.length
  dot : k = .dot → 1 ≤ m.u

/-- Reading on after a byte has been copied, be it a byte of the buffer or a decoded one. -/
theorem Copied.between {c : Mode × List UInt8} (h : Copied m c m') {i : Nat}
    (hp : m.p = i) (hroom : m.u + 1 + (buf.length - i) ≤ m.out.length) :
    Between read buf c.1 i (m'.advance read) := by
  have hgrown := h.grown
  refine ⟨h.state, ?_, ?_, ?_, h.dot⟩
  · simp only [Locals.advance, h.p, hp]
  · simp only [Locals.advance, h.p, hp]
  · simp only [Locals.advance, h.length]
    omega

/-- An iteration that has copied a byte, and the rest by what is assumed of the next
loop head. -/
theorem Computes.copied {c : Mode × List UInt8} {rest : List UInt8} {i budget' : Nat}
    (harm : complexUriArm mergeSlashes m = .ok (.advance m')) (h : Copied m c m')
    (hp : m.p = i) (hi : i ≤ buf.length)
    (hroom : m.u + 1 + (buf.length - i) ≤ m.out.length)
    (hrest : ∀ k' m', Between read buf k' i m' →
      Computes read buf mergeSlashes budget m' (meaning mergeSlashes (k', m'.written) rest) stop)
    (hb : budget + 3 ≤ budget') :
    Computes read buf mergeSlashes budget' m (meaning mergeSlashes c rest) stop := by
  have hbody : (complexUriLoop read buf mergeSlashes).body m =
      .ok (.next (m'.advance read)) := by
    rw [body_eq, harm]
    rfl
  have hwritten : (m'.advance read).written = c.2 := h.written
  have hnext := hrest c.1 (m'.advance read) (h.between hp hroom)
  rw [hwritten] at hnext
  exact .step (hp ▸ hi) hbody h.length h.tail hnext hb

theorem Computes.copy {k : Mode} {rest : List UInt8} {i budget' : Nat}
    (hs : m.state = stateOf k) (hp : m.p = i) (hi : i ≤ buf.length)
    (hch : m.ch ≠ percent ∧ m.ch ≠ question ∧ m.ch ≠ hash)
    (hroom : m.u + 1 + (buf.length - i) ≤ m.out.length) (hdot : k = .dot → 1 ≤ m.u)
    (hrest : ∀ k' m', Between read buf k' i m' →
      Computes read buf mergeSlashes budget m' (meaning mergeSlashes (k', m'.written) rest) stop)
    (hb : budget + 3 ≤ budget') :
    Computes read buf mergeSlashes budget' m
      ((feed slash dot mergeSlashes (k, m.written) m.ch).bind fun c =>
        meaning mergeSlashes c rest) stop := by
  have hpos : m.p ≤ buf.length := hp ▸ hi
  cases arm_copy mergeSlashes hs hch (by omega) hdot with
  | inl h =>
      have hbody : (complexUriLoop read buf mergeSlashes).body m = .error .parseError := by
        rw [body_eq, h.2]
        rfl
      rw [h.1]
      exact .reject hpos (by omega) hbody
  | inr h =>
      obtain ⟨c, m', hfeed, harm, hcopied⟩ := h
      rw [hfeed]
      exact .copied harm hcopied hp hi hroom hrest hb

theorem hexValue_lt {b x : UInt8} (h : hexValue b = some x) : x < 16 := by
  have hall : ∀ b, ∀ y ∈ hexValue b, y < 16 := fun b =>
    forall_byte (P := fun b => ∀ y ∈ hexValue b, y < 16) (by decide +kernel) b
  exact hall b x h

theorem feed_literal {mergeSlashes : Bool} {k : Mode} {v : UInt8} (hv : Literal v)
    (out : List UInt8) : feed slash dot mergeSlashes (k, out) v = some (.usual, out ++ [v]) := by
  have hne : v ≠ slash ∧ v ≠ dot := by
    obtain rfl | rfl | rfl := hv <;> decide
  cases k <;> simp [feed, hne]

/-- The second digit of an escape has been read: what `arm_quotedSecond` does with the
decoded byte is what the normalizer does with it. -/
theorem Computes.second {k : Mode} {i budget' : Nat} {x y : UInt8} {rest : List UInt8}
    (hs : m.state = .quotedSecond) (hq : m.quotedState = stateOf k) (hx : m.decoded = x)
    (hlt : x < 16) (hy : hexValue m.ch = some y) (hp : m.p = i) (hi : i ≤ buf.length)
    (hroom : m.u + 1 + (buf.length - i) ≤ m.out.length) (hdot : k = .dot → 1 ≤ m.u)
    (hrest : ∀ k' m', Between read buf k' i m' →
      Computes read buf mergeSlashes budget m' (meaning mergeSlashes (k', m'.written) rest) stop)
    (hb : budget + 6 ≤ budget') :
    Computes read buf mergeSlashes budget' m
      (if x * 16 + y = nul then none
        else (feed slash dot mergeSlashes (k, m.written) (x * 16 + y)).bind fun c =>
          meaning mergeSlashes c rest) stop := by
  have hpos : m.p ≤ buf.length := hp ▸ hi
  have harm := arm_quotedSecond mergeSlashes hs (hx ▸ hlt)
  simp only [hy, hx] at harm
  generalize x * 16 + y = v at harm ⊢
  by_cases hlit : Literal v
  · have hnul : v ≠ nul := by
      rintro rfl
      revert hlit
      decide
    have hu : m.u < m.out.length := by omega
    have hemit := Locals.emit_eq
      (m := { m with ch := v, state := .usual, decoded := x }) (by exact hu)
    rw [if_pos hlit, hemit] at harm
    rw [if_neg hnul, feed_literal hlit]
    refine .copied harm ?_ hp hi hroom hrest (by omega)
    exact ⟨fun e he => .inl he, fun e _ hm => (nomatch hs.symm.trans hm), rfl,
      Buffer.take_set_succ v hu, nofun, Nat.le_refl _, List.length_set, rfl, rfl,
      SameTail.refl _⟩
  · rw [if_neg hlit] at harm
    by_cases hnul : v = nul
    · rw [if_pos hnul] at harm ⊢
      have hbody : (complexUriLoop read buf mergeSlashes).body m = .error .parseError := by
        rw [body_eq, harm]
        rfl
      exact .reject hpos (by omega) hbody
    · rw [if_neg hnul] at harm ⊢
      generalize hm1 : { m with
        r.plusInUri := m.r.plusInUri || v = plus
        ch := v
        state := m.quotedState
        decoded := x : Locals } = m1 at harm
      have hbody : (complexUriLoop read buf mergeSlashes).body m = .ok (.next m1) := by
        rw [body_eq, harm]
        rfl
      have hplain : v ≠ percent ∧ v ≠ question ∧ v ≠ hash := by simpa [Literal] using hlit
      subst hm1
      exact .step hpos hbody rfl ⟨rfl, rfl, rfl, rfl, rfl, rfl⟩
        (.copy hq hp hi hplain hroom hdot hrest (Nat.le_refl _)) (by omega)

/-- The loop head inside the escape at index `i`, which was entered in mode `k`, after
`n` of its bytes. -/
structure InEscape (read : Nat → UInt8) (buf : List UInt8) (k : Mode) (i n : Nat) (m : Locals) :
    Prop where
  quotedState : m.quotedState = stateOf k
  p : m.p = i + n + 1
  ch : m.ch = read (i + n)
  start : i < buf.length
  room : m.u + (buf.length - i) ≤ m.out.length
  dot : k = .dot → 1 ≤ m.u

theorem Computes.lastDigit {k : Mode} {i : Nat} {hi : UInt8}
    (hread : ReadsBuffer read buf) (hs : m.state = .quotedSecond)
    (hx : hexValue hi = some m.decoded) (h : InEscape read buf k i 2 m)
    (hrest : ∀ lo y rest, buf.drop (i + 2) = lo :: rest → hexValue lo = some y →
      ∀ k' m', Between read buf k' (i + 3) m' →
      Computes read buf mergeSlashes (4 * (buf.length - (i + 3))) m'
        (meaning mergeSlashes (k', m'.written) rest) stop) :
    Computes read buf mergeSlashes (4 * (buf.length - i) - 6) m
      (meaning mergeSlashes (k, m.written) (percent :: hi :: buf.drop (i + 2))) stop := by
  have hp := h.p
  have hroom := h.room
  by_cases hin : i + 2 < buf.length
  · have hch : m.ch = buf[i + 2] := by rw [h.ch, hread _ hin]
    have hdrop := List.drop_eq_getElem_cons hin
    rw [hdrop]
    cases hy : hexValue buf[i + 2] with
    | none =>
        have harm := arm_quotedSecond mergeSlashes hs (hexValue_lt hx)
        rw [hch, hy] at harm
        rw [meaning_bad_second hx (forall_head hy _)]
        refine .reject (by omega) (by omega) ?_
        rw [body_eq, harm]
        rfl
    | some y =>
        rw [meaning_esc hx hy]
        exact .second hs h.quotedState rfl (hexValue_lt hx) (by rw [hch, hy]) hp (by omega)
          (by omega) h.dot (hrest _ y _ hdrop hy) (by omega)
  · have hend : buf.drop (i + 2) = [] := List.drop_eq_nil_of_le (by omega)
    rw [hend, meaning_bad_second hx (by simp)]
    exact .truncated (by omega) (.inr hs)

theorem Computes.digits {k : Mode} {i : Nat} (hread : ReadsBuffer read buf)
    (hs : m.state = .quoted) (h : InEscape read buf k i 1 m)
    (hrest : ∀ hi lo x y rest, buf.drop (i + 1) = hi :: lo :: rest → hexValue hi = some x →
      hexValue lo = some y → ∀ k' m', Between read buf k' (i + 3) m' →
      Computes read buf mergeSlashes (4 * (buf.length - (i + 3))) m'
        (meaning mergeSlashes (k', m'.written) rest) stop) :
    Computes read buf mergeSlashes (4 * (buf.length - i) - 3) m
      (meaning mergeSlashes (k, m.written) (percent :: buf.drop (i + 1))) stop := by
  have hp := h.p
  have harm := arm_quoted mergeSlashes hs
  by_cases hin : i + 1 < buf.length
  · have hch : m.ch = buf[i + 1] := by rw [h.ch, hread _ hin]
    have hdrop := List.drop_eq_getElem_cons hin
    rw [hch] at harm
    rw [hdrop]
    cases hx : hexValue buf[i + 1] with
    | none =>
        rw [hx] at harm
        rw [meaning_bad_first (forall_head hx _)]
        refine .reject (by omega) (by omega) ?_
        rw [body_eq, harm]
        rfl
    | some x =>
        rw [hx] at harm
        have hbody : (complexUriLoop read buf mergeSlashes).body m =
            .ok (.next (Locals.advance read
              { m with r.quotedUri := true, decoded := x, state := .quotedSecond })) := by
          rw [body_eq, harm]
          rfl
        refine .step (by omega) hbody rfl ⟨rfl, rfl, rfl, rfl, rfl, rfl⟩
          (.lastDigit hread rfl hx ⟨h.quotedState, by simp [Locals.advance, hp],
            by simp [Locals.advance, hp], h.start, h.room, h.dot⟩ ?_) (by omega)
        intro lo y rest hrest' hy
        exact hrest _ lo x y rest (by rw [hdrop, hrest']) hx hy
  · have hend : buf.drop (i + 1) = [] := List.drop_eq_nil_of_le (by omega)
    rw [hend, meaning_bad_first (by simp)]
    exact .truncated (by omega) (.inl hs)

theorem Computes.escape {k : Mode} {i : Nat} (hread : ReadsBuffer read buf)
    (h : Between read buf k i m) (hi : i < buf.length) (hpercent : buf[i] = percent)
    (hrest : ∀ hi lo x y rest, buf.drop i = percent :: hi :: lo :: rest → hexValue hi = some x →
      hexValue lo = some y → ∀ k' m', Between read buf k' (i + 3) m' →
      Computes read buf mergeSlashes (4 * (buf.length - (i + 3))) m'
        (meaning mergeSlashes (k', m'.written) rest) stop) :
    Computes read buf mergeSlashes (4 * (buf.length - i)) m
      (meaning mergeSlashes (k, m.written) (buf.drop i)) stop := by
  have hch : m.ch = percent := by rw [h.ch, hread i hi, hpercent]
  have hdrop : buf.drop i = percent :: buf.drop (i + 1) := by
    rw [List.drop_eq_getElem_cons hi, hpercent]
  have hbody : (complexUriLoop read buf mergeSlashes).body m =
      .ok (.next (Locals.advance read { m with quotedState := m.state, state := .quoted })) := by
    rw [body_eq, arm_percent mergeSlashes h.state hch]
    rfl
  rw [hdrop]
  refine .step (by rw [h.p]; exact hi) hbody rfl (SameTail.refl _)
    (.digits hread rfl ⟨h.state, by simp [Locals.advance, h.p], by simp [Locals.advance, h.p],
      hi, h.room, h.dot⟩ ?_) (by omega)
  intro hi lo x y rest hrest'
  exact hrest hi lo x y rest (by rw [hdrop, hrest'])

theorem Computes.atDelimiter {k : Mode} {i : Nat} (hread : ReadsBuffer read buf)
    (h : Between read buf k i m) (hi : i < buf.length)
    (hstop : buf[i] = question ∨ buf[i] = hash) (hb : 3 ≤ budget) :
    Computes read buf mergeSlashes budget m (finish slash (k, m.written)) i := by
  have hp := h.p
  have hroom := h.room
  have hch : m.ch = buf[i] := by rw [h.ch, hread i hi]
  cases hstop with
  | inl hquestion =>
      refine .delimited (fun m' => .args { m' with r.argsStart := some m'.p }) h.state (by omega)
        (by omega) h.dot hb ?_ (fun v => ?_)
      · rw [body_eq, arm_question mergeSlashes h.state (hch.trans hquestion)]
        cases settle m <;> rfl
      · simp only [afterLoop]
        rw [leaveAt, if_pos (by simp [hi, hquestion]), hp]
  | inr hhash =>
      refine .delimited .done h.state (by omega) (by omega) h.dot hb ?_ (fun v => ?_)
      · rw [body_eq, arm_hash mergeSlashes h.state (hch.trans hhash)]
        cases settle m <;> rfl
      · simp only [afterLoop]
        rw [leaveAt, if_neg (by simp +decide [hi, hhash])]
        rfl

/-- From a loop head between two tokens, stage 2 computes the meaning of the rest. -/
theorem loop_meaning (mergeSlashes : Bool) (hread : ReadsBuffer read buf) {k : Mode} {i : Nat}
    (hi : i ≤ buf.length)
    (h : Between read buf k i m) :
    Computes read buf mergeSlashes (4 * (buf.length - i)) m
      (meaning mergeSlashes (k, m.written) (buf.drop i))
      (i + (rawPath (buf.drop i)).length) := by
  induction hn : buf.length - i using Nat.strongRecOn generalizing k i m with
  | ind n ih =>
      subst hn
      have hp := h.p
      have hroom := h.room
      by_cases hlt : i < buf.length
      · have hch : m.ch = buf[i] := by rw [h.ch, hread i hlt]
        have hdrop := List.drop_eq_getElem_cons hlt
        rw [hdrop]
        by_cases hstop : buf[i] = question ∨ buf[i] = hash
        · rw [meaning_stop (forall_head hstop _), rawPath_stop hstop]
          exact .atDelimiter hread h hlt hstop (by omega)
        · obtain ⟨hquestion, hhash⟩ := not_or.mp hstop
          by_cases hpercent : buf[i] = percent
          · rw [← hdrop]
            refine .escape hread h hlt hpercent (fun hi lo x y rest hrest hx hy k' m' h' => ?_)
            have hdrop3 : buf.drop (i + 3) = rest := by
              rw [← List.drop_drop, hrest]
              rfl
            have hlen : buf.length - i = rest.length + 3 := by
              rw [← List.length_drop, hrest]
              rfl
            have hnext := ih _ (by omega) (by omega) h' rfl
            have hshift : i + ((rawPath rest).length + 1 + 1 + 1) =
                i + 3 + (rawPath rest).length := by omega
            rw [hrest, rawPath_cons (by decide), rawPath_hex hx, rawPath_hex hy]
            simp only [List.length_cons]
            rw [hshift]
            rwa [hdrop3] at hnext
          · have hplain := And.intro hpercent (And.intro hquestion hhash)
            rw [meaning_lit hplain, rawPath_cons hplain.2, ← hch]
            have hshift : i + ((rawPath (buf.drop (i + 1))).length + 1) =
                i + 1 + (rawPath (buf.drop (i + 1))).length := by omega
            have hrest : ∀ k' m', Between read buf k' (i + 1) m' →
                Computes read buf mergeSlashes (4 * (buf.length - (i + 1))) m'
                  (meaning mergeSlashes (k', m'.written) (buf.drop (i + 1)))
                  (i + 1 + (rawPath (buf.drop (i + 1))).length) :=
              fun k' m' h' => ih _ (by omega) hlt h' rfl
            rw [List.length_cons, hshift]
            exact .copy h.state hp hlt (hch ▸ hplain) (by omega) h.dot hrest (by omega)
      · have hend : buf.drop i = [] := List.drop_eq_nil_of_le (by omega)
        have hstop : i = buf.length := by omega
        rw [hend, meaning_stop (by simp), hstop]
        exact .leave h.state (by omega) (by omega) h.dot

/-- What is in `out` before the first byte is read. -/
def emptyPath (r : Request) : List UInt8 := if r.emptyPathInUri then [slash] else []

theorem init_between (read : Nat → UInt8) (r : Request) {out : List UInt8}
    (hout : buf.length + 1 ≤ out.length) :
    ∃ m, Locals.init read r out = .ok m ∧ Between read buf .usual 0 m ∧
      m.written = emptyPath r ∧ m.out.length = out.length ∧ m.r.uriExt = none ∧
      SameTail { r with uriExt := none, argsStart := none } m.r := by
  have hpos : 0 < out.length := by omega
  cases h : r.emptyPathInUri with
  | false =>
      refine ⟨_, by simp only [Locals.init, h]; rfl, ⟨rfl, rfl, rfl, ?_, nofun⟩, ?_, rfl,
        rfl, SameTail.refl _⟩
      · simp only [Locals.advance, Nat.zero_add]
        omega
      · simp [Locals.written, Locals.advance, emptyPath, h]
  | true =>
      refine ⟨_, by simp only [Locals.init, h, Locals.write, hpos, ite_true]; rfl,
        ⟨rfl, rfl, rfl, ?_, nofun⟩, ?_, List.length_set, rfl, SameTail.refl _⟩
      · simp only [Locals.advance, List.length_set]
        omega
      · simpa [Locals.written, Locals.advance, emptyPath, h] using
          Buffer.take_set_succ slash hpos

/-- Stage 2 on any buffer and any request, with room for the result: it rejects what has
no meaning, and else writes the meaning and leaves where the path ends. -/
theorem parseComplexUriWith_meaning (hread : ReadsBuffer read buf) (mergeSlashes : Bool)
    (r : Request) {out : List UInt8} (hout : buf.length + 1 ≤ out.length) :
    match meaning mergeSlashes (.usual, emptyPath r) buf with
    | none => parseComplexUriWith read r buf out mergeSlashes = .error .parseError
    | some path => ∃ m : Locals, m.written = path ∧ m.u ≤ m.out.length ∧
        m.out.length = out.length ∧
        SameTail { r with uriExt := none, argsStart := none } m.r ∧
        parseComplexUriWith read r buf out mergeSlashes =
          (leaveAt buf (rawPath buf).length m.r m.u).map (·, m.out) := by
  obtain ⟨m, hinit, hbetween, hwritten, hlen, _, htail⟩ := init_between read r hout
  obtain ⟨n, x, hn, heval, hx⟩ :=
    loop_meaning mergeSlashes hread (Nat.zero_le _) hbetween
  have hrun : (complexUriLoop read buf mergeSlashes).run .diverged (2 * buf.length) m = x :=
    Loop.run_of_evals heval .diverged (by omega)
  have hresult : parseComplexUriWith read r buf out mergeSlashes = x.bind (afterLoop buf) := by
    simp only [parseComplexUriWith, hinit, hrun]
  rw [hwritten, List.drop_zero] at hx
  rw [hresult]
  cases hmeaning : meaning mergeSlashes (.usual, emptyPath r) buf with
  | none => simpa only [hmeaning] using hx
  | some path =>
      rw [hmeaning] at hx
      obtain ⟨last, hpath, hu, hlen', htail', hout'⟩ := hx
      rw [Nat.zero_add] at hout'
      exact ⟨last, hpath, hu, hlen'.trans hlen, htail.trans htail', hout'⟩

end
end UrlParseNginx
