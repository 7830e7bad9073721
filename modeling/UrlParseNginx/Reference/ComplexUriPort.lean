import UrlParseNginx.ComplexUriInvariant
import UrlParseNginx.OriginFormMeaning
import UrlParseNginx.Reference.ParseUriPort

/-!
Stage 2 of the port against stage 2 of the reference, in lockstep. The port's output up to
its cursor is the reference's; what either buffer holds past it is of no account. Where the
reference walks below its buffer, or would run past the line feed, the port has a check or
the invariant of its loop.
-/
namespace UrlParseNginx
open Ascii WhileLoop

/-- The reference's memory while the port has written `out` up to `u`. -/
structure SameMemory (buf out : List UInt8) (u : Nat) (mem : NginxReference.Memory) : Prop where
  input : mem.inbuf = buf ++ [lineFeed]
  room : mem.nbuf.length = out.length
  written : mem.nbuf.take u = out.take u

def swOf : State → NginxReference.State
  | .usual => .swUsual
  | .slash => .swSlash
  | .dot => .swDot
  | .dotDot => .swDotDot
  | .quoted => .swQuoted
  | .quotedSecond => .swQuotedSecond

/-- `r->uri` in stage 2. -/
def outputStr (len : Nat) : NginxReference.Str := { len, data := some (ptr .nbuf 0) }

def localsOf (n len : Nat) (mem : NginxReference.Memory) (m : Locals) : NginxReference.Locals :=
  { r := requestOf .nbuf n (outputStr len) m.r
    mem
    state := swOf m.state
    quotedState := swOf m.quotedState
    decoded := m.decoded
    p := ptr .inbuf m.p
    u := ptr .nbuf m.u
    ch := m.ch }

def breakOf (n len : Nat) (mem : NginxReference.Memory) : Arm → NginxReference.Break
  | .advance m => .fetch (localsOf n len mem m)
  | .hold m => .again (localsOf n len mem m)
  | .done m => .done (localsOf n len mem m)
  | .args m => .args (localsOf n len mem m)

/-- An arm of the port and a case of the reference end alike. -/
def ArmMatches (buf : List UInt8) (len : Nat) :
    Except Failure Arm → Except NginxReference.Fault NginxReference.Break → Prop
  | .error _, y => ∃ t, y = .ok (.invalid t)
  | .ok arm, y => ∃ mem, SameMemory buf arm.locals.out arm.locals.u mem ∧
      y = .ok (breakOf buf.length len mem arm)

section
variable {buf : List UInt8} {len : Nat} {m : Locals} {mem : NginxReference.Memory}

theorem ArmMatches.ite {c c' : Prop} [Decidable c] [Decidable c'] (hc : c ↔ c')
    {a b : Except Failure Arm} {a' b' : Except NginxReference.Fault NginxReference.Break}
    (ha : c → ArmMatches buf len a a') (hb : ¬ c → ArmMatches buf len b b') :
    ArmMatches buf len (if c then a else b) (if c' then a' else b') := by
  by_cases h : c
  · rw [if_pos h, if_pos (hc.mp h)]
    exact ha h
  · rw [if_neg h, if_neg (fun h' => h (hc.mpr h'))]
    exact hb h

theorem SameMemory.shrink {out : List UInt8} {u v : Nat} (h : SameMemory buf out u mem)
    (hv : v ≤ u) : SameMemory buf out v mem := by
  refine ⟨h.input, h.room, ?_⟩
  have hwritten := congrArg (List.take v) h.written
  rwa [List.take_take, List.take_take, Nat.min_eq_left hv] at hwritten

theorem put_eq (len : Nat) {out : List UInt8} (h : SameMemory buf out m.u mem)
    (hu : m.u < out.length) (c : UInt8) :
    ∃ mem', SameMemory buf (out.set m.u c) (m.u + 1) mem' ∧
      (localsOf buf.length len mem m).put c =
        .ok (localsOf buf.length len mem' { m with u := m.u + 1 }) := by
  have hroom : m.u < mem.nbuf.length := h.room ▸ hu
  have hstore : mem.store (ptr .nbuf m.u) c = .ok { mem with nbuf := mem.nbuf.set m.u c } := by
    simp [NginxReference.Memory.store, NginxReference.Memory.block, ptr, hroom]
  refine ⟨{ mem with nbuf := mem.nbuf.set m.u c }, ⟨h.input, ?_, ?_⟩, ?_⟩
  · simpa using h.room
  · rw [Buffer.take_set_succ c hroom, Buffer.take_set_succ c hu, h.written]
  · simp only [NginxReference.Locals.put, localsOf, hstore, Except.map, ptr_plus_one]

/-- `out[u] = ch; u += 1;` against `*u++ = ch; ch = *p++; break;` -/
theorem emit_matches (hmem : SameMemory buf m.out m.u mem) (hu : m.u < m.out.length) :
    ArmMatches buf len (m.emit.map .advance)
      (((localsOf buf.length len mem m).put m.ch).map .fetch) := by
  obtain ⟨mem', hmem', hput⟩ := put_eq len hmem hu m.ch
  rw [Locals.emit_eq hu, hput]
  exact ⟨mem', hmem', rfl⟩

/-- `case b'+'` and `_` against the `case '+'` that falls through. -/
theorem plain_matches (hmem : SameMemory buf m.out m.u mem) (hu : m.u < m.out.length) :
    ArmMatches buf len
      (if m.ch = plus then { m with r.plusInUri := true : Locals }.emit.map .advance
        else m.emit.map .advance)
      (localsOf buf.length len mem m).plain := by
  apply ArmMatches.ite Iff.rfl
  · intro _
    exact emit_matches (m := { m with r.plusInUri := true }) hmem hu
  · intro _
    exact emit_matches hmem hu

theorem ptr_back {n : Nat} (h : 1 ≤ n) (block : NginxReference.Block) :
    (ptr block n).plus (-1) = ptr block (n - 1) := by
  simp only [ptr, NginxReference.Ptr.plus, NginxReference.Ptr.mk.injEq, true_and]
  omega

/-- Going back from inside the buffer finds the last slash. -/
theorem backward_eq (mem : NginxReference.Memory) {v : Nat} (hv : v < mem.nbuf.length) :
    NginxReference.backward mem (ptr .nbuf 0) (ptr .nbuf v) =
      .ok ((Buffer.rposition (· == slash) (mem.nbuf.take (v + 1))).map
        fun i => ptr .nbuf (i + 1)) := by
  have hload : ∀ i (hi : i < mem.nbuf.length), mem.load (ptr .nbuf i) = .ok mem.nbuf[i] := by
    intro i hi
    have hoff : 0 ≤ (ptr .nbuf i).off := Int.natCast_nonneg i
    rw [NginxReference.Memory.load, if_pos hoff]
    simp [NginxReference.Memory.block, ptr, hi]
  induction v with
  | zero =>
      rw [NginxReference.backward, hload 0 hv, Buffer.rposition_take_succ hv]
      by_cases hslash : mem.nbuf[0] = slash
      · simp [hslash]
      · have hbelow : ((ptr .nbuf 0).plus (-1)).off < (ptr .nbuf 0).off := by decide
        rw [NginxReference.backward, if_pos hbelow]
        simp [hslash, Buffer.rposition]
  | succ v ih =>
      have hlt : v < mem.nbuf.length := Nat.lt_of_succ_lt hv
      rw [NginxReference.backward, hload (v + 1) hv, Buffer.rposition_take_succ hv]
      have hin : ¬ (ptr .nbuf (v + 1)).off < (ptr .nbuf 0).off := by simp [ptr]; omega
      rw [if_neg hin]
      by_cases hslash : mem.nbuf[v + 1] = slash
      · simp [hslash]
      · simp only [hslash, ite_false, beq_iff_eq]
        rw [ptr_back (Nat.le_add_left 1 v), Nat.add_sub_cancel]
        exact ih hlt

/-- The early return of the reference's walk is the error of the port's search. -/
theorem pop_eq (hmem : SameMemory buf m.out m.u mem) (hu : m.u ≤ m.out.length) :
    (backwardsScan m.out m.u = .error .parseError ∧
      (localsOf buf.length len mem m).pop = .ok none) ∨
    ∃ v, backwardsScan m.out m.u = .ok v ∧ v ≤ m.u ∧
      (localsOf buf.length len mem m).pop = .ok (some (ptr .nbuf v)) := by
  have hpop : (localsOf buf.length len mem m).pop =
      NginxReference.backward mem (ptr .nbuf 0) ((ptr .nbuf m.u).plus (-4)) := rfl
  rw [hpop, backwardsScan]
  by_cases h4 : m.u < 4
  · refine .inl ⟨if_pos h4, ?_⟩
    rw [NginxReference.backward, if_pos]
    simp only [ptr, NginxReference.Ptr.plus]
    omega
  · have hlt : m.u - 4 < m.out.length := by omega
    have hback : (ptr .nbuf m.u).plus (-4) = ptr .nbuf (m.u - 4) := by
      simp only [ptr, NginxReference.Ptr.plus, NginxReference.Ptr.mk.injEq, true_and]
      omega
    rw [if_neg h4, hback, backward_eq mem (hmem.room ▸ hlt),
      (hmem.shrink (show m.u - 4 + 1 ≤ m.u by omega)).written]
    simp only [hlt, ite_true]
    cases hr : Buffer.rposition (· == slash) (m.out.take (m.u - 4 + 1)) with
    | none => exact .inl ⟨rfl, rfl⟩
    | some i =>
        have hi := Buffer.rposition_lt hr
        rw [List.length_take] at hi
        exact .inr ⟨i + 1, rfl, by omega, rfl⟩

theorem usual_iff_reference :
    usual m.ch = true ↔ NginxReference.usual (localsOf buf.length len mem m).ch = true := by
  rw [reference_usual]
  rfl

/-- `case '%'`, alike in the four states that copy. -/
theorem percent_matches (hmem : SameMemory buf m.out m.u mem) :
    ArmMatches buf len
      (.ok (.advance { m with quotedState := m.state, state := .quoted }))
      (.ok (.fetch { localsOf buf.length len mem m with
        quotedState := swOf m.state, state := .swQuoted })) := ⟨mem, hmem, rfl⟩

theorem usual_matches (hmem : SameMemory buf m.out m.u mem) (hu : m.u < m.out.length) :
    ArmMatches buf len (usualArm m)
      (NginxReference.usualCase (localsOf buf.length len mem m)) := by
  rw [usualArm, NginxReference.usualCase]
  refine .ite usual_iff_reference (fun _ => emit_matches hmem hu) fun _ => ?_
  refine .ite Iff.rfl (fun _ => ?_) fun _ => ?_
  · exact emit_matches (m := { m with r.uriExt := none, state := .slash }) hmem hu
  refine .ite Iff.rfl (fun _ => percent_matches hmem) fun _ => ?_
  refine .ite Iff.rfl (fun _ => ⟨mem, hmem, rfl⟩) fun _ => ?_
  refine .ite Iff.rfl (fun _ => ⟨mem, hmem, rfl⟩) fun _ => ?_
  refine .ite Iff.rfl (fun _ => ?_) fun _ => plain_matches hmem hu
  exact emit_matches (m := { m with r.uriExt := some (m.u + 1) }) hmem hu

theorem slash_matches (mergeSlashes : Bool) (hmem : SameMemory buf m.out m.u mem)
    (hu : m.u < m.out.length) :
    ArmMatches buf len (slashArm mergeSlashes m)
      (NginxReference.slashCase (if mergeSlashes then 1 else 0)
        (localsOf buf.length len mem m)) := by
  rw [slashArm, NginxReference.slashCase]
  refine .ite usual_iff_reference (fun _ => ?_) fun _ => ?_
  · exact emit_matches (m := { m with state := .usual }) hmem hu
  refine .ite Iff.rfl (fun _ => ?_) fun _ => ?_
  · cases mergeSlashes with
    | true => exact ⟨mem, hmem, rfl⟩
    | false => exact emit_matches hmem hu
  refine .ite Iff.rfl (fun _ => ?_) fun _ => ?_
  · exact emit_matches (m := { m with state := .dot }) hmem hu
  refine .ite Iff.rfl (fun _ => percent_matches hmem) fun _ => ?_
  refine .ite Iff.rfl (fun _ => ⟨mem, hmem, rfl⟩) fun _ => ?_
  refine .ite Iff.rfl (fun _ => ⟨mem, hmem, rfl⟩) fun _ => ?_
  exact plain_matches (m := { m with state := .usual }) hmem hu

theorem dot_matches (hmem : SameMemory buf m.out m.u mem) (hu : m.u < m.out.length)
    (hdot : 1 ≤ m.u) :
    ArmMatches buf len (dotArm m)
      (NginxReference.dotCase (localsOf buf.length len mem m)) := by
  have hback : (localsOf buf.length len mem m).u.plus (-1) = ptr .nbuf (m.u - 1) :=
    ptr_back hdot .nbuf
  have hmem' := hmem.shrink (Nat.sub_le m.u 1)
  rw [dotArm, NginxReference.dotCase, Locals.back_eq hdot, hback,
    Locals.back_eq (m := { m with state := .slash }) hdot]
  refine .ite usual_iff_reference (fun _ => ?_) fun _ => ?_
  · exact emit_matches (m := { m with state := .usual }) hmem hu
  refine .ite Iff.rfl (fun _ => ⟨mem, hmem', rfl⟩) fun _ => ?_
  refine .ite Iff.rfl (fun _ => ?_) fun _ => ?_
  · exact emit_matches (m := { m with state := .dotDot }) hmem hu
  refine .ite Iff.rfl (fun _ => percent_matches hmem) fun _ => ?_
  refine .ite Iff.rfl (fun _ => ⟨mem, hmem', rfl⟩) fun _ => ?_
  refine .ite Iff.rfl (fun _ => ⟨mem, hmem', rfl⟩) fun _ => ?_
  exact plain_matches (m := { m with state := .usual }) hmem hu

theorem dotDot_matches (hmem : SameMemory buf m.out m.u mem) (hu : m.u < m.out.length) :
    ArmMatches buf len (dotDotArm m)
      (NginxReference.dotDotCase (localsOf buf.length len mem m)) := by
  rw [dotDotArm, NginxReference.dotDotCase]
  refine .ite usual_iff_reference (fun _ => ?_) fun _ => ?_
  · exact emit_matches (m := { m with state := .usual }) hmem hu
  refine .ite Iff.rfl (fun _ => ?_) fun _ => ?_
  · cases pop_eq hmem (Nat.le_of_lt hu) with
    | inl hpop =>
        rw [hpop.1, hpop.2]
        exact ⟨_, rfl⟩
    | inr hpop =>
        obtain ⟨v, hscan, hv, hpop⟩ := hpop
        have hmem' := hmem.shrink hv
        have hch : (localsOf buf.length len mem m).ch = m.ch := rfl
        rw [hscan, hpop]
        simp only [Except.map, hch]
        by_cases hquestion : m.ch = question
        · rw [if_pos hquestion, if_pos hquestion]
          exact ⟨mem, hmem', rfl⟩
        · rw [if_neg hquestion, if_neg hquestion]
          by_cases hhash : m.ch = hash
          · rw [if_pos hhash, if_pos hhash]
            exact ⟨mem, hmem', rfl⟩
          · rw [if_neg hhash, if_neg hhash]
            exact ⟨mem, hmem', rfl⟩
  refine .ite Iff.rfl (fun _ => percent_matches hmem) fun _ => ?_
  exact plain_matches (m := { m with state := .usual }) hmem hu

theorem addU8_of_ok {a b c : UInt8} (h : addU8 a b = .ok c) : c = a + b := by
  rw [addU8] at h
  split at h
  · exact (Except.ok.inj h).symm
  · cases h

theorem isAsciiDigit_iff (ch : UInt8) : isAsciiDigit ch = true ↔ ch ≥ zero ∧ ch ≤ nine := by
  simp [isAsciiDigit]

theorem hexLetter_eq (ch : UInt8) :
    hexLetter ch =
      if ch ||| 0x20 ≥ lowerA ∧ ch ||| 0x20 ≤ lowerF then some (ch ||| 0x20) else none := rfl

theorem quoted_matches (hmem : SameMemory buf m.out m.u mem) :
    ArmMatches buf len (quotedArm m)
      (NginxReference.quotedCase (localsOf buf.length len mem m)) := by
  rw [quotedArm, NginxReference.quotedCase]
  refine .ite (isAsciiDigit_iff m.ch) (fun _ => ⟨mem, hmem, rfl⟩) fun _ => ?_
  rw [hexLetter_eq]
  by_cases hletter : m.ch ||| 0x20 ≥ lowerA ∧ m.ch ||| 0x20 ≤ lowerF
  · rw [if_pos hletter, if_pos (by exact hletter)]
    exact ⟨mem, hmem, rfl⟩
  · rw [if_neg hletter, if_neg (by exact hletter)]
    exact ⟨_, rfl⟩

theorem addU8_bind_of_ok {a b c : UInt8} (h : (addU8 a b).bind (addU8 · 10) = .ok c) :
    c = a + b + 10 := by
  cases hab : addU8 a b with
  | error e =>
      rw [hab] at h
      cases h
  | ok s =>
      rw [hab] at h
      rw [addU8_of_ok (show addU8 s 10 = .ok c from h), addU8_of_ok hab]

/-- The sums of the reference are cut to a byte where the port would panic on one that does
not fit; a saved digit below 16 leaves room for both. -/
theorem quotedSecond_matches (hmem : SameMemory buf m.out m.u mem) (hu : m.u < m.out.length)
    (hx : m.decoded < 16) :
    ArmMatches buf len (quotedSecondArm m)
      (NginxReference.quotedSecondCase (localsOf buf.length len mem m)) := by
  rw [quotedSecondArm, NginxReference.quotedSecondCase]
  obtain ⟨hd, hlt, _⟩ | ⟨hd, hl, hlt, _⟩ | ⟨hd, hl, _⟩ := hexDigit_cases m.ch
  · have hsum := (addU8_digit hx hlt).1
    rw [hsum, addU8_of_ok hsum]
    refine .ite (isAsciiDigit_iff m.ch) (fun _ => ?_) fun h => absurd hd h
    refine .ite Iff.rfl (fun _ => ?_) fun _ => ?_
    · exact emit_matches (m := { m with ch := _, state := .usual }) hmem hu
    exact .ite Iff.rfl (fun _ => ⟨_, rfl⟩) fun _ => ⟨mem, hmem, rfl⟩
  · have hsum := (addU8_letter hx hlt).1
    refine .ite (isAsciiDigit_iff m.ch) (fun h => absurd h (by simp [hd])) fun _ => ?_
    have hletter := hexLetter_eq m.ch
    by_cases hrange : m.ch ||| 0x20 ≥ lowerA ∧ m.ch ||| 0x20 ≤ lowerF
    · rw [hl, if_pos (by exact hrange)]
      simp only [hsum]
      rw [addU8_bind_of_ok hsum]
      refine .ite Iff.rfl (fun _ => ?_) fun _ => ?_
      · exact emit_matches (m := { m with ch := _, state := .usual }) hmem hu
      exact .ite Iff.rfl (fun _ => ⟨mem, hmem, rfl⟩) fun _ => ⟨mem, hmem, rfl⟩
    · rw [if_neg hrange, hl] at hletter
      cases hletter
  · refine .ite (isAsciiDigit_iff m.ch) (fun h => absurd h (by simp [hd])) fun _ => ?_
    have hletter := hexLetter_eq m.ch
    by_cases hrange : m.ch ||| 0x20 ≥ lowerA ∧ m.ch ||| 0x20 ≤ lowerF
    · rw [if_pos hrange, hl] at hletter
      cases hletter
    · rw [hl, if_neg (by exact hrange)]
      exact ⟨_, rfl⟩

theorem switch_matches (mergeSlashes : Bool) (h : Invariant buf m) (hp : m.p ≤ buf.length)
    (hmem : SameMemory buf m.out m.u mem) :
    ArmMatches buf len (complexUriArm mergeSlashes m)
      (NginxReference.complexUriSwitch (if mergeSlashes then 1 else 0)
        (localsOf buf.length len mem m)) := by
  have hroom := h.room
  have hu : m.u < m.out.length := by omega
  have hstate : (localsOf buf.length len mem m).state = swOf m.state := rfl
  rw [complexUriArm, NginxReference.complexUriSwitch, hstate]
  cases hs : m.state with
  | usual => exact usual_matches hmem hu
  | slash => exact slash_matches mergeSlashes hmem hu
  | dot => exact dot_matches hmem hu (h.dot (by simp [Locals.resumes, hs]))
  | dotDot => exact dotDot_matches hmem hu
  | quoted => exact quoted_matches hmem
  | quotedSecond => exact quotedSecond_matches hmem hu (h.digit hs)

theorem fetch_eq (len : Nat) (hmem : SameMemory buf m.out m.u mem) (hp : m.p ≤ buf.length) :
    (localsOf buf.length len mem m).fetch =
      .ok (localsOf buf.length len mem (m.advance (readWithLfSentinel buf))) := by
  have hload : (localsOf buf.length len mem m).mem.load (localsOf buf.length len mem m).p =
      .ok (readWithLfSentinel buf m.p) := load_input hmem.input hp
  rw [NginxReference.Locals.fetch, hload]
  simp only [Except.map, localsOf, Locals.advance, ptr_plus_one]

/-- Both machines at a loop head. -/
def Alongside (buf : List UInt8) (len : Nat) (m : Locals) (t : NginxReference.Locals) : Prop :=
  Invariant buf m ∧ ∃ mem, SameMemory buf m.out m.u mem ∧ t = localsOf buf.length len mem m

/-- Both machines where their loops are left. -/
def LoopMatches (buf : List UInt8) (len : Nat) :
    Except Failure (Flow Locals Exit) →
      Except NginxReference.Fault (Flow NginxReference.Locals NginxReference.Exit) → Prop
  | .error _, y => ∃ t, y = .ok (.ret (.invalid t))
  | .ok (.next m), y => ∃ t, Alongside buf len m t ∧ y = .ok (.next t)
  | .ok (.ret (.done m)), y => Leaving m ∧ ∃ mem, SameMemory buf m.out m.u mem ∧
      y = .ok (.ret (.done (localsOf buf.length len mem m)))
  | .ok (.ret (.args m)), y =>
      (Leaving m ∧ m.r.argsStart = some m.p ∧ 1 ≤ m.p) ∧
      ∃ mem, SameMemory buf m.out m.u mem ∧
        y = .ok (.ret (.args (localsOf buf.length len mem m)))

theorem guard_matches (mergeSlashes : Bool) {t : NginxReference.Locals}
    (h : Alongside buf len m t) :
    (NginxReference.complexUriLoop (if mergeSlashes then 1 else 0)).guard t =
      (complexUriLoop (readWithLfSentinel buf) buf mergeSlashes).guard m := by
  obtain ⟨_, mem, _, rfl⟩ := h
  simp [NginxReference.complexUriLoop, complexUriLoop, localsOf, requestOf, ptr]

/-- What the loops do with an arm and a case that end alike. -/
theorem flow_matches {x : Except Failure Arm}
    {y : Except NginxReference.Fault NginxReference.Break} (hstarted : 1 ≤ m.p)
    (hkeeps : ArmKeeps buf m x) (hmatches : ArmMatches buf len x y) :
    (∃ m' t', x.map (·.flow (readWithLfSentinel buf)) = .ok (.next m') ∧
      y.bind NginxReference.Break.flow = .ok (.next t') ∧ Alongside buf len m' t') ∨
    ((∀ m', x.map (·.flow (readWithLfSentinel buf)) ≠ .ok (.next m')) ∧
      (∀ t', y.bind NginxReference.Break.flow ≠ .ok (.next t')) ∧
      LoopMatches buf len (x.map (·.flow (readWithLfSentinel buf)))
        (y.bind NginxReference.Break.flow)) := by
  cases x with
  | error e =>
      obtain ⟨t, rfl⟩ := hmatches
      exact .inr ⟨fun _ => error_ne_next _ _, fun _ => ret_ne_next _ _, t, rfl⟩
  | ok arm =>
      obtain ⟨mem, hmem, rfl⟩ := hmatches
      cases arm with
      | advance m' =>
          have hnext : Invariant buf (m'.advance (readWithLfSentinel buf)) := hkeeps _
          have hcursor : m'.p + 1 ≤ buf.length + 1 := hnext.cursor
          have hfetch := fetch_eq (m := m') len hmem (Nat.le_of_succ_le_succ hcursor)
          refine .inl ⟨_, _, rfl, ?_, hnext, mem, hmem, rfl⟩
          rw [breakOf, Except.bind, NginxReference.Break.flow, hfetch]
          rfl
      | hold m' => exact .inl ⟨_, _, rfl, rfl, hkeeps, mem, hmem, rfl⟩
      | done m' =>
          exact .inr ⟨fun _ => ret_ne_next _ _, fun _ => ret_ne_next _ _, hkeeps, mem, hmem, rfl⟩
      | args m' =>
          have hp : 1 ≤ m'.p := hkeeps.2.2 ▸ hstarted
          exact .inr ⟨fun _ => ret_ne_next _ _, fun _ => ret_ne_next _ _,
            ⟨hkeeps.1, hkeeps.2.1, hp⟩, mem, hmem, rfl⟩

/-- From any loop head where they agree, both machines leave their loops alike. -/
theorem loop_matches (mergeSlashes : Bool) {t : NginxReference.Locals}
    (h : Alongside buf len m t) {k : Nat} {x : Except Failure (Flow Locals Exit)}
    (heval : (complexUriLoop (readWithLfSentinel buf) buf mergeSlashes).Evals k m x) :
    ∃ y, (NginxReference.complexUriLoop (if mergeSlashes then 1 else 0)).Evals k t y ∧
      LoopMatches buf len x y := by
  apply Loop.Evals.lockstep (R := Alongside buf len) _ _ _ heval h
  · intro m t h
    exact guard_matches mergeSlashes h
  · intro m t h hguard
    obtain ⟨hinv, mem, hmem, rfl⟩ := h
    have hp := guard_iff.mp hguard
    exact flow_matches hinv.started (hinv.arm hp mergeSlashes)
      (switch_matches mergeSlashes hinv hp hmem)
  · intro m t h _
    exact ⟨t, h, rfl⟩

theorem toSize_sub (a b : Nat) : NginxReference.toSize ((a : Int) - b) = wrappingSub a b := by
  rw [NginxReference.toSize, wrappingSub]
  by_cases h : b ≤ a
  · rw [if_pos h, if_pos (by omega)]
    omega
  · rw [if_neg h, if_neg (by omega)]
    omega

/-- `finish_done` against the label `done`. -/
theorem done_eq (n len : Nat) {r : Request} (u : Nat) (hext : ∀ e, r.uriExt = some e → 1 ≤ e) :
    NginxReference.doneLabel (requestOf .nbuf n (outputStr len) r) (ptr .nbuf u) =
      .ok (requestOf .nbuf n (outputStr u) (finishDone r u)) := by
  have hlen : NginxReference.toSize ((u : Int) - ((0 : Nat) : Int)) = u := toSize_sub u 0
  cases h : r.uriExt with
  | none =>
      simp only [NginxReference.doneLabel, requestOf, outputStr, ptr, hlen, h, finishDone,
        Option.map_none]
  | some e =>
      have hne : e ≠ 0 := Nat.ne_of_gt (hext e h)
      simp only [NginxReference.doneLabel, requestOf, outputStr, ptr, hlen, h, finishDone,
        Option.map_some, Option.map_none, strOf, hne, ite_false, toSize_sub]

theorem pastHash_matches (hinput : mem.inbuf = buf ++ [lineFeed]) (p : Nat) :
    NginxReference.pastHash mem (ptr .inbuf buf.length) (ptr .inbuf p) =
      .ok ((pastHash buf p).map (ptr .inbuf)) := by
  have hload : ∀ i (hi : i < buf.length), mem.load (ptr .inbuf i) = .ok buf[i] := by
    intro i hi
    rw [load_input hinput (Nat.le_of_lt hi)]
    simp [readWithLfSentinel, readWithSentinel, hi]
  have hguard : ∀ i, (ptr .inbuf i).off < (ptr .inbuf buf.length).off ↔ i < buf.length := by
    intro i
    exact Int.ofNat_lt
  induction p using pastHash.induct buf with
  | case1 p hp hhash =>
      rw [NginxReference.pastHash, if_pos ((hguard p).mpr hp), hload p hp, pastHash, dif_pos hp,
        if_pos hhash]
      simp [hhash]
  | case2 p hp hhash ih =>
      rw [NginxReference.pastHash, if_pos ((hguard p).mpr hp), hload p hp, pastHash, dif_pos hp,
        if_neg hhash]
      simpa [hhash] using ih
  | case3 p hp =>
      rw [NginxReference.pastHash, if_neg (mt (hguard p).mp hp), pastHash, dif_neg hp]
      rfl

/-- `finish_args` against the label `args`. -/
theorem args_eq (len : Nat) (hinput : mem.inbuf = buf ++ [lineFeed])
    (hargs : m.r.argsStart = some m.p) (hp : 1 ≤ m.p)
    (hext : ∀ e, m.r.uriExt = some e → 1 ≤ e) :
    ∃ r, finishArgs m.r buf m.u m.p = .ok r ∧ r.uri.len = m.u ∧
      NginxReference.argsLabel mem (requestOf .nbuf buf.length (outputStr len) m.r)
        (ptr .nbuf m.u) (ptr .inbuf m.p) =
          .ok (requestOf .nbuf buf.length (outputStr m.u) r) := by
  have hhash : NginxReference.pastHash mem
      (requestOf .nbuf buf.length (outputStr len) m.r).uriEnd (ptr .inbuf m.p) =
      .ok ((pastHash buf m.p).map (ptr .inbuf)) := pastHash_matches hinput m.p
  rw [finishArgs, NginxReference.argsLabel, hhash]
  cases hq : pastHash buf m.p with
  | none => exact ⟨_, rfl, finishDone_len _ _, done_eq buf.length len m.u hext⟩
  | some q =>
      have hrange := pastHash_range hq
      have hne : m.p ≠ 0 := by omega
      have hlen : NginxReference.toSize ((q : Int) - 1 - m.p) = wrappingSub (q - 1) m.p := by
        rw [← toSize_sub]
        congr 2
        omega
      simp only [hargs]
      refine ⟨_, rfl, finishDone_len _ _, ?_⟩
      rw [← done_eq buf.length len m.u (by exact hext)]
      simp only [requestOf, strOf, ptr, hne, hargs, hlen, Option.map_some, Option.map_none,
        ite_false]

/-- Both stages 2 reject, or both succeed with corresponding requests and the same bytes. -/
def StageTwoMatches (buf : List UInt8) :
    Except Failure (Request × List UInt8) →
      Except NginxReference.Fault (Int × NginxReference.Request × NginxReference.Memory) → Prop
  | .error _, y => ∃ r mem, y = .ok (NginxReference.NGX_HTTP_PARSE_INVALID_REQUEST, r, mem)
  | .ok (r, out), y => ∃ mem, SameMemory buf out r.uri.len mem ∧
      y = .ok (NginxReference.NGX_OK,
        requestOf .nbuf buf.length (outputStr r.uri.len) r, mem)

theorem leave_done {v : Nat} (hmem : SameMemory buf m.out v mem)
    (hext : ∀ e, m.r.uriExt = some e → 1 ≤ e) :
    StageTwoMatches buf (.ok (finishDone m.r v, m.out))
      (NginxReference.leave (.done (localsOf buf.length len mem { m with u := v }))) := by
  have hdone := done_eq buf.length len v hext
  have hleave : NginxReference.leave (.done (localsOf buf.length len mem { m with u := v })) =
      (NginxReference.doneLabel (requestOf .nbuf buf.length (outputStr len) m.r)
        (ptr .nbuf v)).map (NginxReference.NGX_OK, ·, mem) := rfl
  rw [hleave, hdone]
  refine ⟨mem, ?_, ?_⟩
  · rwa [finishDone_len]
  · rw [finishDone_len]
    rfl

theorem endOfInput_matches (h : Invariant buf m) (hmem : SameMemory buf m.out m.u mem) :
    StageTwoMatches buf (endOfInput m)
      ((NginxReference.endOfInput (localsOf buf.length len mem m)).bind
        NginxReference.leave) := by
  have hu : m.u ≤ m.out.length := Nat.le_trans (Nat.le_add_right _ _) h.room
  have hext : ∀ e, m.r.uriExt = some e → 1 ≤ e := fun e he => (h.ext e he).2.1
  have hstate : (localsOf buf.length len mem m).state = swOf m.state := rfl
  rw [endOfInput, NginxReference.endOfInput, hstate]
  cases hs : m.state with
  | usual | slash => exact leave_done hmem hext
  | dot =>
      have hdot : 1 ≤ m.u := h.dot (by simp [Locals.resumes, hs])
      have hback : (localsOf buf.length len mem m).u.plus (-1) = ptr .nbuf (m.u - 1) :=
        ptr_back hdot .nbuf
      simp only [swOf, Locals.back_eq hdot, hback]
      exact leave_done (hmem.shrink (Nat.sub_le m.u 1)) hext
  | dotDot =>
      simp only [swOf]
      cases pop_eq hmem hu with
      | inl hpop =>
          rw [hpop.1, hpop.2]
          exact ⟨_, _, rfl⟩
      | inr hpop =>
          obtain ⟨v, hscan, hv, hpop⟩ := hpop
          rw [hscan, hpop]
          exact leave_done (hmem.shrink hv) hext
  | quoted | quotedSecond => exact ⟨_, _, rfl⟩

theorem afterLoop_matches {x : Except Failure (Flow Locals Exit)}
    {y : Except NginxReference.Fault (Flow NginxReference.Locals NginxReference.Exit)}
    (h : LoopMatches buf len x y) :
    StageTwoMatches buf (x.bind (afterLoop buf)) (y.bind NginxReference.afterLoop) := by
  match x with
  | .error e =>
      obtain ⟨t, rfl⟩ := h
      exact ⟨_, _, rfl⟩
  | .ok (.next m) =>
      obtain ⟨t, ⟨hinv, mem, hmem, rfl⟩, rfl⟩ := h
      exact endOfInput_matches hinv hmem
  | .ok (.ret (.done m)) =>
      obtain ⟨hleaving, mem, hmem, rfl⟩ := h
      exact leave_done hmem fun e he => (hleaving.ext e he).1
  | .ok (.ret (.args m)) =>
      obtain ⟨⟨hleaving, hargs, hp⟩, mem, hmem, rfl⟩ := h
      obtain ⟨r, hfinish, hlen, hlabel⟩ := args_eq len hmem.input hargs hp
        fun e he => (hleaving.ext e he).1
      have hleave : NginxReference.leave (.args (localsOf buf.length len mem m)) =
          (NginxReference.argsLabel mem (requestOf .nbuf buf.length (outputStr len) m.r)
            (ptr .nbuf m.u) (ptr .inbuf m.p)).map (NginxReference.NGX_OK, ·, mem) := rfl
      simp only [Except.bind, afterLoop, NginxReference.afterLoop, hfinish, hleave, hlabel,
        Except.map]
      exact ⟨mem, hlen.symm ▸ hmem, by rw [hlen]⟩

/-- The locals before anything is written or read. -/
def entry (r : Request) (out : List UInt8) : Locals :=
  { r := { r with uriExt := none, argsStart := none }, out, state := .usual,
    quotedState := .usual, decoded := 0, p := 0, u := 0, ch := 0 }

theorem init_matches (len : Nat) {out : List UInt8} (hmem : SameMemory buf out 0 mem)
    (hout : buf.length + 1 ≤ out.length) (base : NginxReference.Block) (r : Request) :
    ∃ m t, Locals.init (readWithLfSentinel buf) r out = .ok m ∧
      NginxReference.Locals.init mem (requestOf base buf.length (outputStr len) r) = .ok t ∧
      Alongside buf len m t := by
  obtain ⟨m, hinit, hinv⟩ := init_invariant (readWithLfSentinel buf) r hout
  have hport : Locals.init (readWithLfSentinel buf) r out =
      (if r.emptyPathInUri then (entry r out).write slash else .ok (entry r out)).map
        (·.advance (readWithLfSentinel buf)) := rfl
  have href : NginxReference.Locals.init mem (requestOf base buf.length (outputStr len) r) =
      (if r.emptyPathInUri then (localsOf buf.length len mem (entry r out)).put slash
        else .ok (localsOf buf.length len mem (entry r out))).bind
          NginxReference.Locals.fetch := rfl
  refine ⟨m, ?_⟩
  rw [hinit, href]
  cases hempty : r.emptyPathInUri with
  | false =>
      rw [hport, hempty] at hinit
      obtain rfl := Except.ok.inj hinit
      exact ⟨_, rfl, fetch_eq len hmem (Nat.zero_le _), hinv, mem, hmem, rfl⟩
  | true =>
      have hu : (entry r out).u < (entry r out).out.length :=
        Nat.lt_of_lt_of_le (Nat.succ_pos _) hout
      obtain ⟨mem', hmem', hput⟩ := put_eq len hmem hu slash
      rw [hport, hempty, Locals.write, if_pos hu] at hinit
      obtain rfl := Except.ok.inj hinit
      rw [if_pos rfl, hput]
      exact ⟨_, rfl, fetch_eq len (m := { entry r out with out := out.set 0 slash, u := 1 })
        hmem' (Nat.zero_le _), hinv, mem', hmem', rfl⟩

/-- Stage 2 of the port and of the reference, on corresponding requests and with room for
the result. -/
theorem reference_parseComplexUri (len : Nat) {out : List UInt8} (hmem : SameMemory buf out 0 mem)
    (hout : buf.length + 1 ≤ out.length) (base : NginxReference.Block) (r : Request)
    (mergeSlashes : Bool) :
    StageTwoMatches buf (ngxHttpParseComplexUri r buf out mergeSlashes)
      (NginxReference.ngxHttpParseComplexUri mem
        (requestOf base buf.length (outputStr len) r) (if mergeSlashes then 1 else 0)) := by
  obtain ⟨m, t, hinit, hinit', halong⟩ := init_matches len hmem hout base r
  obtain ⟨m', hinit'', hbetween, _⟩ := init_between (readWithLfSentinel buf) r hout
  obtain rfl : m' = m := Except.ok.inj (hinit''.symm.trans hinit)
  obtain ⟨k, x, hk, heval, _⟩ :=
    loop_meaning mergeSlashes (readsBuffer_sentinel lineFeed buf) (Nat.zero_le _) hbetween
  obtain ⟨y, heval', hmatches⟩ := loop_matches mergeSlashes halong heval
  have hrun : (complexUriLoop (readWithLfSentinel buf) buf mergeSlashes).run .diverged
      (2 * buf.length) m' = x := Loop.run_of_evals heval .diverged (by omega)
  have hfuel : k ≤ 2 * mem.inbuf.length := by
    rw [hmem.input, List.length_append]
    omega
  rw [ngxHttpParseComplexUri, parseComplexUriWith, hinit, NginxReference.ngxHttpParseComplexUri,
    hinit']
  simp only [hrun, Loop.run_of_evals heval' .diverged hfuel]
  exact afterLoop_matches hmatches

end
end UrlParseNginx
