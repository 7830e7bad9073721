import UrlParseNginx.ComplexUri
import UrlParseNginx.PathMeaning

/-!
What each arm of stage 2 does, said once. The four arms that copy a path follow
the streaming normalizer on every byte but `%`, `?` and `#`, and they leave the
loop the way the normalizer finishes; the two arms of an escape compute its byte.
-/
namespace UrlParseNginx
open Ascii PercentCoding DotSegments

/-- The machine state of a mode of the normalizer. -/
def stateOf : Mode → State
  | .usual => .usual
  | .slash => .slash
  | .dot => .dot
  | .dotDot => .dotDot

/-- What the machine has written. -/
def Locals.written (m : Locals) : List UInt8 := m.out.take m.u

/-- The request fields that stage 2 changes only in its tails. -/
structure SameTail (r r' : Request) : Prop where
  uri : r'.uri = r.uri
  args : r'.args = r.args
  exten : r'.exten = r.exten
  argsStart : r'.argsStart = r.argsStart
  complexUri : r'.complexUri = r.complexUri
  emptyPathInUri : r'.emptyPathInUri = r.emptyPathInUri

theorem SameTail.refl (r : Request) : SameTail r r := ⟨rfl, rfl, rfl, rfl, rfl, rfl⟩

theorem SameTail.trans {r r' r'' : Request} (h : SameTail r r') (h' : SameTail r' r'') :
    SameTail r r'' :=
  ⟨h'.uri.trans h.uri, h'.args.trans h.args, h'.exten.trans h.exten,
    h'.argsStart.trans h.argsStart, h'.complexUri.trans h.complexUri,
    h'.emptyPathInUri.trans h.emptyPathInUri⟩

theorem Locals.emit_eq {m : Locals} (h : m.u < m.out.length) :
    m.emit = .ok { m with out := m.out.set m.u m.ch, u := m.u + 1 } := by
  simp [Locals.emit, Locals.write, h]

theorem Locals.back_eq {m : Locals} (h : 1 ≤ m.u) :
    m.back = .ok { m with u := m.u - 1 } := by
  have hne : m.u ≠ 0 := by omega
  simp [Locals.back, hne]

theorem take_length_sub_three {out : List UInt8} {u : Nat} (hu : u ≤ out.length) :
    (out.take u).take ((out.take u).length - 3) = out.take (u - 3) := by
  rw [List.length_take, Nat.min_eq_left hu, List.take_take, Nat.min_eq_left (Nat.sub_le u 3)]

/-- The backwards scan is the pop of the normalizer. -/
theorem backwardsScan_eq {out : List UInt8} {u : Nat} (hu : u ≤ out.length) :
    (popOutput slash (out.take u) = none ∧ backwardsScan out u = .error .parseError) ∨
    ∃ v, v + 3 ≤ u ∧ popOutput slash (out.take u) = some (out.take v) ∧
      backwardsScan out u = .ok v := by
  rw [popOutput, take_length_sub_three hu, backwardsScan]
  by_cases h4 : u < 4
  · have hzero : u - 3 = 0 := by omega
    simp [h4, hzero, Buffer.rposition]
  · have hlt : u - 4 < out.length := by omega
    have hpos : u - 4 + 1 = u - 3 := by omega
    simp only [h4, hlt, ite_false, ite_true, hpos]
    cases hr : Buffer.rposition (· == slash) (out.take (u - 3)) with
    | none => simp
    | some i =>
        have hi := Buffer.rposition_lt hr
        rw [List.length_take] at hi
        have hmin : min (i + 1) u = i + 1 := by omega
        exact .inr ⟨i + 1, by omega, by simp [List.take_take, hmin], by simp⟩

/-- What the copying states do to the output cursor before a tail. -/
def settle (m : Locals) : Except Failure Locals :=
  match m.state with
  | .dot => m.back
  | .dotDot => (backwardsScan m.out m.u).map fun u => { m with u := u }
  | _ => .ok m

/-- A pending dot segment is resolved as the normalizer's `finish` does. -/
theorem settle_eq {m : Locals} {k : Mode} (hs : m.state = stateOf k)
    (hu : m.u ≤ m.out.length) (hdot : k = .dot → 1 ≤ m.u) :
    (finish slash (k, m.written) = none ∧ settle m = .error .parseError) ∨
    ∃ v, v ≤ m.u ∧ finish slash (k, m.written) = some (m.out.take v) ∧
      settle m = .ok { m with u := v } := by
  cases k with
  | usual | slash =>
      have hstay : settle m = .ok m := by simp [settle, hs, stateOf]
      exact .inr ⟨m.u, Nat.le_refl _, rfl, hstay⟩
  | dot =>
      refine .inr ⟨m.u - 1, Nat.sub_le _ _, ?_, ?_⟩
      · simp only [finish, Locals.written, Buffer.take_pred hu]
      · simp [settle, hs, stateOf, Locals.back_eq (hdot rfl)]
  | dotDot =>
      cases backwardsScan_eq hu with
      | inl h => exact .inl ⟨h.1, by simp [settle, hs, stateOf, h.2, Except.map]⟩
      | inr h =>
          obtain ⟨v, hv, hpop, hscan⟩ := h
          exact .inr ⟨v, by omega, hpop, by simp [settle, hs, stateOf, hscan, Except.map]⟩

theorem arm_question {m : Locals} {k : Mode} (mergeSlashes : Bool) (hs : m.state = stateOf k)
    (hch : m.ch = question) :
    complexUriArm mergeSlashes m =
      (settle m).map fun m' => .args { m' with r.argsStart := some m'.p } := by
  cases k with
  | usual => simp +decide [complexUriArm, hs, stateOf, usualArm, hch, settle, Except.map]
  | slash => simp +decide [complexUriArm, hs, stateOf, slashArm, hch, settle, Except.map]
  | dot =>
      by_cases hu : m.u = 0 <;>
        simp +decide [complexUriArm, hs, stateOf, dotArm, hch, settle, Locals.back, hu, Except.map]
  | dotDot =>
      cases h : backwardsScan m.out m.u <;>
        simp +decide [complexUriArm, hs, stateOf, dotDotArm, hch, settle, h, Except.map]

theorem arm_hash {m : Locals} {k : Mode} (mergeSlashes : Bool) (hs : m.state = stateOf k)
    (hch : m.ch = hash) : complexUriArm mergeSlashes m = (settle m).map .done := by
  cases k with
  | usual => simp +decide [complexUriArm, hs, stateOf, usualArm, hch, settle, Except.map]
  | slash => simp +decide [complexUriArm, hs, stateOf, slashArm, hch, settle, Except.map]
  | dot => simp +decide [complexUriArm, hs, stateOf, dotArm, hch, settle]
  | dotDot =>
      cases h : backwardsScan m.out m.u <;>
        simp +decide [complexUriArm, hs, stateOf, dotDotArm, hch, settle, h, Except.map]

theorem endOfInput_eq {m : Locals} {k : Mode} (hs : m.state = stateOf k) :
    endOfInput m = (settle m).map fun m' => (finishDone m'.r m'.u, m'.out) := by
  cases k with
  | usual | slash | dot => simp [endOfInput, hs, stateOf, settle, Except.map]
  | dotDot =>
      cases h : backwardsScan m.out m.u <;>
        simp [endOfInput, hs, stateOf, settle, h, Except.map]

theorem arm_percent {m : Locals} {k : Mode} (mergeSlashes : Bool) (hs : m.state = stateOf k)
    (hch : m.ch = percent) :
    complexUriArm mergeSlashes m =
      .ok (.advance { m with quotedState := m.state, state := .quoted }) := by
  cases k <;>
    simp +decide [complexUriArm, hs, stateOf, usualArm, slashArm, dotArm, dotDotArm, hch]

/-- The mode after a byte that is written. -/
def nextMode (k : Mode) (ch : UInt8) : Mode :=
  if ch = slash then .slash
  else
    match k with
    | .slash => if ch = dot then .dot else .usual
    | .dot => if ch = dot then .dotDot else .usual
    | .usual | .dotDot => .usual

/-- The request after a byte that is written: `.` opens an extension and `/` drops
it, but only in `Usual`. -/
def nextRequest (k : Mode) (m : Locals) : Request :=
  if m.ch = plus then { m.r with plusInUri := true }
  else if k = .usual ∧ m.ch = slash then { m.r with uriExt := none }
  else if k = .usual ∧ m.ch = dot then { m.r with uriExt := some (m.u + 1) }
  else m.r

theorem nextRequest_tail (k : Mode) (m : Locals) : SameTail m.r (nextRequest k m) := by
  unfold nextRequest
  repeat' split
  all_goals exact ⟨rfl, rfl, rfl, rfl, rfl, rfl⟩

theorem nextRequest_ext {k : Mode} {m : Locals} {e : Nat}
    (h : (nextRequest k m).uriExt = some e) :
    (m.r.uriExt = some e ∨ (k = .usual ∧ e = m.u + 1)) ∧ (k = .usual → m.ch ≠ slash) := by
  unfold nextRequest at h
  split at h
  · rename_i hplus
    exact ⟨.inl h, fun _ => by rw [hplus]; decide⟩
  · split at h
    · cases h
    · rename_i hslash
      split at h
      · rename_i hd
        exact ⟨.inr ⟨hd.1, (Option.some.inj h).symm⟩, fun hk hs => hslash ⟨hk, hs⟩⟩
      · exact ⟨.inl h, fun hk hs => hslash ⟨hk, hs⟩⟩

/-- Every byte is written but the slash that closes an empty or a dot segment. -/
def Writes (mergeSlashes : Bool) (k : Mode) (ch : UInt8) : Prop :=
  ch = slash → k = .usual ∨ (k = .slash ∧ mergeSlashes = false)

theorem feed_writes {mergeSlashes : Bool} {k : Mode} {ch : UInt8}
    (hw : Writes mergeSlashes k ch) (out : List UInt8) :
    feed slash dot mergeSlashes (k, out) ch = some (nextMode k ch, out ++ [ch]) := by
  by_cases hslash : ch = slash
  · obtain rfl | ⟨rfl, rfl⟩ := hw hslash
    · simp [feed, nextMode, hslash]
    · simp [feed, nextMode, hslash]
  · cases k <;> by_cases hd : ch = dot <;> simp +decide [feed, nextMode, hslash, hd]

theorem arm_writes {m : Locals} {k : Mode} {mergeSlashes : Bool} (hs : m.state = stateOf k)
    (hch : m.ch ≠ percent ∧ m.ch ≠ question ∧ m.ch ≠ hash)
    (hw : Writes mergeSlashes k m.ch) :
    complexUriArm mergeSlashes m =
      { m with r := nextRequest k m, state := stateOf (nextMode k m.ch) : Locals }.emit.map
        .advance := by
  obtain ⟨r, out, state, quotedState, decoded, p, u, ch⟩ := m
  simp only at hs hch hw
  subst hs
  by_cases hslash : ch = slash
  · subst hslash
    obtain rfl | ⟨rfl, rfl⟩ := hw rfl
    · simp +decide [complexUriArm, stateOf, usualArm, nextRequest, nextMode]
    · simp +decide [complexUriArm, stateOf, slashArm, nextRequest, nextMode]
  · by_cases hd : ch = dot
    · subst hd
      cases k <;>
        simp +decide [complexUriArm, stateOf, usualArm, slashArm, dotArm, dotDotArm,
          nextRequest, nextMode]
    · by_cases hplus : ch = plus
      · subst hplus
        cases k <;>
          simp +decide [complexUriArm, stateOf, usualArm, slashArm, dotArm, dotDotArm,
            nextRequest, nextMode]
      · cases k <;>
          simp [complexUriArm, stateOf, usualArm, slashArm, dotArm, dotDotArm, nextRequest,
            nextMode, hslash, hd, hplus, hch]

/-- The slash that closes an empty or a dot segment moves the cursor back. -/
theorem arm_slash {m : Locals} {k : Mode} {mergeSlashes : Bool} (hs : m.state = stateOf k)
    (hch : m.ch = slash) (hw : ¬ Writes mergeSlashes k m.ch) :
    complexUriArm mergeSlashes m =
      (settle m).map fun m' => .advance { m' with state := .slash } := by
  obtain ⟨r, out, state, quotedState, decoded, p, u, ch⟩ := m
  simp only at hs hch hw
  subst hs hch
  cases k with
  | usual => exact absurd (fun _ => .inl rfl) hw
  | slash =>
      cases mergeSlashes with
      | false => exact absurd (fun _ => .inr ⟨rfl, rfl⟩) hw
      | true => simp [complexUriArm, stateOf, slashArm, settle, Except.map]
  | dot =>
      by_cases hu : u = 0 <;>
        simp [complexUriArm, stateOf, dotArm, settle, Locals.back, hu, Except.map]
  | dotDot =>
      cases h : backwardsScan out u <;>
        simp +decide [complexUriArm, stateOf, dotDotArm, settle, h, Except.map]

theorem feed_slash {mergeSlashes : Bool} {k : Mode} {ch : UInt8} (hch : ch = slash)
    (hw : ¬ Writes mergeSlashes k ch) (out : List UInt8) :
    feed slash dot mergeSlashes (k, out) ch =
      (finish slash (k, out)).map fun out' => (.slash, out') := by
  subst hch
  cases k with
  | usual => exact absurd (fun _ => .inl rfl) hw
  | slash =>
      cases mergeSlashes with
      | false => exact absurd (fun _ => .inr ⟨rfl, rfl⟩) hw
      | true => simp [feed, finish]
  | dot => simp [feed, finish]
  | dotDot => simp [feed, finish]

/-- After an arm that reads on: the normalizer's new state, and what stayed. An extension
is kept or opened only in `Usual`. -/
structure Copied (m : Locals) (c : Mode × List UInt8) (m' : Locals) : Prop where
  ext : ∀ e, m'.r.uriExt = some e → m.r.uriExt = some e ∨ (m.state = .usual ∧ e = m.u + 1)
  stays : ∀ e, m'.r.uriExt = some e → m.state = .usual → m'.state = .usual ∧ m'.u = m.u + 1
  state : m'.state = stateOf c.1
  written : m'.written = c.2
  dot : c.1 = .dot → 1 ≤ m'.u
  grown : m'.u ≤ m.u + 1
  length : m'.out.length = m.out.length
  p : m'.p = m.p
  quotedState : m'.quotedState = m.quotedState
  tail : SameTail m.r m'.r

theorem Copied.write {m : Locals} {k : Mode} (hs : m.state = stateOf k)
    (hroom : m.u < m.out.length) :
    Copied m (nextMode k m.ch, m.written ++ [m.ch])
      { m with
        r := nextRequest k m
        state := stateOf (nextMode k m.ch)
        out := m.out.set m.u m.ch
        u := m.u + 1 } := by
  refine ⟨fun e he => ?_, fun e he hm => ⟨?_, rfl⟩, rfl, Buffer.take_set_succ m.ch hroom,
    fun _ => Nat.succ_pos m.u, Nat.le_refl _, List.length_set, rfl, rfl, nextRequest_tail k m⟩
  · exact (nextRequest_ext he).1.imp_right fun ⟨hk, he⟩ => ⟨by rw [hs, hk]; rfl, he⟩
  · have hk : k = .usual := by
      rw [hs] at hm
      cases k <;> first | rfl | cases hm
    have hne := (nextRequest_ext he).2 hk
    simp [nextMode, hk, hne, stateOf]

theorem Copied.close {m : Locals} {k : Mode} {mergeSlashes : Bool} {v : Nat}
    (hs : m.state = stateOf k) (hcloses : ¬ Writes mergeSlashes k m.ch) (hv : v ≤ m.u) :
    Copied m (.slash, m.out.take v) { m with u := v, state := .slash } := by
  refine ⟨fun e he => .inl he, fun e _ hm => ?_, rfl, rfl, by simp, Nat.le_succ_of_le hv, rfl, rfl,
    rfl, SameTail.refl _⟩
  rw [hs] at hm
  cases k with
  | usual => exact absurd (fun _ => .inl rfl) hcloses
  | slash | dot | dotDot => cases hm

theorem slash_of_closes {mergeSlashes : Bool} {k : Mode} {ch : UInt8}
    (hcloses : ¬ Writes mergeSlashes k ch) : ch = slash := by
  by_contra h
  exact hcloses fun h' => absurd h' h

/-- A copying arm on a byte with no syntax of its own follows the normalizer. -/
theorem arm_copy {m : Locals} {k : Mode} (mergeSlashes : Bool) (hs : m.state = stateOf k)
    (hch : m.ch ≠ percent ∧ m.ch ≠ question ∧ m.ch ≠ hash) (hroom : m.u < m.out.length)
    (hdot : k = .dot → 1 ≤ m.u) :
    (feed slash dot mergeSlashes (k, m.written) m.ch = none ∧
      complexUriArm mergeSlashes m = .error .parseError) ∨
    ∃ c m', feed slash dot mergeSlashes (k, m.written) m.ch = some c ∧
      complexUriArm mergeSlashes m = .ok (.advance m') ∧ Copied m c m' := by
  by_cases hw : Writes mergeSlashes k m.ch
  · refine .inr ⟨_, _, feed_writes hw _, ?_, .write hs hroom⟩
    rw [arm_writes hs hch hw, Locals.emit_eq (by exact hroom)]
    rfl
  · have hslash := slash_of_closes hw
    rw [arm_slash hs hslash hw, feed_slash hslash hw]
    cases settle_eq hs (Nat.le_of_lt hroom) hdot with
    | inl h => exact .inl ⟨by rw [h.1]; rfl, by rw [h.2]; rfl⟩
    | inr h =>
        obtain ⟨v, hv, hfin, hset⟩ := h
        exact .inr ⟨_, _, by rw [hfin]; rfl, by rw [hset]; rfl, .close hs hw hv⟩

/-- The two tests for a hex digit are those of `hexValue`. -/
theorem hexDigit_cases (ch : UInt8) :
    (isAsciiDigit ch = true ∧ ch - zero < 10 ∧ hexValue ch = some (ch - zero)) ∨
    (isAsciiDigit ch = false ∧ hexLetter ch = some (ch ||| 0x20) ∧
      (ch ||| 0x20) - lowerA < 6 ∧ hexValue ch = some ((ch ||| 0x20) - lowerA + 10)) ∨
    (isAsciiDigit ch = false ∧ hexLetter ch = none ∧ hexValue ch = none) := by
  apply forall_byte (P := fun ch =>
    (isAsciiDigit ch = true ∧ ch - zero < 10 ∧ hexValue ch = some (ch - zero)) ∨
    (isAsciiDigit ch = false ∧ hexLetter ch = some (ch ||| 0x20) ∧
      (ch ||| 0x20) - lowerA < 6 ∧ hexValue ch = some ((ch ||| 0x20) - lowerA + 10)) ∨
    (isAsciiDigit ch = false ∧ hexLetter ch = none ∧ hexValue ch = none))
  decide +kernel

theorem forall_nibbles {P : UInt8 → UInt8 → Prop}
    (h : ∀ i j : Fin 16, P (UInt8.ofNat i) (UInt8.ofNat j)) {x y : UInt8} (hx : x < 16)
    (hy : y < 16) : P x y := by
  have hi : x.toNat < 16 := hx
  have hj : y.toNat < 16 := hy
  have hxy := h ⟨x.toNat, hi⟩ ⟨y.toNat, hj⟩
  simpa only [UInt8.ofNat_toNat] using hxy

/-- Shifting the first digit leaves room for a decimal second one, whose value is
neither of the bytes that the other branch tests for. -/
theorem addU8_digit {x d : UInt8} (hx : x < 16) (hd : d < 10) :
    addU8 (x <<< 4) d = .ok (x * 16 + d) ∧ x * 16 + d ≠ question ∧ x * 16 + d ≠ plus := by
  have h16 : d < 16 := Nat.lt_trans hd (by decide)
  revert hd
  exact forall_nibbles (P := fun x d => d < 10 →
    addU8 (x <<< 4) d = .ok (x * 16 + d) ∧ x * 16 + d ≠ question ∧ x * 16 + d ≠ plus)
    (by decide +kernel) hx h16

theorem addU8_letter {x d : UInt8} (hx : x < 16) (hd : d < 6) :
    (addU8 (x <<< 4) d).bind (addU8 · 10) = .ok (x * 16 + (d + 10)) ∧
      x * 16 + (d + 10) ≠ percent ∧ x * 16 + (d + 10) ≠ hash ∧ x * 16 + (d + 10) ≠ nul := by
  have h16 : d < 16 := Nat.lt_trans hd (by decide)
  revert hd
  exact forall_nibbles (P := fun x d => d < 6 →
    (addU8 (x <<< 4) d).bind (addU8 · 10) = .ok (x * 16 + (d + 10)) ∧
      x * 16 + (d + 10) ≠ percent ∧ x * 16 + (d + 10) ≠ hash ∧ x * 16 + (d + 10) ≠ nul)
    (by decide +kernel) hx h16

theorem arm_quoted {m : Locals} (mergeSlashes : Bool) (hs : m.state = .quoted) :
    complexUriArm mergeSlashes m =
      match hexValue m.ch with
      | some x =>
          .ok (.advance { m with r.quotedUri := true, decoded := x, state := .quotedSecond })
      | none => .error .parseError := by
  simp only [complexUriArm, hs]
  obtain ⟨hd, _, hx⟩ | ⟨hd, hl, _, hx⟩ | ⟨hd, hl, hx⟩ := hexDigit_cases m.ch
  · simp [quotedArm, hd, hx]
  · simp [quotedArm, hd, hl, hx]
  · simp [quotedArm, hd, hl, hx]

/-- The bytes that an escape makes literal, whatever state it interrupts. -/
def Literal (v : UInt8) : Prop := v = percent ∨ v = question ∨ v = hash

instance (v : UInt8) : Decidable (Literal v) := inferInstanceAs (Decidable (_ ∨ _ ∨ _))

/-- The second digit completes the byte `v`: it is copied, rejected, or kept in
`ch` for the interrupted state. -/
theorem arm_quotedSecond {m : Locals} (mergeSlashes : Bool) (hs : m.state = .quotedSecond)
    (hx : m.decoded < 16) :
    complexUriArm mergeSlashes m =
      match hexValue m.ch with
      | none => .error .parseError
      | some y =>
          let v := m.decoded * 16 + y
          if Literal v then { m with ch := v, state := .usual : Locals }.emit.map .advance
          else if v = nul then .error .parseError
          else .ok (.hold { m with
            r.plusInUri := m.r.plusInUri || v = plus
            ch := v
            state := m.quotedState }) := by
  simp only [complexUriArm, hs]
  obtain ⟨hd, hlt, hy⟩ | ⟨hd, hl, hlt, hy⟩ | ⟨hd, hl, hy⟩ := hexDigit_cases m.ch
  · obtain ⟨hadd, hq, hp⟩ := addU8_digit hx hlt
    simp [quotedSecondArm, hd, hy, hadd, Literal, hq, hp]
  · obtain ⟨hadd, hp, hh, hn⟩ := addU8_letter hx hlt
    simp only [quotedSecondArm, hd, hy, hl, hadd]
    by_cases hq : m.decoded * 16 + ((m.ch ||| 0x20) - lowerA + 10) = question
    · simp [Literal, hq]
    · by_cases hplus : m.decoded * 16 + ((m.ch ||| 0x20) - lowerA + 10) = plus
      · simp +decide [Literal, hplus]
      · simp [Literal, hq, hp, hh, hn, hplus]
  · simp [quotedSecondArm, hd, hl, hy]

end UrlParseNginx
