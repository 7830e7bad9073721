import UrlParseNginx.Termination
import UrlParseNginx.Reference.ComplexUriPort

/-!
The reference on a URI inside a larger buffer. Stage 1 reads nothing but the URI. Stage 2
reads one byte past it, which must be there, and does the same whatever that byte is and
whatever comes after it.
-/
namespace NginxReference
open Ascii WhileLoop

def Locals.withInput (input : List UInt8) (m : Locals) : Locals :=
  { m with mem.inbuf := input }

def Break.withInput (input : List UInt8) : Break → Break
  | .fetch m => .fetch (m.withInput input)
  | .again m => .again (m.withInput input)
  | .done m => .done (m.withInput input)
  | .args m => .args (m.withInput input)
  | .invalid m => .invalid (m.withInput input)

def Exit.withInput (input : List UInt8) : Exit → Exit
  | .done m => .done (m.withInput input)
  | .args m => .args (m.withInput input)
  | .invalid m => .invalid (m.withInput input)

section
variable {input : List UInt8} {m : Locals}

theorem put_withInput (hu : m.u.block = .nbuf) (c : UInt8) :
    (m.withInput input).put c = (m.put c).map (·.withInput input) := by
  simp only [Locals.put, Locals.withInput, Memory.store, Memory.block, hu]
  split <;> rfl

theorem put_fetch_withInput (hu : m.u.block = .nbuf) (c : UInt8) :
    ((m.withInput input).put c).map Break.fetch =
      ((m.put c).map Break.fetch).map (·.withInput input) := by
  rw [put_withInput hu]
  cases m.put c <;> rfl

theorem ite_withInput {c : Prop} [Decidable c] {a b a' b' : Except Fault Break}
    (ha : a' = a.map (·.withInput input)) (hb : b' = b.map (·.withInput input)) :
    (if c then a' else b') = (if c then a else b).map (·.withInput input) := by
  rw [ha, hb, apply_ite (Except.map _)]

theorem plain_withInput (hu : m.u.block = .nbuf) :
    (m.withInput input).plain = m.plain.map (·.withInput input) :=
  ite_withInput (put_fetch_withInput (m := { m with r.plusInUri := true }) hu _)
    (put_fetch_withInput hu _)

theorem usualCase_withInput (hu : m.u.block = .nbuf) :
    usualCase (m.withInput input) = (usualCase m).map (·.withInput input) := by
  refine ite_withInput (put_fetch_withInput hu _) (ite_withInput ?_ (ite_withInput rfl
    (ite_withInput rfl (ite_withInput rfl (ite_withInput ?_ (plain_withInput hu))))))
  · exact put_fetch_withInput (m := { m with r.uriExt := none, state := .swSlash }) hu _
  · exact put_fetch_withInput (m := { m with r.uriExt := some (m.u.plus 1) }) hu _

theorem slashCase_withInput (hu : m.u.block = .nbuf) (mergeSlashes : Nat) :
    slashCase mergeSlashes (m.withInput input) =
      (slashCase mergeSlashes m).map (·.withInput input) := by
  refine ite_withInput ?_ (ite_withInput (ite_withInput (put_fetch_withInput hu _) rfl)
    (ite_withInput ?_ (ite_withInput rfl (ite_withInput rfl (ite_withInput rfl ?_)))))
  · exact put_fetch_withInput (m := { m with state := .swUsual }) hu _
  · exact put_fetch_withInput (m := { m with state := .swDot }) hu _
  · exact plain_withInput (m := { m with state := .swUsual }) hu

theorem dotCase_withInput (hu : m.u.block = .nbuf) :
    dotCase (m.withInput input) = (dotCase m).map (·.withInput input) := by
  refine ite_withInput ?_ (ite_withInput rfl (ite_withInput ?_ (ite_withInput rfl
    (ite_withInput rfl (ite_withInput rfl ?_)))))
  · exact put_fetch_withInput (m := { m with state := .swUsual }) hu _
  · exact put_fetch_withInput (m := { m with state := .swDotDot }) hu _
  · exact plain_withInput (m := { m with state := .swUsual }) hu

theorem backward_withInput (mem : Memory) (data : Ptr) {u : Ptr} (hu : u.block = .nbuf) :
    backward { mem with inbuf := input } data u = backward mem data u := by
  have hsame : ∀ p : Ptr, p.block = .nbuf →
      ({ mem with inbuf := input } : Memory).load p = mem.load p := by
    intro p hp
    simp only [Memory.load, Memory.block, hp]
  induction u using backward.induct mem data with
  | case1 u hlow => rw [backward, if_pos hlow, backward, if_pos hlow]
  | case2 u hlow e hload =>
      rw [backward.eq_def mem data u, backward.eq_def _ data u, hsame u hu, hload]
  | case3 u hlow hload =>
      rw [backward.eq_def mem data u, backward.eq_def _ data u, hsame u hu, hload]
      simp only [ite_true]
  | case4 u hlow c hload hne ih =>
      rw [backward.eq_def mem data u, backward.eq_def _ data u, hsame u hu, hload]
      simp only [hne, ite_false, ih hu]

theorem pop_withInput (hu : m.u.block = .nbuf) : (m.withInput input).pop = m.pop := by
  cases hdata : m.r.uri.data with
  | none => simp only [Locals.pop, Locals.withInput, hdata]
  | some data =>
      simp only [Locals.pop, Locals.withInput, hdata]
      exact backward_withInput m.mem data hu

theorem dotDotCase_withInput (hu : m.u.block = .nbuf) :
    dotDotCase (m.withInput input) = (dotDotCase m).map (·.withInput input) := by
  refine ite_withInput ?_ (ite_withInput ?_ (ite_withInput rfl ?_))
  · exact put_fetch_withInput (m := { m with state := .swUsual }) hu _
  · rw [pop_withInput hu]
    cases m.pop with
    | error e => rfl
    | ok u =>
        cases u with
        | none => rfl
        | some u =>
            have hch : (m.withInput input).ch = m.ch := rfl
            simp only [Except.map, hch]
            by_cases hquestion : m.ch = question
            · rw [if_pos hquestion, if_pos hquestion]
              rfl
            · rw [if_neg hquestion, if_neg hquestion]
              by_cases hhash : m.ch = hash
              · rw [if_pos hhash, if_pos hhash]
                rfl
              · rw [if_neg hhash, if_neg hhash]
                rfl
  · exact plain_withInput (m := { m with state := .swUsual }) hu

theorem quotedCase_withInput :
    quotedCase (m.withInput input) = (quotedCase m).map (·.withInput input) :=
  ite_withInput rfl (ite_withInput rfl rfl)

theorem quotedSecondCase_withInput (hu : m.u.block = .nbuf) :
    quotedSecondCase (m.withInput input) = (quotedSecondCase m).map (·.withInput input) := by
  refine ite_withInput (ite_withInput ?_ (ite_withInput rfl rfl))
    (ite_withInput (ite_withInput ?_ (ite_withInput rfl rfl)) rfl)
  · exact put_fetch_withInput (m := { m with ch := _, state := .swUsual }) hu _
  · exact put_fetch_withInput (m := { m with ch := _, state := .swUsual }) hu _

theorem switch_withInput (input : List UInt8) (hu : m.u.block = .nbuf) (mergeSlashes : Nat) :
    complexUriSwitch mergeSlashes (m.withInput input) =
      (complexUriSwitch mergeSlashes m).map (·.withInput input) := by
  have hstate : (m.withInput input).state = m.state := rfl
  rw [complexUriSwitch, complexUriSwitch, hstate]
  cases m.state with
  | swUsual => exact usualCase_withInput hu
  | swSlash => exact slashCase_withInput hu mergeSlashes
  | swDot => exact dotCase_withInput hu
  | swDotDot => exact dotDotCase_withInput hu
  | swQuoted => exact quotedCase_withInput
  | swQuotedSecond => exact quotedSecondCase_withInput hu

theorem pastHash_withInput {mem : Memory} {uriEnd p : Ptr} (hp : p.block = .inbuf)
    (hlow : 0 ≤ p.off)
    (hsame : ∀ q : Ptr, q.block = .inbuf → 0 ≤ q.off → q.off < uriEnd.off →
      ({ mem with inbuf := input } : Memory).load q = mem.load q) :
    pastHash { mem with inbuf := input } uriEnd p = pastHash mem uriEnd p := by
  induction p using pastHash.induct mem uriEnd with
  | case1 p hlt e hload =>
      rw [pastHash.eq_def mem uriEnd p, pastHash.eq_def _ uriEnd p, hsame p hp hlow hlt, hload]
  | case2 p hlt c hload hne ih =>
      have hrest := ih hp (Int.le_trans hlow (Int.le_add_one (Int.le_refl _)))
      rw [pastHash.eq_def mem uriEnd p, pastHash.eq_def _ uriEnd p, hsame p hp hlow hlt, hload]
      simp only [hrest]
  | case3 p hlt c hload hhash =>
      rw [pastHash.eq_def mem uriEnd p, pastHash.eq_def _ uriEnd p, hsame p hp hlow hlt, hload]
      simp only [hhash, ite_false]
  | case4 p hge => rw [pastHash, if_neg hge, pastHash, if_neg hge]

/-- The same result, with another input block. -/
def resultIn (input : List UInt8) : Int × Request × Memory → Int × Request × Memory
  | (rc, r, mem) => (rc, r, { mem with inbuf := input })

theorem leave_withInput (e : Exit)
    (hargs : ∀ t, e = .args t → pastHash { t.mem with inbuf := input } t.r.uriEnd t.p =
      pastHash t.mem t.r.uriEnd t.p) :
    leave (e.withInput input) = (leave e).map (resultIn input) := by
  cases e with
  | done t =>
      simp only [leave, Exit.withInput, Locals.withInput]
      cases doneLabel t.r t.u <;> rfl
  | args t =>
      have hsame := hargs t rfl
      have hlabel : argsLabel { t.mem with inbuf := input } t.r t.u t.p =
          argsLabel t.mem t.r t.u t.p := by
        rw [argsLabel, argsLabel, hsame]
      simp only [leave, Exit.withInput, Locals.withInput, hlabel]
      cases argsLabel t.mem t.r t.u t.p <;> rfl
  | invalid t => rfl

theorem endOfInput_withInput (hu : m.u.block = .nbuf) :
    (endOfInput (m.withInput input)).bind leave =
      ((endOfInput m).bind leave).map (resultIn input) := by
  have hdone : ∀ u, leave (.done { m.withInput input with u }) =
      (leave (.done { m with u })).map (resultIn input) := by
    intro u
    have hexit : Exit.done { m.withInput input with u } =
        (Exit.done { m with u }).withInput input := rfl
    rw [hexit]
    exact leave_withInput _ fun t ht => by cases ht
  have hstate : (m.withInput input).state = m.state := rfl
  rw [endOfInput, endOfInput, hstate, pop_withInput hu]
  cases hs : m.state with
  | swUsual | swSlash => exact hdone m.u
  | swDot => exact hdone (m.u.plus (-1))
  | swDotDot =>
      cases m.pop with
      | error e => rfl
      | ok u =>
          cases u with
          | none => rfl
          | some u => exact hdone u
  | swQuoted | swQuotedSecond => rfl

/-- The byte that was read last is not looked at any more. -/
theorem endOfInput_ch (ch : UInt8) :
    (endOfInput { m with ch }).bind leave = (endOfInput m).bind leave := by
  have hpop : ({ m with ch } : Locals).pop = m.pop := rfl
  have hstate : ({ m with ch } : Locals).state = m.state := rfl
  rw [endOfInput, endOfInput, hstate, hpop]
  cases hs : m.state with
  | swUsual | swSlash | swDot | swQuoted | swQuotedSecond => rfl
  | swDotDot =>
      cases m.pop with
      | error e => rfl
      | ok u => cases u <;> rfl

end
end NginxReference

namespace UrlParseNginx
open Ascii WhileLoop

section
variable {buf after : List UInt8} {next : UInt8} {len : Nat} {m : Locals}
  {mem : NginxReference.Memory} {mergeSlashes : Bool}

theorem load_inPlace (hinput : mem.inbuf = buf ++ next :: after) {i : Nat}
    (hi : i ≤ buf.length) : mem.load (ptr .inbuf i) = .ok (readWithSentinel next buf i) := by
  have hoff : 0 ≤ (ptr .inbuf i).off := Int.natCast_nonneg i
  rw [NginxReference.Memory.load, if_pos hoff]
  simp only [NginxReference.Memory.block, ptr, Int.toNat_natCast, readWithSentinel,
    List.getD_eq_getElem?_getD, hinput]
  by_cases hlt : i < buf.length
  · simp [List.getElem?_append_left hlt, hlt]
  · obtain rfl : i = buf.length := Nat.le_antisymm hi (Nat.le_of_not_lt hlt)
    simp

theorem fetch_inPlace (hp : m.p ≤ buf.length) :
    ((localsOf buf.length len mem m).withInput (buf ++ next :: after)).fetch =
      .ok { (localsOf buf.length len mem
          (m.advance (readWithLfSentinel buf))).withInput (buf ++ next :: after) with
        ch := readWithSentinel next buf m.p } := by
  have hload : ({ mem with inbuf := buf ++ next :: after } : NginxReference.Memory).load
      (ptr .inbuf m.p) = .ok (readWithSentinel next buf m.p) := load_inPlace rfl hp
  simp only [NginxReference.Locals.fetch, NginxReference.Locals.withInput, localsOf, hload,
    Except.map, Locals.advance, ptr_plus_one]

/-- Locals over the buffer and a line feed, and the same over a larger input. The last byte
read differs only when it is the one past the buffer. -/
def InPlace (buf input : List UInt8) (len : Nat) (t t' : NginxReference.Locals) : Prop :=
  ∃ m, Alongside buf len m t ∧
    ∃ ch, t' = { t.withInput input with ch } ∧ (m.p ≤ buf.length → ch = t.ch)

/-- What both loops end in. -/
def EndInPlace (buf input : List UInt8) (len : Nat)
    (x y : Except NginxReference.Fault (Flow NginxReference.Locals NginxReference.Exit)) : Prop :=
  (∃ port, LoopMatches buf len port x) ∧
    match x with
    | .ok (.next t) => ∃ ch, y = .ok (.next { t.withInput input with ch })
    | .ok (.ret e) => y = .ok (.ret (e.withInput input))
    | .error _ => False

/-- How two bodies may end together. -/
def BodiesInPlace (buf input : List UInt8) (len : Nat)
    (x y : Except NginxReference.Fault (Flow NginxReference.Locals NginxReference.Exit)) : Prop :=
  (∃ t t', x = .ok (.next t) ∧ y = .ok (.next t') ∧ InPlace buf input len t t') ∨
    ((∀ t, x ≠ .ok (.next t)) ∧ (∀ t, y ≠ .ok (.next t)) ∧ EndInPlace buf input len x y)

theorem flow_inPlace (next : UInt8) (after : List UInt8) {x : Except Failure Arm}
    {y : Except NginxReference.Fault NginxReference.Break} (hstarted : 1 ≤ m.p)
    (hkeeps : ArmKeeps buf m x) (hmatches : ArmMatches buf len x y) :
    BodiesInPlace buf (buf ++ next :: after) len (y.bind NginxReference.Break.flow)
      ((y.map (·.withInput (buf ++ next :: after))).bind NginxReference.Break.flow) := by
  cases x with
  | error e =>
      obtain ⟨t, rfl⟩ := hmatches
      exact .inr ⟨fun _ => ret_ne_next _ _, fun _ => ret_ne_next _ _,
        ⟨.error e, t, rfl⟩, rfl⟩
  | ok arm =>
      obtain ⟨mem, hmem, rfl⟩ := hmatches
      cases arm with
      | advance m' =>
          have hnext : Invariant buf (m'.advance (readWithLfSentinel buf)) := hkeeps _
          have hp : m'.p ≤ buf.length := Nat.le_of_succ_le_succ hnext.cursor
          refine .inl ⟨localsOf buf.length len mem (m'.advance (readWithLfSentinel buf)), _,
            ?_, ?_, m'.advance (readWithLfSentinel buf), ⟨hnext, mem, hmem, rfl⟩,
            readWithSentinel next buf m'.p, rfl, fun hle => ?_⟩
          · rw [breakOf, Except.bind, NginxReference.Break.flow, fetch_eq (m := m') len hmem hp]
            rfl
          · rw [breakOf, Except.map, Except.bind, NginxReference.Break.withInput,
              NginxReference.Break.flow, fetch_inPlace hp]
            rfl
          · have hlt : m'.p < buf.length := hle
            exact (readsBuffer_sentinel next buf m'.p hlt).trans
              (readsBuffer_sentinel lineFeed buf m'.p hlt).symm
      | hold m' =>
          exact .inl ⟨_, _, rfl, rfl, m', ⟨hkeeps, mem, hmem, rfl⟩, m'.ch, rfl, fun _ => rfl⟩
      | done m' =>
          exact .inr ⟨fun _ => ret_ne_next _ _, fun _ => ret_ne_next _ _,
            ⟨.ok (.ret (.done m')), hkeeps, mem, hmem, rfl⟩, rfl⟩
      | args m' =>
          have hp : 1 ≤ m'.p := hkeeps.2.2 ▸ hstarted
          exact .inr ⟨fun _ => ret_ne_next _ _, fun _ => ret_ne_next _ _,
            ⟨.ok (.ret (.args m')), ⟨hkeeps.1, hkeeps.2.1, hp⟩, mem, hmem, rfl⟩, rfl⟩

/-- The loop over the larger input goes along with the loop over the buffer and a line feed. -/
theorem loop_inPlace {t t' : NginxReference.Locals}
    (h : InPlace buf (buf ++ next :: after) len t t') {k : Nat}
    {x : Except NginxReference.Fault (Flow NginxReference.Locals NginxReference.Exit)}
    (heval : (NginxReference.complexUriLoop (if mergeSlashes then 1 else 0)).Evals k t x) :
    ∃ y, (NginxReference.complexUriLoop (if mergeSlashes then 1 else 0)).Evals k t' y ∧
      EndInPlace buf (buf ++ next :: after) len x y := by
  refine heval.lockstep (R := InPlace buf (buf ++ next :: after) len) ?_ ?_ ?_ h
  · rintro t t' ⟨m, _, ch, rfl, _⟩
    rfl
  · rintro t t' ⟨m, ⟨hinv, mem, hmem, rfl⟩, ch, rfl, hch⟩ hguard
    have hp : m.p ≤ buf.length := by
      simpa [NginxReference.complexUriLoop, localsOf, requestOf, ptr] using hguard
    obtain rfl := hch hp
    have hswitch := NginxReference.switch_withInput (m := localsOf buf.length len mem m)
      (buf ++ next :: after) rfl (if mergeSlashes then 1 else 0)
    have hmatches : ArmMatches buf len (complexUriArm mergeSlashes m)
        (NginxReference.complexUriSwitch (if mergeSlashes then 1 else 0)
          (localsOf buf.length len mem m)) := switch_matches mergeSlashes hinv hp hmem
    have hends := flow_inPlace next after hinv.started (hinv.arm hp mergeSlashes) hmatches
    rw [← hswitch] at hends
    exact hends
  · rintro t t' ⟨m, halong, ch, rfl, _⟩ _
    exact ⟨⟨.ok (.next m), t, halong, rfl⟩, ch, rfl⟩

theorem pastHash_inPlace (hinput : mem.inbuf = buf ++ [lineFeed]) (p : Nat) :
    NginxReference.pastHash { mem with inbuf := buf ++ next :: after } (ptr .inbuf buf.length)
        (ptr .inbuf p) =
      NginxReference.pastHash mem (ptr .inbuf buf.length) (ptr .inbuf p) := by
  refine NginxReference.pastHash_withInput rfl (Int.natCast_nonneg p) fun q hblock hlow hlt => ?_
  obtain ⟨i, rfl⟩ : ∃ i, q = ptr .inbuf i := by
    obtain ⟨i, hi⟩ := Int.eq_ofNat_of_zero_le hlow
    exact ⟨i, by cases q; simp_all [ptr]⟩
  have hi : i < buf.length := Int.ofNat_lt.mp hlt
  rw [load_inPlace rfl (Nat.le_of_lt hi), load_input hinput (Nat.le_of_lt hi),
    readsBuffer_sentinel next buf i hi]
  exact congrArg Except.ok (readsBuffer_sentinel lineFeed buf i hi).symm

theorem afterLoop_inPlace
    {x y : Except NginxReference.Fault (Flow NginxReference.Locals NginxReference.Exit)}
    (h : EndInPlace buf (buf ++ next :: after) len x y) :
    y.bind NginxReference.afterLoop =
      (x.bind NginxReference.afterLoop).map
        (NginxReference.resultIn (buf ++ next :: after)) := by
  obtain ⟨⟨port, hport⟩, hy⟩ := h
  match port with
  | .error e =>
      obtain ⟨t, rfl⟩ := hport
      obtain rfl := hy
      rfl
  | .ok (.next m) =>
      obtain ⟨t, ⟨_, mem, _, rfl⟩, rfl⟩ := hport
      obtain ⟨ch, rfl⟩ := hy
      exact (NginxReference.endOfInput_ch ch).trans (NginxReference.endOfInput_withInput rfl)
  | .ok (.ret (.done m)) =>
      obtain ⟨_, mem, _, rfl⟩ := hport
      obtain rfl := hy
      exact NginxReference.leave_withInput (.done (localsOf buf.length len mem m))
        fun t ht => by cases ht
  | .ok (.ret (.args m)) =>
      obtain ⟨_, mem, hmem, rfl⟩ := hport
      obtain rfl := hy
      refine NginxReference.leave_withInput (.args (localsOf buf.length len mem m)) fun t ht => ?_
      cases ht
      exact pastHash_inPlace hmem.input m.p

theorem init_inPlace (len : Nat) {out : List UInt8} (hmem : SameMemory buf out 0 mem)
    (hout : buf.length + 1 ≤ out.length) (base : NginxReference.Block) (r : Request)
    (next : UInt8) (after : List UInt8) :
    ∃ m t t', Locals.init (readWithLfSentinel buf) r out = .ok m ∧
      NginxReference.Locals.init mem (requestOf base buf.length (outputStr len) r) = .ok t ∧
      NginxReference.Locals.init { mem with inbuf := buf ++ next :: after }
        (requestOf base buf.length (outputStr len) r) = .ok t' ∧
      Alongside buf len m t ∧ InPlace buf (buf ++ next :: after) len t t' := by
  obtain ⟨m, hinit, hinv⟩ := init_invariant (readWithLfSentinel buf) r hout
  have hport : Locals.init (readWithLfSentinel buf) r out =
      (if r.emptyPathInUri then (entry r out).write slash else .ok (entry r out)).map
        (·.advance (readWithLfSentinel buf)) := rfl
  have href : NginxReference.Locals.init mem (requestOf base buf.length (outputStr len) r) =
      (if r.emptyPathInUri then (localsOf buf.length len mem (entry r out)).put slash
        else .ok (localsOf buf.length len mem (entry r out))).bind
          NginxReference.Locals.fetch := rfl
  have href' : NginxReference.Locals.init { mem with inbuf := buf ++ next :: after }
        (requestOf base buf.length (outputStr len) r) =
      (if r.emptyPathInUri then
          ((localsOf buf.length len mem (entry r out)).withInput (buf ++ next :: after)).put slash
        else .ok ((localsOf buf.length len mem (entry r out)).withInput
          (buf ++ next :: after))).bind NginxReference.Locals.fetch := rfl
  have hfirst : 1 ≤ buf.length → readWithSentinel next buf 0 = readWithLfSentinel buf 0 :=
    fun hpos => (readsBuffer_sentinel next buf 0 hpos).trans
      (readsBuffer_sentinel lineFeed buf 0 hpos).symm
  refine ⟨m, ?_⟩
  rw [hinit, href, href']
  cases hempty : r.emptyPathInUri with
  | false =>
      rw [hport, hempty] at hinit
      obtain rfl := Except.ok.inj hinit
      exact ⟨_, _, rfl, fetch_eq len hmem (Nat.zero_le _), fetch_inPlace (Nat.zero_le _),
        ⟨hinv, mem, hmem, rfl⟩, _, ⟨hinv, mem, hmem, rfl⟩, _, rfl, hfirst⟩
  | true =>
      have hu : (entry r out).u < (entry r out).out.length :=
        Nat.lt_of_lt_of_le (Nat.succ_pos _) hout
      obtain ⟨mem', hmem', hput⟩ := put_eq len hmem hu slash
      rw [hport, hempty, Locals.write, if_pos hu] at hinit
      obtain rfl := Except.ok.inj hinit
      rw [if_pos rfl, if_pos rfl, NginxReference.put_withInput rfl, hput]
      exact ⟨_, _, rfl, fetch_eq len (m := { entry r out with out := out.set 0 slash, u := 1 })
          hmem' (Nat.zero_le _),
        fetch_inPlace (m := { entry r out with out := out.set 0 slash, u := 1 }) (Nat.zero_le _),
        ⟨hinv, mem', hmem', rfl⟩, _, ⟨hinv, mem', hmem', rfl⟩, _, rfl, hfirst⟩

/-- Nothing but the input block tells the result over the larger input from the other. -/
theorem stageTwo_inPlace (len : Nat) {out : List UInt8} (hmem : SameMemory buf out 0 mem)
    (hout : buf.length + 1 ≤ out.length) (base : NginxReference.Block) (r : Request)
    (mergeSlashes : Bool) (next : UInt8) (after : List UInt8) :
    NginxReference.ngxHttpParseComplexUri { mem with inbuf := buf ++ next :: after }
        (requestOf base buf.length (outputStr len) r) (if mergeSlashes then 1 else 0) =
      (NginxReference.ngxHttpParseComplexUri mem
        (requestOf base buf.length (outputStr len) r) (if mergeSlashes then 1 else 0)).map
        (NginxReference.resultIn (buf ++ next :: after)) := by
  obtain ⟨m, t, t', hport, hinit, hinit', halong, hplace⟩ :=
    init_inPlace len hmem hout base r next after
  have hstarts := init_starts hport
  obtain ⟨n, x, hn, heval⟩ :=
    hstarts.coherent.evals (readWithLfSentinel buf) buf mergeSlashes
  have hle := hstarts.potential_le buf.length
  obtain ⟨y, heval', _⟩ := loop_matches mergeSlashes halong heval
  obtain ⟨z, heval'', hends⟩ := loop_inPlace hplace heval'
  have hfuel : n ≤ 2 * mem.inbuf.length := by
    rw [hmem.input, List.length_append]
    omega
  have hfuel' : n ≤ 2 * (buf ++ next :: after).length := by
    rw [List.length_append]
    omega
  rw [NginxReference.ngxHttpParseComplexUri, NginxReference.ngxHttpParseComplexUri, hinit, hinit']
  simp only [Loop.run_of_evals heval' .diverged hfuel, Loop.run_of_evals heval'' .diverged hfuel']
  exact afterLoop_inPlace hends

end

theorem load_uri (buf nbuf after : List UInt8) {i : Nat} (hi : i < buf.length) :
    ({ inbuf := buf ++ after, nbuf } : NginxReference.Memory).load (ptr .inbuf i) =
      .ok buf[i] := by
  have hoff : 0 ≤ (ptr .inbuf i).off := Int.natCast_nonneg i
  rw [NginxReference.Memory.load, if_pos hoff]
  simp [NginxReference.Memory.block, ptr, List.getElem?_append_left hi, hi]

/-- One pass of stage 1 does not depend on what follows the URI, and stays inside it. -/
theorem uriBody_inPlace (buf nbuf after : List UInt8) {m : UriLocals} (hp : m.p < buf.length) :
    (NginxReference.uriLoop { inbuf := buf ++ after, nbuf }).body (uriLocalsOf buf.length m) =
      (NginxReference.uriLoop { inbuf := buf ++ [lineFeed], nbuf }).body
        (uriLocalsOf buf.length m) ∧
    ∀ t, (NginxReference.uriLoop { inbuf := buf ++ [lineFeed], nbuf }).body
        (uriLocalsOf buf.length m) = .ok (.next t) →
      ∃ m', t = uriLocalsOf buf.length m' ∧ m'.p ≤ buf.length := by
  have hat : (uriLocalsOf buf.length m).p = ptr .inbuf m.p := rfl
  simp only [NginxReference.uriLoop, hat, load_uri buf nbuf _ hp, Except.map, true_and]
  intro t ht
  have hswitch := uriSwitch_of buf.length m buf[m.p]
  rw [hswitch] at ht
  cases hscan : scanByte m buf[m.p] with
  | error e =>
      rw [hscan] at ht
      cases ht
  | ok m' =>
      rw [hscan] at ht
      obtain rfl := Flow.next.inj (Except.ok.inj ht)
      refine ⟨m'.next, by simp [uriLocalsOf, UriLocals.next], ?_⟩
      rw [UriLocals.next, scanByte_p hscan]
      exact hp

/-- Stage 1 returns the same whatever follows the URI, be it nothing at all. -/
theorem stageOne_inPlace (buf nbuf after : List UInt8) :
    NginxReference.ngxHttpParseUri { inbuf := buf ++ after, nbuf }
        (.init (ptr .inbuf 0) (ptr .inbuf buf.length)) =
      NginxReference.ngxHttpParseUri { inbuf := buf ++ [lineFeed], nbuf }
        (.init (ptr .inbuf 0) (ptr .inbuf buf.length)) := by
  obtain ⟨k, x, hk, heval, _⟩ := reference_uriLoop buf nbuf
    { r := .default, state := .start, p := 0 } (Nat.zero_le _)
  obtain ⟨y, heval', rfl⟩ : ∃ y, (NginxReference.uriLoop { inbuf := buf ++ after, nbuf }).Evals k
      (uriLocalsOf buf.length { r := .default, state := .start, p := 0 }) y ∧ y = x := by
    refine heval.lockstep (R := fun t t' => t' = t ∧
      ∃ m, t = uriLocalsOf buf.length m ∧ m.p ≤ buf.length) (Q := fun x y => y = x) ?_ ?_ ?_
      ⟨rfl, _, rfl, Nat.zero_le _⟩
    · rintro t _ ⟨rfl, _⟩
      rfl
    · rintro t _ ⟨rfl, m, rfl, hp⟩ hguard
      have hlt : m.p < buf.length := by
        simp only [NginxReference.uriLoop, uriLocalsOf, requestOf, ptr, ne_eq,
          NginxReference.Ptr.mk.injEq, true_and, decide_eq_true_eq] at hguard
        omega
      obtain ⟨hsame, hnext⟩ := uriBody_inPlace buf nbuf after hlt
      rw [hsame]
      by_cases hgoes : ∃ t, (NginxReference.uriLoop { inbuf := buf ++ [lineFeed], nbuf }).body
          (uriLocalsOf buf.length m) = .ok (.next t)
      · obtain ⟨t, ht⟩ := hgoes
        exact .inl ⟨t, t, ht, ht, rfl, hnext t ht⟩
      · exact .inr ⟨fun t ht => hgoes ⟨t, ht⟩, fun t ht => hgoes ⟨t, ht⟩, rfl⟩
    · rintro t _ ⟨rfl, _⟩ _
      rfl
  have hrun := Loop.run_of_evals heval NginxReference.Fault.diverged
    (show k ≤ (buf ++ [lineFeed]).length by simp; omega)
  have hrun' := Loop.run_of_evals heval' NginxReference.Fault.diverged
    (show k ≤ (buf ++ after).length by simp; omega)
  exact congrArg (Except.map NginxReference.uriResult) (hrun'.trans hrun.symm)

/-- The reference on a URI with anything after it in its buffer. Stage 1 does what the port
does, with nothing after the URI as well. Stage 2 does so whatever the byte after the URI is
and whatever comes next. Neither faults, and the input stays as it is. -/
theorem reference_inPlace (buf nbuf : List UInt8) (len : Nat) (base : NginxReference.Block)
    (r : Request) (mergeSlashes : Bool) (hroom : buf.length + 1 ≤ nbuf.length) :
    (∃ rc t, (∀ after, NginxReference.ngxHttpParseUri { inbuf := buf ++ after, nbuf }
          (.init (ptr .inbuf 0) (ptr .inbuf buf.length)) = .ok (rc, t)) ∧
      match ngxHttpParseUri .default buf with
      | .error _ => rc = NginxReference.NGX_ERROR
      | .ok r => rc = NginxReference.NGX_OK ∧
          t = requestOf .inbuf buf.length { len := 0, data := none } r) ∧
    ∃ rc t nbuf', (∀ next after,
        NginxReference.ngxHttpParseComplexUri { inbuf := buf ++ next :: after, nbuf }
            (requestOf base buf.length (outputStr len) r) (if mergeSlashes then 1 else 0) =
          .ok (rc, t, { inbuf := buf ++ next :: after, nbuf := nbuf' })) ∧
      match ngxHttpParseComplexUri r buf nbuf mergeSlashes with
      | .error _ => rc = NginxReference.NGX_HTTP_PARSE_INVALID_REQUEST
      | .ok (r', out) => rc = NginxReference.NGX_OK ∧
          t = requestOf .nbuf buf.length (outputStr r'.uri.len) r' ∧
          nbuf'.take r'.uri.len = out.take r'.uri.len := by
  refine ⟨?_, ?_⟩
  · have hstage := reference_parseUri buf nbuf
    cases hport : ngxHttpParseUri .default buf with
    | error e =>
        rw [hport] at hstage
        obtain ⟨t, hresult⟩ := hstage
        exact ⟨_, t, fun after => (stageOne_inPlace buf nbuf after).trans hresult, rfl⟩
    | ok r' =>
        rw [hport] at hstage
        exact ⟨_, _, fun after => (stageOne_inPlace buf nbuf after).trans hstage, rfl, rfl⟩
  · have hmem : SameMemory buf nbuf 0 { inbuf := buf ++ [lineFeed], nbuf } :=
      ⟨rfl, rfl, by simp⟩
    have hplace := stageTwo_inPlace len hmem hroom base r mergeSlashes
    have hstage := reference_parseComplexUri len hmem hroom base r mergeSlashes
    cases hport : ngxHttpParseComplexUri r buf nbuf mergeSlashes with
    | error e =>
        rw [hport] at hstage
        obtain ⟨t, mem, hresult⟩ := hstage
        refine ⟨_, t, mem.nbuf, fun next after => ?_, rfl⟩
        rw [hplace next after, hresult]
        rfl
    | ok result =>
        obtain ⟨r', out⟩ := result
        rw [hport] at hstage
        obtain ⟨mem, hsame, hresult⟩ := hstage
        refine ⟨_, _, mem.nbuf, fun next after => ?_, rfl, rfl, hsame.written⟩
        rw [hplace next after, hresult]
        rfl

/-- `/%2e` before ` HTTP/1.1`, as it stands on a request line. -/
theorem reference_inPlace_request :
    ∃ rc t nbuf', (∀ next after,
        NginxReference.ngxHttpParseComplexUri
            { inbuf := [slash, percent, 0x32, 0x65] ++ next :: after, nbuf := [0, 0, 0, 0, 0] }
            (requestOf .inbuf 4 (outputStr 4) .default) 1 =
          .ok (rc, t,
            { inbuf := [slash, percent, 0x32, 0x65] ++ next :: after, nbuf := nbuf' })) ∧
      rc = NginxReference.NGX_OK := by
  obtain ⟨rc, t, nbuf', hall, hport⟩ := (reference_inPlace [slash, percent, 0x32, 0x65]
    [0, 0, 0, 0, 0] 4 .inbuf .default true (by decide)).2
  exact ⟨rc, t, nbuf', hall, hport.1⟩

end UrlParseNginx
