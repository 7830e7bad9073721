import UrlParseNginx.StageTwoResult

/-!
How much room stage 2 needs in `out`. Where it does not panic, a longer buffer changes nothing
but the bytes past the shorter one; and the room that keeps every buffer of a length from
panicking is that length, with one byte more for the slash of an empty path.
-/
namespace UrlParseNginx
open Ascii PercentCoding DotSegments WhileLoop

/-- The same locals over a longer `out`. -/
def Locals.padded (pad : List UInt8) (m : Locals) : Locals := { m with out := m.out ++ pad }

def Arm.padded (pad : List UInt8) : Arm → Arm
  | .advance m => .advance (m.padded pad)
  | .hold m => .hold (m.padded pad)
  | .done m => .done (m.padded pad)
  | .args m => .args (m.padded pad)

def Exit.padded (pad : List UInt8) : Exit → Exit
  | .done m => .done (m.padded pad)
  | .args m => .args (m.padded pad)

section
variable (pad : List UInt8) (m : Locals)

theorem write_padded (c : UInt8) :
    Mirrors .panic (Locals.padded pad) (m.write c) ((m.padded pad).write c) := by
  unfold Locals.write
  by_cases hroom : m.u < m.out.length
  · have hmore : (m.padded pad).u < (m.padded pad).out.length := by
      simp only [Locals.padded, List.length_append]
      omega
    rw [if_pos hroom, if_pos hmore]
    refine .inr (congrArg Except.ok ?_)
    simp only [Locals.padded, List.set_append_left _ _ hroom]
  · rw [if_neg hroom]
    exact .inl rfl

theorem emit_padded : Mirrors .panic (Arm.padded pad) (m.emit.map .advance)
    ((m.padded pad).emit.map .advance) :=
  (write_padded pad m m.ch).map fun _ => rfl

theorem back_padded : Mirrors .panic (Locals.padded pad) m.back (m.padded pad).back :=
  .ite (.error _) (.ok { m with u := m.u - 1 })

theorem backwardsScan_padded (out : List UInt8) (u : Nat) :
    Mirrors .panic id (backwardsScan out u) (backwardsScan (out ++ pad) u) := by
  unfold backwardsScan
  refine .ite (.error _) ?_
  by_cases hstart : u - 4 < out.length
  · have hmore : u - 4 < (out ++ pad).length := by
      rw [List.length_append]
      omega
    simp only [if_pos hstart, if_pos hmore]
    rw [List.take_append_of_le_length hstart]
    cases Buffer.rposition (· == slash) (out.take (u - 4 + 1)) with
    | none => exact .error _
    | some i => exact .ok _
  · simp only [if_neg hstart]
    exact .inl rfl

theorem usualArm_padded :
    Mirrors .panic (Arm.padded pad) (usualArm m) (usualArm (m.padded pad)) := by
  refine .ite (emit_padded pad m) (.ite ?_ (.ite (.ok _) (.ite (.ok _) (.ite (.ok _)
    (.ite ?_ (.ite ?_ (emit_padded pad m)))))))
  · exact emit_padded pad { m with r.uriExt := none, state := .slash }
  · exact emit_padded pad { m with r.uriExt := some (m.u + 1) }
  · exact emit_padded pad { m with r.plusInUri := true }

theorem slashArm_padded (mergeSlashes : Bool) : Mirrors .panic (Arm.padded pad)
    (slashArm mergeSlashes m) (slashArm mergeSlashes (m.padded pad)) := by
  refine .ite ?_ (.ite (.ite (.ok _) (emit_padded pad m)) (.ite ?_ (.ite (.ok _)
    (.ite (.ok _) (.ite (.ok _) (.ite ?_ ?_))))))
  · exact emit_padded pad { m with state := .usual }
  · exact emit_padded pad { m with state := .dot }
  · exact emit_padded pad { m with r.plusInUri := true, state := .usual }
  · exact emit_padded pad { m with state := .usual }

theorem dotArm_padded :
    Mirrors .panic (Arm.padded pad) (dotArm m) (dotArm (m.padded pad)) := by
  refine .ite ?_ (.ite ?_ (.ite ?_ (.ite (.ok _) (.ite ?_ (.ite ?_ (.ite ?_ ?_))))))
  · exact emit_padded pad { m with state := .usual }
  · exact (back_padded pad { m with state := .slash }).map fun _ => rfl
  · exact emit_padded pad { m with state := .dotDot }
  · exact (back_padded pad m).map fun _ => rfl
  · exact (back_padded pad m).map fun _ => rfl
  · exact emit_padded pad { m with r.plusInUri := true, state := .usual }
  · exact emit_padded pad { m with state := .usual }

theorem dotDotArm_padded :
    Mirrors .panic (Arm.padded pad) (dotDotArm m) (dotDotArm (m.padded pad)) := by
  refine .ite ?_ (.ite ?_ (.ite (.ok _) (.ite ?_ ?_)))
  · exact emit_padded pad { m with state := .usual }
  · refine (backwardsScan_padded pad m.out m.u).map fun u => ?_
    rw [apply_ite (Arm.padded pad), apply_ite (Arm.padded pad)]
    rfl
  · exact emit_padded pad { m with r.plusInUri := true, state := .usual }
  · exact emit_padded pad { m with state := .usual }

theorem quotedArm_padded :
    Mirrors .panic (Arm.padded pad) (quotedArm m) (quotedArm (m.padded pad)) := by
  have hch : (m.padded pad).ch = m.ch := rfl
  rw [quotedArm, quotedArm, hch]
  refine .ite (.ok _) ?_
  cases hexLetter m.ch with
  | none => exact .error _
  | some c => exact .ok _

theorem quotedSecondArm_padded :
    Mirrors .panic (Arm.padded pad) (quotedSecondArm m) (quotedSecondArm (m.padded pad)) := by
  have hch : (m.padded pad).ch = m.ch := rfl
  have hdecoded : (m.padded pad).decoded = m.decoded := rfl
  rw [quotedSecondArm, quotedSecondArm, hch, hdecoded]
  refine .ite ?_ ?_
  · cases addU8 (m.decoded <<< 4) (m.ch - zero) with
    | error e => exact .error e
    | ok ch =>
        refine .ite ?_ (.ite (.error _) (.ok _))
        exact emit_padded pad { m with ch := ch, state := .usual }
  · cases hexLetter m.ch with
    | none => exact .error _
    | some c =>
        simp only
        cases (addU8 (m.decoded <<< 4) (c - lowerA)).bind (addU8 · 10) with
        | error e => exact .error e
        | ok ch =>
            refine .ite ?_ (.ite (.ok _) (.ok _))
            exact emit_padded pad { m with ch := ch, state := .usual }

theorem complexUriArm_padded (mergeSlashes : Bool) : Mirrors .panic (Arm.padded pad)
    (complexUriArm mergeSlashes m) (complexUriArm mergeSlashes (m.padded pad)) := by
  have hstate : (m.padded pad).state = m.state := rfl
  rw [complexUriArm, complexUriArm, hstate]
  cases m.state with
  | usual => exact usualArm_padded pad m
  | slash => exact slashArm_padded pad m mergeSlashes
  | dot => exact dotArm_padded pad m
  | dotDot => exact dotDotArm_padded pad m
  | quoted => exact quotedArm_padded pad m
  | quotedSecond => exact quotedSecondArm_padded pad m

theorem body_padded (read : Nat → UInt8) (buf : List UInt8) (mergeSlashes : Bool) :
    Mirrors .panic (Flow.map (Locals.padded pad) (Exit.padded pad))
      ((complexUriLoop read buf mergeSlashes).body m)
      ((complexUriLoop read buf mergeSlashes).body (m.padded pad)) := by
  refine (complexUriArm_padded pad m mergeSlashes).map fun arm => ?_
  cases arm <;> rfl

theorem endOfInput_padded : Mirrors .panic (Prod.map id (· ++ pad)) (endOfInput m)
    (endOfInput (m.padded pad)) := by
  have hstate : (m.padded pad).state = m.state := rfl
  rw [endOfInput, endOfInput, hstate]
  cases m.state with
  | usual | slash => exact .ok (finishDone m.r m.u, m.out)
  | dot => exact (back_padded pad m).map fun _ => rfl
  | dotDot => exact (backwardsScan_padded pad m.out m.u).map fun _ => rfl
  | quoted | quotedSecond => exact .error _

theorem afterLoop_padded (buf : List UInt8) (flow : Flow Locals Exit) :
    Mirrors .panic (Prod.map id (· ++ pad)) (afterLoop buf flow)
      (afterLoop buf (flow.map (Locals.padded pad) (Exit.padded pad))) := by
  cases flow with
  | next m => exact endOfInput_padded pad m
  | ret exit =>
      cases exit with
      | done m => exact .ok (finishDone m.r m.u, m.out)
      | args m => exact (Mirrors.refl (finishArgs m.r buf m.u m.p)).map fun _ => rfl

theorem init_padded (read : Nat → UInt8) (r : Request) (out : List UInt8) :
    Mirrors .panic (Locals.padded pad) (Locals.init read r out)
      (Locals.init read r (out ++ pad)) := by
  refine Mirrors.map (f := Locals.padded pad) (.ite ?_ (.ok _)) fun _ => rfl
  exact write_padded pad _ slash

end

/-- A longer buffer changes nothing but the bytes past the shorter one, unless stage 2 panics
on that. -/
theorem ngxHttpParseComplexUri_padded (r : Request) (buf out pad : List UInt8)
    (mergeSlashes : Bool) :
    Mirrors .panic (Prod.map id (· ++ pad)) (ngxHttpParseComplexUri r buf out mergeSlashes)
      (ngxHttpParseComplexUri r buf (out ++ pad) mergeSlashes) := by
  have hbind : ∀ out, ngxHttpParseComplexUri r buf out mergeSlashes =
      (Locals.init (readWithLfSentinel buf) r out).bind fun m =>
        ((complexUriLoop (readWithLfSentinel buf) buf mergeSlashes).run .diverged
          (2 * buf.length) m).bind (afterLoop buf) := by
    intro out
    rw [ngxHttpParseComplexUri, parseComplexUriWith]
    cases Locals.init (readWithLfSentinel buf) r out <;> rfl
  rw [hbind, hbind]
  refine (init_padded pad _ r out).bind fun m => ?_
  have hrun := Loop.run_mirrors (L := complexUriLoop (readWithLfSentinel buf) buf mergeSlashes)
    (f := Locals.padded pad) (fun _ => rfl) (fun m => body_padded pad m _ buf mergeSlashes)
    .diverged (2 * buf.length) m
  exact hrun.bind (afterLoop_padded pad buf)

/-- The bytes that a path in a buffer of this length can come to. -/
def roomFor (r : Request) (length : Nat) : Nat := (emptyPath r).length + length

section
variable {r : Request} {buf out : List UInt8}

theorem init_fits (read : Nat → UInt8) (hout : roomFor r buf.length ≤ out.length) :
    ∃ m, Locals.init read r out = .ok m ∧ Invariant buf m := by
  have hok : ∃ m, Locals.init read r out = .ok m := by
    cases hempty : r.emptyPathInUri with
    | false => exact ⟨_, by simp only [Locals.init, hempty]; rfl⟩
    | true =>
        have hpos : 0 < out.length := by
          simp only [roomFor, emptyPath, hempty, ite_true, List.length_singleton] at hout
          omega
        exact ⟨_, by simp only [Locals.init, Locals.write, hempty, hpos, ite_true]; rfl⟩
  obtain ⟨m, hinit⟩ := hok
  have hstarts := init_starts hinit
  obtain ⟨hstart, hlength, _⟩ := init_locals hinit
  have hu : m.u = (emptyPath r).length := by rw [hstart]
  have hp := hstarts.p
  have hresumes : m.resumes = .usual := resumes_stateOf (k := .usual) hstarts.state
  refine ⟨m, hinit, by omega, by omega, ?_, ⟨.usual, hresumes⟩, fun hs => ?_, fun hs => ?_,
    fun e he => ?_⟩
  · rw [roomFor] at hout
    omega
  · rw [hstarts.state] at hs
    cases hs
  · rw [hresumes] at hs
    cases hs
  · rw [hstarts.ext] at he
    cases he

theorem finishArgs_known {a : Nat} (buf : List UInt8) (u p : Nat) (h : r.argsStart = some a) :
    ∃ last, finishArgs r buf u p = .ok last := by
  cases hq : pastHash buf p with
  | none => exact ⟨_, by rw [finishArgs, hq]⟩
  | some q => exact ⟨_, by simp only [finishArgs, hq, h]; rfl⟩

theorem Invariant.endOfInput_ne {m : Locals} (h : Invariant buf m) :
    endOfInput m ≠ .error .panic := by
  cases h.ends with
  | inl hreject =>
      rw [hreject]
      simp
  | inr hends =>
      obtain ⟨v, hv, _⟩ := hends
      rw [hv]
      simp

theorem Coherent.exit_ne {m : Locals} (h : Coherent m) {read : Nat → UInt8} {mergeSlashes : Bool}
    {exit : Exit} (hbody : (complexUriLoop read buf mergeSlashes).body m = .ok (.ret exit)) :
    afterLoop buf (.ret exit) ≠ .error .panic := by
  obtain ⟨a, ⟨_, rfl⟩ | ⟨iteration, rfl⟩⟩ := h.ret hbody
  · simp [afterLoop]
  · cases iteration with
    | @args k v state ch settles =>
        obtain ⟨last, hargs⟩ := finishArgs_known buf v m.p
          (r := { m.r with argsStart := some m.p }) rfl
        simp [afterLoop, hargs, Except.map]

theorem ngxHttpParseComplexUri_fits (mergeSlashes : Bool)
    (hout : roomFor r buf.length ≤ out.length) :
    ngxHttpParseComplexUri r buf out mergeSlashes ≠ .error .panic := by
  obtain ⟨start, hinit, hstart⟩ := init_fits (readWithLfSentinel buf) hout
  have hstarts := init_starts hinit
  obtain ⟨n, x, hn, heval⟩ := hstarts.coherent.evals (readWithLfSentinel buf) buf mergeSlashes
  have hfuel : n ≤ 2 * buf.length := by
    have hle := hstarts.potential_le buf.length
    omega
  simp only [ngxHttpParseComplexUri, parseComplexUriWith, hinit,
    Loop.run_of_evals heval .diverged hfuel]
  obtain ⟨i, m, hreach, hlast⟩ := heval.last
  have hm := reaches_invariant hreach hstart
  cases hlast with
  | inl hleave =>
      obtain ⟨_, rfl⟩ := hleave
      exact hm.endOfInput_ne
  | inr hends =>
      obtain ⟨hguard, hne, hbody⟩ := hends
      cases x with
      | error e =>
          obtain rfl := hm.body_error (guard_iff.mp hguard) hbody
          simp [Except.bind]
      | ok flow =>
          cases flow with
          | next t => exact absurd rfl (hne t)
          | ret exit => exact (reaches_coherent hreach hstarts.coherent).1.exit_ne hbody

theorem padded_room (out : List UInt8) (n : Nat) :
    n + 1 ≤ (out ++ List.replicate (n + 1) 0).length := by
  rw [List.length_append, List.length_replicate]
  omega

/-- A call that succeeds, with whatever room, has its whole path in the buffer. -/
theorem path_fits {mergeSlashes : Bool} {last : Request} {out' path : List UInt8}
    (hok : ngxHttpParseComplexUri r buf out mergeSlashes = .ok (last, out'))
    (hpath : meaning mergeSlashes (.usual, emptyPath r) buf = some path) :
    path.length ≤ out.length := by
  have hread := readsBuffer_sentinel lineFeed buf
  obtain ⟨start, hinit⟩ : ∃ start, Locals.init (readWithLfSentinel buf) r out = .ok start := by
    cases hinit : Locals.init (readWithLfSentinel buf) r out with
    | error e => simp [ngxHttpParseComplexUri, parseComplexUriWith, hinit] at hok
    | ok start => exact ⟨start, rfl⟩
  obtain ⟨ts, c, found, hfound, htake, _⟩ := returnsFound hread hinit hok
  obtain rfl := Option.some.inj (hfound.meaning.symm.trans hpath)
  have hwritten : found.length ≤ out'.length := by
    rw [← htake]
    exact List.length_take_le' _ _
  -- the buffer keeps its length: with room to spare it does, and the rest is the padding
  have hmore := ngxHttpParseComplexUri_padded r buf out (List.replicate (buf.length + 1) 0)
    mergeSlashes
  rw [hok] at hmore
  obtain hreject | ⟨m, last', hresult, _, _, _, hlength, _⟩ :=
    ngxHttpParseComplexUri_cases r mergeSlashes (padded_room out buf.length)
  · simp [Mirrors, hreject, Except.map] at hmore
  · rw [hresult] at hmore
    simp only [Mirrors, Except.map, reduceCtorEq, Except.ok.injEq, Prod.map, Prod.mk.injEq,
      false_or] at hmore
    rw [hmore.2, List.length_append, List.length_append] at hlength
    omega

/-- A path that is copied as it stands. -/
theorem meaning_of_copied (mergeSlashes : Bool) (h : Simple buf) (hquestion : question ∉ buf)
    (c : List UInt8) : meaning mergeSlashes (.usual, c) buf = some (c ++ buf) := by
  obtain ⟨hhash, hpercent, hplain⟩ := h
  rw [beforeQuery_of_not_mem hquestion] at hpercent hplain
  obtain ⟨k', hrun, hk'⟩ := run_of_plain mergeSlashes (.inl rfl) hplain c
  rw [meaning, rawPath_alone hquestion hhash, decodePath_of_not_mem hpercent, Option.bind_some,
    hrun]
  cases hk' with
  | inl hk' => simp [finish, hk']
  | inr hk' => simp [finish, hk']

/-- Such a path takes all of the room. -/
theorem ngxHttpParseComplexUri_overflows (mergeSlashes : Bool) (h : Simple buf)
    (hquestion : question ∉ buf) (hout : out.length < roomFor r buf.length) :
    ngxHttpParseComplexUri r buf out mergeSlashes = .error .panic := by
  by_contra hno
  have hmeaning := meaning_of_copied mergeSlashes h hquestion (emptyPath r)
  have hmore := (ngxHttpParseComplexUri_padded r buf out (List.replicate (buf.length + 1) 0)
    mergeSlashes).resolve_left hno
  obtain ⟨hnone, _⟩ | ⟨_, last, out', hresult, _⟩ :=
    ngxHttpParseComplexUri_found r mergeSlashes (padded_room out buf.length)
  · rw [hmeaning] at hnone
    cases hnone
  · rw [hresult] at hmore
    cases hok : ngxHttpParseComplexUri r buf out mergeSlashes with
    | error e =>
        rw [hok] at hmore
        cases hmore
    | ok result =>
        have hfits := path_fits hok hmeaning
        rw [List.length_append] at hfits
        exact absurd hout (Nat.not_lt.mpr hfits)

theorem looksComplex_letters (n : Nat) : looksComplex false (List.replicate n 0x61) = false := by
  induction n with
  | zero => rfl
  | succ n ih =>
      rw [List.replicate_succ, looksComplex]
      simpa +decide using ih

theorem simple_letters (n : Nat) :
    Simple (List.replicate n 0x61) ∧ question ∉ List.replicate n (0x61 : UInt8) := by
  have hclear : ∀ b : UInt8, b ≠ 0x61 → b ∉ List.replicate n (0x61 : UInt8) :=
    fun b hb hmem => hb (List.eq_of_mem_replicate hmem)
  have hquestion := hclear question (by decide)
  rw [Simple, beforeQuery_of_not_mem hquestion]
  exact ⟨⟨hclear hash (by decide), hclear percent (by decide), looksComplex_letters n⟩, hquestion⟩

/-- Stage 1 never finds an empty path. -/
theorem roomFor_originForm {target : List UInt8} (hr : ngxHttpParseUri .default target = .ok r) :
    roomFor r target.length = target.length := by
  have hempty : emptyPath r = [] := by
    cases target with
    | nil =>
        obtain rfl : Request.default = r := Except.ok.inj hr
        rfl
    | cons ch rest =>
        by_cases hwell : WellFormed (ch :: rest)
        · obtain ⟨r', hr', hsame, _⟩ := ngxHttpParseUri_wellFormed hwell
          obtain rfl := Except.ok.inj (hr'.symm.trans hr)
          exact emptyPath_of_same hsame
        · rw [ngxHttpParseUri_reject (List.cons_ne_nil ch rest) (not_wellFormed hwell)] at hr
          cases hr
  rw [roomFor, hempty, List.length_nil, Nat.zero_add]

end

/-- The room that the output of stage 2 needs is exact: a buffer of the length of the input, and
one byte more for the slash of an empty path, is the least that no input of that length
overflows. With less room stage 2 panics or does what it does with more; and after stage 1,
which finds no empty path, the last byte of a buffer that is one byte longer than the target
stays as it was. -/
theorem outputRoom_exact (r : Request) (out : List UInt8) (mergeSlashes : Bool) :
    (∀ n, roomFor r n ≤ out.length ↔ ∀ buf : List UInt8, buf.length = n →
      ngxHttpParseComplexUri r buf out mergeSlashes ≠ .error .panic) ∧
    (∀ buf pad, ngxHttpParseComplexUri r buf out mergeSlashes = .error .panic ∨
      ngxHttpParseComplexUri r buf (out ++ pad) mergeSlashes =
        (ngxHttpParseComplexUri r buf out mergeSlashes).map (Prod.map id (· ++ pad))) ∧
    ∀ target scanned last, ngxHttpParseUri .default target = .ok scanned →
      out.length = target.length →
      ngxHttpParseComplexUri scanned target (out ++ [last]) mergeSlashes =
        (ngxHttpParseComplexUri scanned target out mergeSlashes).map
          (Prod.map id (· ++ [last])) := by
  refine ⟨fun n => ⟨fun hroom buf hlength => ?_, fun hfits => ?_⟩, fun buf pad => ?_,
    fun target scanned last hscanned hlength => ?_⟩
  · exact ngxHttpParseComplexUri_fits mergeSlashes (hlength ▸ hroom)
  · by_contra hless
    obtain ⟨hsimple, hquestion⟩ := simple_letters n
    have hlength : (List.replicate n (0x61 : UInt8)).length = n := List.length_replicate
    refine hfits _ hlength (ngxHttpParseComplexUri_overflows mergeSlashes hsimple hquestion ?_)
    rw [hlength]
    exact Nat.not_le.mp hless
  · exact ngxHttpParseComplexUri_padded r buf out pad mergeSlashes
  · refine (ngxHttpParseComplexUri_padded scanned target out [last] mergeSlashes).resolve_left ?_
    refine ngxHttpParseComplexUri_fits mergeSlashes (Nat.le_of_eq ?_)
    rw [roomFor_originForm hscanned, hlength]

end UrlParseNginx
