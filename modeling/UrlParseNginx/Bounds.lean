import UrlParseNginx.OriginFormMeaning
import UrlParseNginx.Sentinel

/-!
No call panics, and no index, slice or subtraction leaves its range. The bounds of stage 2
are those of its loop invariant; they hold for every buffer and every request, also where
the path is empty or does not start with a slash.
-/
namespace UrlParseNginx
open Ascii PercentCoding DotSegments WhileLoop

/-- What the code computes from the locals at a loop head stays in range: the index that it
writes, `u -= 1`, the end of the slice it scans backwards, `decoded << 4` with a second digit
added, and `u - uri_ext`, which only states without a pending `..` get to compute. -/
structure InRange (buf : List UInt8) (m : Locals) : Prop where
  cursor : m.p ≤ buf.length + 1
  write : m.p ≤ buf.length → m.u < m.out.length
  back : m.state = .dot → 1 ≤ m.u
  scan : m.state = .dotDot → 4 ≤ m.u → m.u - 4 < m.out.length
  digit : m.state = .quotedSecond →
    (m.decoded <<< 4).toNat = m.decoded.toNat * 16 ∧ m.decoded.toNat * 16 + 15 < 256
  ext : ∀ e, m.r.uriExt = some e → e ≤ m.u ∧ m.state ≠ .dot ∧ m.state ≠ .dotDot

/-- The subtractions of a return out of the loop stay in range. -/
structure ExitInRange (m : Locals) : Prop where
  written : m.u ≤ m.out.length
  ext : ∀ e, m.r.uriExt = some e → e ≤ m.u

/-- In `finish_args` the start of the query is known and precedes the `#`. -/
structure ArgsInRange (buf : List UInt8) (m : Locals) : Prop where
  known : m.r.argsStart = some m.p
  delimited : ∀ q, pastHash buf m.p = some q → m.p ≤ q - 1 ∧ q ≤ buf.length

theorem shift_digit {x : UInt8} (hx : x < 16) :
    (x <<< 4).toNat = x.toNat * 16 ∧ x.toNat * 16 + 15 < 256 := by
  revert hx
  apply forall_byte (P := fun x =>
    x < 16 → (x <<< 4).toNat = x.toNat * 16 ∧ x.toNat * 16 + 15 < 256)
  decide +kernel

theorem Invariant.inRange {buf : List UInt8} {m : Locals} (h : Invariant buf m) :
    InRange buf m := by
  have hroom := h.room
  refine ⟨h.cursor, fun hp => by omega, fun hs => h.dot (by simp [Locals.resumes, hs]),
    fun _ _ => by omega, fun hs => shift_digit (h.digit hs), fun e he => ?_⟩
  obtain ⟨husual, hle⟩ := h.ext e he
  refine ⟨hle.2, fun hs => ?_, fun hs => ?_⟩
  · simp [Locals.resumes, hs] at husual
  · simp [Locals.resumes, hs] at husual

theorem Invariant.ends {buf : List UInt8} {m : Locals} (h : Invariant buf m) :
    endOfInput m = .error .parseError ∨
    ∃ v, endOfInput m = .ok (finishDone m.r v, m.out) ∧ v ≤ m.out.length ∧
      ∀ e, m.r.uriExt = some e → e ≤ v := by
  have core : ∀ k, m.state = stateOf k → endOfInput m = .error .parseError ∨
      ∃ v, endOfInput m = .ok (finishDone m.r v, m.out) ∧ v ≤ m.out.length ∧
        ∀ e, m.r.uriExt = some e → e ≤ v := by
    intro k hs
    rw [endOfInput_eq hs]
    cases h.settled hs with
    | inl hset => exact .inl (by rw [hset]; rfl)
    | inr hset =>
        obtain ⟨v, hset, hv, hext⟩ := hset
        exact .inr ⟨v, by rw [hset]; rfl, hv, fun e he => (hext e he).2⟩
  cases hs : m.state with
  | usual => exact core .usual hs
  | slash => exact core .slash hs
  | dot => exact core .dot hs
  | dotDot => exact core .dotDot hs
  | quoted => exact .inl (by simp [endOfInput, hs])
  | quotedSecond => exact .inl (by simp [endOfInput, hs])

theorem leaveAt_len (buf : List UInt8) (stop : Nat) (r : Request) (u : Nat) :
    ∃ last, leaveAt buf stop r u = .ok last ∧ last.uri.len = u := by
  by_cases hq : buf[stop]? = some question
  · exact ⟨_, leaveAt_query hq r u, finishDone_len _ _⟩
  · exact ⟨_, leaveAt_other hq r u, finishDone_len _ _⟩

/-- Stage 2 ends with its error, or with the request that it leaves the loop with. -/
theorem ngxHttpParseComplexUri_cases {buf out : List UInt8} (r : Request) (mergeSlashes : Bool)
    (hout : buf.length + 1 ≤ out.length) :
    ngxHttpParseComplexUri r buf out mergeSlashes = .error .parseError ∨
    ∃ (m : Locals) (last : Request),
      ngxHttpParseComplexUri r buf out mergeSlashes = .ok (last, m.out) ∧
      leaveAt buf (rawPath buf).length m.r m.u = .ok last ∧ last.uri.len = m.u ∧
      m.u ≤ m.out.length ∧ m.out.length = out.length ∧
      SameTail { r with uriExt := none, argsStart := none } m.r := by
  have hmeaning := parseComplexUriWith_meaning (readsBuffer_sentinel lineFeed buf)
    mergeSlashes r hout
  cases hpath : meaning mergeSlashes (.usual, emptyPath r) buf with
  | none =>
      rw [hpath] at hmeaning
      exact .inl hmeaning
  | some path =>
      rw [hpath] at hmeaning
      obtain ⟨m, _, hu, hlength, htail, hresult⟩ := hmeaning
      obtain ⟨last, hleave, hlen⟩ := leaveAt_len buf (rawPath buf).length m.r m.u
      rw [hleave] at hresult
      exact .inr ⟨m, last, hresult, hleave, hlen, hu, hlength, htail⟩

theorem ngxHttpParseComplexUri_total {buf out : List UInt8} (r : Request) (mergeSlashes : Bool)
    (hout : buf.length + 1 ≤ out.length) :
    ngxHttpParseComplexUri r buf out mergeSlashes = .error .parseError ∨
    ∃ last out', ngxHttpParseComplexUri r buf out mergeSlashes = .ok (last, out') ∧
      last.uri.len ≤ out'.length := by
  cases ngxHttpParseComplexUri_cases r mergeSlashes hout with
  | inl h => exact .inl h
  | inr h =>
      obtain ⟨m, last, hresult, _, hlen, hu, _⟩ := h
      exact .inr ⟨last, m.out, hresult, hlen ▸ hu⟩

theorem normalPath_length_le {target path : List UInt8} {mergeSlashes : Bool}
    (h : normalPath mergeSlashes target = some path) :
    path.length ≤ (rawPath target).length := by
  obtain ⟨_, rest, hd, hnorm⟩ := wellFormed_of_normalPath h
  obtain ⟨ts, hts, _, hbytes⟩ := decodePath_eq_some_iff.mp hd
  have hnormal := (normalize_sublist hnorm).length_le
  rw [hbytes, bytes, List.length_map] at hnormal
  exact hnormal.trans (length_le_of_tokenize hts).1

/-- Nothing panics and nothing leaves its range: at every loop head of stage 2, where its
loop is left, and in `parse_origin_form`. Stage 2 reads nothing past the sentinel, and ends
with its result or with its error. -/
theorem parse_in_range (target buf out : List UInt8) (r : Request) (mergeSlashes : Bool)
    (hout : buf.length + 1 ≤ out.length) :
    (∃ start, Locals.init (readWithLfSentinel buf) r out = .ok start ∧
      ∀ n m, (complexUriLoop (readWithLfSentinel buf) buf mergeSlashes).Reaches n start m →
        InRange buf m ∧
        (m.p ≤ buf.length → complexUriArm mergeSlashes m ≠ .error .panic ∧
          (∀ m', complexUriArm mergeSlashes m = .ok (.done m') → ExitInRange m') ∧
          ∀ m', complexUriArm mergeSlashes m = .ok (.args m') →
            ExitInRange m' ∧ ArgsInRange buf m') ∧
        (endOfInput m = .error .parseError ∨
          ∃ v, endOfInput m = .ok (finishDone m.r v, m.out) ∧ v ≤ m.out.length ∧
            ∀ e, m.r.uriExt = some e → e ≤ v)) ∧
    (∀ read, (∀ j ≤ buf.length, read j = readWithLfSentinel buf j) →
      parseComplexUriWith read r buf out mergeSlashes =
        ngxHttpParseComplexUri r buf out mergeSlashes) ∧
    (ngxHttpParseComplexUri r buf out mergeSlashes = .error .parseError ∨
      ∃ last out', ngxHttpParseComplexUri r buf out mergeSlashes = .ok (last, out') ∧
        last.uri.len ≤ out'.length) ∧
    (Rejects target mergeSlashes ∨
      ∃ parsed, parseOriginForm target mergeSlashes = .ok parsed ∧
        parsed.path.bytes.length ≤ (rawPath target).length ∧
        ∀ s, parsed.path = .borrowed s ∨ parsed.args = some s →
          s.start ≤ s.stop ∧ s.stop ≤ target.length) := by
  refine ⟨?_, fun read hagree => ?_, ngxHttpParseComplexUri_total r mergeSlashes hout, ?_⟩
  · obtain ⟨start, hinit, hstart⟩ := init_invariant (readWithLfSentinel buf) r hout
    refine ⟨start, hinit, fun n m hreach => ?_⟩
    have h := reaches_invariant hreach hstart
    refine ⟨h.inRange, fun hp => ?_, h.ends⟩
    have hkeeps := h.arm hp mergeSlashes
    refine ⟨fun harm => ?_, fun m' harm => ?_, fun m' harm => ?_⟩
    · rw [harm] at hkeeps
      cases hkeeps
    · rw [harm] at hkeeps
      exact ⟨hkeeps.written, fun e he => (hkeeps.ext e he).2⟩
    · rw [harm] at hkeeps
      obtain ⟨hleaving, hargs, _⟩ := hkeeps
      exact ⟨⟨hleaving.written, fun e he => (hleaving.ext e he).2⟩, hargs,
        fun q => pastHash_range⟩
  · exact parseComplexUriWith_congr (fun j hj => hagree j (Nat.le_of_lt hj)) r out mergeSlashes
  · cases hpath : normalPath mergeSlashes target with
    | none => exact .inl (rejects_iff.mpr hpath)
    | some path =>
        obtain ⟨parsed, hok, hbytes, _⟩ := parseOriginForm_of_some hpath
        exact .inr ⟨parsed, hok, by rw [hbytes]; exact normalPath_length_le hpath,
          fun s _ => ⟨s.ordered, s.inBounds⟩⟩

/-- `/a?b`: the path is no longer than `/a`, and its slices lie in the four bytes. -/
theorem parse_in_range_query :
    ∃ parsed, parseOriginForm [slash, 0x61, question, 0x62] true = .ok parsed ∧
      parsed.path.bytes.length ≤ 2 ∧
      ∀ s, parsed.path = .borrowed s ∨ parsed.args = some s → s.start ≤ s.stop ∧ s.stop ≤ 4 := by
  have h := (parse_in_range [slash, 0x61, question, 0x62] [slash, 0x61, question, 0x62]
    [0, 0, 0, 0, 0] .default true (by decide)).2.2.2
  exact h.resolve_left (by decide +kernel)

end UrlParseNginx
