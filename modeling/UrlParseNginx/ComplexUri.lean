import UrlParseNginx.Library.Buffer
import UrlParseNginx.Library.Loop
import UrlParseNginx.Request

/-!
Stage 2, `ngx_http_parse_complex_uri`: the six-state machine that decodes,
resolves dot segments and merges slashes while it copies the path to `out`.

An arm of the machine ends in one of four ways. Most arms read the next byte
(`ch = read_with_lf_sentinel(buf, p); p += 1`); the one that has decoded an
escape keeps the decoded byte in `ch`; the others return through `finish_done`
or `finish_args`. Only the first of these touches the input.
-/
namespace UrlParseNginx
open Ascii WhileLoop

/-- The locals of `ngx_http_parse_complex_uri`. -/
structure Locals where
  r : Request
  out : List UInt8
  state : State
  quotedState : State
  decoded : UInt8
  p : Nat
  u : Nat
  ch : UInt8

/-- How an arm ends. -/
inductive Arm where
  | advance (m : Locals)
  | hold (m : Locals)
  | done (m : Locals)
  | args (m : Locals)

/-- Which tail the main loop returns through. -/
inductive Exit where
  | done (m : Locals)
  | args (m : Locals)

/-- `out[u] = c; u += 1;` -/
def Locals.write (m : Locals) (c : UInt8) : Except Failure Locals :=
  if m.u < m.out.length then .ok { m with out := m.out.set m.u c, u := m.u + 1 }
  else .error .panic

/-- `out[u] = ch; u += 1;` -/
def Locals.emit (m : Locals) : Except Failure Locals := m.write m.ch

/-- `u -= 1;` -/
def Locals.back (m : Locals) : Except Failure Locals :=
  if m.u = 0 then .error .panic else .ok { m with u := m.u - 1 }

/-- `ch = read_with_lf_sentinel(buf, p); p += 1;` -/
def Locals.advance (read : Nat → UInt8) (m : Locals) : Locals :=
  { m with ch := read m.p, p := m.p + 1 }

/-- Go back over `/..` and the segment before it, with nginx's scan expressed over
`out[..=start]`. -/
def backwardsScan (out : List UInt8) (u : Nat) : Except Failure Nat :=
  if u < 4 then .error .parseError
  else
    let start := u - 4
    if start < out.length then
      match Buffer.rposition (· == slash) (out.take (start + 1)) with
      | some i => .ok (i + 1)
      | none => .error .parseError
    else .error .panic

/-- `u8` addition, which panics on overflow. -/
def addU8 (a b : UInt8) : Except Failure UInt8 :=
  if a.toNat + b.toNat < 256 then .ok (a + b) else .error .panic

def isAsciiDigit (ch : UInt8) : Bool := zero ≤ ch && ch ≤ nine

/-- The byte with bit `0x20` set, if that is a letter from `a` to `f`. -/
def hexLetter (ch : UInt8) : Option UInt8 :=
  let c := ch ||| 0x20
  if lowerA ≤ c ∧ c ≤ lowerF then some c else none

def usualArm (m : Locals) : Except Failure Arm :=
  if usual m.ch then m.emit.map .advance
  else if m.ch = slash then
    { m with r.uriExt := none, state := .slash : Locals }.emit.map .advance
  else if m.ch = percent then
    .ok (.advance { m with quotedState := m.state, state := .quoted })
  else if m.ch = question then .ok (.args { m with r.argsStart := some m.p })
  else if m.ch = hash then .ok (.done m)
  else if m.ch = dot then
    { m with r.uriExt := some (m.u + 1) : Locals }.emit.map .advance
  else if m.ch = plus then
    { m with r.plusInUri := true : Locals }.emit.map .advance
  else m.emit.map .advance

def slashArm (mergeSlashes : Bool) (m : Locals) : Except Failure Arm :=
  if usual m.ch then { m with state := .usual : Locals }.emit.map .advance
  else if m.ch = slash then
    if mergeSlashes then .ok (.advance m) else m.emit.map .advance
  else if m.ch = dot then { m with state := .dot : Locals }.emit.map .advance
  else if m.ch = percent then
    .ok (.advance { m with quotedState := m.state, state := .quoted })
  else if m.ch = question then .ok (.args { m with r.argsStart := some m.p })
  else if m.ch = hash then .ok (.done m)
  else if m.ch = plus then
    { m with r.plusInUri := true, state := .usual : Locals }.emit.map .advance
  else { m with state := .usual : Locals }.emit.map .advance

def dotArm (m : Locals) : Except Failure Arm :=
  if usual m.ch then { m with state := .usual : Locals }.emit.map .advance
  else if m.ch = slash then { m with state := .slash : Locals }.back.map .advance
  else if m.ch = dot then { m with state := .dotDot : Locals }.emit.map .advance
  else if m.ch = percent then
    .ok (.advance { m with quotedState := m.state, state := .quoted })
  else if m.ch = question then
    m.back.map fun m => .args { m with r.argsStart := some m.p }
  else if m.ch = hash then m.back.map .done
  else if m.ch = plus then
    { m with r.plusInUri := true, state := .usual : Locals }.emit.map .advance
  else { m with state := .usual : Locals }.emit.map .advance

def dotDotArm (m : Locals) : Except Failure Arm :=
  if usual m.ch then { m with state := .usual : Locals }.emit.map .advance
  else if m.ch = slash ∨ m.ch = question ∨ m.ch = hash then
    (backwardsScan m.out m.u).map fun u =>
      if m.ch = question then .args { m with u := u, r.argsStart := some m.p }
      else if m.ch = hash then .done { m with u := u }
      else .advance { m with u := u, state := .slash }
  else if m.ch = percent then
    .ok (.advance { m with quotedState := m.state, state := .quoted })
  else if m.ch = plus then
    { m with r.plusInUri := true, state := .usual : Locals }.emit.map .advance
  else { m with state := .usual : Locals }.emit.map .advance

def quotedArm (m : Locals) : Except Failure Arm :=
  if isAsciiDigit m.ch then
    .ok (.advance
      { m with r.quotedUri := true, decoded := m.ch - zero, state := .quotedSecond })
  else
    match hexLetter m.ch with
    | some c =>
        .ok (.advance
          { m with r.quotedUri := true, decoded := c - lowerA + 10, state := .quotedSecond })
    | none => .error .parseError

/-- The two branches of `QuotedSecond` differ in the bytes that they test for. -/
def quotedSecondArm (m : Locals) : Except Failure Arm :=
  if isAsciiDigit m.ch then
    match addU8 (m.decoded <<< 4) (m.ch - zero) with
    | .error e => .error e
    | .ok ch =>
        if ch = percent ∨ ch = hash then
          { m with ch := ch, state := .usual : Locals }.emit.map .advance
        else if ch = nul then .error .parseError
        else .ok (.hold { m with ch := ch, state := m.quotedState })
  else
    match hexLetter m.ch with
    | some c =>
        match (addU8 (m.decoded <<< 4) (c - lowerA)).bind (addU8 · 10) with
        | .error e => .error e
        | .ok ch =>
            if ch = question then
              { m with ch := ch, state := .usual : Locals }.emit.map .advance
            else if ch = plus then
              .ok (.hold { m with r.plusInUri := true, ch := ch, state := m.quotedState })
            else .ok (.hold { m with ch := ch, state := m.quotedState })
    | none => .error .parseError

/-- One pass through `match state`. -/
def complexUriArm (mergeSlashes : Bool) (m : Locals) : Except Failure Arm :=
  match m.state with
  | .usual => usualArm m
  | .slash => slashArm mergeSlashes m
  | .dot => dotArm m
  | .dotDot => dotDotArm m
  | .quoted => quotedArm m
  | .quotedSecond => quotedSecondArm m

def Arm.flow (read : Nat → UInt8) : Arm → Flow Locals Exit
  | .advance m => .next (m.advance read)
  | .hold m => .next m
  | .done m => .ret (.done m)
  | .args m => .ret (.args m)

/-- `while p <= uri_end { match state { .. } }` -/
def complexUriLoop (read : Nat → UInt8) (buf : List UInt8) (mergeSlashes : Bool) :
    Loop Locals Exit Failure where
  guard m := m.p ≤ buf.length
  body m := (complexUriArm mergeSlashes m).map (·.flow read)

/-- The state at the first loop head. -/
def Locals.init (read : Nat → UInt8) (r : Request) (out : List UInt8) :
    Except Failure Locals :=
  let m : Locals :=
    { r := { r with uriExt := none, argsStart := none }, out, state := .usual,
      quotedState := .usual, decoded := 0, p := 0, u := 0, ch := 0 }
  (if r.emptyPathInUri then m.write slash else .ok m).map (·.advance read)

/-- `finish_done`. -/
def finishDone (r : Request) (u : Nat) : Request :=
  match r.uriExt with
  | some ext =>
      { r with
        uri := { r.uri with len := u }
        exten := { len := wrappingSub u ext, data := ext }
        uriExt := none }
  | none => { r with uri := { r.uri with len := u } }

@[simp] theorem finishDone_len (r : Request) (u : Nat) : (finishDone r u).uri.len = u := by
  cases h : r.uriExt <;> simp [finishDone, h]

@[simp] theorem finishDone_args (r : Request) (u : Nat) : (finishDone r u).args = r.args := by
  cases h : r.uriExt <;> simp [finishDone, h]

@[simp] theorem finishDone_argsStart (r : Request) (u : Nat) :
    (finishDone r u).argsStart = r.argsStart := by
  cases h : r.uriExt <;> simp [finishDone, h]

/-- The cursor just past the first `#` at or after `p`, where the loop of
`finish_args` breaks. -/
def pastHash (buf : List UInt8) (p : Nat) : Option Nat :=
  if h : p < buf.length then
    if buf[p] = hash then some (p + 1) else pastHash buf (p + 1)
  else none
termination_by buf.length - p

/-- `finish_args`. -/
def finishArgs (r : Request) (buf : List UInt8) (u p : Nat) : Except Failure Request :=
  match pastHash buf p with
  | none => .ok (finishDone r u)
  | some q =>
      match r.argsStart with
      | none => .error .panic
      | some argsStart =>
          .ok (finishDone
            { r with
              args := { len := wrappingSub (q - 1) argsStart, data := argsStart }
              argsStart := none } u)

/-- What follows the loop when it is left at the end of the input. -/
def endOfInput (m : Locals) : Except Failure (Request × List UInt8) :=
  match m.state with
  | .quoted | .quotedSecond => .error .parseError
  | .dot => m.back.map fun m => (finishDone m.r m.u, m.out)
  | .dotDot => (backwardsScan m.out m.u).map fun u => (finishDone m.r u, m.out)
  | .usual | .slash => .ok (finishDone m.r m.u, m.out)

def afterLoop (buf : List UInt8) : Flow Locals Exit → Except Failure (Request × List UInt8)
  | .next m => endOfInput m
  | .ret (.done m) => .ok (finishDone m.r m.u, m.out)
  | .ret (.args m) => (finishArgs m.r buf m.u m.p).map (·, m.out)

/-- `ngx_http_parse_complex_uri` over a cursor that reads through `read`. Three
bytes of an escape take four iterations, so twice the length suffices. -/
def parseComplexUriWith (read : Nat → UInt8) (r : Request) (buf out : List UInt8)
    (mergeSlashes : Bool) : Except Failure (Request × List UInt8) :=
  match Locals.init read r out with
  | .error e => .error e
  | .ok m =>
      ((complexUriLoop read buf mergeSlashes).run .diverged (2 * buf.length) m).bind
        (afterLoop buf)

/-- `ngx_http_parse_complex_uri`. -/
def ngxHttpParseComplexUri (r : Request) (buf out : List UInt8) (mergeSlashes : Bool) :
    Except Failure (Request × List UInt8) :=
  parseComplexUriWith (readWithLfSentinel buf) r buf out mergeSlashes

end UrlParseNginx
