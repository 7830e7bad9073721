import UrlParseNginx.Library.Ascii
import UrlParseNginx.Library.Loop

/-!
The C reference: nginx's `ngx_http_parse_uri` and `ngx_http_parse_complex_uri`, and the
wrapper that calls them. A pointer is a block and an offset, which may go below the block;
a load or a store outside its block, or through NULL, is a fault.
-/
namespace NginxReference
open Ascii WhileLoop

inductive Fault where
  | memory
  | diverged
  deriving DecidableEq

/-- The two allocations of the wrapper. -/
inductive Block where
  | inbuf
  | nbuf
  deriving DecidableEq

structure Ptr where
  block : Block
  off : Int
  deriving DecidableEq

def Ptr.plus (p : Ptr) (n : Int) : Ptr := { p with off := p.off + n }

structure Memory where
  inbuf : List UInt8
  nbuf : List UInt8
  deriving DecidableEq

def Memory.block (mem : Memory) : Block → List UInt8
  | .inbuf => mem.inbuf
  | .nbuf => mem.nbuf

/-- `*p` -/
def Memory.load (mem : Memory) (p : Ptr) : Except Fault UInt8 :=
  if 0 ≤ p.off then
    match (mem.block p.block)[p.off.toNat]? with
    | some c => .ok c
    | none => .error .memory
  else .error .memory

/-- `*p = c` -/
def Memory.store (mem : Memory) (p : Ptr) (c : UInt8) : Except Fault Memory :=
  if 0 ≤ p.off ∧ p.off.toNat < (mem.block p.block).length then
    match p.block with
    | .inbuf => .ok { mem with inbuf := mem.inbuf.set p.off.toNat c }
    | .nbuf => .ok { mem with nbuf := mem.nbuf.set p.off.toNat c }
  else .error .memory

/-- A pointer difference stored in a `size_t`. -/
def toSize (d : Int) : Nat := if 0 ≤ d then d.toNat else (d + UInt64.size).toNat

/-- `ngx_str_t` -/
structure Str where
  len : Nat
  data : Option Ptr

/-- `ngx_http_request_t`, with `none` for NULL. -/
structure Request where
  uri : Str
  args : Str
  exten : Str
  uriStart : Ptr
  uriEnd : Ptr
  uriExt : Option Ptr
  argsStart : Option Ptr
  complexUri : Bool
  quotedUri : Bool
  plusInUri : Bool
  emptyPathInUri : Bool

def NGX_OK : Int := 0
def NGX_ERROR : Int := -1
def NGX_HTTP_PARSE_INVALID_REQUEST : Int := 10

def usualBits : List UInt32 := [
  0x00000000, 0x7fff37d6, 0xffffffff, 0x7fffffff,
  0xffffffff, 0xffffffff, 0xffffffff, 0xffffffff]

/-- `usual[ch >> 5] & (1U << (ch & 0x1f))` -/
def usual (ch : UInt8) : Bool :=
  usualBits.getD (ch >>> 5).toNat 0 &&& ((1 : UInt32) <<< (ch &&& 0x1f).toUInt32) != 0

inductive UriState where
  | swStart
  | swAfterSlashInUri
  | swCheckUri
  | swUri

structure UriLocals where
  r : Request
  state : UriState
  p : Ptr

/-- `default: if (ch <= 0x20 || ch == 0x7f) return NGX_ERROR;` -/
def uriDefault (ch : UInt8) (m : UriLocals) : Flow UriLocals Int :=
  if ch ≤ 0x20 ∨ ch = 0x7f then .ret NGX_ERROR else .next m

/-- One pass through `switch (state)`; `next` is a `break` out of it. -/
def uriSwitch (m : UriLocals) (ch : UInt8) : Flow UriLocals Int :=
  match m.state with
  | .swStart =>
      if ch ≠ slash then .ret NGX_ERROR else .next { m with state := .swAfterSlashInUri }
  | .swAfterSlashInUri =>
      if usual ch then .next { m with state := .swCheckUri }
      else if ch = dot then .next { m with r.complexUri := true, state := .swUri }
      else if ch = percent then .next { m with r.quotedUri := true, state := .swUri }
      else if ch = slash then .next { m with r.complexUri := true, state := .swUri }
      else if ch = question then
        .next { m with r.argsStart := some (m.p.plus 1), state := .swUri }
      else if ch = hash then .next { m with r.complexUri := true, state := .swUri }
      else if ch = plus then .next { m with r.plusInUri := true }
      else uriDefault ch { m with state := .swCheckUri }
  | .swCheckUri =>
      if usual ch then .next m
      else if ch = slash then .next { m with r.uriExt := none, state := .swAfterSlashInUri }
      else if ch = dot then .next { m with r.uriExt := some (m.p.plus 1) }
      else if ch = percent then .next { m with r.quotedUri := true, state := .swUri }
      else if ch = question then
        .next { m with r.argsStart := some (m.p.plus 1), state := .swUri }
      else if ch = hash then .next { m with r.complexUri := true, state := .swUri }
      else if ch = plus then .next { m with r.plusInUri := true }
      else uriDefault ch m
  | .swUri =>
      if usual ch then .next m
      else if ch = hash then .next { m with r.complexUri := true }
      else uriDefault ch m

/-- `for (p = r->uri_start; p != r->uri_end; p++)` -/
def uriLoop (mem : Memory) : Loop UriLocals (Int × Request) Fault where
  guard m := m.p ≠ m.r.uriEnd
  body m := (mem.load m.p).map fun ch =>
    match uriSwitch m ch with
    | .next m => .next { m with p := m.p.plus 1 }
    | .ret rc => .ret (rc, m.r)

def uriResult : Flow UriLocals (Int × Request) → Int × Request
  | .next m => (NGX_OK, m.r)
  | .ret x => x

/-- The return code and the request. -/
def ngxHttpParseUri (mem : Memory) (r : Request) : Except Fault (Int × Request) :=
  ((uriLoop mem).run .diverged mem.inbuf.length { r, state := .swStart, p := r.uriStart }).map
    uriResult

inductive State where
  | swUsual
  | swSlash
  | swDot
  | swDotDot
  | swQuoted
  | swQuotedSecond

structure Locals where
  r : Request
  mem : Memory
  state : State
  quotedState : State
  decoded : UInt8
  p : Ptr
  u : Ptr
  ch : UInt8

/-- How a case of the switch ends: with `ch = *p++; break;`, with `break;` alone, with a
`goto`, or with `return NGX_HTTP_PARSE_INVALID_REQUEST;`. -/
inductive Break where
  | fetch (m : Locals)
  | again (m : Locals)
  | done (m : Locals)
  | args (m : Locals)
  | invalid (m : Locals)

/-- What the main loop returns through. -/
inductive Exit where
  | done (m : Locals)
  | args (m : Locals)
  | invalid (m : Locals)

/-- `*u++ = c;` -/
def Locals.put (m : Locals) (c : UInt8) : Except Fault Locals :=
  (m.mem.store m.u c).map fun mem => { m with mem, u := m.u.plus 1 }

/-- `ch = *p++;` -/
def Locals.fetch (m : Locals) : Except Fault Locals :=
  (m.mem.load m.p).map fun ch => { m with ch, p := m.p.plus 1 }

/-- The `for ( ;; )` that goes back to just after a slash; `none` is its early return. -/
def backward (mem : Memory) (data u : Ptr) : Except Fault (Option Ptr) :=
  if u.off < data.off then .ok none
  else
    match mem.load u with
    | .error e => .error e
    | .ok c => if c = slash then .ok (some (u.plus 1)) else backward mem data (u.plus (-1))
termination_by (u.off + 1 - data.off).toNat
decreasing_by
  simp only [Ptr.plus]
  omega

/-- `u -= 4;` and the loop after it. -/
def Locals.pop (m : Locals) : Except Fault (Option Ptr) :=
  match m.r.uri.data with
  | none => .error .memory
  | some data => backward m.mem data (m.u.plus (-4))

/-- `case '+': r->plus_in_uri = 1; /* fall through */ default:` -/
def Locals.plain (m : Locals) : Except Fault Break :=
  if m.ch = plus then ({ m with r.plusInUri := true : Locals }.put m.ch).map .fetch
  else (m.put m.ch).map .fetch

def usualCase (m : Locals) : Except Fault Break :=
  if usual m.ch then (m.put m.ch).map .fetch
  else if m.ch = slash then
    ({ m with r.uriExt := none, state := .swSlash : Locals }.put m.ch).map .fetch
  else if m.ch = percent then
    .ok (.fetch { m with quotedState := m.state, state := .swQuoted })
  else if m.ch = question then .ok (.args { m with r.argsStart := some m.p })
  else if m.ch = hash then .ok (.done m)
  else if m.ch = dot then
    ({ m with r.uriExt := some (m.u.plus 1) : Locals }.put m.ch).map .fetch
  else m.plain

def slashCase (mergeSlashes : Nat) (m : Locals) : Except Fault Break :=
  if usual m.ch then ({ m with state := .swUsual : Locals }.put m.ch).map .fetch
  else if m.ch = slash then
    if mergeSlashes = 0 then (m.put m.ch).map .fetch else .ok (.fetch m)
  else if m.ch = dot then ({ m with state := .swDot : Locals }.put m.ch).map .fetch
  else if m.ch = percent then
    .ok (.fetch { m with quotedState := m.state, state := .swQuoted })
  else if m.ch = question then .ok (.args { m with r.argsStart := some m.p })
  else if m.ch = hash then .ok (.done m)
  else { m with state := .swUsual : Locals }.plain

def dotCase (m : Locals) : Except Fault Break :=
  if usual m.ch then ({ m with state := .swUsual : Locals }.put m.ch).map .fetch
  else if m.ch = slash then .ok (.fetch { m with state := .swSlash, u := m.u.plus (-1) })
  else if m.ch = dot then ({ m with state := .swDotDot : Locals }.put m.ch).map .fetch
  else if m.ch = percent then
    .ok (.fetch { m with quotedState := m.state, state := .swQuoted })
  else if m.ch = question then
    .ok (.args { m with u := m.u.plus (-1), r.argsStart := some m.p })
  else if m.ch = hash then .ok (.done { m with u := m.u.plus (-1) })
  else { m with state := .swUsual : Locals }.plain

def dotDotCase (m : Locals) : Except Fault Break :=
  if usual m.ch then ({ m with state := .swUsual : Locals }.put m.ch).map .fetch
  else if m.ch = slash ∨ m.ch = question ∨ m.ch = hash then
    m.pop.map fun
      | none => .invalid m
      | some u =>
          if m.ch = question then .args { m with u, r.argsStart := some m.p }
          else if m.ch = hash then .done { m with u }
          else .fetch { m with u, state := .swSlash }
  else if m.ch = percent then
    .ok (.fetch { m with quotedState := m.state, state := .swQuoted })
  else { m with state := .swUsual : Locals }.plain

def quotedCase (m : Locals) : Except Fault Break :=
  let c := m.ch ||| 0x20
  if m.ch ≥ zero ∧ m.ch ≤ nine then
    .ok (.fetch { m with
      r.quotedUri := true, decoded := m.ch - zero, state := .swQuotedSecond })
  else if c ≥ lowerA ∧ c ≤ lowerF then
    .ok (.fetch { m with
      r.quotedUri := true, decoded := c - lowerA + 10, state := .swQuotedSecond })
  else .ok (.invalid { m with r.quotedUri := true })

/-- The sums are `int` and are cut to a `u_char`. -/
def quotedSecondCase (m : Locals) : Except Fault Break :=
  let c := m.ch ||| 0x20
  if m.ch ≥ zero ∧ m.ch ≤ nine then
    let ch := (m.decoded <<< 4) + (m.ch - zero)
    if ch = percent ∨ ch = hash then
      ({ m with ch, state := .swUsual : Locals }.put ch).map .fetch
    else if ch = nul then .ok (.invalid m)
    else .ok (.again { m with ch, state := m.quotedState })
  else if c ≥ lowerA ∧ c ≤ lowerF then
    let ch := (m.decoded <<< 4) + (c - lowerA) + 10
    if ch = question then
      ({ m with ch, state := .swUsual : Locals }.put ch).map .fetch
    else if ch = plus then
      .ok (.again { m with r.plusInUri := true, ch, state := m.quotedState })
    else .ok (.again { m with ch, state := m.quotedState })
  else .ok (.invalid m)

def complexUriSwitch (mergeSlashes : Nat) (m : Locals) : Except Fault Break :=
  match m.state with
  | .swUsual => usualCase m
  | .swSlash => slashCase mergeSlashes m
  | .swDot => dotCase m
  | .swDotDot => dotDotCase m
  | .swQuoted => quotedCase m
  | .swQuotedSecond => quotedSecondCase m

def Break.flow : Break → Except Fault (Flow Locals Exit)
  | .fetch m => m.fetch.map .next
  | .again m => .ok (.next m)
  | .done m => .ok (.ret (.done m))
  | .args m => .ok (.ret (.args m))
  | .invalid m => .ok (.ret (.invalid m))

/-- `while (p <= r->uri_end)` -/
def complexUriLoop (mergeSlashes : Nat) : Loop Locals Exit Fault where
  guard m := m.p.off ≤ m.r.uriEnd.off
  body m := (complexUriSwitch mergeSlashes m).bind Break.flow

/-- `done:` -/
def doneLabel (r : Request) (u : Ptr) : Except Fault Request :=
  match r.uri.data with
  | none => .error .memory
  | some data =>
      let r := { r with uri.len := toSize (u.off - data.off) }
      match r.uriExt with
      | some ext =>
          .ok { r with
            exten := { len := toSize (u.off - ext.off), data := some ext }, uriExt := none }
      | none => .ok { r with uriExt := none }

/-- Where the `while (p < r->uri_end)` of `args:` breaks, past a `#`. -/
def pastHash (mem : Memory) (uriEnd p : Ptr) : Except Fault (Option Ptr) :=
  if p.off < uriEnd.off then
    match mem.load p with
    | .error e => .error e
    | .ok c => if c ≠ hash then pastHash mem uriEnd (p.plus 1) else .ok (some (p.plus 1))
  else .ok none
termination_by (uriEnd.off - p.off).toNat
decreasing_by
  simp only [Ptr.plus]
  omega

/-- `args:` -/
def argsLabel (mem : Memory) (r : Request) (u p : Ptr) : Except Fault Request :=
  match pastHash mem r.uriEnd p with
  | .error e => .error e
  | .ok none => doneLabel r u
  | .ok (some p) =>
      match r.argsStart with
      | none => .error .memory
      | some argsStart =>
          doneLabel
            { r with
              args := { len := toSize (p.off - 1 - argsStart.off), data := some argsStart }
              argsStart := none } u

/-- What follows the main loop when its condition fails. -/
def endOfInput (m : Locals) : Except Fault Exit :=
  match m.state with
  | .swQuoted | .swQuotedSecond => .ok (.invalid m)
  | .swDot => .ok (.done { m with u := m.u.plus (-1) })
  | .swDotDot =>
      m.pop.map fun
        | none => .invalid m
        | some u => .done { m with u }
  | .swUsual | .swSlash => .ok (.done m)

def leave : Exit → Except Fault (Int × Request × Memory)
  | .done m => (doneLabel m.r m.u).map (NGX_OK, ·, m.mem)
  | .args m => (argsLabel m.mem m.r m.u m.p).map (NGX_OK, ·, m.mem)
  | .invalid m => .ok (NGX_HTTP_PARSE_INVALID_REQUEST, m.r, m.mem)

def afterLoop : Flow Locals Exit → Except Fault (Int × Request × Memory)
  | .next m => (endOfInput m).bind leave
  | .ret x => leave x

/-- The locals at the first test of the loop. -/
def Locals.init (mem : Memory) (r : Request) : Except Fault Locals :=
  match r.uri.data with
  | none => .error .memory
  | some data =>
      let m : Locals :=
        { r := { r with uriExt := none, argsStart := none }, mem, state := .swUsual,
          quotedState := .swUsual, decoded := 0, p := r.uriStart, u := data, ch := 0 }
      (if r.emptyPathInUri then m.put slash else .ok m).bind Locals.fetch

/-- The return code, the request and the memory. -/
def ngxHttpParseComplexUri (mem : Memory) (r : Request) (mergeSlashes : Nat) :
    Except Fault (Int × Request × Memory) :=
  match Locals.init mem r with
  | .error e => .error e
  | .ok m =>
      ((complexUriLoop mergeSlashes).run .diverged (2 * mem.inbuf.length) m).bind afterLoop

/-- The buffer and the results that the caller of the wrapper passes by reference. -/
structure Outputs where
  out : List UInt8
  outLen : Nat
  argsOffset : Nat
  argsLen : Nat
  argsPresent : Int

/-- `memcpy(out, p, n)` -/
def Memory.copy (mem : Memory) (p : Ptr) (n : Nat) (out : List UInt8) :
    Except Fault (List UInt8) :=
  if 0 ≤ p.off ∧ p.off.toNat + n ≤ (mem.block p.block).length ∧ n ≤ out.length then
    .ok (((mem.block p.block).drop p.off.toNat).take n ++ out.drop n)
  else .error .memory

/-- `memset(&r, 0, sizeof(r))`, and the two pointers that are set before stage 1. -/
def Request.init (uriStart uriEnd : Ptr) : Request :=
  { uri := { len := 0, data := none }, args := { len := 0, data := none },
    exten := { len := 0, data := none }, uriStart, uriEnd, uriExt := none, argsStart := none,
    complexUri := false, quotedUri := false, plusInUri := false, emptyPathInUri := false }

/-- The part of `ngx_http_process_request_uri` between the stages: `r.uri` before stage 2. -/
def pathLength (r : Request) : Nat :=
  match r.argsStart with
  | some a => toSize (a.off - 1 - r.uriStart.off)
  | none => toSize (r.uriEnd.off - r.uriStart.off)

/-- `r.args`, unless stage 2 has set it. -/
def assignArgs (r : Request) : Request :=
  match r.argsStart with
  | some a =>
      if r.uriEnd.off > a.off then
        { r with args := { len := toSize (r.uriEnd.off - a.off), data := some a } }
      else r
  | none => r

/-- The results that the wrapper stores; `r.args.data` is an offset into the input. -/
def outputs (r : Request) (out : List UInt8) : Outputs :=
  match r.args.data with
  | some a =>
      { out, outLen := r.uri.len, argsOffset := toSize a.off, argsLen := r.args.len,
        argsPresent := 1 }
  | none => { out, outLen := r.uri.len, argsOffset := 0, argsLen := 0, argsPresent := 0 }

/-- What is done with `r` once both stages have succeeded. -/
def deliver (mem : Memory) (r : Request) (outs : Outputs) : Except Fault (Int × Outputs) :=
  if r.uri.len > outs.out.length then .ok (-2, outs)
  else
    match r.uri.data with
    | none => .error .memory
    | some data =>
        (if r.uri.len ≠ 0 then mem.copy data r.uri.len outs.out else .ok outs.out).map fun out =>
          (0, outputs r out)

/-- `nginx_parse_origin_form`, with the bytes that `malloc` has left in `nbuf`. -/
def nginxParseOriginForm (input : List UInt8) (mergeSlashes : Int) (nbuf : List UInt8)
    (outs : Outputs) : Except Fault (Int × Outputs) :=
  if input.length = 0 then .ok (-1, outs)
  else do
    let mem : Memory := { inbuf := input ++ [lineFeed], nbuf }
    let (rc, r) ← ngxHttpParseUri mem (.init ⟨.inbuf, 0⟩ ⟨.inbuf, input.length⟩)
    if rc ≠ NGX_OK then return (-1, outs)
    let r := { r with uri.len := pathLength r }
    if r.complexUri || r.quotedUri || r.emptyPathInUri then
      let len := if r.emptyPathInUri then r.uri.len + 1 else r.uri.len
      let (rc, r, mem) ← ngxHttpParseComplexUri mem
        { r with uri := { len, data := some ⟨.nbuf, 0⟩ } } (if mergeSlashes ≠ 0 then 1 else 0)
      if rc ≠ NGX_OK then return (-1, outs)
      deliver mem (assignArgs r) outs
    else
      deliver mem (assignArgs { r with uri.data := some r.uriStart }) outs

end NginxReference
