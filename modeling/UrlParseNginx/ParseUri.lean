import UrlParseNginx.Library.Loop
import UrlParseNginx.Request

/-!
Stage 1, `ngx_http_parse_uri`: one scan over the request target that checks its
bytes, sets the flags that call for normalization and finds the query string.
-/
namespace UrlParseNginx
open Ascii WhileLoop

/-- The locals of `ngx_http_parse_uri`. -/
structure UriLocals where
  r : Request
  state : UriState
  p : Nat

/-- Bytes that none of the arms names are only checked. -/
def rejectBlank (ch : UInt8) (m : UriLocals) : Except Failure UriLocals :=
  if Blank ch then .error .parseError else .ok m

def startArm (m : UriLocals) (ch : UInt8) : Except Failure UriLocals :=
  if ch ≠ slash then .error .parseError else .ok { m with state := .afterSlash }

def afterSlashArm (m : UriLocals) (ch : UInt8) : Except Failure UriLocals :=
  if usual ch then .ok { m with state := .checkUri }
  else if ch = dot then .ok { m with r.complexUri := true, state := .uri }
  else if ch = percent then .ok { m with r.quotedUri := true, state := .uri }
  else if ch = slash then .ok { m with r.complexUri := true, state := .uri }
  else if ch = question then .ok { m with r.argsStart := some (m.p + 1), state := .uri }
  else if ch = hash then .ok { m with r.complexUri := true, state := .uri }
  else if ch = plus then .ok { m with r.plusInUri := true }
  else rejectBlank ch { m with state := .checkUri }

/-- The bytes of `CheckUri` that are not ordinary. -/
def checkUriArm (m : UriLocals) (ch : UInt8) : Except Failure UriLocals :=
  if ch = slash then .ok { m with r.uriExt := none, state := .afterSlash }
  else if ch = dot then .ok { m with r.uriExt := some (m.p + 1) }
  else if ch = percent then .ok { m with r.quotedUri := true, state := .uri }
  else if ch = question then .ok { m with r.argsStart := some (m.p + 1), state := .uri }
  else if ch = hash then .ok { m with r.complexUri := true, state := .uri }
  else if ch = plus then .ok { m with r.plusInUri := true }
  else rejectBlank ch m

def uriArm (m : UriLocals) (ch : UInt8) : Except Failure UriLocals :=
  if usual ch then .ok m
  else if ch = hash then .ok { m with r.complexUri := true }
  else rejectBlank ch m

/-- `while p != uri_end && usual(buf[p]) { p += 1; }` -/
def skipUsual (buf : List UInt8) (p : Nat) : Except Failure Nat :=
  if p = buf.length then .ok p
  else
    match h : buf[p]? with
    | none => .error .panic
    | some c => if usual c then skipUsual buf (p + 1) else .ok p
termination_by buf.length - p
decreasing_by
  have := (List.getElem?_eq_some_iff.mp h).1
  omega

/-- The `p += 1` that ends an iteration. -/
def UriLocals.next (m : UriLocals) : UriLocals := { m with p := m.p + 1 }

def uriBody (buf : List UInt8) (m : UriLocals) : Except Failure (Flow UriLocals Empty) :=
  match buf[m.p]? with
  | none => .error .panic
  | some ch =>
      match m.state with
      | .start => (startArm m ch).map fun m => .next m.next
      | .afterSlash => (afterSlashArm m ch).map fun m => .next m.next
      | .checkUri =>
          if usual ch then (skipUsual buf (m.p + 1)).map fun p => .next { m with p := p }
          else (checkUriArm m ch).map fun m => .next m.next
      | .uri => (uriArm m ch).map fun m => .next m.next

def uriLoop (buf : List UInt8) : Loop UriLocals Empty Failure where
  guard m := m.p != buf.length
  body := uriBody buf

/-- `ngx_http_parse_uri`. Every iteration consumes a byte, so `buf.length`
iterations suffice. -/
def ngxHttpParseUri (r : Request) (buf : List UInt8) : Except Failure Request :=
  match (uriLoop buf).run .diverged buf.length { r, state := .start, p := 0 } with
  | .error e => .error e
  | .ok (.next m) => .ok m.r

end UrlParseNginx
