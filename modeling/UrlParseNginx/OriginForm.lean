import UrlParseNginx.ParseUri
import UrlParseNginx.ComplexUri

/-!
`parse_origin_form`: stage 1, then stage 2 when a flag asks for it, or the
input's own bytes when none does.
-/
namespace UrlParseNginx

/-- `parsed_args`. -/
def parsedArgs (r : Request) (input : List UInt8) : Except Failure (Option (Slice input)) :=
  if r.args.data ≠ 0 then
    (slice input r.args.data (r.args.data + r.args.len)).map some
  else
    match r.argsStart with
    | some a =>
        if input.length > a then (slice input a input.length).map some else .ok none
    | none => .ok none

/-- The borrowed path of a simple target: `&target[..len]`. -/
def simplePath (r : Request) (target : List UInt8) : Except Failure (Slice target) :=
  match r.argsStart with
  | some a => if a = 0 then .error .panic else slice target 0 (a - 1)
  | none => slice target 0 target.length

/-- Does stage 2 run? -/
def needsNormalization (r : Request) : Bool :=
  r.complexUri || r.quotedUri || r.emptyPathInUri

/-- `parse_origin_form`. -/
def parseOriginForm (target : List UInt8) (mergeSlashes : Bool) :
    Except Failure (Parsed target) :=
  if target.isEmpty then .error .parseError
  else do
    let r ← ngxHttpParseUri .default target
    if needsNormalization r then
      let out := List.replicate (target.length + 1) 0
      let (r, out) ← ngxHttpParseComplexUri r target out mergeSlashes
      let args ← parsedArgs r target
      return { path := .owned (out.take r.uri.len), args }
    else
      let path ← simplePath r target
      let args ← parsedArgs r target
      return { path := .borrowed path, args }

end UrlParseNginx
