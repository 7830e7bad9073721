import Mathlib.Data.List.Basic
import UrlParseNginx.Library.Ascii

/-!
The data of the parser: the `USUAL` table, the request fields that the two
stages touch, the states of their machines, and the parsed result. A slice is a
range inside the input it borrows from, so a slice out of bounds cannot be built.
-/
namespace UrlParseNginx
open Ascii

/-- How a call fails to return `Ok`: with `Err(ParseError)`, by a panic, or by
running out of the iterations the model allows a loop. -/
inductive Failure where
  | parseError
  | panic
  | diverged
  deriving DecidableEq

/-- nginx's `usual[]` bitmap. Bit `1` marks an ordinary URI byte. -/
def USUAL : Vector UInt32 8 := #v[
  0x00000000, 0x7fff37d6, 0xffffffff, 0x7fffffff,
  0xffffffff, 0xffffffff, 0xffffffff, 0xffffffff]

theorem shift_lt (ch : UInt8) : (ch >>> 5).toNat < 8 := by
  apply forall_byte (P := fun ch => (ch >>> 5).toNat < 8)
  decide +kernel

def usual (ch : UInt8) : Bool :=
  have h := shift_lt ch
  USUAL[(ch >>> 5).toNat] &&& ((1 : UInt32) <<< (ch &&& 0x1f).toUInt32) != 0

/-- The table leaves out the bytes with a meaning in a path and the blank ones. -/
theorem usual_iff (ch : UInt8) :
    usual ch = true ↔ ¬ Blank ch ∧ ch ≠ hash ∧ ch ≠ percent ∧ ch ≠ plus ∧ ch ≠ dot ∧
      ch ≠ slash ∧ ch ≠ question := by
  apply forall_byte (P := fun ch => usual ch = true ↔ ¬ Blank ch ∧ ch ≠ hash ∧ ch ≠ percent ∧
    ch ≠ plus ∧ ch ≠ dot ∧ ch ≠ slash ∧ ch ≠ question)
  decide +kernel

@[simp] theorem usual_slash : usual slash = false := by decide
@[simp] theorem usual_dot : usual dot = false := by decide
@[simp] theorem usual_percent : usual percent = false := by decide
@[simp] theorem usual_question : usual question = false := by decide
@[simp] theorem usual_hash : usual hash = false := by decide
@[simp] theorem usual_plus : usual plus = false := by decide

theorem usual_of_blank {ch : UInt8} (h : Blank ch) : usual ch = false := by
  cases hu : usual ch with
  | false => rfl
  | true => exact absurd h ((usual_iff ch).mp hu).1

/-- The cases that `match ch` distinguishes after the test for ordinary bytes. -/
theorem byte_cases (ch : UInt8) :
    usual ch = true ∨ ch = slash ∨ ch = dot ∨ ch = percent ∨ ch = question ∨ ch = hash ∨
      ch = plus ∨ Blank ch := by
  have h := usual_iff ch
  grind

/-- The cursor of stage 2 reads `sentinel` past the end of the buffer. -/
def readWithSentinel (sentinel : UInt8) (buf : List UInt8) (p : Nat) : UInt8 :=
  buf.getD p sentinel

def readWithLfSentinel (buf : List UInt8) (p : Nat) : UInt8 :=
  readWithSentinel lineFeed buf p

/-- `usize::wrapping_sub` of two addresses that fit in 64 bits. -/
def wrappingSub (a b : Nat) : Nat := if b ≤ a then a - b else a + UInt64.size - b

/-- A `{len, data}` pair; `data` is an offset, and `0` stands for nginx's NULL. -/
structure NgxStr where
  len : Nat
  data : Nat
  deriving DecidableEq

def NgxStr.default : NgxStr := { len := 0, data := 0 }

structure Request where
  uri : NgxStr
  args : NgxStr
  exten : NgxStr
  uriExt : Option Nat
  argsStart : Option Nat
  complexUri : Bool
  quotedUri : Bool
  plusInUri : Bool
  emptyPathInUri : Bool
  deriving DecidableEq

/-- `Request::default()`. -/
def Request.default : Request :=
  { uri := .default, args := .default, exten := .default, uriExt := none, argsStart := none,
    complexUri := false, quotedUri := false, plusInUri := false, emptyPathInUri := false }

inductive UriState where
  | start
  | afterSlash
  | checkUri
  | uri
  deriving DecidableEq

inductive State where
  | usual
  | slash
  | dot
  | dotDot
  | quoted
  | quotedSecond
  deriving DecidableEq

/-- A borrowed range of `input`. -/
structure Slice (input : List UInt8) where
  start : Nat
  stop : Nat
  ordered : start ≤ stop
  inBounds : stop ≤ input.length
  deriving DecidableEq

def Slice.bytes {input : List UInt8} (s : Slice input) : List UInt8 :=
  (input.drop s.start).take (s.stop - s.start)

/-- `&input[start..stop]`. -/
def slice (input : List UInt8) (start stop : Nat) : Except Failure (Slice input) :=
  if h : start ≤ stop ∧ stop ≤ input.length then
    .ok { start, stop, ordered := h.1, inBounds := h.2 }
  else .error .panic

theorem slice_eq {input : List UInt8} {start stop : Nat} (h : start ≤ stop)
    (h' : stop ≤ input.length) :
    slice input start stop = .ok { start, stop, ordered := h, inBounds := h' } :=
  dif_pos ⟨h, h'⟩

inductive Cow (input : List UInt8) where
  | borrowed (s : Slice input)
  | owned (bytes : List UInt8)
  deriving DecidableEq

def Cow.bytes {input : List UInt8} : Cow input → List UInt8
  | .borrowed s => s.bytes
  | .owned bytes => bytes

def Cow.isBorrowed {input : List UInt8} : Cow input → Bool
  | .borrowed _ => true
  | .owned _ => false

structure Parsed (input : List UInt8) where
  path : Cow input
  args : Option (Slice input)
  deriving DecidableEq

/-- The query string as bytes. -/
def Parsed.argsBytes {input : List UInt8} (parsed : Parsed input) : Option (List UInt8) :=
  parsed.args.map Slice.bytes

end UrlParseNginx
