import Mathlib.Algebra.Group.Nat.Defs
import UrlParseNginx.CanonicalPath
import UrlParseNginx.Reference.EscapeUri
import UrlParseNginx.Reference.WrapperResult

/-!
The differential fuzzer: `check` runs the reference and the parser on one input and compares
what they return, and `main` calls it on a fixed corpus, on two exhaustive families and on
random inputs. No run of it finds a divergence.
-/
namespace UrlParseNginx
open Ascii PercentCoding

/-- How a call of the harness ends without a result. Only a panic unwinds. -/
inductive Abort where
  | panic
  | fault (e : NginxReference.Fault)
  | diverged
  deriving DecidableEq

/-- `c_escape_path`: `ngx_escape_uri` into three times as many zero bytes. -/
def cEscapePath (input : List UInt8) : Except Abort (List UInt8) :=
  if UInt64.size ≤ input.length * 3 then .error .panic
  else
    let out := List.replicate (input.length * 3) 0
    match NginxReference.ngxEscapeUri ⟨input, out⟩ (some ⟨.nbuf, 0⟩) ⟨.inbuf, 0⟩ input.length
        NginxReference.ESCAPE_URI with
    | .error e => .error (.fault e)
    | .ok (.count _, _) => .error .panic
    | .ok (.stop stop, mem) =>
        if 0 ≤ stop.off ∧ stop.off.toNat ≤ out.length then .ok (mem.nbuf.take stop.off.toNat)
        else .error .panic

/-- `check_path_escape_set` -/
def checkPathEscapeSet (crate : PercentEncoding) : Except Abort Bool :=
  (List.range 256).allM fun byte =>
    let input := [UInt8.ofNat byte]
    (cEscapePath input).map fun c => c = crate.percentEncode input (PATH_ESCAPE_SET crate)

/-- `ParseResult`; both fields are compared by content. -/
structure ParseResult where
  path : List UInt8
  args : Option (List UInt8)
  deriving DecidableEq

/-- `c_parse`, with the bytes that `malloc` has left in the buffer of the wrapper. -/
def cParse (input : List UInt8) (mergeSlashes : Bool) (nbuf : List UInt8) :
    Except Abort (Option ParseResult) :=
  match NginxReference.nginxParseOriginForm input (if mergeSlashes then 1 else 0) nbuf
      ⟨List.replicate (input.length + 1) 0, 0, 0, 0, 0⟩ with
  | .error e => .error (.fault e)
  | .ok (rc, outs) =>
      if rc = 0 then
        let path := outs.out.take outs.outLen
        if outs.argsPresent = 0 then .ok (some { path, args := none })
        else if outs.argsPresent = 1 then
          if outs.argsOffset + outs.argsLen ≤ input.length then
            .ok (some { path, args := some ((input.drop outs.argsOffset).take outs.argsLen) })
          else .error .panic
        else .error .panic
      else if rc = -1 then .ok none
      else .error .panic

/-- `rust_parse` -/
def rustParse (input : List UInt8) (mergeSlashes : Bool) : Except Abort (Option ParseResult) :=
  match parseOriginForm input mergeSlashes with
  | .ok parsed => .ok (some { path := parsed.path.bytes, args := parsed.argsBytes })
  | .error .parseError => .ok none
  | .error .panic => .error .panic
  | .error .diverged => .error .diverged

/-- `catch_unwind`; `none` is a panic that has been caught. -/
def catchUnwind {α : Type} : Except Abort α → Except Abort (Option α)
  | .ok a => .ok (some a)
  | .error .panic => .ok none
  | .error e => .error e

/-- `check` -/
def check (input : List UInt8) (mergeSlashes : Bool) (nbuf : List UInt8) :
    Except Abort Bool := do
  let c ← catchUnwind (cParse input mergeSlashes nbuf)
  let r ← catchUnwind (rustParse input mergeSlashes)
  match c, r with
  | some c, some r => return c = r
  | _, _ => return false

/-- `Rng`, a xorshift64* generator. -/
structure Rng where
  state : UInt64
  deriving DecidableEq

/-- The three shifts of `next_u64`. -/
def xorshift (x : UInt64) : UInt64 :=
  let x := x ^^^ (x >>> 12)
  let x := x ^^^ (x <<< 25)
  x ^^^ (x >>> 27)

def Rng.nextU64 (rng : Rng) : UInt64 × Rng :=
  let x := xorshift rng.state
  (x * 0x2545F4914F6CDD1D, { state := x })

/-- A number below `n`, which is not zero. -/
def Rng.below (rng : Rng) (n : Nat) : Nat × Rng :=
  let (x, rng) := rng.nextU64
  (x.toNat % n, rng)

def ALPHABET : List UInt8 := [
  slash, slash, slash, slash, dot, dot, dot, dot, percent, percent, percent,
  0x32, 0x65, 0x45, 0x66, zero, 0x61, 0x67, 0x5a, 0x41, 0x7a,
  question, hash, plus, space, backslash, 0x3a, 0x7e, 0x3d, 0x26,
  0x00, 0x7f, 0x01, 0x80, 0xff, 0x2d, 0x5f]

/-- `ALPHABET[k]` -/
def letter (k : Nat) : Except Abort UInt8 :=
  match ALPHABET[k]? with
  | some b => .ok b
  | none => .error .panic

/-- `ALPHABET[rng.below(ALPHABET.len())]` -/
def Rng.pick (rng : Rng) : Except Abort (UInt8 × Rng) :=
  (letter (rng.below ALPHABET.length).1).map (·, (rng.below ALPHABET.length).2)

/-- One byte of `gen_input`; the first one is a slash three times out of four. -/
def genByte (rng : Rng) (i : Nat) : Except Abort (UInt8 × Rng) :=
  if i = 0 then
    let (k, rng) := rng.below 4
    if k ≠ 0 then .ok (slash, rng) else rng.pick
  else rng.pick

/-- `for i in 0..len`, from the bytes that are already in `buf`. -/
def genBytes : Nat → List UInt8 → Rng → Except Abort (List UInt8 × Rng)
  | 0, buf, rng => .ok (buf, rng)
  | len + 1, buf, rng => do
      let (b, rng) ← genByte rng buf.length
      genBytes len (buf ++ [b]) rng

/-- `gen_input` -/
def genInput (rng : Rng) : Except Abort (List UInt8 × Rng) :=
  let (len, rng) := rng.below 33
  genBytes len [] rng

/-- What one iteration of the random phase draws. -/
def genTest (rng : Rng) : Except Abort ((List UInt8 × Bool) × Rng) := do
  let (input, rng) ← genInput rng
  let (x, rng) := rng.nextU64
  return ((input, x &&& 1 == 0), rng)

/-- A byte-string literal. -/
def byteString (s : String) : List UInt8 := s.toList.map fun c => UInt8.ofNat c.toNat

def corpus : List (List UInt8) := [
  "", "/", "//", "///", "/.", "/..", "/../", "/./", "/a/./b",
  "/a/../b", "/a/b/../../c", "/a/b/../../../c", "/%2e%2e/", "/%2f",
  "/a%2fb", "/%00", "/foo?bar", "/foo#frag", "/foo?a=b#c", "/+",
  "/foo?", "/foo?#frag", "/foo?x=%20", "/%20", "/a..b", "/...",
  "/....", "/a/..", "relative", "/%zz", "/%2", "/a%", "/\\",
  "/a\\b", "/.%2e/", "/%2e./", "*", ".", "%", " ", "\n", "\x00",
  "http://example.com", "http://example.com/", "http://example.com/foo"].map byteString

/-- The two odometers: digit `i` of `v` goes to `input[1 + i]`. -/
def setDigits (digit : Nat → UInt8) (shift : Nat → Nat) :
    Nat → Nat → Nat → List UInt8 → List UInt8
  | 0, _, _, input => input
  | k + 1, i, v, input => setDigits digit shift k (i + 1) (shift v) (input.set (1 + i) (digit v))

/-- `input[1 + i] = (v & 0xff) as u8; v >>= 8;` -/
def setSuffix (suffixLen n : Nat) (input : List UInt8) : List UInt8 :=
  setDigits (fun v => UInt8.ofNat (v &&& 0xff)) (· >>> 8) suffixLen 0 n input

/-- `(0x20..=0x7e).collect()` -/
def printable : List UInt8 := (List.range 95).map fun i => UInt8.ofNat (0x20 + i)

/-- `input[1 + i] = printable[v % base]; v /= base;` -/
def setPrintable (n : Nat) (input : List UInt8) : List UInt8 :=
  setDigits (fun v => printable.getD (v % printable.length) 0) (· / printable.length) 4 0 n input

/-- The inputs that a loop over `ns` goes through when it changes `input` in place. -/
def visited (set : Nat → List UInt8 → List UInt8) : List Nat → List UInt8 → List (List UInt8)
  | [], _ => []
  | n :: ns, input => set n input :: visited set ns (set n input)

/-- Every suffix of `suffix_len` bytes after a slash. -/
def exhaustiveInputs (suffixLen : Nat) : List (List UInt8) :=
  visited (setSuffix suffixLen) (List.range (256 ^ suffixLen))
    (List.replicate (1 + suffixLen) slash)

/-- Every suffix of four printable bytes after a slash. -/
def printableInputs : List (List UInt8) :=
  visited setPrintable (List.range (printable.length ^ 4)) (List.replicate (1 + 4) slash)

/-- The inputs of the phases before the random one, in their order. -/
def fixedInputs : List (List UInt8) :=
  corpus ++ exhaustiveInputs 1 ++ exhaustiveInputs 2 ++ exhaustiveInputs 3 ++ printableInputs

/-- `malloc` returns a buffer of the size it is asked for; what is in it may differ from call
to call. -/
structure Malloc where
  buffer : Nat → Nat → List UInt8
  size : ∀ call n, (buffer call n).length = n

/-- `for &merge in &[true, false]` for each input, until a check fails. The calls are counted
from `call` on. -/
def fixedPhase (malloc : Malloc) : List (List UInt8) → Nat → Except Abort Bool
  | [], _ => .ok true
  | input :: inputs, call => do
      if ← check input true (malloc.buffer call (input.length + 1)) then
        if ← check input false (malloc.buffer (call + 1) (input.length + 1)) then
          fixedPhase malloc inputs (call + 2)
        else return false
      else return false

def randomPhase (malloc : Malloc) : Nat → Nat → Rng → Except Abort Bool
  | 0, _, _ => .ok true
  | iterations + 1, call, rng => do
      let ((input, mergeSlashes), rng) ← genTest rng
      if ← check input mergeSlashes (malloc.buffer call (input.length + 1)) then
        randomPhase malloc iterations (call + 1) rng
      else return false

/-- `main` once it has its two arguments: does it return `ExitCode::SUCCESS`? -/
def fuzzMain (crate : PercentEncoding) (malloc : Malloc) (iterations seed : UInt64) :
    Except Abort Bool := do
  if ← checkPathEscapeSet crate then
    if ← fixedPhase malloc fixedInputs 0 then
      randomPhase malloc iterations.toNat (2 * fixedInputs.length) { state := seed }
    else return false
  else return false

/-- The `uri` table and `PATH_ESCAPE_SET` are one set. -/
theorem escapes_uri (b : UInt8) :
    NginxReference.escapes NginxReference.escapeUri b = escaped b := by
  apply forall_byte (P := fun b => NginxReference.escapes NginxReference.escapeUri b = escaped b)
  decide +kernel

theorem escapedBytes_uri (s : List UInt8) :
    NginxReference.escapedBytes NginxReference.ESCAPE_URI s = encode escaped s := by
  have hset : NginxReference.escapes NginxReference.escapeUri = escaped := funext escapes_uri
  rw [NginxReference.escapedBytes, ← hset]
  rfl

theorem cEscapePath_eq {input : List UInt8} (hlen : input.length * 3 < UInt64.size) :
    cEscapePath input = .ok (encode escaped input) := by
  have hroom : (encode escaped input).length ≤ input.length * 3 :=
    MarkedCoding.length_encode_le input
  have hsource : (NginxReference.Memory.mk input (List.replicate (input.length * 3) 0)).Holds
      ⟨.inbuf, 0⟩ input := ⟨Int.le_refl 0, List.prefix_refl input⟩
  have hwithin : (NginxReference.Memory.mk input (List.replicate (input.length * 3) 0)).Within
      ⟨.nbuf, 0⟩ := ⟨Int.le_refl 0, Nat.zero_le _⟩
  have htype : NginxReference.ESCAPE_URI < 8 := by decide
  have hwrite := NginxReference.ngxEscapeUri_write htype hsource hwithin (by decide)
  rw [escapedBytes_uri, if_pos (by simpa [NginxReference.Memory.block] using hroom)] at hwrite
  rw [cEscapePath, if_neg (Nat.not_le_of_lt hlen)]
  simp only [hwrite, NginxReference.Ptr.plus, Int.zero_add, Int.toNat_natCast,
    List.length_replicate]
  rw [if_pos ⟨Int.natCast_nonneg _, hroom⟩]
  exact congrArg Except.ok (Buffer.take_drop_overwrite (Nat.zero_le _) _)

/-- `ngx_escape_uri` into a buffer of three times the length writes what `percent_encode`
returns with `PATH_ESCAPE_SET`: for every byte string, and not only for the single bytes that
the fuzzer compares. -/
theorem cEscapePath_percentEncode (crate : PercentEncoding) (hcrate : crate.Documented)
    (input : List UInt8) (hlen : input.length * 3 < UInt64.size) :
    cEscapePath input = .ok (crate.percentEncode input (PATH_ESCAPE_SET crate)) := by
  rw [cEscapePath_eq hlen, percentEncode_eq hcrate]

/-- `/ü b`. -/
theorem cEscapePath_percentEncode_space :
    cEscapePath [slash, 0xc3, 0xbc, space, 0x62] =
      .ok (byteSets.percentEncode [slash, 0xc3, 0xbc, space, 0x62] (PATH_ESCAPE_SET byteSets)) :=
  cEscapePath_percentEncode byteSets byteSets_documented _ (by decide)

theorem allM_true {α : Type} {p : α → Except Abort Bool} {l : List α}
    (h : ∀ a ∈ l, p a = .ok true) : l.allM p = .ok true := by
  induction l with
  | nil => rfl
  | cons a l ih =>
      rw [List.allM, h a (by simp)]
      exact ih fun b hb => h b (List.mem_cons_of_mem _ hb)

theorem checkPathEscapeSet_true {crate : PercentEncoding} (hcrate : crate.Documented) :
    checkPathEscapeSet crate = .ok true := by
  refine allM_true fun byte _ => ?_
  have hone : [UInt8.ofNat byte].length * 3 < UInt64.size := by
    rw [List.length_singleton]
    decide
  simp only [cEscapePath_eq hone, percentEncode_eq hcrate, Except.map, decide_true]

theorem cParse_eq {input nbuf : List UInt8} (mergeSlashes : Bool)
    (hnbuf : nbuf.length = input.length + 1) :
    cParse input mergeSlashes nbuf =
      .ok (match parseOriginForm input mergeSlashes with
        | .error _ => none
        | .ok parsed => some { path := parsed.path.bytes, args := parsed.argsBytes }) := by
  have hflag : ((if mergeSlashes then 1 else 0 : Int) != 0) = mergeSlashes := by
    cases mergeSlashes <;> rfl
  rw [cParse, wrapper_result _ _ _ _ hnbuf, hflag]
  cases hparse : parseOriginForm input mergeSlashes with
  | error e => rfl
  | ok parsed =>
      have hpath := normalPath_length_le (normalPath_of_ok hparse).1
      have hraw := (rawPath_initial input).length_le
      have hroom : ¬ (List.replicate (input.length + 1) (0 : UInt8)).length <
          parsed.path.bytes.length := by
        rw [List.length_replicate]
        omega
      have htake := Buffer.take_drop_overwrite (Nat.zero_le
        (List.replicate (input.length + 1) (0 : UInt8)).length) parsed.path.bytes
      rw [List.drop_zero] at htake
      simp only [wrapperResult, if_neg hroom, delivered, htake]
      cases hargs : parsed.args with
      | none => simp [Parsed.argsBytes, hargs]
      | some s =>
          have hstop : s.start + (s.stop - s.start) ≤ input.length := by
            rw [Nat.add_sub_cancel' s.ordered]
            exact s.inBounds
          simp [Parsed.argsBytes, hargs, hstop, Slice.bytes]

theorem rustParse_eq (input : List UInt8) (mergeSlashes : Bool) :
    rustParse input mergeSlashes =
      .ok (match parseOriginForm input mergeSlashes with
        | .error _ => none
        | .ok parsed => some { path := parsed.path.bytes, args := parsed.argsBytes }) := by
  rw [rustParse]
  cases hpath : normalPath mergeSlashes input with
  | none => rw [parseOriginForm_of_none hpath]
  | some path =>
      obtain ⟨parsed, hok, _⟩ := parseOriginForm_of_some hpath
      rw [hok]

theorem check_true {input nbuf : List UInt8} (mergeSlashes : Bool)
    (hnbuf : nbuf.length = input.length + 1) : check input mergeSlashes nbuf = .ok true := by
  rw [check, cParse_eq mergeSlashes hnbuf, rustParse_eq]
  simp [catchUnwind, Bind.bind, Except.bind, pure, Except.pure]

/-- The reference undoes its own escaping: the path of an accepted target, escaped and parsed
again, comes back as it was and without a query, as it does for the parser. Three times its
length has to fit a `usize`. -/
theorem cParse_cEscapePath (input nbuf nbuf' : List UInt8) (mergeSlashes : Bool)
    (result : ParseResult) (hnbuf : nbuf.length = input.length + 1)
    (hparse : cParse input mergeSlashes nbuf = .ok (some result))
    (hlen : result.path.length * 3 < UInt64.size) :
    ∃ encoded, cEscapePath result.path = .ok encoded ∧
      (nbuf'.length = encoded.length + 1 →
        cParse encoded mergeSlashes nbuf' = .ok (some { path := result.path, args := none })) := by
  refine ⟨_, cEscapePath_eq hlen, fun hnbuf' => ?_⟩
  rw [cParse_eq mergeSlashes hnbuf] at hparse
  cases hok : parseOriginForm input mergeSlashes with
  | error e =>
      rw [hok] at hparse
      cases hparse
  | ok parsed =>
      rw [hok] at hparse
      obtain rfl := Option.some.inj (Except.ok.inj hparse)
      obtain ⟨hcanonical, hnul⟩ := canonical_of_normalPath (normalPath_of_ok hok).1
      obtain ⟨parsed', hok', hbytes, hargs⟩ := parseOriginForm_encode hcanonical hnul
      rw [cParse_eq mergeSlashes hnbuf', hok']
      simp [Parsed.argsBytes, hargs, hbytes]

/-- `/%20?c`, with no slashes merged. -/
theorem cParse_cEscapePath_space :
    ∃ encoded, cEscapePath [slash, space] = .ok encoded ∧
      ((List.replicate 5 (0xff : UInt8)).length = encoded.length + 1 →
        cParse encoded false (List.replicate 5 0xff) =
          .ok (some { path := [slash, space], args := none })) := by
  have haccepts : cParse [slash, percent, 0x32, 0x30, question, 0x63] false
      (List.replicate 7 0xff) = .ok (some { path := [slash, space], args := some [0x63] }) := by
    rw [cParse_eq false (by decide)]
    decide +kernel
  exact cParse_cEscapePath [slash, percent, 0x32, 0x30, question, 0x63] (List.replicate 7 0xff)
    (List.replicate 5 0xff) false { path := [slash, space], args := some [0x63] } (by decide)
    haccepts (by decide)

theorem Rng.below_lt (rng : Rng) {n : Nat} (hn : 0 < n) : (rng.below n).1 < n :=
  Nat.mod_lt _ hn

/-- A property of the generator's state that its step keeps. -/
def Steady (P : UInt64 → Prop) : Prop := ∀ x, P x → P (xorshift x)

theorem steady_true : Steady fun _ => True := fun _ _ => trivial

section
variable {P : UInt64 → Prop} {rng : Rng}

theorem letter_ok {k : Nat} (hk : k < ALPHABET.length) :
    letter k = .ok ALPHABET[k] := by
  rw [letter, List.getElem?_eq_getElem hk]

theorem pick_ok (hsteady : Steady P) (hrng : P rng.state) :
    ∃ b rng', rng.pick = .ok (b, rng') ∧ b ∈ ALPHABET ∧ P rng'.state := by
  have hlt := rng.below_lt (n := ALPHABET.length) (by decide)
  refine ⟨ALPHABET[(rng.below ALPHABET.length).1], (rng.below ALPHABET.length).2, ?_,
    List.getElem_mem hlt, hsteady _ hrng⟩
  rw [Rng.pick, letter_ok hlt]
  rfl

theorem genByte_ok (hsteady : Steady P) (hrng : P rng.state) (i : Nat) :
    ∃ b rng', genByte rng i = .ok (b, rng') ∧ b ∈ ALPHABET ∧ P rng'.state := by
  by_cases hi : i = 0
  · by_cases hk : (rng.below 4).1 ≠ 0
    · refine ⟨slash, (rng.below 4).2, ?_, by decide, hsteady _ hrng⟩
      rw [genByte, if_pos hi]
      exact if_pos hk
    · have hbelow : P (rng.below 4).2.state := hsteady _ hrng
      obtain ⟨b, rng', hok, hb⟩ := pick_ok hsteady hbelow
      refine ⟨b, rng', ?_, hb⟩
      rw [genByte, if_pos hi, ← hok]
      exact if_neg hk
  · obtain ⟨b, rng', hok, hb⟩ := pick_ok hsteady hrng
    exact ⟨b, rng', by rw [genByte, if_neg hi, hok], hb⟩

theorem genBytes_ok (hsteady : Steady P) (len : Nat) (buf : List UInt8) (hrng : P rng.state) :
    ∃ more rng', genBytes len buf rng = .ok (buf ++ more, rng') ∧ more.length = len ∧
      (∀ b ∈ more, b ∈ ALPHABET) ∧ P rng'.state := by
  induction len generalizing buf rng with
  | zero => exact ⟨[], rng, by simp [genBytes], rfl, by simp, hrng⟩
  | succ len ih =>
      obtain ⟨b, rng', hok, hb, hstate⟩ := genByte_ok hsteady hrng buf.length
      obtain ⟨more, last, hmore, hlength, hall, hlast⟩ := ih (buf ++ [b]) hstate
      refine ⟨b :: more, last, ?_, by simp [hlength], ?_, hlast⟩
      · rw [genBytes, hok]
        simpa [Bind.bind, Except.bind] using hmore
      · simpa using ⟨hb, hall⟩

/-- One iteration of the random phase draws a short string over the alphabet, and does not
panic. -/
theorem genTest_ok (rng : Rng) (hsteady : Steady P) (hrng : P rng.state) :
    ∃ input mergeSlashes rng', genTest rng = .ok ((input, mergeSlashes), rng') ∧
      input.length ≤ 32 ∧ (∀ b ∈ input, b ∈ ALPHABET) ∧ P rng'.state := by
  have hbelow : P (rng.below 33).2.state := hsteady _ hrng
  obtain ⟨input, rng', hok, hlength, hall, hstate⟩ :=
    genBytes_ok hsteady (rng.below 33).1 [] hbelow
  have hlt := rng.below_lt (n := 33) (by decide)
  refine ⟨input, rng'.nextU64.1 &&& 1 == 0, rng'.nextU64.2, ?_, by omega, hall,
    hsteady _ hstate⟩
  have hinput : genInput rng = .ok (input, rng') := hok
  rw [genTest, hinput]
  rfl

end

theorem fixedPhase_true (malloc : Malloc) (inputs : List (List UInt8)) (call : Nat) :
    fixedPhase malloc inputs call = .ok true := by
  induction inputs generalizing call with
  | nil => rfl
  | cons input inputs ih =>
      rw [fixedPhase, check_true true (malloc.size _ _), check_true false (malloc.size _ _)]
      exact ih (call + 2)

theorem randomPhase_true (malloc : Malloc) (iterations call : Nat) (rng : Rng) :
    randomPhase malloc iterations call rng = .ok true := by
  induction iterations generalizing call rng with
  | zero => rfl
  | succ iterations ih =>
      obtain ⟨input, mergeSlashes, rng', hok, _⟩ :=
        genTest_ok rng steady_true trivial
      rw [randomPhase, hok]
      simp only [Bind.bind, Except.bind, check_true mergeSlashes (malloc.size _ _), ite_true]
      exact ih (call + 1) rng'

/-- The fuzzer succeeds: with every seed, every number of iterations and whatever `malloc` has
left in its buffers, no phase finds an input on which the reference and the parser differ,
neither of them panics, and the reference does not fault. -/
theorem fuzzMain_success (crate : PercentEncoding) (hcrate : crate.Documented) (malloc : Malloc)
    (iterations seed : UInt64) : fuzzMain crate malloc iterations seed = .ok true := by
  rw [fuzzMain, checkPathEscapeSet_true hcrate, fixedPhase_true]
  exact randomPhase_true malloc _ _ _

/-- The default run. -/
theorem fuzzMain_success_default :
    fuzzMain byteSets ⟨fun _ n => List.replicate n 0xff, fun _ _ => List.length_replicate⟩
      5000000 0x9E3779B97F4A7C15 = .ok true :=
  fuzzMain_success byteSets byteSets_documented _ _ _

end UrlParseNginx
