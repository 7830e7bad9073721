import UrlParseNginx.OriginFormMeaning
import UrlParseNginx.OutputShape

/-!
Stage 2 simulates an abstract machine that takes in one token of the path at a time. The
abstract machine is the streaming normalizer with the offset of the extension beside its
output. Every loop head stands for one of its states, also in the middle of an escape and
where a decoded byte waits in `ch`, and an iteration is one of its steps or none.
-/
namespace UrlParseNginx
open Ascii PercentCoding DotSegments WhileLoop

/-- A state of the abstract machine. -/
structure Progress where
  mode : Mode
  out : List UInt8
  ext : Option Nat

/-- In `Usual`, a `.` opens an extension and a `/` drops it. -/
def Progress.nextExt (c : Progress) (b : UInt8) : Option Nat :=
  if c.mode = .usual ∧ b = slash then none
  else if c.mode = .usual ∧ b = dot then some (c.out.length + 1)
  else c.ext

def Progress.absorb (mergeSlashes : Bool) (c : Progress) (b : UInt8) : Option Progress :=
  (feed slash dot mergeSlashes (c.mode, c.out) b).map fun c' =>
    { mode := c'.1, out := c'.2, ext := c.nextExt b }

/-- The machine before the first token. -/
def Progress.start (r : Request) : Progress := { mode := .usual, out := emptyPath r, ext := none }

def Progress.absorbAll (mergeSlashes : Bool) (c : Progress) (s : List UInt8) : Option Progress :=
  s.foldlM (Progress.absorb mergeSlashes) c

theorem Progress.absorbAll_concat {mergeSlashes : Bool} {c c' c'' : Progress} {s : List UInt8}
    {b : UInt8} (h : c.absorbAll mergeSlashes s = some c')
    (hb : c'.absorb mergeSlashes b = some c'') :
    c.absorbAll mergeSlashes (s ++ [b]) = some c'' := by
  rw [Progress.absorbAll, List.foldlM_append]
  rw [Progress.absorbAll] at h
  simp [h, hb]

/-- Without the extension the machine is the streaming normalizer. -/
theorem Progress.absorbAll_run (mergeSlashes : Bool) (c : Progress) (s : List UInt8) :
    (c.absorbAll mergeSlashes s).map (fun c' => (c'.mode, c'.out)) =
      run slash dot mergeSlashes (c.mode, c.out) s := by
  induction s generalizing c with
  | nil => rfl
  | cons b s ih =>
      rw [run_cons, Progress.absorbAll, List.foldlM_cons, Progress.absorb]
      cases feed slash dot mergeSlashes (c.mode, c.out) b with
      | none => rfl
      | some c' => exact ih _

/-- The first `i` bytes are the tokens `ts`, and the path has not ended before them. -/
structure Taken (buf : List UInt8) (i : Nat) (ts : List Token) : Prop where
  le : i ≤ buf.length
  tokens : tokenize (buf.take i) = some ts
  inPath : ∀ b ∈ buf.take i, b ≠ question ∧ b ≠ hash
  nonzero : .esc nul ∉ ts

section
variable {buf : List UInt8} {i : Nat} {ts : List Token}

theorem Taken.nil (buf : List UInt8) : Taken buf 0 [] :=
  ⟨Nat.zero_le _, by simp, by simp, by simp⟩

theorem Taken.append {t : Token} (h : Taken buf i ts) (more : List UInt8)
    (hmore : buf.take (i + more.length) = buf.take i ++ more)
    (hle : i + more.length ≤ buf.length) (htoken : tokenize more = some [t])
    (hpath : ∀ b ∈ more, b ≠ question ∧ b ≠ hash) (ht : t ≠ .esc nul) :
    Taken buf (i + more.length) (ts ++ [t]) := by
  refine ⟨hle, ?_, ?_, ?_⟩
  · rw [hmore, tokenize_append h.tokens, htoken]
    rfl
  · rw [hmore]
    exact List.forall_mem_append.mpr ⟨h.inPath, hpath⟩
  · simp [h.nonzero, Ne.symm ht]

theorem take_succ_of_getElem? {b : UInt8} (hb : buf[i]? = some b) :
    buf.take (i + 1) = buf.take i ++ [b] := by
  rw [List.take_add_one, hb]
  rfl

theorem Taken.lit {b : UInt8} (h : Taken buf i ts) (hb : buf[i]? = some b)
    (hplain : PlainByte b) : Taken buf (i + 1) (ts ++ [.lit b]) := by
  refine h.append [b] (take_succ_of_getElem? hb)
    (List.getElem?_eq_some_iff.mp hb).1 ?_ ?_ nofun
  · rw [tokenize_lit hplain.1]
    simp
  · simpa using hplain.2

theorem ne_of_hexValue {b x : UInt8} (h : hexValue b = some x) : b ≠ question ∧ b ≠ hash := by
  have hall : ∀ b, (hexValue b).isSome = true → b ≠ question ∧ b ≠ hash := fun b =>
    forall_byte (P := fun b => (hexValue b).isSome = true → b ≠ question ∧ b ≠ hash)
      (by decide +kernel) b
  exact hall b (by rw [h]; rfl)

theorem Taken.esc {hi lo x y : UInt8} (h : Taken buf i ts) (hpercent : buf[i]? = some percent)
    (hfirst : buf[i + 1]? = some hi) (hsecond : buf[i + 2]? = some lo)
    (hx : hexValue hi = some x) (hy : hexValue lo = some y) (hv : x * 16 + y ≠ nul) :
    Taken buf (i + 3) (ts ++ [.esc (x * 16 + y)]) := by
  refine h.append [percent, hi, lo] ?_ (List.getElem?_eq_some_iff.mp hsecond).1 ?_ ?_ ?_
  · have hall : buf.take (i + 2 + 1) = buf.take i ++ [percent] ++ [hi] ++ [lo] := by
      rw [take_succ_of_getElem? hsecond, take_succ_of_getElem? hfirst,
        take_succ_of_getElem? hpercent]
    simpa using hall
  · rw [tokenize_esc hx hy]
    simp
  · have hhi := ne_of_hexValue hx
    have hlo := ne_of_hexValue hy
    simp +decide [hhi, hlo]
  · simpa using hv

/-- The path ends where the input or its path part does. -/
theorem Taken.rawPath (h : Taken buf i ts)
    (hend : i = buf.length ∨ buf[i]? = some question ∨ buf[i]? = some hash) :
    rawPath buf = buf.take i := by
  have hq : question ∉ buf.take i := fun hm => (h.inPath _ hm).1 rfl
  have hh : hash ∉ buf.take i := fun hm => (h.inPath _ hm).2 rfl
  have hsplit := UrlParseNginx.rawPath_append hq hh (buf.drop i)
  rw [List.take_append_drop] at hsplit
  rw [hsplit]
  cases hend with
  | inl hend => simp [hend]
  | inr hstop =>
      obtain ⟨b, hb, hdelim⟩ : ∃ b, buf[i]? = some b ∧ (b = question ∨ b = hash) := by
        cases hstop with
        | inl hb => exact ⟨_, hb, .inl rfl⟩
        | inr hb => exact ⟨_, hb, .inr rfl⟩
      obtain ⟨hlt, rfl⟩ := List.getElem?_eq_some_iff.mp hb
      rw [List.drop_eq_getElem_cons hlt, rawPath_stop hdelim, List.append_nil]

end

/-- The flags of a request after the tokens `ts`. -/
structure Flags (r r' : Request) (ts : List Token) : Prop where
  quotedUri : r'.quotedUri = (r.quotedUri || ts.any Token.isEsc)
  plusInUri : r'.plusInUri = (r.plusInUri || decide (plus ∈ bytes ts))

/-- Where a loop head is in its token, after the tokens `ts`: before it, with its first byte
in `ch`; behind an escape whose byte waits in `ch`; or inside an escape. -/
inductive Reading (read : Nat → UInt8) (buf : List UInt8) (r : Request) (m : Locals) :
    Mode → List Token → Prop
  | fresh {k : Mode} {ts : List Token} {i : Nat} (state : m.state = stateOf k) (p : m.p = i + 1)
      (ch : m.ch = read i) (taken : Taken buf i ts) (flags : Flags r m.r ts) :
      Reading read buf r m k ts
  | held {k : Mode} {ts : List Token} {v : UInt8} (state : m.state = stateOf k) (ch : m.ch = v)
      (plain : PlainByte v) (taken : Taken buf m.p (ts ++ [.esc v]))
      (flags : Flags r m.r (ts ++ [.esc v])) : Reading read buf r m k ts
  | quoted {k : Mode} {ts : List Token} {i : Nat} (state : m.state = .quoted)
      (saved : m.quotedState = stateOf k) (p : m.p = i + 2) (ch : m.ch = read (i + 1))
      (taken : Taken buf i ts) (percent : buf[i]? = some percent) (flags : Flags r m.r ts) :
      Reading read buf r m k ts
  | quotedSecond {k : Mode} {ts : List Token} {i : Nat} {hi : UInt8}
      (state : m.state = .quotedSecond) (saved : m.quotedState = stateOf k) (p : m.p = i + 3)
      (ch : m.ch = read (i + 2)) (taken : Taken buf i ts) (percent : buf[i]? = some percent)
      (first : buf[i + 1]? = some hi) (digit : hexValue hi = some m.decoded)
      (quoted : m.r.quotedUri = true)
      (plusInUri : m.r.plusInUri = (r.plusInUri || decide (plus ∈ bytes ts))) :
      Reading read buf r m k ts

/-- The loop head `m` stands for the abstract machine in state `c`, after the tokens `ts`. -/
structure Simulates (read : Nat → UInt8) (buf : List UInt8) (mergeSlashes : Bool) (r : Request)
    (m : Locals) (ts : List Token) (c : Progress) : Prop where
  reading : Reading read buf r m c.mode ts
  absorbed : (Progress.start r).absorbAll mergeSlashes (bytes ts) = some c
  written : m.written = c.out
  ext : m.r.uriExt = c.ext

/-- The next loop head stands for the machine after one more token. -/
def TakesIn (read : Nat → UInt8) (buf : List UInt8) (mergeSlashes : Bool) (r : Request)
    (m' : Locals) (ts : List Token) (c : Progress) : Prop :=
  ∃ t c', c.absorb mergeSlashes t.byte = some c' ∧
    Simulates read buf mergeSlashes r m' (ts ++ [t]) c'

section
variable {read : Nat → UInt8} {buf : List UInt8} {mergeSlashes : Bool} {r : Request}
  {m m' : Locals} {ts : List Token} {c : Progress} {k : Mode}

theorem stateOf_ne_quoted (k : Mode) : stateOf k ≠ .quoted := by
  cases k <;> simp [stateOf]

theorem Reading.resumes (h : Reading read buf r m k ts) : m.resumes = stateOf k := by
  cases h with
  | fresh state | held state => exact resumes_stateOf state
  | quoted state saved | quotedSecond state saved => simpa [Locals.resumes, state] using saved

theorem Reading.mode {k' : Mode} (h : Reading read buf r m k ts) (hs : m.state = stateOf k') :
    k' = k :=
  stateOf_injective ((resumes_stateOf hs).symm.trans h.resumes)

theorem Flags.concat {r' r'' : Request} {t : Token} (h : Flags r r' ts)
    (hquoted : r''.quotedUri = (r'.quotedUri || t.isEsc))
    (hplus : r''.plusInUri = (r'.plusInUri || decide (t.byte = plus))) :
    Flags r r'' (ts ++ [t]) := by
  refine ⟨?_, ?_⟩
  · rw [hquoted, h.quotedUri, Bool.or_assoc, List.any_append]
    simp
  · rw [hplus, h.plusInUri, Bool.or_assoc]
    simp [bytes, eq_comm]

/-- A byte that a copying state is about to take in completes a token, which ends at the
cursor. -/
theorem Reading.completes (hread : ReadsBuffer read buf) {k' : Mode}
    (h : Reading read buf r m k ts) (hs : m.state = stateOf k') (hp : m.p ≤ buf.length)
    (hplain : PlainByte m.ch) :
    ∃ t, t.byte = m.ch ∧ Taken buf m.p (ts ++ [t]) ∧
      ∀ r', r'.quotedUri = m.r.quotedUri →
        r'.plusInUri = (m.r.plusInUri || decide (m.ch = plus)) → Flags r r' (ts ++ [t]) := by
  cases h with
  | @fresh i state p ch taken flags =>
      rw [p] at hp ⊢
      have hb : buf[i]? = some m.ch := by
        rw [List.getElem?_eq_getElem hp, ch, hread i hp]
      refine ⟨.lit m.ch, rfl, taken.lit hb hplain, fun r' hquoted hplus => ?_⟩
      exact flags.concat (by simpa [Token.isEsc] using hquoted) hplus
  | @held v state ch plain taken flags =>
      refine ⟨.esc v, ch.symm, taken, fun r' hquoted hplus => ⟨?_, ?_⟩⟩
      · rw [hquoted, flags.quotedUri]
      · -- a held `+` has set the flag already
        rw [hplus, flags.plusInUri, ch]
        by_cases hv : v = plus <;> simp [bytes, Token.byte, hv]
  | quoted state => exact absurd (hs.symm.trans state) (stateOf_ne_quoted k')
  | quotedSecond state => exact absurd (hs.symm.trans state) (stateOf_ne_quotedSecond k')

/-- An iteration that takes in the byte of a token. -/
theorem Simulates.absorb {t : Token} {c' : Progress} {i : Nat}
    (h : Simulates read buf mergeSlashes r m ts c)
    (habsorb : c.absorb mergeSlashes t.byte = some c') (hstate : m'.state = stateOf c'.mode)
    (hp : m'.p = i + 1) (hch : m'.ch = read i) (htaken : Taken buf i (ts ++ [t]))
    (hflags : Flags r m'.r (ts ++ [t])) (hwritten : m'.written = c'.out)
    (hext : m'.r.uriExt = c'.ext) : TakesIn read buf mergeSlashes r m' ts c := by
  refine ⟨t, c', habsorb, .fresh hstate hp hch htaken hflags, ?_, hwritten, hext⟩
  rw [bytes, List.map_append]
  exact Progress.absorbAll_concat h.absorbed habsorb

theorem nextRequest_quotedUri (k : Mode) (m : Locals) :
    (nextRequest k m).quotedUri = m.r.quotedUri := by
  unfold nextRequest
  repeat' split
  all_goals rfl

theorem nextRequest_plusInUri (k : Mode) (m : Locals) :
    (nextRequest k m).plusInUri = (m.r.plusInUri || decide (m.ch = plus)) := by
  unfold nextRequest
  split
  · rename_i hplus
    simp [hplus]
  · rename_i hplus
    repeat' split
    all_goals simp [hplus]

theorem Simulates.write (hread : ReadsBuffer read buf) {k : Mode}
    (h : Simulates read buf mergeSlashes r m ts c) (hc : Coherent m) (hs : m.state = stateOf k)
    (hp : m.p ≤ buf.length) (hplain : PlainByte m.ch) (hwrites : Writes mergeSlashes k m.ch)
    (hroom : m.u < m.out.length) :
    TakesIn read buf mergeSlashes r (Locals.advance read { m with
      r := nextRequest k m
      state := stateOf (nextMode k m.ch)
      out := m.out.set m.u m.ch
      u := m.u + 1 }) ts c := by
  obtain rfl := h.reading.mode hs
  obtain ⟨t, hbyte, htaken, hflags⟩ := h.reading.completes hread hs hp hplain
  have hfeed := feed_writes hwrites c.out
  have hlength : c.out.length = m.u := by
    rw [← h.written, Locals.written, List.length_take, Nat.min_eq_left hc.within]
  refine h.absorb (by rw [hbyte, Progress.absorb, hfeed]; rfl) rfl rfl rfl htaken
    (hflags _ (nextRequest_quotedUri _ m) (nextRequest_plusInUri _ m)) ?_ ?_
  · rw [← h.written]
    exact Buffer.take_set_succ m.ch hroom
  · have hext := nextRequest_uriExt c.mode m
    simp only [Locals.advance, hext, Progress.nextExt, h.ext, hlength]

/-- A slash that closes a segment without being written. -/
theorem Simulates.close (hread : ReadsBuffer read buf) {k : Mode} {v : Nat}
    (h : Simulates read buf mergeSlashes r m ts c) (hs : m.state = stateOf k)
    (hp : m.p ≤ buf.length) (hch : m.ch = slash) (hcloses : ¬ Writes mergeSlashes k m.ch)
    (hsettles : Settles k m v) :
    TakesIn read buf mergeSlashes r (Locals.advance read { m with u := v, state := .slash })
      ts c := by
  obtain rfl := h.reading.mode hs
  obtain ⟨t, hbyte, htaken, hflags⟩ :=
    h.reading.completes hread hs hp (by rw [hch, PlainByte]; decide)
  have hfeed := feed_slash hch hcloses c.out
  rw [← h.written, hsettles.finish] at hfeed
  have husual : c.mode ≠ .usual := fun hk => hcloses fun _ => .inl hk
  refine h.absorb (by rw [hbyte, Progress.absorb, ← h.written, hfeed]; rfl) rfl rfl rfl
    htaken (hflags m.r rfl (by rw [hch]; simp +decide)) rfl ?_
  simp [Locals.advance, Progress.nextExt, husual, h.ext]

theorem Simulates.literal (hread : ReadsBuffer read buf) {y v : UInt8}
    (h : Simulates read buf mergeSlashes r m ts c) (hs : m.state = .quotedSecond)
    (hp : m.p ≤ buf.length) (hdigit : hexValue m.ch = some y) (hvalue : v = m.decoded * 16 + y)
    (hlit : Literal v) (hroom : m.u < m.out.length) :
    TakesIn read buf mergeSlashes r (Locals.advance read
      { m with ch := v, state := .usual, out := m.out.set m.u v, u := m.u + 1 }) ts c := by
  have hne : v ≠ slash ∧ v ≠ dot ∧ v ≠ plus ∧ v ≠ nul := by
    obtain rfl | rfl | rfl := hlit <;> decide
  cases h.reading with
  | fresh state | held state => exact absurd (state.symm.trans hs) (stateOf_ne_quotedSecond _)
  | quoted state => cases hs.symm.trans state
  | @quotedSecond i hi state saved p ch taken percent first digit quoted plusInUri =>
      rw [p] at hp
      have hlo : buf[i + 2]? = some m.ch := by
        rw [List.getElem?_eq_getElem hp, ch, hread (i + 2) hp]
      have htaken := taken.esc percent first hlo digit hdigit (by rw [← hvalue]; exact hne.2.2.2)
      rw [← hvalue] at htaken
      have hfeed : feed slash dot mergeSlashes (c.mode, c.out) v =
          some (.usual, c.out ++ [v]) := feed_literal hlit c.out
      refine h.absorb (t := .esc v) (by rw [Token.byte, Progress.absorb, hfeed]; rfl)
        rfl (congrArg (· + 1) p) (congrArg read p) htaken ⟨?_, ?_⟩ ?_ ?_
      · simp [Locals.advance, quoted, Token.isEsc]
      · simp [Locals.advance, plusInUri, bytes, Token.byte, Ne.symm hne.2.2.1]
      · rw [← h.written]
        exact Buffer.take_set_succ v hroom
      · simp [Locals.advance, Progress.nextExt, hne, h.ext]

/-- A decoded byte that waits in `ch` for the state that the escape interrupted. -/
theorem Simulates.hold (hread : ReadsBuffer read buf) {y v : UInt8}
    (h : Simulates read buf mergeSlashes r m ts c) (hs : m.state = .quotedSecond)
    (hp : m.p ≤ buf.length) (hdigit : hexValue m.ch = some y) (hvalue : v = m.decoded * 16 + y)
    (hplain : PlainByte v) (hnul : v ≠ nul) :
    Simulates read buf mergeSlashes r { m with
      r.plusInUri := m.r.plusInUri || v = plus
      ch := v
      state := m.quotedState } ts c := by
  cases h.reading with
  | fresh state | held state => exact absurd (state.symm.trans hs) (stateOf_ne_quotedSecond _)
  | quoted state => cases hs.symm.trans state
  | @quotedSecond i hi state saved p ch taken percent first digit quoted plusInUri =>
      rw [p] at hp
      have hlo : buf[i + 2]? = some m.ch := by
        rw [List.getElem?_eq_getElem hp, ch, hread (i + 2) hp]
      have htaken := taken.esc percent first hlo digit hdigit (by rwa [← hvalue])
      rw [← hvalue, ← p] at htaken
      refine ⟨.held saved rfl hplain htaken ⟨?_, ?_⟩, h.absorbed, h.written, h.ext⟩
      · simp [quoted, Token.isEsc]
      · simp [plusInUri, bytes, Token.byte, eq_comm, Bool.or_assoc]

theorem Simulates.escape (hread : ReadsBuffer read buf) {k : Mode}
    (h : Simulates read buf mergeSlashes r m ts c) (hs : m.state = stateOf k)
    (hp : m.p ≤ buf.length) (hch : m.ch = percent) :
    Simulates read buf mergeSlashes r
      (Locals.advance read { m with quotedState := m.state, state := .quoted }) ts c := by
  cases h.reading with
  | @fresh i state p ch taken flags =>
      rw [p] at hp
      have hpercent : buf[i]? = some percent := by
        rw [List.getElem?_eq_getElem hp, ← hread i hp, ← ch, hch]
      exact ⟨.quoted rfl state (congrArg (· + 1) p) (congrArg read p) taken hpercent flags,
        h.absorbed, h.written, h.ext⟩
  | held state ch plain => exact absurd (ch.symm.trans hch) plain.1
  | quoted state => exact absurd (hs.symm.trans state) (stateOf_ne_quoted k)
  | quotedSecond state => exact absurd (hs.symm.trans state) (stateOf_ne_quotedSecond k)

theorem Simulates.firstDigit (hread : ReadsBuffer read buf) {x : UInt8}
    (h : Simulates read buf mergeSlashes r m ts c) (hs : m.state = .quoted)
    (hp : m.p ≤ buf.length) (hdigit : hexValue m.ch = some x) :
    Simulates read buf mergeSlashes r (Locals.advance read
      { m with r.quotedUri := true, decoded := x, state := .quotedSecond }) ts c := by
  cases h.reading with
  | fresh state | held state => exact absurd (state.symm.trans hs) (stateOf_ne_quoted _)
  | @quoted i state saved p ch taken percent flags =>
      rw [p] at hp
      have hfirst : buf[i + 1]? = some m.ch := by
        rw [List.getElem?_eq_getElem hp, ch, hread (i + 1) hp]
      exact ⟨.quotedSecond rfl saved (congrArg (· + 1) p) (congrArg read p) taken percent hfirst
        hdigit rfl flags.plusInUri, h.absorbed, h.written, h.ext⟩
  | quotedSecond state => cases hs.symm.trans state

/-- One iteration of the loop is one step of the abstract machine, or none. -/
theorem Simulates.next (hread : ReadsBuffer read buf)
    (h : Simulates read buf mergeSlashes r m ts c) (hc : Coherent m) (hp : m.p ≤ buf.length)
    (hbody : (complexUriLoop read buf mergeSlashes).body m = .ok (.next m')) :
    Simulates read buf mergeSlashes r m' ts c ∨ TakesIn read buf mergeSlashes r m' ts c := by
  cases hc.next hbody with
  | inl hnext =>
      obtain ⟨a, iteration, rfl⟩ := hnext
      cases iteration with
      | write state ch writes room => exact .inr (h.write hread hc state hp ch writes room)
      | close state ch closes settles => exact .inr (h.close hread state hp ch closes settles)
      | escape state ch => exact .inl (h.escape hread state hp ch)
      | firstDigit state digit => exact .inl (h.firstDigit hread state hp digit)
      | literal state digit value literal room =>
          exact .inr (h.literal hread state hp digit value literal room)
  | inr iteration =>
      cases iteration with
      | hold state digit value plain nonzero =>
          exact .inl (h.hold hread state hp digit value plain nonzero)

theorem init_locals {out : List UInt8} (h : Locals.init read r out = .ok m) :
    m = { r := { r with uriExt := none, argsStart := none }, out := m.out, state := .usual,
          quotedState := .usual, decoded := 0, p := 1, u := (emptyPath r).length, ch := read 0 } ∧
      m.out.length = out.length ∧ m.written = emptyPath r := by
  cases hempty : r.emptyPathInUri with
  | false =>
      simp only [Locals.init, hempty, Bool.false_eq_true, ite_false, Except.map,
        Except.ok.injEq] at h
      subst h
      simp [Locals.advance, Locals.written, emptyPath, hempty]
  | true =>
      by_cases hout : 0 < out.length
      · simp only [Locals.init, hempty, Locals.write, hout, ite_true, Except.map,
          Except.ok.injEq] at h
        subst h
        have hwritten := Buffer.take_set_succ slash hout
        simpa [Locals.advance, Locals.written, emptyPath, hempty] using hwritten
      · simp [Locals.init, hempty, Locals.write, hout, Except.map] at h

theorem init_simulates {out : List UInt8} (h : Locals.init read r out = .ok m) :
    Simulates read buf mergeSlashes r m [] (Progress.start r) := by
  obtain ⟨hm, _, hwritten⟩ := init_locals h
  refine ⟨.fresh (by rw [hm]; rfl) (by rw [hm]) (by rw [hm]) (.nil buf) ⟨?_, ?_⟩, rfl, hwritten, ?_⟩
  · rw [hm]
    simp
  · rw [hm]
    simp [bytes]
  · rw [hm]
    rfl

theorem reaches_simulates (hread : ReadsBuffer read buf) {out : List UInt8} {start : Locals}
    (hinit : Locals.init read r out = .ok start) {n : Nat}
    (hreach : (complexUriLoop read buf mergeSlashes).Reaches n start m) :
    Coherent m ∧ ∃ ts c, Simulates read buf mergeSlashes r m ts c := by
  refine hreach.invariant
    (I := fun m => Coherent m ∧ ∃ ts c, Simulates read buf mergeSlashes r m ts c) ?_
    ⟨(init_starts hinit).coherent, [], _, init_simulates hinit⟩
  intro s s' hs hguard hbody
  obtain ⟨hc, ts, c, hsim⟩ := hs
  refine ⟨hc.body hbody, ?_⟩
  cases hsim.next hread hc (guard_iff.mp hguard) hbody with
  | inl hstay => exact ⟨ts, c, hstay⟩
  | inr hstep =>
      obtain ⟨t, c', _, hstep⟩ := hstep
      exact ⟨ts ++ [t], c', hstep⟩

end

/-- Stage 2 simulates the abstract machine on every buffer and from every request: its first
loop head stands for the machine before any token, every loop head stands for the machine
after the tokens taken in so far, and an iteration takes in one token more or none. -/
theorem complexUri_simulates (buf out : List UInt8) (r : Request) (mergeSlashes : Bool)
    (start : Locals) (hinit : Locals.init (readWithLfSentinel buf) r out = .ok start) :
    Simulates (readWithLfSentinel buf) buf mergeSlashes r start [] (Progress.start r) ∧
    ∀ n m, (complexUriLoop (readWithLfSentinel buf) buf mergeSlashes).Reaches n start m →
      (∃ ts c, Simulates (readWithLfSentinel buf) buf mergeSlashes r m ts c) ∧
      ∀ ts c m', Simulates (readWithLfSentinel buf) buf mergeSlashes r m ts c →
        m.p ≤ buf.length →
        (complexUriLoop (readWithLfSentinel buf) buf mergeSlashes).body m = .ok (.next m') →
        Simulates (readWithLfSentinel buf) buf mergeSlashes r m' ts c ∨
          TakesIn (readWithLfSentinel buf) buf mergeSlashes r m' ts c := by
  have hread := readsBuffer_sentinel lineFeed buf
  refine ⟨init_simulates hinit, fun n m hreach => ?_⟩
  obtain ⟨hc, hsim⟩ := reaches_simulates hread hinit hreach
  exact ⟨hsim, fun ts c m' hsim hp hbody => hsim.next hread hc hp hbody⟩

/-- In `/%2e` the fourth iteration leaves a decoded dot waiting. -/
theorem complexUri_simulates_held :
    ∃ start m ts c, Locals.init (readWithLfSentinel [slash, percent, 0x32, 0x65]) .default
        [0, 0, 0, 0, 0] = .ok start ∧
      (complexUriLoop (readWithLfSentinel [slash, percent, 0x32, 0x65])
        [slash, percent, 0x32, 0x65] true).Reaches 4 start m ∧
      m.ch = dot ∧ m.state = .slash ∧
      Simulates (readWithLfSentinel [slash, percent, 0x32, 0x65]) [slash, percent, 0x32, 0x65]
        true .default m ts c := by
  have hreach := fun start hinit => (complexUri_simulates [slash, percent, 0x32, 0x65]
    [0, 0, 0, 0, 0] .default true start hinit).2
  obtain ⟨ts, c, hsim⟩ := (hreach _ rfl 4 _
    (.step rfl rfl (.step rfl rfl (.step rfl rfl (.step rfl rfl .refl))))).1
  exact ⟨_, _, ts, c, rfl, .step rfl rfl (.step rfl rfl (.step rfl rfl (.step rfl rfl .refl))),
    rfl, rfl, hsim⟩

end UrlParseNginx
