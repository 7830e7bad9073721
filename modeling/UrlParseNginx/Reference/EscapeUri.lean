import UrlParseNginx.Library.Buffer
import UrlParseNginx.Library.MarkedCoding
import UrlParseNginx.Reference.NginxUrl

/-!
The C reference: nginx's `ngx_escape_uri`, which counts the bytes to escape when it has no
destination and writes the escaped string when it has one. The two calls fit together for
every escape type: the count sizes the buffer that the second call needs.
-/
namespace NginxReference
open Ascii WhileLoop

def ESCAPE_URI : Nat := 0
def ESCAPE_REFRESH : Nat := 4

def escapeUri : List UInt32 := [
  0xffffffff, 0xd000002d, 0x50000000, 0xb8000001,
  0xffffffff, 0xffffffff, 0xffffffff, 0xffffffff]

def escapeArgs : List UInt32 := [
  0xffffffff, 0xd800086d, 0x50000000, 0xb8000001,
  0xffffffff, 0xffffffff, 0xffffffff, 0xffffffff]

def escapeUriComponent : List UInt32 := [
  0xffffffff, 0xfc009fff, 0x78000001, 0xb8000001,
  0xffffffff, 0xffffffff, 0xffffffff, 0xffffffff]

def escapeHtml : List UInt32 := [
  0xffffffff, 0x500000ad, 0x50000000, 0xb8000001,
  0xffffffff, 0xffffffff, 0xffffffff, 0xffffffff]

def escapeRefresh : List UInt32 := [
  0xffffffff, 0x50000085, 0x50000000, 0xd8000001,
  0xffffffff, 0xffffffff, 0xffffffff, 0xffffffff]

def escapeMemcached : List UInt32 := [
  0xffffffff, 0x00000021, 0x00000000, 0x00000000,
  0x00000000, 0x00000000, 0x00000000, 0x00000000]

def escapeMailXtext : List UInt32 := [
  0xffffffff, 0x20000801, 0x00000000, 0x80000000,
  0xffffffff, 0xffffffff, 0xffffffff, 0xffffffff]

/-- `map[]`; `mail_auth` is the same as `memcached`. -/
def escapeMap : List (List UInt32) := [
  escapeUri, escapeArgs, escapeUriComponent, escapeHtml, escapeRefresh, escapeMemcached,
  escapeMemcached, escapeMailXtext]

/-- `map_char[]` -/
def mapChar : List UInt8 :=
  [percent, percent, percent, percent, percent, percent, percent, plus]

/-- `"0123456789ABCDEF"` -/
def hex : List UInt8 := [
  0x30, 0x31, 0x32, 0x33, 0x34, 0x35, 0x36, 0x37, 0x38, 0x39, 0x41, 0x42, 0x43, 0x44, 0x45, 0x46]

/-- `escape[ch >> 5] & (1U << (ch & 0x1f))` -/
def escapes (escape : List UInt32) (ch : UInt8) : Bool :=
  escape.getD (ch >>> 5).toNat 0 &&& ((1 : UInt32) <<< (ch &&& 0x1f).toUInt32) != 0

structure CountLocals where
  src : Ptr
  size : Nat
  n : Nat

/-- The loop that finds the number of bytes to be escaped. -/
def countLoop (mem : Memory) (escape : List UInt32) : Loop CountLocals Empty Fault where
  guard m := m.size ≠ 0
  body m := (mem.load m.src).map fun ch => .next
    { src := m.src.plus 1
      size := m.size - 1
      n := if escapes escape ch then m.n + 1 else m.n }

structure EscapeLocals where
  mem : Memory
  dst : Ptr
  src : Ptr
  size : Nat

/-- `*src` -/
def EscapeLocals.get (m : EscapeLocals) : Except Fault UInt8 := m.mem.load m.src

/-- `*dst++ = c;` -/
def EscapeLocals.put (m : EscapeLocals) (c : UInt8) : Except Fault EscapeLocals :=
  (m.mem.store m.dst c).map fun mem => { m with mem, dst := m.dst.plus 1 }

/-- What is stored for one byte; `*src` is read again after each store. -/
def escapeByte (escape : List UInt32) (mark : UInt8) (m : EscapeLocals) :
    Except Fault EscapeLocals := do
  let ch ← m.get
  if escapes escape ch then
    let m ← m.put mark
    let ch ← m.get
    let m ← m.put (hex.getD (ch >>> 4).toNat 0)
    let ch ← m.get
    m.put (hex.getD (ch &&& 0xf).toNat 0)
  else m.put ch

def escapeLoop (escape : List UInt32) (mark : UInt8) : Loop EscapeLocals Empty Fault where
  guard m := m.size ≠ 0
  body m := (escapeByte escape mark m).map fun m =>
    .next { m with src := m.src.plus 1, size := m.size - 1 }

/-- What `ngx_escape_uri` returns as a `uintptr_t`. -/
inductive Escaped where
  | count (n : Nat)
  | stop (dst : Ptr)
  deriving DecidableEq

def countResult (mem : Memory) : Flow CountLocals Empty → Escaped × Memory
  | .next m => (.count m.n, mem)

def escapeResult : Flow EscapeLocals Empty → Escaped × Memory
  | .next m => (.stop m.dst, m.mem)

/-- `ngx_escape_uri`; a `type` past the tables reads outside of them. -/
def ngxEscapeUri (mem : Memory) (dst : Option Ptr) (src : Ptr) (size type : Nat) :
    Except Fault (Escaped × Memory) :=
  match escapeMap[type]?, mapChar[type]? with
  | some escape, some mark =>
      match dst with
      | none =>
          ((countLoop mem escape).run .diverged size { src, size, n := 0 }).map (countResult mem)
      | some dst =>
          ((escapeLoop escape mark).run .diverged size { mem, dst, src, size }).map escapeResult
  | _, _ => .error .memory

/-- The bytes `s` are stored from `p` on. -/
structure Memory.Holds (mem : Memory) (p : Ptr) (s : List UInt8) : Prop where
  above : 0 ≤ p.off
  stored : s <+: (mem.block p.block).drop p.off.toNat

/-- A pointer into a block or just past it. -/
structure Memory.Within (mem : Memory) (p : Ptr) : Prop where
  above : 0 ≤ p.off
  below : p.off.toNat ≤ (mem.block p.block).length

/-- `cs` stored from `p` on. -/
def Memory.overwrite (mem : Memory) (p : Ptr) (cs : List UInt8) : Memory :=
  match p.block with
  | .inbuf => { mem with inbuf := Buffer.overwrite mem.inbuf p.off.toNat cs }
  | .nbuf => { mem with nbuf := Buffer.overwrite mem.nbuf p.off.toNat cs }

section
variable {mem mem' : Memory} {p q : Ptr} {s : List UInt8} {c : UInt8}

@[simp] theorem Ptr.plus_zero (p : Ptr) : p.plus 0 = p := by simp [Ptr.plus]

theorem Ptr.plus_plus (p : Ptr) (m n : Int) : (p.plus m).plus n = p.plus (m + n) := by
  simp [Ptr.plus, Int.add_assoc]

@[simp] theorem Memory.overwrite_nil (mem : Memory) (p : Ptr) : mem.overwrite p [] = mem := by
  cases hp : p.block <;> simp [Memory.overwrite, hp]

theorem plus_one_toNat (h : 0 ≤ p.off) : (p.plus 1).off.toNat = p.off.toNat + 1 := by
  simp only [Ptr.plus]
  omega

theorem Memory.Holds.load (h : mem.Holds p (c :: s)) : mem.load p = .ok c := by
  obtain ⟨above, rest, hrest⟩ := h
  have hget : (mem.block p.block)[p.off.toNat]? = some c := by
    rw [← List.head?_drop, ← hrest]
    rfl
  rw [Memory.load, if_pos above, hget]

theorem Memory.Holds.tail (h : mem.Holds p (c :: s)) : mem.Holds (p.plus 1) s := by
  obtain ⟨above, rest, hrest⟩ := h
  refine ⟨by simp only [Ptr.plus]; omega, rest, ?_⟩
  have hblock : (p.plus 1).block = p.block := rfl
  rw [plus_one_toNat above, hblock, ← List.drop_drop, ← hrest]
  rfl

theorem Memory.Holds.store (h : mem.Holds q s) (hne : p.block ≠ q.block)
    (hstore : mem.store p c = .ok mem') : mem'.Holds q s := by
  obtain ⟨above, stored⟩ := h
  refine ⟨above, ?_⟩
  rw [Memory.store] at hstore
  split at hstore
  · cases hp : p.block <;> cases hq : q.block <;> simp only [hp, hq] at hstore hne stored ⊢
    · exact absurd rfl hne
    · cases hstore
      exact stored
    · cases hstore
      exact stored
    · exact absurd rfl hne
  · cases hstore

/-- Storing one byte after the other. -/
theorem Memory.store_overwrite (h : mem.Within p) (cs : List UInt8) :
    (p.off.toNat < (mem.block p.block).length ∧
      ∃ mem', mem.store p c = .ok mem' ∧ mem'.Within (p.plus 1) ∧
        (mem'.block p.block).length = (mem.block p.block).length ∧
        mem'.overwrite (p.plus 1) cs = mem.overwrite p (c :: cs)) ∨
    (p.off.toNat = (mem.block p.block).length ∧ mem.store p c = .error .memory) := by
  obtain ⟨above, below⟩ := h
  have hnext := plus_one_toNat above
  by_cases hlt : p.off.toNat < (mem.block p.block).length
  · have hone : 0 ≤ (p.plus 1).off := by
      simp only [Ptr.plus]
      omega
    obtain ⟨block, off⟩ := p
    refine .inl ⟨hlt, ?_⟩
    cases block with
    | inbuf =>
        have hroom : off.toNat < mem.inbuf.length := hlt
        refine ⟨_, if_pos ⟨above, hlt⟩, ⟨hone, ?_⟩, List.length_set, ?_⟩
        · rw [hnext]
          simpa [Ptr.plus, Memory.block] using Nat.succ_le_of_lt hroom
        · simp only [Memory.overwrite, Ptr.plus] at hnext ⊢
          rw [hnext, Buffer.overwrite_set _ _ hroom]
    | nbuf =>
        have hroom : off.toNat < mem.nbuf.length := hlt
        refine ⟨_, if_pos ⟨above, hlt⟩, ⟨hone, ?_⟩, List.length_set, ?_⟩
        · rw [hnext]
          simpa [Ptr.plus, Memory.block] using Nat.succ_le_of_lt hroom
        · simp only [Memory.overwrite, Ptr.plus] at hnext ⊢
          rw [hnext, Buffer.overwrite_set _ _ hroom]
  · refine .inr ⟨Nat.le_antisymm below (Nat.le_of_not_lt hlt), ?_⟩
    rw [Memory.store, if_neg fun h => hlt h.2]

end

/-- What `ngx_escape_uri` makes of `s`. -/
def escapedBytes (type : Nat) (s : List UInt8) : List UInt8 :=
  MarkedCoding.encode (mapChar.getD type 0) (escapes (escapeMap.getD type [])) s

/-- The digits of the C code are those of the library. -/
theorem hex_digits (ch : UInt8) :
    hex.getD (ch >>> 4).toNat 0 = PercentCoding.hexDigit (ch / 16) ∧
      hex.getD (ch &&& 0xf).toNat 0 = PercentCoding.hexDigit (ch % 16) := by
  apply forall_byte (P := fun ch =>
    hex.getD (ch >>> 4).toNat 0 = PercentCoding.hexDigit (ch / 16) ∧
      hex.getD (ch &&& 0xf).toNat 0 = PercentCoding.hexDigit (ch % 16))
  decide +kernel

section
variable {escape : List UInt32} {mark : UInt8}

def EscapeLocals.putAll (m : EscapeLocals) (cs : List UInt8) : Except Fault EscapeLocals :=
  cs.foldlM EscapeLocals.put m

theorem EscapeLocals.putAll_append (m : EscapeLocals) (cs cs' : List UInt8) :
    m.putAll (cs ++ cs') = (m.putAll cs).bind fun m => m.putAll cs' :=
  List.foldlM_append

/-- The bytes that are still to be escaped, in the block that is not written to. -/
structure Reads (m : EscapeLocals) (s : List UInt8) : Prop where
  source : m.mem.Holds m.src s
  apart : m.dst.block ≠ m.src.block

theorem Reads.get {m : EscapeLocals} {b : UInt8} {s : List UInt8} (h : Reads m (b :: s)) :
    m.get = .ok b := h.source.load

theorem Reads.put {m m' : EscapeLocals} {s : List UInt8} {c : UInt8} (h : Reads m s)
    (hput : m.put c = .ok m') : Reads m' s ∧ m'.src = m.src ∧ m'.size = m.size := by
  rw [EscapeLocals.put] at hput
  cases hstore : m.mem.store m.dst c with
  | error e =>
      rw [hstore] at hput
      cases hput
  | ok mem =>
      rw [hstore] at hput
      cases hput
      exact ⟨⟨h.source.store h.apart hstore, h.apart⟩, rfl, rfl⟩

theorem Reads.putAll {m m' : EscapeLocals} {s cs : List UInt8} (h : Reads m s)
    (hput : m.putAll cs = .ok m') : Reads m' s ∧ m'.src = m.src ∧ m'.size = m.size := by
  induction cs generalizing m with
  | nil =>
      cases hput
      exact ⟨h, rfl, rfl⟩
  | cons c cs ih =>
      rw [EscapeLocals.putAll, List.foldlM_cons] at hput
      cases hc : m.put c with
      | error e =>
          rw [hc] at hput
          cases hput
      | ok next =>
          rw [hc] at hput
          obtain ⟨hreads, hsrc, hsize⟩ := h.put hc
          obtain ⟨hreads', hsrc', hsize'⟩ := ih hreads hput
          exact ⟨hreads', hsrc'.trans hsrc, hsize'.trans hsize⟩

/-- `*src` is the same byte after a store. -/
theorem Reads.put_get {m : EscapeLocals} {b : UInt8} {s : List UInt8} (h : Reads m (b :: s))
    (c : UInt8) (f : EscapeLocals → UInt8 → Except Fault EscapeLocals) :
    ((m.put c).bind fun m => m.get.bind fun ch => f m ch) = (m.put c).bind fun m => f m b := by
  cases hput : m.put c with
  | error e => rfl
  | ok m' =>
      rw [Except.bind, (h.put hput).1.get]
      rfl

/-- One byte is stored as the library encodes it. -/
theorem escapeByte_eq {m : EscapeLocals} {b : UInt8} {s : List UInt8} (h : Reads m (b :: s)) :
    escapeByte escape mark m = m.putAll (MarkedCoding.encodeByte mark (escapes escape) b) := by
  obtain ⟨hhi, hlo⟩ := hex_digits b
  cases hb : escapes escape b with
  | false =>
      rw [MarkedCoding.encodeByte_of_not_mem hb, EscapeLocals.putAll, List.foldlM_cons]
      simp only [escapeByte, h.get, Bind.bind, Except.bind, hb]
      cases m.put b <;> rfl
  | true =>
      rw [MarkedCoding.encodeByte_of_mem hb, ← hhi, ← hlo, EscapeLocals.putAll]
      simp only [escapeByte, h.get, Bind.bind]
      rw [Except.bind, if_pos hb, h.put_get, List.foldlM_cons]
      cases hput : m.put mark with
      | error e => rfl
      | ok m' =>
          refine ((h.put hput).1.put_get _ fun m ch =>
            m.put (hex.getD (ch &&& 0xf).toNat 0)).trans ?_
          simp only [Bind.bind, Except.bind, List.foldlM_cons, List.foldlM_nil]
          cases hhi' : m'.put (hex.getD (b >>> 4).toNat 0) with
          | error e => rfl
          | ok m'' =>
              simp only
              cases m''.put (hex.getD (b &&& 0xf).toNat 0) <;> rfl

/-- The stores depend on the memory and the destination. -/
theorem EscapeLocals.putAll_frame (m : EscapeLocals) (src : Ptr) (size : Nat) (cs : List UInt8) :
    EscapeLocals.putAll { m with src, size } cs =
      (m.putAll cs).map fun m => { m with src, size } := by
  induction cs generalizing m with
  | nil => rfl
  | cons c cs ih =>
      simp only [EscapeLocals.putAll, List.foldlM_cons, EscapeLocals.put] at ih ⊢
      cases m.mem.store m.dst c with
      | error e => rfl
      | ok mem => exact ih { m with mem, dst := m.dst.plus 1 }

/-- The loop that writes stores the encoded string. -/
theorem escapeLoop_run {m : EscapeLocals} {s : List UInt8} (h : Reads m s)
    (hsize : m.size = s.length) :
    ((escapeLoop escape mark).run .diverged s.length m).map escapeResult =
      (m.putAll (MarkedCoding.encode mark (escapes escape) s)).map
        fun m => (.stop m.dst, m.mem) := by
  induction s generalizing m with
  | nil =>
      have hguard : (escapeLoop escape mark).guard m = false := by simp [escapeLoop, hsize]
      rw [List.length_nil, Loop.run, hguard]
      rfl
  | cons b s ih =>
      have hguard : (escapeLoop escape mark).guard m = true := by simp [escapeLoop, hsize]
      rw [MarkedCoding.encode_cons, EscapeLocals.putAll_append, List.length_cons, Loop.run,
        if_pos hguard]
      have hbody : (escapeLoop escape mark).body m = (escapeByte escape mark m).map _ := rfl
      rw [hbody, escapeByte_eq h]
      cases hput : m.putAll (MarkedCoding.encodeByte mark (escapes escape) b) with
      | error e => rfl
      | ok m' =>
          obtain ⟨hreads, hsrc, hsize'⟩ := h.putAll hput
          refine (ih (m := { m' with src := m'.src.plus 1, size := m'.size - 1 })
            ⟨hreads.source.tail, hreads.apart⟩ (by simp [hsize', hsize])).trans ?_
          rw [EscapeLocals.putAll_frame]
          simp only [Except.bind]
          cases m'.putAll (MarkedCoding.encode mark (escapes escape) s) <;> rfl

/-- Stores go through as long as there is room in the block. -/
theorem EscapeLocals.putAll_eq {m : EscapeLocals} (h : m.mem.Within m.dst) (cs : List UInt8) :
    m.putAll cs = if m.dst.off.toNat + cs.length ≤ (m.mem.block m.dst.block).length then
      .ok { m with mem := m.mem.overwrite m.dst cs, dst := m.dst.plus cs.length }
      else .error .memory := by
  induction cs generalizing m with
  | nil =>
      rw [List.length_nil, Nat.add_zero, if_pos h.below, Memory.overwrite_nil, Int.natCast_zero,
        Ptr.plus_zero]
      rfl
  | cons c cs ih =>
      rw [EscapeLocals.putAll, List.foldlM_cons, EscapeLocals.put]
      obtain ⟨hlt, mem, hstore, hwithin, hlength, hover⟩ | ⟨hfull, hstore⟩ :=
        Memory.store_overwrite (c := c) h cs
      · rw [hstore]
        refine (ih (m := { m with mem, dst := m.dst.plus 1 }) hwithin).trans ?_
        have hblock : (m.dst.plus 1).block = m.dst.block := rfl
        have hstop : (m.dst.plus 1).plus cs.length = m.dst.plus (c :: cs).length := by
          rw [Ptr.plus_plus, List.length_cons, Int.natCast_succ, Int.add_comm]
        simp only [plus_one_toNat h.above, hblock, hlength, hover, hstop, List.length_cons,
          Nat.add_assoc, Nat.add_comm 1]
      · rw [hstore, if_neg (by simp; omega)]
        rfl

theorem countLoop_run {mem : Memory} {src : Ptr} {s : List UInt8} (h : mem.Holds src s)
    (n : Nat) :
    ((countLoop mem escape).run .diverged s.length { src, size := s.length, n }).map
        (countResult mem) = .ok (.count (n + s.countP (escapes escape)), mem) := by
  induction s generalizing src n with
  | nil => rfl
  | cons b s ih =>
      rw [List.length_cons, Loop.run, List.countP_cons]
      simp only [countLoop, h.load]
      refine (ih h.tail _).trans ?_
      cases escapes escape b <;> simp [Nat.add_comm, Nat.add_left_comm]

end

section
variable {mem mem' : Memory} {dst src stop : Ptr} {s : List UInt8} {type : Nat}

theorem tables_of_lt (htype : type < 8) :
    escapeMap[type]? = some (escapeMap.getD type []) ∧
      mapChar[type]? = some (mapChar.getD type 0) := by
  have hmap : type < escapeMap.length := htype
  have hchar : type < mapChar.length := htype
  simp [List.getElem?_eq_getElem hmap, List.getElem?_eq_getElem hchar]

theorem length_escapedBytes (type : Nat) (s : List UInt8) :
    (escapedBytes type s).length =
      s.length + 2 * s.countP (escapes (escapeMap.getD type [])) :=
  MarkedCoding.length_encode s

theorem ngxEscapeUri_count (htype : type < 8) (hsrc : mem.Holds src s) :
    ngxEscapeUri mem none src s.length type =
      .ok (.count (s.countP (escapes (escapeMap.getD type []))), mem) := by
  obtain ⟨hmap, hchar⟩ := tables_of_lt htype
  simp only [ngxEscapeUri, hmap, hchar]
  rw [countLoop_run hsrc, Nat.zero_add]

theorem ngxEscapeUri_write (htype : type < 8) (hsrc : mem.Holds src s) (hdst : mem.Within dst)
    (hne : dst.block ≠ src.block) :
    ngxEscapeUri mem (some dst) src s.length type =
      if dst.off.toNat + (escapedBytes type s).length ≤ (mem.block dst.block).length then
        .ok (.stop (dst.plus (escapedBytes type s).length),
          mem.overwrite dst (escapedBytes type s))
      else .error .memory := by
  obtain ⟨hmap, hchar⟩ := tables_of_lt htype
  simp only [ngxEscapeUri, hmap, hchar]
  rw [escapeLoop_run ⟨hsrc, hne⟩ rfl, EscapeLocals.putAll_eq hdst, ← escapedBytes]
  split <;> rfl

/-- The two calls of `ngx_escape_uri` fit together, for every escape type and a destination in
another block than the source: the first counts the bytes to escape and touches nothing; the
second needs two bytes more for each of them, stores exactly the escaped string there and
returns where it ends. With less room it writes out of its block. -/
theorem ngxEscapeUri_sized (mem : Memory) (dst src : Ptr) (s : List UInt8) (type : Nat)
    (htype : type < 8) (hsrc : mem.Holds src s) (hdst : mem.Within dst)
    (hne : dst.block ≠ src.block) :
    ∃ n, n ≤ s.length ∧ ngxEscapeUri mem none src s.length type = .ok (.count n, mem) ∧
      (escapedBytes type s).length = s.length + 2 * n ∧
      (dst.off.toNat + (s.length + 2 * n) ≤ (mem.block dst.block).length →
        ngxEscapeUri mem (some dst) src s.length type =
          .ok (.stop (dst.plus (s.length + 2 * n : Nat)),
            mem.overwrite dst (escapedBytes type s))) ∧
      ((mem.block dst.block).length < dst.off.toNat + (s.length + 2 * n) →
        ngxEscapeUri mem (some dst) src s.length type = .error .memory) := by
  refine ⟨s.countP (escapes (escapeMap.getD type [])), List.countP_le_length,
    ngxEscapeUri_count htype hsrc, length_escapedBytes type s, fun hroom => ?_, fun hroom => ?_⟩
  · rw [ngxEscapeUri_write htype hsrc hdst hne, length_escapedBytes, if_pos hroom]
  · rw [ngxEscapeUri_write htype hsrc hdst hne, length_escapedBytes,
      if_neg (Nat.not_le_of_lt hroom)]

/-- `"a b"` for a mail server, into the five bytes after the first. -/
theorem ngxEscapeUri_sized_xtext :
    ∃ n, n ≤ 3 ∧ ngxEscapeUri ⟨[0x61, space, 0x62], [1, 2, 3, 4, 5, 6]⟩ none ⟨.inbuf, 0⟩ 3 7 =
        .ok (.count n, ⟨[0x61, space, 0x62], [1, 2, 3, 4, 5, 6]⟩) ∧
      ngxEscapeUri ⟨[0x61, space, 0x62], [1, 2, 3, 4, 5, 6]⟩ (some ⟨.nbuf, 1⟩) ⟨.inbuf, 0⟩ 3 7 =
        .ok (.stop ⟨.nbuf, 6⟩, ⟨[0x61, space, 0x62], [1, 0x61, plus, 0x32, 0x30, 0x62]⟩) := by
  obtain ⟨n, hn, hcount, hlength, hwrite, _⟩ := ngxEscapeUri_sized
    ⟨[0x61, space, 0x62], [1, 2, 3, 4, 5, 6]⟩ ⟨.nbuf, 1⟩ ⟨.inbuf, 0⟩ [0x61, space, 0x62] 7
    (by decide) ⟨by decide, by decide⟩ ⟨by decide, by decide⟩ (by decide)
  have hone : n = 1 := by
    have hfive : (escapedBytes 7 [0x61, space, 0x62]).length = 5 := by decide
    rw [hfive] at hlength
    simp at hlength
    omega
  subst hone
  exact ⟨1, hn, hcount, hwrite (by decide)⟩

/-- Every type but `refresh` escapes its own mark. -/
theorem escapes_mark (htype : type < 8) (hne : type ≠ ESCAPE_REFRESH) :
    escapes (escapeMap.getD type []) (mapChar.getD type 0) = true := by
  have hall : ∀ t : Fin 8, t.val ≠ ESCAPE_REFRESH →
      escapes (escapeMap.getD t.val []) (mapChar.getD t.val 0) = true := by decide +kernel
  exact hall ⟨type, htype⟩ hne

theorem escapes_digit (htype : type < 8) {n : UInt8} (hn : n < 16) :
    escapes (escapeMap.getD type []) (PercentCoding.hexDigit n) = false := by
  have hall : ∀ t : Fin 8, ∀ i : Fin 16,
      escapes (escapeMap.getD t.val []) (PercentCoding.hexDigit (UInt8.ofNat i)) = false := by
    decide +kernel
  have hdigit := hall ⟨type, htype⟩ ⟨n.toNat, hn⟩
  simpa only [UInt8.ofNat_toNat] using hdigit

/-- The bytes between a destination and the pointer that is returned for it. -/
def Memory.between (mem : Memory) (dst stop : Ptr) : List UInt8 :=
  ((mem.block dst.block).drop dst.off.toNat).take (stop.off - dst.off).toNat

theorem Memory.between_overwrite (h : mem.Within dst) (cs : List UInt8) :
    (mem.overwrite dst cs).between dst (dst.plus cs.length) = cs := by
  obtain ⟨above, below⟩ := h
  have hlength : ((dst.plus cs.length).off - dst.off).toNat = cs.length := by
    simp only [Ptr.plus]
    omega
  rw [Memory.between, hlength]
  obtain ⟨block, off⟩ := dst
  cases block <;> exact Buffer.take_drop_overwrite below cs

theorem written_eq (htype : type < 8) (hsrc : mem.Holds src s) (hdst : mem.Within dst)
    (hne : dst.block ≠ src.block)
    (hok : ngxEscapeUri mem (some dst) src s.length type = .ok (.stop stop, mem')) :
    mem'.between dst stop = escapedBytes type s := by
  rw [ngxEscapeUri_write htype hsrc hdst hne] at hok
  split at hok
  · cases hok
    exact Memory.between_overwrite hdst _
  · cases hok

/-- What `ngx_escape_uri` writes to another block than the source's has no byte left to escape
but the mark. For every type but `refresh` it can be decoded again; `refresh` leaves `%` as it
is, and finds nothing to escape in what it has written. -/
theorem ngxEscapeUri_decodes (mem mem' : Memory) (dst src stop : Ptr) (s : List UInt8)
    (type : Nat) (htype : type < 8) (hsrc : mem.Holds src s) (hdst : mem.Within dst)
    (hne : dst.block ≠ src.block)
    (hok : ngxEscapeUri mem (some dst) src s.length type = .ok (.stop stop, mem')) :
    (∀ b ∈ mem'.between dst stop,
      escapes (escapeMap.getD type []) b = true → b = mapChar.getD type 0) ∧
    (type ≠ ESCAPE_REFRESH →
      MarkedCoding.decode (mapChar.getD type 0) (mem'.between dst stop) = some s) ∧
    (type = ESCAPE_REFRESH → ∀ (again : Memory) (p : Ptr),
      again.Holds p (mem'.between dst stop) →
        ngxEscapeUri again none p (mem'.between dst stop).length type = .ok (.count 0, again)) := by
  rw [written_eq htype hsrc hdst hne hok]
  refine ⟨fun b hb hset => ?_, fun htype' => ?_, fun htype' again p hagain => ?_⟩
  · obtain hmark | ⟨n, hn, rfl⟩ | ⟨_, hclear⟩ := MarkedCoding.mem_encode hb
    · exact hmark
    · cases (escapes_digit htype hn).symm.trans hset
    · cases hclear.symm.trans hset
  · exact MarkedCoding.decode_encode (escapes_mark htype htype') s
  · rw [ngxEscapeUri_count htype hagain, List.countP_eq_zero.mpr fun b hb => ?_]
    obtain rfl | ⟨n, hn, rfl⟩ | ⟨_, hclear⟩ := MarkedCoding.mem_encode hb
    · subst htype'
      decide
    · exact ne_true_of_eq_false (escapes_digit htype hn)
    · exact ne_true_of_eq_false hclear

end

/-- `a%` for a refresh header, where `%` stays, and for a path, where it does not. -/
theorem ngxEscapeUri_decodes_percent :
    ngxEscapeUri ⟨[0x61, percent], []⟩ none ⟨.inbuf, 0⟩ 2 ESCAPE_REFRESH =
        .ok (.count 0, ⟨[0x61, percent], []⟩) ∧
      MarkedCoding.decode percent [0x61, percent, 0x32, 0x35] = some [0x61, percent] := by
  have hrefresh := ngxEscapeUri_decodes ⟨[0x61, percent], [0, 0]⟩ ⟨[0x61, percent], [0x61, percent]⟩
    ⟨.nbuf, 0⟩ ⟨.inbuf, 0⟩ ⟨.nbuf, 2⟩ [0x61, percent] ESCAPE_REFRESH (by decide)
    ⟨by decide, by decide⟩ ⟨by decide, by decide⟩ (by decide) (by decide +kernel)
  have hpath := ngxEscapeUri_decodes ⟨[0x61, percent], [0, 0, 0, 0]⟩
    ⟨[0x61, percent], [0x61, percent, 0x32, 0x35]⟩ ⟨.nbuf, 0⟩ ⟨.inbuf, 0⟩ ⟨.nbuf, 4⟩
    [0x61, percent] ESCAPE_URI (by decide) ⟨by decide, by decide⟩ ⟨by decide, by decide⟩
    (by decide) (by decide +kernel)
  exact ⟨hrefresh.2.2 rfl ⟨[0x61, percent], []⟩ ⟨.inbuf, 0⟩ ⟨by decide, by decide⟩,
    hpath.2.1 (by decide)⟩

end NginxReference
