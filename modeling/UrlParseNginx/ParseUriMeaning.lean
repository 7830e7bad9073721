import UrlParseNginx.ParseUri

/-!
What stage 1 computes. The loop, with its inner run over ordinary bytes, is a
scan that looks at one byte at a time; the scan accepts exactly the targets
without blank bytes after a `/`, and its flags say which patterns occur.
-/
namespace UrlParseNginx
open Ascii WhileLoop

def scanByte (m : UriLocals) (ch : UInt8) : Except Failure UriLocals :=
  match m.state with
  | .start => startArm m ch
  | .afterSlash => afterSlashArm m ch
  | .checkUri => if usual ch then .ok m else checkUriArm m ch
  | .uri => uriArm m ch

def scan (m : UriLocals) : List UInt8 → Except Failure UriLocals
  | [] => .ok m
  | ch :: rest => (scanByte m ch).bind fun m => scan m.next rest

theorem scanByte_p {m m' : UriLocals} {ch : UInt8} (h : scanByte m ch = .ok m') :
    m'.p = m.p := by
  cases hs : m.state <;> simp only [scanByte, hs] at h
  case start =>
    unfold startArm at h
    split at h <;> cases h
    rfl
  case afterSlash =>
    unfold afterSlashArm rejectBlank at h
    repeat' split at h
    all_goals cases h
    all_goals rfl
  case checkUri =>
    unfold checkUriArm rejectBlank at h
    repeat' split at h
    all_goals cases h
    all_goals rfl
  case uri =>
    unfold uriArm rejectBlank at h
    repeat' split at h
    all_goals cases h
    all_goals rfl

/-- Ordinary bytes leave `CheckUri` as it is. -/
theorem scan_usual (m : UriLocals) (hs : m.state = .checkUri) (pre rest : List UInt8)
    (hpre : ∀ b ∈ pre, usual b = true) :
    scan m (pre ++ rest) = scan { m with p := m.p + pre.length } rest := by
  induction pre generalizing m with
  | nil => rfl
  | cons b pre ih =>
      have hb : scanByte m b = .ok m := by simp [scanByte, hs, hpre b (by simp)]
      rw [List.cons_append, scan, hb]
      have h := ih m.next hs fun c hc => hpre c (by simp [hc])
      simpa [Except.bind, UriLocals.next, Nat.add_assoc, Nat.add_comm 1] using h

theorem skipUsual_eq (buf : List UInt8) (p : Nat) (hp : p ≤ buf.length) :
    ∃ pre rest, buf.drop p = pre ++ rest ∧ (∀ b ∈ pre, usual b = true) ∧
      skipUsual buf p = .ok (p + pre.length) := by
  induction hn : buf.length - p generalizing p with
  | zero =>
      have hend : p = buf.length := by omega
      refine ⟨[], buf.drop p, rfl, by simp, ?_⟩
      rw [skipUsual, if_pos hend]
      rfl
  | succ n ih =>
      have hlt : p < buf.length := by omega
      have hget : buf[p]? = some buf[p] := List.getElem?_eq_getElem hlt
      cases hu : usual buf[p] with
      | false =>
          refine ⟨[], buf.drop p, rfl, by simp, ?_⟩
          rw [skipUsual, if_neg (by omega)]
          split <;> simp_all
      | true =>
          obtain ⟨pre, rest, hdrop, hpre, hskip⟩ := ih (p + 1) (by omega) (by omega)
          refine ⟨buf[p] :: pre, rest, ?_, ?_, ?_⟩
          · rw [List.drop_eq_getElem_cons hlt, hdrop, List.cons_append]
          · simpa [hu] using hpre
          · rw [skipUsual, if_neg (by omega)]
            split
            · simp_all
            · rename_i c hc
              obtain rfl : buf[p] = c := by simpa [hget] using hc
              rw [if_pos hu, hskip, List.length_cons]
              congr 1
              omega

theorem uriBody_run {buf : List UInt8} {m : UriLocals} (hlt : m.p < buf.length)
    (hs : m.state = .checkUri) (hu : usual buf[m.p] = true) :
    ∃ p, m.p < p ∧ p ≤ buf.length ∧ (uriLoop buf).body m = .ok (.next { m with p := p }) ∧
      scan m (buf.drop m.p) = scan { m with p := p } (buf.drop p) := by
  have hget : buf[m.p]? = some buf[m.p] := List.getElem?_eq_getElem hlt
  obtain ⟨pre, rest, hdrop, hpre, hskip⟩ := skipUsual_eq buf (m.p + 1) hlt
  have hlen := congrArg List.length hdrop
  simp only [List.length_drop, List.length_append] at hlen
  have hall : buf.drop m.p = (buf[m.p] :: pre) ++ rest := by
    rw [List.drop_eq_getElem_cons hlt, hdrop, List.cons_append]
  have hrest : buf.drop (m.p + 1 + pre.length) = rest := by
    rw [← List.drop_drop, hdrop, List.drop_left]
  refine ⟨m.p + 1 + pre.length, by omega, by omega, ?_, ?_⟩
  · simp [uriLoop, uriBody, hget, hs, hu, hskip, Except.map]
  · rw [hall, hrest, scan_usual m hs _ _ (by simpa [hu] using hpre)]
    simp [Nat.add_assoc, Nat.add_comm 1]

theorem uriBody_byte {buf : List UInt8} {m : UriLocals} (hlt : m.p < buf.length)
    (hrun : ¬ (m.state = .checkUri ∧ usual buf[m.p] = true)) :
    (uriLoop buf).body m = (scanByte m buf[m.p]).map fun m => .next m.next := by
  have hget : buf[m.p]? = some buf[m.p] := List.getElem?_eq_getElem hlt
  cases hs : m.state <;> simp_all [uriLoop, uriBody, scanByte]

theorem uriLoop_evals (buf : List UInt8) (m : UriLocals) (hp : m.p ≤ buf.length) :
    ∃ k, k ≤ buf.length - m.p ∧
      (uriLoop buf).Evals k m ((scan m (buf.drop m.p)).map .next) := by
  induction hn : buf.length - m.p using Nat.strongRecOn generalizing m with
  | ind n ih =>
      subst hn
      by_cases hend : m.p = buf.length
      · refine ⟨0, by omega, ?_⟩
        rw [hend, List.drop_length]
        exact .leave (by simp [uriLoop, hend])
      · have hlt : m.p < buf.length := by omega
        have guard : (uriLoop buf).guard m = true := by simp [uriLoop, hend]
        by_cases hrun : m.state = .checkUri ∧ usual buf[m.p] = true
        · obtain ⟨p, hless, hle, body, hscan⟩ := uriBody_run hlt hrun.1 hrun.2
          obtain ⟨k, hk, heval⟩ := ih (buf.length - p) (by omega) { m with p := p } hle rfl
          refine ⟨k + 1, by omega, .step guard body ?_⟩
          rw [hscan]
          exact heval
        · have body := uriBody_byte hlt hrun
          rw [List.drop_eq_getElem_cons hlt, scan]
          cases hb : scanByte m buf[m.p] with
          | error e =>
              rw [hb] at body
              exact ⟨1, by omega, .error guard body⟩
          | ok m' =>
              rw [hb] at body
              have hp' : m'.next.p = m.p + 1 := by simp [UriLocals.next, scanByte_p hb]
              obtain ⟨k, hk, heval⟩ := ih (buf.length - m'.next.p) (by omega) m'.next
                (by omega) rfl
              rw [hp'] at heval
              exact ⟨k + 1, by omega, .step guard body heval⟩

theorem ngxHttpParseUri_eq (r : Request) (buf : List UInt8) :
    ngxHttpParseUri r buf = (scan { r, state := .start, p := 0 } buf).map UriLocals.r := by
  obtain ⟨k, hk, heval⟩ := uriLoop_evals buf { r, state := .start, p := 0 } (Nat.zero_le _)
  simp only [List.drop_zero] at heval
  rw [ngxHttpParseUri, Loop.run_of_evals heval .diverged (by simpa using hk)]
  cases scan { r, state := .start, p := 0 } buf <;> rfl

theorem scanByte_blank {m : UriLocals} (hs : m.state ≠ .start) {ch : UInt8} (hb : Blank ch) :
    scanByte m ch = .error .parseError := by
  have hu := usual_of_blank hb
  have hne : ch ≠ slash ∧ ch ≠ dot ∧ ch ≠ percent ∧ ch ≠ question ∧ ch ≠ hash ∧ ch ≠ plus := by
    refine ⟨?_, ?_, ?_, ?_, ?_, ?_⟩ <;> intro h <;> subst h <;> revert hb <;> decide
  cases hst : m.state with
  | start => exact absurd hst hs
  | afterSlash => simp [scanByte, hst, afterSlashArm, rejectBlank, hu, hne, hb]
  | checkUri => simp [scanByte, hst, checkUriArm, rejectBlank, hu, hne, hb]
  | uri => simp [scanByte, hst, uriArm, rejectBlank, hu, hne, hb]

/-- In `Uri` a byte is only checked; a `#` asks for stage 2. -/
theorem scanByte_uri {m : UriLocals} (hs : m.state = .uri) {ch : UInt8} (hb : ¬ Blank ch) :
    scanByte m ch = .ok (if ch = hash then { m with r.complexUri := true } else m) := by
  by_cases hh : ch = hash
  · subst hh
    simp [scanByte, hs, uriArm]
  · cases hu : usual ch <;> simp [scanByte, hs, uriArm, rejectBlank, hu, hh, hb]

/-- Everything one byte can do before the machine has reached `Uri`. -/
theorem scanByte_path {m : UriLocals} (hs : m.state = .afterSlash ∨ m.state = .checkUri)
    {ch : UInt8} (hb : ¬ Blank ch) :
    (ch = question ∧
      scanByte m ch = .ok { m with r.argsStart := some (m.p + 1), state := .uri }) ∨
    ((ch = hash ∨ (m.state = .afterSlash ∧ (ch = dot ∨ ch = slash))) ∧
      scanByte m ch = .ok { m with r.complexUri := true, state := .uri }) ∨
    (ch = percent ∧ scanByte m ch = .ok { m with r.quotedUri := true, state := .uri }) ∨
    ((ch ≠ question ∧ ch ≠ hash ∧ ch ≠ percent ∧
        ¬ (m.state = .afterSlash ∧ (ch = dot ∨ ch = slash))) ∧
      ∃ ext plusInUri, scanByte m ch = .ok { m with
        r := { m.r with uriExt := ext, plusInUri := plusInUri }
        state := if ch = slash ∨ (m.state = .afterSlash ∧ ch = plus) then .afterSlash
          else .checkUri }) := by
  obtain ⟨r, state, p⟩ := m
  cases hs with
  | inl hs =>
      obtain rfl : state = .afterSlash := hs
      obtain hu | rfl | rfl | rfl | rfl | rfl | rfl | h := byte_cases ch
      · have h := (usual_iff ch).mp hu
        simp only [Ascii.Blank] at h
        refine .inr (.inr (.inr ⟨by simp [h], r.uriExt, r.plusInUri, ?_⟩))
        simp +decide [scanByte, afterSlashArm, hu, h]
      · simp +decide [scanByte, afterSlashArm]
      · simp +decide [scanByte, afterSlashArm]
      · simp +decide [scanByte, afterSlashArm]
      · simp +decide [scanByte, afterSlashArm]
      · simp +decide [scanByte, afterSlashArm]
      · refine .inr (.inr (.inr ⟨by simp +decide, r.uriExt, true, ?_⟩))
        simp +decide [scanByte, afterSlashArm]
      · exact absurd h hb
  | inr hs =>
      obtain rfl : state = .checkUri := hs
      obtain hu | rfl | rfl | rfl | rfl | rfl | rfl | h := byte_cases ch
      · have h := (usual_iff ch).mp hu
        refine .inr (.inr (.inr ⟨by simp [h], r.uriExt, r.plusInUri, ?_⟩))
        simp +decide [scanByte, hu, h]
      · refine .inr (.inr (.inr ⟨by simp +decide, none, r.plusInUri, ?_⟩))
        simp +decide [scanByte, checkUriArm]
      · refine .inr (.inr (.inr ⟨by simp +decide, some (p + 1), r.plusInUri, ?_⟩))
        simp +decide [scanByte, checkUriArm]
      · simp +decide [scanByte, checkUriArm]
      · simp +decide [scanByte, checkUriArm]
      · simp +decide [scanByte, checkUriArm]
      · refine .inr (.inr (.inr ⟨by simp +decide, r.uriExt, true, ?_⟩))
        simp +decide [scanByte, checkUriArm]
      · exact absurd h hb

theorem scan_blank {m : UriLocals} (hs : m.state ≠ .start) {rest : List UInt8}
    (h : ∃ b ∈ rest, Blank b) : scan m rest = .error .parseError := by
  induction rest generalizing m with
  | nil => simp at h
  | cons ch rest ih =>
      by_cases hb : Blank ch
      · rw [scan, scanByte_blank hs hb]
        rfl
      · have hrest : ∃ b ∈ rest, Blank b := by
          obtain ⟨b, hmem, hblank⟩ := h
          cases List.mem_cons.mp hmem with
          | inl heq => exact absurd (heq ▸ hblank) hb
          | inr hmem => exact ⟨b, hmem, hblank⟩
        rw [scan]
        by_cases hu : m.state = .uri
        · rw [scanByte_uri hu hb]
          exact ih (by split <;> simp [UriLocals.next, hu]) hrest
        · have hpath : m.state = .afterSlash ∨ m.state = .checkUri := by
            cases hst : m.state <;> simp_all
          obtain ⟨_, hok⟩ | ⟨_, hok⟩ | ⟨_, hok⟩ | ⟨_, ext, plusInUri, hok⟩ :=
            scanByte_path hpath hb
          · rw [hok]; exact ih (by simp [UriLocals.next]) hrest
          · rw [hok]; exact ih (by simp [UriLocals.next]) hrest
          · rw [hok]; exact ih (by simp [UriLocals.next]) hrest
          · rw [hok]; exact ih (by simp only [UriLocals.next]; split <;> simp) hrest

/-- The fields that stage 1 leaves alone. -/
structure SameResults (r r' : Request) : Prop where
  uri : r'.uri = r.uri
  args : r'.args = r.args
  exten : r'.exten = r.exten
  emptyPathInUri : r'.emptyPathInUri = r.emptyPathInUri

/-- A flag that sends the target to stage 2. -/
def Flagged (r : Request) : Prop := r.complexUri = true ∨ r.quotedUri = true

/-- What precedes the first `?`. -/
def beforeQuery (s : List UInt8) : List UInt8 := s.takeWhile (· ≠ question)

/-- A slash and any number of `+` bytes, then a dot or another slash;
`afterSlash` says that the string is read from just after such a slash. -/
def looksComplex : Bool → List UInt8 → Bool
  | _, [] => false
  | afterSlash, b :: rest =>
      (afterSlash && (b = dot || b = slash)) ||
        looksComplex (b = slash || (afterSlash && b = plus)) rest

theorem scan_uri {m : UriLocals} (hs : m.state = .uri) {rest : List UInt8}
    (hb : ∀ b ∈ rest, ¬ Blank b) :
    ∃ m', scan m rest = .ok m' ∧ SameResults m.r m'.r ∧
      (Flagged m'.r ↔ Flagged m.r ∨ hash ∈ rest) ∧ m'.r.argsStart = m.r.argsStart := by
  induction rest generalizing m with
  | nil => exact ⟨m, rfl, ⟨rfl, rfl, rfl, rfl⟩, by simp, rfl⟩
  | cons ch rest ih =>
      rw [scan, scanByte_uri hs (hb ch (by simp))]
      have hrest : ∀ b ∈ rest, ¬ Blank b := fun b hmem => hb b (by simp [hmem])
      by_cases hh : ch = hash
      · obtain ⟨m', hscan, hsame, hflag, hargs⟩ :=
          ih (m := UriLocals.next { m with r.complexUri := true }) hs hrest
        refine ⟨m', by rw [if_pos hh]; exact hscan, ⟨hsame.1, hsame.2, hsame.3, hsame.4⟩, ?_, hargs⟩
        rw [hflag]
        simp [Flagged, UriLocals.next, hh]
      · obtain ⟨m', hscan, hsame, hflag, hargs⟩ := ih (m := m.next) hs hrest
        refine ⟨m', by rw [if_neg hh]; exact hscan, hsame, ?_, hargs⟩
        rw [hflag]
        simp [UriLocals.next, Ne.symm hh]

theorem beforeQuery_cons {b : UInt8} (hb : b ≠ question) (s : List UInt8) :
    beforeQuery (b :: s) = b :: beforeQuery s := by
  simp [beforeQuery, hb]

/-- Once a flag is set the rest of the scan keeps it. -/
theorem scan_uri_flagged {m : UriLocals} (hs : m.state = .uri) (hm : Flagged m.r)
    {rest : List UInt8} (hb : ∀ b ∈ rest, ¬ Blank b) :
    ∃ m', scan m rest = .ok m' ∧ SameResults m.r m'.r ∧ Flagged m'.r := by
  obtain ⟨m', hscan, hsame, hflag, _⟩ := scan_uri hs hb
  exact ⟨m', hscan, hsame, hflag.mpr (.inl hm)⟩

theorem looksComplex_head {ch : UInt8} (hch : ch = dot ∨ ch = slash) (rest : List UInt8) :
    looksComplex true (beforeQuery (ch :: rest)) = true := by
  have hne : ch ≠ question := by
    rintro rfl
    revert hch
    decide
  rw [beforeQuery_cons hne]
  simp [looksComplex, hch]

/-- The scan of a path: which flags it ends with, and where it puts the query
when there is no flag. -/
theorem scan_path {m : UriLocals} (hs : m.state = .afterSlash ∨ m.state = .checkUri)
    {rest : List UInt8} (hb : ∀ b ∈ rest, ¬ Blank b) :
    ∃ m', scan m rest = .ok m' ∧ SameResults m.r m'.r ∧
      (Flagged m'.r ↔ Flagged m.r ∨ hash ∈ rest ∨ percent ∈ beforeQuery rest ∨
        looksComplex (m.state = .afterSlash) (beforeQuery rest) = true) ∧
      (¬ Flagged m'.r → m'.r.argsStart =
        if question ∈ rest then some (m.p + (beforeQuery rest).length + 1)
        else m.r.argsStart) := by
  induction rest generalizing m with
  | nil =>
      exact ⟨m, rfl, ⟨rfl, rfl, rfl, rfl⟩, by simp [beforeQuery, looksComplex], by simp⟩
  | cons ch rest ih =>
      have hrest : ∀ b ∈ rest, ¬ Blank b := fun b hmem => hb b (by simp [hmem])
      rw [scan]
      obtain ⟨rfl, hok⟩ | ⟨hch, hok⟩ | ⟨rfl, hok⟩ | ⟨hch, ext, plusInUri, hok⟩ :=
        scanByte_path hs (hb ch (by simp))
      · -- `?`: the query starts, and only a `#` in it can still set a flag
        obtain ⟨m', hscan, hsame, hflag, hargs⟩ := scan_uri
          (m := UriLocals.next { m with r.argsStart := some (m.p + 1), state := .uri }) rfl hrest
        refine ⟨m', by rw [hok]; exact hscan, ⟨hsame.1, hsame.2, hsame.3, hsame.4⟩, ?_, ?_⟩
        · rw [hflag]
          simp +decide [Flagged, UriLocals.next, beforeQuery, looksComplex]
        · intro _
          rw [hargs]
          simp [UriLocals.next, beforeQuery]
      · obtain ⟨m', hscan, hsame, hflagged⟩ := scan_uri_flagged
          (m := UriLocals.next { m with r.complexUri := true, state := .uri }) rfl (.inl rfl) hrest
        refine ⟨m', by rw [hok]; exact hscan, ⟨hsame.1, hsame.2, hsame.3, hsame.4⟩,
          iff_of_true hflagged (.inr ?_), fun h => absurd hflagged h⟩
        obtain rfl | ⟨hst, hch⟩ := hch
        · exact .inl (by simp)
        · refine .inr (.inr ?_)
          rw [hst, decide_eq_true rfl]
          exact looksComplex_head hch rest
      · obtain ⟨m', hscan, hsame, hflagged⟩ := scan_uri_flagged
          (m := UriLocals.next { m with r.quotedUri := true, state := .uri }) rfl (.inr rfl) hrest
        refine ⟨m', by rw [hok]; exact hscan, ⟨hsame.1, hsame.2, hsame.3, hsame.4⟩,
          iff_of_true hflagged (.inr (.inr (.inl ?_))), fun h => absurd hflagged h⟩
        rw [beforeQuery_cons (by decide)]
        simp
      · obtain ⟨hq, hh, hp, hplain⟩ := hch
        generalize hm1 : UriLocals.next
          { m with
            r := { m.r with uriExt := ext, plusInUri := plusInUri }
            state := if ch = slash ∨ (m.state = .afterSlash ∧ ch = plus) then .afterSlash
              else .checkUri } = m1 at hok
        have hs1 : m1.state = .afterSlash ∨ m1.state = .checkUri := by
          rw [← hm1]
          simp only [UriLocals.next]
          split <;> simp
        obtain ⟨m', hscan, hsame, hflag, hargs⟩ := ih hs1 hrest
        refine ⟨m', ?_, ?_, ?_, ?_⟩
        · rw [hok, ← hscan, ← hm1]
          rfl
        · subst hm1
          exact ⟨hsame.1, hsame.2, hsame.3, hsame.4⟩
        · rw [hflag, beforeQuery_cons hq]
          subst hm1
          have hstate : (decide (m.state = .afterSlash) && (decide (ch = dot) ||
              decide (ch = slash))) = false := by simpa using hplain
          simp [Flagged, UriLocals.next, looksComplex, hstate, Ne.symm hh, Ne.symm hp]
        · intro hnot
          rw [hargs hnot, beforeQuery_cons hq]
          subst hm1
          simp only [UriLocals.next, List.mem_cons, Ne.symm hq, false_or, List.length_cons]
          split
          · simp
            omega
          · rfl

theorem ngxHttpParseUri_path {rest : List UInt8} (hb : ∀ b ∈ rest, ¬ Blank b) :
    ∃ r, ngxHttpParseUri .default (slash :: rest) = .ok r ∧ SameResults .default r ∧
      (Flagged r ↔ hash ∈ rest ∨ percent ∈ beforeQuery rest ∨
        looksComplex true (beforeQuery rest) = true) ∧
      (¬ Flagged r → r.argsStart =
        if question ∈ rest then some ((beforeQuery (slash :: rest)).length + 1) else none) := by
  obtain ⟨m', hscan, hsame, hflag, hargs⟩ :=
    scan_path (m := { r := .default, state := .afterSlash, p := 1 }) (.inl rfl) hb
  refine ⟨m'.r, ?_, hsame, by simpa [Flagged, Request.default] using hflag, fun h => ?_⟩
  · rw [ngxHttpParseUri_eq, scan]
    have hstart : scanByte { r := .default, state := .start, p := 0 } slash =
        .ok { r := .default, state := .afterSlash, p := 0 } := by simp [scanByte, startArm]
    rw [hstart]
    exact congrArg (Except.map UriLocals.r) hscan
  · rw [hargs h, beforeQuery_cons (by decide), List.length_cons, Nat.add_comm 1]
    rfl

theorem ngxHttpParseUri_reject {target : List UInt8} (hne : target ≠ [])
    (h : target.head? ≠ some slash ∨ ∃ b ∈ target, Blank b) :
    ngxHttpParseUri .default target = .error .parseError := by
  obtain ⟨ch, rest, rfl⟩ := List.exists_cons_of_ne_nil hne
  rw [ngxHttpParseUri_eq, scan]
  by_cases hch : ch = slash
  · subst hch
    have hrest : ∃ b ∈ rest, Blank b := by
      cases h with
      | inl h => simp at h
      | inr h =>
          obtain ⟨b, hmem, hblank⟩ := h
          cases List.mem_cons.mp hmem with
          | inl heq => exact absurd (heq ▸ hblank) (by decide)
          | inr hmem => exact ⟨b, hmem, hblank⟩
    have hblank := scan_blank
      (m := UriLocals.next { r := .default, state := .afterSlash, p := 0 })
      (by simp [UriLocals.next]) hrest
    simp [scanByte, startArm, Except.bind, hblank, Except.map]
  · simp [scanByte, startArm, hch, Except.bind, Except.map]

end UrlParseNginx
