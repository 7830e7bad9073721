import UrlParseNginx.Reference.NginxUrl
import UrlParseNginx.ParseUriMeaning

/-!
Stage 1 of the port against stage 1 of the reference. The offsets of the port are the
pointers of the reference into one of its blocks; the port's run over ordinary bytes is
already a byte-by-byte scan, and each byte takes the reference's switch to the same place.
-/
namespace UrlParseNginx
open Ascii WhileLoop

/-- The pointer at an offset. -/
def ptr (block : NginxReference.Block) (n : Nat) : NginxReference.Ptr := ⟨block, n⟩

/-- The reference's string, where `0` stands for NULL in the port. -/
def strOf (block : NginxReference.Block) (s : NgxStr) : NginxReference.Str :=
  { len := s.len, data := if s.data = 0 then none else some (ptr block s.data) }

/-- The reference's request for a request of the port on a target of `n` bytes. The
extension points into `base`: into the input in stage 1, into the output in stage 2. -/
def requestOf (base : NginxReference.Block) (n : Nat) (uri : NginxReference.Str) (r : Request) :
    NginxReference.Request :=
  { uri
    args := strOf .inbuf r.args
    exten := strOf .nbuf r.exten
    uriStart := ptr .inbuf 0
    uriEnd := ptr .inbuf n
    uriExt := r.uriExt.map (ptr base)
    argsStart := r.argsStart.map (ptr .inbuf)
    complexUri := r.complexUri
    quotedUri := r.quotedUri
    plusInUri := r.plusInUri
    emptyPathInUri := r.emptyPathInUri }

theorem ptr_plus (block : NginxReference.Block) (n k : Nat) :
    (ptr block n).plus k = ptr block (n + k) := by
  simp [ptr, NginxReference.Ptr.plus]

@[simp] theorem ptr_plus_one (block : NginxReference.Block) (n : Nat) :
    (ptr block n).plus 1 = ptr block (n + 1) := ptr_plus block n 1

/-- The two tables are one. -/
@[simp] theorem reference_usual (ch : UInt8) : NginxReference.usual ch = usual ch := by
  apply forall_byte (P := fun ch => NginxReference.usual ch = usual ch)
  decide +kernel

def uriStateOf : UriState → NginxReference.UriState
  | .start => .swStart
  | .afterSlash => .swAfterSlashInUri
  | .checkUri => .swCheckUri
  | .uri => .swUri

def uriLocalsOf (n : Nat) (m : UriLocals) : NginxReference.UriLocals :=
  { r := requestOf .inbuf n { len := 0, data := none } m.r
    state := uriStateOf m.state
    p := ptr .inbuf m.p }

/-- What a scan of the port is in the reference. -/
def uriFlowOf (n : Nat) : Except Failure UriLocals → Flow NginxReference.UriLocals Int
  | .error _ => .ret NginxReference.NGX_ERROR
  | .ok m => .next (uriLocalsOf n m)

theorem uriDefault_of (n : Nat) (ch : UInt8) (m : UriLocals) :
    NginxReference.uriDefault ch (uriLocalsOf n m) = uriFlowOf n (rejectBlank ch m) := by
  by_cases hb : ch ≤ 0x20 ∨ ch = 0x7f
  · simp [NginxReference.uriDefault, rejectBlank, uriFlowOf, hb]
  · simp [NginxReference.uriDefault, rejectBlank, uriFlowOf, hb]

theorem uriSwitch_of (n : Nat) (m : UriLocals) (ch : UInt8) :
    NginxReference.uriSwitch (uriLocalsOf n m) ch = uriFlowOf n (scanByte m ch) := by
  obtain ⟨r, state, p⟩ := m
  cases state with
  | start =>
      by_cases hch : ch = slash
      · simp [NginxReference.uriSwitch, uriLocalsOf, uriStateOf, scanByte, startArm, uriFlowOf, hch]
      · simp [NginxReference.uriSwitch, uriLocalsOf, uriStateOf, scanByte, startArm, uriFlowOf, hch]
  | afterSlash =>
      have hdefault := uriDefault_of n ch { r, state := .checkUri, p }
      simp only [NginxReference.uriSwitch, uriLocalsOf, uriStateOf, scanByte, afterSlashArm,
        reference_usual] at hdefault ⊢
      repeat' split
      all_goals first | exact hdefault | simp [uriFlowOf, uriLocalsOf, uriStateOf, requestOf]
  | checkUri =>
      have hdefault := uriDefault_of n ch { r, state := .checkUri, p }
      simp only [NginxReference.uriSwitch, uriLocalsOf, uriStateOf, scanByte, checkUriArm,
        reference_usual] at hdefault ⊢
      repeat' split
      all_goals first | exact hdefault | simp [uriFlowOf, uriLocalsOf, uriStateOf, requestOf]
  | uri =>
      have hdefault := uriDefault_of n ch { r, state := .uri, p }
      simp only [NginxReference.uriSwitch, uriLocalsOf, uriStateOf, scanByte, uriArm,
        reference_usual] at hdefault ⊢
      repeat' split
      all_goals first | exact hdefault | simp [uriFlowOf, uriLocalsOf, uriStateOf, requestOf]

/-- In the input block a line feed follows the target. -/
theorem load_input {mem : NginxReference.Memory} {target : List UInt8}
    (h : mem.inbuf = target ++ [lineFeed]) {i : Nat} (hi : i ≤ target.length) :
    mem.load (ptr .inbuf i) = .ok (readWithLfSentinel target i) := by
  have hoff : 0 ≤ (ptr .inbuf i).off := Int.natCast_nonneg i
  rw [NginxReference.Memory.load, if_pos hoff]
  simp only [NginxReference.Memory.block, ptr, Int.toNat_natCast, readWithLfSentinel,
    readWithSentinel, List.getD_eq_getElem?_getD, h]
  by_cases hlt : i < target.length
  · simp [List.getElem?_append_left hlt, hlt]
  · have heq : i = target.length := by omega
    subst heq
    simp

/-- The reference's loop from a byte on is the port's scan of the rest. -/
theorem reference_uriLoop (target nbuf : List UInt8) (m : UriLocals) (hp : m.p ≤ target.length) :
    ∃ k x, k ≤ target.length - m.p ∧
      (NginxReference.uriLoop { inbuf := target ++ [lineFeed], nbuf }).Evals k
        (uriLocalsOf target.length m) x ∧
      match scan m (target.drop m.p) with
      | .error _ => ∃ r, x = .ok (.ret (NginxReference.NGX_ERROR, r))
      | .ok m' => x = .ok (.next (uriLocalsOf target.length m')) := by
  induction hn : target.length - m.p generalizing m with
  | zero =>
      have hend : m.p = target.length := by omega
      refine ⟨0, _, Nat.le_refl _, .leave ?_, ?_⟩
      · simp [NginxReference.uriLoop, uriLocalsOf, requestOf, hend]
      · rw [hend, List.drop_length]
        rfl
  | succ n ih =>
      have hlt : m.p < target.length := by omega
      have hguard : (NginxReference.uriLoop { inbuf := target ++ [lineFeed], nbuf }).guard
          (uriLocalsOf target.length m) = true := by
        simp only [NginxReference.uriLoop, uriLocalsOf, requestOf, ptr]
        simp only [ne_eq, NginxReference.Ptr.mk.injEq, true_and, decide_eq_true_eq]
        omega
      have hread : readWithLfSentinel target m.p = target[m.p] := by
        simp [readWithLfSentinel, readWithSentinel, List.getD, hlt]
      have hswitch := uriSwitch_of target.length m target[m.p]
      have hload : NginxReference.Memory.load { inbuf := target ++ [lineFeed], nbuf }
          (ptr .inbuf m.p) = .ok (readWithLfSentinel target m.p) := load_input rfl hp
      rw [hread] at hload
      rw [List.drop_eq_getElem_cons hlt, scan]
      cases hscan : scanByte m target[m.p] with
      | error e =>
          rw [hscan] at hswitch
          refine ⟨1, .ok (.ret (NginxReference.NGX_ERROR, (uriLocalsOf target.length m).r)),
            by omega, .ret hguard ?_, _, rfl⟩
          simp only [NginxReference.uriLoop, uriLocalsOf] at hswitch ⊢
          rw [hload]
          simp only [Except.map, hswitch, uriFlowOf]
      | ok m' =>
          rw [hscan] at hswitch
          have hp' : m'.next.p = m.p + 1 := by simp [UriLocals.next, scanByte_p hscan]
          obtain ⟨k, x, hk, heval, hx⟩ := ih m'.next (by omega) (by omega)
          rw [hp'] at hx
          refine ⟨k + 1, x, by omega, .step hguard ?_ heval, hx⟩
          simp only [NginxReference.uriLoop]
          rw [show (uriLocalsOf target.length m).p = ptr .inbuf m.p from rfl, hload]
          simp only [Except.map, hswitch, uriFlowOf]
          simp [uriLocalsOf, UriLocals.next]

theorem reference_parseUri (target nbuf : List UInt8) :
    match ngxHttpParseUri .default target with
    | .error _ => ∃ r, NginxReference.ngxHttpParseUri { inbuf := target ++ [lineFeed], nbuf }
        (.init (ptr .inbuf 0) (ptr .inbuf target.length)) = .ok (NginxReference.NGX_ERROR, r)
    | .ok r => NginxReference.ngxHttpParseUri { inbuf := target ++ [lineFeed], nbuf }
        (.init (ptr .inbuf 0) (ptr .inbuf target.length)) =
          .ok (NginxReference.NGX_OK,
            requestOf .inbuf target.length { len := 0, data := none } r) := by
  obtain ⟨k, x, hk, heval, hx⟩ := reference_uriLoop target nbuf
    { r := .default, state := .start, p := 0 } (Nat.zero_le _)
  have hresult : NginxReference.ngxHttpParseUri { inbuf := target ++ [lineFeed], nbuf }
      (.init (ptr .inbuf 0) (ptr .inbuf target.length)) = x.map NginxReference.uriResult := by
    have hrun := Loop.run_of_evals heval NginxReference.Fault.diverged
      (show k ≤ (target ++ [lineFeed]).length by simp; omega)
    exact congrArg (Except.map NginxReference.uriResult) hrun
  rw [hresult, ngxHttpParseUri_eq]
  rw [List.drop_zero] at hx
  cases hscan : scan { r := .default, state := .start, p := 0 } target with
  | error e =>
      rw [hscan] at hx
      obtain ⟨r, rfl⟩ := hx
      exact ⟨r, rfl⟩
  | ok m =>
      rw [hscan] at hx
      subst hx
      rfl

end UrlParseNginx
