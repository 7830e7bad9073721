import UrlParseNginx.Reference.WrapperResult

/-!
The port and the reference agree. Both stages 1 accept the same targets and both stages 2
the same requests, with corresponding flags and offsets, and the wrapper returns what
`parse_origin_form` returns.
-/
namespace UrlParseNginx
open Ascii WhileLoop

/-- Requests after a stage; each offset is a pointer into its own block, and the extension
points into the block that the stage reads or writes it in. -/
structure Corresponds (base : NginxReference.Block) (r : Request)
    (t : NginxReference.Request) : Prop where
  complexUri : t.complexUri = r.complexUri
  quotedUri : t.quotedUri = r.quotedUri
  plusInUri : t.plusInUri = r.plusInUri
  uriExt : t.uriExt = r.uriExt.map (ptr base)
  argsStart : t.argsStart = r.argsStart.map (ptr .inbuf)
  args : t.args = strOf .inbuf r.args
  exten : t.exten = strOf .nbuf r.exten

theorem requestOf_corresponds (base : NginxReference.Block) (n : Nat)
    (uri : NginxReference.Str) (r : Request) : Corresponds base r (requestOf base n uri r) :=
  ⟨rfl, rfl, rfl, rfl, rfl, rfl, rfl⟩

/-- What the wrapper hands out for a parsed target. -/
structure SameOutputs {target : List UInt8} (parsed : Parsed target)
    (outs : NginxReference.Outputs) : Prop where
  outLen : outs.outLen = parsed.path.bytes.length
  path : outs.out.take outs.outLen = parsed.path.bytes
  argsPresent : parsed.args.isSome = true ↔ outs.argsPresent = 1
  args : ∀ s, parsed.args = some s →
    s.start = outs.argsOffset ∧ s.stop = outs.argsOffset + outs.argsLen

/-- The two stages of the reference against those of the port, each on what the one before
has left. -/
def StagesAgree (target nbuf : List UInt8) (mergeSlashes : Bool) : Prop :=
  match ngxHttpParseUri .default target with
  | .error _ => ∃ t, NginxReference.ngxHttpParseUri (inputMemory target nbuf)
      (stageOneRequest target) = .ok (NginxReference.NGX_ERROR, t)
  | .ok r => ∃ t, NginxReference.ngxHttpParseUri (inputMemory target nbuf)
      (stageOneRequest target) = .ok (NginxReference.NGX_OK, t) ∧ Corresponds .inbuf r t ∧
      ∀ len,
        match ngxHttpParseComplexUri r target (List.replicate (target.length + 1) 0)
          mergeSlashes with
        | .error _ => ∃ t' mem, NginxReference.ngxHttpParseComplexUri (inputMemory target nbuf)
            { t with uri := outputStr len } (if mergeSlashes then 1 else 0) =
              .ok (NginxReference.NGX_HTTP_PARSE_INVALID_REQUEST, t', mem)
        | .ok (r', out) => ∃ t' mem,
            NginxReference.ngxHttpParseComplexUri (inputMemory target nbuf)
              { t with uri := outputStr len } (if mergeSlashes then 1 else 0) =
                .ok (NginxReference.NGX_OK, t', mem) ∧
            Corresponds .nbuf r' t' ∧ t'.uri = outputStr r'.uri.len ∧
            mem.nbuf.take r'.uri.len = out.take r'.uri.len

/-- The results of the wrapper for the two calls of the port. -/
def SameParse (target nbuf : List UInt8) (flag : Int) (outs : NginxReference.Outputs) :
    Except Failure (Parsed target) → Prop
  | .error e => e = .parseError ∧
      NginxReference.nginxParseOriginForm target flag nbuf outs = .ok (-1, outs)
  | .ok parsed => ∃ outs', SameOutputs parsed outs' ∧
      NginxReference.nginxParseOriginForm target flag nbuf outs = .ok (0, outs')

section
variable {target nbuf : List UInt8} {r : Request}

theorem stages_agree (hnbuf : nbuf.length = target.length + 1) (mergeSlashes : Bool) :
    StagesAgree target nbuf mergeSlashes := by
  have hone := reference_parseUri target nbuf
  rw [StagesAgree]
  cases hr : ngxHttpParseUri .default target with
  | error e =>
      rw [hr] at hone
      exact hone
  | ok r =>
      rw [hr] at hone
      refine ⟨_, hone, requestOf_corresponds _ _ _ _, ?_⟩
      intro len
      have htwo := reference_parseComplexUri len (sameMemory_input hnbuf) (outputRoom target)
        .inbuf r mergeSlashes
      cases hresult : ngxHttpParseComplexUri r target (List.replicate (target.length + 1) 0)
          mergeSlashes with
      | error e =>
          rw [hresult] at htwo
          exact htwo
      | ok x =>
          rw [hresult] at htwo
          obtain ⟨mem, hmem, hok⟩ := htwo
          exact ⟨_, mem, hok, requestOf_corresponds _ _ _ _, rfl, hmem.written⟩

/-- What the wrapper stores where there is room for it. -/
theorem sameOutputs_delivered (parsed : Parsed target) (outs : NginxReference.Outputs) :
    SameOutputs parsed (delivered parsed outs) := by
  refine ⟨rfl, ?_, ?_, fun s hs => ?_⟩
  · simp [delivered, Buffer.overwrite]
  · rw [delivered]
    cases parsed.args <;> simp
  · rw [delivered, hs]
    exact ⟨rfl, (Nat.add_sub_cancel' s.ordered).symm⟩

/-- The wrapper and `parse_origin_form` agree on every target, for both values of
`merge_slashes`, whatever `malloc` has left in the buffer. -/
theorem port_agrees (target nbuf : List UInt8) (flag : Int) (outs : NginxReference.Outputs)
    (hnbuf : nbuf.length = target.length + 1)
    (hroom : target.length + 1 ≤ outs.out.length) :
    SameParse target nbuf flag outs (parseOriginForm target (flag != 0)) ∧
      StagesAgree target nbuf (flag != 0) := by
  refine ⟨?_, stages_agree hnbuf _⟩
  have hresult := wrapper_result target nbuf flag outs hnbuf
  cases hparse : parseOriginForm target (flag != 0) with
  | error e =>
      rw [hparse] at hresult
      exact ⟨(normalPath_of_error hparse).2, hresult⟩
  | ok parsed =>
      have hpath := parsed_length_le hparse
      rw [hparse, wrapperResult, if_neg (by omega)] at hresult
      exact ⟨_, sameOutputs_delivered parsed outs, hresult⟩

end

/-- `/%2e/a?b` with merged slashes, in a buffer that `malloc` has left full of ones. -/
theorem port_agrees_dot :
    ∃ outs, NginxReference.nginxParseOriginForm
        [slash, percent, 0x32, 0x65, slash, 0x61, question, 0x62] 1 (List.replicate 9 0xff)
        ⟨List.replicate 9 0, 0, 0, 0, 0⟩ = .ok (0, outs) ∧
      outs.out.take outs.outLen = [slash, 0x61] ∧
      outs.argsPresent = 1 ∧ outs.argsOffset = 7 ∧ outs.argsLen = 1 := by
  have h := (port_agrees [slash, percent, 0x32, 0x65, slash, 0x61, question, 0x62]
    (List.replicate 9 0xff) 1 ⟨List.replicate 9 0, 0, 0, 0, 0⟩ (by decide) (by decide)).1
  have hparse : parseOriginForm [slash, percent, 0x32, 0x65, slash, 0x61, question, 0x62] true =
      .ok { path := .owned [slash, 0x61], args := some ⟨7, 8, by decide, by decide⟩ } := by
    decide +kernel
  rw [show ((1 : Int) != 0) = true from rfl, hparse] at h
  obtain ⟨outs, hsame, hok⟩ := h
  obtain ⟨hoffset, hlen⟩ := hsame.args _ rfl
  have hone : outs.argsLen = 1 := by
    simp only at hoffset hlen
    omega
  exact ⟨outs, hok, hsame.path, hsame.argsPresent.mp rfl, hoffset.symm, hone⟩

end UrlParseNginx
