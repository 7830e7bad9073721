import UrlParseNginx.Bounds
import UrlParseNginx.Reference.ComplexUriPort

/-!
The wrapper as a function of the parser's result. It never faults; its return code tells
whether the target is rejected, whether the caller's buffer is too small for the path, or
neither; and only in the last case does it store anything, and then exactly the path at the
start of the buffer and the place of the query.
-/
namespace UrlParseNginx
open Ascii WhileLoop

/-- The memory that the wrapper starts with. -/
def inputMemory (target nbuf : List UInt8) : NginxReference.Memory :=
  { inbuf := target ++ [lineFeed], nbuf }

def stageOneRequest (target : List UInt8) : NginxReference.Request :=
  .init (ptr .inbuf 0) (ptr .inbuf target.length)

/-- What the wrapper stores for a parsed target. -/
def delivered {target : List UInt8} (parsed : Parsed target) (outs : NginxReference.Outputs) :
    NginxReference.Outputs :=
  { out := Buffer.overwrite outs.out 0 parsed.path.bytes
    outLen := parsed.path.bytes.length
    argsOffset := (parsed.args.map Slice.start).getD 0
    argsLen := (parsed.args.map fun s => s.stop - s.start).getD 0
    argsPresent := if parsed.args.isSome then 1 else 0 }

/-- The return code, and the outputs after the call. -/
def wrapperResult {target : List UInt8} (outs : NginxReference.Outputs) :
    Except Failure (Parsed target) → Int × NginxReference.Outputs
  | .error _ => (-1, outs)
  | .ok parsed =>
      if outs.out.length < parsed.path.bytes.length then (-2, outs) else (0, delivered parsed outs)

section
variable {target nbuf : List UInt8} {r : Request}

theorem slice_of_ok {start stop : Nat} {s : Slice target}
    (h : slice target start stop = .ok s) : s.start = start ∧ s.stop = stop := by
  rw [slice] at h
  split at h
  · obtain rfl := Except.ok.inj h
    exact ⟨rfl, rfl⟩
  · cases h

/-- `r.args` as the wrapper finds it, for the slice that `parsed_args` returns. Stage 2 never
leaves both the query and its start, so the order of the two tests does not matter. -/
theorem assignArgs_eq {args : Option (Slice target)} (h : parsedArgs r target = .ok args)
    (hone : r.args.data ≠ 0 → r.argsStart = none) (base : NginxReference.Block)
    (uri : NginxReference.Str) :
    ∃ str, NginxReference.assignArgs (requestOf base target.length uri r) =
        { requestOf base target.length uri r with args := str } ∧
      str.data = args.map (fun s => ptr .inbuf s.start) ∧
      ∀ s, args = some s → str.len = s.stop - s.start := by
  rw [parsedArgs] at h
  by_cases hdata : r.args.data = 0
  · rw [if_neg (not_not.mpr hdata)] at h
    cases hstart : r.argsStart with
    | none =>
        rw [hstart] at h
        obtain rfl := Except.ok.inj h
        refine ⟨strOf .inbuf r.args, ?_, if_pos hdata, fun s hs => by cases hs⟩
        simp only [NginxReference.assignArgs, requestOf, hstart, Option.map_none]
    | some a =>
        simp only [hstart] at h
        have hguard : (target.length : Int) > a ↔ target.length > a := Int.ofNat_lt
        by_cases hlt : target.length > a
        · rw [if_pos hlt, slice_eq (Nat.le_of_lt hlt) (Nat.le_refl _)] at h
          obtain rfl := Except.ok.inj h
          refine ⟨{ len := target.length - a, data := some (ptr .inbuf a) }, ?_, rfl, ?_⟩
          · have hlen : NginxReference.toSize ((target.length : Int) - a) = target.length - a :=
              (toSize_sub target.length a).trans (if_pos (Nat.le_of_lt hlt))
            simp only [NginxReference.assignArgs, requestOf, hstart, Option.map_some, ptr,
              hguard.mpr hlt, ite_true, hlen]
          · intro s hs
            obtain rfl := Option.some.inj hs
            rfl
        · rw [if_neg hlt] at h
          obtain rfl := Except.ok.inj h
          refine ⟨strOf .inbuf r.args, ?_, if_pos hdata, fun s hs => by cases hs⟩
          simp only [NginxReference.assignArgs, requestOf, hstart, Option.map_some, ptr,
            mt hguard.mp hlt, ite_false]
  · rw [if_pos hdata] at h
    cases hslice : slice target r.args.data (r.args.data + r.args.len) with
    | error e =>
        rw [hslice] at h
        cases h
    | ok s =>
        rw [hslice] at h
        obtain rfl := Except.ok.inj h
        obtain ⟨hs, hs'⟩ := slice_of_ok hslice
        refine ⟨strOf .inbuf r.args, ?_, ?_, ?_⟩
        · simp only [NginxReference.assignArgs, requestOf, hone hdata, Option.map_none]
        · rw [strOf, if_neg hdata, Option.map_some, hs]
        · intro s' hs''
          obtain rfl := Option.some.inj hs''
          rw [hs, hs', Nat.add_sub_cancel_left]
          rfl

/-- The wrapper once a stage has left the path at the start of a block. -/
theorem deliver_result {mem : NginxReference.Memory} {args : Option (Slice target)}
    (hargs : parsedArgs r target = .ok args) (hone : r.args.data ≠ 0 → r.argsStart = none)
    (base block : NginxReference.Block) {len : Nat} (path : Cow target)
    (hpath : (mem.block block).take len = path.bytes) (hlen : len ≤ (mem.block block).length)
    (outs : NginxReference.Outputs) :
    NginxReference.deliver mem (NginxReference.assignArgs
        (requestOf base target.length { len, data := some (ptr block 0) } r)) outs =
      .ok (wrapperResult outs (.ok { path, args })) := by
  obtain ⟨str, hassign, hdata, hstr⟩ :=
    assignArgs_eq hargs hone base { len, data := some (ptr block 0) }
  have hbytes : path.bytes.length = len := by
    rw [← hpath, List.length_take, Nat.min_eq_left hlen]
  rw [hassign, wrapperResult, hbytes]
  generalize ht : { requestOf base target.length { len, data := some (ptr block 0) } r with
    args := str } = t
  have huri : t.uri = { len, data := some (ptr block 0) } := by
    rw [← ht]
    rfl
  have htargs : t.args = str := by rw [← ht]
  by_cases hroom : outs.out.length < len
  · rw [NginxReference.deliver, if_pos (by rw [huri]; exact hroom), if_pos hroom]
  · have hcopy : (if len ≠ 0 then mem.copy (ptr block 0) len outs.out else .ok outs.out) =
        .ok (Buffer.overwrite outs.out 0 path.bytes) := by
      by_cases hzero : len = 0
      · have hnil : path.bytes = [] := List.length_eq_zero_iff.mp (hbytes.trans hzero)
        simp [hzero, hnil]
      · have hoff : (0 : Int) ≤ (ptr block 0).off := Int.natCast_nonneg 0
        rw [if_pos hzero, NginxReference.Memory.copy,
          if_pos ⟨hoff, by simpa [ptr] using hlen, Nat.le_of_not_lt hroom⟩]
        simp [ptr, hpath, Buffer.overwrite, hbytes]
    have hdeliver : NginxReference.deliver mem t outs =
        .ok (0, NginxReference.outputs t (Buffer.overwrite outs.out 0 path.bytes)) := by
      simp only [NginxReference.deliver, huri, hroom, ite_false, hcopy, Except.map]
    rw [hdeliver, if_neg hroom, NginxReference.outputs, htargs, hdata, delivered, huri, hbytes]
    cases args with
    | none => simp
    | some s => simp [hstr s rfl, NginxReference.toSize, ptr]

/-- Stage 2 leaves the query or its start, but not both. -/
theorem leaveAt_one {stop u : Nat} {last : Request} (hargs : r.args = .default)
    (hstart : r.argsStart = none) (h : leaveAt target stop r u = .ok last) :
    last.args.data ≠ 0 → last.argsStart = none := by
  by_cases hq : target[stop]? = some question
  · rw [leaveAt_query hq] at h
    obtain rfl := Except.ok.inj h
    rw [finishDone_args, finishDone_argsStart, withQuery]
    split
    · exact fun _ => rfl
    · rw [hargs]
      exact fun hdata => absurd rfl hdata
  · rw [leaveAt_other hq] at h
    obtain rfl := Except.ok.inj h
    rw [finishDone_argsStart, hstart]
    exact fun _ => rfl

theorem stageTwo_leaves {out out' : List UInt8} {mergeSlashes : Bool} {last : Request}
    (hout : target.length + 1 ≤ out.length) (hargs : r.args = .default)
    (h : ngxHttpParseComplexUri r target out mergeSlashes = .ok (last, out')) :
    (last.args.data ≠ 0 → last.argsStart = none) ∧ last.uri.len ≤ out'.length := by
  cases ngxHttpParseComplexUri_cases r mergeSlashes hout with
  | inl hreject => cases hreject.symm.trans h
  | inr hleaves =>
      obtain ⟨m, last', hresult, hleave, hlen, hu, _, htail⟩ := hleaves
      obtain ⟨rfl, rfl⟩ := Prod.mk.inj (Except.ok.inj (hresult.symm.trans h))
      exact ⟨leaveAt_one (htail.args.trans hargs) htail.argsStart hleave, hlen ▸ hu⟩

theorem sameMemory_input (hnbuf : nbuf.length = target.length + 1) :
    SameMemory target (List.replicate (target.length + 1) 0) 0 (inputMemory target nbuf) :=
  ⟨rfl, by simpa [inputMemory] using hnbuf, by simp⟩

/-- `r->uri.len` when stage 2 is called. -/
def givenLength (t : NginxReference.Request) : Nat :=
  if t.emptyPathInUri then NginxReference.pathLength t + 1 else NginxReference.pathLength t

/-- The wrapper once stage 1 has returned. -/
theorem wrapper_eq (hne : target ≠ []) (flag : Int) (outs : NginxReference.Outputs) {rc : Int}
    {t : NginxReference.Request}
    (h : NginxReference.ngxHttpParseUri (inputMemory target nbuf) (stageOneRequest target) =
      .ok (rc, t)) :
    NginxReference.nginxParseOriginForm target flag nbuf outs =
      if rc ≠ NginxReference.NGX_OK then .ok (-1, outs)
      else if t.complexUri || t.quotedUri || t.emptyPathInUri then
        (NginxReference.ngxHttpParseComplexUri (inputMemory target nbuf)
          { t with uri := outputStr (givenLength t) } (if flag != 0 then 1 else 0)).bind
          fun x => if x.1 ≠ NginxReference.NGX_OK then .ok (-1, outs)
            else NginxReference.deliver x.2.2 (NginxReference.assignArgs x.2.1) outs
      else
        NginxReference.deliver (inputMemory target nbuf) (NginxReference.assignArgs
          { t with uri := { len := NginxReference.pathLength t, data := some t.uriStart } })
          outs := by
  have hlen : target.length ≠ 0 := mt List.length_eq_zero_iff.mp hne
  have hmerge : (if flag ≠ 0 then 1 else 0) = if flag != 0 then 1 else 0 := by simp
  simp only [inputMemory, stageOneRequest, ptr, Int.natCast_zero] at h
  rw [NginxReference.nginxParseOriginForm, if_neg hlen]
  simp only [h, hmerge, Bind.bind, Except.bind]
  rfl

theorem wrapper_rejects (hne : target ≠ []) (flag : Int) (outs : NginxReference.Outputs)
    {t : NginxReference.Request}
    (h : NginxReference.ngxHttpParseUri (inputMemory target nbuf) (stageOneRequest target) =
      .ok (NginxReference.NGX_ERROR, t)) :
    NginxReference.nginxParseOriginForm target flag nbuf outs = .ok (-1, outs) :=
  (wrapper_eq hne flag outs h).trans (if_pos (by decide))

theorem wrapper_simple (hne : target ≠ []) (flag : Int) (outs : NginxReference.Outputs)
    {t : NginxReference.Request}
    (h : NginxReference.ngxHttpParseUri (inputMemory target nbuf) (stageOneRequest target) =
      .ok (NginxReference.NGX_OK, t))
    (hflags : (t.complexUri || t.quotedUri || t.emptyPathInUri) = false) :
    NginxReference.nginxParseOriginForm target flag nbuf outs =
      NginxReference.deliver (inputMemory target nbuf) (NginxReference.assignArgs
        { t with uri := { len := NginxReference.pathLength t, data := some t.uriStart } })
        outs := by
  rw [wrapper_eq hne flag outs h, if_neg (by decide), hflags]
  rfl

theorem wrapper_complex (hne : target ≠ []) (flag : Int) (outs : NginxReference.Outputs)
    {t t' : NginxReference.Request} {rc : Int} {mem : NginxReference.Memory}
    (h : NginxReference.ngxHttpParseUri (inputMemory target nbuf) (stageOneRequest target) =
      .ok (NginxReference.NGX_OK, t))
    (hflags : (t.complexUri || t.quotedUri || t.emptyPathInUri) = true)
    (hstage : NginxReference.ngxHttpParseComplexUri (inputMemory target nbuf)
      { t with uri := outputStr (givenLength t) } (if flag != 0 then 1 else 0) =
        .ok (rc, t', mem)) :
    NginxReference.nginxParseOriginForm target flag nbuf outs =
      if rc ≠ NginxReference.NGX_OK then .ok (-1, outs)
      else NginxReference.deliver mem (NginxReference.assignArgs t') outs := by
  rw [wrapper_eq hne flag outs h, if_neg (by decide), hflags, if_pos rfl, hstage]
  rfl

/-- The borrowed path of the port is the input up to the length that the reference computes. -/
theorem simplePath_length {path : Slice target} (h : simplePath r target = .ok path) :
    NginxReference.pathLength (requestOf .inbuf target.length { len := 0, data := none } r) =
      path.stop ∧ path.start = 0 := by
  rw [simplePath] at h
  cases hstart : r.argsStart with
  | none =>
      simp only [hstart] at h
      obtain ⟨hzero, hstop⟩ := slice_of_ok h
      refine ⟨?_, hzero⟩
      simp only [NginxReference.pathLength, requestOf, hstart, Option.map_none, ptr, hstop]
      exact toSize_sub target.length 0
  | some a =>
      simp only [hstart] at h
      by_cases ha : a = 0
      · rw [if_pos ha] at h
        cases h
      · rw [if_neg ha] at h
        obtain ⟨hzero, hstop⟩ := slice_of_ok h
        have hpred : (a : Int) - 1 = (a - 1 : Nat) := by omega
        refine ⟨?_, hzero⟩
        simp only [NginxReference.pathLength, requestOf, hstart, Option.map_some, ptr, hpred, hstop]
        exact toSize_sub (a - 1) 0

theorem wrapperResult_simple (hne : target ≠ []) (flag : Int) (outs : NginxReference.Outputs)
    (hr : ngxHttpParseUri .default target = .ok r) (hdefault : r.args = .default)
    (hneeds : needsNormalization r = false) {path : Slice target}
    {args : Option (Slice target)} (hpath : simplePath r target = .ok path)
    (hargs : parsedArgs r target = .ok args) :
    NginxReference.nginxParseOriginForm target flag nbuf outs =
      .ok (wrapperResult outs (.ok { path := .borrowed path, args })) := by
  have hone := reference_parseUri target nbuf
  rw [hr] at hone
  obtain ⟨hlen, hzero⟩ := simplePath_length hpath
  have hstop := path.inBounds
  have hbytes : ((inputMemory target nbuf).block .inbuf).take path.stop =
      (Cow.borrowed path).bytes := by
    simp [inputMemory, NginxReference.Memory.block, Cow.bytes, Slice.bytes, hzero,
      List.take_append_of_le_length hstop]
  have hwithin : path.stop ≤ ((inputMemory target nbuf).block .inbuf).length := by
    simp only [inputMemory, NginxReference.Memory.block, List.length_append]
    omega
  rw [wrapper_simple hne flag outs hone hneeds, hlen]
  exact deliver_result hargs (fun hdata => absurd (by rw [hdefault]; rfl) hdata) .inbuf .inbuf
    (.borrowed path) hbytes hwithin outs

theorem wrapperResult_complex (hne : target ≠ []) (hnbuf : nbuf.length = target.length + 1)
    (flag : Int) (outs : NginxReference.Outputs)
    (hr : ngxHttpParseUri .default target = .ok r) (hdefault : r.args = .default)
    (hneeds : needsNormalization r = true) {last : Request} {out : List UInt8}
    {args : Option (Slice target)}
    (hstage : ngxHttpParseComplexUri r target (List.replicate (target.length + 1) 0)
      (flag != 0) = .ok (last, out))
    (hargs : parsedArgs last target = .ok args) :
    NginxReference.nginxParseOriginForm target flag nbuf outs =
      .ok (wrapperResult outs (.ok { path := .owned (out.take last.uri.len), args })) := by
  have hone := reference_parseUri target nbuf
  rw [hr] at hone
  have htwo := reference_parseComplexUri (givenLength (requestOf .inbuf target.length
    { len := 0, data := none } r)) (sameMemory_input hnbuf) (outputRoom target) .inbuf r (flag != 0)
  rw [hstage] at htwo
  obtain ⟨mem, hmem, hok⟩ := htwo
  obtain ⟨hone', hfits⟩ := stageTwo_leaves (outputRoom target) hdefault hstage
  rw [wrapper_complex hne flag outs hone hneeds hok, if_neg (by decide)]
  exact deliver_result hargs hone' .nbuf .nbuf (.owned (out.take last.uri.len)) hmem.written
    (hmem.room ▸ hfits) outs

theorem wrapperResult_rejects (hne : target ≠ []) (hnbuf : nbuf.length = target.length + 1)
    (flag : Int) (outs : NginxReference.Outputs)
    (hr : ngxHttpParseUri .default target = .ok r)
    (hneeds : needsNormalization r = true)
    (hstage : ngxHttpParseComplexUri r target (List.replicate (target.length + 1) 0)
      (flag != 0) = .error .parseError) :
    NginxReference.nginxParseOriginForm target flag nbuf outs = .ok (-1, outs) := by
  have hone := reference_parseUri target nbuf
  rw [hr] at hone
  have htwo := reference_parseComplexUri (givenLength (requestOf .inbuf target.length
    { len := 0, data := none } r)) (sameMemory_input hnbuf) (outputRoom target) .inbuf r (flag != 0)
  rw [hstage] at htwo
  obtain ⟨t, mem, hok⟩ := htwo
  exact wrapper_complex hne flag outs hone hneeds hok

/-- The wrapper returns what `parse_origin_form` does, whatever `malloc` has left in its
buffer and however small the caller's is. -/
theorem wrapper_result (target nbuf : List UInt8) (flag : Int) (outs : NginxReference.Outputs)
    (hnbuf : nbuf.length = target.length + 1) :
    NginxReference.nginxParseOriginForm target flag nbuf outs =
      .ok (wrapperResult outs (parseOriginForm target (flag != 0))) := by
  by_cases hwf : WellFormed target
  · have hne := ne_nil_of_wellFormed hwf
    obtain ⟨r, hr, hsame, hflag, hstart⟩ := ngxHttpParseUri_wellFormed hwf
    have hneeds := needsNormalization_iff hsame
    by_cases hsimple : Simple target
    · have hunflagged : ¬ Flagged r := fun h => hflag.mp h hsimple
      have hno : needsNormalization r = false := eq_false_of_ne_true (mt hneeds.mp hunflagged)
      obtain ⟨path, args, hpath, _, hargs, _⟩ :=
        simple_results hsimple hsame.args (hstart hunflagged)
      rw [parseOriginForm_borrows hne hr hno hpath hargs]
      exact wrapperResult_simple hne flag outs hr hsame.args hno hpath hargs
    · have hneeds := hneeds.mpr (hflag.mpr hsimple)
      cases hm : meaning (flag != 0) (.usual, []) target with
      | none =>
          rw [parseOriginForm_of_none (by rw [normalPath, if_pos hwf, hm])]
          exact wrapperResult_rejects hne hnbuf flag outs hr hneeds
            (stageTwo_none (outputRoom target) hsame hm)
      | some path =>
          obtain ⟨m, last, args, hstage, _, _, _, hargs, _⟩ :=
            stageTwo_some (outputRoom target) hsame hm
          rw [parseOriginForm_copies hne hr hneeds hstage hargs]
          exact wrapperResult_complex hne hnbuf flag outs hr hsame.args hneeds hstage hargs
  · rw [parseOriginForm_of_none (by rw [normalPath, if_neg hwf])]
    by_cases hne : target = []
    · subst hne
      rfl
    · have hone := reference_parseUri target nbuf
      rw [ngxHttpParseUri_reject hne (not_wellFormed hwf)] at hone
      obtain ⟨t, ht⟩ := hone
      exact wrapper_rejects hne flag outs ht

theorem parsed_length_le {mergeSlashes : Bool} {parsed : Parsed target}
    (h : parseOriginForm target mergeSlashes = .ok parsed) :
    parsed.path.bytes.length ≤ target.length :=
  (normalPath_length_le (normalPath_of_ok h).1).trans (rawPath_initial target).length_le

end

/-- The wrapper never faults. It returns `-1` exactly for the targets that `parse_origin_form`
rejects and `-2` exactly for a path longer than the caller's buffer, and then stores nothing;
otherwise it returns `0` and stores the path at the start of the buffer and the place of the
query. A buffer as long as the target is large enough. -/
theorem nginxParseOriginForm_capacity (target nbuf : List UInt8) (flag : Int)
    (outs : NginxReference.Outputs) (hnbuf : nbuf.length = target.length + 1) :
    ∃ rc outs', NginxReference.nginxParseOriginForm target flag nbuf outs = .ok (rc, outs') ∧
      (match parseOriginForm target (flag != 0) with
        | .error _ => rc = -1 ∧ outs' = outs
        | .ok parsed =>
            (outs.out.length < parsed.path.bytes.length ∧ rc = -2 ∧ outs' = outs) ∨
            (parsed.path.bytes.length ≤ outs.out.length ∧ rc = 0 ∧
              outs' = delivered parsed outs)) ∧
      (target.length ≤ outs.out.length → rc ≠ -2) := by
  refine ⟨(wrapperResult outs (parseOriginForm target (flag != 0))).1,
    (wrapperResult outs (parseOriginForm target (flag != 0))).2,
    wrapper_result target nbuf flag outs hnbuf, ?_, fun hroom => ?_⟩
  · cases parseOriginForm target (flag != 0) with
    | error e => exact ⟨rfl, rfl⟩
    | ok parsed =>
        simp only [wrapperResult]
        by_cases hsmall : outs.out.length < parsed.path.bytes.length
        · rw [if_pos hsmall]
          exact .inl ⟨hsmall, rfl, rfl⟩
        · rw [if_neg hsmall]
          exact .inr ⟨Nat.le_of_not_lt hsmall, rfl, rfl⟩
  · cases hparse : parseOriginForm target (flag != 0) with
    | error e => simp [wrapperResult]
    | ok parsed =>
        have hpath := parsed_length_le hparse
        rw [wrapperResult, if_neg (by omega)]
        simp

/-- `/abc` does not fit into two bytes. -/
theorem nginxParseOriginForm_capacity_small :
    NginxReference.nginxParseOriginForm [slash, 0x61, 0x62, 0x63] 1 (List.replicate 5 0xff)
      ⟨[7, 7], 9, 9, 9, 9⟩ = .ok (-2, ⟨[7, 7], 9, 9, 9, 9⟩) := by
  obtain ⟨rc, outs', hcall, hresult, _⟩ := nginxParseOriginForm_capacity
    [slash, 0x61, 0x62, 0x63] (List.replicate 5 0xff) 1 ⟨[7, 7], 9, 9, 9, 9⟩ (by decide)
  have hparse : parseOriginForm [slash, 0x61, 0x62, 0x63] ((1 : Int) != 0) =
      .ok { path := .borrowed ⟨0, 4, by decide, by decide⟩, args := none } := by decide +kernel
  rw [hparse] at hresult
  obtain ⟨_, hrc, houts⟩ | ⟨hlarge, _⟩ := hresult
  · rw [hcall, hrc, houts]
  · exact absurd hlarge (by decide)

end UrlParseNginx
