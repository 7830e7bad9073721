import UrlParseNginx.Library.DotSegmentLaws

/-!
What a run of segments does to a stack it knows nothing of: it pops some of what it finds
and leaves some segments in its place. Two numbers of pops and two lists of segments are the
same effect only if they do the same to every stack, so that an effect is all there is to
know of a run.
-/
namespace DotSegments
universe u
variable {α : Type u}

/-- `pops` segments are taken off the stack, then `kept` are put on it. -/
@[ext] structure Effect (α : Type u) where
  pops : Nat
  kept : List (List α)
  deriving DecidableEq

/-- A run that has done nothing yet. -/
def Effect.idle : Effect α := { pops := 0, kept := [] }

def Effect.apply (e : Effect α) (stack : List (List α)) : Option (List (List α)) :=
  if e.pops ≤ stack.length then some (stack.take (stack.length - e.pops) ++ e.kept) else none

@[simp] theorem Effect.apply_idle (stack : List (List α)) :
    Effect.idle.apply stack = some stack := by
  simp [Effect.idle, Effect.apply]

/-- A stack of exactly as many segments as are popped shows what is kept. -/
theorem Effect.apply_pops (e : Effect α) (w : List α) :
    e.apply (List.replicate e.pops w) = some e.kept := by
  simp [Effect.apply]

theorem Effect.apply_isSome {e : Effect α} {stack : List (List α)} :
    (e.apply stack).isSome = true ↔ e.pops ≤ stack.length := by
  by_cases h : e.pops ≤ stack.length <;> simp [Effect.apply, h]

/-- Effects that agree on stacks of one segment repeated are the same. -/
theorem Effect.ext_apply {e e' : Effect α} (w : List α)
    (h : ∀ n, e.apply (List.replicate n w) = e'.apply (List.replicate n w)) : e = e' := by
  have hle : ∀ {a b : Effect α},
      (∀ n, a.apply (List.replicate n w) = b.apply (List.replicate n w)) → b.pops ≤ a.pops := by
    intro a b hab
    have hsome : (b.apply (List.replicate a.pops w)).isSome = true := by
      rw [← hab, a.apply_pops]
      rfl
    simpa using Effect.apply_isSome.mp hsome
  have hpops : e.pops = e'.pops := Nat.le_antisymm (hle fun n => (h n).symm) (hle h)
  have hkept := h e.pops
  rw [e.apply_pops, hpops, e'.apply_pops] at hkept
  exact Effect.ext hpops (Option.some.inj hkept)

/-- Each segment with the separator before it. -/
def separated (sep : α) (segs : List (List α)) : List α := segs.flatMap (sep :: ·)

theorem separated_append (sep : α) (front rest : List (List α)) :
    separated sep (front ++ rest) = separated sep front ++ separated sep rest :=
  List.flatMap_append

theorem separated_eq_render {sep : α} {segs : List (List α)} (hne : segs ≠ []) :
    separated sep segs = render sep segs := by
  induction segs with
  | nil => exact absurd rfl hne
  | cons seg segs ih =>
      by_cases hsegs : segs = []
      · simp [hsegs, separated, render]
      · have htail := ih hsegs
        rw [render] at htail
        rw [render, List.intercalate_cons_of_ne_nil hsegs, List.append_assoc,
          List.singleton_append, ← htail]
        simp [separated]

variable [DecidableEq α]

/-- One more segment. A `..` takes back what the run has left, or pops the stack under it. -/
def Effect.push (dot : α) (merge : Bool) (e : Effect α) (seg : List α) : Effect α :=
  if seg = [dot] then e
  else if seg = [dot, dot] then
    if e.kept = [] then { e with pops := e.pops + 1 } else { e with kept := e.kept.dropLast }
  else if seg = [] ∧ merge = true then e
  else { e with kept := e.kept ++ [seg] }

/-- The effect of a run of segments, none of them the last of its path. -/
def effect (dot : α) (merge : Bool) (segs : List (List α)) : Effect α :=
  segs.foldl (Effect.push dot merge) .idle

section
variable {sep dot : α} {merge : Bool}

theorem Effect.apply_push (e : Effect α) (stack : List (List α)) (seg : List α) :
    (e.push dot merge seg).apply stack =
      (e.apply stack).bind fun next => DotSegments.push dot merge next seg := by
  obtain rfl | rfl | hplain := segment_cases dot seg
  · simp [Effect.push, push_dot]
  · simp only [push_dotDot]
    by_cases hkept : e.kept = []
    · have hpush : e.push dot merge [dot, dot] = { e with pops := e.pops + 1 } := by
        simp [Effect.push, hkept]
      rw [hpush]
      by_cases hdeep : e.pops ≤ stack.length
      · have hempty : stack.take (stack.length - e.pops) = [] ↔ stack.length ≤ e.pops := by
          rw [List.take_eq_nil_iff, ← List.length_eq_zero_iff]
          omega
        simp only [Effect.apply, hkept, hdeep, List.append_nil, ite_true, Option.bind_some,
          hempty]
        by_cases hend : stack.length ≤ e.pops
        · rw [if_neg (by omega), if_pos hend]
        · rw [if_pos (by omega), if_neg hend, List.dropLast_eq_take, List.take_take,
            List.length_take]
          congr 2
          omega
      · simp [Effect.apply, hdeep, show ¬ e.pops + 1 ≤ stack.length by omega]
    · have hpush : e.push dot merge [dot, dot] = { e with kept := e.kept.dropLast } := by
        simp [Effect.push, hkept]
      rw [hpush]
      by_cases hdeep : e.pops ≤ stack.length
      · simp [Effect.apply, hdeep, hkept, List.dropLast_append_of_ne_nil]
      · simp [Effect.apply, hdeep]
  · simp only [push_plain hplain]
    by_cases hempty : seg = [] ∧ merge = true
    · simp [Effect.push, hempty]
    · by_cases hdeep : e.pops ≤ stack.length <;>
        simp [Effect.push, Effect.apply, hplain, hempty, hdeep]

theorem Effect.apply_foldl (segs : List (List α)) (e : Effect α) (stack : List (List α)) :
    (segs.foldl (Effect.push dot merge) e).apply stack =
      (e.apply stack).bind fun next => pushAll dot merge next segs := by
  induction segs generalizing e with
  | nil => simp [pushAll_nil]
  | cons seg segs ih =>
      rw [List.foldl_cons, ih, e.apply_push]
      simp only [pushAll_cons]
      cases e.apply stack <;> rfl

theorem pushAll_eq_apply (stack segs : List (List α)) :
    pushAll dot merge stack segs = (effect dot merge segs).apply stack := by
  rw [effect, Effect.apply_foldl, Effect.apply_idle]
  rfl

theorem pushAll_append (stack front rest : List (List α)) :
    pushAll dot merge stack (front ++ rest) =
      (pushAll dot merge stack front).bind fun next => pushAll dot merge next rest := by
  simp [pushAll, List.foldlM_append]

theorem resolve_append (front : List (List α)) {rest : List (List α)} (hne : rest ≠ []) :
    resolve dot merge (front ++ rest) = (pushAll dot merge [] front).bind fun stack =>
      (pushAll dot merge stack rest.dropLast).bind fun next =>
        pushLast dot next (rest.getLastD []) := by
  rw [resolve, List.dropLast_append_of_ne_nil hne, pushAll_append, Option.bind_assoc]
  simp [List.getLastD_eq_getLast?, List.getLast?_append_of_ne_nil _ hne]

theorem separated_splitOn (path : List α) : separated sep (path.splitOn sep) = sep :: path := by
  rw [separated_eq_render (List.splitOn_ne_nil sep path), render, List.intercalate_splitOn]

theorem normalize_separated (hsd : sep ≠ dot) {segs : List (List α)} (hne : segs ≠ [])
    (hsegs : ∀ s ∈ segs, sep ∉ s) :
    normalizePath sep dot merge (separated sep segs) =
      (resolve dot merge segs).map (render sep) := by
  rw [separated_eq_render hne, render, normalize_path hsd, List.splitOn_intercalate sep hsegs hne]

/-- Runs with the same effect may stand for each other wherever a segment comes after. -/
theorem normalize_replace (hsd : sep ≠ dot) {segs segs' before after : List (List α)}
    (hfree : ∀ s ∈ before ++ segs ++ after, sep ∉ s)
    (hfree' : ∀ s ∈ before ++ segs' ++ after, sep ∉ s) (hne : after ≠ [])
    (h : effect dot merge segs = effect dot merge segs') :
    normalizePath sep dot merge (separated sep (before ++ segs ++ after)) =
      normalizePath sep dot merge (separated sep (before ++ segs' ++ after)) := by
  rw [normalize_separated hsd (by simp [hne]) hfree, normalize_separated hsd (by simp [hne]) hfree',
    resolve_append _ hne, resolve_append _ hne, pushAll_append, pushAll_append]
  simp only [pushAll_eq_apply, h]

theorem closed_injective {stack stack' : List (List α)} (hstack : ∀ s ∈ stack, sep ∉ s)
    (hstack' : ∀ s ∈ stack', sep ∉ s) (h : closed sep stack = closed sep stack') :
    stack = stack' := by
  have hsplit := splitOn_closed hstack (w := []) (by simp)
  have hsplit' := splitOn_closed hstack' (w := []) (by simp)
  rw [h, hsplit'] at hsplit
  simpa using hsplit.symm

/-- Between copies of a plain segment and a final separator, the normalizer shows what a run
does to the stack. -/
theorem normalize_probe (hsd : sep ≠ dot) {w : List α} (hw : Kept sep dot merge w)
    {segs : List (List α)} (hsegs : ∀ s ∈ segs, sep ∉ s) (n : Nat) :
    normalizePath sep dot merge (separated sep (List.replicate n w ++ segs ++ [[]])) =
      ((effect dot merge segs).apply (List.replicate n w)).map (closed sep) := by
  have hcopies : ∀ s ∈ List.replicate n w, Kept sep dot merge s :=
    fun s hs => List.eq_of_mem_replicate hs ▸ hw
  rw [normalize_separated hsd (by simp), resolve_append _ (by simp), pushAll_append,
    pushAll_of_kept [] hcopies, List.nil_append, Option.bind_some, pushAll_eq_apply]
  · cases (effect dot merge segs).apply (List.replicate n w) with
    | none => rfl
    | some stack => simp [pushAll_nil, pushLast, render_concat]
  · simp only [List.forall_mem_append, List.forall_mem_singleton]
    exact ⟨⟨fun s hs => (hcopies s hs).sepFree, hsegs⟩, List.not_mem_nil⟩

/-- Runs that the normalizer does not tell apart there have the same effect. -/
theorem effect_eq_of_probes (hsd : sep ≠ dot) {w : List α} (hw : Kept sep dot merge w)
    {segs segs' : List (List α)} (hsegs : ∀ s ∈ segs, sep ∉ s) (hsegs' : ∀ s ∈ segs', sep ∉ s)
    (h : ∀ n, normalizePath sep dot merge (separated sep (List.replicate n w ++ segs ++ [[]])) =
      normalizePath sep dot merge (separated sep (List.replicate n w ++ segs' ++ [[]]))) :
    effect dot merge segs = effect dot merge segs' := by
  refine Effect.ext_apply w fun n => ?_
  have hn := h n
  rw [normalize_probe hsd hw hsegs, normalize_probe hsd hw hsegs'] at hn
  have hcopies : ∀ s ∈ List.replicate n w, sep ∉ s :=
    fun s hs => List.eq_of_mem_replicate hs ▸ hw.sepFree
  rw [← pushAll_eq_apply, ← pushAll_eq_apply] at hn ⊢
  cases hp : pushAll dot merge (List.replicate n w) segs with
  | none =>
      rw [hp] at hn
      exact (Option.map_eq_none_iff.mp hn.symm).symm
  | some stack =>
      rw [hp, Option.map_some] at hn
      obtain ⟨stack', hp', heq⟩ := Option.map_eq_some_iff.mp hn.symm
      rw [hp', closed_injective (pushAll_sep_free hcopies hsegs hp)
        (pushAll_sep_free hcopies hsegs' hp') heq.symm]

end
end DotSegments
