import UrlParseNginx.Library.DotSegments

/-!
Laws of dot-segment resolution: resolved paths are canonical, canonical paths
are fixed, merging separators only collapses runs of them, and a resolved prefix
may stand for the prefix it came from.
-/
namespace DotSegments
universe u
variable {α : Type u} {sep dot : α} {merge : Bool}

/-- The two separators around a segment are adjacent only if it is empty. -/
theorem double_sep_append {w : List α} (hw : sep ∉ w) (hne : w ≠ []) (rest : List α) :
    [sep, sep] <:+: sep :: (w ++ rest) ↔ [sep, sep] <:+: rest := by
  have skip : ∀ v : List α, sep ∉ v → ([sep, sep] <:+: v ++ rest ↔ [sep, sep] <:+: rest) := by
    intro v hv
    induction v with
    | nil => simp
    | cons a v ih =>
        have ha : sep ≠ a := fun h => hv (by simp [h])
        rw [List.cons_append, List.infix_cons_iff, ih (fun h => hv (by simp [h]))]
        simp [ha]
  obtain ⟨a, v, rfl⟩ := List.exists_cons_of_ne_nil hne
  have ha : sep ≠ a := fun h => hw (by simp [h])
  rw [List.infix_cons_iff, skip _ hw]
  simp [ha]

theorem double_sep_closed {stack : List (List α)} (hstack : ∀ s ∈ stack, sep ∉ s) {w : List α}
    (hw : sep ∉ w) : [sep, sep] <:+: closed sep stack ++ w ↔ [] ∈ stack := by
  induction stack with
  | nil =>
      have h : ¬ [sep, sep] <:+: sep :: w := by
        by_cases hne : w = []
        · subst hne
          intro h
          simpa using h.length_le
        · simpa using (double_sep_append hw hne []).not.mpr (by simp)
      simpa [closed] using h
  | cons s stack ih =>
      have hsplit : closed sep (s :: stack) ++ w = sep :: (s ++ (closed sep stack ++ w)) := by
        simp [closed]
      rw [hsplit]
      by_cases hs : s = []
      · subst hs
        simp only [List.nil_append, List.mem_cons, true_or, iff_true]
        exact ⟨[], stack.flatMap (· ++ [sep]) ++ w, by simp [closed]⟩
      · rw [double_sep_append (hstack s (by simp)) hs, ih fun t ht => hstack t (by simp [ht])]
        simp [Ne.symm hs]

variable [DecidableEq α]

structure Canonical (sep dot : α) (merge : Bool) (p : List α) : Prop where
  head : p.head? = some sep
  plain : ∀ s ∈ p.splitOn sep, s ≠ [dot] ∧ s ≠ [dot, dot]
  merged : merge = true → ¬ [sep, sep] <:+: p

/-- A segment that may stay on the stack. -/
structure Kept (sep dot : α) (merge : Bool) (s : List α) : Prop where
  sepFree : sep ∉ s
  plain : s ≠ [dot] ∧ s ≠ [dot, dot]
  full : merge = true → s ≠ []

theorem pushAll_kept {segs stack stack' : List (List α)}
    (hstack : ∀ s ∈ stack, Kept sep dot merge s) (hsegs : ∀ s ∈ segs, sep ∉ s)
    (h : pushAll dot merge stack segs = some stack') : ∀ s ∈ stack', Kept sep dot merge s :=
  pushAll_forall hstack (fun w hw hplain hfull => ⟨hsegs w hw, hplain, hfull⟩) h

theorem pushLast_kept {stack out : List (List α)} {w : List α}
    (hstack : ∀ s ∈ stack, Kept sep dot merge s) (hw : sep ∉ w)
    (h : pushLast dot stack w = some out) :
    ∃ segs last, out = segs ++ [last] ∧ (∀ s ∈ segs, Kept sep dot merge s) ∧
      sep ∉ last ∧ last ≠ [dot] ∧ last ≠ [dot, dot] := by
  obtain rfl | rfl | hplain := segment_cases dot w
  · rw [pushLast_dot] at h
    exact ⟨stack, [], (Option.some.inj h).symm, hstack, by simp⟩
  · rw [pushLast_dotDot] at h
    split at h
    · simp at h
    · exact ⟨stack.dropLast, [], (Option.some.inj h).symm,
        fun s hs => hstack s (List.mem_of_mem_dropLast hs), by simp⟩
  · rw [pushLast_plain hplain] at h
    exact ⟨stack, w, (Option.some.inj h).symm, hstack, hw, hplain⟩

theorem splitOn_closed {stack : List (List α)} (hstack : ∀ s ∈ stack, sep ∉ s) {w : List α}
    (hw : sep ∉ w) : (closed sep stack ++ w).splitOn sep = [] :: (stack ++ [w]) := by
  rw [← render_concat, render, List.splitOn_cons_eq_if_modifyHead]
  have hfree : ∀ s ∈ stack ++ [w], sep ∉ s :=
    List.forall_mem_append.mpr ⟨hstack, by simpa using hw⟩
  simp [List.splitOn_intercalate sep hfree]

theorem canonical_closed {stack : List (List α)} (hstack : ∀ s ∈ stack, Kept sep dot merge s)
    {w : List α} (hw : sep ∉ w) (hplain : w ≠ [dot] ∧ w ≠ [dot, dot]) :
    Canonical sep dot merge (closed sep stack ++ w) where
  head := rfl
  plain := by
    rw [splitOn_closed (fun s hs => (hstack s hs).sepFree) hw]
    refine List.forall_mem_cons.mpr ⟨by simp, List.forall_mem_append.mpr ⟨?_, ?_⟩⟩
    · exact fun s hs => (hstack s hs).plain
    · simpa using hplain
  merged hm := by
    rw [double_sep_closed (fun s hs => (hstack s hs).sepFree) hw]
    exact fun hmem => (hstack [] hmem).full hm rfl

/-- Every canonical path consists of kept segments and a plain last one. -/
theorem Canonical.closed_form {p : List α} (h : Canonical sep dot merge p) :
    ∃ stack w, p = closed sep stack ++ w ∧ (∀ s ∈ stack, Kept sep dot merge s) ∧
      sep ∉ w ∧ w ≠ [dot] ∧ w ≠ [dot, dot] := by
  obtain ⟨input, rfl⟩ : ∃ input, p = sep :: input := by
    have := h.head
    cases p with
    | nil => simp at this
    | cons a input => exact ⟨input, by simpa using this⟩
  have hne : input.splitOn sep ≠ [] := List.splitOn_ne_nil sep input
  have hform : sep :: input =
      closed sep (input.splitOn sep).dropLast ++ (input.splitOn sep).getLast hne := by
    rw [← render_concat, List.dropLast_concat_getLast, render, List.intercalate_splitOn]
  have hfree : ∀ s ∈ input.splitOn sep, sep ∉ s := fun s hs => not_mem_of_mem_splitOn hs
  have hplain : ∀ s ∈ input.splitOn sep, s ≠ [dot] ∧ s ≠ [dot, dot] := fun s hs =>
    h.plain s (by rw [List.splitOn_cons_eq_if_modifyHead]; simp [hs])
  have hlast := List.getLast_mem hne
  refine ⟨_, _, hform, fun s hs => ?_, hfree _ hlast, hplain _ hlast⟩
  have hmem := List.mem_of_mem_dropLast hs
  refine ⟨hfree s hmem, hplain s hmem, fun hm he => h.merged hm ?_⟩
  rw [hform, double_sep_closed (fun t ht => hfree t (List.mem_of_mem_dropLast ht))
    (hfree _ hlast)]
  exact he ▸ hs

theorem pushAll_of_kept {segs : List (List α)} (stack : List (List α))
    (hsegs : ∀ s ∈ segs, Kept sep dot merge s) :
    pushAll dot merge stack segs = some (stack ++ segs) := by
  induction segs generalizing stack with
  | nil => rw [pushAll_nil, List.append_nil]
  | cons s segs ih =>
      have hs := hsegs s (by simp)
      have hp : push dot merge stack s = some (stack ++ [s]) := by
        rw [push_plain hs.plain, if_neg fun h => hs.full h.2 h.1]
      rw [pushAll_cons, hp, Option.bind_some, ih _ fun t ht => hsegs t (by simp [ht])]
      simp

/-- Running over a path in closed form reaches that path itself. -/
theorem run_closed (hsd : sep ≠ dot) {stack : List (List α)}
    (hstack : ∀ s ∈ stack, Kept sep dot merge s) {w : List α} (hw : sep ∉ w) :
    run sep dot merge (.usual, []) (closed sep stack ++ w) =
      some (modeOf dot w, closed sep stack ++ w) := by
  have hfree : ∀ s ∈ stack, sep ∉ s := fun s hs => (hstack s hs).sepFree
  have hsplit : (stack.flatMap (· ++ [sep]) ++ w).splitOn sep = stack ++ [w] := by
    have h := splitOn_closed hfree hw
    rw [closed, List.cons_append, List.splitOn_cons_eq_if_modifyHead] at h
    simpa using h
  have h := run_path merge hsd (stack.flatMap (· ++ [sep]) ++ w)
  rw [hsplit, List.dropLast_concat, pushAll_of_kept [] hstack] at h
  simpa [closed] using h

theorem normalize_of_canonical (hsd : sep ≠ dot) {p : List α}
    (h : Canonical sep dot merge p) : normalizePath sep dot merge p = some p := by
  obtain ⟨stack, w, rfl, hstack, hw, hplain⟩ := h.closed_form
  rw [normalizePath, run_closed hsd hstack hw, Option.bind_some,
    finish_segment stack (fun s hs => (hstack s hs).sepFree) w]
  simp [pushLast_plain hplain, render_concat]

theorem run_path_closed (hsd : sep ≠ dot) {input : List α} {c : Mode × List α}
    (h : run sep dot merge (.usual, []) (sep :: input) = some c) :
    ∃ stack, c = (modeOf dot ((input.splitOn sep).getLastD []),
        closed sep stack ++ (input.splitOn sep).getLastD []) ∧
      (∀ s ∈ stack, Kept sep dot merge s) ∧ sep ∉ (input.splitOn sep).getLastD [] := by
  rw [run_path merge hsd, Option.map_eq_some_iff] at h
  obtain ⟨stack, hp, rfl⟩ := h
  refine ⟨stack, rfl, pushAll_kept (by simp)
    (fun s hs => not_mem_of_mem_splitOn (List.mem_of_mem_dropLast hs)) hp, ?_⟩
  rw [List.getLastD_eq_getLast?, List.getLast?_eq_some_getLast (List.splitOn_ne_nil sep input)]
  exact not_mem_of_mem_splitOn (List.getLast_mem (List.splitOn_ne_nil sep input))

theorem canonical_of_normalize (hsd : sep ≠ dot) {input out : List α}
    (h : normalizePath sep dot merge (sep :: input) = some out) : Canonical sep dot merge out := by
  rw [normalizePath, Option.bind_eq_some_iff] at h
  obtain ⟨c, hrun, hfin⟩ := h
  obtain ⟨stack, rfl, hstack, hw⟩ := run_path_closed hsd hrun
  rw [finish_segment stack (fun s hs => (hstack s hs).sepFree), Option.map_eq_some_iff] at hfin
  obtain ⟨segs, hlast, rfl⟩ := hfin
  obtain ⟨segs, last, rfl, hsegs, hfree, hplain⟩ := pushLast_kept hstack hw hlast
  rw [render_concat]
  exact canonical_closed hsegs hfree hplain

theorem popOutput_initial {out out' : List α} (h : popOutput sep out = some out') :
    out' <+: out := by
  rw [popOutput, Option.map_eq_some_iff] at h
  obtain ⟨i, _, rfl⟩ := h
  exact List.take_prefix _ _

/-- One step appends the byte it reads, appends nothing, or moves back. -/
theorem feed_output {c c' : Mode × List α} {b : α} (h : feed sep dot merge c b = some c') :
    c'.2 = c.2 ++ [b] ∨ c'.2 <+: c.2 := by
  obtain ⟨mode, out⟩ := c
  cases mode with
  | usual =>
      left
      simp only [feed] at h
      split at h <;> obtain rfl := Option.some.inj h <;> rfl
  | slash =>
      simp only [feed] at h
      split at h
      · obtain rfl := Option.some.inj h
        cases merge <;> simp
      · left
        split at h <;> obtain rfl := Option.some.inj h <;> rfl
  | dot =>
      simp only [feed] at h
      split at h
      · obtain rfl := Option.some.inj h
        exact .inr (List.dropLast_prefix out)
      · left
        split at h <;> obtain rfl := Option.some.inj h <;> rfl
  | dotDot =>
      simp only [feed] at h
      split at h
      · obtain ⟨out', hpop, rfl⟩ := Option.map_eq_some_iff.mp h
        exact .inr (popOutput_initial hpop)
      · obtain rfl := Option.some.inj h
        exact .inl rfl

theorem feed_sublist {c c' : Mode × List α} {b : α}
    (h : feed sep dot merge c b = some c') : c'.2.Sublist (c.2 ++ [b]) := by
  cases feed_output h with
  | inl heq => rw [heq]
  | inr hpre => exact hpre.sublist.trans (List.sublist_append_left _ _)

theorem run_sublist {c c' : Mode × List α} {input : List α}
    (h : run sep dot merge c input = some c') : c'.2.Sublist (c.2 ++ input) := by
  induction input generalizing c with
  | nil =>
      obtain rfl := Option.some.inj h
      simp
  | cons b input ih =>
      rw [run_cons, Option.bind_eq_some_iff] at h
      obtain ⟨next, hfeed, hrest⟩ := h
      have hstep := (feed_sublist hfeed).append (List.Sublist.refl input)
      simpa using (ih hrest).trans hstep

/-- The output is made of bytes of the input, in their order. -/
theorem normalize_sublist {input out : List α}
    (h : normalizePath sep dot merge input = some out) : out.Sublist input := by
  rw [normalizePath, Option.bind_eq_some_iff] at h
  obtain ⟨⟨mode, out'⟩, hrun, hfin⟩ := h
  have hsub : out'.Sublist input := by simpa using run_sublist hrun
  cases mode with
  | usual | slash =>
      obtain rfl := Option.some.inj hfin
      exact hsub
  | dot =>
      obtain rfl := Option.some.inj hfin
      exact (List.dropLast_sublist out').trans hsub
  | dotDot => exact (popOutput_initial hfin).sublist.trans hsub

/-- Every run of separators collapsed to one. -/
def collapse (sep : α) : List α → List α
  | [] => []
  | [a] => [a]
  | a :: b :: l => if a = sep ∧ b = sep then collapse sep (b :: l) else a :: collapse sep (b :: l)

theorem collapse_cons_of_ne {a : α} (ha : a ≠ sep) (l : List α) :
    collapse sep (a :: l) = a :: collapse sep l := by
  cases l with
  | nil => rfl
  | cons b l => simp [collapse, ha]

theorem collapse_append {w : List α} (hw : sep ∉ w) (l : List α) :
    collapse sep (w ++ l) = w ++ collapse sep l := by
  induction w with
  | nil => rfl
  | cons a w ih =>
      have ha : a ≠ sep := fun h => hw (by simp [h])
      rw [List.cons_append, collapse_cons_of_ne ha, ih fun h => hw (by simp [h])]
      rfl

theorem collapse_closed {stack : List (List α)} (hstack : ∀ s ∈ stack, sep ∉ s) {w : List α}
    (hw : sep ∉ w) :
    collapse sep (closed sep stack ++ w) = closed sep (stack.filter (· ≠ [])) ++ w := by
  have head : ∀ v : List α, sep ∉ v → v ≠ [] → ∀ l,
      collapse sep (sep :: (v ++ l)) = sep :: (v ++ collapse sep l) := by
    intro v hv hne l
    obtain ⟨a, v, rfl⟩ := List.exists_cons_of_ne_nil hne
    have ha : a ≠ sep := fun h => hv (by simp [h])
    rw [List.cons_append, collapse, if_neg (by simp [ha]), ← List.cons_append,
      collapse_append hv]
  induction stack with
  | nil =>
      by_cases hne : w = []
      · simp [hne, closed, collapse]
      · simpa [closed, collapse] using head w hw hne []
  | cons s stack ih =>
      have hrest := ih fun t ht => hstack t (by simp [ht])
      by_cases hs : s = []
      · have hsplit : closed sep (s :: stack) ++ w =
            sep :: sep :: (stack.flatMap (· ++ [sep]) ++ w) := by simp [closed, hs]
        rw [hsplit, collapse, if_pos ⟨rfl, rfl⟩]
        simpa [closed, hs] using hrest
      · have hsplit : closed sep (s :: stack) ++ w =
            sep :: (s ++ (closed sep stack ++ w)) := by simp [closed]
        rw [hsplit, head s (hstack s (by simp)) hs, hrest]
        simp [closed, hs]

/-- Merging pops from a stack that is never the higher one. -/
theorem push_mono {stack stack' next : List (List α)} {w : List α}
    (hle : stack.length ≤ stack'.length) (h : push dot true stack w = some next) :
    ∃ next', push dot false stack' w = some next' ∧ next.length ≤ next'.length := by
  obtain rfl | rfl | hplain := segment_cases dot w
  · rw [push_dot] at h
    obtain rfl := Option.some.inj h
    exact ⟨stack', push_dot, hle⟩
  · rw [push_dotDot] at h
    split at h
    · simp at h
    · rename_i hs
      obtain rfl := Option.some.inj h
      have hpos : 0 < stack.length := List.length_pos_iff.mpr hs
      have hs' : stack' ≠ [] := List.length_pos_iff.mp (by omega)
      refine ⟨stack'.dropLast, by rw [push_dotDot, if_neg hs'], ?_⟩
      rw [List.length_dropLast, List.length_dropLast]
      omega
  · rw [push_plain hplain] at h
    obtain rfl := Option.some.inj h
    refine ⟨stack' ++ [w], by simp [push_plain hplain], ?_⟩
    split <;> simp only [List.length_append, List.length_cons, List.length_nil] <;> omega

theorem pushAll_mono {segs stack stack' next : List (List α)}
    (hle : stack.length ≤ stack'.length) (h : pushAll dot true stack segs = some next) :
    ∃ next', pushAll dot false stack' segs = some next' ∧ next.length ≤ next'.length := by
  induction segs generalizing stack stack' with
  | nil =>
      obtain rfl := Option.some.inj h
      exact ⟨stack', rfl, hle⟩
  | cons w segs ih =>
      rw [pushAll_cons, Option.bind_eq_some_iff] at h
      obtain ⟨mid, hp, hrest⟩ := h
      obtain ⟨mid', hp', hle'⟩ := push_mono hle hp
      obtain ⟨next', hnext, hle''⟩ := ih hle' hrest
      exact ⟨next', by rw [pushAll_cons, hp']; exact hnext, hle''⟩

/-- What resolves with separators merged resolves with separators kept. -/
theorem resolve_mono {segs out : List (List α)} (h : resolve dot true segs = some out) :
    ∃ out', resolve dot false segs = some out' := by
  rw [resolve, Option.bind_eq_some_iff] at h
  obtain ⟨stack, hall, hlast⟩ := h
  obtain ⟨stack', hall', hle⟩ := pushAll_mono (Nat.le_refl ([] : List (List α)).length) hall
  rw [resolve, hall', Option.bind_some]
  generalize segs.getLastD [] = w at hlast
  obtain rfl | rfl | hplain := segment_cases dot w
  · exact ⟨_, pushLast_dot⟩
  · rw [pushLast_dotDot] at hlast
    split at hlast
    · simp at hlast
    · rename_i hs
      have hpos : 0 < stack.length := List.length_pos_iff.mpr hs
      have hs' : stack' ≠ [] := List.length_pos_iff.mp (by omega)
      exact ⟨_, by rw [pushLast_dotDot, if_neg hs']⟩
  · exact ⟨_, pushLast_plain hplain⟩

/-- Without `..` both modes keep the same segments, up to the empty ones. -/
theorem pushAll_filter {segs : List (List α)} (hsegs : [dot, dot] ∉ segs)
    (stack : List (List α)) :
    ∃ next, pushAll dot false stack segs = some next ∧
      pushAll dot true (stack.filter (· ≠ [])) segs = some (next.filter (· ≠ [])) := by
  induction segs generalizing stack with
  | nil => exact ⟨stack, rfl, rfl⟩
  | cons w segs ih =>
      have hdd : w ≠ [dot, dot] := fun h => hsegs (by simp [h])
      have hrest : [dot, dot] ∉ segs := fun h => hsegs (by simp [h])
      by_cases hdot : w = [dot]
      · obtain ⟨next, h, h'⟩ := ih hrest stack
        exact ⟨next, by simpa [hdot, push_dot] using h, by simpa [hdot, push_dot] using h'⟩
      · obtain ⟨next, h, h'⟩ := ih hrest (stack ++ [w])
        refine ⟨next, by simpa [push_plain ⟨hdot, hdd⟩] using h, ?_⟩
        have hpush : push dot true (stack.filter (· ≠ [])) w =
            some ((stack ++ [w]).filter (· ≠ [])) := by
          rw [push_plain ⟨hdot, hdd⟩]
          by_cases hw : w = [] <;> simp [hw]
        rw [pushAll_cons, hpush]
        exact h'

theorem normalize_collapse (hsd : sep ≠ dot) {input : List α}
    (hdd : [dot, dot] ∉ input.splitOn sep) :
    ∃ out, normalizePath sep dot false (sep :: input) = some out ∧
      normalizePath sep dot true (sep :: input) = some (collapse sep out) := by
  have hne := List.splitOn_ne_nil sep input
  have hinit : [dot, dot] ∉ (input.splitOn sep).dropLast :=
    fun h => hdd (List.mem_of_mem_dropLast h)
  obtain ⟨stack, hall, hall'⟩ := pushAll_filter hinit []
  have hlast : (input.splitOn sep).getLastD [] = (input.splitOn sep).getLast hne := by
    rw [List.getLastD_eq_getLast?, List.getLast?_eq_some_getLast hne]
    rfl
  have hmem := List.getLast_mem hne
  have hplain : (input.splitOn sep).getLast hne ≠ [dot, dot] := fun h => hdd (h ▸ hmem)
  have hfree : ∀ s ∈ stack, sep ∉ s := pushAll_sep_free (by simp)
    (fun s hs => not_mem_of_mem_splitOn (List.mem_of_mem_dropLast hs)) hall
  have hlastFree := not_mem_of_mem_splitOn hmem
  have hnil : List.filter (fun s : List α => decide (s ≠ [])) [] = [] := rfl
  rw [hnil] at hall'
  rw [normalize_path hsd, normalize_path hsd, resolve, resolve, hall, hall', hlast]
  by_cases hdot : (input.splitOn sep).getLast hne = [dot]
  · refine ⟨closed sep stack ++ [], by simp [hdot, pushLast_dot, render_concat], ?_⟩
    rw [collapse_closed hfree (by simp)]
    simp [hdot, pushLast_dot, render_concat]
  · refine ⟨closed sep stack ++ (input.splitOn sep).getLast hne,
      by simp [pushLast_plain ⟨hdot, hplain⟩, render_concat], ?_⟩
    rw [collapse_closed hfree hlastFree]
    simp [pushLast_plain ⟨hdot, hplain⟩, render_concat]

/-- Without adjacent separators the mode does not matter. -/
theorem normalize_of_single (hsd : sep ≠ dot) {input : List α}
    (h : ¬ [sep, sep] <:+: sep :: input) :
    normalizePath sep dot true (sep :: input) = normalizePath sep dot false (sep :: input) := by
  have hne : input.splitOn sep ≠ [] := List.splitOn_ne_nil sep input
  have hform : sep :: input =
      closed sep (input.splitOn sep).dropLast ++ (input.splitOn sep).getLast hne := by
    rw [← render_concat, List.dropLast_concat_getLast, render, List.intercalate_splitOn]
  have hfree : ∀ s ∈ input.splitOn sep, sep ∉ s := fun s hs => not_mem_of_mem_splitOn hs
  rw [hform, double_sep_closed (fun s hs => hfree s (List.mem_of_mem_dropLast hs))
    (hfree _ (List.getLast_mem hne))] at h
  have hpush : ∀ (segs stack : List (List α)), [] ∉ segs →
      pushAll dot true stack segs = pushAll dot false stack segs := by
    intro segs
    induction segs with
    | nil => exact fun stack _ => by rw [pushAll_nil, pushAll_nil]
    | cons w segs ih =>
        intro stack hmem
        have hw : w ≠ [] := fun he => hmem (by simp [he])
        have hstep : push dot true stack w = push dot false stack w := by simp [push, hw]
        rw [pushAll_cons, pushAll_cons, hstep]
        cases push dot false stack w with
        | none => rfl
        | some next => exact ih next fun hm => hmem (by simp [hm])
  rw [normalize_path hsd, normalize_path hsd, resolve, resolve, hpush _ _ h]

/-- A separator after a path leads to the same state as a separator after the
path's normal form, unless kept separators see the empty segment that a last
`.` or `..` has left. -/
theorem feed_sep_normalized (hsd : sep ≠ dot) {input : List α} {c : Mode × List α}
    (hrun : run sep dot merge (.usual, []) (sep :: input) = some c) :
    (finish sep c = none → feed sep dot merge c sep = none) ∧
    ∀ out, finish sep c = some out →
      (merge = true ∨ (input.splitOn sep).getLastD [] ≠ [dot] ∧
        (input.splitOn sep).getLastD [] ≠ [dot, dot]) →
      ∃ c', run sep dot merge (.usual, []) out = some c' ∧
        feed sep dot merge c' sep = feed sep dot merge c sep := by
  obtain ⟨stack, rfl, hstack, hw⟩ := run_path_closed hsd hrun
  generalize (input.splitOn sep).getLastD [] = w at hw
  have hfree : ∀ s ∈ stack, sep ∉ s := fun s hs => (hstack s hs).sepFree
  rw [finish_segment stack hfree, feed_sep hsd stack hfree]
  have empty : ∀ segs : List (List α), (∀ s ∈ segs, Kept sep dot merge s) → merge = true →
      run sep dot merge (.usual, []) (closed sep segs) = some (.slash, closed sep segs) ∧
        feed sep dot merge (.slash, closed sep segs) sep = some (.slash, closed sep segs) := by
    intro segs hsegs hm
    have h := run_closed hsd hsegs (w := []) (by simp)
    exact ⟨by simpa [modeOf] using h, by simp [feed, hm]⟩
  obtain rfl | rfl | hplain := segment_cases dot w
  · rw [pushLast_dot, push_dot]
    refine ⟨by simp, fun out hout hm => ?_⟩
    obtain ⟨h, h'⟩ := empty stack hstack (hm.resolve_right fun h => h.1 rfl)
    obtain rfl : closed sep stack = out := by simpa [render_concat] using hout
    exact ⟨_, h, h'⟩
  · rw [pushLast_dotDot, push_dotDot]
    by_cases hs : stack = []
    · simp [hs]
    · simp only [hs, ite_false, Option.map_some]
      refine ⟨by simp, fun out hout hm => ?_⟩
      obtain ⟨h, h'⟩ := empty stack.dropLast
        (fun s hmem => hstack s (List.mem_of_mem_dropLast hmem))
        (hm.resolve_right fun h => h.2 rfl)
      obtain rfl : closed sep stack.dropLast = out := by simpa [render_concat] using hout
      exact ⟨_, h, h'⟩
  · rw [pushLast_plain hplain]
    refine ⟨by simp, fun out hout _ => ?_⟩
    obtain rfl : closed sep stack ++ w = out := by simpa [render_concat] using hout
    exact ⟨_, run_closed hsd hstack hw, feed_sep hsd stack hfree w⟩

end DotSegments
