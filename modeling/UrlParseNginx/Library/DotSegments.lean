import Mathlib.Data.List.Basic
import Mathlib.Data.List.Infix
import UrlParseNginx.Library.Buffer

/-!
Dot-segment resolution over an arbitrary alphabet with a separator and a dot.

`resolve` says what a path means: its segments are pushed on a stack, `.` is
dropped, `..` pops, and an empty segment is dropped when separators are merged.
`feed` is a streaming normalizer that never splits the path: it writes an output
and remembers how much of a dot segment it has just written. `run_finish` states
that the two agree on every path.
-/
namespace DotSegments
universe u
variable {α : Type u}

/-- What the streaming normalizer has written since the last separator: nothing,
`.`, `..`, or anything else. -/
inductive Mode where
  | usual
  | slash
  | dot
  | dotDot
  deriving DecidableEq

/-- The path with the given segments. -/
def render (sep : α) (segs : List (List α)) : List α := sep :: [sep].intercalate segs

/-- The path written so far when each of `segs` has been closed by a separator. -/
def closed (sep : α) (segs : List (List α)) : List α :=
  sep :: segs.flatMap (· ++ [sep])

theorem closed_concat (sep : α) (segs : List (List α)) (seg : List α) :
    closed sep (segs ++ [seg]) = closed sep segs ++ seg ++ [sep] := by
  simp [closed, List.flatMap_append]

theorem closed_last (sep : α) (segs : List (List α)) :
    ∃ front, closed sep segs = front ++ [sep] := by
  obtain rfl | ⟨segs, seg, rfl⟩ := List.eq_nil_or_concat' segs
  · exact ⟨[], rfl⟩
  · exact ⟨_, closed_concat sep segs seg⟩

theorem render_concat (sep : α) (segs : List (List α)) (w : List α) :
    render sep (segs ++ [w]) = closed sep segs ++ w := by
  induction segs with
  | nil => simp [render, closed]
  | cons s segs ih =>
      have hne : segs ++ [w] ≠ [] := by simp
      simp only [render, closed, List.cons_append, List.cons.injEq, true_and] at ih ⊢
      rw [List.intercalate_cons_of_ne_nil hne, List.flatMap_cons]
      simp only [List.append_assoc, List.singleton_append]
      rw [ih, List.cons_append]

variable [DecidableEq α]

/-- A segment that is not the last one acts on the stack of kept segments. -/
def push (dot : α) (merge : Bool) (stack : List (List α)) (seg : List α) :
    Option (List (List α)) :=
  if seg = [dot] then some stack
  else if seg = [dot, dot] then (if stack = [] then none else some stack.dropLast)
  else if seg = [] ∧ merge = true then some stack
  else some (stack ++ [seg])

/-- The last segment: `.` and `..` leave an empty segment behind. -/
def pushLast (dot : α) (stack : List (List α)) (seg : List α) : Option (List (List α)) :=
  if seg = [dot] then some (stack ++ [[]])
  else if seg = [dot, dot] then (if stack = [] then none else some (stack.dropLast ++ [[]]))
  else some (stack ++ [seg])

section Push
variable {dot : α} {merge : Bool} {stack : List (List α)}

theorem push_dot : push dot merge stack [dot] = some stack := by simp [push]

theorem push_dotDot :
    push dot merge stack [dot, dot] = if stack = [] then none else some stack.dropLast := by
  simp [push]

theorem push_plain {w : List α} (h : w ≠ [dot] ∧ w ≠ [dot, dot]) :
    push dot merge stack w =
      some (if w = [] ∧ merge = true then stack else stack ++ [w]) := by
  by_cases hw : w = [] ∧ merge = true <;> simp [push, h, hw]

theorem pushLast_dot : pushLast dot stack [dot] = some (stack ++ [[]]) := by simp [pushLast]

theorem pushLast_dotDot :
    pushLast dot stack [dot, dot] =
      if stack = [] then none else some (stack.dropLast ++ [[]]) := by
  simp [pushLast]

theorem pushLast_plain {w : List α} (h : w ≠ [dot] ∧ w ≠ [dot, dot]) :
    pushLast dot stack w = some (stack ++ [w]) := by
  simp [pushLast, h]

theorem segment_cases (dot : α) (w : List α) :
    w = [dot] ∨ w = [dot, dot] ∨ (w ≠ [dot] ∧ w ≠ [dot, dot]) := by
  by_cases hdot : w = [dot]
  · exact .inl hdot
  · by_cases hdd : w = [dot, dot]
    · exact .inr (.inl hdd)
    · exact .inr (.inr ⟨hdot, hdd⟩)

/-- What holds of the kept segments and of a plain new one survives a push. -/
theorem push_forall {P : List α → Prop} {stack' : List (List α)} {w : List α}
    (hstack : ∀ s ∈ stack, P s)
    (hw : w ≠ [dot] ∧ w ≠ [dot, dot] → (merge = true → w ≠ []) → P w)
    (h : push dot merge stack w = some stack') : ∀ s ∈ stack', P s := by
  obtain rfl | rfl | hplain := segment_cases dot w
  · rw [push_dot] at h
    obtain rfl := Option.some.inj h
    exact hstack
  · rw [push_dotDot] at h
    split at h
    · simp at h
    · obtain rfl := Option.some.inj h
      exact fun s hs => hstack s (List.mem_of_mem_dropLast hs)
  · rw [push_plain hplain] at h
    obtain rfl := Option.some.inj h
    split
    · exact hstack
    · rename_i hempty
      refine List.forall_mem_append.mpr ⟨hstack, ?_⟩
      intro s hs
      obtain rfl := List.mem_singleton.mp hs
      exact hw hplain fun hm he => hempty ⟨he, hm⟩

end Push

/-- Every segment but the last is pushed, in order. -/
def pushAll (dot : α) (merge : Bool) (stack segs : List (List α)) : Option (List (List α)) :=
  segs.foldlM (push dot merge) stack

def resolve (dot : α) (merge : Bool) (segs : List (List α)) : Option (List (List α)) :=
  (pushAll dot merge [] segs.dropLast).bind fun stack => pushLast dot stack (segs.getLastD [])

/-- Drop the `sep dot dot` just written and go back to just after the separator
before it. -/
def popOutput (sep : α) (out : List α) : Option (List α) :=
  (Buffer.rposition (· == sep) (out.take (out.length - 3))).map fun i => out.take (i + 1)

def feed (sep dot : α) (merge : Bool) : Mode × List α → α → Option (Mode × List α)
  | (.usual, out), b =>
      if b = sep then some (.slash, out ++ [b]) else some (.usual, out ++ [b])
  | (.slash, out), b =>
      if b = sep then some (.slash, if merge then out else out ++ [b])
      else if b = dot then some (.dot, out ++ [b])
      else some (.usual, out ++ [b])
  | (.dot, out), b =>
      if b = sep then some (.slash, out.dropLast)
      else if b = dot then some (.dotDot, out ++ [b])
      else some (.usual, out ++ [b])
  | (.dotDot, out), b =>
      if b = sep then (popOutput sep out).map fun out' => (.slash, out')
      else some (.usual, out ++ [b])

def finish (sep : α) : Mode × List α → Option (List α)
  | (.dot, out) => some out.dropLast
  | (.dotDot, out) => popOutput sep out
  | (.usual, out) | (.slash, out) => some out

/-- Feed a whole input. -/
def run (sep dot : α) (merge : Bool) (c : Mode × List α) (input : List α) :
    Option (Mode × List α) :=
  input.foldlM (feed sep dot merge) c

/-- Normalize a path from scratch. -/
def normalizePath (sep dot : α) (merge : Bool) (input : List α) : Option (List α) :=
  (run sep dot merge (.usual, []) input).bind (finish sep)

section Streaming
variable {sep dot : α} {merge : Bool}

theorem run_nil (c : Mode × List α) : run sep dot merge c [] = some c := rfl

@[simp] theorem run_cons (c : Mode × List α) (b : α) (input : List α) :
    run sep dot merge c (b :: input) =
      (feed sep dot merge c b).bind fun c' => run sep dot merge c' input := rfl

theorem run_append (c : Mode × List α) (input rest : List α) :
    run sep dot merge c (input ++ rest) =
      (run sep dot merge c input).bind fun c' => run sep dot merge c' rest := by
  simp [run, List.foldlM_append]

/-- The mode that goes with a current segment `w`. -/
def modeOf (dot : α) (w : List α) : Mode :=
  if w = [] then .slash
  else if w = [dot] then .dot
  else if w = [dot, dot] then .dotDot
  else .usual

/-- Popping goes back over exactly the last closed segment. -/
theorem popOutput_closed (dot : α) (segs : List (List α)) (hsegs : ∀ s ∈ segs, sep ∉ s) :
    popOutput sep (closed sep segs ++ [dot, dot]) =
      if segs = [] then none else some (closed sep segs.dropLast) := by
  obtain rfl | ⟨segs, seg, rfl⟩ := List.eq_nil_or_concat' segs
  · simp [popOutput, closed, Buffer.rposition]
  · have hseg : ∀ x ∈ seg, (x == sep) = false := by
      intro x hx
      simpa using fun h : x = sep => hsegs seg (by simp) (h ▸ hx)
    have hout : closed sep (segs ++ [seg]) ++ [dot, dot] =
        (closed sep segs ++ seg) ++ [sep, dot, dot] := by
      rw [closed_concat]; simp
    have hlen : (closed sep segs ++ seg ++ [sep, dot, dot]).length - 3 =
        (closed sep segs ++ seg).length := by
      simp only [List.length_append, List.length_cons, List.length_nil]
      omega
    obtain ⟨front, hfront⟩ := closed_last sep segs
    have hpos : Buffer.rposition (· == sep) (front ++ sep :: seg) = some front.length :=
      Buffer.rposition_append_cons front seg (by simp) hseg
    rw [hout, popOutput, hlen, List.take_left, hfront]
    simp [hpos, hfront, List.take_append]

/-- A byte of the current segment only extends it. -/
theorem feed_segment (hsd : sep ≠ dot) (segs : List (List α)) (w : List α) {b : α}
    (hb : b ≠ sep) :
    feed sep dot merge (modeOf dot w, closed sep segs ++ w) b =
      some (modeOf dot (w ++ [b]), closed sep segs ++ (w ++ [b])) := by
  match w with
  | [] => by_cases hd : b = dot <;> simp [modeOf, feed, hb, hd, Ne.symm hsd]
  | [x] =>
      by_cases hx : x = dot <;> by_cases hd : b = dot <;>
        simp [modeOf, feed, hb, hd, hx, Ne.symm hsd]
  | [x, y] =>
      by_cases hx : x = dot <;> by_cases hy : y = dot <;> simp [modeOf, feed, hb, hx, hy]
  | x :: y :: z :: w => simp [modeOf, feed, hb]

/-- A separator closes the current segment the way `push` says. -/
theorem feed_sep (hsd : sep ≠ dot) (segs : List (List α)) (hsegs : ∀ s ∈ segs, sep ∉ s)
    (w : List α) :
    feed sep dot merge (modeOf dot w, closed sep segs ++ w) sep =
      (push dot merge segs w).map fun segs' => (Mode.slash, closed sep segs') := by
  match w with
  | [] => cases merge <;> simp [modeOf, feed, push, closed]
  | [x] =>
      by_cases hx : x = dot
      · simp [modeOf, feed, push, hx]
      · simp [modeOf, feed, push, hx, closed_concat]
  | [x, y] =>
      by_cases hxy : x = dot ∧ y = dot
      · obtain ⟨rfl, rfl⟩ := hxy
        have hpop := popOutput_closed y segs hsegs
        by_cases hs : segs = [] <;> simp only [hs, ite_true, ite_false] at hpop <;>
          simp [modeOf, feed, push, hs, hpop]
      · simp [modeOf, feed, push, hxy, closed_concat]
  | x :: y :: z :: w => simp [modeOf, feed, push, closed_concat]

theorem finish_segment (segs : List (List α)) (hsegs : ∀ s ∈ segs, sep ∉ s) (w : List α) :
    finish sep (modeOf dot w, closed sep segs ++ w) =
      (pushLast dot segs w).map (render sep) := by
  match w with
  | [] => simp [modeOf, finish, pushLast, render_concat]
  | [x] =>
      by_cases hx : x = dot <;> simp [modeOf, finish, pushLast, hx, render_concat]
  | [x, y] =>
      by_cases hxy : x = dot ∧ y = dot
      · obtain ⟨rfl, rfl⟩ := hxy
        have hpop := popOutput_closed y segs hsegs
        by_cases hs : segs = [] <;> simp only [hs, ite_true, ite_false] at hpop <;>
          simp [modeOf, finish, pushLast, hs, hpop, render_concat]
      · simp [modeOf, finish, pushLast, hxy, render_concat]
  | x :: y :: z :: w => simp [modeOf, finish, pushLast, render_concat]

theorem pushAll_nil (stack : List (List α)) : pushAll dot merge stack [] = some stack := rfl

@[simp] theorem pushAll_cons (stack : List (List α)) (seg : List α) (segs : List (List α)) :
    pushAll dot merge stack (seg :: segs) =
      (push dot merge stack seg).bind fun stack' => pushAll dot merge stack' segs := rfl

/-- The stack after a run of pushes holds nothing but what was pushed on it. -/
theorem pushAll_forall {P : List α → Prop} {segs stack stack' : List (List α)}
    (hstack : ∀ s ∈ stack, P s)
    (hsegs : ∀ w ∈ segs, w ≠ [dot] ∧ w ≠ [dot, dot] → (merge = true → w ≠ []) → P w)
    (h : pushAll dot merge stack segs = some stack') : ∀ s ∈ stack', P s := by
  induction segs generalizing stack with
  | nil =>
      obtain rfl := Option.some.inj h
      exact hstack
  | cons seg segs ih =>
      rw [pushAll_cons, Option.bind_eq_some_iff] at h
      obtain ⟨next, hp, hrest⟩ := h
      exact ih (push_forall hstack (hsegs seg (by simp)) hp)
        (fun w hw => hsegs w (by simp [hw])) hrest

theorem pushAll_sep_free {segs stack stack' : List (List α)}
    (hstack : ∀ s ∈ stack, sep ∉ s) (hsegs : ∀ s ∈ segs, sep ∉ s)
    (h : pushAll dot merge stack segs = some stack') : ∀ s ∈ stack', sep ∉ s :=
  pushAll_forall hstack (fun w hw _ _ => hsegs w hw) h

theorem not_mem_of_mem_splitOn {l s : List α} (h : s ∈ l.splitOn sep) : sep ∉ s := by
  induction l generalizing s with
  | nil => simp_all
  | cons a l ih =>
      rw [List.splitOn_cons_eq_if_modifyHead] at h
      by_cases ha : a = sep
      · simp only [ha, beq_self_eq_true, ite_true, List.mem_cons] at h
        cases h with
        | inl h => simp [h]
        | inr h => exact ih h
      · obtain ⟨first, rest, hsplit⟩ := List.exists_cons_of_ne_nil (List.splitOn_ne_nil sep l)
        simp only [beq_iff_eq, ha, ite_false, hsplit, List.modifyHead_cons, List.mem_cons] at h
        cases h with
        | inl h =>
            have hfirst := ih (s := first) (by simp [hsplit])
            simp [h, hfirst, Ne.symm ha]
        | inr h => exact ih (by simp [hsplit, h])

/-- Running from inside the segment `w` pushes the segments that `w` and the
input make up together, and stops inside the last of them. -/
theorem run_from (merge : Bool) (hsd : sep ≠ dot) (input : List α) (stack : List (List α))
    (hstack : ∀ s ∈ stack, sep ∉ s) (w : List α) (hw : sep ∉ w) :
    run sep dot merge (modeOf dot w, closed sep stack ++ w) input =
      (pushAll dot merge stack ((w ++ input).splitOn sep).dropLast).map fun stack' =>
        let last := ((w ++ input).splitOn sep).getLastD []
        (modeOf dot last, closed sep stack' ++ last) := by
  induction input generalizing stack w with
  | nil => simp [run_nil, pushAll_nil, List.splitOn_eq_singleton hw]
  | cons b input ih =>
      rw [run_cons]
      by_cases hb : b = sep
      · subst hb
        obtain ⟨next, rest, hsplit⟩ := List.exists_cons_of_ne_nil (List.splitOn_ne_nil b input)
        rw [feed_sep hsd stack hstack w, List.splitOn_append_cons_self_of_not_mem hw]
        cases hp : push dot merge stack w with
        | none => simp [hsplit, hp]
        | some stack' =>
            have h := ih stack' (push_forall hstack (fun _ _ => hw) hp) [] (by simp)
            simpa [modeOf, hsplit, hp] using h
      · rw [feed_segment hsd stack w hb, Option.bind_some,
          ih stack hstack (w ++ [b]) (by simp [hw, Ne.symm hb])]
        simp

theorem run_path (merge : Bool) (hsd : sep ≠ dot) (input : List α) :
    run sep dot merge (.usual, []) (sep :: input) =
      (pushAll dot merge [] (input.splitOn sep).dropLast).map fun stack =>
        let last := (input.splitOn sep).getLastD []
        (modeOf dot last, closed sep stack ++ last) := by
  have h := run_from merge hsd input [] (by simp) [] (by simp)
  simpa [feed, modeOf, closed] using h

/-- The streaming normalizer computes the meaning of every path. -/
theorem normalize_path (hsd : sep ≠ dot) (input : List α) :
    normalizePath sep dot merge (sep :: input) =
      (resolve dot merge (input.splitOn sep)).map (render sep) := by
  rw [normalizePath, run_path merge hsd, resolve]
  cases hp : pushAll dot merge [] (input.splitOn sep).dropLast with
  | none => rfl
  | some stack =>
      have hstack : ∀ s ∈ stack, sep ∉ s := pushAll_sep_free (by simp)
        (fun s hs => not_mem_of_mem_splitOn (List.mem_of_mem_dropLast hs)) hp
      simpa using finish_segment stack hstack _

end Streaming
end DotSegments
