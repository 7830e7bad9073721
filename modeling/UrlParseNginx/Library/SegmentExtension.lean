import Mathlib.Data.List.DropRight
import UrlParseNginx.Library.DotSegments

/-!
The last segment of a path and where its extension starts. A dot opens an
extension unless the segment has so far been empty, `.` or `..`, that is, unless
it may still turn out to belong to a dot segment. The last such dot counts.
-/
namespace DotSegments
universe u
variable {α : Type u}

/-- A dot of `w ++ [b]` before its end is a dot of `w`. -/
theorem split_concat {dot b : α} {w front rest : List α} (h : w ++ [b] = front ++ dot :: rest) :
    (front = w ∧ b = dot ∧ rest = []) ∨ ∃ rest', rest = rest' ++ [b] ∧
      w = front ++ dot :: rest' := by
  obtain rfl | ⟨rest', last, rfl⟩ := List.eq_nil_or_concat' rest
  · obtain ⟨hfront, hb⟩ := List.append_inj' h rfl
    exact .inl ⟨hfront.symm, List.head_eq_of_cons_eq hb, rfl⟩
  · have h' : w ++ [b] = (front ++ dot :: rest') ++ [last] := by rw [h]; simp
    obtain ⟨hw, hb⟩ := List.append_inj' h' rfl
    exact .inr ⟨rest', by rw [List.head_eq_of_cons_eq hb], hw⟩

variable [DecidableEq α]

/-- What follows the last separator. -/
def lastSegment (sep : α) (path : List α) : List α := path.rtakeWhile (· ≠ sep)

theorem lastSegment_append {sep : α} {w : List α} (hw : sep ∉ w) (front : List α) :
    lastSegment sep (front ++ sep :: w) = w := by
  have hall : ∀ b ∈ w.reverse, decide (b ≠ sep) = true := by
    intro b hb
    have hne : b ≠ sep := fun h => hw (h ▸ List.mem_reverse.mp hb)
    exact decide_eq_true hne
  have htake : (w.reverse ++ sep :: front.reverse).takeWhile (fun b => decide (b ≠ sep)) =
      w.reverse := by
    rw [List.takeWhile_append_of_pos hall, List.takeWhile_cons_of_neg (by simp),
      List.append_nil]
  rw [lastSegment, List.rtakeWhile, List.reverse_append, List.reverse_cons, List.append_assoc,
    List.singleton_append, htake, List.reverse_reverse]

theorem lastSegment_closed {sep : α} {w : List α} (hw : sep ∉ w) (segs : List (List α)) :
    lastSegment sep (closed sep segs ++ w) = w := by
  obtain ⟨front, hfront⟩ := closed_last sep segs
  rw [hfront, List.append_assoc]
  exact lastSegment_append hw front

/-- What the mode says of the current segment. -/
theorem modeOf_cases (dot : α) (w : List α) :
    (w = [] ∧ modeOf dot w = .slash) ∨ (w = [dot] ∧ modeOf dot w = .dot) ∨
      (w = [dot, dot] ∧ modeOf dot w = .dotDot) ∨
      ((w ≠ [] ∧ w ≠ [dot] ∧ w ≠ [dot, dot]) ∧ modeOf dot w = .usual) := by
  by_cases hnil : w = []
  · exact .inl ⟨hnil, by simp [modeOf, hnil]⟩
  · by_cases hdot : w = [dot]
    · exact .inr (.inl ⟨hdot, by simp [modeOf, hdot]⟩)
    · by_cases hdd : w = [dot, dot]
      · exact .inr (.inr (.inl ⟨hdd, by simp [modeOf, hdd]⟩))
      · exact .inr (.inr (.inr ⟨⟨hnil, hdot, hdd⟩, by simp [modeOf, hnil, hdot, hdd]⟩))

theorem modeOf_eq_slash {dot : α} {w : List α} : modeOf dot w = .slash ↔ w = [] := by
  have h := modeOf_cases dot w
  grind

theorem modeOf_eq_dot {dot : α} {w : List α} : modeOf dot w = .dot ↔ w = [dot] := by
  have h := modeOf_cases dot w
  grind

theorem modeOf_eq_dotDot {dot : α} {w : List α} : modeOf dot w = .dotDot ↔ w = [dot, dot] := by
  have h := modeOf_cases dot w
  grind

theorem modeOf_eq_usual {dot : α} {w : List α} :
    modeOf dot w = .usual ↔ w ≠ [] ∧ w ≠ [dot] ∧ w ≠ [dot, dot] := by
  have h := modeOf_cases dot w
  grind

/-- A segment counts as an ordinary one once it is long enough or has a byte other than a
dot. -/
theorem modeOf_eq_usual_iff {dot : α} {w : List α} :
    modeOf dot w = .usual ↔ 3 ≤ w.length ∨ ∃ b ∈ w, b ≠ dot := by
  rw [modeOf_eq_usual]
  match w with
  | [] => simp
  | [x] => simp
  | [x, y] =>
      by_cases hx : x = dot
      · simp [hx]
      · simp [hx]
  | x :: y :: z :: w => simp

theorem modeOf_append {dot : α} {front : List α} (h : modeOf dot front = .usual)
    (rest : List α) : modeOf dot (front ++ rest) = .usual := by
  rw [modeOf_eq_usual_iff] at h ⊢
  cases h with
  | inl hlen =>
      refine .inl ?_
      rw [List.length_append]
      omega
  | inr hother =>
      obtain ⟨b, hb, hne⟩ := hother
      exact .inr ⟨b, List.mem_append_left rest hb, hne⟩

/-- `ext` is where the extension of the segment `w` starts, in a path where `w` starts at
`base`; `none` when no dot of `w` counts. -/
def ExtensionAt (dot : α) (base : Nat) (w : List α) : Option Nat → Prop
  | none => ∀ front rest, w = front ++ dot :: rest → modeOf dot front ≠ .usual
  | some e => ∃ front rest, w = front ++ dot :: rest ∧ dot ∉ rest ∧
      modeOf dot front = .usual ∧ e = base + front.length + 1

section
variable {dot : α} {base : Nat} {w : List α} {ext : Option Nat}

theorem extensionAt_nil : ExtensionAt dot base [] none := by
  intro front rest h
  simp at h

/-- No extension is open while the segment may still be a dot segment. -/
theorem ExtensionAt.eq_none (h : ExtensionAt dot base w ext) (hw : modeOf dot w ≠ .usual) :
    ext = none := by
  cases ext with
  | none => rfl
  | some e =>
      obtain ⟨front, rest, hsplit, _, hfront, _⟩ := h
      exact absurd (hsplit ▸ modeOf_append hfront (dot :: rest)) hw

/-- A byte that opens no extension leaves the open one where it is. -/
theorem ExtensionAt.concat {b : α} (h : ExtensionAt dot base w ext)
    (hb : b = dot → modeOf dot w ≠ .usual) : ExtensionAt dot base (w ++ [b]) ext := by
  cases ext with
  | none =>
      intro front rest hsplit
      obtain ⟨rfl, hdot, _⟩ | ⟨rest', _, hw⟩ := split_concat hsplit
      · exact hb hdot
      · exact h front rest' hw
  | some e =>
      obtain ⟨front, rest, hsplit, hrest, hfront, he⟩ := h
      have hne : dot ≠ b := by
        intro hdot
        exact hb hdot.symm (hsplit ▸ modeOf_append hfront (dot :: rest))
      refine ⟨front, rest ++ [b], ?_, ?_, hfront, he⟩
      · rw [hsplit]
        simp
      · simp [hrest, hne]

theorem extensionAt_dot (hw : modeOf dot w = .usual) :
    ExtensionAt dot base (w ++ [dot]) (some (base + w.length + 1)) :=
  ⟨w, [], rfl, List.not_mem_nil, hw, rfl⟩

/-- A dot counts by its index and the bytes up to it. -/
theorem exists_split_iff : (∃ front rest, w = front ++ dot :: rest ∧ modeOf dot front = .usual) ↔
    ∃ i, w[i]? = some dot ∧ (3 ≤ i ∨ ∃ b ∈ w.take (i + 1), b ≠ dot) := by
  constructor
  · intro h
    obtain ⟨front, rest, rfl, hfront⟩ := h
    refine ⟨front.length, by simp, ?_⟩
    rw [modeOf_eq_usual_iff] at hfront
    refine hfront.imp_right fun ⟨b, hb, hne⟩ => ⟨b, ?_, hne⟩
    rw [List.take_append, List.mem_append]
    exact .inl (by rwa [List.take_of_length_le (Nat.le_succ _)])
  · intro h
    obtain ⟨i, hi, hcounts⟩ := h
    obtain ⟨hlt, hget⟩ := List.getElem?_eq_some_iff.mp hi
    have htake : w.take (i + 1) = w.take i ++ [dot] := by
      rw [List.take_succ_eq_append_getElem hlt, hget]
    refine ⟨w.take i, w.drop (i + 1), ?_, modeOf_eq_usual_iff.mpr ?_⟩
    · rw [← hget, ← List.drop_eq_getElem_cons hlt, List.take_append_drop]
    · rw [htake] at hcounts
      rw [List.length_take, Nat.min_eq_left (Nat.le_of_lt hlt)]
      refine hcounts.imp_right fun ⟨b, hb, hne⟩ => ⟨b, ?_, hne⟩
      exact (List.mem_append.mp hb).resolve_right fun h => hne (List.mem_singleton.mp h)

/-- Does any dot of the segment count? -/
theorem ExtensionAt.ne_none_iff (h : ExtensionAt dot base w ext) :
    ext ≠ none ↔ ∃ i, w[i]? = some dot ∧ (3 ≤ i ∨ ∃ b ∈ w.take (i + 1), b ≠ dot) := by
  rw [← exists_split_iff]
  cases ext with
  | none =>
      refine iff_of_false (fun hne => hne rfl) ?_
      intro hsplit
      obtain ⟨front, rest, hw, hfront⟩ := hsplit
      exact h front rest hw hfront
  | some e =>
      obtain ⟨front, rest, hw, _, hfront, _⟩ := h
      exact iff_of_true (Option.some_ne_none e) ⟨front, rest, hw, hfront⟩

/-- The extension in a path that the segment `w` ends: just after the last dot. -/
theorem ExtensionAt.position {before : List α} {e : Nat}
    (h : ExtensionAt dot before.length w (some e)) :
    1 ≤ e ∧ e ≤ (before ++ w).length ∧ (before ++ w)[e - 1]? = some dot ∧
      dot ∉ (before ++ w).drop e ∧ ∀ b ∈ (before ++ w).drop e, b ∈ w := by
  obtain ⟨front, rest, rfl, hrest, _, rfl⟩ := h
  have hsplit : before ++ (front ++ dot :: rest) = (before ++ front ++ [dot]) ++ rest := by simp
  have hlength : (before ++ front ++ [dot]).length = before.length + front.length + 1 := by
    rw [List.length_append, List.length_append, List.length_singleton]
  have hdrop : (before ++ (front ++ dot :: rest)).drop (before.length + front.length + 1) =
      rest := by
    rw [hsplit, ← hlength, List.drop_left]
  refine ⟨Nat.succ_pos _, ?_, ?_, ?_, ?_⟩
  · rw [hsplit, List.length_append, hlength]
    exact Nat.le_add_right _ _
  · rw [Nat.add_sub_cancel, ← List.append_assoc, ← List.length_append]
    simp
  · rwa [hdrop]
  · intro b hb
    rw [hdrop] at hb
    simp [hb]

end

/-- Finishing a path keeps the last segment, or leaves an empty one for a dot segment. -/
theorem finish_shape {sep dot : α} {segs : List (List α)} (hsegs : ∀ s ∈ segs, sep ∉ s)
    {w path : List α} (h : finish sep (modeOf dot w, closed sep segs ++ w) = some path) :
    path = closed sep segs ++ w ∨
      (modeOf dot w ≠ .usual ∧ ∃ segs', path = closed sep segs' ++ []) := by
  rw [finish_segment segs hsegs] at h
  obtain rfl | rfl | hplain := segment_cases dot w
  · rw [pushLast_dot, Option.map_some, render_concat, Option.some.injEq] at h
    exact .inr ⟨by simp [modeOf], segs, h.symm⟩
  · rw [pushLast_dotDot] at h
    split at h
    · cases h
    · rw [Option.map_some, render_concat, Option.some.injEq] at h
      exact .inr ⟨by simp [modeOf], segs.dropLast, h.symm⟩
  · rw [pushLast_plain hplain, Option.map_some, render_concat, Option.some.injEq] at h
    exact .inl h.symm

end DotSegments
