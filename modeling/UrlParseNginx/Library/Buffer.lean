import Mathlib.Data.List.Basic
import Mathlib.Data.List.Induction
import Mathlib.Data.List.Infix

/-!
Byte buffers written and searched through a cursor. A buffer is a list of fixed
length; the part before the cursor is what has been written so far.
-/
namespace Buffer
universe u
variable {α : Type u}

/-- The index of the last element satisfying `p`. -/
def rposition (p : α → Bool) : List α → Option Nat
  | [] => none
  | a :: l =>
      match rposition p l with
      | some i => some (i + 1)
      | none => if p a then some 0 else none

theorem rposition_eq_none {p : α → Bool} {l : List α} :
    rposition p l = none ↔ ∀ a ∈ l, p a = false := by
  induction l with
  | nil => simp [rposition]
  | cons a l ih =>
      cases h : rposition p l with
      | some i =>
          have : ¬ ∀ a ∈ l, p a = false := fun hl => by simp [ih.mpr hl] at h
          simp [rposition, h, this]
      | none =>
          have := ih.mp h
          cases ha : p a with
          | true => simp [rposition, h, ha]
          | false => simpa [rposition, h, ha] using this

/-- The last hit splits the list: what follows it has no further hit. -/
theorem rposition_append_cons {p : α → Bool} {a : α} (l r : List α) (ha : p a = true)
    (hr : ∀ x ∈ r, p x = false) : rposition p (l ++ a :: r) = some l.length := by
  induction l with
  | nil => simp [rposition, rposition_eq_none.mpr hr, ha]
  | cons b l ih => simp [rposition, ih]

theorem rposition_lt {p : α → Bool} {l : List α} {i : Nat} (h : rposition p l = some i) :
    i < l.length := by
  induction l generalizing i with
  | nil => simp [rposition] at h
  | cons a l ih =>
      cases hl : rposition p l with
      | some j =>
          obtain rfl : j + 1 = i := by simpa [rposition, hl] using h
          exact Nat.succ_lt_succ (ih hl)
      | none =>
          cases ha : p a with
          | false => simp [rposition, hl, ha] at h
          | true =>
              obtain rfl : 0 = i := by simpa [rposition, hl, ha] using h
              exact Nat.succ_pos _

/-- One more element at the end is looked at first. -/
theorem rposition_concat {p : α → Bool} (l : List α) (a : α) :
    rposition p (l ++ [a]) = if p a then some l.length else rposition p l := by
  induction l with
  | nil => cases ha : p a <;> simp [rposition, ha]
  | cons b l ih =>
      cases ha : p a with
      | true => simp [rposition, ih, ha]
      | false =>
          simp only [ha, Bool.false_eq_true, ite_false] at ih ⊢
          simp [rposition, ih]

theorem rposition_take_succ {p : α → Bool} {l : List α} {i : Nat} (hi : i < l.length) :
    rposition p (l.take (i + 1)) =
      if p l[i] then some i else rposition p (l.take i) := by
  rw [List.take_succ_eq_append_getElem hi, rposition_concat, List.length_take,
    Nat.min_eq_left (Nat.le_of_lt hi)]

/-- How many elements a search looks at until it has its hit. -/
def stepsToHit (p : α → Bool) : List α → Nat
  | [] => 0
  | a :: l => if p a then 1 else stepsToHit p l + 1

/-- How many elements `rposition` looks at: it starts from the end. -/
def examined (p : α → Bool) (l : List α) : Nat := stepsToHit p l.reverse

theorem examined_concat {p : α → Bool} (l : List α) (a : α) :
    examined p (l ++ [a]) = if p a then 1 else examined p l + 1 := by
  simp [examined, stepsToHit]

theorem examined_le {p : α → Bool} (l : List α) : examined p l ≤ l.length := by
  induction l using List.reverseRecOn with
  | nil => exact Nat.le_refl 0
  | append_singleton l a ih =>
      rw [examined_concat, List.length_append, List.length_singleton]
      split <;> omega

/-- A hit is found after the elements from it on. -/
theorem examined_of_hit {p : α → Bool} {l : List α} {i : Nat} (h : rposition p l = some i) :
    examined p l + i = l.length := by
  induction l using List.reverseRecOn with
  | nil => cases h
  | append_singleton l a ih =>
      rw [rposition_concat] at h
      rw [examined_concat, List.length_append, List.length_singleton]
      cases ha : p a with
      | true =>
          obtain rfl : l.length = i := by simpa [ha] using h
          simp [Nat.add_comm]
      | false =>
          have hl := ih (by simpa [ha] using h)
          simp only [Bool.false_eq_true, ite_false]
          omega

/-- Writing at the cursor and moving it on appends to what has been written. -/
theorem take_set_succ {l : List α} {i : Nat} (a : α) (hi : i < l.length) :
    (l.set i a).take (i + 1) = l.take i ++ [a] := by
  rw [List.take_succ_eq_append_getElem (by simpa using hi)]
  rw [List.getElem_set_self, List.take_set, List.set_eq_of_length_le]
  rw [List.length_take]
  exact Nat.min_le_left _ _

/-- `cs` written over `l` from index `i` on. -/
def overwrite (l : List α) (i : Nat) (cs : List α) : List α :=
  l.take i ++ (cs ++ l.drop (i + cs.length))

@[simp] theorem overwrite_nil (l : List α) (i : Nat) : overwrite l i [] = l := by
  simp [overwrite]

theorem overwrite_set {l : List α} {i : Nat} (a : α) (cs : List α) (hi : i < l.length) :
    overwrite (l.set i a) (i + 1) cs = overwrite l i (a :: cs) := by
  rw [overwrite, take_set_succ a hi, List.drop_set_of_lt (by omega), overwrite,
    List.length_cons, Nat.add_assoc, Nat.add_comm 1, List.append_assoc]
  rfl

/-- What has been written is read back. -/
theorem take_drop_overwrite {l : List α} {i : Nat} (hi : i ≤ l.length) (cs : List α) :
    ((overwrite l i cs).drop i).take cs.length = cs := by
  have hlength : (l.take i).length = i := by rw [List.length_take, Nat.min_eq_left hi]
  rw [overwrite, List.drop_append_of_le_length (Nat.le_of_eq hlength.symm),
    List.drop_of_length_le (Nat.le_of_eq hlength), List.nil_append]
  exact List.take_left

/-- Moving the cursor back by one drops the last written element. -/
theorem take_pred {l : List α} {i : Nat} (hi : i ≤ l.length) :
    l.take (i - 1) = (l.take i).dropLast := by
  rw [List.dropLast_eq_take, List.length_take, Nat.min_eq_left hi, List.take_take]
  congr 1
  omega

end Buffer
