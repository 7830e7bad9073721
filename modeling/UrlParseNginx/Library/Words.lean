import Mathlib.Data.Nat.Digits.Lemmas

/-!
Words of a fixed length over an alphabet, enumerated by counting. The digits of the numbers
below `base ^ k`, lowest first, run through all words of length `k`, and through each of them
once.
-/
namespace Words
universe u
variable {α : Type u} {letter : Nat → α} {base : Nat}

/-- The `k` lowest digits, lowest first. -/
def digits (base : Nat) : Nat → Nat → List Nat
  | 0, _ => []
  | k + 1, n => n % base :: digits base k (n / base)

def word (letter : Nat → α) (base k n : Nat) : List α := (digits base k n).map letter

theorem length_digits (k n : Nat) : (digits base k n).length = k := by
  induction k generalizing n with
  | zero => rfl
  | succ k ih => rw [digits, List.length_cons, ih]

theorem length_word (k n : Nat) : (word letter base k n).length = k := by
  rw [word, List.length_map, length_digits]

theorem digits_lt (hbase : 0 < base) {k n d : Nat} (h : d ∈ digits base k n) : d < base := by
  induction k generalizing n with
  | zero => cases h
  | succ k ih =>
      cases h with
      | head => exact Nat.mod_lt _ hbase
      | tail _ h => exact ih h

/-- The digits of a number below `base ^ k` determine it. -/
theorem ofDigits_digits {k n : Nat} (h : n < base ^ k) :
    Nat.ofDigits base (digits base k n) = n := by
  induction k generalizing n with
  | zero =>
      rw [Nat.pow_zero, Nat.lt_one_iff] at h
      simp [digits, h]
  | succ k ih =>
      have hdiv : n / base < base ^ k := Nat.div_lt_of_lt_mul (by rwa [← Nat.pow_succ'])
      rw [digits, Nat.ofDigits_cons, ih hdiv]
      exact Nat.mod_add_div n base

theorem digits_ofDigits {ds : List Nat} (h : ∀ d ∈ ds, d < base) :
    digits base ds.length (Nat.ofDigits base ds) = ds := by
  induction ds with
  | nil => rfl
  | cons d ds ih =>
      have hd : d < base := h d (by simp)
      rw [List.length_cons, digits, Nat.ofDigits_cons, Nat.add_mul_mod_self_left,
        Nat.mod_eq_of_lt hd, Nat.add_mul_div_left _ _ (Nat.zero_lt_of_lt hd),
        Nat.div_eq_of_lt hd, Nat.zero_add, ih fun e he => h e (List.mem_cons_of_mem _ he)]

theorem eq_of_map_eq (hletter : ∀ d < base, ∀ e < base, letter d = letter e → d = e)
    {ds es : List Nat} (hds : ∀ d ∈ ds, d < base) (hes : ∀ e ∈ es, e < base)
    (h : ds.map letter = es.map letter) : ds = es := by
  induction ds generalizing es with
  | nil => exact (List.map_eq_nil_iff.mp h.symm).symm
  | cons d ds ih =>
      obtain ⟨e, es, rfl, hhead, htail⟩ := List.map_eq_cons_iff.mp h.symm
      rw [hletter d (hds d (by simp)) e (hes e (by simp)) hhead.symm,
        ih (fun d hd => hds d (List.mem_cons_of_mem _ hd))
          (fun e he => hes e (List.mem_cons_of_mem _ he)) htail.symm]

theorem exists_digits {w : List α} (h : ∀ a ∈ w, ∃ d < base, letter d = a) :
    ∃ ds : List Nat, (∀ d ∈ ds, d < base) ∧ ds.map letter = w := by
  induction w with
  | nil => exact ⟨[], by simp, rfl⟩
  | cons a w ih =>
      obtain ⟨d, hd, rfl⟩ := h a (by simp)
      obtain ⟨ds, hds, rfl⟩ := ih fun b hb => h b (List.mem_cons_of_mem _ hb)
      exact ⟨d :: ds, by simpa using ⟨hd, hds⟩, rfl⟩

/-- Counting visits no word twice. -/
theorem nodup_words (hbase : 1 < base)
    (hletter : ∀ d < base, ∀ e < base, letter d = letter e → d = e) (k : Nat) :
    ((List.range (base ^ k)).map (word letter base k)).Nodup := by
  refine List.Nodup.map_on (fun n hn m hm heq => ?_) List.nodup_range
  have hpos : 0 < base := Nat.zero_lt_of_lt hbase
  have hdigits := eq_of_map_eq hletter (fun _ => digits_lt hpos) (fun _ => digits_lt hpos) heq
  rw [← ofDigits_digits (List.mem_range.mp hn), hdigits, ofDigits_digits (List.mem_range.mp hm)]

/-- Counting visits every word. -/
theorem mem_words (hbase : 1 < base) {k : Nat} {w : List α} :
    w ∈ (List.range (base ^ k)).map (word letter base k) ↔
      w.length = k ∧ ∀ a ∈ w, ∃ d < base, letter d = a := by
  constructor
  · intro h
    obtain ⟨n, _, rfl⟩ := List.mem_map.mp h
    refine ⟨length_word k n, fun a ha => ?_⟩
    obtain ⟨d, hd, rfl⟩ := List.mem_map.mp ha
    exact ⟨d, digits_lt (Nat.zero_lt_of_lt hbase) hd, rfl⟩
  · rintro ⟨rfl, hw⟩
    obtain ⟨ds, hds, rfl⟩ := exists_digits hw
    rw [List.length_map]
    refine List.mem_map.mpr ⟨Nat.ofDigits base ds, ?_, ?_⟩
    · exact List.mem_range.mpr (Nat.ofDigits_lt_base_pow_length hbase hds)
    · rw [word, digits_ofDigits hds]

end Words
