import UrlParseNginx.Fuzz.Harness
import UrlParseNginx.Library.Words

/-!
What the fuzzer tests. The two odometers visit every input of their family, and none twice,
although they change one buffer in place. The random phase goes through states of its
generator that are never zero, unless the seed is: then it draws the empty input each time.
-/
namespace UrlParseNginx
open Ascii

theorem printable_length : printable.length = 95 := by decide

theorem setDigits_eq {digit : Nat → UInt8} {shift : Nat → Nat} {letter : Nat → UInt8}
    {base : Nat} (hdigit : ∀ v, digit v = letter (v % base)) (hshift : ∀ v, shift v = v / base)
    (k v : Nat) (front : List UInt8) {rest : List UInt8} (hrest : rest.length = k) {i : Nat}
    (hfront : front.length = 1 + i) :
    setDigits digit shift k i v (front ++ rest) = front ++ Words.word letter base k v := by
  induction k generalizing v front rest i with
  | zero =>
      obtain rfl := List.length_eq_zero_iff.mp hrest
      rfl
  | succ k ih =>
      obtain ⟨b, rest, rfl⟩ := List.exists_cons_of_length_eq_add_one hrest
      have hset : (front ++ b :: rest).set (1 + i) (digit v) =
          (front ++ [digit v]) ++ rest := by
        rw [List.set_append_right _ _ (Nat.le_of_eq hfront), hfront, Nat.sub_self]
        simp
      rw [setDigits, hset, ih (shift v) (front ++ [digit v]) (by simpa using hrest)
        (by simp [hfront, Nat.add_assoc]), hdigit, hshift]
      simp [Words.word, Words.digits]

/-- A loop that writes over the whole suffix visits the suffixes that it writes. -/
theorem visited_eq {set : Nat → List UInt8 → List UInt8} {suffix : Nat → List UInt8} {k : Nat}
    (hset : ∀ n rest, rest.length = k → set n (slash :: rest) = slash :: suffix n)
    (hsuffix : ∀ n, (suffix n).length = k) (ns : List Nat) {rest : List UInt8}
    (hrest : rest.length = k) :
    visited set ns (slash :: rest) = ns.map fun n => slash :: suffix n := by
  induction ns generalizing rest with
  | nil => rfl
  | cons n ns ih => rw [visited, hset n rest hrest, ih (hsuffix n), List.map_cons]

theorem exhaustiveInputs_eq (k : Nat) :
    exhaustiveInputs k =
      ((List.range (256 ^ k)).map (Words.word UInt8.ofNat 256 k)).map (slash :: ·) := by
  have hset : ∀ n rest, rest.length = k →
      setSuffix k n (slash :: rest) = slash :: Words.word UInt8.ofNat 256 k n := by
    intro n rest hrest
    refine setDigits_eq (fun v => ?_) (fun v => ?_) k n [slash] hrest rfl
    · rw [show 0xff = 2 ^ 8 - 1 from rfl, Nat.and_two_pow_sub_one_eq_mod]
    · rw [Nat.shiftRight_eq_div_pow]
  rw [exhaustiveInputs, Nat.add_comm, List.replicate_succ,
    visited_eq hset (Words.length_word k) _ List.length_replicate, List.map_map]
  rfl

theorem printableInputs_eq :
    printableInputs = ((List.range (95 ^ 4)).map
      (Words.word (fun d => printable.getD d 0) 95 4)).map (slash :: ·) := by
  have hset : ∀ n rest, rest.length = 4 → setPrintable n (slash :: rest) =
      slash :: Words.word (fun d => printable.getD d 0) 95 4 n := by
    intro n rest hrest
    refine setDigits_eq (fun v => ?_) (fun v => ?_) 4 n [slash] hrest rfl
    · rw [printable_length]
    · rw [printable_length]
  rw [printableInputs, printable_length, Nat.add_comm, List.replicate_succ,
    visited_eq hset (Words.length_word 4) _ List.length_replicate, List.map_map]
  rfl

theorem nodup_slash {words : List (List UInt8)} (h : words.Nodup) :
    (words.map (slash :: ·)).Nodup :=
  h.map fun _ _ heq => (List.cons.inj heq).2

theorem mem_slash {words : List (List UInt8)} {input : List UInt8} :
    input ∈ words.map (slash :: ·) ↔ ∃ suffix, input = slash :: suffix ∧ suffix ∈ words := by
  rw [List.mem_map]
  constructor
  · rintro ⟨suffix, hmem, rfl⟩
    exact ⟨suffix, rfl, hmem⟩
  · rintro ⟨suffix, rfl, hmem⟩
    exact ⟨suffix, hmem, rfl⟩

theorem exists_byte (b : UInt8) : ∃ d < 256, UInt8.ofNat d = b :=
  ⟨b.toNat, b.toNat_lt, UInt8.ofNat_toNat⟩

theorem byte_digits : ∀ d < 256, ∀ e < 256, UInt8.ofNat d = UInt8.ofNat e → d = e := by
  intro d hd e he h
  have hnat := congrArg UInt8.toNat h
  simpa [Nat.mod_eq_of_lt hd, Nat.mod_eq_of_lt he] using hnat

theorem printable_getD {d : Nat} (hd : d < 95) : printable.getD d 0 = UInt8.ofNat (0x20 + d) := by
  simp [printable, List.getD_eq_getElem?_getD, hd]

theorem exists_printable (b : UInt8) :
    (∃ d < 95, printable.getD d 0 = b) ↔ 0x20 ≤ b ∧ b ≤ 0x7e := by
  constructor
  · rintro ⟨d, hd, rfl⟩
    rw [printable_getD hd]
    have hall : ∀ i : Fin 95, 0x20 ≤ UInt8.ofNat (0x20 + i) ∧ UInt8.ofNat (0x20 + i) ≤ 0x7e := by
      decide +kernel
    exact hall ⟨d, hd⟩
  · rintro ⟨hlow, hhigh⟩
    have hlow' : 0x20 ≤ b.toNat := hlow
    have hhigh' : b.toNat ≤ 0x7e := hhigh
    refine ⟨b.toNat - 0x20, by omega, ?_⟩
    rw [printable_getD (by omega), Nat.add_sub_cancel' hlow']
    exact UInt8.ofNat_toNat

theorem printable_digits :
    ∀ d < 95, ∀ e < 95, printable.getD d 0 = printable.getD e 0 → d = e := by
  intro d hd e he h
  rw [printable_getD hd, printable_getD he] at h
  have hsum := byte_digits (0x20 + d) (by omega) (0x20 + e) (by omega) h
  omega

/-- The exhaustive phases test each input of their family exactly once: a slash and any
`suffix_len` bytes, and a slash and any four bytes from `0x20` to `0x7e`. -/
theorem exhaustive_covers (suffixLen : Nat) :
    ((exhaustiveInputs suffixLen).Nodup ∧
      ∀ input, input ∈ exhaustiveInputs suffixLen ↔
        ∃ suffix, input = slash :: suffix ∧ suffix.length = suffixLen) ∧
    (printableInputs.Nodup ∧
      ∀ input, input ∈ printableInputs ↔
        ∃ suffix, input = slash :: suffix ∧ suffix.length = 4 ∧
          ∀ b ∈ suffix, 0x20 ≤ b ∧ b ≤ 0x7e) := by
  rw [exhaustiveInputs_eq, printableInputs_eq]
  refine ⟨⟨?_, fun input => ?_⟩, ?_, fun input => ?_⟩
  · exact nodup_slash (Words.nodup_words (by decide) byte_digits suffixLen)
  · rw [mem_slash]
    simp only [Words.mem_words (show 1 < 256 by decide), exists_byte, implies_true, and_true]
  · exact nodup_slash (Words.nodup_words (by decide) printable_digits 4)
  · rw [mem_slash]
    simp only [Words.mem_words (show 1 < 95 by decide), exists_printable]

/-- `x ^= x >> 12` and the like lose nothing. -/
theorem shiftRight_ne {x : UInt64} (hx : x ≠ 0) {k : UInt64} (hk : 0 < k.toNat % 64) :
    x ^^^ (x >>> k) ≠ 0 := by
  intro h
  have heq := congrArg UInt64.toNat (UInt64.xor_eq_zero_iff.mp h)
  rw [UInt64.toNat_shiftRight, Nat.shiftRight_eq_div_pow] at heq
  have hpos : 0 < x.toNat := Nat.pos_of_ne_zero fun hzero => hx (UInt64.toNat_inj.mp hzero)
  have hlt := Nat.div_lt_self hpos (Nat.one_lt_two_pow (Nat.ne_of_gt hk))
  omega

/-- `2 ^ 25 - 1` is odd, so multiplying by it modulo a power of two loses nothing. -/
theorem eq_zero_of_fixed {n : Nat} (h : n = n * 2 ^ 25 % 2 ^ 64) (hlt : n < 2 ^ 64) : n = 0 := by
  have hdiv : 2 ^ 64 ∣ n * (2 ^ 25 - 1) := by
    have hsplit := Nat.div_add_mod (n * 2 ^ 25) (2 ^ 64)
    rw [← h] at hsplit
    rw [Nat.mul_sub_one]
    exact ⟨n * 2 ^ 25 / 2 ^ 64, Nat.sub_eq_of_eq_add hsplit.symm⟩
  have hcoprime : Nat.Coprime (2 ^ 64) (2 ^ 25 - 1) := by decide
  exact Nat.eq_zero_of_dvd_of_lt (hcoprime.dvd_of_dvd_mul_right hdiv) hlt

theorem shiftLeft_ne {x : UInt64} (hx : x ≠ 0) : x ^^^ (x <<< 25) ≠ 0 := by
  intro h
  have heq := congrArg UInt64.toNat (UInt64.xor_eq_zero_iff.mp h)
  have hshift : (25 : UInt64).toNat % 64 = 25 := by decide
  rw [UInt64.toNat_shiftLeft, hshift, Nat.shiftLeft_eq] at heq
  exact hx (UInt64.toNat_inj.mp (eq_zero_of_fixed heq x.toNat_lt))

theorem xorshift_ne_zero {x : UInt64} (hx : x ≠ 0) : xorshift x ≠ 0 :=
  shiftRight_ne (shiftLeft_ne (shiftRight_ne hx (by decide))) (by decide)

/-- The tests that iterations of the random phase draw, one after the other. -/
inductive Draws : Rng → List (List UInt8 × Bool) → Rng → Prop
  | nil {rng : Rng} : Draws rng [] rng
  | cons {rng rng' last : Rng} {test : List UInt8 × Bool} {tests : List (List UInt8 × Bool)}
      (drawn : genTest rng = .ok (test, rng')) (rest : Draws rng' tests last) :
      Draws rng (test :: tests) last

theorem genTest_zero : genTest { state := 0 } = .ok (([], true), { state := 0 }) := by
  decide

theorem draws_ok {P : UInt64 → Prop} (hsteady : Steady P) (iterations : Nat) (rng : Rng)
    (hrng : P rng.state) :
    ∃ tests last, Draws rng tests last ∧ tests.length = iterations ∧
      (∀ test ∈ tests, test.1.length ≤ 32 ∧ ∀ b ∈ test.1, b ∈ ALPHABET) ∧ P last.state := by
  induction iterations generalizing rng with
  | zero => exact ⟨[], rng, .nil, rfl, by simp, hrng⟩
  | succ iterations ih =>
      obtain ⟨input, mergeSlashes, rng', drawn, hlength, hall, hstate⟩ :=
        genTest_ok rng hsteady hrng
      obtain ⟨tests, last, rest, hcount, htests, hlast⟩ := ih rng' hstate
      refine ⟨(input, mergeSlashes) :: tests, last, .cons drawn rest, by simp [hcount], ?_, hlast⟩
      exact List.forall_mem_cons.mpr ⟨⟨hlength, hall⟩, htests⟩

theorem draws_zero {tests : List (List UInt8 × Bool)} {rng last : Rng} (h : Draws rng tests last)
    (hrng : rng = { state := 0 }) : ∀ test ∈ tests, test = ([], true) := by
  induction h with
  | nil => simp
  | cons drawn rest ih =>
      subst hrng
      rw [genTest_zero] at drawn
      obtain ⟨rfl, rfl⟩ := Prod.mk.inj (Except.ok.inj drawn)
      simpa using ih rfl

/-- The random phase draws as many tests as it is asked for, strings of at most 32 bytes of
the alphabet. A generator that is not seeded with zero never gets there; one that is draws the
empty input in every iteration. -/
theorem random_draws (seed : UInt64) (iterations : Nat) :
    ∃ tests last, Draws { state := seed } tests last ∧ tests.length = iterations ∧
      (∀ test ∈ tests, test.1.length ≤ 32 ∧ ∀ b ∈ test.1, b ∈ ALPHABET) ∧
      (seed ≠ 0 → last.state ≠ 0) ∧
      (seed = 0 → ∀ test ∈ tests, test = ([], true)) := by
  by_cases hseed : seed = 0
  · obtain ⟨tests, last, hdraws, hcount, htests, _⟩ :=
      draws_ok steady_true iterations ⟨seed⟩ trivial
    exact ⟨tests, last, hdraws, hcount, htests, fun h => absurd hseed h,
      fun _ => draws_zero hdraws (by rw [hseed])⟩
  · obtain ⟨tests, last, hdraws, hcount, htests, hlast⟩ :=
      draws_ok (P := (· ≠ 0)) (fun _ => xorshift_ne_zero) iterations ⟨seed⟩ hseed
    exact ⟨tests, last, hdraws, hcount, htests, fun _ => hlast, fun h => absurd h hseed⟩

end UrlParseNginx
