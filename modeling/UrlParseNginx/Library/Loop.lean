import Mathlib.Logic.Basic

/-!
While loops whose body may fail, go on, or return out of the enclosing function.

A loop is a guard and a body. `run` executes it with a bounded number of
iterations; `Evals` is the same meaning without a bound and counts the
iterations, and `Reaches` names the states seen at the loop head. The rules are
the usual ones: an invariant carries over a run, a potential that every
iteration spends bounds their number, a budget that every iteration pays out of
bounds their cost, and two loops that step together give related results. A loop
that mirrors another until that one faults gives mirrored results.
-/
namespace WhileLoop
universe u v w
variable {σ σ' : Type u} {ρ ρ' : Type v} {ε ε' : Type w}

/-- The outcome of one execution of a loop body. -/
inductive Flow (σ : Type u) (ρ : Type v) where
  | next (s : σ)
  | ret (r : ρ)

def Flow.map (f : σ → σ') (g : ρ → ρ') : Flow σ ρ → Flow σ' ρ'
  | .next s => .next (f s)
  | .ret r => .ret (g r)

theorem ret_ne_next (r : ρ) (s : σ) : (.ok (.ret r) : Except ε (Flow σ ρ)) ≠ .ok (.next s) :=
  nofun

theorem error_ne_next (e : ε) (s : σ) : (.error e : Except ε (Flow σ ρ)) ≠ .ok (.next s) :=
  nofun

section
variable {α α' β β' : Type*} {fault : ε} {f : α → α'} {g : β → β'}

/-- `y` is the image of `x` under `f`, unless `x` is the fault. -/
def Mirrors (fault : ε) (f : α → α') (x : Except ε α) (y : Except ε α') : Prop :=
  x = .error fault ∨ y = x.map f

theorem Mirrors.ok (a : α) : Mirrors fault f (.ok a) (.ok (f a)) := .inr rfl

theorem Mirrors.error (e : ε) : Mirrors fault f (.error e) (.error e) := .inr rfl

theorem Mirrors.refl (x : Except ε α) : Mirrors fault id x x := by
  cases x with
  | error e => exact .error e
  | ok a => exact .ok a

theorem Mirrors.ite {c : Prop} [Decidable c] {x x' : Except ε α} {y y' : Except ε α'}
    (h : Mirrors fault f x y) (h' : Mirrors fault f x' y') :
    Mirrors fault f (if c then x else x') (if c then y else y') := by
  by_cases hc : c
  · rwa [if_pos hc, if_pos hc]
  · rwa [if_neg hc, if_neg hc]

theorem Mirrors.bind {x : Except ε α} {y : Except ε α'} {k : α → Except ε β}
    {k' : α' → Except ε β'} (h : Mirrors fault f x y)
    (hk : ∀ a, Mirrors fault g (k a) (k' (f a))) :
    Mirrors fault g (x.bind k) (y.bind k') := by
  cases h with
  | inl hfault =>
      rw [hfault]
      exact .inl rfl
  | inr himage =>
      rw [himage]
      cases x with
      | error e => exact .error e
      | ok a => exact hk a

theorem Mirrors.map {x : Except ε α} {y : Except ε α'} {k : α → β} {k' : α' → β'}
    (h : Mirrors fault f x y) (hk : ∀ a, k' (f a) = g (k a)) :
    Mirrors fault g (x.map k) (y.map k') := by
  cases h with
  | inl hfault =>
      rw [hfault]
      exact .inl rfl
  | inr himage =>
      rw [himage]
      cases x with
      | error e => exact .error e
      | ok a => exact .inr (congrArg Except.ok (hk a))

end

structure Loop (σ : Type u) (ρ : Type v) (ε : Type w) where
  guard : σ → Bool
  body : σ → Except ε (Flow σ ρ)

namespace Loop

/-- At most `fuel` iterations; `stuck` is raised when they do not suffice. A loop
left through its guard ends in `next` of the state it was left in. -/
def run (L : Loop σ ρ ε) (stuck : ε) : Nat → σ → Except ε (Flow σ ρ)
  | 0, s => if L.guard s then .error stuck else .ok (.next s)
  | fuel + 1, s =>
      if L.guard s then
        match L.body s with
        | .error e => .error e
        | .ok (.ret r) => .ok (.ret r)
        | .ok (.next s') => L.run stuck fuel s'
      else .ok (.next s)

/-- `Evals k s x`: from `s` the loop ends with outcome `x` after `k` iterations. -/
inductive Evals (L : Loop σ ρ ε) : Nat → σ → Except ε (Flow σ ρ) → Prop
  | leave {s} (guard : L.guard s = false) : Evals L 0 s (.ok (.next s))
  | error {s e} (guard : L.guard s = true) (body : L.body s = .error e) :
      Evals L 1 s (.error e)
  | ret {s r} (guard : L.guard s = true) (body : L.body s = .ok (.ret r)) :
      Evals L 1 s (.ok (.ret r))
  | step {k s s' x} (guard : L.guard s = true) (body : L.body s = .ok (.next s'))
      (rest : Evals L k s' x) : Evals L (k + 1) s x

/-- `Reaches k s t`: the loop head is in state `t` after `k` iterations from `s`. -/
inductive Reaches (L : Loop σ ρ ε) : Nat → σ → σ → Prop
  | refl {s} : Reaches L 0 s s
  | step {k s s' t} (guard : L.guard s = true) (body : L.body s = .ok (.next s'))
      (rest : Reaches L k s' t) : Reaches L (k + 1) s t

theorem run_of_evals {L : Loop σ ρ ε} {k : Nat} {s : σ} {x : Except ε (Flow σ ρ)}
    (h : L.Evals k s x) (stuck : ε) {fuel : Nat} (hk : k ≤ fuel) :
    L.run stuck fuel s = x := by
  induction h generalizing fuel with
  | leave guard => cases fuel <;> simp [run, guard]
  | error guard body | ret guard body =>
      obtain ⟨fuel, rfl⟩ : ∃ n, fuel = n + 1 := ⟨fuel - 1, by omega⟩
      simp [run, guard, body]
  | step guard body rest ih =>
      obtain ⟨fuel, rfl⟩ : ∃ n, fuel = n + 1 := ⟨fuel - 1, by omega⟩
      simp only [run, guard, body, ite_true]
      exact ih (by omega)

/-- A property kept by every iteration holds at every loop head. -/
theorem Reaches.invariant {L : Loop σ ρ ε} {I : σ → Prop}
    (keep : ∀ s s', I s → L.guard s = true → L.body s = .ok (.next s') → I s')
    {k : Nat} {s t : σ} (h : L.Reaches k s t) (hs : I s) : I t := by
  induction h with
  | refl => exact hs
  | step guard body _ ih => exact ih (keep _ _ hs guard body)

theorem Reaches.concat {L : Loop σ ρ ε} {n : Nat} {s t t' : σ} (h : L.Reaches n s t)
    (guard : L.guard t = true) (body : L.body t = .ok (.next t')) :
    L.Reaches (n + 1) s t' := by
  induction h with
  | refl => exact .step guard body .refl
  | step guard' body' _ ih => exact .step guard' body' (ih guard body)

theorem Reaches.le_of_left {L : Loop σ ρ ε} {n n' : Nat} {s t t' : σ} (h : L.Reaches n s t)
    (left : L.guard t = false) (h' : L.Reaches n' s t') : n' ≤ n := by
  induction h generalizing n' with
  | refl =>
      cases h' with
      | refl => exact Nat.le_refl 0
      | step guard' _ _ =>
          rw [left] at guard'
          cases guard'
  | step _ body _ ih =>
      cases h' with
      | refl => exact Nat.zero_le _
      | step _ body' rest' =>
          rw [body] at body'
          cases body'
          exact Nat.succ_le_succ (ih left rest')

/-- A loop ends at a loop head: where its guard fails, or where its body does not go on. -/
theorem Evals.last {L : Loop σ ρ ε} {k : Nat} {s : σ} {x : Except ε (Flow σ ρ)}
    (h : L.Evals k s x) :
    ∃ n t, L.Reaches n s t ∧
      ((L.guard t = false ∧ x = .ok (.next t)) ∨
        (L.guard t = true ∧ (∀ t', x ≠ .ok (.next t')) ∧ L.body t = x)) := by
  induction h with
  | leave guard => exact ⟨0, _, .refl, .inl ⟨guard, rfl⟩⟩
  | error guard body => exact ⟨0, _, .refl, .inr ⟨guard, fun t' => error_ne_next _ t', body⟩⟩
  | ret guard body => exact ⟨0, _, .refl, .inr ⟨guard, fun t' => ret_ne_next _ t', body⟩⟩
  | step guard body _ ih =>
      obtain ⟨n, t, hreach, hend⟩ := ih
      exact ⟨n + 1, t, .step guard body hreach, hend⟩

/-- A loop whose iterations all spend from a potential ends within the potential it starts
with. -/
theorem evals_of_potential {L : Loop σ ρ ε} {I : σ → Prop} (potential : σ → Nat)
    (funded : ∀ s, I s → L.guard s = true → 0 < potential s)
    (spend : ∀ s s', I s → L.guard s = true → L.body s = .ok (.next s') →
      I s' ∧ potential s' < potential s) {s : σ} (hs : I s) :
    ∃ k x, k ≤ potential s ∧ L.Evals k s x := by
  induction hn : potential s using Nat.strongRecOn generalizing s with
  | ind n ih =>
      subst hn
      cases guard : L.guard s with
      | false => exact ⟨0, _, Nat.zero_le _, .leave guard⟩
      | true =>
          match body : L.body s with
          | .error e => exact ⟨1, _, funded s hs guard, .error guard body⟩
          | .ok (.ret r) => exact ⟨1, _, funded s hs guard, .ret guard body⟩
          | .ok (.next s') =>
              obtain ⟨hs', hless⟩ := spend s s' hs guard body
              obtain ⟨k, x, hk, heval⟩ := ih _ hless hs' rfl
              exact ⟨k + 1, x, Nat.succ_le_of_lt (Nat.lt_of_le_of_lt hk hless),
                .step guard body heval⟩

/-- What a run costs when an iteration costs `cost` and leaving through the guard `final`. -/
def work (L : Loop σ ρ ε) (cost final : σ → Nat) : Nat → σ → Nat
  | 0, s => if L.guard s then 0 else final s
  | fuel + 1, s =>
      if L.guard s then
        cost s + match L.body s with
          | .ok (.next s') => L.work cost final fuel s'
          | .ok (.ret _) | .error _ => 0
      else final s

/-- A run costs no more than the budget it starts with when every iteration pays out of it,
the last one included. -/
theorem work_le {L : Loop σ ρ ε} {I : σ → Prop} {cost final : σ → Nat} (budget : σ → Nat)
    (pays : ∀ s s', I s → L.guard s = true → L.body s = .ok (.next s') →
      I s' ∧ cost s + budget s' ≤ budget s)
    (stops : ∀ s, I s → cost s ≤ budget s) (leaves : ∀ s, I s → final s ≤ budget s)
    (fuel : Nat) {s : σ} (hs : I s) : L.work cost final fuel s ≤ budget s := by
  induction fuel generalizing s with
  | zero =>
      rw [work]
      split
      · exact Nat.zero_le _
      · exact leaves s hs
  | succ fuel ih =>
      rw [work]
      cases guard : L.guard s with
      | false => exact leaves s hs
      | true =>
          rw [if_pos rfl]
          match body : L.body s with
          | .error e => exact stops s hs
          | .ok (.ret r) => exact stops s hs
          | .ok (.next s') =>
              obtain ⟨hs', hpays⟩ := pays s s' hs guard body
              exact Nat.le_trans (Nat.add_le_add_left (ih hs') _) hpays

/-- Two loops in lockstep: related states agree on the guard, and related bodies
either both go on in related states or both end with related outcomes. -/
theorem Evals.lockstep {L : Loop σ ρ ε} {L' : Loop σ' ρ' ε'} {R : σ → σ' → Prop}
    {Q : Except ε (Flow σ ρ) → Except ε' (Flow σ' ρ') → Prop}
    (guards : ∀ s t, R s t → L'.guard t = L.guard s)
    (bodies : ∀ s t, R s t → L.guard s = true →
      (∃ s' t', L.body s = .ok (.next s') ∧ L'.body t = .ok (.next t') ∧ R s' t') ∨
      ((∀ s', L.body s ≠ .ok (.next s')) ∧ (∀ t', L'.body t ≠ .ok (.next t')) ∧
        Q (L.body s) (L'.body t)))
    (leave : ∀ s t, R s t → L.guard s = false → Q (.ok (.next s)) (.ok (.next t)))
    {k : Nat} {s : σ} {t : σ'} {x : Except ε (Flow σ ρ)} (h : L.Evals k s x) (hst : R s t) :
    ∃ y, L'.Evals k t y ∧ Q x y := by
  induction h generalizing t with
  | leave guard =>
      exact ⟨_, .leave ((guards _ _ hst).trans guard), leave _ _ hst guard⟩
  | error guard body | ret guard body =>
      have guard' := (guards _ _ hst).trans guard
      rcases bodies _ _ hst guard with ⟨s', t', hs, _⟩ | ⟨_, ht, hq⟩
      · simp [body] at hs
      · rw [body] at hq
        match body' : L'.body t with
        | .error e => exact ⟨_, .error guard' body', by rwa [body'] at hq⟩
        | .ok (.ret r) => exact ⟨_, .ret guard' body', by rwa [body'] at hq⟩
        | .ok (.next t') => exact absurd body' (ht t')
  | step guard body rest ih =>
      rcases bodies _ _ hst guard with ⟨s', t', hs, ht, hr⟩ | ⟨hs, _, _⟩
      · obtain rfl : _ = _ := by simpa [body] using hs
        obtain ⟨y, hy, hq⟩ := ih hr
        exact ⟨y, .step ((guards _ _ hst).trans guard) ht hy, hq⟩
      · exact absurd body (hs _)

/-- A loop whose body mirrors that of another ends in the image of the other's outcome, unless
the other faults. -/
theorem run_mirrors {L : Loop σ ρ ε} {L' : Loop σ' ρ' ε} {f : σ → σ'} {g : ρ → ρ'} {fault : ε}
    (guards : ∀ s, L'.guard (f s) = L.guard s)
    (bodies : ∀ s, Mirrors fault (Flow.map f g) (L.body s) (L'.body (f s)))
    (stuck : ε) (fuel : Nat) (s : σ) :
    Mirrors fault (Flow.map f g) (L.run stuck fuel s) (L'.run stuck fuel (f s)) := by
  induction fuel generalizing s with
  | zero =>
      rw [run, run, guards]
      exact .ite (.error stuck) (.ok _)
  | succ fuel ih =>
      rw [run, run, guards]
      refine .ite ?_ (.ok _)
      cases bodies s with
      | inl hfault =>
          rw [hfault]
          exact .inl rfl
      | inr himage =>
          rw [himage]
          match L.body s with
          | .error e => exact .error e
          | .ok (.ret r) => exact .ok _
          | .ok (.next s') => exact ih s'

end Loop
end WhileLoop
