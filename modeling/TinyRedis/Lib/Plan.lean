import Mathlib.Data.List.Basic

/-!
# `TinyRedis.Lib.Plan`: programs of calls, apart from what answers them

A plan makes calls one after another, and may choose the next call by the answers so far. The same
plan runs on every machine that answers its calls: on a partial one (`runM`), where an undefined
call leaves the plan undefined, and on a total one (`run`), the specification.

Two relations say what is known of a plan before it is run:

* `All`: which calls it may make, whatever the answers are.
* `Agree`: that it makes the same calls as another plan and comes to the same result, as long as the
  answers are of a kind that the machine gives. A program and what it is meant to compute are two
  such plans.

What every call keeps the plan keeps: an invariant of a partial machine (`runM_rule`), a relation to
its specification under which answers are equal (`runM_eq_of_sim`, or `runM_runs_of_sim` where the
specification leaves a choice), or a relation between two of its states under which they are
(`runM_pair`). The specification may run another plan, if the two agree.
-/

set_option autoImplicit false

namespace TinyRedis.Lib

/-- A program of calls `ι` that are answered with `ο`. -/
inductive Plan (ι ο α : Type) where
  | ret (a : α)
  | call (i : ι) (next : ο → Plan ι ο α)

namespace Plan

variable {ι ο α β σ τ : Type}

/-- What is made of the result. -/
def map (f : α → β) : Plan ι ο α → Plan ι ο β
  | .ret a => .ret (f a)
  | .call i next => .call i fun o => (next o).map f

/-- The plan on a partial machine. -/
def runM (step : σ → ι → Option (ο × σ)) : Plan ι ο α → σ → Option (α × σ)
  | .ret a, s => some (a, s)
  | .call i next, s => (step s i).bind fun r => (next r.1).runM step r.2

/-- The plan on a total machine. -/
def run (step : τ → ι → ο × τ) : Plan ι ο α → τ → α × τ
  | .ret a, t => (a, t)
  | .call i next, t => (next (step t i).1).run step (step t i).2

/-- The plan on a specification that leaves a choice: what it may come to. -/
def Runs (step : τ → ι → ο → τ → Prop) : Plan ι ο α → τ → α → τ → Prop
  | .ret a, t, a', t' => a' = a ∧ t' = t
  | .call i next, t, a, t' => ∃ o t₁, step t i o t₁ ∧ (next o).Runs step t₁ a t'

/-- Every call that the plan can make is allowed. -/
def All (ok : ι → Prop) : Plan ι ο α → Prop
  | .ret _ => True
  | .call i next => ok i ∧ ∀ o, (next o).All ok

/-- Plans that make the same calls and come to the same, as long as the answers are good. -/
def Agree (good : ι → ο → Prop) : Plan ι ο α → Plan ι ο α → Prop
  | .ret a, .ret b => a = b
  | .call i next, .call j next' => i = j ∧ ∀ o, good i o → (next o).Agree good (next' o)
  | _, _ => False

/-- A plan agrees with itself. -/
theorem agree_refl (good : ι → ο → Prop) (p : Plan ι ο α) : p.Agree good p := by
  induction p with
  | ret a => rfl
  | call i next ih => exact ⟨rfl, fun o _ => ih o⟩

/-- The results of plans that agree may be changed alike. -/
theorem Agree.map {good : ι → ο → Prop} (f : α → β) {p q : Plan ι ο α} (h : p.Agree good q) :
    (p.map f).Agree good (q.map f) := by
  induction p generalizing q with
  | ret a =>
    cases q with
    | ret b => exact congrArg f h
    | call j next' => exact h.elim
  | call i next ih =>
    cases q with
    | ret b => exact h.elim
    | call j next' => exact ⟨h.1, fun o ho => ih o (h.2 o ho)⟩

/-- The calls of a plan do not depend on what is made of its result. -/
theorem all_map {ok : ι → Prop} (f : α → β) :
    ∀ {p : Plan ι ο α}, p.All ok → (p.map f).All ok
  | .ret _, _ => trivial
  | .call _ _, h => ⟨h.1, fun o => all_map f (h.2 o)⟩

/-- The plan runs as before, and its result is changed at the end. -/
theorem runM_map (step : σ → ι → Option (ο × σ)) (f : α → β) (p : Plan ι ο α) (s : σ) :
    (p.map f).runM step s = (p.runM step s).map fun r => (f r.1, r.2) := by
  induction p generalizing s with
  | ret a => rfl
  | call i next ih =>
    simp only [map, runM, ih]
    cases step s i <;> rfl

/-- A partial machine that follows a specification call by call follows it plan by plan. The
specification may run another plan, if the two agree on its answers. -/
theorem runM_eq_of_sim {stepM : σ → ι → Option (ο × σ)} {step : τ → ι → ο × τ} {ok : ι → Prop}
    {good : ι → ο → Prop} (R : σ → τ → Prop)
    (sim : ∀ s t i, R s t → ok i → ∃ s', stepM s i = some ((step t i).1, s') ∧
      good i (step t i).1 ∧ R s' (step t i).2)
    {p q : Plan ι ο α} (hp : p.All ok) (hpq : p.Agree good q) {s : σ} {t : τ} (start : R s t) :
    ∃ s', p.runM stepM s = some ((q.run step t).1, s') ∧ R s' (q.run step t).2 := by
  induction p generalizing q s t with
  | ret a =>
    cases q with
    | ret b =>
      obtain rfl : a = b := hpq
      exact ⟨s, rfl, start⟩
    | call j next' => exact hpq.elim
  | call i next ih =>
    cases q with
    | ret b => exact hpq.elim
    | call j next' =>
      obtain ⟨rfl, hnext⟩ := hpq
      obtain ⟨s₁, hs₁, hgood, hR₁⟩ := sim s t i start hp.1
      obtain ⟨s', hs', hR'⟩ := ih _ (hp.2 _) (hnext _ hgood) hR₁
      refine ⟨s', ?_, hR'⟩
      rw [runM, hs₁]
      exact hs'

/-- The same for a specification that leaves a choice. -/
theorem runM_runs_of_sim {stepM : σ → ι → Option (ο × σ)} {step : τ → ι → ο → τ → Prop}
    {ok : ι → Prop} {good : ι → ο → Prop} (R : σ → τ → Prop)
    (sim : ∀ s t i, R s t → ok i →
      ∃ o s' t', stepM s i = some (o, s') ∧ good i o ∧ step t i o t' ∧ R s' t')
    {p q : Plan ι ο α} (hp : p.All ok) (hpq : p.Agree good q) {s : σ} {t : τ} (start : R s t) :
    ∃ a s' t', p.runM stepM s = some (a, s') ∧ q.Runs step t a t' ∧ R s' t' := by
  induction p generalizing q s t with
  | ret a =>
    cases q with
    | ret b =>
      obtain rfl : a = b := hpq
      exact ⟨a, s, t, rfl, ⟨rfl, rfl⟩, start⟩
    | call j next' => exact hpq.elim
  | call i next ih =>
    cases q with
    | ret b => exact hpq.elim
    | call j next' =>
      obtain ⟨rfl, hnext⟩ := hpq
      obtain ⟨o, s₁, t₁, hs₁, hgood, ht₁, hR₁⟩ := sim s t i start hp.1
      obtain ⟨a, s', t', hs', ht', hR'⟩ := ih o (hp.2 o) (hnext o hgood) hR₁
      refine ⟨a, s', t', ?_, ⟨o, t₁, ht₁, ht'⟩, hR'⟩
      rw [runM, hs₁]
      exact hs'

/-- A partial machine on which every call is defined and keeps `I` does so for the plan. -/
theorem runM_rule {stepM : σ → ι → Option (ο × σ)} {ok : ι → Prop} (I : σ → Prop)
    (step : ∀ s i, I s → ok i → ∃ o s', stepM s i = some (o, s') ∧ I s')
    {p : Plan ι ο α} (hp : p.All ok) {s : σ} (start : I s) :
    ∃ a s', p.runM stepM s = some (a, s') ∧ I s' := by
  induction p generalizing s with
  | ret a => exact ⟨a, s, rfl, start⟩
  | call i next ih =>
    obtain ⟨o, s₁, hs₁, hI₁⟩ := step s i start hp.1
    obtain ⟨a, s', hs', hI'⟩ := ih o (hp.2 o) hI₁
    refine ⟨a, s', ?_, hI'⟩
    rw [runM, hs₁]
    exact hs'

/-- Two states of a partial machine from which calls are answered alike give plans alike
results. -/
theorem runM_pair {stepM : σ → ι → Option (ο × σ)} {ok : ι → Prop} (R : σ → σ → Prop)
    (sim : ∀ s t i, R s t → ok i →
      ∃ o s' t', stepM s i = some (o, s') ∧ stepM t i = some (o, t') ∧ R s' t')
    {p : Plan ι ο α} (hp : p.All ok) {s t : σ} (start : R s t) :
    ∃ a s' t', p.runM stepM s = some (a, s') ∧ p.runM stepM t = some (a, t') ∧ R s' t' := by
  induction p generalizing s t with
  | ret a => exact ⟨a, s, t, rfl, rfl, start⟩
  | call i next ih =>
    obtain ⟨o, s₁, t₁, hs₁, ht₁, hR₁⟩ := sim s t i start hp.1
    obtain ⟨a, s', t', hs', ht', hR'⟩ := ih o (hp.2 o) hR₁
    refine ⟨a, s', t', ?_, ?_, hR'⟩
    · rw [runM, hs₁]
      exact hs'
    · rw [runM, ht₁]
      exact ht'

end Plan

end TinyRedis.Lib
