import Mathlib.Logic.Function.Basic

/-!
# `TinyRedis.Lib.Ledger`: resources with exactly one owner

A resource is live from when it is acquired until it is released. `Ledger owns live` says that the
live resources are those that somebody owns, and that nobody else owns them: nothing leaks, and
nothing that has been released is still in use. An owner may own any number of resources.

The three things that can happen to a resource keep the ledger, if the new owners are read off the
new state as the lemmas say:

* `Ledger.acquire`: a resource that was not live gets an owner.
* `Ledger.transfer`: a resource goes from one owner to another. That is how a resource passes
  through the hands of a call.
* `Ledger.release`: a resource is released by its owner. Nobody else owned it, so nobody is left
  with it.

`Ledger.congr` is for a change of state that has nothing to do with the resources.
-/

set_option autoImplicit false

namespace TinyRedis.Lib

variable {O R : Type} {owns owns' : O → R → Prop} {live : R → Bool}

/-- The live resources are those that somebody owns, each of them once. -/
structure Ledger (owns : O → R → Prop) (live : R → Bool) : Prop where
  live_iff : ∀ r, live r = true ↔ ∃ o, owns o r
  unique : ∀ {o o' r}, owns o r → owns o' r → o = o'

namespace Ledger

/-- What somebody owns is live. -/
theorem live_of_owns (h : Ledger owns live) {o : O} {r : R} (ho : owns o r) : live r = true :=
  (h.live_iff r).mpr ⟨o, ho⟩

/-- Owners that are read off another state alike. -/
theorem congr (h : Ledger owns live) (howns : ∀ o r, owns' o r ↔ owns o r) : Ledger owns' live where
  live_iff r := by simp only [h.live_iff r, howns]
  unique ho ho' := h.unique ((howns _ _).mp ho) ((howns _ _).mp ho')

/-- A resource goes from one owner to another. -/
theorem transfer (h : Ledger owns live) {o₁ : O} {r : R} (ho : owns o₁ r) (o₂ : O)
    (howns : ∀ o r', owns' o r' ↔ owns o r' ∧ ¬ (o = o₁ ∧ r' = r) ∨ o = o₂ ∧ r' = r) :
    Ledger owns' live where
  live_iff r' := by
    rw [h.live_iff r']
    constructor
    · rintro ⟨o, ho'⟩
      by_cases hr : r' = r
      · exact ⟨o₂, (howns o₂ r').mpr (Or.inr ⟨rfl, hr⟩)⟩
      · exact ⟨o, (howns o r').mpr (Or.inl ⟨ho', fun heq => hr heq.2⟩)⟩
    · rintro ⟨o, ho'⟩
      rcases (howns o r').mp ho' with ⟨ho', -⟩ | ⟨-, rfl⟩
      · exact ⟨o, ho'⟩
      · exact ⟨o₁, ho⟩
  unique := by
    -- The old owner was the only one.
    have hnone : ∀ o, owns o r → ¬ (o = o₁ ∧ r = r) → False :=
      fun o ho' hne => hne ⟨h.unique ho' ho, rfl⟩
    intro o o' r' h₁ h₂
    rcases (howns o r').mp h₁ with ⟨h₁, hne₁⟩ | ⟨rfl, rfl⟩
    · rcases (howns o' r').mp h₂ with ⟨h₂, -⟩ | ⟨-, rfl⟩
      · exact h.unique h₁ h₂
      · exact (hnone o h₁ hne₁).elim
    · rcases (howns o' r').mp h₂ with ⟨h₂, hne₂⟩ | ⟨rfl, -⟩
      · exact (hnone o' h₂ hne₂).elim
      · rfl

variable [DecidableEq R]

/-- A resource that was not live is acquired. -/
theorem acquire (h : Ledger owns live) {r : R} (hr : live r = false) (o : O)
    (howns : ∀ o' r', owns' o' r' ↔ owns o' r' ∨ o' = o ∧ r' = r) :
    Ledger owns' (Function.update live r true) where
  live_iff r' := by
    simp only [howns]
    by_cases heq : r' = r
    · subst heq
      simp
    · simp [heq, h.live_iff r']
  unique := by
    -- Nobody owned it before, as it was not live.
    have hnone : ∀ o', ¬ owns o' r := by
      intro o' ho'
      rw [h.live_of_owns ho'] at hr
      cases hr
    intro o₁ o₂ r' h₁ h₂
    rcases (howns o₁ r').mp h₁ with h₁ | ⟨rfl, rfl⟩
    · rcases (howns o₂ r').mp h₂ with h₂ | ⟨-, rfl⟩
      · exact h.unique h₁ h₂
      · exact absurd h₁ (hnone o₁)
    · rcases (howns o₂ r').mp h₂ with h₂ | ⟨rfl, -⟩
      · exact absurd h₂ (hnone o₂)
      · rfl

/-- A resource is released by its owner. -/
theorem release (h : Ledger owns live) {o : O} {r : R} (ho : owns o r)
    (howns : ∀ o' r', owns' o' r' ↔ owns o' r' ∧ ¬ (o' = o ∧ r' = r)) :
    Ledger owns' (Function.update live r false) where
  live_iff r' := by
    by_cases heq : r' = r
    · subst heq
      rw [Function.update_self]
      -- Any owner that is left would have been a second one.
      refine ⟨nofun, fun ⟨o', ho'⟩ => ?_⟩
      obtain ⟨ho', hne⟩ := (howns o' r').mp ho'
      exact absurd ⟨h.unique ho' ho, rfl⟩ hne
    · simp [howns, heq, h.live_iff r']
  unique ho₁ ho₂ := h.unique ((howns _ _).mp ho₁).1 ((howns _ _).mp ho₂).1

end Ledger

end TinyRedis.Lib
