import Mathlib.Data.List.Basic

/-!
# `TinyRedis.Lib.Run`: rules for runs

A run folds a partial step over a list of inputs, and `none` is a step that is undefined.

* `foldlM_rule` is its invariant rule: what the start satisfies and every step keeps holds at the
  end, and the run is defined. The invariant may speak of the inputs so far.
* `foldlM_invariant` is the same for a run known to be defined.
* `foldlM_mono` compares two runs, one of which is more often defined.

A machine answers every input with an output. `outputsM` runs a partial machine and `outputs` a
total one, the specification. `outputsM_eq_of_sim` is the forward simulation rule: where a relation
between the states survives every step with equal outputs, whole runs have equal outputs. The inputs
may be restricted by the state of the specification (`Allowed`).

A journal is a list that grows at its end. `Each` says something of every entry and the entries
before it; `each_concat` is the rule by which it is kept when the journal grows.
-/

set_option autoImplicit false

namespace TinyRedis.Lib

variable {σ β : Type}

/-- The rule of a partial fold. `I done s` is the invariant after the inputs `done`. -/
theorem foldlM_rule {f : σ → β → Option σ} (I : List β → σ → Prop) {l : List β}
    (step : ∀ done x rest s, l = done ++ x :: rest → I done s →
      ∃ s', f s x = some s' ∧ I (done ++ [x]) s')
    {s : σ} (start : I [] s) : ∃ s', l.foldlM f s = some s' ∧ I l s' := by
  -- Generalised over the inputs already consumed.
  have key : ∀ (rest done : List β) (s : σ), l = done ++ rest → I done s →
      ∃ s', rest.foldlM f s = some s' ∧ I l s' := by
    intro rest
    induction rest with
    | nil =>
      intro done s hl hI
      rw [List.append_nil] at hl
      exact ⟨s, rfl, hl ▸ hI⟩
    | cons x rest ih =>
      intro done s hl hI
      obtain ⟨s₁, hs₁, hI₁⟩ := step done x rest s hl hI
      obtain ⟨s', hs', hI'⟩ := ih (done ++ [x]) s₁ (by simp [hl]) hI₁
      refine ⟨s', ?_, hI'⟩
      rw [List.foldlM_cons, hs₁]
      exact hs'
  exact key l [] s rfl start

/-- The rule of a fold that is known to be defined: what every defined step keeps holds at the
end. -/
theorem foldlM_invariant {f : σ → β → Option σ} (I : σ → Prop) {l : List β}
    (step : ∀ s x s', x ∈ l → I s → f s x = some s' → I s') :
    ∀ {s s' : σ}, l.foldlM f s = some s' → I s → I s' := by
  induction l with
  | nil =>
    intro s s' hrun hI
    cases hrun
    exact hI
  | cons x l ih =>
    intro s s' hrun hI
    rw [List.foldlM_cons] at hrun
    obtain ⟨s₁, hs₁, hrest⟩ := Option.bind_eq_some_iff.mp hrun
    exact ih (fun s y s' hy => step s y s' (List.mem_cons_of_mem x hy)) hrest
      (step s x s₁ List.mem_cons_self hI hs₁)

/-- A fold by a step that is more often defined is more often defined. -/
theorem foldlM_mono {f g : σ → β → Option σ} (h : ∀ s x s', f s x = some s' → g s x = some s') :
    ∀ {l : List β} {s s' : σ}, l.foldlM f s = some s' → l.foldlM g s = some s' := by
  intro l
  induction l with
  | nil => exact id
  | cons x l ih =>
    intro s s' hrun
    rw [List.foldlM_cons] at hrun ⊢
    obtain ⟨s₁, hs₁, hrest⟩ := Option.bind_eq_some_iff.mp hrun
    exact Option.bind_eq_some_iff.mpr ⟨s₁, h s x s₁ hs₁, ih hrest⟩

/-! ### Machines -/

section Machine

variable {α ι ο : Type}

/-- The outputs of a partial machine, and its last state. -/
def outputsM (step : σ → ι → Option (ο × σ)) : σ → List ι → Option (List ο × σ)
  | s, [] => some ([], s)
  | s, i :: is => do
      let (o, s) ← step s i
      let (os, s) ← outputsM step s is
      return (o :: os, s)

/-- The outputs of a total machine, and its last state. -/
def outputs (step : α → ι → ο × α) : α → List ι → List ο × α
  | a, [] => ([], a)
  | a, i :: is =>
      let r := outputs step (step a i).2 is
      ((step a i).1 :: r.1, r.2)

/-- One more input. -/
theorem outputsM_concat {step : σ → ι → Option (ο × σ)} {is : List ι} {i : ι} {s s₁ s₂ : σ}
    {os : List ο} {o : ο} (hrun : outputsM step s is = some (os, s₁))
    (hstep : step s₁ i = some (o, s₂)) : outputsM step s (is ++ [i]) = some (os ++ [o], s₂) := by
  induction is generalizing s os with
  | nil =>
    cases hrun
    simp [outputsM, hstep]
  | cons j is ih =>
    simp only [outputsM, Option.bind_eq_bind, Option.bind_eq_some_iff] at hrun
    obtain ⟨⟨o₁, t⟩, hj, ⟨os₁, t₁⟩, hrest, hret⟩ := hrun
    cases hret
    simp [outputsM, hj, ih hrest]

/-- Every input of the run is allowed in the state that it meets. -/
def Allowed (step : α → ι → ο × α) (ok : α → ι → Prop) : α → List ι → Prop
  | _, [] => True
  | a, i :: is => ok a i ∧ Allowed step ok (step a i).2 is

/-- The specification can be run, so whether its inputs are allowed can be decided. -/
instance decidableAllowed (step : α → ι → ο × α) (ok : α → ι → Prop) [∀ a i, Decidable (ok a i)] :
    ∀ (a : α) (is : List ι), Decidable (Allowed step ok a is)
  | _, [] => isTrue trivial
  | a, i :: is =>
      have := decidableAllowed step ok (step a i).2 is
      inferInstanceAs (Decidable (ok a i ∧ _))

/-- A condition on the inputs alone. -/
theorem allowed_of_forall {step : α → ι → ο × α} {ok : ι → Prop} {is : List ι}
    (h : ∀ i ∈ is, ok i) (a : α) : Allowed step (fun _ => ok) a is := by
  induction is generalizing a with
  | nil => trivial
  | cons i is ih =>
    exact ⟨h i List.mem_cons_self, ih (fun j hj => h j (List.mem_cons_of_mem i hj)) _⟩

/-- The forward simulation rule. -/
theorem outputsM_eq_of_sim {stepM : σ → ι → Option (ο × σ)} {step : α → ι → ο × α}
    {ok : α → ι → Prop} (R : σ → α → Prop)
    (sim : ∀ s a i, R s a → ok a i → ∃ s', stepM s i = some ((step a i).1, s') ∧ R s' (step a i).2)
    {is : List ι} {s : σ} {a : α} (start : R s a) (allowed : Allowed step ok a is) :
    ∃ s', outputsM stepM s is = some ((outputs step a is).1, s') ∧
      R s' (outputs step a is).2 := by
  induction is generalizing s a with
  | nil => exact ⟨s, rfl, start⟩
  | cons i is ih =>
    obtain ⟨s₁, hs₁, hR₁⟩ := sim s a i start allowed.1
    obtain ⟨s', hs', hR'⟩ := ih hR₁ allowed.2
    exact ⟨s', by simp [outputsM, hs₁, hs', outputs], hR'⟩

end Machine

/-! ### Journals -/

section Journal

variable {α : Type}

/-- Every entry of the journal is `P` of the entries before it. -/
def Each (P : List α → α → Prop) (journal : List α) : Prop :=
  ∀ before e after, journal = before ++ e :: after → P before e

/-- Nothing is asked of the empty journal. -/
theorem each_nil (P : List α → α → Prop) : Each P [] := by
  intro before e after h
  cases before <;> cases h

/-- One more entry. -/
theorem each_concat {P : List α → α → Prop} {journal : List α} {e : α} :
    Each P (journal ++ [e]) ↔ Each P journal ∧ P journal e := by
  constructor
  · intro h
    refine ⟨fun before e' after heq => h before e' (after ++ [e]) ?_, h journal e [] rfl⟩
    rw [heq, List.append_assoc, List.cons_append]
  · rintro ⟨hall, hlast⟩ before e' after heq
    -- The entry is the last one, or was there before.
    rcases List.eq_nil_or_concat after with rfl | ⟨after', x, rfl⟩
    · obtain ⟨rfl, he⟩ := List.append_inj' heq rfl
      cases he
      exact hlast
    · rw [List.concat_eq_append, ← List.cons_append, ← List.append_assoc] at heq
      obtain ⟨rfl, -⟩ := List.append_inj' heq rfl
      exact hall before e' after' rfl

/-- One more element of a list that is mapped in part. -/
theorem filterMap_concat {β : Type} (f : α → Option β) (l : List α) (a : α) :
    (l ++ [a]).filterMap f = l.filterMap f ++ (f a).toList := by
  rw [List.filterMap_append]
  cases h : f a with
  | none =>
    rw [List.filterMap_cons_none h]
    rfl
  | some b =>
    rw [List.filterMap_cons_some h]
    rfl

end Journal

end TinyRedis.Lib
