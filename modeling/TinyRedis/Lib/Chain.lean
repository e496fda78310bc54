import Mathlib.Data.List.Nodup

/-!
# `TinyRedis.Lib.Chain`: singly linked chains in a memory

A memory maps addresses to nodes, and `next` reads the link a node holds. `Chain mem next p l` says
that the links from `p` visit exactly the addresses `l`, in order, and then end.

* `Chain.unique`: a chain determines its list.
* `Chain.nodup`: so it never repeats an address.
* `Chain.congr` and `Chain.update`: it survives any write that keeps the links of its list.
* `Chain.push`, `Chain.pop` and `Chain.unlink`: what the three ways of changing a chain do to its
  list.

`walk` is the loop

    for (p = head; p != null;) { next = p->next; body(p); p = next; }

with a body that may stop it early. The body may write to the memory it walks, its own node
included, because the link is read first. `walk_rule` is the loop's rule: an invariant over the
addresses still to visit, kept by one round together with the rest of the chain, holds at the end.
The rule also gives that the loop ends within its fuel, as a chain has no address twice.
-/

set_option autoImplicit false

namespace TinyRedis.Lib

variable {α ν σ : Type}

/-- The links from `p` visit exactly the addresses `l`, in order, and then end. -/
def Chain (mem : α → Option ν) (next : ν → Option α) : Option α → List α → Prop
  | p, [] => p = none
  | p, q :: l => p = some q ∧ ∃ node, mem q = some node ∧ Chain mem next (next node) l

namespace Chain

variable {mem mem' : α → Option ν} {next : ν → Option α}

/-- Nothing is visited from the null pointer. -/
@[simp] theorem nil_iff {p : Option α} : Chain mem next p [] ↔ p = none := Iff.rfl

/-- The first address holds a node, and the rest is the chain of its link. -/
theorem cons_iff {p : Option α} {q : α} {l : List α} :
    Chain mem next p (q :: l) ↔
      p = some q ∧ ∃ node, mem q = some node ∧ Chain mem next (next node) l := Iff.rfl

/-- The null pointer heads the empty chain only. -/
@[simp] theorem none_iff {l : List α} : Chain mem next none l ↔ l = [] := by
  cases l with
  | nil => simp
  | cons q l => simp [cons_iff]

/-- A chain determines its list. -/
theorem unique {p : Option α} {l l' : List α} (h : Chain mem next p l)
    (h' : Chain mem next p l') : l = l' := by
  induction l generalizing p l' with
  | nil =>
    rw [nil_iff] at h
    subst h
    exact (none_iff.mp h').symm
  | cons q l ih =>
    obtain ⟨rfl, node, hnode, hrest⟩ := h
    cases l' with
    | nil => exact absurd h' (by simp)
    | cons q' l' =>
      obtain ⟨hq, node', hnode', hrest'⟩ := h'
      -- Both lists begin at the address that `p` is, and go on from the same node.
      cases hq
      rw [hnode] at hnode'
      cases hnode'
      rw [ih hrest hrest']

/-- Every address of a chain holds a node. -/
theorem isSome_of_mem {p : Option α} {l : List α} (h : Chain mem next p l) {q : α}
    (hq : q ∈ l) : (mem q).isSome := by
  induction l generalizing p with
  | nil => exact absurd hq (by simp)
  | cons r l ih =>
    obtain ⟨rfl, node, hnode, hrest⟩ := h
    rcases List.mem_cons.mp hq with rfl | hq
    · simp [hnode]
    · exact ih hrest hq

/-- The suffix of a chain after a prefix is the chain of its own head. -/
theorem drop_append {p : Option α} {l₁ l₂ : List α} (h : Chain mem next p (l₁ ++ l₂)) :
    ∃ r, Chain mem next r l₂ := by
  induction l₁ generalizing p with
  | nil => exact ⟨p, h⟩
  | cons q l₁ ih =>
    obtain ⟨-, node, -, hrest⟩ := h
    exact ih hrest

/-- A chain that ends visits no address twice: the suffixes at both visits would be the
same list, and one is longer. -/
theorem nodup {p : Option α} {l : List α} (h : Chain mem next p l) : l.Nodup := by
  induction l generalizing p with
  | nil => exact List.nodup_nil
  | cons q l ih =>
    obtain ⟨rfl, node, hnode, hrest⟩ := h
    refine List.nodup_cons.mpr ⟨fun hq => ?_, ih hrest⟩
    -- Split the rest at the second visit. The chain from there is the chain from the first.
    obtain ⟨l₁, l₂, rfl⟩ := List.append_of_mem hq
    obtain ⟨r, hr⟩ := drop_append hrest
    obtain ⟨-, node', hnode', hrest'⟩ := hr
    rw [hnode] at hnode'
    cases hnode'
    have hlen := congrArg List.length (unique hrest hrest')
    simp only [List.length_append, List.length_cons] at hlen
    omega

/-- A chain survives a change of memory that keeps the link of each of its nodes. -/
theorem congr {p : Option α} {l : List α} (h : Chain mem next p l)
    (hlink : ∀ q ∈ l, (mem' q).map next = (mem q).map next) : Chain mem' next p l := by
  induction l generalizing p with
  | nil => exact h
  | cons q l ih =>
    obtain ⟨rfl, node, hnode, hrest⟩ := h
    have hq := hlink q (by simp)
    rw [hnode] at hq
    obtain ⟨node', hnode', hnext⟩ := Option.map_eq_some_iff.mp hq
    refine ⟨rfl, node', hnode', ?_⟩
    rw [hnext]
    exact ih hrest fun r hr => hlink r (by simp [hr])

/-- A write outside a chain does not change it. -/
theorem update [DecidableEq α] {p : Option α} {l : List α} (h : Chain mem next p l) {q : α}
    (hq : q ∉ l) (node : Option ν) : Chain (Function.update mem q node) next p l := by
  refine h.congr fun r hr => ?_
  rw [Function.update_of_ne]
  rintro rfl
  exact hq hr

/-- A fresh node linked in front of a chain. -/
theorem push [DecidableEq α] {p : Option α} {l : List α} (h : Chain mem next p l) {q : α}
    (hq : q ∉ l) {node : ν} (hnext : next node = p) :
    Chain (Function.update mem q (some node)) next (some q) (q :: l) := by
  refine ⟨rfl, node, Function.update_self .., ?_⟩
  rw [hnext]
  exact h.update hq _

/-- Freeing the head leaves the rest of the chain. -/
theorem pop [DecidableEq α] {p : Option α} {q : α} {l : List α} {node : ν}
    (h : Chain mem next p (q :: l)) (hnode : mem q = some node) (x : Option ν) :
    Chain (Function.update mem q x) next (next node) l := by
  have hnd := h.nodup
  obtain ⟨-, node', hnode', hrest⟩ := h
  rw [hnode] at hnode'
  cases hnode'
  exact hrest.update (List.nodup_cons.mp hnd).1 x

/-- Unlinking an inner node `r`: its predecessor `q` takes over its link, then the node is
freed. -/
theorem unlink [DecidableEq α] {p : Option α} {l₁ l₂ : List α} {q r : α} {node node' : ν}
    (h : Chain mem next p (l₁ ++ q :: r :: l₂)) (hr : mem r = some node)
    (hnext : next node' = next node) (x : Option ν) :
    Chain (Function.update (Function.update mem q (some node')) r x) next p
      (l₁ ++ q :: l₂) := by
  induction l₁ generalizing p with
  | nil =>
    have hnd := h.nodup
    simp only [List.nil_append, List.nodup_cons, List.mem_cons, not_or] at hnd
    obtain ⟨⟨hqr, hq₂⟩, hr₂, -⟩ := hnd
    obtain ⟨rfl, node₁, -, hrest⟩ := h
    obtain ⟨-, node₂, hnode₂, hrest⟩ := hrest
    rw [hr] at hnode₂
    cases hnode₂
    refine ⟨rfl, node', ?_, ?_⟩
    · rw [Function.update_of_ne hqr, Function.update_self]
    · rw [hnext]
      -- The rest is behind both addresses, so neither write reaches it.
      exact (hrest.update hq₂ _).update hr₂ _
  | cons s l₁ ih =>
    have hnd := h.nodup
    rw [List.cons_append, List.nodup_cons] at hnd
    obtain ⟨rfl, node₁, hnode₁, hrest⟩ := h
    have hsr : s ≠ r := fun h => hnd.1 (by simp [h])
    have hsq : s ≠ q := fun h => hnd.1 (by simp [h])
    refine ⟨rfl, node₁, ?_, ih hrest⟩
    rw [Function.update_of_ne hsr, Function.update_of_ne hsq, hnode₁]

end Chain

/-! ### Walking a chain -/

/-- The loop over a chain, with at most `fuel` rounds. The body answers `done` to stop the
loop and `yield` to go on. The link is read before the body runs. -/
def walk (get : σ → α → Option ν) (next : ν → Option α)
    (body : α → ν → σ → Option (ForInStep σ)) : Nat → Option α → σ → Option σ
  | _, none, s => some s
  | 0, some _, _ => none
  | fuel + 1, some p, s => do
      let node ← get s p
      match ← body p node s with
      | .done s => some s
      | .yield s => walk get next body fuel (next node) s

/-- What a round of `walk` leaves: the postcondition when it stops, the invariant of the
rest and the rest of the chain when it goes on. -/
def WalkStep (get : σ → α → Option ν) (next : ν → Option α) (I : List α → σ → Prop)
    (Q : σ → Prop) (p : Option α) (todo : List α) : ForInStep σ → Prop
  | .done s => Q s
  | .yield s => I todo s ∧ Chain (get s) next p todo

/-- The rule of `walk`. `I todo s` is the invariant with `todo` still to visit. -/
theorem walk_rule {get : σ → α → Option ν} {next : ν → Option α}
    {body : α → ν → σ → Option (ForInStep σ)} (I : List α → σ → Prop) (Q : σ → Prop)
    (step : ∀ p todo s node, I (p :: todo) s → get s p = some node →
      Chain (get s) next (next node) todo → p ∉ todo →
      ∃ r, body p node s = some r ∧ WalkStep get next I Q (next node) todo r)
    (exit : ∀ s, I [] s → Q s) :
    ∀ (todo : List α) (fuel : Nat) (p : Option α) (s : σ), todo.length ≤ fuel →
      Chain (get s) next p todo → I todo s →
      ∃ s', walk get next body fuel p s = some s' ∧ Q s' := by
  intro todo
  induction todo with
  | nil =>
    intro fuel p s _ hchain hI
    rw [Chain.nil_iff] at hchain
    subst hchain
    exact ⟨s, by unfold walk; rfl, exit s hI⟩
  | cons q todo ih =>
    intro fuel p s hfuel hchain hI
    have hq := (List.nodup_cons.mp hchain.nodup).1
    obtain ⟨rfl, node, hnode, hrest⟩ := hchain
    obtain ⟨fuel, rfl⟩ : ∃ f, fuel = f + 1 :=
      Nat.exists_eq_succ_of_ne_zero (by simp only [List.length_cons] at hfuel; omega)
    obtain ⟨r, hr, hstep⟩ := step q todo s node hI hnode hrest hq
    -- One round: the node is read, and the body answers as `step` says.
    rw [walk, hnode]
    simp only [Option.bind_eq_bind, Option.bind_some, hr]
    cases r with
    | done s' => exact ⟨s', rfl, hstep⟩
    | yield s' =>
      exact ih fuel (next node) s' (by simp only [List.length_cons] at hfuel; omega)
        hstep.2 hstep.1

end TinyRedis.Lib
