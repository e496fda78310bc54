import Mathlib.Data.Finset.Card
import TinyRedis.Proofs.Table.Walks

/-!
# `TinyRedis.Proofs.Table.View`: the table as a dictionary

The store above the table sees it as a dictionary from keys to items. This module reads the
specifications of the table operations, which speak of blocks, as updates of `Table.view`, and shows
that `size` counts the keys of the dictionary.

* `view_congr`, `view_write`, `view_remove`, `view_empty`: what happens to the blocks, as it happens
  to the dictionary.
* `keys`, `mem_keys`, `card_keys`: the keys, and their number.
* `mem_keys_sdiff_iff`, `keys_sdiff_remove`: the keys that are gone, from the blocks that are.

A key is in one block only, so an update of a block is an update of its key and of no other.
-/

set_option autoImplicit false

namespace TinyRedis

variable [EntryPool]

namespace Table

variable {t t' : Table} {p : Ptr} {k : Bytes} {it : Item}

/-- The item of a block is the item of its key. -/
theorem Base.view_of_contents (h : t.Base) (hc : t.contents p = some (k, it)) :
    t.view k = some it :=
  (view_eq_some_iff h).mpr ⟨p, hc⟩

/-- Two tables that store the same items under `k` agree there. -/
theorem view_congr (h : t.Base) (h' : t'.Base)
    (heq : ∀ p it, t.contents p = some (k, it) ↔ t'.contents p = some (k, it)) :
    t.view k = t'.view k := by
  ext it
  rw [view_eq_some_iff h, view_eq_some_iff h']
  exact exists_congr fun p => heq p it

/-- A write of key `k` to a block that was free or held `k` writes the dictionary at `k`. -/
theorem view_write (h : t.Base) (h' : t'.Base)
    (hp : ∀ k' it', t.contents p = some (k', it') → k' = k)
    (hc : t'.contents = Function.update t.contents p (some (k, it))) :
    t'.view = Function.update t.view k (some it) := by
  funext q
  by_cases hq : q = k
  · subst hq
    rw [Function.update_self]
    exact h'.view_of_contents (p := p) (by rw [hc, Function.update_self])
  · rw [Function.update_of_ne hq]
    refine view_congr h' h fun p' it' => ?_
    rw [hc]
    by_cases hp' : p' = p
    · subst hp'
      rw [Function.update_self]
      constructor
      · intro heq
        cases heq
        exact absurd rfl hq
      · intro heq
        exact absurd (hp q it' heq) hq
    · rw [Function.update_of_ne hp']

/-- Emptying the block of key `k` removes `k` from the dictionary. -/
theorem view_remove (h : t.Base) (h' : t'.Base) (hp : t.contents p = some (k, it))
    (hc : t'.contents = Function.update t.contents p none) :
    t'.view = Function.update t.view k none := by
  funext q
  by_cases hq : q = k
  · subst hq
    rw [Function.update_self, view_eq_none_iff h']
    intro p' it' hc'
    rw [hc] at hc'
    by_cases hp' : p' = p
    · subst hp'
      simp at hc'
    · rw [Function.update_of_ne hp'] at hc'
      exact hp' (h.contents_inj hc' hp)
  · rw [Function.update_of_ne hq]
    refine view_congr h' h fun p' it' => ?_
    rw [hc]
    by_cases hp' : p' = p
    · subst hp'
      rw [Function.update_self, hp]
      simp [Ne.symm hq]
    · rw [Function.update_of_ne hp']

/-- A table that stores nothing new has no new key. -/
theorem isSome_view_of_contents (h : t.Base) (h' : t'.Base)
    (hsub : ∀ p ki, t'.contents p = some ki → t.contents p = some ki) (hk : (t'.view k).isSome) :
    (t.view k).isSome := by
  obtain ⟨it, hit⟩ := Option.isSome_iff_exists.mp hk
  obtain ⟨p, hc⟩ := (view_eq_some_iff h').mp hit
  rw [h.view_of_contents (hsub p _ hc)]
  rfl

/-- Without a block there is no key. -/
theorem view_empty (h : t.Base) (hc : ∀ p, t.contents p = none) : t.view = fun _ => none := by
  funext k
  rw [view_eq_none_iff h]
  intro p it
  simp [hc p]

/-! ### The keys -/

/-- The key stored in a block. -/
def keyAt (t : Table) (p : Ptr) : Bytes := ((t.contents p).map Prod.fst).getD []

/-- The keys of the dictionary. -/
def keys (t : Table) : Finset Bytes := (EntryPool.outstanding t.pool).image t.keyAt

/-- A key is counted when it is in the dictionary. -/
@[simp] theorem mem_keys (h : t.Base) {k : Bytes} : k ∈ t.keys ↔ (t.view k).isSome := by
  simp only [keys, Finset.mem_image, h.mem_outstanding_iff, Option.isSome_iff_exists,
    view_eq_some_iff h]
  constructor
  · rintro ⟨p, ⟨k', it, hc⟩, rfl⟩
    exact ⟨it, p, by simp [keyAt, hc]⟩
  · rintro ⟨it, p, hc⟩
    exact ⟨p, ⟨k, it, hc⟩, by simp [keyAt, hc]⟩

/-- `size` counts the keys. -/
theorem card_keys (h : t.Base) : t.keys.card = t.size := by
  rw [keys, Finset.card_image_of_injOn, size, h.count]
  intro p hp q hq heq
  obtain ⟨k, it, hc⟩ := h.mem_outstanding_iff.mp hp
  obtain ⟨k', it', hc'⟩ := h.mem_outstanding_iff.mp hq
  simp only [keyAt, hc, hc', Option.map_some, Option.getD_some] at heq
  subst heq
  exact h.contents_inj hc hc'

/-- The keys that leave are those of the blocks that are emptied. -/
theorem mem_keys_sdiff_iff {t' : Table} (h : t.Base) (h' : t'.Base) {gone : Ptr → Prop}
    [DecidablePred gone] (hc : ∀ p, t'.contents p = if gone p then none else t.contents p)
    {k : Bytes} : k ∈ t.keys \ t'.keys ↔ ∃ p it, gone p ∧ t.contents p = some (k, it) := by
  rw [Finset.mem_sdiff, mem_keys h, mem_keys h']
  constructor
  · rintro ⟨hk, hnot⟩
    obtain ⟨it, hit⟩ := Option.isSome_iff_exists.mp hk
    obtain ⟨p, hp⟩ := (view_eq_some_iff h).mp hit
    refine ⟨p, it, ?_, hp⟩
    -- A block that is kept still holds the key.
    by_contra hkept
    have hp' : t'.contents p = some (k, it) := by rw [hc, if_neg hkept, hp]
    rw [h'.view_of_contents hp'] at hnot
    exact hnot rfl
  · rintro ⟨p, it, hgone, hp⟩
    refine ⟨by rw [h.view_of_contents hp]; rfl, fun hk => ?_⟩
    obtain ⟨it', hit'⟩ := Option.isSome_iff_exists.mp hk
    obtain ⟨p', hp'⟩ := (view_eq_some_iff h').mp hit'
    rw [hc] at hp'
    split at hp'
    · cases hp'
    · next hkept =>
      rw [h.contents_inj hp' hp] at hkept
      exact hkept hgone

/-- Where one block is emptied, its key leaves. -/
theorem keys_sdiff_remove {t' : Table} (h : t.Base) (h' : t'.Base) {q : Ptr} {k : Bytes} {it : Item}
    (hc : t.contents q = some (k, it)) (hc' : t'.contents = Function.update t.contents q none) :
    t.keys \ t'.keys = {k} := by
  have hcontents : ∀ p, t'.contents p = if p = q then none else t.contents p := by
    intro p
    rw [hc', Function.update_apply]
  ext k'
  rw [mem_keys_sdiff_iff h h' hcontents, Finset.mem_singleton]
  constructor
  · rintro ⟨p, it', rfl, hp⟩
    rw [hc] at hp
    cases hp
    rfl
  · rintro rfl
    exact ⟨q, it, rfl, hc⟩

end Table

end TinyRedis
