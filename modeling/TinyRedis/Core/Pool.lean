import Mathlib.Data.Finset.Card
import Mathlib.Data.Finset.Insert
import Mathlib.Data.Finset.Range
import TinyRedis.Core.Entry

/-!
# `TinyRedis.Core.Pool`: the block pool

`PoolAllocator` comes from another repository. `EntryPool` takes its interface as a parameter, with
what the table relies on as its laws:

* a block that is handed out was not outstanding, and is outstanding from then on;
* a block that is returned is not outstanding any more, and no other block is touched;
* there are never more blocks outstanding than the capacity, and an allocation fails only when there
  are as many.

The results of the development hold for every such pool. None of them depends on which block an
allocation returns.

`slabPool` is one of them, with the default `TINYREDIS_POOL_CAPACITY`: a slab whose returned blocks
are handed out again first. Runs on it can be evaluated.
-/

set_option autoImplicit false

namespace TinyRedis

/-- `PoolAllocator<Entry, kPoolCapacity>`: one slab of blocks, carved up front, that never
grows. `outstanding` is the set of blocks handed out and not yet returned. -/
class EntryPool where
  kPoolCapacity : Nat
  Pool : Type
  /-- A newly constructed pool. -/
  empty : Pool
  /-- A block, or `none` for `nullptr`. -/
  tryAllocate : Pool → Option (Ptr × Pool)
  deallocate : Pool → Ptr → Pool
  outstanding : Pool → Finset Ptr
  capacity_pos : 0 < kPoolCapacity
  /-- The slab holds 64-byte blocks, so the address space bounds their number. -/
  capacity_le : kPoolCapacity ≤ 2 ^ 57
  outstanding_empty : outstanding empty = ∅
  outstanding_card_le : ∀ p, (outstanding p).card ≤ kPoolCapacity
  /-- An allocated block is fresh. -/
  tryAllocate_some : ∀ {p b p'}, tryAllocate p = some (b, p') →
    b ∉ outstanding p ∧ outstanding p' = insert b (outstanding p)
  /-- Allocation fails only when every block is outstanding. -/
  tryAllocate_none : ∀ {p}, tryAllocate p = none → (outstanding p).card = kPoolCapacity
  outstanding_deallocate : ∀ {p b}, b ∈ outstanding p →
    outstanding (deallocate p b) = (outstanding p).erase b

export EntryPool (kPoolCapacity)

/-- A slab of `2 ^ 18` blocks. The blocks below `next` have been handed out at least once, and
`free` are those returned since. -/
structure Slab where
  next : Nat
  free : List Ptr
  next_le : next ≤ 2 ^ 18
  nodup : free.Nodup
  free_lt : ∀ p ∈ free, p < next

namespace Slab

/-- The blocks that have been handed out and not returned since. -/
def outstanding (s : Slab) : Finset Ptr := Finset.range s.next \ s.free.toFinset

/-- A block is outstanding if it has been handed out and is not in the free list. -/
theorem mem_outstanding {s : Slab} {p : Ptr} : p ∈ s.outstanding ↔ p < s.next ∧ p ∉ s.free := by
  simp [outstanding]

/-- The free list has no block twice, so the count is a difference. -/
theorem card_outstanding (s : Slab) : s.outstanding.card = s.next - s.free.length := by
  have hsub : s.free.toFinset ⊆ Finset.range s.next := by
    intro p hp
    rw [Finset.mem_range]
    exact s.free_lt p (List.mem_toFinset.mp hp)
  rw [outstanding, Finset.card_sdiff_of_subset hsub, Finset.card_range,
    List.toFinset_card_of_nodup s.nodup]

/-- The block that was returned last, or the next one of the slab. -/
def tryAllocate (s : Slab) : Option (Ptr × Slab) :=
  match h : s.free with
  | p :: free => some (p, { s with
      free
      nodup := (List.nodup_cons.mp (h ▸ s.nodup)).2
      free_lt := fun q hq => s.free_lt q (by simp [h, hq]) })
  | [] =>
      if hlt : s.next < 2 ^ 18 then some (s.next, { s with
        next := s.next + 1
        next_le := hlt
        free_lt := fun q hq => Nat.lt_succ_of_lt (s.free_lt q hq) })
      else none

/-- Returns a block. A block that is not outstanding is left alone. -/
def deallocate (s : Slab) (p : Ptr) : Slab :=
  if h : p < s.next ∧ p ∉ s.free then { s with
    free := p :: s.free
    nodup := List.nodup_cons.mpr ⟨h.2, s.nodup⟩
    free_lt := fun q hq => by
      rcases List.mem_cons.mp hq with rfl | hq
      · exact h.1
      · exact s.free_lt q hq }
  else s

end Slab

/-- The pool of the default build. -/
@[reducible] def slabPool : EntryPool where
  kPoolCapacity := 2 ^ 18
  Pool := Slab
  empty := { next := 0, free := [], next_le := Nat.zero_le _, nodup := List.nodup_nil,
             free_lt := by simp }
  tryAllocate := Slab.tryAllocate
  deallocate := Slab.deallocate
  outstanding := Slab.outstanding
  capacity_pos := by decide
  capacity_le := by decide
  outstanding_empty := by simp [Slab.outstanding]
  outstanding_card_le := fun s => by
    have := s.next_le
    rw [s.card_outstanding]
    omega
  tryAllocate_some := by
    intro s b s' h
    unfold Slab.tryAllocate at h
    split at h
    · next p free hfree =>
      cases h
      -- The block comes from the free list.
      have hnd := List.nodup_cons.mp (hfree ▸ s.nodup)
      have hlt := s.free_lt b (by simp [hfree])
      refine ⟨by simp [Slab.mem_outstanding, hfree], ?_⟩
      ext q
      simp only [Finset.mem_insert, Slab.mem_outstanding, hfree, List.mem_cons]
      by_cases hq : q = b
      · simp [hq, hlt, hnd.1]
      · simp [hq]
    · next hfree =>
      split at h
      · cases h
        -- The block comes from the untouched end of the slab.
        refine ⟨by simp [Slab.mem_outstanding], ?_⟩
        ext q
        simp only [Finset.mem_insert, Slab.mem_outstanding, hfree, List.not_mem_nil,
          not_false_eq_true, and_true]
        exact Nat.lt_succ_iff_lt_or_eq.trans or_comm
      · cases h
  tryAllocate_none := by
    intro s h
    unfold Slab.tryAllocate at h
    split at h
    · cases h
    · next hfree =>
      split at h
      · cases h
      · next hge =>
        have := s.next_le
        rw [s.card_outstanding, hfree, List.length_nil]
        omega
  outstanding_deallocate := by
    intro s b hb
    rw [Slab.deallocate, dif_pos (Slab.mem_outstanding.mp hb)]
    ext q
    -- Only the returned block changes sides.
    simp only [Finset.mem_erase, Slab.mem_outstanding, List.mem_cons]
    tauto

end TinyRedis
