import Mathlib.Data.List.Nodup

/-!
# `TinyRedis.Lib.Lru`: the least-recently-used cache

A cache is the list of its slots, the most recently used first. A use moves a slot to the front
(`touch`, `put`), and a new key that finds the cache full takes the place of the last slot
(`makeRoom`). Each slot also records when it was used, which the cache itself never reads.

`Ordered` says that the list has no key twice and is in the order of these times. Then the last slot
is the least recently used one (`Ordered.last_used_lt`), and dropping it removes its key and no
other (`Ordered.lookup_dropLast`). An implementation that keeps a time with each key, and no list,
is compared with the cache through these two.
-/

set_option autoImplicit false

namespace TinyRedis.Lib

/-- A key with its value, and when it was last used. -/
structure Slot (κ ν τ : Type) where
  key : κ
  value : ν
  used : τ
deriving DecidableEq, Repr

/-- A cache: its slots, the most recently used first. -/
abbrev Lru (κ ν τ : Type) := List (Slot κ ν τ)

namespace Lru

variable {κ ν τ : Type} [DecidableEq κ]

/-- The slot of a key. -/
def lookup (c : Lru κ ν τ) (k : κ) : Option (Slot κ ν τ) := c.find? fun e => e.key = k

/-- The cache without a key. -/
def remove (c : Lru κ ν τ) (k : κ) : Lru κ ν τ := c.filter fun e => e.key ≠ k

/-- Room for one more slot: the last one goes if the cache is full. -/
def makeRoom (cap : Nat) (c : Lru κ ν τ) : Lru κ ν τ :=
  if c.length < cap then c else c.dropLast

/-- The key gets the value, and is used at `t`. -/
def put (cap : Nat) (c : Lru κ ν τ) (k : κ) (v : ν) (t : τ) : Lru κ ν τ :=
  ⟨k, v, t⟩ :: (if (c.lookup k).isSome then c.remove k else c.makeRoom cap)

/-- The key is used at `t`, if it is there. -/
def touch (c : Lru κ ν τ) (k : κ) (t : τ) : Lru κ ν τ :=
  match c.lookup k with
  | none => c
  | some e => ⟨k, e.value, t⟩ :: c.remove k

variable {c : Lru κ ν τ} {k k' : κ}

omit [DecidableEq κ] in
/-- Making room adds nothing. -/
theorem mem_of_mem_makeRoom {cap : Nat} {e : Slot κ ν τ} (h : e ∈ c.makeRoom cap) : e ∈ c := by
  unfold makeRoom at h
  split at h
  · exact h
  · exact List.dropLast_subset c h

/-! ### Lookups -/

/-- An empty cache has no slots. -/
@[simp] theorem lookup_nil : lookup ([] : Lru κ ν τ) k = none := rfl

/-- The slot in front is found first. -/
theorem lookup_cons (e : Slot κ ν τ) :
    lookup (e :: c) k = if e.key = k then some e else c.lookup k := by
  unfold lookup
  rw [List.find?_cons]
  split <;> simp_all

/-- What is found is there, under its key. -/
theorem mem_of_lookup {e : Slot κ ν τ} (h : c.lookup k = some e) : e ∈ c ∧ e.key = k :=
  ⟨List.mem_of_find?_eq_some h, by simpa using List.find?_some h⟩

/-- A key that is not found is not there. -/
theorem lookup_eq_none_iff : c.lookup k = none ↔ k ∉ c.map Slot.key := by
  simp [lookup, List.find?_eq_none]

/-- The key is gone, and the others are found as before. -/
theorem lookup_remove : (c.remove k).lookup k' = if k' = k then none else c.lookup k' := by
  induction c with
  | nil => simp [remove]
  | cons e c ih =>
    -- The first slot goes or stays, and the induction hypothesis is for the rest.
    by_cases he : e.key = k
    · rw [show remove (e :: c) k = remove c k by simp [remove, he], ih, lookup_cons]
      by_cases hk : k' = k
      · simp [hk]
      · simp [hk, he, Ne.symm hk]
    · rw [show remove (e :: c) k = e :: remove c k by simp [remove, he], lookup_cons, lookup_cons,
        ih]
      by_cases hk : k' = k
      · simp [hk, he]
      · simp [hk]

/-- Removing a key that is there frees a slot. -/
theorem length_remove_lt {e : Slot κ ν τ} (h : c.lookup k = some e) :
    (c.remove k).length < c.length := by
  obtain ⟨hmem, hkey⟩ := mem_of_lookup h
  exact List.length_filter_lt_length_iff_exists.mpr ⟨e, hmem, by simp [hkey]⟩

/-! ### The order of the slots -/

/-- No key stands twice, and the slots stand in the order of their use. -/
structure Ordered [LT τ] (c : Lru κ ν τ) : Prop where
  nodup : (c.map Slot.key).Nodup
  sorted : c.Pairwise fun a b => b.used < a.used

namespace Ordered

variable [LT τ]

omit [DecidableEq κ] in
/-- An empty cache is in order. -/
theorem nil : Ordered ([] : Lru κ ν τ) := ⟨List.nodup_nil, List.Pairwise.nil⟩

omit [DecidableEq κ] in
/-- Slots may go without disturbing the order. -/
theorem sublist {c' : Lru κ ν τ} (h : Ordered c) (hs : List.Sublist c' c) : Ordered c' :=
  ⟨h.nodup.sublist (hs.map _), h.sorted.sublist hs⟩

/-- A key may go. -/
theorem remove (h : Ordered c) (k : κ) : Ordered (c.remove k) := h.sublist List.filter_sublist

/-- A new slot that is used last stands at the front. -/
theorem cons (h : Ordered c) {e : Slot κ ν τ} (hkey : c.lookup e.key = none)
    (hused : ∀ x ∈ c, x.used < e.used) : Ordered (e :: c) :=
  ⟨List.nodup_cons.mpr ⟨lookup_eq_none_iff.mp hkey, h.nodup⟩,
    List.pairwise_cons.mpr ⟨hused, h.sorted⟩⟩

/-- A slot is found under its key. -/
theorem lookup_of_mem (h : Ordered c) {e : Slot κ ν τ} (he : e ∈ c) : c.lookup e.key = some e := by
  cases hl : c.lookup e.key with
  | none => exact absurd (List.mem_map_of_mem he) (lookup_eq_none_iff.mp hl)
  | some e' =>
    obtain ⟨he', hkey⟩ := mem_of_lookup hl
    rw [List.inj_on_of_nodup_map h.nodup he' he hkey]

omit [DecidableEq κ] in
/-- Every slot but the last one was used after it. -/
theorem last_used_lt (h : Ordered c) (hne : c ≠ []) {e : Slot κ ν τ} (he : e ∈ c)
    (hkey : e.key ≠ (c.getLast hne).key) : (c.getLast hne).used < e.used := by
  have hsplit := List.dropLast_append_getLast hne
  rw [← hsplit] at he
  rcases List.mem_append.mp he with he | he
  · have hsorted := h.sorted
    rw [← hsplit] at hsorted
    exact (List.pairwise_append.mp hsorted).2.2 e he _ (by simp)
  · rw [List.mem_singleton.mp he] at hkey
    exact absurd rfl hkey

/-- Dropping the last slot removes its key. -/
theorem lookup_dropLast (h : Ordered c) (hne : c ≠ []) :
    lookup c.dropLast k = if k = (c.getLast hne).key then none else c.lookup k := by
  have hsplit := List.dropLast_append_getLast hne
  have hnodup := h.nodup
  rw [← hsplit, List.map_append, List.nodup_append] at hnodup
  -- A key is found among the slots before the last, or in the last.
  have hsplit' : c.lookup k = (lookup c.dropLast k).or (lookup [c.getLast hne] k) := by
    rw [lookup, lookup, lookup, ← List.find?_append, hsplit]
  by_cases hk : k = (c.getLast hne).key
  · rw [if_pos hk, lookup_eq_none_iff, hk]
    exact fun hmem => hnodup.2.2 _ hmem _ (by simp) rfl
  · rw [if_neg hk, hsplit', lookup_cons, if_neg (Ne.symm hk), lookup_nil, Option.or_none]

end Ordered

end Lru

end TinyRedis.Lib
