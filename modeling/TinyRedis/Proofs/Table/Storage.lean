import TinyRedis.Core.Resp
import TinyRedis.Proofs.Table.Remove

/-!
# `TinyRedis.Proofs.Table.Storage`: an entry over its assignments

`Entry.Holds` is what each write of an entry establishes. Here is what that gives a reader of the
entry, and that it holds from the insertion on, over any assignments to the block: whichever way the
value crosses the inline boundary, the buffer in use has room for what the lengths say.

* `Entry.Stores`: what a reader finds: the lengths, the key and the value, which buffer is in use,
  and that it is long enough.
* `Entry.Holds.stores`: an entry that holds a pair stores it.
* `assigns`, `assigns_spec`: any number of assignments to one block.
* `insert_assigns_stores`: an insertion and the assignments after it.

The lengths are those that the parser lets through (`fits_of_bulk`), so a key and a value together
stay below `2 ^ 32`.
-/

set_option autoImplicit false

namespace TinyRedis

/-- What a reader of an entry sees: the key, the value, lengths whose `uint32_t` sum is their true
sum, and the union member that this sum selects, with room for both. -/
structure Entry.Stores (e : Entry) (k v : Bytes) : Prop where
  key : e.key = some k
  value : e.value = some v
  sum : (e.keyLen + e.valLen).toNat = k.length + v.length
  spilled : e.spilled = true ↔ kInlineCap.toNat < k.length + v.length
  block : ∀ block, e.payload = .bufPtr block →
    e.spilled = true ∧ (e.keyLen + e.valLen).toNat ≤ block.length
  inline : ∀ bytes, e.payload = .inlineBuf bytes →
    e.spilled = false ∧ bytes.length = kInlineCap.toNat

namespace Entry.Holds

variable {e : Entry} {k v : Bytes}

/-- The sum of the lengths does not wrap. -/
theorem sum (h : e.Holds k v) : (e.keyLen + e.valLen).toNat = k.length + v.length :=
  toNat_add_of_fits h.keyLen h.valLen h.fits

/-- An entry spills when its pair does not fit inline. -/
theorem spilled_iff (h : e.Holds k v) :
    e.spilled = true ↔ kInlineCap.toNat < k.length + v.length := by
  rw [Entry.spilled, decide_eq_true_iff, spill_iff h.keyLen h.valLen h.fits]
  rfl

/-- What a reader of the entry finds. -/
theorem stores (h : e.Holds k v) : e.Stores k v := by
  obtain ⟨rest, hbuf, hinline⟩ := h.buffer
  refine ⟨h.key, h.value, h.sum, h.spilled_iff, fun block hp => ?_, fun bytes hp => ?_⟩
  · -- The active member is the one that the lengths select.
    cases hs : e.spilled with
    | false => simp [Entry.buffer, hs, hp] at hbuf
    | true =>
      obtain rfl : block = k ++ v ++ rest := by simpa [Entry.buffer, hs, hp] using hbuf
      refine ⟨rfl, ?_⟩
      rw [h.sum, List.length_append, List.length_append]
      exact Nat.le_add_right _ _
  · cases hs : e.spilled with
    | true => simp [Entry.buffer, hs, hp] at hbuf
    | false =>
      obtain rfl : bytes = k ++ v ++ rest := by simpa [Entry.buffer, hs, hp] using hbuf
      exact ⟨rfl, hinline hs⟩

end Entry.Holds

namespace Table

variable [EntryPool]

/-- The assignments of `values` to the entry in the block `p`, in order. -/
def assigns (t : Table) (p : Ptr) (values : List Bytes) : Option Table :=
  values.foldlM (fun t value => t.assign p value) t

omit [EntryPool] in
/-- A key and a value of the parser fit the `uint32_t` lengths. -/
theorem fits_of_bulk {k v : Bytes} (hk : k.length ≤ kMaxBulkLength)
    (hv : v.length ≤ kMaxBulkLength) : k.length + v.length < 2 ^ 32 :=
  Nat.lt_of_le_of_lt (Nat.add_le_add hk hv) (by decide)

/-- The item behind a block keeps its key over assignments, and has the last value. -/
theorem assigns_spec {p : Ptr} {k : Bytes} (hk : k.length ≤ kMaxBulkLength)
    (values : List Bytes) : ∀ (t : Table) (it : Item), t.Inv → t.contents p = some (k, it) →
    (∀ v ∈ values, v.length ≤ kMaxBulkLength) →
    ∃ t', t.assigns p values = some t' ∧ t'.Inv ∧
      t'.contents p = some (k, { it with value := values.getLastD it.value }) := by
  induction values with
  | nil =>
    intro t it hinv hc _
    exact ⟨t, rfl, hinv, hc⟩
  | cons v values ih =>
    intro t it hinv hc hall
    obtain ⟨t₁, hassign, hinv₁, hcont, -⟩ :=
      assign_spec hinv hc (fits_of_bulk hk (hall v (by simp)))
    have hc₁ : t₁.contents p = some (k, { it with value := v }) := by
      rw [hcont, Function.update_self]
    obtain ⟨t', hassigns, hinv', hc'⟩ := ih t₁ _ hinv₁ hc₁ fun w hw => hall w (by simp [hw])
    refine ⟨t', ?_, hinv', ?_⟩
    · rw [assigns, List.foldlM_cons, hassign]
      exact hassigns
    · rw [hc', List.getLastD_cons]

/-- Storage is faithful over the life of an entry. From the insertion of an absent key on, unless
the pool is exhausted, any assignments of values within the cap are defined: no copy leaves the
buffer it is for. The entry reads back its key and the last value, and its block or its inline
buffer has room for them. -/
theorem insert_assigns_stores {t : Table} (h : t.Inv) (key v₀ : Bytes) (values : List Bytes)
    (habsent : t.view key = none) (hkey : key.length ≤ kMaxBulkLength)
    (hvalues : ∀ v ∈ v₀ :: values, v.length ≤ kMaxBulkLength) :
    (t.liveCount = kPoolCapacity ∧ t.insert key v₀ = some (none, t)) ∨
    ∃ p t₀ t' e, t.insert key v₀ = some (some p, t₀) ∧ t₀.assigns p values = some t' ∧
      t'.mem p = some e ∧ e.Stores key (values.getLastD v₀) := by
  rcases insert_spec h (fits_of_bulk hkey (hvalues v₀ (by simp))) habsent with
    hfull | ⟨p, t₀, hinsert, hinv, -, hcont, -⟩
  · exact Or.inl hfull
  · have hc : t₀.contents p = some (key, ⟨v₀, kNoExpiry, 0⟩) := by
      rw [hcont, Function.update_self]
    obtain ⟨t', hassigns, hinv', hc'⟩ := assigns_spec hkey values t₀ _ hinv hc
      fun v hv => hvalues v (by simp [hv])
    obtain ⟨e, he, hholds, -⟩ := hinv'.mem_eq hc'
    exact Or.inr ⟨p, t₀, t', e, hinsert, hassigns, he, hholds.stores⟩

omit [EntryPool] in
/-- A value that is spilled, comes back in place, spills again and shrinks within its block. -/
theorem insert_assigns_stores_crossing : letI := slabPool
    ∃ (t t₀ t' : Table) (p : Ptr) (e : Entry), Table.new 16 7 = some t ∧
      t.insert [1] (uninit 40) = some (some p, t₀) ∧
      t₀.assigns p [[2], uninit 50, uninit 34] = some t' ∧ t'.mem p = some e ∧
      e.Stores [1] (uninit 34) := by
  let _ := slabPool
  obtain ⟨n, hn⟩ := nextPow2_isSome (show 16 ≤ 2 ^ 63 by decide)
  have hnew : ∃ t, Table.new 16 7 = some t := by
    rw [Table.new, hn]
    exact ⟨_, rfl⟩
  obtain ⟨t, hnew⟩ := hnew
  obtain ⟨hinv, hempty, hcount, -⟩ := new_spec hnew
  have habsent : t.view [1] = none := (view_eq_none_iff hinv.toBase).mpr fun p it hc => by
    rw [hempty p] at hc
    cases hc
  rcases insert_assigns_stores hinv [1] (uninit 40) [[2], uninit 50, uninit 34] habsent
    (by decide) (by decide) with ⟨hfull, -⟩ | ⟨p, t₀, t', e, hinsert, hassigns, he, hstores⟩
  · rw [hcount] at hfull
    exact absurd hfull (by decide)
  · exact ⟨t, t₀, t', p, e, hnew, hinsert, hassigns, he, hstores⟩

end Table

end TinyRedis
