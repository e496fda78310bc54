import TinyRedis.Core.Table

/-!
# `TinyRedis.Proofs.Entry`: what an entry stores

`Entry.Holds e k v` says that `e` stores the key `k` and the value `v`: the two lengths are theirs,
the buffer that `spilled` selects is the active one and starts with `k ++ v`, and an inline buffer
has its 32 bytes. The buffer may be longer than `k ++ v`, because a shrinking value keeps its spill
block.

* `Holds.key`, `Holds.value`: the accessors give back what is stored, and read no bytes outside.
* `packPayload_holds`: `insert` establishes it for a new entry.
* `assignBuffer_eq`: the buffer that `assign` writes the new value into, in each of the four moves
  between inline and spilled. It starts with the key.
* `assignEntry_holds`: `assign` establishes it for the new value, and changes nothing else.

Both ask for `k.length + v.length < 2 ^ 32`, so that the `uint32_t` sum of the lengths is their true
sum. The parser's cap on a bulk string gives that.
-/

set_option autoImplicit false

namespace TinyRedis

/-- `e` stores the key `k` and the value `v`. -/
structure Entry.Holds (e : Entry) (k v : Bytes) : Prop where
  fits : k.length + v.length < 2 ^ 32
  keyLen : e.keyLen.toNat = k.length
  valLen : e.valLen.toNat = v.length
  buffer : ∃ rest, e.buffer = some (k ++ v ++ rest) ∧
    (e.spilled = false → (k ++ v ++ rest).length = 32)

namespace Entry

/-- The `uint32_t` sum of the two lengths is their true sum. -/
theorem toNat_add_of_fits {a b : UInt32} {m n : Nat} (ha : a.toNat = m) (hb : b.toNat = n)
    (h : m + n < 2 ^ 32) : (a + b).toNat = m + n := by
  rw [UInt32.toNat_add, ha, hb, Nat.mod_eq_of_lt h]

/-- The spill test compares the true sum with the inline capacity. -/
theorem spill_iff {a b : UInt32} {m n : Nat} (ha : a.toNat = m) (hb : b.toNat = n)
    (h : m + n < 2 ^ 32) : a + b > kInlineCap ↔ 32 < m + n := by
  rw [gt_iff_lt, UInt32.lt_iff_toNat_lt, toNat_add_of_fits ha hb h]
  exact Iff.rfl

/-- The key view of an entry that holds `k`. -/
theorem Holds.key {e : Entry} {k v : Bytes} (h : e.Holds k v) : e.key = some k := by
  obtain ⟨rest, hbuf, -⟩ := h.buffer
  simp [Entry.key, getBufData, hbuf, sliceOf, h.keyLen, List.append_assoc]

/-- The value view of an entry that holds `v`. -/
theorem Holds.value {e : Entry} {k v : Bytes} (h : e.Holds k v) : e.value = some v := by
  obtain ⟨rest, hbuf, -⟩ := h.buffer
  simp [Entry.value, getBufData, hbuf, sliceOf, h.keyLen, h.valLen, List.append_assoc]

/-- An entry holds one key. -/
theorem Holds.key_unique {e : Entry} {k v k' v' : Bytes} (h : e.Holds k v)
    (h' : e.Holds k' v') : k = k' := by
  have hk := h.key
  rw [h'.key, Option.some.injEq] at hk
  exact hk.symm

/-- The links, the deadline and the clock do not touch what is stored. -/
theorem Holds.congr {e e' : Entry} {k v : Bytes} (h : e.Holds k v)
    (hk : e'.keyLen = e.keyLen) (hv : e'.valLen = e.valLen) (hp : e'.payload = e.payload) :
    e'.Holds k v := by
  have hs : e'.spilled = e.spilled := by simp [Entry.spilled, hk, hv]
  have hb : e'.buffer = e.buffer := by simp [Entry.buffer, hs, hp]
  exact ⟨h.fits, by rw [hk, h.keyLen], by rw [hv, h.valLen], by rw [hb, hs]; exact h.buffer⟩

end Entry

/-- Writing the front of a buffer. -/
theorem memcpy_zero {dst src : Bytes} (h : src.length ≤ dst.length) :
    memcpy dst 0 src src.length = some (src ++ dst.drop src.length) := by
  simp [memcpy, h]

/-- Writing `src` behind the prefix `pre`. -/
theorem memcpy_append {pre tail src : Bytes} (h : src.length ≤ tail.length) :
    memcpy (pre ++ tail) pre.length src src.length
      = some (pre ++ src ++ tail.drop src.length) := by
  simp [memcpy, h]

namespace Table

/-- The payload of an entry whose buffer starts with `k ++ v` and that picks the union
member by the spill test. -/
theorem holds_of_payload {e : Entry} {k v r : Bytes} (hfit : k.length + v.length < 2 ^ 32)
    (hk : e.keyLen.toNat = k.length) (hv : e.valLen.toNat = v.length)
    (hp : e.payload = if e.keyLen + e.valLen > kInlineCap then .bufPtr (k ++ v ++ r)
      else .inlineBuf (k ++ v ++ r))
    (hlen : k.length + v.length ≤ 32 → (k ++ v ++ r).length = 32) :
    e.Holds k v := by
  refine ⟨hfit, hk, hv, r, ?_, ?_⟩
  · by_cases hs : e.keyLen + e.valLen > kInlineCap
    · rw [if_pos hs] at hp
      simp [Entry.buffer, Entry.spilled, hs, hp]
    · rw [if_neg hs] at hp
      simp [Entry.buffer, Entry.spilled, hs, hp]
  · intro hs
    rw [Entry.spilled, decide_eq_false_iff_not, Entry.spill_iff hk hv hfit] at hs
    exact hlen (by omega)

/-- The length field of a key or value that fits. -/
theorem toNat_ofNat_length {b : Bytes} (h : b.length < 2 ^ 32) :
    (UInt32.ofNat b.length).toNat = b.length := by
  rw [UInt32.toNat_ofNat', Nat.mod_eq_of_lt h]

/-- `insert` writes a payload that holds the pair. -/
theorem packPayload_holds {k v : Bytes} (hfit : k.length + v.length < 2 ^ 32) :
    ∃ payload, packPayload k v = some payload ∧
      ∀ e : Entry, e.keyLen = UInt32.ofNat k.length → e.valLen = UInt32.ofNat v.length →
        e.payload = payload → e.Holds k v := by
  have hk := toNat_ofNat_length (b := k) (by omega)
  have hv := toNat_ofNat_length (b := v) (by omega)
  have hsum := Entry.toNat_add_of_fits hk hv hfit
  -- The size of the buffer the pair is written to.
  generalize hn : (if UInt32.ofNat k.length + UInt32.ofNat v.length > kInlineCap
    then (UInt32.ofNat k.length + UInt32.ofNat v.length).toNat else kInlineCap.toNat) = n
  have hlen : k.length + v.length ≤ n ∧ (k.length + v.length ≤ 32 → n = 32) := by
    rw [← hn]
    split
    · next hs =>
      rw [Entry.spill_iff hk hv hfit] at hs
      rw [hsum]
      exact ⟨Nat.le_refl _, fun h => absurd h (by omega)⟩
    · next hs =>
      rw [Entry.spill_iff hk hv hfit] at hs
      exact ⟨by rw [show kInlineCap.toNat = 32 from rfl]; omega, fun _ => rfl⟩
  have h1 : memcpy (uninit n) 0 k k.length = some (k ++ (uninit n).drop k.length) :=
    memcpy_zero (by simp only [uninit, List.length_replicate]; omega)
  have h2 : memcpy (k ++ (uninit n).drop k.length) k.length v v.length
      = some (k ++ v ++ ((uninit n).drop k.length).drop v.length) :=
    memcpy_append (by simp only [uninit, List.length_drop, List.length_replicate]; omega)
  refine ⟨if UInt32.ofNat k.length + UInt32.ofNat v.length > kInlineCap then
      .bufPtr (k ++ v ++ ((uninit n).drop k.length).drop v.length)
    else .inlineBuf (k ++ v ++ ((uninit n).drop k.length).drop v.length), ?_, ?_⟩
  · simp only [packPayload, decide_eq_true_eq, hn, hk, hv, h1, h2, Option.bind_eq_bind,
      Option.bind_some, Option.pure_def]
  · intro e hek hev hp
    refine holds_of_payload (r := ((uninit n).drop k.length).drop v.length) hfit
      (by rw [hek, hk]) (by rw [hev, hv]) ?_ ?_
    · rw [hp, hek, hev]
    · intro h32
      have := hlen.2 h32
      simp only [uninit, List.length_append, List.length_drop, List.length_replicate]
      omega

/-- The buffer `assign` writes to starts with the key, has room for the new value, and is the
inline buffer when the pair fits there. -/
theorem assignBuffer_eq {e : Entry} {k v : Bytes} (h : e.Holds k v) {valLen : UInt32} {n : Nat}
    (hn : valLen.toNat = n) (hfit : k.length + n < 2 ^ 32) :
    ∃ tail, assignBuffer e valLen = some (k ++ tail) ∧ n ≤ tail.length ∧
      (k.length + n ≤ 32 → (k ++ tail).length = 32) := by
  have hwill := Entry.spill_iff h.keyLen hn hfit
  have hsum := Entry.toNat_add_of_fits h.keyLen hn hfit
  obtain ⟨rest, hbuf, hinline⟩ := h.buffer
  simp only [assignBuffer, Bool.and_eq_true, Bool.or_eq_true, Bool.not_eq_true',
    decide_eq_true_eq, decide_eq_false_iff_not]
  split
  · -- A new spill block, with the key moved into it.
    next hnew =>
    have hlen : 32 < k.length + n := hwill.mp hnew.1
    rw [hsum, h.key, h.keyLen]
    refine ⟨(uninit (k.length + n)).drop k.length, ?_, ?_, fun h32 => absurd h32 (by omega)⟩
    · exact memcpy_zero (by simp only [uninit, List.length_replicate]; omega)
    · simp only [uninit, List.length_drop, List.length_replicate]
      omega
  · next hnew =>
    split
    · -- Back in place.
      next hback =>
      have hlen : ¬ 32 < k.length + n := fun hlt => hback.1 (hwill.mpr hlt)
      have hcopy : memcpy (uninit kInlineCap.toNat) 0 (k ++ v ++ rest) k.length
          = some (k ++ (uninit kInlineCap.toNat).drop k.length) := by
        rw [show kInlineCap.toNat = 32 from rfl]
        have h32 : k.length ≤ 32 := by omega
        simp [memcpy, uninit, h32]
      rw [hbuf, h.keyLen]
      refine ⟨_, hcopy, ?_, fun _ => ?_⟩
      · simp only [uninit, List.length_drop, List.length_replicate]
        rw [show kInlineCap.toNat = 32 from rfl]
        omega
      · simp only [uninit, List.length_append, List.length_drop, List.length_replicate]
        rw [show kInlineCap.toNat = 32 from rfl]
        omega
    · -- The buffer is kept: a spill block the value does not outgrow, or the inline one.
      next hback =>
      -- A pair that fits in line and was not moved back was in line already.
      have hin : ¬ 32 < k.length + n → (k ++ v ++ rest).length = 32 := by
        intro hw
        refine hinline ?_
        cases hs : e.spilled with
        | false => rfl
        | true => exact absurd ⟨fun hgt => hw (hwill.mp hgt), hs⟩ hback
      refine ⟨v ++ rest, by rw [hbuf, List.append_assoc], ?_, fun h32 => ?_⟩
      · by_cases hw : 32 < k.length + n
        · have hle : ¬ e.valLen < valLen := fun hlt => hnew ⟨hwill.mpr hw, Or.inr hlt⟩
          rw [UInt32.lt_iff_toNat_lt, hn, h.valLen] at hle
          simp only [List.length_append]
          omega
        · have hlen := hin hw
          simp only [List.length_append] at hlen ⊢
          omega
      · rw [← List.append_assoc]
        exact hin (by omega)

/-- `assign` replaces the value and keeps the key, the link, the hash, the deadline and the
clock. -/
theorem assignEntry_holds {e : Entry} {k v w : Bytes} (h : e.Holds k v)
    (hfit : k.length + w.length < 2 ^ 32) :
    ∃ e', assignEntry e w = some e' ∧ e'.Holds k w ∧
      e' = { e with valLen := e'.valLen, payload := e'.payload } := by
  have hw := toNat_ofNat_length (b := w) (by omega)
  obtain ⟨tail, hbuf, hroom, hinline⟩ := assignBuffer_eq h hw hfit
  have hcopy : memcpy (k ++ tail) k.length w w.length
      = some (k ++ w ++ tail.drop w.length) := memcpy_append hroom
  refine ⟨{ e with
      valLen := UInt32.ofNat w.length
      payload := if e.keyLen + UInt32.ofNat w.length > kInlineCap then
          .bufPtr (k ++ w ++ tail.drop w.length)
        else .inlineBuf (k ++ w ++ tail.drop w.length) }, ?_, ?_, rfl⟩
  -- The copy is in bounds: the buffer has the key in front, and room for the value behind it.
  · simp only [assignEntry, hbuf, h.keyLen, hw, hcopy, Option.bind_eq_bind, Option.bind_some,
      Option.pure_def]
  · refine holds_of_payload (r := tail.drop w.length) hfit h.keyLen hw rfl fun h32 => ?_
    have := hinline h32
    simp only [List.length_append, List.length_drop] at this ⊢
    omega

end Table

end TinyRedis
