import TinyRedis.Proofs.Table.Insert

/-!
# `TinyRedis.Proofs.Table.Remove`: writes in place, `remove` and `clear`

`Base.write` covers every write that keeps an entry's key, link and hash: `assign`, and the store's
own writes of the deadline and the clock.

`linkTo_eq` finds the link that `remove` rewires: the bucket slot for the head of a chain, the
predecessor's `next` field otherwise. `remove_spec` specifies `remove`. Its last part says that the
chain behind the removed entry is still there, which is what lets a walk go on after its visitor
removed the entry it was handed.

* `Base.chain_at`: the chain of a bucket, as a list.
* `Base.write`, `assign_spec`: a value is replaced, and everything else stays.
* `unlink_spec`, `Inv.without`, `chain_behind`: the parts of `remove`.
* `ClearInv`, `freeEntry_chain`, `clear_loop`, `clear_spec`: `clear` gives back every block, chain
  by chain.

`clear` reads the link of a block before it gives the block back. The invariant of its loop says
that the blocks behind the walk are free and those ahead are untouched.
-/

set_option autoImplicit false

namespace TinyRedis

open Lib

variable [EntryPool]

namespace Table

/-- The chain of a bucket, by the contents of its blocks. -/
theorem Base.chain_at {t : Table} (h : t.Base) {i : Nat} (hi : i < t.bucketCount) :
    ∃ head l, t.buckets[i]? = some head ∧ Chain t.mem Entry.next head l ∧
      ∀ p, p ∈ l ↔ ∃ k it, t.contents p = some (k, it) ∧
        slotOf t.bucketCount (hash32 t.hashSeed k) = i := by
  have hhead : t.buckets[i]? = some _ := List.getElem?_eq_getElem hi
  obtain ⟨l, hl, hmem⟩ := h.linked _ _ hhead
  refine ⟨_, l, hhead, hl, fun p => ?_⟩
  rw [hmem]
  constructor
  · rintro ⟨-, e, he, hs⟩
    obtain ⟨k, v, -, hh, hc⟩ := h.contents_eq he
    exact ⟨k, _, hc, by rw [← hh]; exact hs⟩
  · rintro ⟨k, it, hc, hs⟩
    obtain ⟨e, he, -, hh, -⟩ := h.mem_eq hc
    exact ⟨trivial, e, he, by rw [hh]; exact hs⟩

/-! ### Writes in place -/

/-- A write that keeps the key, the link and the hash of an entry. -/
theorem Base.write {t : Table} (h : t.Base) {p : Ptr} {e e' : Entry} {k v v' : Bytes}
    (he : t.mem p = some e) (hkv : e.Holds k v) (hkv' : e'.Holds k v')
    (hnext : e'.next = e.next) (hhash : e'.hash = e.hash) :
    let t' := { t with mem := Function.update t.mem p (some e') }
    t'.Base ∧ t'.contents = Function.update t.contents p
      (some (k, ⟨v', e'.expiresAtMs, e'.lruClock⟩)) := by
  intro t'
  -- The key of each block is what it was.
  have hkey : ∀ q f, t'.mem q = some f → ∃ g, t.mem q = some g ∧ f.key = g.key := by
    intro q f hf
    by_cases hq : q = p
    · subst hq
      obtain rfl : e' = f := by simpa [t'] using hf
      exact ⟨e, he, by rw [hkv'.key, hkv.key]⟩
    · exact ⟨f, by simpa [t', hq] using hf, rfl⟩
  refine ⟨⟨h.pow2, h.minBuckets, fun q => ?_, h.count, h.linked.write he hnext hhash,
    fun q f hf => ?_, fun q r f g k hf hg hfk hgk => ?_⟩, ?_⟩
  · show q ∈ EntryPool.outstanding t.pool ↔ _
    rw [h.outstanding]
    by_cases hq : q = p
    · simp [t', hq, he]
    · simp [t', hq]
  · by_cases hq : q = p
    · subst hq
      obtain rfl : e' = f := by simpa [t'] using hf
      obtain ⟨k₀, v₀, hkv₀, hh⟩ := h.stored q e he
      obtain rfl := hkv₀.key_unique hkv
      exact ⟨k₀, v', hkv', by rw [hhash, hh]⟩
    · exact h.stored q f (by simpa [t', hq] using hf)
  · obtain ⟨f', hf', hfk'⟩ := hkey q f hf
    obtain ⟨g', hg', hgk'⟩ := hkey r g hg
    exact h.unique q r f' g' k hf' hg' (by rw [← hfk', hfk]) (by rw [← hgk', hgk])
  · funext q
    by_cases hq : q = p
    · subst hq
      simp [contents, t', hkv'.keyItem]
    · simp [contents, t', hq]

/-- `assign` replaces the value of the item and nothing else. -/
theorem assign_spec {t : Table} (h : t.Inv) {p : Ptr} {k w : Bytes} {it : Item}
    (hc : t.contents p = some (k, it)) (hfit : k.length + w.length < 2 ^ 32) :
    ∃ t', t.assign p w = some t' ∧ t'.Inv ∧
      t'.contents = Function.update t.contents p (some (k, { it with value := w })) ∧
      t'.liveCount = t.liveCount ∧ t'.hashSeed = t.hashSeed ∧ t'.buckets = t.buckets := by
  obtain ⟨e, he, hkv, -, hexp, hlru⟩ := h.mem_eq hc
  obtain ⟨e', he', hkv', heq⟩ := assignEntry_holds hkv hfit
  have hnext : e'.next = e.next := by rw [heq]
  have hhash : e'.hash = e.hash := by rw [heq]
  have hexp' : e'.expiresAtMs = it.expiresAtMs := by rw [heq]; exact hexp
  have hlru' : e'.lruClock = it.lruClock := by rw [heq]; exact hlru
  obtain ⟨hbase, hcont⟩ := h.toBase.write he hkv hkv' hnext hhash
  refine ⟨{ t with mem := Function.update t.mem p (some e') }, ?_, ⟨hbase, h.load⟩, ?_, rfl, rfl,
    rfl⟩
  · simp [assign, he, he']
  · rw [hcont, hexp', hlru']

/-! ### `remove` -/

/-- The loop of `remove` stops at the link that holds `p`: the start link when `p` heads the
chain, the `next` field of its predecessor otherwise. -/
theorem linkTo_eq {t : Table} {p : Ptr} {l₂ : List Ptr} :
    ∀ (l₁ : List Ptr) (rounds : Nat) (head : Option Ptr) (link : Link),
      l₁.length ≤ rounds → t.readLink link = some head →
      Chain t.mem Entry.next head (l₁ ++ p :: l₂) →
      t.linkTo p rounds link = some ((l₁.getLast?.map Link.nextOf).getD link) := by
  intro l₁
  induction l₁ with
  | nil =>
    intro rounds head link _ hread hchain
    obtain ⟨rfl, -⟩ := hchain
    cases rounds <;> simp [linkTo, hread]
  | cons q l₁ ih =>
    intro rounds head link hrounds hread hchain
    have hnd := hchain.nodup
    obtain ⟨rfl, e, he, hrest⟩ := hchain
    obtain ⟨rounds, rfl⟩ : ∃ r, rounds = r + 1 :=
      Nat.exists_eq_succ_of_ne_zero (by simp only [List.length_cons] at hrounds; omega)
    have hne : q ≠ p := by
      rintro rfl
      simp at hnd
    -- The loop goes on with the link of `q`, over a chain that is one shorter.
    have hstep := ih rounds e.next (.nextOf q) (by simp only [List.length_cons] at hrounds; omega)
      (by simp [readLink, he]) hrest
    simp only [linkTo, hread, Option.bind_eq_bind, Option.bind_some, if_neg hne, hstep]
    -- The last link of `q :: l₁` is that of `l₁`, or of `q` when `l₁` is empty.
    cases l₁ with
    | nil => simp
    | cons r l₁ =>
      have hlast := List.getLast?_eq_some_getLast (List.cons_ne_nil r l₁)
      rw [List.getLast?_cons_cons, hlast]
      rfl

/-- Unlinking `p` from the chain `l₁ ++ p :: l₂` of its bucket and freeing its block. -/
theorem unlink_spec {t : Table} {p : Ptr} {e : Entry} {head : Option Ptr} {l₁ l₂ : List Ptr}
    {i : Nat} (he : t.mem p = some e) (hi : t.buckets[i]? = some head)
    (hchain : Chain t.mem Entry.next head (l₁ ++ p :: l₂)) :
    ∃ t', t.writeLink e.next ((l₁.getLast?.map Link.nextOf).getD (.slot i)) = some t' ∧
      t'.pool = t.pool ∧ t'.liveCount = t.liveCount ∧ t'.hashSeed = t.hashSeed ∧
      t'.buckets.length = t.buckets.length ∧ SameData t.mem t'.mem ∧
      (∀ q ∉ l₁, t'.mem q = t.mem q) ∧
      ∃ head', t'.buckets = t.buckets.set i head' ∧
        Chain (Function.update t'.mem p none) Entry.next head' (l₁ ++ l₂) := by
  rcases List.eq_nil_or_concat l₁ with rfl | ⟨l, q, rfl⟩
  · refine ⟨_, rfl, rfl, rfl, rfl, List.length_set, SameData.refl _, fun _ _ => rfl, e.next, rfl,
      hchain.pop he none⟩
  · have hq : (t.mem q).isSome := hchain.isSome_of_mem (by simp)
    obtain ⟨f, hf⟩ := Option.isSome_iff_exists.mp hq
    refine ⟨{ t with mem := Function.update t.mem q (some { f with next := e.next }) }, ?_, rfl,
      rfl, rfl, rfl, SameData.update t.mem hf _, fun r hr => ?_, head, ?_, ?_⟩
    · simp [writeLink, hf]
    · refine Function.update_of_ne ?_ _ _
      rintro rfl
      exact hr (by simp)
    · obtain ⟨hlt, rfl⟩ := List.getElem?_eq_some_iff.mp hi
      exact (List.set_getElem_self hlt).symm
    · rw [List.concat_eq_append, List.append_assoc, List.singleton_append] at hchain ⊢
      exact hchain.unlink he (show Entry.next { f with next := e.next } = e.next from rfl) none

/-- A table with every entry of `t` but the one in `p`, linked again, keeps the invariant. -/
theorem Inv.without {t t' : Table} (h : t.Inv) {p : Ptr} {e : Entry} (he : t.mem p = some e)
    (hfreed : t'.mem p = none)
    (hother : ∀ q ≠ p, (t'.mem q).map Entry.unlinked = (t.mem q).map Entry.unlinked)
    (hpool : t'.pool = EntryPool.deallocate t.pool p) (hlive : t'.liveCount + 1 = t.liveCount)
    (hseed : t'.hashSeed = t.hashSeed) (hbc : t'.bucketCount = t.bucketCount)
    (hlinked : Linked t'.mem t'.buckets (fun _ => True)) : t'.Inv := by
  have hout : p ∈ EntryPool.outstanding t.pool := (h.outstanding p).mpr (by simp [he])
  have herase : EntryPool.outstanding t'.pool = (EntryPool.outstanding t.pool).erase p := by
    rw [hpool]
    exact EntryPool.outstanding_deallocate hout
  -- An entry that is left was there with the same data.
  have hfrom : ∀ q f', t'.mem q = some f' →
      ∃ f, t.mem q = some f ∧ f'.unlinked = f.unlinked := by
    intro q f' hf'
    have hq : q ≠ p := by
      rintro rfl
      rw [hfreed] at hf'
      cases hf'
    have hsame := hother q hq
    rw [hf', Option.map_some, eq_comm, Option.map_eq_some_iff] at hsame
    obtain ⟨f, hf, heq⟩ := hsame
    exact ⟨f, hf, heq.symm⟩
  refine ⟨⟨?_, ?_, fun q => ?_, ?_, hlinked, fun q f' hf' => ?_,
    fun q r f' g' k hf' hg' hfk hgk => ?_⟩, ?_⟩
  · rw [hbc]
    exact h.pow2
  · rw [hbc]
    exact h.minBuckets
  · rw [herase, Finset.mem_erase, h.outstanding]
    by_cases hq : q = p
    · simp [hq, hfreed]
    · have hsome := congrArg Option.isSome (hother q hq)
      simp only [Option.isSome_map] at hsome
      simp [hsome, hq]
  · rw [herase, Finset.card_erase_of_mem hout, ← h.count]
    omega
  · obtain ⟨f, hf, heq⟩ := hfrom q f' hf'
    obtain ⟨k, v, hkv, hh⟩ := h.stored q f hf
    exact ⟨k, v, hkv.of_unlinked heq, by rw [Entry.hash_of_unlinked heq, hh, hseed]⟩
  · obtain ⟨f, hf, hfeq⟩ := hfrom q f' hf'
    obtain ⟨g, hg, hgeq⟩ := hfrom r g' hg'
    exact h.unique q r f g k hf hg (by rw [← Entry.key_of_unlinked hfeq, hfk])
      (by rw [← Entry.key_of_unlinked hgeq, hgk])
  · have hload := h.load
    rw [hbc]
    omega

omit [EntryPool] in
/-- The chain behind an entry stays when only that entry and those before it are written. -/
theorem chain_behind {mem mem' : Memory} {p : Ptr} {e : Entry} {head : Option Ptr}
    {l₁ l₂ todo : List Ptr} (he : mem p = some e)
    (hchain : Chain mem Entry.next head (l₁ ++ p :: l₂))
    (hkeep : ∀ q, q ≠ p → q ∉ l₁ → mem' q = mem q) (htodo : Chain mem Entry.next e.next todo) :
    Chain mem' Entry.next e.next todo := by
  obtain ⟨-, hnd₂, hdisj⟩ := List.nodup_append.mp hchain.nodup
  -- What follows `p` is the list `l₂`.
  obtain ⟨r, -, e', he', hl₂⟩ := hchain.drop_append
  rw [he] at he'
  cases he'
  obtain rfl := htodo.unique hl₂
  refine htodo.congr fun q hq => congrArg _ (hkeep q ?_ ?_)
  · rintro rfl
    exact (List.nodup_cons.mp hnd₂).1 hq
  · intro hin
    exact hdisj q hin q (by simp [hq]) rfl

/-- The specification of `remove` on a stored block. -/
theorem remove_spec {t : Table} (h : t.Inv) {p : Ptr} {k : Bytes} {it : Item}
    (hc : t.contents p = some (k, it)) :
    ∃ t', t.remove p = some t' ∧ t'.Inv ∧ t'.contents = Function.update t.contents p none ∧
      t'.liveCount + 1 = t.liveCount ∧ t'.hashSeed = t.hashSeed ∧
      t'.bucketCount = t.bucketCount ∧
      ∀ e todo, t.mem p = some e → Chain t.mem Entry.next e.next todo →
        Chain t'.mem Entry.next e.next todo := by
  obtain ⟨e, he, -, -, -⟩ := h.mem_eq hc
  -- The chain of the bucket is `l₁ ++ p :: l₂`, and the loop stops at the last link of `l₁`.
  obtain ⟨head, l₁, l₂, hi, hchain, hmem⟩ := h.linked.split h.bucketCount_pos he trivial
  have hlen := h.chain_length_le hchain
  have hlink := t.linkTo_eq l₁ kPoolCapacity head (.slot (t.bucketOf e.hash))
    (by simp only [List.length_append, List.length_cons] at hlen; omega) hi hchain
  obtain ⟨t₁, ht₁, hpool, hlive, hseed, hbc, hdata, hkeep, head', hset, hchain'⟩ :=
    unlink_spec he hi hchain
  let t' : Table := { t₁ with
    pool := EntryPool.deallocate t₁.pool p, mem := Function.update t₁.mem p none
    liveCount := t₁.liveCount - 1 }
  have hmem' : ∀ q ≠ p, t'.mem q = t₁.mem q := fun q hq => Function.update_of_ne hq _ _
  have hfreed : t'.mem p = none := Function.update_self ..
  have hother : ∀ q ≠ p, (t'.mem q).map Entry.unlinked = (t.mem q).map Entry.unlinked := by
    intro q hq
    rw [hmem' q hq]
    exact hdata q
  -- The block is outstanding, so the count does not wrap.
  have hcount : t'.liveCount + 1 = t.liveCount := by
    have hout : p ∈ EntryPool.outstanding t.pool := (h.outstanding p).mpr (by simp [he])
    have hcard : 0 < (EntryPool.outstanding t.pool).card := Finset.card_pos.mpr ⟨p, hout⟩
    have hlive' := h.count
    simp only [t', hlive]
    omega
  have hlinked : Linked t'.mem t'.buckets (fun _ => True) := by
    have hrem := h.linked.remove hmem hchain.nodup (slotOf_lt e.hash h.bucketCount_pos)
      hchain' (fun q hq => ?_) (fun q hq => ?_)
    · rw [show t'.buckets = t.buckets.set (slotOf t.buckets.length e.hash) head' from hset]
      refine hrem.congr_set fun q f hf => ?_
      have hq : q ≠ p := by
        rintro rfl
        rw [Function.update_self] at hf
        cases hf
      simp [hq]
    · rw [Function.update_of_ne (fun heq => hq (by simp [heq]))]
      exact hkeep q fun hin => hq (by simp [hin])
    · have hhash := congrArg (Option.map Entry.hash) (hother q hq)
      simpa [Entry.unlinked, Function.comp_def] using hhash
  refine ⟨t', ?_, h.without he hfreed hother (by simp only [t', hpool]) hcount hseed hbc hlinked,
    ?_, hcount, hseed, hbc, ?_⟩
  · rw [remove, he]
    simp only [Option.bind_eq_bind, Option.bind_some, hlink, Option.pure_def]
    rw [show t.bucketOf e.hash = slotOf t.buckets.length e.hash from rfl, ht₁]
    rfl
  · funext q
    by_cases hq : q = p
    · simp [contents, hq, hfreed]
    · rw [Function.update_of_ne hq, ← contents_of_sameData hdata]
      simp only [contents, hmem' q hq]
  · -- The chain behind `p` is not touched, which a scan that has read `next` relies on.
    intro e' todo he' htodo
    rw [he] at he'
    cases he'
    refine chain_behind he hchain (fun q hq hin => ?_) htodo
    rw [hmem' q hq]
    exact hkeep q hin

/-! ### `clear` -/

/-- The state of `clear` between two rounds: the blocks of `S` are freed, the others are as
they were. -/
structure ClearInv (t : Table) (S : Ptr → Prop) (s : Memory × EntryPool.Pool) : Prop where
  freed : ∀ q, S q → s.1 q = none
  ahead : ∀ q, ¬ S q → s.1 q = t.mem q
  outstanding : ∀ q, q ∈ EntryPool.outstanding s.2 ↔ (t.mem q).isSome ∧ ¬ S q

/-- The loop over one chain frees its blocks. -/
theorem freeEntry_chain {t : Table} {S : Ptr → Prop} {s : Memory × EntryPool.Pool}
    (h : ClearInv t S s) {head : Option Ptr} {l : List Ptr}
    (hl : Chain t.mem Entry.next head l) (hfuel : l.length ≤ kPoolCapacity)
    (hS : ∀ p ∈ l, ¬ S p) :
    ∃ s', walk (fun s : Memory × EntryPool.Pool => s.1) Entry.next freeEntry
        kPoolCapacity head s = some s' ∧ ClearInv t (fun q => S q ∨ q ∈ l) s' := by
  have hchain : Chain s.1 Entry.next head l :=
    hl.congr fun q hq => by rw [h.ahead q (hS q hq)]
  -- The blocks of the chain that the walk has left behind are free.
  refine walk_rule (fun todo s => (∀ p ∈ todo, p ∈ l) ∧
      ClearInv t (fun q => S q ∨ q ∈ l ∧ q ∉ todo) s) _ ?_ ?_ l kPoolCapacity head s
    hfuel hchain ⟨fun p hp => hp, ?_⟩
  · rintro p todo s e ⟨hsub, hinv⟩ he hrest hp
    have hpl := hsub p (by simp)
    refine ⟨_, rfl, ⟨fun q hq => hsub q (by simp [hq]), ?_, ?_, ?_⟩, hrest.update hp none⟩
    · intro q hq
      by_cases hqp : q = p
      · simp [hqp]
      · exact (Function.update_of_ne hqp _ _).trans (hinv.freed q (by simpa [hqp] using hq))
    · intro q hq
      have hqp : q ≠ p := by
        rintro rfl
        exact hq (Or.inr ⟨hpl, hp⟩)
      exact (Function.update_of_ne hqp _ _).trans (hinv.ahead q (by simpa [hqp] using hq))
    · intro q
      -- The block is still outstanding, so it is given back once.
      have hpS : ¬ (S p ∨ p ∈ l ∧ p ∉ p :: todo) := by simp [hS p hpl]
      have hpo : p ∈ EntryPool.outstanding s.2 := by
        rw [hinv.outstanding, ← hinv.ahead p hpS]
        exact ⟨by simp [show s.1 p = some e from he], hpS⟩
      show q ∈ EntryPool.outstanding (EntryPool.deallocate s.2 p) ↔ _
      rw [EntryPool.outstanding_deallocate hpo, Finset.mem_erase, hinv.outstanding]
      by_cases hqp : q = p
      · simp [hqp, hpl, hp]
      · simp [hqp]
  · rintro s ⟨-, hinv⟩
    simpa using hinv
  · have hset : (fun q => S q ∨ q ∈ l ∧ q ∉ l) = S := by
      funext q
      simp
    rw [hset]
    exact h

/-- The loop of `clear` frees every block. -/
theorem clear_loop {t : Table} (h : t.Inv) :
    ∃ s, t.buckets.foldlM (fun s head =>
        walk (fun s : Memory × EntryPool.Pool => s.1) Entry.next freeEntry kPoolCapacity head s)
        (t.mem, t.pool) = some s ∧
      (∀ q, s.1 q = none) ∧ EntryPool.outstanding s.2 = ∅ := by
  -- After the first `j` buckets, the blocks of those buckets are freed.
  obtain ⟨s, hs, hinv⟩ := foldlM_rule
    (f := fun s head => walk (fun s : Memory × EntryPool.Pool => s.1) Entry.next freeEntry
      kPoolCapacity head s)
    (fun done s => ClearInv t
      (fun q => ∃ e, t.mem q = some e ∧ slotOf t.buckets.length e.hash < done.length) s)
    (l := t.buckets) (s := (t.mem, t.pool))
    (fun done head rest s hsplit h' => by
      have hi : t.buckets[done.length]? = some head := by simp [hsplit]
      obtain ⟨l, hl, hmem⟩ := h.linked _ _ hi
      obtain ⟨s', hs', h''⟩ := freeEntry_chain h' hl (h.chain_length_le hl) (by
        rintro p hp ⟨e, he, hlt⟩
        obtain ⟨-, e', he', heq⟩ := (hmem p).mp hp
        rw [he] at he'
        cases he'
        omega)
      exact ⟨s', hs', slot_lt_succ hmem ▸ h''⟩)
    ⟨by simp, fun q _ => rfl, fun q => by simp [h.outstanding]⟩
  -- Those of all buckets are all blocks.
  have hall : ∀ q, (∃ e, t.mem q = some e ∧ slotOf t.buckets.length e.hash < t.buckets.length) ↔
      (t.mem q).isSome := by
    intro q
    rw [Option.isSome_iff_exists]
    exact exists_congr fun e => and_iff_left (slotOf_lt e.hash h.bucketCount_pos)
  refine ⟨s, hs, fun q => ?_, ?_⟩
  · by_cases hq : (t.mem q).isSome
    · exact hinv.freed q ((hall q).mpr hq)
    · rw [hinv.ahead q fun hS => hq ((hall q).mp hS)]
      exact Option.not_isSome_iff_eq_none.mp hq
  · rw [Finset.eq_empty_iff_forall_notMem]
    intro q hq
    rw [hinv.outstanding, hall] at hq
    exact hq.2 hq.1

/-- `clear` empties the table and keeps its bucket count. -/
theorem clear_spec {t : Table} (h : t.Inv) :
    ∃ t', t.clear = some t' ∧ t'.Inv ∧ (∀ p, t'.contents p = none) ∧ t'.liveCount = 0 ∧
      t'.hashSeed = t.hashSeed ∧ t'.bucketCount = t.bucketCount := by
  obtain ⟨s, hs, hmem, hout⟩ := clear_loop h
  refine ⟨
    { t with buckets := t.buckets.map fun _ => none, mem := s.1, pool := s.2, liveCount := 0 },
    ?_, ⟨⟨?_, ?_, fun q => ?_, ?_, ?_, ?_, ?_⟩, Nat.zero_le _⟩, fun p => ?_, rfl, rfl, ?_⟩
  · rw [clear]
    simp only [hs, Option.bind_eq_bind, Option.bind_some, Option.pure_def]
  · simpa [bucketCount] using h.pow2
  · simpa [bucketCount] using h.minBuckets
  · simp [hmem, hout]
  · simp [hout]
  · rw [List.map_const']
    exact (Linked.replicate _ _).congr_set (by simp [hmem])
  · simp [hmem]
  · simp [hmem]
  · simp [contents, hmem]
  · simp [bucketCount]

end Table

end TinyRedis
