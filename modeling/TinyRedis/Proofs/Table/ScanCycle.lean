import TinyRedis.Proofs.Cursor
import TinyRedis.Proofs.Table.Runs

/-!
# `TinyRedis.Proofs.Table.ScanCycle`: a scan cycle survives growth

A scan cycle starts at the cursor `0` and passes the returned cursor on until it is `0` again.
Between the calls, entries may come, change and go, and the table may double. `Scan` is the state of
a cycle, with a log of the visits, insertions and removals. A block is reused after its entry is
removed, so the log tells entries in one block apart by the removals between them.

The invariant `Progress` orders the entries by the *rank* of their bucket, the reversal of the
bucket's number: behind the rank of the cursor every entry that stays has been seen, and ahead of it
none has. Doubling the table doubles the ranks and keeps this order.

* `Event.seen`, `Event.Once`: what the log says of a block, and that no entry was visited twice.
* `Move`, `Moves`: what can happen in a cycle, and a cycle in progress.
* `Visiting`, `scanBucket_logging`: the visits of one call.
* `Progress.scan`, `insert`, `assign`, `remove`, `step`: one case for each move.
* `Progress.calls_bound`: a cycle has as many calls as there are buckets, at most.
* `cycle_visits_once`: a cycle that has ended has visited every entry that was there all the time,
  once.

An entry that comes in the middle of a cycle is visited or not, depending on where it comes; it is
not visited twice either.
-/

set_option autoImplicit false

namespace TinyRedis

open Lib

/-- What happens to the block `p` during a cycle. -/
inductive Event where
  | visited (p : Ptr)
  | inserted (p : Ptr)
  | removed (p : Ptr)
deriving DecidableEq, Repr

namespace Event

/-- Whether the entry now in `p` has been visited, after one more event. -/
def note (p : Ptr) (b : Bool) : Event → Bool
  | .visited q => if q = p then true else b
  | .inserted _ => b
  | .removed q => if q = p then false else b

/-- Whether `p` has been visited since its last removal. -/
def seen (log : List Event) (p : Ptr) : Bool := log.foldl (note p) false

/-- Every visit is to an entry that was not visited before. -/
def Once (log : List Event) : Prop :=
  ∀ l₁ l₂ p, log = l₁ ++ .visited p :: l₂ → seen l₁ p = false

variable {log : List Event} {p : Ptr}

/-- What the log says of a block after one more event. -/
@[simp] theorem seen_append_singleton (e : Event) :
    seen (log ++ [e]) p = note p (seen log p) e := by
  simp [seen]

/-- A visit is remembered until a removal. -/
theorem seen_of_visited {l₁ l₂ : List Event} (h : .removed p ∉ l₂) :
    seen (l₁ ++ .visited p :: l₂) p = true := by
  -- From the visit on, by induction from the end of the log.
  induction l₂ using List.reverseRecOn with
  | nil => simp [note]
  | append_singleton l₂ e ih =>
    rw [List.mem_append, not_or, List.mem_singleton] at h
    have hrest := ih h.1
    rw [show l₁ ++ .visited p :: (l₂ ++ [e]) = (l₁ ++ .visited p :: l₂) ++ [e] by simp,
      seen_append_singleton, hrest]
    cases e with
    | visited q => simp [note]
    | inserted q => rfl
    | removed q =>
      have hq : q ≠ p := fun heq => h.2 (by rw [heq])
      simp [note, hq]

/-- What has been seen was visited. -/
theorem visited_mem_of_seen (h : seen log p = true) : .visited p ∈ log := by
  induction log using List.reverseRecOn with
  | nil => cases h
  | append_singleton log e ih =>
    rw [seen_append_singleton] at h
    rw [List.mem_append, List.mem_singleton]
    cases e with
    | visited q =>
      by_cases hq : q = p
      · exact Or.inr (by rw [hq])
      · exact Or.inl (ih (by simpa [note, hq] using h))
    | inserted q => exact Or.inl (ih h)
    | removed q =>
      by_cases hq : q = p
      · simp [note, hq] at h
      · exact Or.inl (ih (by simpa [note, hq] using h))

namespace Once

/-- In an empty log nothing was visited twice. -/
theorem nil : Once [] := by
  intro l₁ l₂ p h
  simp at h

/-- One more event, which is no second visit. -/
theorem append (h : Once log) (e : Event) (he : ∀ p, e = .visited p → seen log p = false) :
    Once (log ++ [e]) := by
  intro l₁ l₂ p hl
  rcases List.eq_nil_or_concat l₂ with rfl | ⟨l₂, e', rfl⟩
  · obtain ⟨rfl, hlast⟩ := List.append_inj' hl rfl
    exact he p (List.singleton_inj.mp hlast)
  · rw [List.concat_eq_append, ← List.cons_append, ← List.append_assoc] at hl
    exact h l₁ l₂ p (List.append_inj' hl rfl).1

/-- Between two visits to a block, its entry was removed. -/
theorem removed_between (h : Once log) {l₁ l₂ l₃ : List Event}
    (hl : log = l₁ ++ .visited p :: l₂ ++ .visited p :: l₃) : .removed p ∈ l₂ := by
  by_contra hnot
  have hfalse := h _ _ p hl
  rw [seen_of_visited hnot] at hfalse
  cases hfalse

/-- An entry that has been seen and was never removed was visited exactly once. -/
theorem count_eq_one (h : Once log) (hseen : seen log p = true) (hkeep : .removed p ∉ log) :
    log.count (.visited p) = 1 := by
  obtain ⟨l₁, l₂, rfl, hnot⟩ := List.eq_append_cons_of_mem (visited_mem_of_seen hseen)
  have hnot₂ : .visited p ∉ l₂ := by
    intro hmem
    obtain ⟨m₁, m₂, rfl⟩ := List.append_of_mem hmem
    have hrem : .removed p ∈ m₁ := h.removed_between
      (show _ = l₁ ++ .visited p :: m₁ ++ .visited p :: m₂ by simp)
    exact hkeep (by simp [hrem])
  rw [List.count_append, List.count_cons_self, List.count_eq_zero.mpr hnot,
    List.count_eq_zero.mpr hnot₂]

end Once

end Event

variable [EntryPool]

/-- The state of a scan cycle. -/
structure Scan where
  table : Table
  cursor : Nat
  calls : Nat
  log : List Event

namespace Scan

/-- A cycle that is about to make its first call. -/
def start (t : Table) : Scan := { table := t, cursor := 0, calls := 0, log := [] }

/-- The cursor has come back to `0`. -/
def Ended (st : Scan) : Prop := st.calls ≠ 0 ∧ st.cursor = 0

/-- Whether a cycle has ended can be checked. -/
instance (st : Scan) : Decidable st.Ended := inferInstanceAs (Decidable (_ ∧ _))

/-- A visitor that removes the entries `rm` picks, and logs what it does. -/
def visitLogging (rm : Ptr → Bool) (p : Ptr) (s : Table × List Event) :
    Option (Table × List Event) :=
  if rm p then do return (← s.1.remove p, s.2 ++ [.visited p] ++ [.removed p])
  else some (s.1, s.2 ++ [.visited p])

/-- A call of the cycle, or an edit of the table between two calls. -/
inductive Move where
  | scan (rm : Ptr → Bool)
  | insert (key value : Bytes)
  | assign (p : Ptr) (value : Bytes)
  | remove (p : Ptr)

namespace Move

/-- A move, as the table makes it. -/
def run (st : Scan) : Move → Option Scan
  | .scan rm => do
      let (cursor, table, log) ← st.table.scanBucket st.cursor (visitLogging rm) st.log
      return { table, cursor, calls := st.calls + 1, log }
  | .insert key value => do
      let (p, table) ← st.table.insert key value
      return { st with table, log := st.log ++ (p.map .inserted).toList }
  | .assign p value => do return { st with table := ← st.table.assign p value }
  | .remove p => do
      return { st with table := ← st.table.remove p, log := st.log ++ [.removed p] }

/-- The cycle calls until the cursor comes back to `0`. An edit comes after the first call and
before the last, within the contract of the table. -/
def Ok (st : Scan) : Move → Prop
  | .scan _ => ¬ st.Ended
  | .insert key value => st.cursor ≠ 0 ∧ (Table.Op.insert key value).Ok st.table
  | .assign p value => st.cursor ≠ 0 ∧ (Table.Op.assign p value).Ok st.table
  | .remove p => st.cursor ≠ 0 ∧ (Table.Op.remove p).Ok st.table

end Move

/-- The state after a run of moves. -/
inductive Moves : Scan → List Move → Scan → Prop where
  | nil (st : Scan) : Moves st [] st
  | cons {st st' st'' : Scan} {move : Move} {moves : List Move} (ok : move.Ok st)
      (step : move.run st = some st') (rest : Moves st' moves st'') : Moves st (move :: moves) st''

/-! ### The visits of one call -/

open Event

/-- The state of a call that has visited `done`, against the table and the log before it. -/
structure Visiting (t₀ : Table) (log₀ : List Event) (rm : Ptr → Bool) (done : List Ptr)
    (t : Table) (log : List Event) : Prop where
  hashSeed : t.hashSeed = t₀.hashSeed
  bucketCount : t.bucketCount = t₀.bucketCount
  contents : ∀ p, t.contents p = if p ∈ done ∧ rm p then none else t₀.contents p
  seen : ∀ p, Event.seen log p = if p ∈ done then !rm p else Event.seen log₀ p
  removed : ∀ p, .removed p ∈ log ↔ .removed p ∈ log₀ ∨ (p ∈ done ∧ rm p)
  once : Once log

/-- The step lemma of the visits. -/
theorem Visiting.step {t₀ t : Table} {log₀ log : List Event} {rm : Ptr → Bool} {done : List Ptr}
    (h : Visiting t₀ log₀ rm done t log) (hinv : t.Inv) {p : Ptr} {k : Bytes} {it : Item}
    (hp : p ∉ done) (hfresh : Event.seen log₀ p = false) (hc : t.contents p = some (k, it)) :
    ∃ t' log', visitLogging rm p (t, log) = some (t', log') ∧ Table.Visited p t t' ∧
      Visiting t₀ log₀ rm (done ++ [p]) t' log' := by
  have hseen : Event.seen log p = false := by rw [h.seen, if_neg hp, hfresh]
  have honce := h.once.append (.visited p) (fun q hq => by cases hq; exact hseen)
  cases hrm : rm p with
  | true =>
    obtain ⟨t', ht', hinv', hcont', -, hseed', hbc', -⟩ := Table.remove_spec hinv hc
    refine ⟨t', log ++ [.visited p] ++ [.removed p], by simp [visitLogging, hrm, ht'],
      Or.inr ht', hseed'.trans h.hashSeed, hbc'.trans h.bucketCount, ?_, fun q => ?_,
      fun q => ?_, honce.append _ (by simp)⟩
    · rw [hcont']
      exact Table.contents_visit_drop h.contents hrm
    · rw [seen_append_singleton, seen_append_singleton, h.seen]
      by_cases hq : q = p
      · subst hq
        simp [note, hrm]
      · simp [note, hq, Ne.symm hq]
    · simp only [List.mem_append, List.mem_singleton, h.removed]
      by_cases hq : q = p
      · subst hq
        simp [hrm]
      · simp [hq]
  | false =>
    refine ⟨t, log ++ [.visited p], by simp [visitLogging, hrm], Or.inl rfl, h.hashSeed,
      h.bucketCount, Table.contents_visit_keep h.contents hrm, fun q => ?_, fun q => ?_, honce⟩
    · rw [seen_append_singleton, h.seen]
      by_cases hq : q = p
      · subst hq
        simp [note, hrm]
      · simp [note, hq, Ne.symm hq]
    · simp only [List.mem_append, List.mem_singleton, h.removed]
      by_cases hq : q = p
      · subst hq
        simp [hp, hrm]
      · simp [hq]

/-- One call visits the chain at the cursor, where nothing has been seen yet. -/
theorem scanBucket_logging {t : Table} (h : t.Inv) (cursor : Nat) (rm : Ptr → Bool)
    {log : List Event} (honce : Once log)
    (hfresh : ∀ p ∈ t.chain (cursor % t.bucketCount), Event.seen log p = false) :
    ∃ t' log', t.scanBucket cursor (visitLogging rm) log
        = some (nextCursor cursor (t.bucketCount - 1), t', log') ∧ t'.Inv ∧
      Visiting t log rm (t.chain (cursor % t.bucketCount)) t' log' := by
  have hnodup := h.chain_nodup (Nat.mod_lt cursor h.bucketCount_pos)
  obtain ⟨t', log', hscan, hinv, done, hdone, hv⟩ := Table.scanBucket_rule h cursor
    (visitLogging rm)
    (fun todo t' log' => ∃ done, done ++ todo = t.chain (cursor % t.bucketCount) ∧
      Visiting t log rm done t' log')
    (fun p todo t' log' k it hinv hc hp hJ => by
      obtain ⟨done, hdone, hv⟩ := hJ
      have hpd : p ∉ done := by
        intro hmem
        rw [← hdone] at hnodup
        exact (List.nodup_append.mp hnodup).2.2 p hmem p (by simp) rfl
      obtain ⟨t'', log'', hvisit, hvis, hv'⟩ := hv.step hinv hpd (hfresh p (by simp [← hdone])) hc
      exact ⟨t'', log'', hvisit, hvis, done ++ [p], by simpa using hdone, hv'⟩)
    (s := log)
    ⟨[], rfl, rfl, rfl, by simp, by simp, by simp, honce⟩
  rw [List.append_nil] at hdone
  exact ⟨t', log', hscan, hinv, hdone ▸ hv⟩

/-! ### The invariant of a cycle -/

/-- The rank of a key's bucket in a table of `2 ^ b` buckets. -/
def rank (b : Nat) (seed : UInt64) (key : Bytes) : Nat := revBits b (Table.hash32 seed key).toNat

/-- The progress of a cycle that began on `t₀`, in a table of `2 ^ b` buckets: the entries of a
rank below `limit` are done. -/
structure Progress (t₀ : Table) (b limit : Nat) (st : Scan) : Prop where
  inv : st.table.Inv
  hashSeed : st.table.hashSeed = t₀.hashSeed
  buckets : st.table.bucketCount = 2 ^ b
  width : b ≤ 63
  cursor_lt : st.cursor < 2 ^ b
  front : (¬ st.Ended ∧ limit = revBits b st.cursor) ∨ (st.Ended ∧ limit = 2 ^ b)
  calls_le : st.calls ≤ limit
  once : Once st.log
  /-- What has been seen is in the table, and done. -/
  seen : ∀ p, Event.seen st.log p = true →
    ∃ key it, st.table.contents p = some (key, it) ∧ rank b t₀.hashSeed key < limit
  /-- What was there at the start and was not removed is still there, and seen if it is done. -/
  stays : ∀ p key it₀, t₀.contents p = some (key, it₀) → .removed p ∉ st.log →
    (∃ it, st.table.contents p = some (key, it)) ∧
      (rank b t₀.hashSeed key < limit → Event.seen st.log p = true)

namespace Progress

variable {t₀ : Table} {b limit : Nat} {st : Scan}

/-- The bucket of a key is the bucket at the cursor exactly when the ranks are equal. -/
theorem slot_eq_cursor_iff (h : Progress t₀ b limit st) (key : Bytes) :
    slotOf st.table.bucketCount (Table.hash32 st.table.hashSeed key)
        = st.cursor % st.table.bucketCount ↔
      rank b t₀.hashSeed key = revBits b st.cursor := by
  rw [h.buckets, h.hashSeed, slotOf, Nat.and_two_pow_sub_one_eq_mod, rank, revBits_eq_iff]

/-- The chain that is scanned next has the rank of the cursor. -/
theorem mem_chain_iff (h : Progress t₀ b limit st) (p : Ptr) :
    p ∈ st.table.chain (st.cursor % st.table.bucketCount) ↔
      ∃ key it, st.table.contents p = some (key, it) ∧
        rank b t₀.hashSeed key = revBits b st.cursor := by
  rw [h.inv.toBase.mem_chain_iff (Nat.mod_lt _ h.inv.toBase.bucketCount_pos)]
  exact exists_congr fun key => exists_congr fun it => and_congr_right fun _ =>
    h.slot_eq_cursor_iff key

/-- Before the end, the entries of a rank below that of the cursor are the ones done. -/
theorem limit_eq (h : Progress t₀ b limit st) (hrun : ¬ st.Ended) :
    limit = revBits b st.cursor := by
  rcases h.front with ⟨-, hlimit⟩ | ⟨hend, -⟩
  · exact hlimit
  · exact absurd hend hrun

/-- What has been seen has a smaller rank than the cursor, so the chain there is fresh. -/
theorem chain_unseen (h : Progress t₀ b limit st) (hrun : ¬ st.Ended) :
    ∀ p ∈ st.table.chain (st.cursor % st.table.bucketCount), Event.seen st.log p = false := by
  intro p hp
  have hlimit := h.limit_eq hrun
  obtain ⟨key, it, hc, hrank⟩ := (h.mem_chain_iff p).mp hp
  by_contra hseen
  obtain ⟨key', it', hc', hlt⟩ := h.seen p (by simpa using hseen)
  rw [hc] at hc'
  cases hc'
  omega

/-- The cursor comes back to `0` after the last rank, and moves to the next rank before it. -/
theorem front_scan (h : Progress t₀ b limit st) (hrun : ¬ st.Ended) {st' : Scan}
    (hcalls : st'.calls = st.calls + 1) (hcursor : st'.cursor = nextCursor st.cursor (2 ^ b - 1)) :
    (¬ st'.Ended ∧ limit + 1 = revBits b st'.cursor) ∨ (st'.Ended ∧ limit + 1 = 2 ^ b) := by
  have hwidth : b ≤ 64 := Nat.le_succ_of_le h.width
  rw [h.limit_eq hrun, hcursor]
  by_cases hz : nextCursor st.cursor (2 ^ b - 1) = 0
  · have hended : st'.Ended := ⟨by rw [hcalls]; exact Nat.succ_ne_zero _, hcursor.trans hz⟩
    exact Or.inr ⟨hended, (nextCursor_eq_zero_iff hwidth _).mp hz⟩
  · exact Or.inl ⟨fun hend => hz (hcursor ▸ hend.2), (revBits_nextCursor hwidth hz).symm⟩

/-- What has been seen is of a rank below the new limit: the scanned chain has the last one. -/
theorem seen_scan (h : Progress t₀ b limit st) (hrun : ¬ st.Ended) {rm : Ptr → Bool} {t' : Table}
    {log' : List Event}
    (hv : Visiting st.table st.log rm (st.table.chain (st.cursor % st.table.bucketCount)) t' log')
    {p : Ptr} (hp : Event.seen log' p = true) :
    ∃ key it, t'.contents p = some (key, it) ∧ rank b t₀.hashSeed key < limit + 1 := by
  have hlimit := h.limit_eq hrun
  have hcont := hv.contents p
  rw [hv.seen] at hp
  by_cases hmem : p ∈ st.table.chain (st.cursor % st.table.bucketCount)
  · rw [if_pos hmem, Bool.not_eq_true'] at hp
    obtain ⟨key, it, hc, hrank⟩ := (h.mem_chain_iff p).mp hmem
    rw [if_neg (by simp [hp]), hc] at hcont
    exact ⟨key, it, hcont, by omega⟩
  · rw [if_neg hmem] at hp
    obtain ⟨key, it, hc, hlt⟩ := h.seen p hp
    rw [if_neg (by simp [hmem]), hc] at hcont
    exact ⟨key, it, hcont, by omega⟩

/-- An entry that stays and ranks below the new limit has been seen, in this call or before. -/
theorem stays_scan (h : Progress t₀ b limit st) (hrun : ¬ st.Ended) {rm : Ptr → Bool} {t' : Table}
    {log' : List Event}
    (hv : Visiting st.table st.log rm (st.table.chain (st.cursor % st.table.bucketCount)) t' log')
    {p : Ptr} {key : Bytes} {it₀ : Item} (hc₀ : t₀.contents p = some (key, it₀))
    (hkeep : .removed p ∉ log') :
    (∃ it, t'.contents p = some (key, it)) ∧
      (rank b t₀.hashSeed key < limit + 1 → Event.seen log' p = true) := by
  have hlimit := h.limit_eq hrun
  rw [hv.removed, not_or] at hkeep
  obtain ⟨⟨it, hc⟩, hdone⟩ := h.stays p key it₀ hc₀ hkeep.1
  have hcont := hv.contents p
  rw [if_neg hkeep.2, hc] at hcont
  refine ⟨⟨it, hcont⟩, fun hlt => ?_⟩
  rw [hv.seen]
  split
  · next hmem =>
    rw [Bool.not_eq_true']
    exact Bool.eq_false_iff.mpr fun hrm => hkeep.2 ⟨hmem, hrm⟩
  · next hmem =>
    refine hdone ?_
    have hne : rank b t₀.hashSeed key ≠ revBits b st.cursor := fun heq =>
      hmem ((h.mem_chain_iff p).mpr ⟨key, it, hc, heq⟩)
    omega

/-- A call moves the progress on by one rank. -/
theorem scan (h : Progress t₀ b limit st) (hrun : ¬ st.Ended) (rm : Ptr → Bool) :
    ∃ st', (Move.scan rm).run st = some st' ∧ Progress t₀ b (limit + 1) st' := by
  obtain ⟨t', log', hscan, hinv', hv⟩ :=
    scanBucket_logging h.inv st.cursor rm h.once (h.chain_unseen hrun)
  rw [h.buckets] at hscan
  refine ⟨{ table := t', cursor := nextCursor st.cursor (2 ^ b - 1), calls := st.calls + 1
            log := log' }, by simp [Move.run, hscan], ?_⟩
  exact
    { inv := hinv'
      hashSeed := hv.hashSeed.trans h.hashSeed
      buckets := hv.bucketCount.trans h.buckets
      width := h.width
      cursor_lt := nextCursor_lt (Nat.le_succ_of_le h.width) _
      front := h.front_scan hrun rfl rfl
      calls_le := Nat.add_le_add_right h.calls_le 1
      once := hv.once
      seen := fun p hp => h.seen_scan hrun hv hp
      stays := fun p key it₀ hc₀ hkeep => h.stays_scan hrun hv hc₀ hkeep }

/-- An edit between two calls that drops the entries of `gone` and keeps the others, and may
widen the table, keeps the progress: the cursor still parts the same entries. -/
theorem edit (h : Progress t₀ b limit st) (hcur : st.cursor ≠ 0) {t' : Table} {b' : Nat}
    {log' : List Event} (gone : List Ptr) (hinv : t'.Inv)
    (hseed : t'.hashSeed = st.table.hashSeed) (hbuckets : t'.bucketCount = 2 ^ b')
    (hb : b ≤ b') (hwidth : b' ≤ 63) (honce : Once log')
    (hseen : ∀ p, Event.seen log' p = true ↔ Event.seen st.log p = true ∧ p ∉ gone)
    (hremoved : ∀ p, .removed p ∈ log' ↔ .removed p ∈ st.log ∨ p ∈ gone)
    (hkept : ∀ p key it, p ∉ gone → st.table.contents p = some (key, it) →
      ∃ it', t'.contents p = some (key, it')) :
    Progress t₀ b' (revBits b' st.cursor) { st with table := t', log := log' } := by
  have hrun : ¬ st.Ended := fun hend => hcur hend.2
  have hlimit := h.limit_eq hrun
  -- A wider table splits every rank, on the same side of the cursor.
  have hrank : ∀ key, rank b' t₀.hashSeed key < revBits b' st.cursor ↔
      rank b t₀.hashSeed key < limit := by
    intro key
    rw [hlimit, rank, rank, revBits_lt_iff_of_le h.cursor_lt hb]
  refine
    { inv := hinv
      hashSeed := hseed.trans h.hashSeed
      buckets := hbuckets
      width := hwidth
      cursor_lt := Nat.lt_of_lt_of_le h.cursor_lt (Nat.pow_le_pow_right (by decide) hb)
      front := Or.inl ⟨hrun, rfl⟩
      calls_le := Nat.le_trans (hlimit ▸ h.calls_le) (revBits_le_of_le h.cursor_lt hb)
      once := honce
      seen := fun p hp => ?_
      stays := fun p key it₀ hc₀ hkeep => ?_ }
  · obtain ⟨hold, hgone⟩ := (hseen p).mp hp
    obtain ⟨key, it, hc, hdone⟩ := h.seen p hold
    obtain ⟨it', hc'⟩ := hkept p key it hgone hc
    exact ⟨key, it', hc', (hrank key).mpr hdone⟩
  · rw [hremoved, not_or] at hkeep
    obtain ⟨⟨it, hc⟩, hdone⟩ := h.stays p key it₀ hc₀ hkeep.1
    exact ⟨hkept p key it hkeep.2 hc, fun hlt =>
      (hseen p).mpr ⟨hdone ((hrank key).mp hlt), hkeep.2⟩⟩

/-- An insertion keeps every entry, and may double the table. -/
theorem insert (h : Progress t₀ b limit st) {key value : Bytes}
    (hok : (Move.insert key value).Ok st) :
    ∃ st' b' limit', (Move.insert key value).run st = some st' ∧ Progress t₀ b' limit' st' := by
  obtain ⟨hcur, hfind, hfit⟩ := hok
  have habsent : st.table.view key = none := by simp [Table.view, hfind]
  rcases Table.insert_spec h.inv hfit habsent with
    ⟨-, hins⟩ | ⟨p, t', hins, hinv, hfresh, hcont, -, hseed, hbc⟩
  · exact ⟨st, b, limit, by simp [Move.run, hins], h⟩
  have hkept : ∀ q k it, q ∉ ([] : List Ptr) → st.table.contents q = some (k, it) →
      ∃ it', t'.contents q = some (k, it') := by
    intro q k it _ hc
    have hq : q ≠ p := by
      rintro rfl
      rw [hfresh] at hc
      cases hc
    exact ⟨it, by rw [hcont, Function.update_of_ne hq, hc]⟩
  have honce := h.once.append (.inserted p) (by simp)
  have hseen : ∀ q, Event.seen (st.log ++ [.inserted p]) q = true ↔
      Event.seen st.log q = true ∧ q ∉ ([] : List Ptr) := by simp [note]
  have hremoved : ∀ q, .removed q ∈ st.log ++ [.inserted p] ↔
      .removed q ∈ st.log ∨ q ∈ ([] : List Ptr) := by simp
  by_cases hfull : st.table.bucketCount < st.table.liveCount + 1
  · rw [if_pos hfull] at hbc
    have hbuckets : t'.bucketCount = 2 ^ (b + 1) := by rw [hbc, h.buckets, Nat.pow_succ]
    have hwidth : b + 1 ≤ 63 := by
      have hle := h.inv.double_le hfull
      rw [← hbc, hbuckets] at hle
      exact (Nat.pow_le_pow_iff_right (by decide)).mp hle
    exact ⟨_, b + 1, _, by simp [Move.run, hins], h.edit hcur [] hinv hseed hbuckets (Nat.le_succ b)
      hwidth honce hseen hremoved hkept⟩
  · rw [if_neg hfull] at hbc
    exact ⟨_, b, _, by simp [Move.run, hins], h.edit hcur [] hinv hseed (hbc.trans h.buckets)
      (Nat.le_refl b) h.width honce hseen hremoved hkept⟩

/-- An assignment keeps every entry where it is. -/
theorem assign (h : Progress t₀ b limit st) {p : Ptr} {value : Bytes}
    (hok : (Move.assign p value).Ok st) :
    ∃ st' b' limit', (Move.assign p value).run st = some st' ∧ Progress t₀ b' limit' st' := by
  obtain ⟨hcur, e, he, hfit⟩ := hok
  obtain ⟨k, v, hkv, -, hc⟩ := h.inv.contents_eq he
  rw [hkv.keyLen] at hfit
  obtain ⟨t', ht', hinv, hcont, -, hseed, hbuckets⟩ := Table.assign_spec h.inv hc hfit
  have hbc : t'.bucketCount = 2 ^ b := (congrArg List.length hbuckets).trans h.buckets
  refine ⟨_, b, _, by simp [Move.run, ht'], h.edit hcur [] hinv hseed hbc (Nat.le_refl b) h.width
    h.once (by simp) (by simp) fun q k' it _ hc' => ?_⟩
  rw [hcont]
  by_cases hq : q = p
  · subst hq
    rw [hc] at hc'
    cases hc'
    exact ⟨_, Function.update_self ..⟩
  · exact ⟨it, by rw [Function.update_of_ne hq, hc']⟩

/-- A removal takes one entry out. -/
theorem remove (h : Progress t₀ b limit st) {p : Ptr} (hok : (Move.remove p).Ok st) :
    ∃ st' b' limit', (Move.remove p).run st = some st' ∧ Progress t₀ b' limit' st' := by
  obtain ⟨hcur, hsome⟩ := hok
  obtain ⟨e, he⟩ := Option.isSome_iff_exists.mp hsome
  obtain ⟨k, v, -, -, hc⟩ := h.inv.contents_eq he
  obtain ⟨t', ht', hinv, hcont, -, hseed, hbc, -⟩ := Table.remove_spec h.inv hc
  refine ⟨_, b, _, by simp [Move.run, ht'], h.edit hcur [p] hinv hseed (hbc.trans h.buckets)
    (Nat.le_refl b) h.width (h.once.append (.removed p) (by simp)) (fun q => ?_) (by simp)
    fun q k' it hq hc' => ?_⟩
  · by_cases hq : q = p
    · subst hq
      simp [note]
    · simp [note, hq, Ne.symm hq]
  · rw [List.mem_singleton] at hq
    exact ⟨it, by rw [hcont, Function.update_of_ne hq, hc']⟩

/-- The step lemma of a cycle: a move within its contract is defined and keeps the progress. -/
theorem step (h : Progress t₀ b limit st) {move : Move} (hok : move.Ok st) :
    ∃ st' b' limit', move.run st = some st' ∧ Progress t₀ b' limit' st' := by
  cases move with
  | scan rm =>
    obtain ⟨st', hst', h'⟩ := h.scan hok rm
    exact ⟨st', b, limit + 1, hst', h'⟩
  | insert key value => exact h.insert hok
  | assign p value => exact h.assign hok
  | remove p => exact h.remove hok

/-- Before the first call nothing is done. -/
theorem start (hinv : t₀.Inv) (hbuckets : t₀.bucketCount = 2 ^ b) (hwidth : b ≤ 63) :
    Progress t₀ b 0 (Scan.start t₀) where
  inv := hinv
  hashSeed := rfl
  buckets := hbuckets
  width := hwidth
  cursor_lt := Nat.two_pow_pos b
  front := Or.inl ⟨fun hend => hend.1 rfl, (revBits_zero b).symm⟩
  calls_le := Nat.le_refl 0
  once := Once.nil
  seen := fun p hp => by cases hp
  stays := fun p key it₀ hc _ => ⟨⟨it₀, hc⟩, fun hlt => absurd hlt (Nat.not_lt_zero _)⟩

/-- The run lemma: the progress holds after every run of moves. -/
theorem run {st' : Scan} {moves : List Move} (hrun : Moves st moves st')
    (h : Progress t₀ b limit st) : ∃ b' limit', Progress t₀ b' limit' st' := by
  induction hrun generalizing b limit with
  | nil st => exact ⟨b, limit, h⟩
  | cons ok step rest ih =>
    obtain ⟨st₁, b₁, limit₁, hst₁, h₁⟩ := h.step ok
    rw [step] at hst₁
    cases hst₁
    exact ih h₁

/-- There are at most as many calls as buckets, and fewer while the cycle goes on. -/
theorem calls_bound (h : Progress t₀ b limit st) : st.calls ≤ st.table.bucketCount ∧
    (¬ st.Ended → st.calls < st.table.bucketCount) := by
  have hcalls := h.calls_le
  rw [h.buckets]
  rcases h.front with ⟨-, hl⟩ | ⟨hend, hl⟩
  · have hlt := revBits_lt b st.cursor
    omega
  · exact ⟨by omega, fun hrun => absurd hend hrun⟩

/-- After the last call every entry that stayed has been seen. -/
theorem seen_of_ended (h : Progress t₀ b limit st) (hend : st.Ended) {p : Ptr} {key : Bytes}
    {it : Item} (hc : t₀.contents p = some (key, it)) (hkeep : .removed p ∉ st.log) :
    Event.seen st.log p = true := by
  rcases h.front with ⟨hrun, -⟩ | ⟨-, hl⟩
  · exact absurd hend hrun
  · exact (h.stays p key it hc hkeep).2 (hl ▸ revBits_lt b _)

end Progress

/-- A scan cycle over a reachable table, with any edits between its calls. Every move is defined.
Two visits to a block have a removal of its entry between them. The cycle ends after at most as
many calls as there are buckets at its end. An entry that is there at the first call and is not
removed has then been visited exactly once. -/
theorem cycle_visits_once {initialBuckets : Nat} {seed : UInt64} {t t₀ : Table}
    {ops : List Table.Op} {moves : List Move} {st : Scan}
    (hnew : Table.new initialBuckets seed = some t) (hreach : Table.Run t ops t₀)
    (hrun : Moves (start t₀) moves st) :
    (∀ move : Move, move.Ok st → (move.run st).isSome) ∧
      (∀ p l₁ l₂ l₃, st.log = l₁ ++ .visited p :: l₂ ++ .visited p :: l₃ → .removed p ∈ l₂) ∧
      st.calls ≤ st.table.bucketCount ∧ (¬ st.Ended → st.calls < st.table.bucketCount) ∧
      st.table.bucketCount ≤ 2 ^ 63 ∧
      (st.Ended → ∀ p, (t₀.mem p).isSome → .removed p ∉ st.log →
        st.log.count (.visited p) = 1) := by
  obtain ⟨hinv, -, -, -, -, hmax⟩ := Table.new_spec hnew
  obtain ⟨hinv₀, -, -, hmax₀⟩ := hreach.inv hinv
  obtain ⟨b₀, hb₀⟩ := hinv₀.pow2
  have hwidth : b₀ ≤ 63 := (Nat.pow_le_pow_iff_right (by decide)).mp (hb₀ ▸ hmax₀ hmax)
  obtain ⟨b, limit, h⟩ := (Progress.start hinv₀ hb₀ hwidth).run hrun
  obtain ⟨hcalls, hgoing⟩ := h.calls_bound
  refine ⟨fun move hok => ?_, fun p l₁ l₂ l₃ hl => h.once.removed_between hl, hcalls, hgoing, ?_,
    fun hend p hp hkeep => ?_⟩
  · obtain ⟨st', -, -, hst', -⟩ := h.step hok
    rw [hst']
    rfl
  · rw [h.buckets]
    exact Nat.pow_le_pow_right (by decide) h.width
  · obtain ⟨e, he⟩ := Option.isSome_iff_exists.mp hp
    obtain ⟨k, v, -, -, hc⟩ := hinv₀.contents_eq he
    exact h.once.count_eq_one (h.seen_of_ended hend hc hkeep) hkeep

omit [EntryPool] in
/-- The default pool: four keys in four buckets, and a fifth key that doubles the table after
the first call. Seven calls end the cycle, and the visitor removes the entry in block `1`. -/
theorem cycle_visits_once_doubled : letI := slabPool
    ∃ t t₀ : Table, ∃ st : Scan, Table.new 4 7 = some t ∧
      Table.Run t [.insert [1] [2], .insert [2] [2], .insert [3] [2], .insert [4] [2]] t₀ ∧
      Moves (start t₀) (.scan (· == 1) :: .insert [5] [2] ::
        List.replicate 6 (.scan (· == 1))) st ∧
      st.Ended ∧ st.calls = 7 ∧ t₀.bucketCount = 4 ∧ st.table.bucketCount = 8 ∧
      .removed 1 ∈ st.log ∧ st.log.count (.visited 3) = 1 := by
  let _ := slabPool
  have get {α : Type} (o : Option α) (h : o.isSome) : o = some (o.get h) := (Option.some_get h).symm
  let t := (Table.new 4 7).get (by decide)
  let t₁ := ((Table.Op.insert [1] [2]).run t).get (by decide)
  let t₂ := ((Table.Op.insert [2] [2]).run t₁).get (by decide)
  let t₃ := ((Table.Op.insert [3] [2]).run t₂).get (by decide)
  let t₄ := ((Table.Op.insert [4] [2]).run t₃).get (by decide)
  let s₁ := ((Move.scan (· == 1)).run (start t₄)).get (by decide)
  let s₂ := ((Move.insert [5] [2]).run s₁).get (by decide)
  let s₃ := ((Move.scan (· == 1)).run s₂).get (by decide)
  let s₄ := ((Move.scan (· == 1)).run s₃).get (by decide)
  let s₅ := ((Move.scan (· == 1)).run s₄).get (by decide)
  let s₆ := ((Move.scan (· == 1)).run s₅).get (by decide)
  let s₇ := ((Move.scan (· == 1)).run s₆).get (by decide)
  let s₈ := ((Move.scan (· == 1)).run s₇).get (by decide)
  have hnew : Table.new 4 7 = some t := get _ _
  have hreach : Table.Run t [.insert [1] [2], .insert [2] [2], .insert [3] [2],
      .insert [4] [2]] t₄ :=
    .cons ⟨by decide, by decide⟩ (get _ _) <| .cons ⟨by decide, by decide⟩ (get _ _) <|
      .cons ⟨by decide, by decide⟩ (get _ _) <| .cons ⟨by decide, by decide⟩ (get _ _) <| .nil t₄
  have hrun : Moves (start t₄) (.scan (· == 1) :: .insert [5] [2] ::
      List.replicate 6 (.scan (· == 1))) s₈ :=
    .cons (show ¬ Ended _ by decide) (get _ _) <|
      .cons ⟨by decide, by decide, by decide⟩ (get _ _) <|
      .cons (show ¬ Ended _ by decide) (get _ _) <| .cons (show ¬ Ended _ by decide) (get _ _) <|
      .cons (show ¬ Ended _ by decide) (get _ _) <| .cons (show ¬ Ended _ by decide) (get _ _) <|
      .cons (show ¬ Ended _ by decide) (get _ _) <| .cons (show ¬ Ended _ by decide) (get _ _) <|
      .nil s₈
  have hend : s₈.Ended := by decide
  obtain ⟨-, -, -, -, -, honce⟩ := cycle_visits_once hnew hreach hrun
  exact ⟨t, t₄, s₈, hnew, hreach, hrun, hend, by decide, by decide, by decide, by decide,
    honce hend 3 (by decide) (by decide)⟩

end Scan

end TinyRedis
