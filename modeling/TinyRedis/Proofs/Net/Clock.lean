import TinyRedis.Proofs.Net.Serial

/-!
# `TinyRedis.Proofs.Net.Clock`: one reading of the clock for each tick

The server reads the clock lazily and caches it for the tick. Every answer of `nowMs()` is in the
journal of the run, and so is every batch of events, every command and every sweep. What is said
here of the clock is said of the journal, at every moment of every run:

* `JournalEntry.Timely`: within a tick the clock is read at most once, and at least once before the
  tick ends. Every command and every sweep of the tick is made at that reading. A server that read
  the clock for each command would write two readings between two ticks, which `Timely` does not
  allow.
* `OnTime`: the journal is such a one, it is complete (its commands and sweeps are what the store
  and the sessions are explained by), and the times that the store is given go back only where the
  clock itself does. The counter of the ticks is 64 bits wide and may wrap around. It is compared
  with the tick of the last reading only, and every tick has a reading, so the wrap is not seen.
* `JournalEntry.Paced`: a sweep comes at least an expire interval after the one before it, and no
  tick ends with a sweep overdue.
* `Pacing`: so any `n` sweeps in a row take `n` expire intervals, wherever in the run they begin.

Pacing is said of clocks that are never negative. The difference of two times that are not negative
does not overflow; of other times it may, and the source then has no defined behaviour.

The proofs carry `Plane.Timed` and `Plane.Swept` along a trace, with one case for each action.
-/

set_option autoImplicit false

namespace TinyRedis

open Lib Exec

/-! ### What is read off a journal -/

namespace JournalEntry

/-- The reading of the clock after an event, in the tick that it is in. -/
def read (r : Option Int64) : JournalEntry → Option Int64
  | .tick => none
  | .clock t => some t
  | _ => r

/-- The answer of the clock that the event is. -/
def clock? : JournalEntry → Option Int64
  | .clock t => some t
  | _ => none

/-- The time that the event gives to the store. -/
def time? : JournalEntry → Option Int64
  | .command _ _ now => some now
  | .sweep now => some now
  | _ => none

/-- The time of a sweep. -/
def sweep? : JournalEntry → Option Int64
  | .sweep now => some now
  | _ => none

end JournalEntry

/-- The reading of the clock in the tick that the journal ends in, if it has been read there. -/
def reading (journal : List JournalEntry) : Option Int64 := journal.foldl JournalEntry.read none

/-- One more event, and the reading after it. -/
@[simp] theorem reading_concat (journal : List JournalEntry) (e : JournalEntry) :
    reading (journal ++ [e]) = e.read (reading journal) := by
  simp [reading]

/-- All answers of the clock, first to last. -/
def readings (journal : List JournalEntry) : List Int64 := journal.filterMap JournalEntry.clock?

/-- All times that the store was given, first to last. -/
def times (journal : List JournalEntry) : List Int64 := journal.filterMap JournalEntry.time?

/-- The times of the sweeps, first to last. -/
def sweeps (journal : List JournalEntry) : List Int64 := journal.filterMap JournalEntry.sweep?

/-! What one more event adds. -/

/-- What one more event adds to the readings. -/
theorem readings_concat (journal : List JournalEntry) (e : JournalEntry) :
    readings (journal ++ [e]) = readings journal ++ e.clock?.toList := filterMap_concat ..

/-- What it adds to the times that the store was given. -/
theorem times_concat (journal : List JournalEntry) (e : JournalEntry) :
    times (journal ++ [e]) = times journal ++ e.time?.toList := filterMap_concat ..

/-- What it adds to the sweeps. -/
theorem sweeps_concat (journal : List JournalEntry) (e : JournalEntry) :
    sweeps (journal ++ [e]) = sweeps journal ++ e.sweep?.toList := filterMap_concat ..

/-- The time of the last sweep. Before the first one it is that of a new server. -/
def lastSweep (journal : List JournalEntry) : Int64 := (sweeps journal).getLast?.getD 0

/-- A sweep is the last one, and every other event leaves the last one as it was. -/
theorem lastSweep_concat (journal : List JournalEntry) (e : JournalEntry) :
    lastSweep (journal ++ [e]) = e.sweep?.getD (lastSweep journal) := by
  rw [lastSweep, sweeps_concat]
  cases e.sweep? with
  | none => simp [lastSweep]
  | some t => simp

/-! ### One reading for each tick -/

/-- The event is at the reading of its tick. A tick has one reading, and ends only after it. -/
def JournalEntry.Timely (before : List JournalEntry) : JournalEntry → Prop
  | .tick => before = [] ∨ (reading before).isSome
  | .clock _ => reading before = none
  | .command _ _ now => reading before = some now
  | .sweep now => reading before = some now

/-- The times given to the store, against the answers of the clock and the reading of the tick. -/
structure Ordered (times readings : List Int64) (r : Option Int64) : Prop where
  sorted : times.Pairwise (· ≤ ·)
  subset : times ⊆ readings
  /-- The reading of the tick is the latest. -/
  latest : ∀ t ∈ r, t ∈ readings ∧ ∀ t' ∈ readings, t' ≤ t

namespace Ordered

variable {times readings : List Int64} {r : Option Int64}

/-- A time given to the store is the reading of its tick. -/
theorem give (h : Ordered times readings r) {t : Int64} (ht : r = some t) :
    Ordered (times ++ [t]) readings r := by
  obtain ⟨hmem, hmax⟩ := h.latest t ht
  refine ⟨List.pairwise_append.mpr ⟨h.sorted, List.pairwise_singleton .., ?_⟩, ?_, h.latest⟩
  · intro t' ht' t'' ht''
    rw [List.mem_singleton.mp ht'']
    exact hmax t' (h.subset ht')
  · exact List.append_subset.mpr ⟨h.subset, by simpa using hmem⟩

/-- A later answer of the clock is the new reading. -/
theorem look (h : Ordered times readings r) {t : Int64} (ht : ∀ t' ∈ readings, t' ≤ t) :
    Ordered times (readings ++ [t]) (some t) := by
  refine ⟨h.sorted, fun t' ht' => List.mem_append_left _ (h.subset ht'), ?_⟩
  rintro _ ⟨⟩
  refine ⟨by simp, fun t' ht' => ?_⟩
  rcases List.mem_append.mp ht' with ht' | ht'
  · exact ht t' ht'
  · rw [List.mem_singleton.mp ht']
    exact Int64.le_refl t

/-- A new tick has no reading yet. -/
theorem tick (h : Ordered times readings r) : Ordered times readings none :=
  ⟨h.sorted, h.subset, nofun⟩

end Ordered

/-- Times go back only where the clock does. -/
theorem ordered_of_timely {journal : List JournalEntry} (h : Each JournalEntry.Timely journal)
    (hclock : (readings journal).Pairwise (· ≤ ·)) :
    Ordered (times journal) (readings journal) (reading journal) := by
  induction journal using List.reverseRecOn with
  | nil => exact ⟨.nil, nofun, nofun⟩
  | append_singleton journal e ih =>
    obtain ⟨hbefore, hat⟩ := each_concat.mp h
    rw [readings_concat, List.pairwise_append] at hclock
    have hprev := ih hbefore hclock.1
    rw [times_concat, readings_concat, reading_concat]
    cases e with
    | tick => simpa [JournalEntry.time?, JournalEntry.clock?, JournalEntry.read] using hprev.tick
    | clock t =>
      have hlast : ∀ t' ∈ readings journal, t' ≤ t := fun t' ht' =>
        hclock.2.2 t' ht' t (by simp [JournalEntry.clock?])
      simpa [JournalEntry.time?, JournalEntry.clock?, JournalEntry.read] using hprev.look hlast
    | command id cmd now =>
      simpa [JournalEntry.time?, JournalEntry.clock?, JournalEntry.read] using hprev.give hat
    | sweep now =>
      simpa [JournalEntry.time?, JournalEntry.clock?, JournalEntry.read] using hprev.give hat

/-! ### The pace of the sweeps -/

/-- A sweep comes at least an interval after the one before it. When the next tick begins, the tick
that has ended has swept, or the last sweep is less than an interval older than its reading. -/
def JournalEntry.Paced (interval : Int) (before : List JournalEntry) : JournalEntry → Prop
  | .tick => before = [] ∨ ∃ t, reading before = some t ∧
      (lastSweep before = t ∨ t.toInt < (lastSweep before).toInt + interval)
  | .sweep now => (lastSweep before).toInt + interval ≤ now.toInt
  | _ => True

/-- Any sweeps in a row take as many intervals as they are. -/
theorem sweeps_mul_le {interval : Int} {before : List JournalEntry} :
    ∀ {after : List JournalEntry}, Each (JournalEntry.Paced interval) (before ++ after) →
      (lastSweep before).toInt + (sweeps after).length * interval
        ≤ (lastSweep (before ++ after)).toInt := by
  intro after
  induction after using List.reverseRecOn with
  | nil =>
    intro _
    simp [sweeps]
  | append_singleton after e ih =>
    intro h
    rw [← List.append_assoc] at h ⊢
    obtain ⟨hprev, hpaced⟩ := each_concat.mp h
    have hle := ih hprev
    rw [lastSweep_concat, sweeps_concat, List.length_append]
    cases e with
    | sweep now =>
      have hgap : (lastSweep (before ++ after)).toInt + interval ≤ now.toInt := hpaced
      show _ + ((sweeps after).length + 1 : Nat) * interval ≤ now.toInt
      rw [Nat.cast_add, Nat.cast_one, Int.add_mul, Int.one_mul]
      omega
    | tick | clock | command => exact hle

/-- The reading of a tick is an answer of the clock. -/
theorem mem_readings {journal : List JournalEntry} {t : Int64} (h : reading journal = some t) :
    t ∈ readings journal := by
  induction journal using List.reverseRecOn with
  | nil => cases h
  | append_singleton journal e ih =>
    rw [reading_concat] at h
    rw [readings_concat]
    cases e with
    | tick => cases h
    | clock t' =>
      cases h
      exact List.mem_append_right _ List.mem_cons_self
    | command | sweep => exact List.mem_append_left _ (ih h)

/-- The times of a journal are readings of its clock. -/
theorem times_subset_readings {journal : List JournalEntry} (h : Each JournalEntry.Timely journal) :
    times journal ⊆ readings journal := by
  induction journal using List.reverseRecOn with
  | nil => exact nofun
  | append_singleton journal e ih =>
    obtain ⟨hbefore, hat⟩ := each_concat.mp h
    rw [times_concat, readings_concat]
    refine List.append_subset.mpr ⟨fun t ht => List.mem_append_left _ (ih hbefore ht), ?_⟩
    intro t ht
    cases e with
    | tick | clock => cases ht
    | command | sweep =>
      obtain rfl := List.mem_singleton.mp ht
      exact List.mem_append_left _ (mem_readings hat)

variable [EntryPool]

/-! ### Traces -/

/-- The plane against its journal: the cache holds the reading of the tick, and is stale when there
is none. -/
structure Plane.Timed (q : Plane) : Prop where
  timely : Each JournalEntry.Timely q.journal
  read : q.Read → reading q.journal = some q.cachedNow
  stale : ¬ q.Read → reading q.journal = none
  ticks : q.tickCount = UInt64.ofNat (q.journal.count .tick)

/-- The last sweep of the plane is that of the journal, and the sweeps are paced. -/
structure Plane.Swept (q : Plane) : Prop where
  paced : Each (JournalEntry.Paced q.cfg.expireIntervalMs.toInt) q.journal
  last : lastSweep q.journal = q.lastSweepMs
  nonneg : 0 ≤ q.lastSweepMs

namespace Act

variable {p q : Plane} {a : Action}

/-- The step lemma: an event is at the reading of its tick, and the cache follows the clock. -/
theorem timed (h : Act p a q) (hp : p.Timed) : q.Timed := by
  have hcount : ∀ e, e ≠ JournalEntry.tick →
      p.tickCount = UInt64.ofNat ((p.journal ++ [e]).count .tick) := by
    intro e he
    rw [hp.ticks, List.count_append, List.count_singleton, if_neg (by simpa using he)]
    rfl
  -- Four actions write to the journal. The others leave everything that `Timed` is about.
  cases h with
  | tick hrested =>
    refine ⟨each_concat.mpr ⟨hp.timely, ?_⟩, ?_, ?_, ?_⟩
    · rcases hrested with ⟨hempty, -⟩ | ⟨hread, -⟩
      · exact .inl hempty
      · exact .inr (by rw [hp.read hread]; rfl)
    · exact fun hread => absurd hread hrested.stale
    · intro _
      rw [reading_concat]
      rfl
    · show p.tickCount + 1 = UInt64.ofNat ((p.journal ++ [JournalEntry.tick]).count .tick)
      rw [hp.ticks, List.count_append, List.count_singleton_self, UInt64.ofNat_add]
      rfl
  | clock t hread =>
    refine ⟨each_concat.mpr ⟨hp.timely, hp.stale hread⟩, fun _ => ?_, fun hnot => ?_, ?_⟩
    · rw [reading_concat]
      rfl
    · exact absurd rfl hnot
    · exact hcount _ (by simp)
  | command _ _ hread =>
    refine ⟨each_concat.mpr ⟨hp.timely, hp.read hread⟩, ?_, ?_, ?_⟩
    · intro hread
      rw [Plane.put, Plane.record, reading_concat]
      exact hp.read hread
    · exact fun hnot => absurd hread hnot
    · exact hcount _ (by simp)
  | sweep hread =>
    refine ⟨each_concat.mpr ⟨hp.timely, hp.read hread⟩, ?_, ?_, ?_⟩
    · intro hread
      rw [reading_concat]
      exact hp.read hread
    · exact fun hnot => absurd hread hnot
    · exact hcount _ (by simp)
  | connect | prepare | receive | refuse | send | watch | lose | shut | destroy =>
    exact ⟨hp.timely, hp.read, hp.stale, hp.ticks⟩

end Act

namespace Plane

variable {p : Plane}

/-- Times that are not negative do not overflow in the subtraction. -/
theorem due_iff (hnow : 0 ≤ p.cachedNow) (hlast : 0 ≤ p.lastSweepMs) :
    p.Due ↔ p.lastSweepMs.toInt + p.cfg.expireIntervalMs.toInt ≤ p.cachedNow.toInt := by
  have hnow' : 0 ≤ p.cachedNow.toInt := Int64.le_iff_toInt_le.mp hnow
  have hlast' : 0 ≤ p.lastSweepMs.toInt := Int64.le_iff_toInt_le.mp hlast
  have hnow'' := p.cachedNow.toInt_lt
  have hlast'' := p.lastSweepMs.toInt_lt
  rw [Due, ge_iff_le, Int64.le_iff_toInt_le, Int64.toInt_sub,
    Int.bmod_eq_of_le (by omega) (by omega), Int32.toInt_toInt64]
  omega

end Plane

/-- The step lemma, where the clock has not been negative. -/
theorem Act.swept {p q : Plane} {a : Action} (h : Act p a q) (htimed : p.Timed) (hp : p.Swept)
    (hclock : ∀ t, reading p.journal = some t → 0 ≤ t) : q.Swept := by
  have hcached : p.Read → 0 ≤ p.cachedNow := fun hread => hclock _ (htimed.read hread)
  -- Only a sweep moves the time of the last one, and only a tick asks whether one is overdue.
  cases h with
  | tick hrested =>
    refine ⟨each_concat.mpr ⟨hp.paced, ?_⟩, ?_, hp.nonneg⟩
    · rcases hrested with ⟨hempty, -⟩ | ⟨hread, hswept⟩
      · exact .inl hempty
      · refine .inr ⟨p.cachedNow, htimed.read hread, ?_⟩
        rw [hp.last]
        by_cases hdue : p.Due
        · exact .inl (hswept hdue)
        · rw [Plane.due_iff (hcached hread) hp.nonneg, Int.not_le] at hdue
          exact .inr hdue
    · rw [lastSweep_concat]
      exact hp.last
  | clock t =>
    refine ⟨each_concat.mpr ⟨hp.paced, trivial⟩, ?_, hp.nonneg⟩
    rw [lastSweep_concat]
    exact hp.last
  | command =>
    refine ⟨each_concat.mpr ⟨hp.paced, trivial⟩, ?_, hp.nonneg⟩
    rw [Plane.put, Plane.record, lastSweep_concat]
    exact hp.last
  | sweep hread hdue =>
    refine ⟨each_concat.mpr ⟨hp.paced, ?_⟩, ?_, hcached hread⟩
    · have hgap := (Plane.due_iff (hcached hread) hp.nonneg).mp hdue
      rw [← hp.last] at hgap
      exact hgap
    · rw [lastSweep_concat]
      rfl
  | connect | prepare | receive | refuse | send | watch | lose | shut | destroy =>
    exact ⟨hp.paced, hp.last, hp.nonneg⟩

namespace Acts

variable {p q : Plane} {actions : List Action}

/-- The run lemma for the clock. -/
theorem timed (h : Acts p actions q) (hp : p.Fresh) : q.Timed := by
  induction h with
  | nil =>
    refine ⟨?_, fun hread => absurd hread hp.stale, fun _ => ?_, ?_⟩
    · rw [hp.journal]
      exact each_nil _
    · rw [hp.journal]
      rfl
    · rw [hp.tickCount, hp.journal]
      rfl
  | snoc _ hact ih => exact hact.timed ih

/-- The run lemma for the sweeps. -/
theorem swept (h : Acts p actions q) (hp : p.Fresh) (hclock : ∀ t ∈ readings q.journal, 0 ≤ t) :
    q.Swept := by
  induction h with
  | nil =>
    refine ⟨?_, ?_, ?_⟩
    · rw [hp.journal]
      exact each_nil _
    · rw [hp.journal, hp.lastSweepMs]
      rfl
    · rw [hp.lastSweepMs]
      exact Int64.le_refl 0
  | snoc hacts hact ih =>
    have hbefore : ∀ t ∈ readings _, 0 ≤ t := fun t ht => hclock t (by
      rw [readings, hact.journal_filterMap]
      exact List.mem_append_left _ ht)
    exact hact.swept (hacts.timed hp) (ih hbefore) fun t ht => hbefore t (mem_readings ht)

end Acts

/-! ### Runs of the server -/

/-- The journal has one reading of the clock for each tick, at which all of the tick is done. -/
structure OnTime (s₀ s : System) : Prop where
  /-- Every command and every sweep that the store or a session has seen is in the journal. -/
  journaled : Journaled s₀ s
  timely : Each JournalEntry.Timely s.journal
  /-- Between the reading of the clock and the end of the tick, the cache is that reading. -/
  cached : ∀ t, reading s.journal = some t → s.server.cachedNow = t
  ticks : s.server.tickCount = UInt64.ofNat (s.journal.count .tick)
  /-- The store is given no time that the clock has not answered. -/
  subset : times s.journal ⊆ readings s.journal
  /-- The times that the store is given go back only where the clock does. -/
  sorted : (readings s.journal).Pairwise (· ≤ ·) → (times s.journal).Pairwise (· ≤ ·)

/-- If the clock has not been negative, the sweeps of the journal are an interval apart and none of
them is late. -/
def Pacing (interval : Int) (s : System) : Prop :=
  (∀ t ∈ readings s.journal, 0 ≤ t) →
    lastSweep s.journal = s.server.lastSweepMs ∧ Each (JournalEntry.Paced interval) s.journal ∧
    ∀ before after, s.journal = before ++ after →
      (lastSweep before).toInt + (sweeps after).length * interval ≤ (lastSweep s.journal).toInt

namespace Server

variable {cfg : Config} {rd : UInt64} {listenFd : Fd} {reserveFd : Option Fd} {held : Fd → Bool}
  {s₀ : System}

/-- The clock is read once for each tick, and every command and every sweep of the tick is made at
that reading, at every moment of every run. -/
theorem run_onTime (hnew : Server.new cfg rd listenFd reserveFd held = some s₀)
    (script : List Answers) :
    (Server.run script s₀).SatUnless (¬ cfg.Valid) (fun _ => OnTime s₀) (fun _ => OnTime s₀) := by
  refine run_always hnew (fun s _ _ hruns => ?_) script
  obtain ⟨hfresh, -⟩ := new_fresh hnew
  have hjournaled := hruns.journaled hfresh
  obtain ⟨actions, hacts⟩ := hruns
  have htimed := hacts.timed hfresh
  refine ⟨hjournaled, htimed.timely, fun t ht => ?_, htimed.ticks,
    times_subset_readings htimed.timely, fun hclock => ?_⟩
  · by_cases hread : s.plane.Read
    · exact Option.some.inj ((htimed.read hread).symm.trans ht)
    · cases (htimed.stale hread).symm.trans ht
  · exact (ordered_of_timely htimed.timely hclock).sorted

omit [EntryPool] in
/-- Two clients in one batch: the clock is read for the first command of the first of them, and not
again, although it has moved on. -/
theorem run_onTime_batch : letI := slabPool
    let cfg : Config := { store := { seed := 7, initialBuckets := 4 } }
    let accepting : List Answers := [{}, {}, { wait := .ok [(3, EPOLLIN)] }, {},
      { accept := .ok 7 }, {}, {}, {}, { accept := .ok 8 }, {}, {}, {}, {}, { nowMs := 1000 }]
    let serving : List Answers := [{}, {}, { wait := .ok [(7, EPOLLIN), (8, EPOLLIN)] },
      { read := .ok (ascii "PING\r\nPING\r\n") }, { nowMs := 1099 }, { nowMs := 1200 }, {}, {}, {},
      { write := .ok 14 }, {}, { read := .ok (ascii "PING\r\n") }, {}, {}, {}, { write := .ok 7 }]
    let ping : Command := (parseCommand (ascii "PING\r\n") Command.empty).2
    ∃ s₀ call s, Server.new cfg 0 3 (some 4) (fun fd => fd < 3) = some s₀ ∧
      Server.run (accepting ++ serving) s₀ = .waiting call s ∧
      s.journal = [.tick, .clock 1000, .sweep 1000, .tick, .clock 1099, .command 0 ping 1099,
        .command 0 ping 1099, .command 1 ping 1099] ∧ OnTime s₀ s := by
  let _ := slabPool
  intro cfg accepting serving ping
  obtain ⟨s₀, call, s, hnew, hrun, hs⟩ := exists_moment cfg (accepting ++ serving)
    (fun s => s.journal = [.tick, .clock 1000, .sweep 1000, .tick, .clock 1099,
      .command 0 ping 1099, .command 0 ping 1099, .command 1 ping 1099]) (by decide +kernel)
  have honTime := run_onTime hnew (accepting ++ serving)
  rw [hrun] at honTime
  exact ⟨s₀, call, s, hnew, hrun, of_decide_eq_true hs, honTime⟩

/-- Sweeps are paced, at every moment of every run with a clock that is never negative. Any sweeps
in a row take an expire interval each, and no tick ends with a sweep overdue. -/
theorem run_paced (hnew : Server.new cfg rd listenFd reserveFd held = some s₀)
    (script : List Answers) :
    (Server.run script s₀).SatUnless (¬ cfg.Valid) (fun _ => Pacing cfg.expireIntervalMs.toInt)
      (fun _ => Pacing cfg.expireIntervalMs.toInt) := by
  refine run_always hnew (fun s _ _ hruns hclock => ?_) script
  obtain ⟨hfresh, hcfg⟩ := new_fresh hnew
  obtain ⟨actions, hacts⟩ := hruns
  have hswept := hacts.swept hfresh hclock
  have hpaced := hswept.paced
  rw [hacts.cfg_eq, hcfg] at hpaced
  refine ⟨hswept.last, hpaced, fun before after hsplit => ?_⟩
  rw [show s.plane.journal = before ++ after from hsplit] at hpaced
  rw [hsplit]
  exact sweeps_mul_le hpaced

omit [EntryPool] in
/-- Four waits that time out. The second comes too early for a sweep, and the third is late: the
next sweep is counted from there. -/
theorem run_paced_timeouts : letI := slabPool
    let cfg : Config := { store := { seed := 7, initialBuckets := 4 } }
    let script : List Answers := [{}, {}, {}, { nowMs := 1000 }, {}, {}, {}, { nowMs := 1099 }, {},
      {}, {}, { nowMs := 1130 }, {}, {}, {}, { nowMs := 1229 }, {}, {}, {}, { nowMs := 1230 }]
    ∃ s₀ call s, Server.new cfg 0 3 (some 4) (fun fd => fd < 3) = some s₀ ∧
      Server.run script s₀ = .waiting call s ∧
      readings s.journal = [1000, 1099, 1130, 1229, 1230] ∧
      sweeps s.journal = [1000, 1130, 1230] ∧ Pacing cfg.expireIntervalMs.toInt s := by
  let _ := slabPool
  intro cfg script
  obtain ⟨s₀, call, s, hnew, hrun, hs⟩ := exists_moment cfg script
    (fun s => readings s.journal = [1000, 1099, 1130, 1229, 1230] ∧
      sweeps s.journal = [1000, 1130, 1230]) (by decide +kernel)
  have hpacing := run_paced hnew script
  rw [hrun] at hpacing
  obtain ⟨hreadings, hsweeps⟩ := of_decide_eq_true hs
  exact ⟨s₀, call, s, hnew, hrun, hreadings, hsweeps, hpacing⟩

end Server

end TinyRedis
