import TinyRedis.Proofs.Net.Isolation
import TinyRedis.Proofs.Store.Reclaim

/-!
# `TinyRedis.Proofs.Net.Reclaim`: the server lets go of expired items

`TinyRedis.Proofs.Store.Reclaim` counts cycles between arbitrary calls. Here the calls are those of
the commands of all clients, and the cycles are the sweeps of the server: at every moment of every
run, what had expired at a time `T` is gone if `2 * bucketCount` sweeps have been made at `T` or
later, whether or not any client has asked for the key (`run_reclaims`).

* `Store.Reclaiming`: how far the sweeps have come, in terms of the store.
* `Store.Reclaiming.command`, `cycle`: a command keeps it, and a sweep counts one up.
* `sweepsFrom`: how many sweeps of the journal have been made at `T` or later.
* `Acts.reclaiming`: the two agree along a trace whose clock does not go back.

The count starts where the clock passes `T`. A transaction before that time counts nothing, and
nothing is known of the items then; since the times are in order, no sweep has been counted by then
either, so the argument begins anew there (`Store.Reclaiming.restart`).
-/

set_option autoImplicit false

namespace TinyRedis

open Lib

variable [EntryPool]

section Trace

variable {presized : Prop} {b₀ m₀ n : Nat} {T : Int64} {s s' : Store}

/-- The store is within its capacity, and `n` sweeps have been made at `T` or later. -/
def Store.Reclaiming (presized : Prop) (b₀ m₀ : Nat) (T : Int64) (n : Nat) (s : Store) : Prop :=
  Store.Cap presized b₀ m₀ s ∧ ∃ b, Store.Sweeping T n b s

/-- A command at `T` or later keeps what the sweeps have reached. -/
theorem Store.Reclaiming.command (h : s.Reclaiming presized b₀ m₀ T n) {cmd : Command}
    (hbounded : cmd.Bounded) {now : Int64} (hle : T ≤ now) :
    ∃ x s', (cmd.plan now).runM Store.Op.run s = some (x, s') ∧
      s'.Reclaiming presized b₀ m₀ T n := by
  refine Plan.runM_rule (Store.Reclaiming presized b₀ m₀ T n) ?_ (cmd.plan_all now) h
  rintro s op ⟨hcap, b, h⟩ hasks
  have hfit := hasks.fits hbounded
  have hlater : ∀ t ∈ op.now?, T ≤ t := fun t ht => hasks.now_eq t ht ▸ hle
  obtain ⟨s', hrun, hcap'⟩ : ∃ s', (Store.Call.client op).run s = some s' ∧
      Store.Cap presized b₀ m₀ s' := hcap.step hfit
  simp only [Store.Call.run, Option.bind_eq_bind, Option.bind_eq_some_iff] at hrun
  obtain ⟨⟨r, s₁⟩, hop, heq⟩ := hrun
  cases heq
  exact ⟨r, s₁, hop, hcap', h.ages (Store.Op.ages h.inv hfit hlater hop)⟩

/-- A sweep at `T` or later counts one up. -/
theorem Store.Reclaiming.cycle (h : s.Reclaiming presized b₀ m₀ T n) {now : Int64} (hle : T ≤ now)
    {sampleLimit : Nat} (hlimit : 1 ≤ sampleLimit) (hquota : sampleLimit * 20 < 2 ^ 64) :
    ∃ r s', s.activeExpireCycle now sampleLimit = some (r, s') ∧
      s'.Reclaiming presized b₀ m₀ T (n + 1) := by
  obtain ⟨hcap, b, h⟩ := h
  obtain ⟨r, s', hrun, hcap'⟩ := hcap.activeExpireCycle now sampleLimit
  exact ⟨r, s', hrun, hcap', b, h.cycle hle hlimit hquota hrun⟩

/-- Nothing is counted yet, whatever the time that is asked about. -/
theorem Store.Reclaiming.restart (h : s.Reclaiming presized b₀ m₀ T n) (T' : Int64) :
    s.Reclaiming presized b₀ m₀ T' 0 := by
  obtain ⟨hcap, b, h⟩ := h
  exact ⟨hcap, b, h.restart T'⟩

/-- The step lemma: an action at `T` or later. -/
theorem Act.reclaiming {p q : Plane} {a : Action} (h : Act p a q)
    (hp : p.store.Reclaiming presized b₀ m₀ T n)
    (hle : ∀ t ∈ a.event?.bind JournalEntry.time?, T ≤ t)
    (hlimit : 1 ≤ p.cfg.expireSampleBuckets) (hquota : p.cfg.expireSampleBuckets * 20 < 2 ^ 64) :
    q.store.Reclaiming presized b₀ m₀ T
      (n + (a.event?.bind JournalEntry.sweep?).toList.length) := by
  cases htrans : a.transaction? with
  | none =>
    have hnone : a.event?.bind JournalEntry.sweep? = none := by
      cases a with
      | sweep => cases htrans
      | _ => rfl
    rw [(h.quiet htrans).1, hnone]
    exact hp
  | some tr =>
    obtain ⟨note, hstep, -⟩ := h.transaction htrans
    have hevent := Action.event?_of_transaction htrans
    rw [hevent] at hle ⊢
    have hnow := hle _ tr.time?_event
    cases tr with
    | sweep now =>
      obtain ⟨r, s', hrun, hs'⟩ := hp.cycle hnow hlimit hquota
      obtain ⟨-, hstore⟩ := Transaction.sweep_eq hstep hrun
      rw [hstore]
      exact hs'
    | command id cmd now =>
      obtain ⟨x, s', hrun, hs'⟩ := hp.command (h.bounded htrans) hnow
      rw [Transaction.command_eq hstep hrun]
      exact hs'

/-- The number of sweeps that were made at `T` or later. -/
def sweepsFrom (T : Int64) (journal : List JournalEntry) : Nat :=
  ((sweeps journal).filter fun now => T ≤ now).length

/-- What an action adds to the count. -/
theorem Act.sweepsFrom_eq {p q : Plane} {a : Action} (h : Act p a q) (T : Int64) :
    sweepsFrom T q.journal = sweepsFrom T p.journal
      + ((a.event?.bind JournalEntry.sweep?).toList.filter fun now => T ≤ now).length := by
  rw [sweepsFrom, sweeps, h.journal_filterMap, List.filter_append, List.length_append]
  rfl

omit [EntryPool] in
/-- A sweep gives its time to the store. -/
theorem JournalEntry.time?_of_sweep {e : JournalEntry} {now : Int64} (h : e.sweep? = some now) :
    e.time? = some now := by
  cases e with
  | sweep =>
    cases h
    rfl
  | tick | clock | command => cases h

omit [EntryPool] in
/-- Before `T` no sweep counts. -/
theorem sweepsFrom_eq_zero {T : Int64} {journal : List JournalEntry}
    (h : ∀ t ∈ times journal, t < T) : sweepsFrom T journal = 0 := by
  rw [sweepsFrom, List.length_eq_zero_iff, List.filter_eq_nil_iff]
  intro now hmem
  obtain ⟨e, he, hsweep⟩ := List.mem_filterMap.mp hmem
  have hlt := h now (List.mem_filterMap.mpr ⟨e, he, JournalEntry.time?_of_sweep hsweep⟩)
  rw [decide_eq_true_eq, Int64.not_le]
  exact hlt

/-- The run lemma. -/
theorem Acts.reclaiming {p q : Plane} {actions : List Action} (h : Acts p actions q)
    (hstart : p.journal = []) (hp : p.store.Reclaiming presized b₀ m₀ T 0)
    (hlimit : 1 ≤ p.cfg.expireSampleBuckets) (hquota : p.cfg.expireSampleBuckets * 20 < 2 ^ 64)
    (hsorted : (times q.journal).Pairwise (· ≤ ·)) :
    q.store.Reclaiming presized b₀ m₀ T (sweepsFrom T q.journal) := by
  induction h with
  | nil =>
    rw [hstart]
    exact hp
  | @snoc actions a q r hacts hact ih =>
    have htimes : times r.journal = times q.journal ++ (a.event?.bind JournalEntry.time?).toList :=
      hact.journal_filterMap JournalEntry.time?
    rw [htimes, List.pairwise_append] at hsorted
    have hq := ih hsorted.1
    rw [← hacts.cfg_eq] at hlimit hquota
    -- Either the action is at `T` or later, or nothing has been counted so far.
    by_cases hle : ∀ t ∈ a.event?.bind JournalEntry.time?, T ≤ t
    · have hcount : (a.event?.bind JournalEntry.sweep?).toList.filter (fun now => T ≤ now)
          = (a.event?.bind JournalEntry.sweep?).toList := by
        rw [List.filter_eq_self]
        intro now hnow
        obtain ⟨e, he, hsweep⟩ := Option.bind_eq_some_iff.mp (Option.mem_toList.mp hnow)
        refine decide_eq_true (hle now ?_)
        rw [he]
        exact JournalEntry.time?_of_sweep hsweep
      rw [hact.sweepsFrom_eq, hcount]
      exact hact.reclaiming hq hle hlimit hquota
    · -- No time before was later, so nothing has been counted, and the count begins anew.
      obtain ⟨t, hat, hlt⟩ : ∃ t, a.event?.bind JournalEntry.time? = some t ∧ t < T := by
        push Not at hle
        obtain ⟨t, hat, hlt⟩ := hle
        exact ⟨t, hat, Int64.not_le.mp hlt⟩
      have hearlier : ∀ t' ∈ times q.journal, t' ≤ t := fun t' ht' =>
        hsorted.2.2 t' ht' t (by rw [hat]; exact List.mem_cons_self)
      have hzero : sweepsFrom T r.journal = 0 := by
        refine sweepsFrom_eq_zero fun t' ht' => ?_
        rw [htimes, hat] at ht'
        rcases List.mem_append.mp ht' with hmem | hmem
        · exact Int64.lt_of_le_of_lt (hearlier t' hmem) hlt
        · rw [List.mem_singleton.mp hmem]
          exact hlt
      rw [hzero]
      refine (hact.reclaiming (hq.restart t) ?_ hlimit hquota).restart T
      rw [hat]
      rintro _ ⟨⟩
      exact Int64.le_refl t

end Trace

/-! ### Runs of the server -/

/-- If the clock has not gone back, then what had expired at any time `T` is gone after
`2 * bucketCount` sweeps at `T` or later. -/
def Reclaimed (s : System) : Prop :=
  (readings s.journal).Pairwise (· ≤ ·) →
    ∀ T, 2 * s.server.store.bucketCount ≤ sweepsFrom T s.journal →
      ∀ k it, s.server.store.view k = some it → it.expired T = false

namespace Server

/-- The server lets go of expired items, at every moment of every run and with either eviction
policy, as long as its sweeps may look at a bucket. -/
theorem run_reclaims {cfg : Config} {rd : UInt64} {listenFd : Fd} {reserveFd : Option Fd}
    {held : Fd → Bool} {s₀ : System} (hvalid : cfg.Valid) (hlimit : 1 ≤ cfg.expireSampleBuckets)
    (hquota : cfg.expireSampleBuckets * 20 < 2 ^ 64)
    (hnew : Server.new cfg rd listenFd reserveFd held = some s₀) (script : List Answers) :
    (Server.run script s₀).Sat (fun _ => Reclaimed) (fun _ => Reclaimed) := by
  refine (run_always hnew fun s act hs hruns hclock T hcount k it hk => ?_).wp
    (not_not.mpr hvalid) script
  obtain ⟨actions, hacts⟩ := hruns
  obtain ⟨hfresh, -⟩ := new_fresh hnew
  have htimely := (hacts.timed hfresh).timely
  obtain ⟨store, hstore, hs₀⟩ := Option.bind_eq_some_iff.mp hnew
  cases hs₀
  obtain ⟨hmax, hsamples, hsamples'⟩ := hvalid
  have hcap := Store.Cap.new hmax hsamples hsamples' hstore
  obtain ⟨-, b, hb⟩ := hacts.reclaiming (T := T) hfresh.journal
    ⟨hcap, Store.new_sweeping hstore T⟩ hlimit hquota (ordered_of_timely htimely hclock).sorted
  by_contra hx
  rw [Bool.not_eq_false] at hx
  cases (hb.clean hcount k).symm.trans (Dict.expiredAt_iff.mpr ⟨it, hk, hx⟩)

omit [EntryPool] in
/-- Two keys with a deadline that nobody asks for again and one without, in four buckets of which
each sweep looks at one. Eight waits time out after the deadlines, and only the third key is left.
-/
theorem run_reclaims_unasked : letI := slabPool
    let cfg : Config := { expireSampleBuckets := 1, store := { seed := 7, initialBuckets := 4 } }
    let accepting : List Answers := [{}, {}, { wait := .ok [(3, EPOLLIN)] }, {},
      { accept := .ok 7 }, {}, {}, {}, {}, { nowMs := 1000 }]
    let setting : List Answers := [{}, {}, { wait := .ok [(7, EPOLLIN)] },
      { read := .ok (ascii "SET a 1 PX 50\r\nSET b 2 PX 60\r\nSET c 3\r\n") }, { nowMs := 1010 },
      {}, {}, {}, {}, {}, { write := .ok 15 }, {}]
    let timeout (now : Int64) : List Answers := [{}, {}, {}, { nowMs := now }]
    let script := accepting ++ setting
      ++ [1110, 1210, 1310, 1410, 1510, 1610, 1710, 1810].flatMap timeout
    ∃ s₀ call s, Server.new cfg 0 3 (some 4) (fun fd => fd < 3) = some s₀ ∧
      Server.run script s₀ = .waiting call s ∧
      s.server.store.bucketCount = 4 ∧ sweepsFrom 1110 s.journal = 8 ∧
      s.server.store.size = 1 ∧
      ∀ k it, s.server.store.view k = some it → it.expired 1110 = false := by
  let _ := slabPool
  intro cfg accepting setting timeout script
  have hvalid : cfg.Valid := by unfold Config.Valid; decide
  obtain ⟨s₀, call, s, hnew, hrun, hs⟩ := exists_moment cfg script
    (fun s => (readings s.journal).Pairwise (· ≤ ·) ∧ s.server.store.bucketCount = 4 ∧
      sweepsFrom 1110 s.journal = 8 ∧ s.server.store.size = 1) (by decide +kernel)
  obtain ⟨hclock, hbuckets, hsweeps, hsize⟩ := of_decide_eq_true hs
  have hreclaimed := run_reclaims hvalid (by decide) (by decide) hnew script
  rw [hrun] at hreclaimed
  refine ⟨s₀, call, s, hnew, hrun, hbuckets, hsweeps, hsize, hreclaimed hclock 1110 ?_⟩
  rw [hbuckets, hsweeps]

end Server

end TinyRedis
