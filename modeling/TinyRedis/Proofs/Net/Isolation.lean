import TinyRedis.Proofs.Command.Apart
import TinyRedis.Proofs.Command.Exhaustion
import TinyRedis.Proofs.Net.Clock
import TinyRedis.Proofs.Net.Reference

/-!
# `TinyRedis.Proofs.Net.Isolation`: clients with keys of their own do not see each other

Suppose that one client uses only keys of a set `mine` and asks for nothing of the whole store, and
that no other client uses a key of the set or flushes the store. Then the client is sent what it
would be sent if it had the store to itself: the same commands at the same times, on a new store,
with nobody else's commands and no sweeps in between (`run_isolated`). How the events of the clients
interleave does not matter.

Two things of the others could still be seen, and the hypotheses exclude them. If the SETs of all
clients together name as many keys as the store may hold, one client's keys push out another's. And
if the clock goes back, a sweep may remove a key that is live again afterwards.

* `Separate`: the clients keep to their keys. It is a property of the journal, so a run that is
  computed can be checked for it.
* `Session.Alone`: the commands of the client on a store of its own, and what they answer.
* `Act.unseen`: one action, in one case for each kind of transaction on the store.
* `Acts.unseen`: a trace, with a clock that does not go back.

The proof carries along the trace a second store, on which only the client's own commands are made,
and the relation `Store.Apart` to the store of the server.
-/

set_option autoImplicit false

namespace TinyRedis

open Lib

/-- What the journal may show of the clients. The client `id` uses the keys of `mine` and asks for
nothing of the whole store. The others flush nothing and use other keys. All SETs are of keys of
`K`. -/
def JournalEntry.Keeps (id : ConnId) (mine K : Finset Bytes) : JournalEntry → Prop
  | .command id' cmd _ =>
      (id' = id → cmd.whole = false ∧ ∀ k ∈ cmd.keys, k ∈ mine) ∧
      (id' ≠ id → cmd.handler? ≠ some .kFlushall ∧ ∀ k ∈ cmd.keys, k ∉ mine) ∧
      ∀ k ∈ cmd.setKey?, k ∈ K
  | _ => True

/-- Whether an event keeps to the keys can be checked. -/
instance (id : ConnId) (mine K : Finset Bytes) : DecidablePred (JournalEntry.Keeps id mine K)
  | .command id' cmd _ => inferInstanceAs (Decidable
      ((id' = id → cmd.whole = false ∧ ∀ k ∈ cmd.keys, k ∈ mine) ∧
        (id' ≠ id → cmd.handler? ≠ some .kFlushall ∧ ∀ k ∈ cmd.keys, k ∉ mine) ∧
        ∀ k ∈ cmd.setKey?, k ∈ K))
  | .tick | .clock _ | .sweep _ => isTrue trivial

/-- The client `id` has the keys of `mine` to itself, and all SETs together are of keys of `K`. -/
def Separate (journal : List JournalEntry) (id : ConnId) (mine K : Finset Bytes) : Prop :=
  ∀ e ∈ journal, e.Keeps id mine K

/-- Whether the clients keep to their keys can be checked for a journal. -/
instance (journal : List JournalEntry) (id : ConnId) (mine K : Finset Bytes) :
    Decidable (Separate journal id mine K) :=
  inferInstanceAs (Decidable (∀ e ∈ journal, e.Keeps id mine K))

variable [EntryPool]

/-- The client's commands, made one after another on a store of their own, give the store `w` and
the replies that the client was given. -/
def Session.Alone (store : Store) (h : Session) (w : Store) : Prop :=
  ∃ out, dispatchAll store (Buffer.new 0) (h.dispatched.map fun d => (d.cmd, d.now))
      = some (w, out) ∧ out.readable = h.dispatched.flatMap Dispatch.reply

/-- One more command, which is answered alike on both stores. -/
theorem Session.Alone.snoc {store s s' w w' : Store} {h h' : Session} {cmd : Command} {now : Int64}
    {x : DispatchResult × Option RespReply} (halone : h.Alone store w)
    (hs : (cmd.plan now).runM Store.Op.run s = some (x, s'))
    (hw : (cmd.plan now).runM Store.Op.run w = some (x, w'))
    (hd : h'.dispatched = h.dispatched ++ [{ store := s, cmd, now }]) : h'.Alone store w' := by
  obtain ⟨out, hrun, hout⟩ := halone
  have hreply : Dispatch.reply { store := s, cmd, now } = replyBytes x.2 := by
    rw [Dispatch.reply, dispatch_of_plan (Buffer.new 0) hs]
    simp
  refine ⟨emitReply out x.2, ?_, ?_⟩
  · rw [hd, List.map_append, List.map_singleton, dispatchAll_append, hrun, Option.bind_some,
      dispatchStep, dispatch_of_plan out hw]
    rfl
  · rw [hd, List.flatMap_append, List.flatMap_singleton, ← hout, hreply, readable_emitReply]

/-! ### Traces -/

/-- The time of a transaction. -/
def Transaction.time : Transaction → Int64
  | .command _ _ now | .sweep now => now

omit [EntryPool] in
/-- The store is given the time of the transaction. -/
theorem Transaction.time?_event (tr : Transaction) : tr.event.time? = some tr.time := by
  cases tr <;> rfl

namespace Transaction

variable {sampleBuckets : Nat} {s s' s₁ : Store} {note : Option (ConnId × Dispatch)}

/-- A sweep leaves what the expire cycle leaves, and notes nothing. -/
theorem sweep_eq {now : Int64} {r : ExpireCycleResult}
    (h : (Transaction.sweep now).step sampleBuckets s = some (note, s'))
    (hrun : s.activeExpireCycle now sampleBuckets = some (r, s₁)) : note = none ∧ s' = s₁ := by
  rw [Transaction.step, hrun] at h
  cases h
  exact ⟨rfl, rfl⟩

/-- A command leaves what its plan leaves. -/
theorem command_eq {id : ConnId} {cmd : Command} {now : Int64}
    {x : DispatchResult × Option RespReply}
    (h : (Transaction.command id cmd now).step sampleBuckets s = some (note, s'))
    (hrun : (cmd.plan now).runM Store.Op.run s = some (x, s₁)) : s' = s₁ := by
  rw [Transaction.step, dispatch_of_plan (Buffer.new 0) hrun] at h
  cases h
  rfl

end Transaction

section Trace

variable {K mine : Finset Bytes} {id : ConnId} {store : Store}

/-- At the time `t` and later, the client cannot tell the store of the plane from the one that has
seen only its own commands. -/
def Plane.Unseen (q : Plane) (id : ConnId) (mine K : Finset Bytes) (store : Store) (t : Int64) :
    Prop :=
  ∃ w, (q.sessions id).Alone store w ∧ Store.Apart K mine t q.store w

/-- The relation is about the times to come, so it stays as the clock goes on. -/
theorem Plane.Unseen.mono {q : Plane} {t t' : Int64} (h : q.Unseen id mine K store t)
    (hle : t ≤ t') : q.Unseen id mine K store t' := by
  obtain ⟨w, halone, hapart⟩ := h
  exact ⟨w, halone, hapart.mono hle⟩

/-- Where nothing is dispatched on the session, the same store stands for it. -/
theorem Session.Alone.same {h h' : Session} {w : Store} (halone : h.Alone store w)
    (heq : h'.dispatched = h.dispatched) : h'.Alone store w := by
  unfold Session.Alone
  rw [heq]
  exact halone

/-- The step lemma. -/
theorem Act.unseen {p q : Plane} {a : Action} (h : Act p a q) {t : Int64}
    (hp : p.Unseen id mine K store t) (hsep : Separate q.journal id mine K)
    (htime : ∀ t' ∈ a.event?.bind JournalEntry.time?, t' = t) : q.Unseen id mine K store t := by
  obtain ⟨w, halone, hapart⟩ := hp
  cases htrans : a.transaction? with
  | none =>
    obtain ⟨hstore, hsame⟩ := h.quiet htrans
    exact ⟨w, halone.same (hsame id), by rwa [hstore]⟩
  | some tr =>
    obtain ⟨note, hstep, hnote⟩ := h.transaction htrans
    have hevent := Action.event?_of_transaction htrans
    obtain rfl : tr.time = t := htime _ (by rw [hevent]; exact tr.time?_event)
    have hkeeps : tr.event.Keeps id mine K := by
      refine hsep _ ?_
      rw [h.journal_eq, hevent]
      exact List.mem_append_right _ List.mem_cons_self
    cases tr with
    | sweep now =>
      obtain ⟨r, s', hrun, hapart'⟩ := hapart.cycle (Int64.le_refl _) p.cfg.expireSampleBuckets
      obtain ⟨rfl, hs'⟩ := Transaction.sweep_eq hstep hrun
      refine ⟨w, halone.same ?_, by rwa [hs']⟩
      rw [hnote id]
      exact List.append_nil _
    | command id' cmd now =>
      change Store.Apart K mine now p.store w at hapart
      have hbounded := h.bounded htrans
      obtain rfl := Transaction.note_of_command hstep
      obtain ⟨hown, hothers, hset⟩ := hkeeps
      -- The client's own command is made on both stores; another's is made on one and not seen on
      -- the other.
      by_cases hid : id' = id
      · subst hid
        obtain ⟨hwhole, hkeys⟩ := hown rfl
        obtain ⟨x, s', w', hs, hw, hapart'⟩ :=
          hapart.own (Int64.le_refl _) hbounded hwhole hkeys hset
        have hs' := Transaction.command_eq hstep hs
        refine ⟨w', halone.snoc hs hw ?_, by rwa [hs']⟩
        rw [hnote id']
        simp [dispatchedBy]
      · obtain ⟨hflush, hkeys⟩ := hothers hid
        obtain ⟨x, s', hs, hapart'⟩ := hapart.other (Int64.le_refl _) hbounded hflush hkeys hset
        have hs' := Transaction.command_eq hstep hs
        refine ⟨w, halone.same ?_, by rwa [hs']⟩
        rw [hnote id]
        simp [dispatchedBy, hid]

/-- The run lemma: whatever time is not before the times of the trace will do. -/
theorem Acts.unseen {p q : Plane} {actions : List Action} (h : Acts p actions q)
    (hstart : Store.Quiet K p.store) (hnone : ∀ id, (p.sessions id).dispatched = [])
    (hsep : Separate q.journal id mine K) (hsorted : (times q.journal).Pairwise (· ≤ ·)) {t : Int64}
    (ht : ∀ t' ∈ times q.journal, t' ≤ t) : q.Unseen id mine K p.store t := by
  induction h generalizing t with
  | nil =>
    refine ⟨p.store, ⟨Buffer.new 0, ?_, ?_⟩, hstart, hstart, fun _ _ _ => rfl⟩
    · rw [hnone id]
      rfl
    · rw [hnone id]
      simp
  | @snoc actions a q r hacts hact ih =>
    rw [times, hact.journal_filterMap] at hsorted ht
    rw [List.pairwise_append] at hsorted
    have hbefore : Separate q.journal id mine K := fun e he => hsep e (by
      rw [hact.journal_eq]
      exact List.mem_append_left _ he)
    have hprev := @ih hbefore hsorted.1
    cases hat : a.event?.bind JournalEntry.time? with
    | none =>
      rw [hat] at ht
      exact hact.unseen (hprev fun t' ht' => ht t' (List.mem_append_left _ ht')) hsep
        (by rw [hat]; rintro _ ⟨⟩)
    | some now =>
      rw [hat] at ht hsorted
      -- No time before was later than that of the last action.
      have hnow : r.Unseen id mine K p.store now :=
        hact.unseen (hprev fun t' ht' => hsorted.2.2 t' ht' now (by simp)) hsep
          (by rw [hat]; rintro _ ⟨⟩; rfl)
      exact hnow.mono (ht now (by simp))

end Trace

/-! ### Runs of the server -/

/-- The client has been sent what its commands alone give on the store. -/
def AloneAs (store : Store) (s : System) (id : ConnId) : Prop :=
  ∃ w out, dispatchAll store (Buffer.new 0)
      ((s.sessions id).dispatched.map fun d => (d.cmd, d.now)) = some (w, out) ∧
    Delivers s id (out.readable ++ (s.sessions id).refusal)

/-- If the clock has not gone back, and fewer keys were set than the store may hold, every client
with keys of its own has been served as if it were alone. -/
def Isolated (s₀ s : System) : Prop :=
  (readings s.journal).Pairwise (· ≤ ·) →
    ∀ id mine K, Separate s.journal id mine K → K.card < s₀.server.store.maxKeys →
      AloneAs s₀.server.store s id

namespace Server

/-- The store of a new server may hold as many keys as its configuration says. -/
theorem new_maxKeys {cfg : Config} {rd : UInt64} {listenFd : Fd} {reserveFd : Option Fd}
    {held : Fd → Bool} {s₀ : System}
    (hnew : Server.new cfg rd listenFd reserveFd held = some s₀) :
    s₀.server.store.maxKeys = resolveMaxKeys cfg.store.maxKeys := by
  obtain ⟨store, hstore, hs₀⟩ := Option.bind_eq_some_iff.mp hnew
  obtain ⟨-, -, -, -, hmax, -⟩ := Store.new_spec hstore
  cases hs₀
  exact hmax

/-- Clients with keys of their own do not see each other, at every moment of every run of the
server, with either eviction policy. -/
theorem run_isolated {cfg : Config} {rd : UInt64} {listenFd : Fd} {reserveFd : Option Fd}
    {held : Fd → Bool} {s₀ : System} (hvalid : cfg.Valid)
    (hnew : Server.new cfg rd listenFd reserveFd held = some s₀) (script : List Answers) :
    (Server.run script s₀).Sat (fun _ => Isolated s₀) (fun _ => Isolated s₀) := by
  refine (run_always hnew fun s act hs hruns hclock id mine K hsep hfew => ?_).wp
    (not_not.mpr hvalid) script
  obtain ⟨actions, hacts⟩ := hruns
  have htimely := (hacts.timed (new_fresh hnew).1).timely
  have hmax : s₀.server.store.maxKeys ≤ kPoolCapacity := by
    rw [new_maxKeys hnew]
    exact (Store.resolveMaxKeys_bounds hvalid.1).2
  obtain ⟨store, hstore, hs₀⟩ := Option.bind_eq_some_iff.mp hnew
  obtain ⟨hinv, hview, -⟩ := Store.new_spec hstore
  cases hs₀
  have hquiet : Store.Quiet K store := ⟨hinv, hmax, hfew, fun k hk => by simp [hview] at hk⟩
  obtain ⟨w, ⟨out, hrun, hout⟩, -⟩ := hacts.unseen (t := Int64.maxValue) hquiet (fun _ => rfl) hsep
    (ordered_of_timely htimely hclock).sorted fun t' _ => Int64.le_maxValue t'
  refine ⟨w, out, hrun, ?_⟩
  rw [hout]
  exact hs.delivers id

omit [EntryPool] in
/-- Two clients with a key each, in one batch and then in another, with a sweep in between. The
first is sent what it would be sent alone. -/
theorem run_isolated_pair : letI := slabPool
    let cfg : Config := { store := { seed := 7, initialBuckets := 4, policy := .kAllKeysLru } }
    let accepting : List Answers := [{}, {}, { wait := .ok [(3, EPOLLIN)] }, {},
      { accept := .ok 7 }, {}, {}, {}, { accept := .ok 8 }, {}, {}, {}, {}, { nowMs := 1000 }]
    let setting : List Answers := [{}, {}, { wait := .ok [(7, EPOLLIN), (8, EPOLLIN)] },
      { read := .ok (ascii "SET a 1\r\n") }, { nowMs := 1100 }, {}, {}, {}, { write := .ok 5 }, {},
      { read := .ok (ascii "SET b 2 PX 9\r\n") }, {}, {}, {}, { write := .ok 5 }, {}]
    let getting : List Answers := [{}, {}, { wait := .ok [(8, EPOLLIN), (7, EPOLLIN)] },
      { read := .ok (ascii "DEL b c\r\n") }, { nowMs := 1120 }, {}, {}, {}, { write := .ok 4 }, {},
      { read := .ok (ascii "GET a\r\n") }, {}, {}, {}, { write := .ok 7 }, {}]
    let script := accepting ++ setting ++ getting
    let mine : Finset Bytes := {ascii "a"}
    let K : Finset Bytes := {ascii "a", ascii "b"}
    ∃ s₀ call s, Server.new cfg 0 3 (some 4) (fun fd => fd < 3) = some s₀ ∧
      Server.run script s₀ = .waiting call s ∧
      readings s.journal = [1000, 1100, 1120] ∧ sweeps s.journal = [1000, 1100] ∧
      Separate s.journal 0 mine K ∧ (s.sessions 0).written = ascii "+OK\r\n$1\r\n1\r\n" ∧
      AloneAs s₀.server.store s 0 := by
  let _ := slabPool
  intro cfg accepting setting getting script mine K
  have hvalid : cfg.Valid := by unfold Config.Valid; decide
  obtain ⟨s₀, call, s, hnew, hrun, hs⟩ := exists_moment cfg script
    (fun s => readings s.journal = [1000, 1100, 1120] ∧ sweeps s.journal = [1000, 1100] ∧
      Separate s.journal 0 mine K ∧ (s.sessions 0).written = ascii "+OK\r\n$1\r\n1\r\n")
    (by decide +kernel)
  obtain ⟨hreadings, hsweeps, hsep, hwritten⟩ := of_decide_eq_true hs
  have hisolated := run_isolated hvalid hnew script
  rw [hrun] at hisolated
  have hclock : (readings s.journal).Pairwise (· ≤ ·) := by
    rw [hreadings]
    decide
  refine ⟨s₀, call, s, hnew, hrun, hreadings, hsweeps, hsep, hwritten,
    hisolated hclock 0 mine K hsep ?_⟩
  rw [new_maxKeys hnew]
  decide

end Server

end TinyRedis
