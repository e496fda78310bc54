import TinyRedis.Proofs.Net.Actions

/-!
# `TinyRedis.Proofs.Net.Serial`: all clients are served in one order

The transactions on the store are the commands of the connections and the sweeps. At every moment of
every run there is one list of transactions that explains the store and all sessions (`run_serial`):
made one after another on the store that the server was built with, they give the store as it is,
and each connection has dispatched exactly the commands that are its own in the list, in the order
of the list, each on the store that the transactions before it had left. No update is lost, none is
made twice, and no command sees the middle of another.

* `Transaction.step`: one transaction, with the note that the session of its connection gets.
* `Act.quiet`, `Act.transaction`: an action is a transaction, or does nothing to the store and to
  what has been dispatched.
* `SerialFrom`: a list of transactions explains one state from another.
* `Journaled`: the list is the one in the journal, so it is not merely one that exists.

The list is in the order in which the commands were carried out. For one connection that is the
order in which they arrived (`TinyRedis.Proofs.Net.Streams`); for different connections it is the
order of the events.
-/

set_option autoImplicit false

namespace TinyRedis

open Lib

variable [EntryPool]

/-- What changes the store. -/
inductive Transaction where
  | command (id : ConnId) (cmd : Command) (now : Int64)
  | sweep (now : Int64)
deriving DecidableEq, Repr

/-- A transaction on a store. A command is noted with the connection it is from and what it found.
-/
def Transaction.step (sampleBuckets : Nat) (s : Store) :
    Transaction → Option (Option (ConnId × Dispatch) × Store)
  | .command id cmd now => do
      let (_, s', _) ← dispatch s cmd now (Buffer.new 0)
      return (some (id, { store := s, cmd, now }), s')
  | .sweep now => do
      let (_, s') ← s.activeExpireCycle now sampleBuckets
      return (none, s')

/-- A command is noted for its connection, with the store that it found. -/
theorem Transaction.note_of_command {id : ConnId} {cmd : Command} {now : Int64}
    {sampleBuckets : Nat} {s s' : Store} {note : Option (ConnId × Dispatch)}
    (h : (Transaction.command id cmd now).step sampleBuckets s = some (note, s')) :
    note = some (id, { store := s, cmd, now }) := by
  simp only [Transaction.step, Option.bind_eq_bind, Option.bind_eq_some_iff] at h
  obtain ⟨_, -, heq⟩ := h
  cases heq
  rfl

/-- What a connection has dispatched, of the notes of a run. -/
def dispatchedBy (id : ConnId) (notes : List (Option (ConnId × Dispatch))) : List Dispatch :=
  notes.filterMap fun note => note.bind fun x => if x.1 = id then some x.2 else none

/-- Two stretches of a run, one after the other. -/
theorem dispatchedBy_append (id : ConnId) (notes notes' : List (Option (ConnId × Dispatch))) :
    dispatchedBy id (notes ++ notes') = dispatchedBy id notes ++ dispatchedBy id notes' :=
  List.filterMap_append

/-- The transaction that an action is, if it is one. -/
def Action.transaction? : Action → Option Transaction
  | .command id d => some (.command id d.cmd d.now)
  | .sweep now => some (.sweep now)
  | _ => none

/-- The transaction that an entry of the journal is of, if it is of one. -/
def JournalEntry.transaction? : JournalEntry → Option Transaction
  | .command id cmd now => some (.command id cmd now)
  | .sweep now => some (.sweep now)
  | _ => none

/-- The entry that a transaction makes in the journal. -/
def Transaction.event : Transaction → JournalEntry
  | .command id cmd now => .command id cmd now
  | .sweep now => .sweep now

/-- The transaction of an action can be read off its entry. -/
theorem Action.transaction?_eq (a : Action) :
    a.transaction? = a.event?.bind JournalEntry.transaction? := by
  cases a <;> rfl

/-- A transaction is in the journal. -/
theorem Action.event?_of_transaction {a : Action} {tr : Transaction}
    (h : a.transaction? = some tr) : a.event? = some tr.event := by
  cases a with
  | command | sweep =>
    cases h
    rfl
  | _ => cases h

/-- What a command does to the store does not depend on the output buffer. -/
theorem dispatch_store {s s' : Store} {cmd : Command} {now : Int64} {out out' : Buffer}
    {d : DispatchResult} (h : dispatch s cmd now out = some (d, s', out')) (out₁ : Buffer) :
    ∃ out₂, dispatch s cmd now out₁ = some (d, s', out₂) := by
  obtain ⟨res, -, hres⟩ := dispatch_emits s cmd now
  rw [hres] at h
  obtain ⟨x, hx, heq⟩ := Option.map_eq_some_iff.mp h
  cases heq
  exact ⟨_, by rw [hres, hx]; rfl⟩

/-- A command that is made was defined, whatever is in the output buffer. -/
theorem Transaction.dispatch_defined {id : ConnId} {cmd : Command} {now : Int64}
    {sampleBuckets : Nat} {s s' : Store} {note : Option (ConnId × Dispatch)}
    (h : (Transaction.command id cmd now).step sampleBuckets s = some (note, s')) (out : Buffer) :
    ∃ r, dispatch s cmd now out = some r := by
  obtain ⟨⟨d, s₁, out₁⟩, hdispatch, -⟩ := Option.bind_eq_some_iff.mp h
  obtain ⟨out₂, hout₂⟩ := dispatch_store hdispatch out
  exact ⟨_, hout₂⟩

/-- The session of one connection changes, and not what has been dispatched on it. -/
theorem Plane.dispatched_record {p : Plane} {id : ConnId} {f : Session → Session}
    (hf : ∀ h, (f h).dispatched = h.dispatched) (id' : ConnId) :
    ((p.record id f).sessions id').dispatched = (p.sessions id').dispatched := by
  simp only [Plane.record, Function.update_apply]
  split
  · next hid => rw [hf, hid]
  · rfl

namespace Act

variable {p q : Plane} {a : Action}

/-- An action that is no transaction leaves the store and what has been dispatched. -/
theorem quiet (h : Act p a q) (htrans : a.transaction? = none) :
    q.store = p.store ∧ ∀ id, (q.sessions id).dispatched = (p.sessions id).dispatched := by
  cases h with
  | command | sweep => cases htrans
  | receive | refuse | send | lose => exact ⟨rfl, Plane.dispatched_record fun _ => rfl⟩
  | tick | clock | connect | prepare | watch | shut | destroy => exact ⟨rfl, fun _ => rfl⟩

/-- An action that is a transaction does what the transaction does. -/
theorem transaction (h : Act p a q) {t : Transaction} (htrans : a.transaction? = some t) :
    ∃ note, t.step p.cfg.expireSampleBuckets p.store = some (note, q.store) ∧
      ∀ id, (q.sessions id).dispatched = (p.sessions id).dispatched ++ dispatchedBy id [note] := by
  cases h with
  | @command id c cmd n res store in_ out hc hstate hread hverdict hdispatch hin =>
    cases htrans
    obtain ⟨out', hout'⟩ := dispatch_store hdispatch (Buffer.new 0)
    refine ⟨some (id, { store := p.store, cmd, now := p.cachedNow }), ?_, fun id' => ?_⟩
    · rw [Transaction.step, hout']
      rfl
    · simp only [Plane.put, Plane.record, Function.update_apply]
      split
      · next hid => simp [dispatchedBy, hid]
      · next hid => simp [dispatchedBy, Ne.symm hid]
  | sweep hread hdue hcycle =>
    cases htrans
    refine ⟨none, ?_, fun id => (List.append_nil _).symm⟩
    rw [Transaction.step, hcycle]
    rfl
  | _ => cases htrans

end Act

/-- The transactions explain the store and what every connection has dispatched, from one plane to
another. -/
def Plane.SerialFrom (p q : Plane) (transactions : List Transaction) : Prop :=
  ∃ notes, outputsM (Transaction.step p.cfg.expireSampleBuckets) p.store transactions
      = some (notes, q.store) ∧
    ∀ id, (q.sessions id).dispatched = (p.sessions id).dispatched ++ dispatchedBy id notes

/-- The step lemma: one more action, with the transaction that it is. -/
theorem Plane.SerialFrom.act {p q r : Plane} {transactions : List Transaction} {a : Action}
    (h : p.SerialFrom q transactions) (hcfg : q.cfg = p.cfg) (hact : Act q a r) :
    p.SerialFrom r (transactions ++ a.transaction?.toList) := by
  obtain ⟨notes, hrun, hdispatched⟩ := h
  cases htrans : a.transaction? with
  | none =>
    obtain ⟨hstore, hsame⟩ := hact.quiet htrans
    refine ⟨notes, ?_, fun id => (hsame id).trans (hdispatched id)⟩
    rw [Option.toList_none, List.append_nil, hstore]
    exact hrun
  | some t =>
    obtain ⟨note, hstep, hnote⟩ := hact.transaction htrans
    rw [hcfg] at hstep
    refine ⟨notes ++ [note], outputsM_concat hrun hstep, fun id => ?_⟩
    rw [hnote id, hdispatched id, dispatchedBy_append, List.append_assoc]

/-- The run lemma: what a trace adds to the journal explains the store and the sessions after it. -/
theorem Acts.serial {p q : Plane} {actions : List Action} (h : Acts p actions q) :
    ∃ events, q.journal = p.journal ++ events ∧
      p.SerialFrom q (events.filterMap JournalEntry.transaction?) := by
  induction h with
  | nil => exact ⟨[], (List.append_nil _).symm, [], rfl, fun id => (List.append_nil _).symm⟩
  | @snoc actions a q r hacts hact ih =>
    obtain ⟨events, hjournal, hserial⟩ := ih
    refine ⟨events ++ a.event?.toList, ?_, ?_⟩
    · rw [hact.journal_eq, hjournal, List.append_assoc]
    · have hnext := hserial.act hacts.cfg_eq hact
      rw [Action.transaction?_eq] at hnext
      cases he : a.event? with
      | none =>
        rw [he] at hnext
        simpa using hnext
      | some e =>
        rw [he] at hnext
        rw [Option.toList_some, filterMap_concat]
        exact hnext

/-- One order of transactions leads from `s` to `s'`: it explains the store of `s'`, and what every
connection has dispatched since `s`. -/
def SerialFrom (s s' : System) : Prop :=
  ∃ transactions notes,
    outputsM (Transaction.step s.server.cfg.expireSampleBuckets) s.server.store transactions
      = some (notes, s'.server.store) ∧
    ∀ id, (s'.sessions id).dispatched = (s.sessions id).dispatched ++ dispatchedBy id notes

/-- Every trace has such an order. -/
theorem Runs.serial {s s' : System} (h : Runs s.plane s') : SerialFrom s s' := by
  obtain ⟨actions, hacts⟩ := h
  obtain ⟨events, -, notes, hrun, hdispatched⟩ := hacts.serial
  exact ⟨_, notes, hrun, hdispatched⟩

/-- The order is that of the journal: made one after another on the store of `s₀`, the commands and
the sweeps of the journal give the store of `s`, and they are what the connections have dispatched.
-/
def Journaled (s₀ s : System) : Prop :=
  ∃ notes,
    outputsM (Transaction.step s₀.server.cfg.expireSampleBuckets) s₀.server.store
      (s.journal.filterMap JournalEntry.transaction?) = some (notes, s.server.store) ∧
    ∀ id, (s.sessions id).dispatched = dispatchedBy id notes

/-- The journal of a run explains the store and the sessions. -/
theorem Runs.journaled {s₀ s : System} (h : Runs s₀.plane s) (hfresh : s₀.plane.Fresh) :
    Journaled s₀ s := by
  obtain ⟨actions, hacts⟩ := h
  obtain ⟨events, hjournal, notes, hrun, hdispatched⟩ := hacts.serial
  rw [hfresh.journal, List.nil_append] at hjournal
  refine ⟨notes, ?_, fun id => ?_⟩
  · rw [show s.journal = events from hjournal]
    exact hrun
  · refine (hdispatched id).trans ?_
    rw [hfresh.sessions id]
    rfl

namespace Server

/-- All clients are served in one order, at every moment of every run of the server. The order only
grows: what has been dispatched at a point of the loop stays in front of what is dispatched later,
on whatever connection. -/
theorem run_serial {cfg : Config} {rd : UInt64} {listenFd : Fd} {reserveFd : Option Fd}
    {held : Fd → Bool} {s₀ : System}
    (hnew : Server.new cfg rd listenFd reserveFd held = some s₀) :
    (∀ script, (Server.run script s₀).SatUnless (¬ cfg.Valid) (fun _ => SerialFrom s₀)
      (fun _ => SerialFrom s₀)) ∧
    ∀ p q, Reaches ⟨.head, s₀⟩ p → Reaches p q → SerialFrom p.state q.state ∧
      ∀ call s, q.Observes call s → SerialFrom p.state s := by
  refine ⟨run_always hnew fun s _ _ hruns => hruns.serial, fun p q hp hq => ?_⟩
  -- The traces are taken from `p` on.
  have hmid : Tracked (Server.frame cfg s₀) p.state.plane p :=
    { hp.tracked not_false (new_tracked hnew) with runs := .refl p.state }
  have hend := hq.tracked not_false hmid
  exact ⟨hend.runs.serial, fun call s hobs => (hend.observes hobs).serial⟩

omit [EntryPool] in
/-- Two clients in one batch: the one sets a key, the other reads it, and is sent what the first has
written. -/
theorem run_serial_shared : letI := slabPool
    let cfg : Config := { store := { seed := 7, initialBuckets := 4 } }
    let accepting : List Answers := [{}, {}, { wait := .ok [(3, EPOLLIN)] }, {},
      { accept := .ok 7 }, {}, {}, {}, { accept := .ok 8 }, {}, {}, {}, {}, { nowMs := 1000 }]
    let serving : List Answers := [{}, {}, { wait := .ok [(7, EPOLLIN), (8, EPOLLIN)] },
      { read := .ok (ascii "SET a 1\r\n") }, { nowMs := 1001 }, {}, {}, {}, { write := .ok 5 }, {},
      { read := .ok (ascii "GET a\r\n") }, {}, {}, {}, { write := .ok 7 }, {}]
    ∃ s₀ call s, Server.new cfg 0 3 (some 4) (fun fd => fd < 3) = some s₀ ∧
      Server.run (accepting ++ serving) s₀ = .waiting call s ∧ SerialFrom s₀ s ∧
      (s.sessions 0).written = ascii "+OK\r\n" ∧ (s.sessions 1).written = ascii "$1\r\n1\r\n" := by
  let _ := slabPool
  intro cfg accepting serving
  obtain ⟨s₀, call, s, hnew, hrun, hs⟩ := exists_moment cfg (accepting ++ serving)
    (fun s => decide ((s.sessions 0).written = ascii "+OK\r\n" ∧
      (s.sessions 1).written = ascii "$1\r\n1\r\n")) (by decide +kernel)
  have hserial := (run_serial hnew).1 (accepting ++ serving)
  rw [hrun] at hserial
  exact ⟨s₀, call, s, hnew, hrun, hserial, of_decide_eq_true hs⟩

end Server

end TinyRedis
