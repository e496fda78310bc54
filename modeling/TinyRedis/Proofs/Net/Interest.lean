import TinyRedis.Proofs.Net.Points

/-!
# `TinyRedis.Proofs.Net.Interest`: no connection is left stuck

Level-triggered epoll wakes a connection only for what is registered. After every call of a handler,
each connection that is not closed is registered for exactly what it waits for, it waits for
something, and it has parsed all the commands that have arrived whole.

* `Wakeful`: all of that, for one connection.
* `Connection.wanted_eq`: what a connection waits for, by its state and its output.
* `Connection.wanted_ne`: it is never nothing. A connection that is closing has output left, or it
  would have been closed.
* `handlers_allWakeful`: after every event of a batch, and between the batches, in every run.

The reserve and the listening socket have to be two descriptors: giving up the reserve would close
the listener otherwise, and its number could come back as that of a connection.
-/

set_option autoImplicit false

namespace TinyRedis

open Lib Exec

variable [EntryPool]

/-- What a connection that is not closed must look like for the loop to get back to it. -/
structure Wakeful (s : System) (id : ConnId) (c : Connection) : Prop where
  registered : s.kernel.epoll c.fd = some (.connection id, c.interest)
  interest_eq : c.interest = (if c.state = .kOpen then EPOLLIN else 0) |||
    (if c.out.readable = [] then 0 else EPOLLOUT)
  interest_ne : c.interest ≠ 0
  closing : c.state = .kClosing → c.out.readable ≠ []
  /-- What is left of the input is not a command, nor will it fail. -/
  incomplete : c.state = .kOpen → ∀ cmd,
    (parseCommand c.in_.readable cmd).1.status = .kIncomplete

/-- Every connection that is not closed is wakeful. -/
def AllWakeful (s : System) : Prop :=
  ∀ id c, s.heap id = some c → c.state ≠ .kClosed → Wakeful s id c

omit [EntryPool] in
/-- The mask, from the state and the bytes to be sent. -/
theorem Connection.wanted_eq (c : Connection) :
    c.wanted = (if c.state = .kOpen then EPOLLIN else 0) |||
      (if c.out.readable = [] then 0 else EPOLLOUT) := by
  rw [wanted, UInt32.or_comm]
  congr 1
  by_cases hout : c.out.readable = []
  · rw [if_pos (Buffer.empty_iff.mpr hout), if_pos hout]
  · rw [if_neg (mt Buffer.empty_iff.mp hout), if_neg hout]

omit [EntryPool] in
/-- An open connection waits for input, and a closing one has output to wait with. -/
theorem Connection.wanted_ne {c : Connection} (hopen : c.state ≠ .kClosed)
    (hclosing : c.state = .kClosing → c.out.readable ≠ []) : c.wanted ≠ 0 := by
  rw [wanted_eq]
  cases hstate : c.state with
  | kOpen =>
    rw [if_pos rfl]
    split <;> decide
  | kClosing =>
    rw [if_neg (by simp), if_neg (hclosing hstate)]
    decide
  | kClosed => exact absurd hstate hopen

variable {f : Frame} {live : List ConnId} {s : System}

/-- Where no connection is being attended to, all of them are wakeful. -/
theorem Health.allWakeful (h : Health f live .idle s) (hdistinct : f.distinct) : AllWakeful s := by
  intro id c hc hopen
  have hpolled := h.polled hdistinct
  obtain ⟨hinterest, hclosing⟩ := hpolled.rested hc (Option.some_ne_none id).symm hopen
  refine ⟨hpolled.entry hc, ?_, ?_, hclosing, fun hstate cmd => ?_⟩
  · rw [hinterest, c.wanted_eq]
  · rw [hinterest]
    exact Connection.wanted_ne hopen hclosing
  · exact (verdict_pending_iff cmd).mp (h.serving.rests hc hstate)

/-- No connection is left stuck, in any run of the server: at every delivery of an event to a
connection, after `onReadable`, after an `onWritable` that follows it, and after an `onWritable`
alone, every connection that is not closed is wakeful. -/
theorem handlers_allWakeful {cfg : Server.Config} {rd : UInt64} {listenFd : Fd}
    {reserveFd : Option Fd} {held : Fd → Bool} {s₀ : System}
    (hnew : Server.new cfg rd listenFd reserveFd held = some s₀)
    (hdistinct : reserveFd ≠ some listenFd) {id : ConnId} {mask : UInt32}
    {events : List (Handler × UInt32)} {s : System}
    (hreach : Reaches ⟨.head, s₀⟩ ⟨.batch ((.connection id, mask) :: events), s⟩) :
    wpu (¬ cfg.Valid) (Connection.onReadable id)
      (fun _ s' => AllWakeful s' ∧ wpu (¬ cfg.Valid) (Connection.onWritable id)
        (fun _ s'' => AllWakeful s'') (fun _ _ => True) s') (fun _ _ => True) s ∧
    wpu (¬ cfg.Valid) (Connection.onWritable id) (fun _ s' => AllWakeful s')
      (fun _ _ => True) s := by
  have hhealth := hreach.health not_false (Server.new_health hnew)
  have hlive : id ∈ connIds ((.connection id, mask) :: events) := by simp [connIds]
  have hfds := Server.new_distinct hnew hdistinct
  -- Whatever state a writing handler is called in, as long as it is healthy.
  have hwrite : ∀ s', Health (Server.frame cfg s₀) (connIds ((.connection id, mask) :: events))
      .idle s' → wpu (¬ cfg.Valid) (Connection.onWritable id) (fun _ s'' => AllWakeful s'')
        (fun _ _ => True) s' := by
    intro s' hs'
    refine wpu_imp (Connection.onWritable_spec hs' hlive) ?_ fun _ _ _ => trivial
    exact fun _ s'' hs'' => hs''.allWakeful hfds
  refine ⟨wpu_imp (Connection.onReadable_spec hhealth hlive) ?_ fun _ _ _ => trivial,
    hwrite s hhealth⟩
  exact fun _ s' hs' => ⟨hs'.allWakeful hfds, hwrite s' hs'⟩

omit [EntryPool] in
set_option maxRecDepth 20000 in
/-- The first event of a client that the batch before has accepted. -/
theorem handlers_allWakeful_accepted : letI := slabPool
    let cfg : Server.Config := { store := { seed := 7, initialBuckets := 4 } }
    ∃ s₀ s, Server.new cfg 0 3 (some 4) (fun fd => fd < 3) = some s₀ ∧
      Reaches ⟨.head, s₀⟩ ⟨.batch [(.connection 0, EPOLLIN)], s⟩ ∧
      wpu (¬ cfg.Valid) (Connection.onReadable 0)
        (fun _ s' => AllWakeful s' ∧ wpu (¬ cfg.Valid) (Connection.onWritable 0)
          (fun _ s'' => AllWakeful s'') (fun _ _ => True) s') (fun _ _ => True) s := by
  let _ := slabPool
  intro cfg
  obtain ⟨s₀, hnew⟩ := Server.new_isSome 0 (show cfg.store.initialBuckets ≤ 2 ^ 63 by decide)
    (by decide) 3 (some 4) fun fd => fd < 3
  have hfresh := hnew
  simp only [Server.new, Option.bind_eq_bind, Option.bind_eq_some_iff] at hfresh
  obtain ⟨store, -, heq⟩ := hfresh
  cases heq
  obtain ⟨s₀, t, hnew, hreach, hentry⟩ : ∃ s₀ t,
      Server.new cfg 0 3 (some 4) (fun fd => fd < 3) = some s₀ ∧
      Reaches ⟨.head, s₀⟩ ⟨.head, t⟩ ∧ t.kernel.epoll 7 = some (.connection 0, EPOLLIN) :=
    ⟨_, _, hnew, .head (@Step.wait _ _ [(3, EPOLLIN)] _ rfl)
      (.head (@Step.deliver _ _ _ _ _ [{}, { accept := .ok 7 }, {}, {}, {}, {}] _ rfl)
      (.single (@Step.tick _ _ _ [{ nowMs := 10 }] _ (Server.onTick_early rfl rfl rfl
        (show ¬ (10 : Int64) - 0 ≥ (100 : Int32).toInt64 by decide))))), rfl⟩
  have hbatch : EventLoop.batch t [(7, EPOLLIN)] = some [(.connection 0, EPOLLIN)] := by
    simp [EventLoop.batch, EventLoop.kMaxEvents, hentry]
  have hreach' := hreach.tail (Step.wait hbatch)
  exact ⟨_, _, hnew, hreach', (handlers_allWakeful hnew (by decide) hreach').1⟩

end TinyRedis
