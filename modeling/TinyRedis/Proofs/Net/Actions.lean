import TinyRedis.Proofs.Net.Points

/-!
# `TinyRedis.Proofs.Net.Actions`: the server as a transition system of actions

`Plane` is the part of the process that the bytes of the clients, the store and the clock live in.
An `Action` is one thing that the process does to it, and `Act` says when an action is possible and
what it leaves. Who owns a connection, which descriptors are open and what epoll is asked about are
not in the plane: accepting, retiring and registering change nothing that an action can see.

Every moment of every run of the server is reached by a trace of actions (`Server.run_always`). What
holds of all traces is thus shown by induction over the trace, with one case for each action, and
the code is not looked at again.

* `Act`, `Acts`: one action, and a trace of them.
* `Runs`, `Traced`: the plane of a state is reached by a trace, and so it is after a function, and
  at every moment on the way.
* `processRound_traced`, `onReadable_traced`, `onTick_traced`: the functions that act. Most of the
  others leave the plane alone, or do what is done by one action.
* `Tracked`: what is carried from point to point of the loop, the invariant with the trace.
* `Server.run_always`: what every trace from a new server keeps holds at every moment of a run.
* `Server.exists_moment`: a run on fixed answers is computed, and what it comes to is checked.

A trace may stop anywhere. Where a command is undefined the run has no further moment, so nothing is
said about it here; that this does not happen is the business of the invariant.
-/

set_option autoImplicit false

namespace TinyRedis

open Lib Exec

variable [EntryPool]

/-- The connections with their sessions, the store, the clock and the journal. -/
structure Plane where
  cfg : Server.Config
  store : Store
  tickCount : UInt64
  cachedNow : Int64
  cachedTick : UInt64
  lastSweepMs : Int64
  heap : ConnId → Option Connection
  nextId : ConnId
  sessions : ConnId → Session
  journal : List JournalEntry

/-- The plane of a process. -/
def System.plane (s : System) : Plane where
  cfg := s.server.cfg
  store := s.server.store
  tickCount := s.server.tickCount
  cachedNow := s.server.cachedNow
  cachedTick := s.server.cachedTick
  lastSweepMs := s.server.lastSweepMs
  heap := s.heap
  nextId := s.nextId
  sessions := s.sessions
  journal := s.journal

namespace Plane

/-- `c` written back to where it lives. -/
def put (p : Plane) (id : ConnId) (c : Connection) : Plane :=
  { p with heap := Function.update p.heap id (some c) }

/-- A change of the session of `id`. -/
def record (p : Plane) (id : ConnId) (f : Session → Session) : Plane :=
  { p with sessions := Function.update p.sessions id (f (p.sessions id)) }

/-- The clock has been read in this tick. -/
def Read (p : Plane) : Prop := p.cachedTick = p.tickCount

/-- An expire interval has passed since the last sweep. -/
def Due (p : Plane) : Prop := p.cachedNow - p.lastSweepMs ≥ p.cfg.expireIntervalMs.toInt64

/-- Where the loop waits for events. Before the first tick the cache is that of no tick. Every tick
that has ended has read the clock, and has left no sweep due but the one that it made. -/
def Rested (p : Plane) : Prop :=
  p.journal = [] ∧ p.cachedTick ≠ p.tickCount + 1 ∨
    p.Read ∧ (p.Due → p.lastSweepMs = p.cachedNow)

/-- No tick begins with the clock read already. -/
theorem Rested.stale {p : Plane} (h : p.Rested) : p.cachedTick ≠ p.tickCount + 1 := by
  rcases h with ⟨-, hstale⟩ | ⟨hread, -⟩
  · exact hstale
  · rw [show p.cachedTick = p.tickCount from hread]
    exact fun heq => by simp at heq

end Plane

/-- What the process does, one thing at a time. -/
inductive Action where
  /-- A batch of events has arrived. -/
  | tick
  /-- The clock is read. -/
  | clock (t : Int64)
  | connect (id : ConnId)
  /-- Room is made for a read. -/
  | prepare (id : ConnId)
  | receive (id : ConnId) (data : Bytes)
  | command (id : ConnId) (d : Dispatch)
  /-- A protocol error is replied to. -/
  | refuse (id : ConnId) (msg : Bytes)
  | send (id : ConnId) (n : Nat)
  /-- The mask that epoll was given is noted. -/
  | watch (id : ConnId)
  /-- The socket has failed. -/
  | lose (id : ConnId)
  | shut (id : ConnId)
  | destroy (id : ConnId)
  | sweep (now : Int64)

/-- When an action is possible, and what it leaves. -/
inductive Act : Plane → Action → Plane → Prop where
  | tick {p : Plane} : p.Rested →
      Act p .tick { p with tickCount := p.tickCount + 1, journal := p.journal ++ [.tick] }
  | clock {p : Plane} (t : Int64) : ¬ p.Read →
      Act p (.clock t) { p with
        cachedNow := t, cachedTick := p.tickCount, journal := p.journal ++ [.clock t] }
  | connect {p : Plane} (fd : Fd) :
      Act p (.connect p.nextId)
        { p.put p.nextId { fd, in_ := Buffer.new kDefaultCapacity
                           out := Buffer.new kDefaultCapacity, state := .kOpen
                           interest := EPOLLIN } with nextId := p.nextId + 1 }
  /-- Nothing that could be parsed is left before a read. -/
  | prepare {p : Plane} {id : ConnId} {c : Connection} : p.heap id = some c →
      c.state ≠ .kClosed → c.Settled →
      Act p (.prepare id) (p.put id { c with in_ := c.in_.ensureWritable kDefaultCapacity })
  | receive {p : Plane} {id : ConnId} {c : Connection} {data : Bytes}
      (hroom : data.length ≤ c.in_.writableBytes) : p.heap id = some c → c.state ≠ .kClosed →
      data ≠ [] →
      Act p (.receive id data) ((p.put id { c with in_ := c.in_.write data hroom }).record id
        fun h => { h with received := h.received ++ data })
  /-- A command is dispatched at the time of the tick, on the store as it is. -/
  | command {p : Plane} {id : ConnId} {c : Connection} {cmd : Command} {n : Nat}
      {res : DispatchResult} {store : Store} {in_ out : Buffer} : p.heap id = some c →
      c.state = .kOpen → p.Read → verdict c.in_.readable = .item cmd n →
      dispatch p.store cmd p.cachedNow c.out = some (res, store, out) →
      c.in_.consume n = some in_ →
      Act p (.command id { store := p.store, cmd, now := p.cachedNow })
        ((({ p with store, journal := p.journal ++ [.command id cmd p.cachedNow] } : Plane).record
          id fun h => { h with
            dispatched := h.dispatched ++ [{ store := p.store, cmd, now := p.cachedNow }] }).put id
          { c with in_, out, state := if res = .kCloseConnection then .kClosing else c.state })
  | refuse {p : Plane} {id : ConnId} {c : Connection} {msg : Bytes} : p.heap id = some c →
      c.state = .kOpen → verdict c.in_.readable = .failed msg →
      Act p (.refuse id msg)
        ((p.put id { c with out := reply.error c.out msg, state := .kClosing }).record id
          fun h => { h with refused := some msg })
  | send {p : Plane} {id : ConnId} {c : Connection} {n : Nat} {out : Buffer} :
      p.heap id = some c → 0 < n → c.out.consume n = some out →
      Act p (.send id n) ((p.put id { c with out }).record id
        fun h => { h with written := h.written ++ c.out.readable.take n })
  | watch {p : Plane} {id : ConnId} {c : Connection} : p.heap id = some c →
      Act p (.watch id) (p.put id { c with interest := c.wanted })
  | lose {p : Plane} (id : ConnId) :
      Act p (.lose id) (p.record id fun h => { h with broken := true })
  | shut {p : Plane} {id : ConnId} {c : Connection} : p.heap id = some c → c.state ≠ .kClosed →
      Act p (.shut id) (p.put id { c with state := .kClosed })
  | destroy {p : Plane} {id : ConnId} {c : Connection} : p.heap id = some c →
      Act p (.destroy id) { p with heap := Function.update p.heap id none }
  /-- Expired keys are swept out at the time of the tick, once in every expire interval. -/
  | sweep {p : Plane} {r : ExpireCycleResult} {store : Store} : p.Read → p.Due →
      p.store.activeExpireCycle p.cachedNow p.cfg.expireSampleBuckets = some (r, store) →
      Act p (.sweep p.cachedNow) { p with
        store, lastSweepMs := p.cachedNow, journal := p.journal ++ [.sweep p.cachedNow] }

/-- A trace of actions from `p`. -/
inductive Acts (p : Plane) : List Action → Plane → Prop where
  | nil : Acts p [] p
  | snoc {actions : List Action} {a : Action} {q r : Plane} : Acts p actions q → Act q a r →
      Acts p (actions ++ [a]) r

/-- The entry that an action makes in the journal. -/
def Action.event? : Action → Option JournalEntry
  | .tick => some .tick
  | .clock t => some (.clock t)
  | .command id d => some (.command id d.cmd d.now)
  | .sweep now => some (.sweep now)
  | _ => none

/-- The journal is of the actions that it has entries for, and of no others. -/
theorem Act.journal_eq {p q : Plane} {a : Action} (h : Act p a q) :
    q.journal = p.journal ++ a.event?.toList := by
  cases h with
  | tick | clock | command | sweep => rfl
  | connect | prepare | receive | refuse | send | watch | lose | shut | destroy =>
    exact (List.append_nil _).symm

/-- What is read off the journal after an action. -/
theorem Act.journal_filterMap {p q : Plane} {a : Action} (h : Act p a q) {β : Type}
    (f : JournalEntry → Option β) :
    q.journal.filterMap f = p.journal.filterMap f ++ (a.event?.bind f).toList := by
  rw [h.journal_eq]
  cases a.event? with
  | none => simp
  | some e => exact filterMap_concat f p.journal e

/-- No action changes the configuration. -/
theorem Act.cfg_eq {p q : Plane} {a : Action} (h : Act p a q) : q.cfg = p.cfg := by
  cases h <;> rfl

/-- The configuration is never written to. -/
theorem Acts.cfg_eq {p q : Plane} {actions : List Action} (h : Acts p actions q) :
    q.cfg = p.cfg := by
  induction h with
  | nil => rfl
  | snoc _ hact ih => exact hact.cfg_eq.trans ih

/-- The state is reached from `p₀` by a trace of actions. -/
def Runs (p₀ : Plane) (s : System) : Prop := ∃ actions, Acts p₀ actions s.plane

/-- The program does nothing but actions, up to where it returns and wherever it waits. -/
abbrev Traced {α : Type} (p₀ : Plane) (x : NetM α) (s : System) : Prop :=
  wpu True x (fun _ => Runs p₀) (fun _ => Runs p₀) s

namespace Runs

variable {p₀ : Plane} {s s' : System} {a : Action}

/-- A run that has not begun. -/
theorem refl (s : System) : Runs s.plane s := ⟨[], .nil⟩

/-- One action more. -/
theorem act (h : Runs p₀ s) (ha : Act s.plane a s'.plane) : Runs p₀ s' := by
  obtain ⟨actions, hacts⟩ := h
  exact ⟨actions ++ [a], hacts.snoc ha⟩

/-- A change that is not in the plane. -/
theorem same (h : Runs p₀ s) (heq : s'.plane = s.plane) : Runs p₀ s' := by
  rw [Runs, heq]
  exact h

end Runs

/-! ### The functions of a connection -/

variable {p₀ : Plane} {s : System} {id : ConnId}

/-- `this` is dereferenced; what follows is about the connection that was there. -/
theorem wpu_this {α : Type} {g : Connection → NetM α} {Q : α → System → Prop}
    {C : Call → System → Prop} (h : ∀ c, s.heap id = some c → wpu True (g c) Q C s) :
    wpu True (connection id >>= g) Q C s := by
  refine wpu_bind (wpu_get_bind ?_)
  cases hc : s.heap id with
  | none => exact fun _ => trivial
  | some c => exact fun _ => h c hc

/-- The time is that of the tick, and the clock has been read in it. -/
theorem Server.now_traced (h : Runs p₀ s) :
    wpu True Server.now (fun t s' => Runs p₀ s' ∧ t = s'.plane.cachedNow ∧ s'.plane.Read ∧
      s'.heap = s.heap) (fun _ => Runs p₀) s := by
  refine wpu_get_bind ?_
  dsimp only
  split
  · next hread => exact wpu_pure ⟨h, rfl, hread.symm, rfl⟩
  · next hstale =>
    refine wpu_ask_bind h fun _ t _ => wpu_modify_bind (wpu_pure ⟨?_, rfl, rfl, rfl⟩)
    exact h.act (.clock t fun hread => hstale hread.symm)

/-- A connection that retires does nothing to the plane. -/
theorem Server.retire_traced (h : Runs p₀ s) : Traced p₀ (Server.retire id) s := by
  refine wpu_this fun c _ => wpu_get_bind ?_
  split
  · exact wpu_pure h
  · exact wpu_modify (h.same rfl)

namespace Connection

/-- Closing a connection is an action, and closing it again is none. -/
theorem markClosed_traced (h : Runs p₀ s) : Traced p₀ (markClosed id) s := by
  refine wpu_this fun c hc => ?_
  split
  · exact wpu_pure h
  · next hclosed =>
    refine wpu_modify_bind (Server.retire_traced (h.act (.shut hc ?_)))
    simpa [closed] using hclosed

/-- A failure of the socket is noted, and the connection closed. -/
theorem markBroken_traced (h : Runs p₀ s) : Traced p₀ (markBroken id) s :=
  wpu_modify_bind (markClosed_traced (h.act (.lose id)))

/-- Registering a mask is an action. So is the failure of it. -/
theorem updateInterest_traced (h : Runs p₀ s) : Traced p₀ (updateInterest id) s := by
  refine wpu_this fun c hc => ?_
  split
  · exact wpu_pure h
  · refine wpu_epollCtl h (fun e => markBroken_traced h) (wpu_modify ?_)
    exact h.act (.watch hc)

/-- A round of writing sends some bytes, or does nothing, or loses the socket. -/
theorem flushRound_traced (h : Runs p₀ s) : Traced p₀ (flushRound id ()) s := by
  refine wpu_this fun c hc => ?_
  split
  · exact wpu_pure h
  refine wpu_ask_bind h fun _ r _ => ?_
  split
  · next n _ =>
    split
    · exact wpu_pure h
    next hn =>
    refine wpu_defined_unless_bind (fun _ => trivial) fun out hout =>
      wpu_modify_bind (wpu_modify_bind (wpu_pure ?_))
    exact h.act (.send hc (Nat.pos_of_ne_zero hn) hout)
  · exact wpu_pure h
  · exact wpu_pure h
  · exact wpu_seq (markBroken_traced h) fun _ s' hs' => wpu_pure hs'

/-- Writing to the socket, to the end of its loop. -/
theorem flushOutput_traced (h : Runs p₀ s) : Traced p₀ (flushOutput id) s := by
  have hloop : Traced p₀ (loop (.flushLoop id) (flushRound id) ()) s := by
    refine wpu_loop (fun _ => Runs p₀) ?_ (fun _ s' hs' => ?_) h
    · exact fun _ s' hs' => hs'
    · exact wpu_mono (flushRound_traced hs') fun _ _ => Round.sat_of
  refine wpu_seq hloop fun goesOn s' hs' => ?_
  split
  · refine wpu_this fun c _ => ?_
    split
    · exact markClosed_traced hs'
    · exact updateInterest_traced hs'
  · exact wpu_pure hs'

/-- A round of the command loop is an action, or the last look at the input. The loop goes on only
after a command that was not a QUIT, in the same tick. -/
theorem processRound_traced (h : Runs p₀ s) (hread : s.plane.Read)
    (hopen : ∀ c, s.heap id = some c → c.state = .kOpen) (cmd : Command) :
    wpu True (processRound id s.plane.cachedNow cmd)
      (Round.Sat (fun _ s' => Runs p₀ s' ∧ s'.plane.Read ∧
        s'.plane.cachedNow = s.plane.cachedNow ∧ ∀ c, s'.heap id = some c → c.state = .kOpen)
        (fun _ => Runs p₀)) (fun _ => Runs p₀) s := by
  refine wpu_this fun c hc => ?_
  have hstate := hopen c hc
  split
  · exact wpu_pure h
  have hverdict := verdict_eq c.in_.readable cmd
  generalize parseCommand c.in_.readable cmd = parsed at hverdict ⊢
  obtain ⟨res, cmd'⟩ := parsed
  dsimp only at hverdict ⊢
  -- What the parser has made of the input decides which action it is.
  cases hres : res.status with
  | kIncomplete => exact wpu_pure h
  | kProtocolError =>
    rw [hres] at hverdict
    refine wpu_modify_bind (wpu_modify_bind (wpu_pure ?_))
    exact h.act (.refuse hc hstate hverdict)
  | kOk =>
    rw [hres] at hverdict
    refine wpu_get_bind (wpu_defined_unless_bind (fun _ => trivial) ?_)
    rintro ⟨d, store, out⟩ hdispatch
    refine wpu_defined_unless_bind (fun _ => trivial) fun in_ hin =>
      wpu_modify_bind (wpu_modify_bind ?_)
    have hact := Act.command (p := s.plane) hc hstate hread hverdict hdispatch hin
    split
    · next hclose =>
      rw [if_pos hclose] at hact
      exact wpu_modify_bind (wpu_pure (h.act hact))
    · next hgo =>
      rw [if_neg hgo] at hact
      refine wpu_modify_bind (wpu_pure ⟨h.act hact, hread, rfl, fun c' hc' => ?_⟩)
      rw [show c' = { c with in_, out } from
        Option.some.inj (hc'.symm.trans (Function.update_self ..))]
      exact hstate

/-- The commands of the input buffer, all at the reading of this tick. -/
theorem processInput_traced (h : Runs p₀ s) : Traced p₀ (processInput id) s := by
  refine wpu_this fun c hc => ?_
  split
  · exact wpu_pure h
  next hstate =>
  rw [not_not] at hstate
  refine wpu_seq (Server.now_traced h) ?_
  rintro now s₁ ⟨hs₁, rfl, hread, hheap⟩
  -- The rounds are all in the tick that the time was read in.
  refine wpu_loop (fun _ s' => Runs p₀ s' ∧ s'.plane.Read ∧
    s'.plane.cachedNow = s₁.plane.cachedNow ∧ ∀ c, s'.heap id = some c → c.state = .kOpen)
    ?_ ?_ ⟨hs₁, hread, rfl, fun c' hc' => ?_⟩
  · exact fun _ s' hs' => hs'.1
  · rintro cmd s' ⟨hs', hread', hnow, hopen⟩
    rw [← hnow]
    exact processRound_traced hs' hread' hopen cmd
  · rw [hheap, hc] at hc'
    cases hc'
    exact hstate

/-- Reading is two actions, the second with what the kernel has delivered, and then all that follows
from it. -/
theorem onReadable_traced (h : Runs p₀ s) (hsettled : ∀ c, s.heap id = some c → c.Settled) :
    Traced p₀ (onReadable id) s := by
  refine wpu_this fun c hc => ?_
  split
  · exact wpu_pure h
  next hclosed =>
  have hopen : c.state ≠ .kClosed := by simpa [closed] using hclosed
  refine wpu_modify_bind ?_
  let in_ := c.in_.ensureWritable kDefaultCapacity
  have hroom : Runs p₀ (s.put id { c with in_ }) := h.act (.prepare hc hopen (hsettled c hc))
  have hc' : (s.put id { c with in_ }).plane.heap id = some { c with in_ } :=
    Function.update_self ..
  -- The moment of the `read` is after the buffer has been made ready.
  refine wpu_ask_bind hroom fun _ r _ => ?_
  split
  · next data _ =>
    split
    · exact markBroken_traced hroom
    next hsome =>
    refine wpu_modify_bind (wpu_modify_bind ?_)
    have hreceived : Runs p₀ (((s.put id { c with in_ }).put id
        { c with in_ := in_.write data data.property }).record id
          fun h => { h with received := h.received ++ data }) :=
      hroom.act (.receive data.property hc' hopen (by simpa using hsome))
    exact wpu_seq (processInput_traced hreceived) fun _ s' hs' => flushOutput_traced hs'
  · exact wpu_pure hroom
  · exact wpu_pure hroom
  · exact markBroken_traced hroom

/-- Writing, when the socket is ready for it. -/
theorem onWritable_traced (h : Runs p₀ s) : Traced p₀ (onWritable id) s := by
  refine wpu_this fun c _ => ?_
  split
  · exact wpu_pure h
  · exact flushOutput_traced h

/-- Destroying a connection is an action. -/
theorem destroy_traced (h : Runs p₀ s) : Traced p₀ (destroy id) s :=
  wpu_this fun _ hc => wpu_modify_bind (wpu_modify (h.act (.destroy hc)))

end Connection

/-! ### The functions of the server -/

namespace Server

/-- Destroying the retired connections is one action for each. -/
theorem destroyRetired_traced (h : Runs p₀ s) : Traced p₀ destroyRetired s := by
  refine wpu_get_bind (wpu_seq (wpu_forM (fun _ => Runs p₀) ?_ h) fun _ s' hs' =>
    wpu_modify (hs'.same rfl))
  exact fun id _ s' hs' => Connection.destroy_traced hs'

/-- The reserve is not in the plane. -/
theorem setReserve_traced (h : Runs p₀ s) (fd : Option Fd) : Traced p₀ (setReserve fd) s := by
  refine wpu_get_bind ?_
  split
  · exact wpu_modify (h.same rfl)
  · exact wpu_modify (h.same rfl)

/-- Turning a client away does nothing to the plane. -/
theorem shedPending_traced (h : Runs p₀ s) : Traced p₀ shedPending s := by
  have hreopen : ∀ (b : Bool) (s' : System), Runs p₀ s' →
      Traced p₀ (do setReserve (← openReserve); return b) s' := by
    intro b s' hs'
    refine wpu_openReserve hs' ?_ fun fd _ => ?_
    · exact wpu_seq (setReserve_traced hs' none) fun _ _ hr => wpu_pure hr
    · have hopened : Runs p₀ (s'.opened fd) := hs'.same rfl
      exact wpu_seq (setReserve_traced hopened (some fd)) fun _ _ hr => wpu_pure hr
  refine wpu_get_bind ?_
  split
  · exact wpu_pure h
  refine wpu_seq (setReserve_traced h none) fun _ s' hs' => ?_
  refine wpu_accept4 hs' (fun e => ?_) fun fd _ => ?_
  · exact wpu_bind (wpu_pure (hreopen false s' hs'))
  · exact wpu_modify_bind (wpu_bind (wpu_pure (hreopen true _ (hs'.same rfl))))

/-- A pause of the listener does nothing to the plane. -/
theorem pauseAccepting_traced (h : Runs p₀ s) : Traced p₀ pauseAccepting s := by
  refine wpu_get_bind ?_
  split
  · exact wpu_pure h
  · exact wpu_epollCtl h (fun _ => wpu_pure h) (wpu_modify (h.same rfl))

/-- The end of a pause does nothing to the plane. -/
theorem resumeAccepting_traced (h : Runs p₀ s) : Traced p₀ resumeAccepting s := by
  refine wpu_get_bind ?_
  split
  · refine wpu_openReserve h ?_ fun fd _ => ?_
    · exact wpu_seq (setReserve_traced h none) fun _ s₁ hs₁ => wpu_pure hs₁
    · have hopened : Runs p₀ (s.opened fd) := h.same rfl
      refine wpu_seq (setReserve_traced hopened (some fd)) fun _ s₁ hs₁ => ?_
      rw [if_neg (Option.some_ne_none fd)]
      exact wpu_epollCtl hs₁ (fun _ => wpu_pure hs₁) (wpu_modify (hs₁.same rfl))
  · exact wpu_pure h

/-- Whatever is done about a failed `accept4` does nothing to the plane. -/
theorem handleAcceptFailure_traced (h : Runs p₀ s) (err : Errno) :
    Traced p₀ (handleAcceptFailure err) s := by
  have hpause : ∀ {s}, Runs p₀ s → Traced p₀ (do pauseAccepting; return false) s := fun hs =>
    wpu_seq (pauseAccepting_traced hs) fun _ s' hs' => wpu_pure hs'
  unfold handleAcceptFailure
  split
  · exact wpu_pure h
  · exact wpu_pure h
  · refine wpu_seq (shedPending_traced h) fun shed s' hs' => ?_
    split
    · exact wpu_pure hs'
    · exact hpause hs'
  · exact hpause h

/-- A connection is put into the map, or destroyed. -/
theorem emplace_traced (h : Runs p₀ s) (fd : Fd) (id : ConnId) : Traced p₀ (emplace fd id) s := by
  refine wpu_get_bind ?_
  split
  · exact wpu_modify (h.same rfl)
  · exact Connection.destroy_traced h

/-- A round of accepting is one action at most: a new connection. -/
theorem acceptRound_traced (h : Runs p₀ s) : Traced p₀ (acceptRound ()) s := by
  refine wpu_accept4 h (fun e => ?_) fun fd _ => ?_
  · refine wpu_seq (handleAcceptFailure_traced h e) fun goesOn s' hs' => ?_
    split
    · exact wpu_pure hs'
    · exact wpu_pure hs'
  · have hopened : Runs p₀ (s.opened fd) := h.same rfl
    refine wpu_ask_bind hopened fun _ r _ => ?_
    split
    · exact wpu_modify_bind (wpu_pure (hopened.same rfl))
    · refine wpu_bind (wpu_get_bind (wpu_epollCtl hopened (fun e => ?_) ?_))
      · exact wpu_modify_bind (wpu_pure (wpu_pure (hopened.same rfl)))
      · refine wpu_modify_bind (wpu_pure ?_)
        refine wpu_seq (emplace_traced (hopened.act (.connect fd)) fd _) fun _ s' hs' =>
          wpu_pure hs'

/-- Accepting, to the end of its loop. -/
theorem acceptPending_traced (h : Runs p₀ s) : Traced p₀ acceptPending s := by
  refine wpu_loop (fun _ => Runs p₀) ?_ (fun _ s' hs' => ?_) h
  · exact fun _ s' hs' => hs'
  · exact wpu_mono (acceptRound_traced hs') fun _ _ => Round.sat_of

/-- A tick ends with the clock read, and no sweep is due but the one just made. -/
theorem onTick_traced (h : Runs p₀ s) :
    wpu True onTick (fun _ s' => Runs p₀ s' ∧ s'.plane.Read ∧
      (s'.plane.Due → s'.plane.lastSweepMs = s'.plane.cachedNow)) (fun _ => Runs p₀) s := by
  refine wpu_seq (destroyRetired_traced h) fun _ s₁ hs₁ =>
    wpu_seq (resumeAccepting_traced hs₁) fun _ s₂ hs₂ => wpu_seq (now_traced hs₂) ?_
  rintro tNow s₃ ⟨hs₃, rfl, hread, -⟩
  refine wpu_get_bind ?_
  split
  · next hdue =>
    refine wpu_defined_unless_bind (fun _ => trivial) ?_
    rintro ⟨r, store⟩ hcycle
    exact wpu_modify ⟨hs₃.act (.sweep hread hdue hcycle), hread, fun _ => rfl⟩
  · next hearly => exact wpu_pure ⟨hs₃, hread, fun hdue => absurd hdue hearly⟩

end Server

/-- An event is delivered to a handler that has nothing left to parse. -/
theorem EventLoop.dispatchEvent_traced (h : Runs p₀ s)
    (hsettled : ∀ id c, s.heap id = some c → c.Settled) (event : Handler × UInt32) :
    Traced p₀ (EventLoop.dispatchEvent Server.io event) s := by
  have hwrite : ∀ s', Runs p₀ s' →
      Traced p₀
        (if event.2 &&& EPOLLOUT ≠ 0 then Server.io.onWritable event.1 else pure ()) s' := by
    intro s' hs'
    split
    · cases event.1 with
      | acceptor => exact wpu_pure hs'
      | connection id => exact Connection.onWritable_traced hs'
    · exact wpu_pure hs'
  have hread : Traced p₀ (Server.io.onReadable event.1) s := by
    cases event.1 with
    | acceptor => exact Server.acceptPending_traced h
    | connection id => exact Connection.onReadable_traced h (hsettled id)
  unfold EventLoop.dispatchEvent
  dsimp only
  split
  · exact wpu_seq hread fun _ s' hs' => hwrite s' hs'
  · exact hwrite s h

/-! ### Runs of the server -/

/-- What the points of the loop keep: health, and a trace that has led there. -/
structure Tracked (f : Frame) (p₀ : Plane) (p : Point) : Prop where
  health : Health f p.live .idle p.state
  runs : Runs p₀ p.state
  rested : p.phase = .head → p.state.plane.Rested

section Points

variable {f : Frame} {p q : Point}

/-- Between the handlers no connection has anything left to parse. -/
theorem Tracked.deliver (h : Tracked f p₀ p) (event : Handler × UInt32) :
    Traced p₀ (EventLoop.dispatchEvent Server.io event) p.state :=
  EventLoop.dispatchEvent_traced h.runs (fun _ _ hc => h.health.serving.rests hc) event

/-- The step lemma. -/
theorem Step.tracked (h : Step p q) (hf : ¬ f.paused) (hp : Tracked f p₀ p) : Tracked f p₀ q := by
  have hhealth := h.health hf hp.health
  cases h with
  | wait hbatch => exact ⟨hhealth, hp.runs.act (.tick (hp.rested rfl)), nofun⟩
  | deliver hrun => exact ⟨hhealth, (hp.deliver _).of_done hrun, nofun⟩
  | tick hrun =>
    obtain ⟨hruns, hread, hswept⟩ := (Server.onTick_traced hp.runs).of_done hrun
    exact ⟨hhealth, hruns, fun _ => .inr ⟨hread, hswept⟩⟩

/-- The run lemma. -/
theorem Reaches.tracked (h : Reaches p q) (hf : ¬ f.paused) (hp : Tracked f p₀ p) :
    Tracked f p₀ q := by
  induction h with
  | refl => exact hp
  | tail _ hstep ih => exact hstep.tracked hf ih

/-- What the loop does next is actions too. -/
theorem Tracked.observes (h : Tracked f p₀ p) {call : Call} {s : System}
    (hobs : p.Observes call s) : Runs p₀ s := by
  obtain ⟨phase, state⟩ := p
  cases phase with
  | head =>
    obtain ⟨rfl, -⟩ := hobs
    exact h.runs
  | batch events =>
    cases events with
    | nil =>
      obtain ⟨script, hrun⟩ := hobs
      exact (Server.onTick_traced h.runs).of_waiting hrun
    | cons event events =>
      obtain ⟨script, hrun⟩ := hobs
      exact (h.deliver event).of_waiting hrun

end Points

section Runs

variable {s₀ : System}

/-- A round of the loop ends at its head, also the last one. -/
theorem runRound_reaches (h : Reaches ⟨.head, s₀⟩ ⟨.head, s⟩) :
    wpu True (EventLoop.runRound Server.io Server.onTick ())
      (fun _ s' => Reaches ⟨.head, s₀⟩ ⟨.head, s'⟩) (ObservedFrom s₀) s := by
  refine wpu_ask_bind (observedFrom_head h (by simp)) fun _ stop _ => ?_
  split
  · exact wpu_pure h
  refine wpu_get_bind (wpu_ask_bind (observedFrom_head h (by simp)) fun _ r hr => ?_)
  split
  · exact wpu_pure h
  · exact wpu_pure h
  · next events hr =>
    obtain ⟨ready, hbatch⟩ := granted_ok hr
    refine wpu_modify_bind (wpu_seq (batch_observed (h.tail (.wait hbatch))) fun _ s' hs' => ?_)
    exact wpu_seq (onTick_observed hs') fun _ s'' hs'' => wpu_pure hs''

/-- A run ends at the head of the loop, and destroys what has been retired. -/
theorem run_ends {P : System → Prop} (hhead : ∀ s, Reaches ⟨.head, s₀⟩ ⟨.head, s⟩ → P s)
    (hdestroy : ∀ s, P s → wpu True Server.destroyRetired (fun _ => P) (fun _ _ => True) s) :
    wpu True Server.run (fun _ => P) (ObservedFrom s₀) s₀ := by
  have hloop : wpu True (EventLoop.run Server.io Server.onTick)
      (fun _ s => Reaches ⟨.head, s₀⟩ ⟨.head, s⟩) (ObservedFrom s₀) s₀ := by
    refine wpu_loop (fun _ s => Reaches ⟨.head, s₀⟩ ⟨.head, s⟩) ?_ ?_ .refl
    · exact fun _ s hs => observedFrom_head hs (by simp)
    · exact fun _ s hs => wpu_mono (runRound_reaches hs) fun _ _ =>
        Round.sat_of (P := fun s => Reaches ⟨.head, s₀⟩ ⟨.head, s⟩)
  refine wpu_seq hloop fun r s hs => ?_
  cases r with
  | error e => exact wpu_pure (hhead s hs)
  | ok _ =>
    have hend := wpu_and (hdestroy s (hhead s hs))
      (destroyRetired_silent (C := ObservedFrom s₀)) fun _ _ => trivial
    exact wpu_seq (wpu_imp hend (fun _ _ h => h.1) fun _ _ h => h.2) fun _ _ h => wpu_pure h

variable {cfg : Server.Config} {rd : UInt64} {listenFd : Fd} {reserveFd : Option Fd}
  {held : Fd → Bool}

/-- Nothing has happened on the plane. -/
structure Plane.Fresh (p : Plane) : Prop where
  journal : p.journal = []
  sessions : ∀ id, p.sessions id = {}
  tickCount : p.tickCount = 0
  stale : ¬ p.Read
  lastSweepMs : p.lastSweepMs = 0

/-- Nothing has happened on a new server, and its configuration is the one it was given. -/
theorem Server.new_fresh (hnew : Server.new cfg rd listenFd reserveFd held = some s₀) :
    s₀.plane.Fresh ∧ s₀.plane.cfg = cfg := by
  obtain ⟨store, -, hs₀⟩ := Option.bind_eq_some_iff.mp hnew
  cases hs₀
  exact ⟨⟨rfl, fun _ => rfl, rfl, show (2 ^ 64 - 1 : UInt64) ≠ 0 by decide +kernel, rfl⟩, rfl⟩

/-- The cache of a new server is that of no tick. -/
theorem Server.new_tracked (hnew : Server.new cfg rd listenFd reserveFd held = some s₀) :
    Tracked (Server.frame cfg s₀) s₀.plane ⟨.head, s₀⟩ := by
  refine ⟨Server.new_health hnew, .refl s₀, fun _ => ?_⟩
  obtain ⟨store, -, hs₀⟩ := Option.bind_eq_some_iff.mp hnew
  cases hs₀
  exact .inl ⟨rfl, show (2 ^ 64 - 1 : UInt64) ≠ 0 + 1 by decide +kernel⟩

/-- What holds of every healthy state that a trace leads to holds at every moment of every run. -/
theorem Server.run_always {P : System → Prop}
    (hnew : Server.new cfg rd listenFd reserveFd held = some s₀)
    (hP : ∀ s act, Health (Server.frame cfg s₀) [] act s → Runs s₀.plane s → P s) :
    wpu (¬ cfg.Valid) Server.run (fun _ => P) (fun _ => P) s₀ := by
  have hstart := Server.new_tracked hnew
  have hends : wpu True Server.run (fun _ => Runs s₀.plane) (ObservedFrom s₀) s₀ :=
    run_ends (fun s hs => (hs.tracked not_false hstart).runs) fun s hs =>
      wpu_imp (Server.destroyRetired_traced hs) (fun _ _ h => h) fun _ _ _ => trivial
  refine wpu_imp (wpu_and (Server.run_spec hstart.health not_false) hends fun hU _ => hU)
    (fun _ s hs => hP s .idle hs.1 hs.2) (fun _ s hs => ?_)
  obtain ⟨act, hact, -⟩ := hs.1.health
  obtain ⟨p, hp, hobs⟩ := hs.2
  exact hP s act hact ((hp.tracked not_false hstart).observes hobs)

/-- The run of a new server on the listening socket 3 with the reserve 4, at the moment when the
kernel has given the answers of the script and no more. -/
def Server.moment (cfg : Server.Config) (script : List Answers) : Option (System × System) :=
  (Server.new cfg 0 3 (some 4) fun fd => fd < 3).bind fun s₀ =>
    match Server.run script s₀ with
    | .waiting _ s => some (s₀, s)
    | _ => none

/-- A moment is one of the run. What can be evaluated of its state holds there. -/
theorem Server.exists_moment (cfg : Server.Config) (script : List Answers) (P : System → Bool)
    (h : (Server.moment cfg script).any (fun x => P x.2) = true) :
    ∃ s₀ call s, Server.new cfg 0 3 (some 4) (fun fd => fd < 3) = some s₀ ∧
      Server.run script s₀ = .waiting call s ∧ P s = true := by
  unfold Server.moment at h
  cases hnew : Server.new cfg 0 3 (some 4) fun fd => fd < 3 with
  | none =>
    rw [hnew] at h
    cases h
  | some s₀ =>
    rw [hnew, Option.bind_some] at h
    split at h
    · next call s hrun => exact ⟨s₀, call, s, rfl, hrun, h⟩
    · cases h

end Runs

end TinyRedis
