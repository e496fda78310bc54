import TinyRedis.Lib.Ledger
import TinyRedis.Proofs.Net.Actions

/-!
# `TinyRedis.Proofs.Net.Descriptors`: every open descriptor has one owner

The descriptors of the process belong to the listening socket, the reserve, the connections, and to
what the process held from the start. A descriptor that `accept4` or `open` has just answered is in
the hand of the code until it is given to one of them or closed. `Booked` is the ledger of all
these.

The handlers of a connection open and close nothing (`Still`). What is left is the accept path, the
reserve and the end of the connections, where each `close` is a release of the ledger by its owner
and each answer of the kernel an acquisition. At the points of the loop nothing is in hand.

* `Fds`: the part of the process that is about descriptors.
* `Booked.opened`, `dropped`, `connected`, `destroyed`, `unreserved`, `reserved`: the entries of the
  ledger. Each is a rule of `Lib.Ledger` at an owner of the server.
* `acceptRound_balanced`: what `accept4` has opened is closed, or a connection has it.
* `shedPending_balanced`: the reserve is given up and opened again, or stays given up.
* `Step.booked`, `Reaches.booked`, `Point.Observes.booked`: the ledger is balanced at every point of
  the loop, and at every moment in between.

That no descriptor has two owners means that nothing is closed twice, and that none of the open ones
is without an owner means that nothing leaks. `Proofs.Net.Process` carries this on to the end of the
process.
-/

set_option autoImplicit false

namespace TinyRedis

open Lib Exec

/-- Who owns a descriptor. -/
inductive Owner where
  | process
  | listener
  | reserve
  | hand
  | connection (id : ConnId)
deriving DecidableEq, Repr

variable [EntryPool]

/-- What the ledger is read off. -/
structure Fds where
  isOpen : Fd → Bool
  listenFd : Fd
  reserveFd : Option Fd
  ofConn : ConnId → Option Fd
  nextId : ConnId

/-- The descriptors of a process. -/
def System.fds (s : System) : Fds where
  isOpen := s.kernel.isOpen
  listenFd := s.server.listenFd
  reserveFd := s.server.reserveFd
  ofConn := fun id => (s.heap id).map Connection.fd
  nextId := s.nextId

/-! ### The handlers of a connection -/

section Still

variable {v : Fds} {s : System} {id : ConnId} {c c' : Connection}

/-- A connection that is written back has the descriptor it had. -/
theorem put_still (h : s.fds = v) (hc : s.heap id = some c) (hfd : c'.fd = c.fd) :
    (s.put id c').fds = v := by
  have hconn : (fun id' => (Function.update s.heap id (some c') id').map Connection.fd)
      = fun id' => (s.heap id').map Connection.fd := by
    funext id'
    by_cases hid : id' = id
    · subst hid
      rw [Function.update_self, hc, Option.map_some, Option.map_some, hfd]
    · rw [Function.update_of_ne hid]
  rw [← h]
  simp only [System.fds, System.put, hconn]

/-- The program opens and closes nothing, and gives no descriptor away. -/
abbrev Still {α : Type} (v : Fds) (x : NetM α) (s : System) : Prop :=
  wpu True x (fun _ s' => s'.fds = v) (fun _ s' => s'.fds = v) s

/-- Asking for the time opens and closes nothing. -/
theorem Server.now_still (h : s.fds = v) : Still v Server.now s := by
  refine wpu_get_bind ?_
  dsimp only
  split
  · exact wpu_pure h
  · exact wpu_ask_bind h fun _ t _ => wpu_modify_bind (wpu_pure h)

/-- A connection that retires keeps its descriptor. -/
theorem Server.retire_still (h : s.fds = v) : Still v (Server.retire id) s := by
  refine wpu_this fun c _ => wpu_get_bind ?_
  split
  · exact wpu_pure h
  · exact wpu_modify h

namespace Connection

/-- A connection that is closed keeps its descriptor until it is destroyed. -/
theorem markClosed_still (h : s.fds = v) : Still v (markClosed id) s := by
  refine wpu_this fun c hc => ?_
  split
  · exact wpu_pure h
  · exact wpu_modify_bind (Server.retire_still (put_still h hc rfl))

/-- A connection whose socket has failed keeps its descriptor until it is destroyed. -/
theorem markBroken_still (h : s.fds = v) : Still v (markBroken id) s :=
  wpu_modify_bind (markClosed_still (s := s.record id _) h)

/-- A mask is about a descriptor that is open, and stays so. -/
theorem updateInterest_still (h : s.fds = v) : Still v (updateInterest id) s := by
  refine wpu_this fun c hc => ?_
  split
  · exact wpu_pure h
  · refine wpu_epollCtl h (fun e => markBroken_still h) (wpu_modify ?_)
    exact put_still (s := s.registered c.fd _) h hc rfl

/-- A round of writing opens and closes nothing. -/
theorem flushRound_still (h : s.fds = v) : Still v (flushRound id ()) s := by
  refine wpu_this fun c hc => ?_
  split
  · exact wpu_pure h
  refine wpu_ask_bind h fun _ r _ => ?_
  split
  · split
    · exact wpu_pure h
    refine wpu_defined_unless_bind (fun _ => trivial) fun out _ =>
      wpu_modify_bind (wpu_modify_bind (wpu_pure ?_))
    exact put_still h hc rfl
  · exact wpu_pure h
  · exact wpu_pure h
  · exact wpu_seq (markBroken_still h) fun _ s' hs' => wpu_pure hs'

/-- Writing opens and closes nothing, to the end of its loop. -/
theorem flushOutput_still (h : s.fds = v) : Still v (flushOutput id) s := by
  have hloop : Still v (loop (.flushLoop id) (flushRound id) ()) s := by
    refine wpu_loop (fun _ s' => s'.fds = v) ?_ (fun _ s' hs' => ?_) h
    · exact fun _ s' hs' => hs'
    · exact wpu_mono (flushRound_still hs') fun _ _ =>
        Round.sat_of (P := fun s' : System => s'.fds = v)
  refine wpu_seq hloop fun goesOn s' hs' => ?_
  split
  · refine wpu_this fun c _ => ?_
    split
    · exact markClosed_still hs'
    · exact updateInterest_still hs'
  · exact wpu_pure hs'

/-- A round over the input opens and closes nothing. -/
theorem processRound_still (h : s.fds = v) (now : Int64) (cmd : Command) :
    Still v (processRound id now cmd) s := by
  refine wpu_this fun c hc => ?_
  split
  · exact wpu_pure h
  generalize parseCommand c.in_.readable cmd = parsed
  obtain ⟨res, cmd'⟩ := parsed
  dsimp only
  cases res.status with
  | kIncomplete => exact wpu_pure h
  | kProtocolError =>
    exact wpu_modify_bind (wpu_modify_bind (wpu_pure (put_still h hc rfl)))
  | kOk =>
    refine wpu_get_bind (wpu_defined_unless_bind (fun _ => trivial) ?_)
    rintro ⟨d, store, out⟩ -
    refine wpu_defined_unless_bind (fun _ => trivial) fun in_ _ =>
      wpu_modify_bind (wpu_modify_bind ?_)
    -- Only the store, the journal and the session differ from `s` where the connection is put back.
    let s₁ : System :=
      { s with server.store := store, journal := s.journal ++ [.command id cmd' now] }
    split
    · exact wpu_modify_bind (wpu_pure (put_still (s := s₁.record id _) h hc rfl))
    · exact wpu_modify_bind (wpu_pure (put_still (s := s₁.record id _) h hc rfl))

/-- Carrying out the commands of the input opens and closes nothing. -/
theorem processInput_still (h : s.fds = v) : Still v (processInput id) s := by
  refine wpu_this fun c _ => ?_
  split
  · exact wpu_pure h
  refine wpu_seq (Server.now_still h) fun now s' hs' => ?_
  refine wpu_loop (fun _ s' => s'.fds = v) ?_ (fun cmd s'' hs'' => ?_) hs'
  · exact fun _ s'' hs'' => hs''
  · exact wpu_mono (processRound_still hs'' now cmd) fun _ _ =>
      Round.sat_of (P := fun s' : System => s'.fds = v)

/-- The reading handler opens and closes nothing. -/
theorem onReadable_still (h : s.fds = v) : Still v (onReadable id) s := by
  refine wpu_this fun c hc => ?_
  split
  · exact wpu_pure h
  refine wpu_modify_bind ?_
  have hroom : (s.put id { c with in_ := c.in_.ensureWritable kDefaultCapacity }).fds = v :=
    put_still h hc rfl
  refine wpu_ask_bind hroom fun _ r _ => ?_
  split
  · split
    · exact markBroken_still hroom
    refine wpu_modify_bind (wpu_modify_bind ?_)
    refine wpu_seq (processInput_still ?_) fun _ s' hs' => flushOutput_still hs'
    exact put_still hroom (Function.update_self id _ s.heap) rfl
  · exact wpu_pure hroom
  · exact wpu_pure hroom
  · exact markBroken_still hroom

/-- The writing handler opens and closes nothing. -/
theorem onWritable_still (h : s.fds = v) : Still v (onWritable id) s := by
  refine wpu_this fun c _ => ?_
  split
  · exact wpu_pure h
  · exact flushOutput_still h

end Connection

end Still

/-! ### The ledger -/

/-- The owners, as the state has them. `hand` is a descriptor that the code is about to give away.
-/
def Fds.Holds (held : Fd → Bool) (hand : Option Fd) (v : Fds) : Owner → Fd → Prop
  | .process, fd => held fd = true
  | .listener, fd => v.listenFd = fd
  | .reserve, fd => v.reserveFd = some fd
  | .hand, fd => hand = some fd
  | .connection id, fd => v.ofConn id = some fd

/-- Every open descriptor has one owner, and every owner an open descriptor. A connection that does
not exist yet owns none. -/
structure Booked (held : Fd → Bool) (hand : Option Fd) (v : Fds) : Prop where
  ledger : Ledger (v.Holds held hand) v.isOpen
  fresh : ∀ id, v.nextId ≤ id → v.ofConn id = none

namespace Booked

variable {held : Fd → Bool} {hand : Option Fd} {s : System} {id : ConnId} {c : Connection} {fd : Fd}

/-- The kernel answers with a new descriptor. -/
theorem opened (h : Booked held none s.fds) (hfd : s.kernel.isOpen fd = false) :
    Booked held (some fd) (s.opened fd).fds := by
  refine ⟨h.ledger.acquire hfd .hand ?_, h.fresh⟩
  rintro (_ | _ | _ | _ | id') r <;> simp only [Fds.Holds, System.fds, System.opened] <;> grind

/-- What is in hand is closed. -/
theorem dropped (h : Booked held (some fd) s.fds) : Booked held none (s.closed fd).fds := by
  refine ⟨h.ledger.release (o := .hand) rfl ?_, h.fresh⟩
  rintro (_ | _ | _ | _ | id') r <;> simp only [Fds.Holds, System.fds, System.closed] <;> grind

/-- What is in hand becomes a connection, under an address that was never used. -/
theorem connected (h : Booked held (some fd) s.fds) (hfd : c.fd = fd) :
    Booked held none ({ s.put s.nextId c with nextId := s.nextId + 1 } : System).fds := by
  have hnew : (s.heap s.nextId).map Connection.fd = none := h.fresh s.nextId (Nat.le_refl _)
  have howns : s.fds.Holds held (some fd) .hand fd := rfl
  refine ⟨h.ledger.transfer howns (.connection s.nextId) ?_, fun id hid => ?_⟩
  · rintro (_ | _ | _ | _ | id') r <;>
      simp only [Fds.Holds, System.fds, System.put, Function.update_apply] <;> grind
  · have hfresh := h.fresh id (Nat.le_of_succ_le hid)
    have hne : id ≠ s.nextId := Nat.ne_of_gt hid
    simpa [System.fds, System.put, hne] using hfresh

/-- A connection is destroyed. -/
theorem destroyed (h : Booked held none s.fds) (hc : s.heap id = some c) :
    Booked held none
      ({ s.closed c.fd with heap := Function.update s.heap id none } : System).fds := by
  have howns : s.fds.Holds held none (.connection id) c.fd := by
    show (s.heap id).map Connection.fd = some c.fd
    rw [hc, Option.map_some]
  refine ⟨h.ledger.release howns ?_, fun id' hid' => ?_⟩
  · rintro (_ | _ | _ | _ | id') r <;>
      simp only [Fds.Holds, System.fds, System.closed, Function.update_apply] <;> grind
  · have hfresh := h.fresh id' hid'
    simp only [System.fds, Function.update_apply] at hfresh ⊢
    split
    · rfl
    · exact hfresh

/-- The reserve is closed. -/
theorem unreserved (h : Booked held hand s.fds) (hfd : s.server.reserveFd = some fd) :
    Booked held hand ({ s.closed fd with server.reserveFd := none } : System).fds := by
  refine ⟨h.ledger.release (o := .reserve) hfd ?_, h.fresh⟩
  rintro (_ | _ | _ | _ | id') r <;> simp only [Fds.Holds, System.fds, System.closed] <;> grind

/-- What is in hand becomes the reserve. -/
theorem reserved (h : Booked held hand s.fds) (hnone : s.server.reserveFd = none) :
    Booked held none ({ s with server.reserveFd := hand } : System).fds := by
  cases hand with
  | none =>
    refine ⟨h.ledger.congr ?_, h.fresh⟩
    rintro (_ | _ | _ | _ | id') r <;> simp only [Fds.Holds, System.fds, hnone]
  | some fd =>
    have howns : s.fds.Holds held (some fd) .hand fd := rfl
    refine ⟨h.ledger.transfer howns .reserve ?_, h.fresh⟩
    rintro (_ | _ | _ | _ | id') r <;> simp only [Fds.Holds, System.fds] <;> grind

end Booked

/-! ### The functions of the server -/

section Balanced

variable {held : Fd → Bool} {hand : Option Fd} {s : System} {id : ConnId} {fd : Fd}

/-- Something may be in hand wherever the program waits, and nothing is when it returns. -/
abbrev Balanced {α : Type} (held : Fd → Bool) (x : NetM α) (s : System) : Prop :=
  wpu True x (fun _ s' => Booked held none s'.fds) (fun _ s' => ∃ hand, Booked held hand s'.fds) s

/-- A function that does nothing to the descriptors keeps the ledger balanced. -/
theorem Still.balanced {α : Type} {x : NetM α} (hx : Still s.fds x s)
    (h : Booked held none s.fds) : Balanced held x s := by
  refine wpu_imp hx (fun _ s' hs' => ?_) fun _ s' hs' => ⟨none, ?_⟩
  · rw [hs']
    exact h
  · rw [hs']
    exact h

/-- A connection closes its descriptor when it is destroyed. -/
theorem Connection.destroy_balanced (h : Booked held none s.fds) :
    Balanced held (Connection.destroy id) s :=
  wpu_this fun _ hc => wpu_modify_bind (wpu_modify (h.destroyed hc))

namespace Server

/-- The retired connections close theirs. -/
theorem destroyRetired_balanced (h : Booked held none s.fds) :
    Balanced held destroyRetired s := by
  refine wpu_get_bind (wpu_seq (wpu_forM (fun _ s' => Booked held none s'.fds) ?_ h)
    fun _ s' hs' => wpu_modify hs')
  exact fun id _ s' hs' => Connection.destroy_balanced hs'

/-- The old reserve is closed, and what is in hand takes its place. -/
theorem setReserve_balanced (h : Booked held hand s.fds) : Balanced held (setReserve hand) s := by
  refine wpu_get_bind ?_
  split
  · next hnone => exact wpu_modify (h.reserved hnone)
  · next old hold => exact wpu_modify ((h.unreserved hold).reserved rfl)

/-- The client that is turned away is closed, and the new reserve, if there is one, is booked. -/
theorem shedPending_balanced (h : Booked held none s.fds) : Balanced held shedPending s := by
  have hreopen : ∀ (b : Bool) (s' : System), Booked held none s'.fds →
      Balanced held (do setReserve (← openReserve); return b) s' := by
    intro b s' hs'
    refine wpu_openReserve ⟨none, hs'⟩ ?_ fun fd hfd => ?_
    · exact wpu_seq (setReserve_balanced hs') fun _ _ hr => wpu_pure hr
    · exact wpu_seq (setReserve_balanced (hs'.opened hfd)) fun _ _ hr => wpu_pure hr
  refine wpu_get_bind ?_
  split
  · exact wpu_pure h
  refine wpu_seq (setReserve_balanced h) fun _ s' hs' => ?_
  refine wpu_accept4 ⟨none, hs'⟩ (fun e => ?_) fun fd hfd => ?_
  · exact wpu_bind (wpu_pure (hreopen false s' hs'))
  · exact wpu_modify_bind (wpu_bind (wpu_pure (hreopen true _ (hs'.opened hfd).dropped)))

/-- A pause is about the interest list only. -/
theorem pauseAccepting_balanced (h : Booked held none s.fds) : Balanced held pauseAccepting s := by
  refine wpu_get_bind ?_
  split
  · exact wpu_pure h
  · exact wpu_epollCtl ⟨none, h⟩ (fun _ => wpu_pure h) (wpu_modify h)

/-- The end of a pause may open a reserve. -/
theorem resumeAccepting_balanced (h : Booked held none s.fds) :
    Balanced held resumeAccepting s := by
  refine wpu_get_bind ?_
  split
  · refine wpu_openReserve ⟨none, h⟩ ?_ fun fd hfd => ?_
    · exact wpu_seq (setReserve_balanced h) fun _ s₁ hs₁ => wpu_pure hs₁
    · refine wpu_seq (setReserve_balanced (h.opened hfd)) fun _ s₁ hs₁ => ?_
      rw [if_neg (Option.some_ne_none fd)]
      exact wpu_epollCtl ⟨none, hs₁⟩ (fun _ => wpu_pure hs₁) (wpu_modify hs₁)
  · exact wpu_pure h

/-- Whatever is done about a failed `accept4` leaves the ledger balanced. -/
theorem handleAcceptFailure_balanced (h : Booked held none s.fds) (err : Errno) :
    Balanced held (handleAcceptFailure err) s := by
  have hpause : ∀ {s : System}, Booked held none s.fds →
      Balanced held (do pauseAccepting; return false) s := fun hs =>
    wpu_seq (pauseAccepting_balanced hs) fun _ s' hs' => wpu_pure hs'
  unfold handleAcceptFailure
  split
  · exact wpu_pure h
  · exact wpu_pure h
  · refine wpu_seq (shedPending_balanced h) fun shed s' hs' => ?_
    split
    · exact wpu_pure hs'
    · exact hpause hs'
  · exact hpause h

/-- A connection in the map owns its descriptor as before; one that finds its place taken is
destroyed. -/
theorem emplace_balanced (h : Booked held none s.fds) : Balanced held (emplace fd id) s := by
  refine wpu_get_bind ?_
  split
  · exact wpu_modify h
  · exact Connection.destroy_balanced h

/-- A socket that has been accepted is closed, or becomes a connection. -/
theorem acceptRound_balanced (h : Booked held none s.fds) : Balanced held (acceptRound ()) s := by
  refine wpu_accept4 ⟨none, h⟩ (fun e => ?_) fun fd hfd => ?_
  · refine wpu_seq (handleAcceptFailure_balanced h e) fun goesOn s' hs' => ?_
    split
    · exact wpu_pure hs'
    · exact wpu_pure hs'
  · have hopened := h.opened hfd
    refine wpu_ask_bind ⟨some fd, hopened⟩ fun _ r _ => ?_
    split
    · exact wpu_modify_bind (wpu_pure hopened.dropped)
    · refine wpu_bind (wpu_get_bind (wpu_epollCtl ⟨some fd, hopened⟩ (fun e => ?_) ?_))
      · exact wpu_modify_bind (wpu_pure (wpu_pure hopened.dropped))
      · refine wpu_modify_bind (wpu_pure ?_)
        refine wpu_seq (emplace_balanced ?_) fun _ s' hs' => wpu_pure hs'
        exact Booked.connected (s := (s.opened fd).registered fd _) hopened rfl

/-- Accepting leaves the ledger balanced, to the end of its loop. -/
theorem acceptPending_balanced (h : Booked held none s.fds) : Balanced held acceptPending s := by
  refine wpu_loop (fun _ s' => Booked held none s'.fds) ?_ (fun _ s' hs' => ?_) h
  · exact fun _ s' hs' => ⟨none, hs'⟩
  · exact wpu_mono (acceptRound_balanced hs') fun _ _ =>
      Round.sat_of (P := fun s' : System => Booked held none s'.fds)

/-- What is done after a batch leaves the ledger balanced. -/
theorem onTick_balanced (h : Booked held none s.fds) : Balanced held onTick s := by
  refine wpu_seq (destroyRetired_balanced h) fun _ s₁ hs₁ =>
    wpu_seq (resumeAccepting_balanced hs₁) fun _ s₂ hs₂ =>
      wpu_seq ((now_still rfl).balanced hs₂) fun tNow s₃ hs₃ => wpu_get_bind ?_
  split
  · refine wpu_defined_unless_bind (fun _ => trivial) ?_
    rintro ⟨r, store⟩ -
    exact wpu_modify hs₃
  · exact wpu_pure hs₃

end Server

/-- One event leaves the ledger balanced, whoever it is for. -/
theorem EventLoop.dispatchEvent_balanced (h : Booked held none s.fds) (event : Handler × UInt32) :
    Balanced held (EventLoop.dispatchEvent Server.io event) s := by
  have hwrite : ∀ s' : System, Booked held none s'.fds → Balanced held
      (if event.2 &&& EPOLLOUT ≠ 0 then Server.io.onWritable event.1 else pure ()) s' := by
    intro s' hs'
    split
    · cases event.1 with
      | acceptor => exact wpu_pure hs'
      | connection id => exact (Connection.onWritable_still rfl).balanced hs'
    · exact wpu_pure hs'
  have hread : Balanced held (Server.io.onReadable event.1) s := by
    cases event.1 with
    | acceptor => exact Server.acceptPending_balanced h
    | connection id => exact (Connection.onReadable_still rfl).balanced h
  unfold EventLoop.dispatchEvent
  dsimp only
  split
  · exact wpu_seq hread fun _ s' hs' => hwrite s' hs'
  · exact hwrite s h

/-! ### Runs -/

/-- The step lemma. -/
theorem Step.booked {p q : Point} (h : Step p q) (hp : Booked held none p.state.fds) :
    Booked held none q.state.fds := by
  cases h with
  | wait => exact hp
  | deliver hrun => exact (EventLoop.dispatchEvent_balanced hp _).of_done hrun
  | tick hrun => exact (Server.onTick_balanced hp).of_done hrun

/-- The run lemma. -/
theorem Reaches.booked {p q : Point} (h : Reaches p q) (hp : Booked held none p.state.fds) :
    Booked held none q.state.fds := by
  induction h with
  | refl => exact hp
  | tail _ hstep ih => exact hstep.booked ih

/-- What the loop does next may have a descriptor in hand. -/
theorem Point.Observes.booked {p : Point} {call : Call} (h : p.Observes call s)
    (hp : Booked held none p.state.fds) : ∃ hand, Booked held hand s.fds := by
  obtain ⟨phase, state⟩ := p
  cases phase with
  | head =>
    obtain ⟨rfl, -⟩ := h
    exact ⟨none, hp⟩
  | batch events =>
    cases events with
    | nil =>
      obtain ⟨script, hrun⟩ := h
      exact (Server.onTick_balanced hp).of_waiting hrun
    | cons event events =>
      obtain ⟨script, hrun⟩ := h
      exact (EventLoop.dispatchEvent_balanced hp event).of_waiting hrun

end Balanced

end TinyRedis
