import TinyRedis.Net.Server
import TinyRedis.Proofs.Net.Connection

/-!
# `TinyRedis.Proofs.Net.Server`: the server keeps the process healthy

The accept path, the end of retired connections, the tick and the loop, each from `Health` to
`Health`. Connections are destroyed between batches only, so the handlers of a batch exist until it
has been delivered.

* `Spare`, `Free`: a descriptor that is open and that nothing else in the process has.
* `wpu_accept4`, `wpu_openReserve`: the two calls that open a descriptor.
* `setReserve_spec`, `shedPending_spec`, `pauseAccepting_spec`, `resumeAccepting_spec`: the reserve.
* `new_emplace_spec`, `acceptRound_spec`: a new connection, from its descriptor to the map.
* `destroy_spec`, `destroyRetired_spec`, `onTick_spec`: what is done after a batch.
* `Health.batch`, `deliver_spec`, `runRound_spec`: a batch, event by event, and the round around it.
* `Server.new_health`, `Server.run_spec`: a new server is healthy, and stays so in its run.

The events of a batch are for handlers that exist when `epoll_wait` returns (`mem_batch`). They go
on existing while the batch is delivered, since the code destroys a connection only in
`destroyRetired`, or in `emplace`, where it is one that epoll has not yet reported.
-/

set_option autoImplicit false

namespace TinyRedis

open Lib Exec

variable [EntryPool] {f : Frame} {live : List ConnId} {s : System} {id : ConnId} {c : Connection}
  {fd : Fd}

/-! ### Descriptors -/

/-- An open descriptor that is neither a connection's nor the reserve. -/
structure Spare (s : System) (fd : Fd) : Prop where
  isOpen : s.kernel.isOpen fd = true
  ne : ∀ {id p}, places s.heap id = some p → p.fd ≠ fd
  ne_reserve : s.server.reserveFd ≠ some fd

/-- A spare descriptor that is not the listening socket either. -/
structure Free (f : Frame) (s : System) (fd : Fd) : Prop extends Spare s fd where
  ne_listen : f.distinct → fd ≠ s.server.listenFd

/-- No connection has a spare descriptor. -/
theorem Spare.fd_ne (h : Spare s fd) (hc : s.heap id = some c) : c.fd ≠ fd :=
  h.ne (places_eq hc)

namespace Health

/-- What the kernel opens was not open, so it is nobody's. -/
theorem opened (h : Health f live .idle s) (hvacant : s.kernel.isOpen fd = false) :
    Health f live .idle (s.opened fd) ∧ Free f (s.opened fd) fd := by
  refine ⟨⟨h.cap, h.serving, h.owned.opened fd, h.live, fun hd => (h.polled hd).opened fd, h.later,
    h.paused⟩, ⟨Function.update_self .., ?_, ?_⟩, fun hd heq => ?_⟩
  · rintro id p hp rfl
    rw [h.owned.isOpen hp] at hvacant
    cases hvacant
  · intro hreserve
    rw [(h.owned.reserve hreserve).1] at hvacant
    cases hvacant
  · have hlisten : s.kernel.isOpen s.server.listenFd = true := (h.polled hd).isOpen
    rw [show s.server.listenFd = fd from heq.symm, hvacant] at hlisten
    cases hlisten

/-- A descriptor that nothing has can be closed. -/
theorem closed (h : Health f live .idle s) (hfree : Free f s fd) :
    Health f live .idle (s.closed fd) :=
  ⟨h.cap, h.serving, h.owned.closed hfree.ne hfree.ne_reserve, h.live,
    fun hd => (h.polled hd).closed hfree.fd_ne (hfree.ne_listen hd), h.later, h.paused⟩

/-- The listening socket registers a mask, and the server takes note of it. -/
theorem listen (h : Health f live .idle s) {paused : Bool} {mask : UInt32}
    (hmask : mask = listenMask paused) (hpaused : f.paused → paused = true) :
    Health f live .idle { s.registered s.server.listenFd (some (.acceptor, mask)) with
      server.acceptPaused := paused } :=
  ⟨h.cap, h.serving, h.owned.registered (fun _ heq => by cases heq) mask, h.live,
    fun hd => (h.polled hd).listen hmask, h.later, hpaused⟩

end Health

omit [EntryPool] in
/-- An answer of the kernel is one that it could give. -/
theorem granted_ok {α β : Type} {can : α → Option β} {r : Except Errno α} {b : β}
    (h : granted can r = some (.ok b)) : ∃ a, can a = some b := by
  cases r with
  | error e => cases h
  | ok a =>
    refine ⟨a, ?_⟩
    cases hcan : can a with
    | none => rw [granted, hcan] at h; cases h
    | some b' => rw [granted, hcan] at h; cases h; rfl

/-- The kernel opens only what is not open. -/
theorem vacant_eq_some {fd' : Fd} (h : s.vacant fd' = some fd) : s.kernel.isOpen fd = false := by
  unfold System.vacant at h
  split at h
  · cases h
  · next hclosed =>
    cases h
    simpa using hclosed

section Calls

variable {α : Type} {U : Prop} {Q : α → System → Prop} {C : Call → System → Prop}

/-- `accept4` fails, or opens a descriptor. -/
theorem wpu_accept4 {g : Except Errno Fd → NetM α} (hC : C .accept s)
    (herror : ∀ e, wpu U (g (.error e)) Q C s)
    (hok : ∀ fd, s.kernel.isOpen fd = false → wpu U (g (.ok fd)) Q C (s.opened fd)) :
    wpu U (accept4 >>= g) Q C s := by
  refine wpu_bind (wpu_get_bind (wpu_ask_bind hC fun _ r hr => ?_))
  cases r with
  | error e => exact wpu_pure (herror e)
  | ok fd =>
    obtain ⟨fd', hfd'⟩ := granted_ok hr
    exact wpu_modify_bind (wpu_pure (hok fd (vacant_eq_some hfd')))

/-- The reserve cannot be opened, or is a new descriptor. -/
theorem wpu_openReserve {g : Option Fd → NetM α} (hC : C .openNull s) (hnone : wpu U (g none) Q C s)
    (hsome : ∀ fd, s.kernel.isOpen fd = false → wpu U (g (some fd)) Q C (s.opened fd)) :
    wpu U (openReserve >>= g) Q C s := by
  refine wpu_bind (wpu_get_bind (wpu_ask_bind hC fun a r hr => ?_))
  cases r with
  | none => exact wpu_pure hnone
  | some fd =>
    refine wpu_modify_bind (wpu_pure (hsome fd ?_))
    cases hopen : a.openNull with
    | none => rw [hopen] at hr; cases hr
    | some fd' =>
      rw [hopen] at hr
      cases hvacant : s.vacant fd' with
      | none => simp [hvacant] at hr
      | some fd'' =>
        simp only [Option.mapM_some, hvacant] at hr
        cases hr
        exact vacant_eq_some hvacant

end Calls

namespace Server

/-! ### The reserve -/

/-- The reserve is replaced by nothing or by a free descriptor. -/
theorem setReserve_spec (h : Health f live .idle s) {new : Option Fd}
    (hnew : ∀ fd, new = some fd → Free f s fd) :
    Meets f (setReserve new) (fun _ s' => Health f live .idle s' ∧
      s'.server.listenFd = s.server.listenFd) s := by
  have hlisten : f.distinct → new ≠ some s.server.listenFd :=
    fun hd heq => (hnew _ heq).ne_listen hd rfl
  refine wpu_get_bind ?_
  cases hold : s.server.reserveFd with
  | none =>
    refine wpu_modify ⟨⟨h.cap, h.serving, ?_, h.live,
      fun hd => (h.polled hd).reserved (hlisten hd), h.later, h.paused⟩, rfl⟩
    cases new with
    | none => exact h.owned.unreserved
    | some fd => exact h.owned.reserved (hnew fd rfl).isOpen (hnew fd rfl).ne
  | some old =>
    -- The reserve so far is closed first, and is not the new one.
    have hclosed := h.owned.unreserved.closed (h.owned.reserve hold).2 (by simp)
    refine wpu_modify ⟨⟨h.cap, h.serving, ?_, h.live, fun hd => ?_, h.later, h.paused⟩, rfl⟩
    · cases new with
      | none => exact hclosed
      | some fd =>
        have hfree := hnew fd rfl
        have hne : fd ≠ old := by
          rintro rfl
          exact hfree.ne_reserve hold
        refine hclosed.reserved ?_ hfree.ne
        show Function.update s.kernel.isOpen old false fd = true
        rw [Function.update_of_ne hne]
        exact hfree.isOpen
    · have hold' : old ≠ s.server.listenFd := by
        rintro rfl
        exact (h.polled hd).ne_reserve hold
      have hpolled := (h.polled hd).closed (fun hc => (h.owned.reserve hold).2 (places_eq hc)) hold'
      exact hpolled.reserved (hlisten hd)

/-- The reserve is given up for a client, who is turned away, and opened again. -/
theorem shedPending_spec (h : Health f live .idle s) :
    Meets f shedPending (fun _ => Health f live .idle) s := by
  -- Whatever was shed, a new reserve is opened.
  have hreopen : ∀ (b : Bool) (s' : System), Health f live .idle s' →
      Meets f (do setReserve (← openReserve); return b) (fun _ => Health f live .idle) s' := by
    intro b s' hs'
    refine wpu_openReserve (hs'.observed rfl trivial) ?_ fun fd hvacant => ?_
    · exact wpu_seq (setReserve_spec hs' (by simp)) fun _ _ hinv => wpu_pure hinv.1
    · obtain ⟨hopened, hfree⟩ := hs'.opened hvacant
      refine wpu_seq (setReserve_spec hopened ?_) fun _ _ hinv => wpu_pure hinv.1
      rintro _ ⟨⟩
      exact hfree
  refine wpu_get_bind ?_
  split
  · exact wpu_pure h
  refine wpu_seq (setReserve_spec h (by simp)) fun _ s' hs' => ?_
  refine wpu_accept4 (hs'.1.observed rfl trivial) (fun e => ?_) fun fd hvacant => ?_
  · -- The accept failed again, and nothing was shed.
    exact wpu_bind (wpu_pure (hreopen false s' hs'.1))
  · obtain ⟨hopened, hfree⟩ := hs'.1.opened hvacant
    exact wpu_modify_bind (wpu_bind (wpu_pure (hreopen true _ (hopened.closed hfree))))

/-- The listener is registered for nothing, and the server notes it. -/
theorem pauseAccepting_spec (h : Health f live .idle s) :
    Meets f pauseAccepting (fun _ => Health f live .idle) s := by
  refine wpu_get_bind ?_
  split
  · exact wpu_pure h
  exact wpu_epollCtl (h.observed rfl trivial) (fun _ => wpu_pure h)
    (wpu_modify (h.listen rfl fun _ => rfl))

/-- Accepting is resumed by a tick only. -/
theorem resumeAccepting_spec (h : Health f live .idle s) (hf : ¬ f.paused) :
    Meets f resumeAccepting (fun _ => Health f live .idle) s := by
  refine wpu_get_bind ?_
  split
  · refine wpu_openReserve (h.observed rfl trivial) ?_ fun fd hvacant => ?_
    · exact wpu_seq (setReserve_spec h (by simp)) fun _ s' hs' => wpu_pure hs'.1
    · obtain ⟨hopened, hfree⟩ := h.opened hvacant
      refine wpu_seq (setReserve_spec hopened ?_) ?_
      · rintro _ ⟨⟩
        exact hfree
      rintro _ s' ⟨hs', hlisten⟩
      rw [if_neg (by simp)]
      refine wpu_epollCtl (hs'.observed rfl trivial) (fun _ => wpu_pure hs') (wpu_modify ?_)
      -- The descriptor of the listening socket was read before the reserve was opened.
      rw [show s.server.listenFd = s'.server.listenFd from hlisten.symm]
      exact hs'.listen rfl fun hpaused => absurd hpaused hf
  · exact wpu_pure h

/-! ### Accepting -/

/-- Whatever is done about a failed `accept4` keeps the process healthy. -/
theorem handleAcceptFailure_spec (h : Health f live .idle s) (err : Errno) :
    Meets f (handleAcceptFailure err) (fun _ => Health f live .idle) s := by
  have hpause : ∀ s', Health f live .idle s' →
      Meets f (do pauseAccepting; return false) (fun _ => Health f live .idle) s' :=
    fun s' hs' => wpu_seq (pauseAccepting_spec hs') fun _ _ hinv => wpu_pure hinv
  unfold handleAcceptFailure
  split
  · exact wpu_pure h
  · exact wpu_pure h
  · -- Out of descriptors: a connection is shed, or else accepting pauses.
    refine wpu_seq (shedPending_spec h) fun shed s' hs' => ?_
    split
    · exact wpu_pure hs'
    · exact hpause s' hs'
  · exact hpause s h

omit [EntryPool] in
/-- An empty input has no command in it. -/
theorem settled_of_nil {c : Connection} (hin : c.in_.readable = []) : c.Settled := by
  intro _
  rw [hin]
  rfl

/-- A connection that has just been built has an empty session. -/
theorem served_new {c : Connection} (hin : c.in_.readable = []) (hout : c.out.readable = [])
    (hstate : c.state = .kOpen) : Served {} c where
  fifo := by rw [hout]; rfl
  going _ := by rw [hin]; exact ⟨rfl, .start⟩
  ended heq := by rw [hstate] at heq; cases heq
  closed heq := by rw [hstate] at heq; cases heq

omit [EntryPool] in
/-- A new connection waits for input, and has nothing to write. -/
theorem rested_new {c : Connection} (hout : c.out.readable = []) (hstate : c.state = .kOpen)
    (hinterest : c.interest = EPOLLIN) : c.Rested := by
  refine fun _ => ⟨?_, fun heq => by rw [hstate] at heq; cases heq⟩
  rw [hinterest, Connection.wanted, if_pos (Buffer.empty_iff.mpr hout), if_pos hstate]
  decide

/-- A free descriptor becomes that of a new connection, which finds its place free. -/
theorem new_emplace_spec (h : Health f live .idle s) (hfree : Free f s fd) :
    Meets f (do
        match ← Connection.new fd with
        | .error _ => return .again ()
        | .ok id =>
            emplace fd id
            return .again () : NetM (Round Unit Unit))
      (fun _ => Health f live .idle) s := by
  refine wpu_bind (wpu_get_bind ?_)
  dsimp only
  refine wpu_epollCtl (h.observed rfl trivial) (fun e => wpu_modify_bind (wpu_pure ?_))
    (wpu_modify_bind (wpu_pure ?_))
  · exact wpu_pure (h.closed hfree)
  refine wpu_bind (wpu_get_bind ?_)
  -- A descriptor that the kernel has just opened is that of no connection.
  have hplace : s.server.connections fd = none := by
    cases hconn : s.server.connections fd with
    | none => rfl
    | some id => exact absurd rfl (hfree.ne (h.owned.connections_iff.mp hconn))
  simp only [System.put, System.registered, hplace]
  refine wpu_modify (wpu_pure ⟨h.cap, ?_, ?_, h.live_update, fun hd => ?_, ?_, h.paused⟩)
  · refine h.serving.add (served_new ?_ ?_ rfl) (settled_of_nil ?_) <;> exact Buffer.readable_new _
  · show Owned (places (Function.update s.heap _ _)) _ _ _ _
    rw [places_update]
    -- Neither has the new object been used before.
    have hnew : places s.heap s.nextId = none := by
      rw [places, (h.serving.fresh (Nat.le_refl _)).1]
      rfl
    exact h.owned.add hnew hfree.ne hfree.isOpen hfree.ne_reserve EPOLLIN
  · exact (h.polled hd).add hfree.fd_ne (hfree.ne_listen hd)
      (rested_new (Buffer.readable_new _) rfl rfl) s.nextId
  · exact h.later.add rfl rfl rfl

/-- A round of accepting: nothing, a client turned away, or a new connection. -/
theorem acceptRound_spec (h : Health f live .idle s) :
    Meets f (acceptRound ()) (fun _ => Health f live .idle) s := by
  refine wpu_accept4 (h.observed rfl trivial) (fun e => ?_) fun fd hvacant => ?_
  · refine wpu_seq (handleAcceptFailure_spec h e) fun goesOn s' hs' => ?_
    split <;> exact wpu_pure hs'
  · obtain ⟨hopened, hfree⟩ := h.opened hvacant
    refine wpu_ask_bind (hopened.observed rfl trivial) fun _ r _ => ?_
    cases r with
    | error e => exact wpu_modify_bind (wpu_pure (hopened.closed hfree))
    | ok _ => exact new_emplace_spec hopened hfree

/-- Accepting keeps the process healthy, to the end of its loop. -/
theorem acceptPending_spec (h : Health f live .idle s) :
    Meets f acceptPending (fun _ => Health f live .idle) s := by
  refine wpu_loop (fun _ => Health f live .idle) ?_ (fun _ s' hs' => ?_) h
  · exact fun _ s' hs' => hs'.observed rfl trivial
  · exact wpu_mono (acceptRound_spec hs') fun r s'' hs'' => Round.sat_of hs''

/-! ### The tick -/

/-- The first of the retired connections is destroyed. -/
theorem destroy_spec {retired : List ConnId}
    (h : Health f [] .idle { s with server.retired := id :: retired }) :
    Meets f (Connection.destroy id)
      (fun _ s' => Health f [] .idle { s' with server.retired := retired }) s := by
  obtain ⟨fd, hplace⟩ := h.owned.mem_retired.mp (List.mem_cons_self ..)
  obtain ⟨c, hc, hcplace⟩ := Option.map_eq_some_iff.mp hplace
  have hstate : c.state = .kClosed := by
    simpa [Connection.place] using congrArg Place.closed hcplace
  obtain rfl : c.fd = fd := congrArg Place.fd hcplace
  refine wpu_connection hc (wpu_modify_bind (wpu_modify ?_))
  -- The descriptor leaves the interest list twice: by `remove`, and by being closed.
  have hkernel : (((s.registered c.fd none).closed c.fd).kernel) =
      { isOpen := Function.update s.kernel.isOpen c.fd false
        epoll := Function.update s.kernel.epoll c.fd none } := by
    simp only [System.registered, System.closed, Function.update_idem]
  refine ⟨h.cap, h.serving.destroy hc hstate, ?_, by simp, fun hd => ?_,
    h.later.destroy rfl rfl rfl, h.paused⟩
  · show Owned (places (Function.update s.heap id none)) _ _
      ((s.registered c.fd none).closed c.fd).kernel _
    rw [places_update, hkernel]
    exact h.owned.destroy hplace
  · show Polled _ _ ((s.registered c.fd none).closed c.fd).kernel _ _ _
    rw [hkernel]
    exact (h.polled hd).destroy hc

/-- The retired connections are destroyed, and the list is empty. -/
theorem destroyRetired_spec (h : Health f [] .idle s) :
    Meets f destroyRetired (fun _ => Health f [] .idle) s := by
  refine wpu_get_bind (wpu_seq (wpu_forM
    (fun retired s' => Health f [] .idle { s' with server.retired := retired })
    (fun _ _ _ hs' => destroy_spec hs') h) ?_)
  intro _ s' hs'
  exact wpu_modify hs'

/-- What is done after a batch, when no event is left that points to a connection. -/
theorem onTick_spec (h : Health f [] .idle s) (hf : ¬ f.paused) :
    Meets f onTick (fun _ => Health f [] .idle) s := by
  refine wpu_seq (destroyRetired_spec h) fun _ s₁ h₁ => ?_
  refine wpu_seq (resumeAccepting_spec h₁ hf) fun _ s₂ h₂ => ?_
  refine wpu_seq (now_spec h₂) ?_
  rintro tNow s₃ ⟨h₃, -⟩
  refine wpu_get_bind ?_
  split
  · -- The sweep takes expired keys only, so the store stays within its capacity.
    have hdefined := fun hvalid =>
      (h₃.cap hvalid).activeExpireCycle tNow s₃.server.cfg.expireSampleBuckets
    refine wpu_defined_unless_bind (fun hnone hvalid => ?_) ?_
    · obtain ⟨r, store, hcycle, -⟩ := hdefined hvalid
      rw [hnone] at hcycle
      cases hcycle
    rintro ⟨r, store⟩ hcycle
    refine wpu_modify ⟨fun hvalid => ?_, h₃.serving, h₃.owned, h₃.live, h₃.polled, h₃.later,
      h₃.paused⟩
    obtain ⟨r', store', hcycle', hcap⟩ := hdefined hvalid
    rw [hcycle] at hcycle'
    cases hcycle'
    exact hcap
  · exact wpu_pure h₃

end Server

/-! ### The loop -/

/-- The connections among the handlers of a batch. -/
def connIds (events : List (Handler × UInt32)) : List ConnId :=
  events.filterMap fun event => match event.1 with
    | .acceptor => none
    | .connection id => some id

/-- `epoll_wait` reports handlers that are in the interest list. -/
theorem mem_batch {ready : List (Fd × UInt32)} {events : List (Handler × UInt32)}
    (h : EventLoop.batch s ready = some events) :
    ∀ event ∈ events, ∃ fd mask, s.kernel.epoll fd = some (event.1, mask) := by
  unfold EventLoop.batch at h
  split at h
  case isFalse => cases h
  case isTrue hlen =>
    clear hlen
    induction ready generalizing events with
    | nil =>
      cases h
      simp
    | cons r ready ih =>
      simp only [List.mapM_cons, Option.bind_eq_bind, Option.bind_eq_some_iff,
        Option.map_eq_some_iff] at h
      obtain ⟨_, ⟨⟨handler, mask⟩, hentry, rfl⟩, events', hevents', heq⟩ := h
      cases heq
      rintro event (_ | ⟨_, hmem⟩)
      · exact ⟨r.1, mask, hentry⟩
      · exact ih hevents' event hmem

/-- The handlers of a batch exist when it is reported. -/
theorem Health.batch (h : Health f [] .idle s) {ready : List (Fd × UInt32)}
    {events : List (Handler × UInt32)} (hbatch : EventLoop.batch s ready = some events) :
    Health f (connIds events) .idle s := by
  refine { h with live := fun id hid => ?_ }
  obtain ⟨⟨handler, mask'⟩, hevent, hhandler⟩ := List.mem_filterMap.mp hid
  obtain ⟨fd, mask, hentry⟩ := mem_batch hbatch _ hevent
  cases handler with
  | acceptor => cases hhandler
  | connection id' =>
    cases hhandler
    -- An entry of the interest list belongs to a connection that has not been destroyed.
    obtain ⟨p, hp, -⟩ := h.owned.handler hentry
    obtain ⟨c, hc, -⟩ := Option.map_eq_some_iff.mp hp
    exact ⟨c, hc⟩

namespace EventLoop

/-- One event keeps the process healthy, if its handler exists. -/
theorem dispatchEvent_spec (h : Health f live .idle s) {event : Handler × UInt32}
    (hlive : ∀ id, event.1 = .connection id → id ∈ live) :
    Meets f (dispatchEvent Server.io event) (fun _ => Health f live .idle) s := by
  have hread : ∀ s', Health f live .idle s' →
      Meets f (Server.io.onReadable event.1) (fun _ => Health f live .idle) s' := by
    intro s' hs'
    cases hevent : event.1 with
    | acceptor => exact Server.acceptPending_spec hs'
    | connection id => exact Connection.onReadable_spec hs' (hlive id hevent)
  have hwrite : ∀ s', Health f live .idle s' →
      Meets f (if event.2 &&& EPOLLOUT ≠ 0 then Server.io.onWritable event.1 else pure ())
        (fun _ => Health f live .idle) s' := by
    intro s' hs'
    split
    · cases hevent : event.1 with
      | acceptor => exact wpu_pure hs'
      | connection id => exact Connection.onWritable_spec hs' (hlive id hevent)
    · exact wpu_pure hs'
  unfold dispatchEvent
  dsimp only
  split
  · exact wpu_seq (hread s h) fun _ s' hs' => hwrite s' hs'
  · exact hwrite s h

/-- An event is delivered to a handler that exists. Handlers retire connections and do not destroy
them, so those of the events to come still exist. -/
theorem deliver_spec {event : Handler × UInt32} {events : List (Handler × UInt32)}
    (h : Health f (connIds (event :: events)) .idle s) :
    Meets f (dispatchEvent Server.io event) (fun _ => Health f (connIds events) .idle) s := by
  refine wpu_mono (dispatchEvent_spec h ?_) fun _ s' hs' => hs'.mono ?_
  · intro id hid
    simp [connIds, hid]
  · intro id hid
    obtain ⟨event', hevent', hid'⟩ := List.mem_filterMap.mp hid
    exact List.mem_filterMap.mpr ⟨event', List.mem_cons_of_mem _ hevent', hid'⟩

/-- A batch keeps the process healthy, to its last event. -/
theorem batch_spec {events : List (Handler × UInt32)} (h : Health f (connIds events) .idle s) :
    Meets f (events.forM (dispatchEvent Server.io)) (fun _ => Health f [] .idle) s :=
  wpu_forM (fun events => Health f (connIds events) .idle) (fun _ _ _ hs' => deliver_spec hs') h

/-- A round of the loop keeps the process healthy, from head to head. -/
theorem runRound_spec (h : Health f [] .idle s) (hf : ¬ f.paused) :
    Meets f (runRound Server.io Server.onTick ()) (fun _ => Health f [] .idle) s := by
  refine wpu_ask_bind (h.observed rfl trivial) fun _ stop _ => ?_
  split
  · exact wpu_pure h
  refine wpu_get_bind (wpu_ask_bind (h.observed rfl trivial) fun _ r hr => ?_)
  split
  · exact wpu_pure h
  · exact wpu_pure h
  · next events hr =>
    obtain ⟨ready, hbatch⟩ := granted_ok hr
    have hevents := h.batch hbatch
    refine wpu_modify_bind (wpu_seq (batch_spec ?_) fun _ s' hs' => ?_)
    · exact ⟨hevents.cap, hevents.serving, hevents.owned, hevents.live, hevents.polled,
        hevents.later, hevents.paused⟩
    · exact wpu_seq (Server.onTick_spec hs' hf) fun _ s'' hs'' => wpu_pure hs''

end EventLoop

/-! ### Runs -/

/-- The configuration of the store keeps the promises that its asserts check. -/
def Server.Config.Valid (cfg : Server.Config) : Prop :=
  cfg.store.maxKeys ≤ kPoolCapacity ∧ 1 ≤ cfg.store.lruSamples ∧ cfg.store.lruSamples ≤ 64

/-- What is given about the runs of a server that was built as `s₀`. -/
def Server.frame (cfg : Server.Config) (s₀ : System) : Frame where
  valid := cfg.Valid
  presized := cfg.store.maxKeys ≠ 0
  b₀ := s₀.server.store.bucketCount
  m₀ := resolveMaxKeys cfg.store.maxKeys
  distinct := s₀.server.reserveFd ≠ some s₀.server.listenFd
  base := s₀
  paused := False

/-- A server whose store can be built can be built. -/
theorem Server.new_isSome {cfg : Server.Config} (rd : UInt64)
    (hb : cfg.store.initialBuckets ≤ 2 ^ 63) (hm : cfg.store.maxKeys ≤ kPoolCapacity)
    (listenFd : Fd) (reserveFd : Option Fd) (held : Fd → Bool) :
    ∃ s₀, Server.new cfg rd listenFd reserveFd held = some s₀ := by
  obtain ⟨store, hstore⟩ := Store.new_isSome rd hb hm
  rw [Server.new, hstore]
  exact ⟨_, rfl⟩

/-- A new server keeps the descriptors that it is given. -/
theorem Server.new_distinct {cfg : Server.Config} {rd : UInt64} {listenFd : Fd}
    {reserveFd : Option Fd} {held : Fd → Bool} {s₀ : System}
    (hnew : Server.new cfg rd listenFd reserveFd held = some s₀)
    (hdistinct : reserveFd ≠ some listenFd) : (frame cfg s₀).distinct := by
  simp only [Server.new, Option.bind_eq_bind, Option.bind_eq_some_iff] at hnew
  obtain ⟨store, -, heq⟩ := hnew
  cases heq
  exact hdistinct

/-- A new server is healthy: it has no connections, and its store is empty. -/
theorem Server.new_health {cfg : Server.Config} {rd : UInt64} {listenFd : Fd}
    {reserveFd : Option Fd} {held : Fd → Bool} {s₀ : System}
    (hnew : Server.new cfg rd listenFd reserveFd held = some s₀) :
    Health (frame cfg s₀) [] .idle s₀ := by
  simp only [Server.new, Option.bind_eq_bind, Option.bind_eq_some_iff] at hnew
  obtain ⟨store, hstore, heq⟩ := hnew
  cases heq
  refine ⟨fun hvalid => Store.Cap.new hvalid.1 hvalid.2.1 hvalid.2.2 hstore, ?_, ?_, by simp, ?_,
    System.Later.refl _, False.elim⟩
  · exact ⟨by simp, by simp, fun hlt => absurd hlt (Nat.not_lt_zero _), fun _ => ⟨rfl, rfl⟩⟩
  · refine ⟨by simp [places], by simp [places], List.nodup_nil, by simp [places], by simp [places],
      ?_, ?_⟩
    · intro fd id mask hentry
      dsimp only at hentry
      split at hentry <;> cases hentry
    · intro fd hreserve
      exact ⟨decide_eq_true (Or.inr (Or.inl hreserve.symm)), by simp [places]⟩
  · exact fun hdistinct => ⟨by simp, by simp, if_pos rfl, decide_eq_true (Or.inl rfl), hdistinct⟩

/-- The server keeps the process healthy, at every moment of every run. -/
theorem Server.run_spec (h : Health f [] .idle s) (hf : ¬ f.paused) :
    Meets f Server.run (fun _ => Health f [] .idle) s := by
  have hloop : Meets f (EventLoop.run Server.io Server.onTick) (fun _ => Health f [] .idle) s := by
    refine wpu_loop (fun _ => Health f [] .idle) ?_ (fun _ s' hs' => ?_) h
    · exact fun _ s' hs' => hs'.observed rfl trivial
    · exact wpu_mono (EventLoop.runRound_spec hs' hf) fun r s'' hs'' => Round.sat_of hs''
  -- The run destroys what the last batch has retired, unless the loop has failed.
  refine wpu_seq hloop fun r s' hs' => ?_
  cases r with
  | error e => exact wpu_pure hs'
  | ok _ => exact wpu_seq (Server.destroyRetired_spec hs') fun _ s'' hs'' => wpu_pure hs''

end TinyRedis
