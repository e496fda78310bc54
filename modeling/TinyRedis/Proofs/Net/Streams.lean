import TinyRedis.Proofs.Net.Server

/-!
# `TinyRedis.Proofs.Net.Streams`: every client is served its own stream, in order

However the bytes of a client arrive and however the replies leave, among whatever the other
connections do: the commands dispatched for a connection are those of the session of the bytes it
has received, and what it has written, with what its output buffer still holds, is the replies to
them in order.

* `InOrder`: all of that for one connection, also after it is gone.
* `Session.Exact.follows`: of a longer stream, the commands so far are the first ones.
* `Session.Exact.complete`: once the stream is there, or what is there ends it, they are all of
  them.
* `Inv.inOrder`: the invariant of the process gives it for every connection.
* `run_inOrder`: it is so at every moment of every run.

Where the run stands inside `processInput`, the connection that is being parsed may have commands
left; there the statement is about what has been dispatched so far (`settled`).
-/

set_option autoImplicit false

namespace TinyRedis

open Lib

variable [EntryPool]

/-- A connection is served in order. At a moment that is not `settled` the connection may be in
the middle of the bytes it has received. -/
structure InOrder (s : System) (settled : Prop) (id : ConnId) : Prop where
  /-- What has been written and what is still to be written are the replies so far. -/
  fifo : ∀ c, s.heap id = some c →
    (s.sessions id).written ++ c.out.readable = (s.sessions id).replies
  /-- A connection whose socket did not fail is not destroyed before all of it is written. -/
  sent : s.heap id = none → (s.sessions id).broken = false →
    (s.sessions id).written = (s.sessions id).replies
  /-- The commands are the first of the stream that the received bytes begin, and a protocol error
  is that of the stream. -/
  follows : ∀ stream, (s.sessions id).received <+: stream →
    (s.sessions id).cmds <+: (commands.session stream).1 ∧
      ∀ msg, (s.sessions id).refused = some msg → (commands.session stream).2 = .failed msg
  /-- When the stream has been received, up to its end or up to a QUIT or a protocol error, the
  commands are all of its commands. -/
  complete : settled → ∀ stream, (s.sessions id).received <+: stream →
    (s.sessions id).received = stream ∨
      (commands.session (s.sessions id).received).2 ≠ .pending →
    (s.sessions id).cmds = (commands.session stream).1 ∧
      (s.sessions id).refused = (commands.session stream).2.failure?

namespace Session

variable {h : Session} {stream : Bytes}

/-- The commands so far are the first of any stream that goes on from here. -/
theorem Going.follows {rest : Bytes} (hgoing : h.Going rest) (hstream : h.received <+: stream) :
    h.cmds <+: (commands.session stream).1 ∧
      ∀ msg, h.refused = some msg → (commands.session stream).2 = .failed msg := by
  obtain ⟨t, rfl⟩ := hstream
  refine ⟨?_, fun msg hmsg => ?_⟩
  · rw [(hgoing.2.append t).session_eq]
    exact List.prefix_append _ _
  · rw [hgoing.1] at hmsg
    cases hmsg

/-- When all that has arrived has been dispatched, the commands so far are the first of any stream
that goes on from here. -/
theorem Exact.follows (hexact : h.Exact) (hstream : h.received <+: stream) :
    h.cmds <+: (commands.session stream).1 ∧
      ∀ msg, h.refused = some msg → (commands.session stream).2 = .failed msg := by
  obtain ⟨e, hsession, hfailure⟩ := hexact
  obtain ⟨t, rfl⟩ := hstream
  obtain ⟨hover, hitems⟩ := Parser.session_append (p := commands) h.received t
  rw [hsession] at hover hitems
  refine ⟨hitems, fun msg hmsg => ?_⟩
  rw [← hfailure] at hmsg
  cases e with
  | pending => cases hmsg
  | last => cases hmsg
  | failed e =>
    cases hmsg
    rw [hover (by simp)]

/-- They are all of them, when the stream has arrived or has come to its end. -/
theorem Exact.complete (hexact : h.Exact) (hstream : h.received <+: stream)
    (hall : h.received = stream ∨ (commands.session h.received).2 ≠ .pending) :
    h.cmds = (commands.session stream).1 ∧
      h.refused = (commands.session stream).2.failure? := by
  have hsame : commands.session stream = commands.session h.received := by
    rcases hall with rfl | hended
    · rfl
    · obtain ⟨t, rfl⟩ := hstream
      exact (Parser.session_append (p := commands) h.received t).1 hended
  obtain ⟨e, hsession, hfailure⟩ := hexact
  rw [hsame, hsession]
  exact ⟨rfl, hfailure.symm⟩

end Session

variable {presized : Prop} {b₀ m₀ : Nat} {busy : Option ConnId} {s : System}

/-- A session that nothing has happened in. -/
theorem Session.exact_empty : Session.Exact {} := by
  have hgoing : Session.Going {} [] := ⟨rfl, .start⟩
  exact hgoing.exact rfl

/-- In a process that keeps its invariant, every connection is served in order. -/
theorem Inv.inOrder (h : Inv presized b₀ m₀ [] busy s) (id : ConnId) :
    InOrder s (busy = none) id := by
  cases hc : s.heap id with
  | some c =>
    have hserved := h.serving.served hc
    have hexact : busy = none → (s.sessions id).Exact := by
      rintro rfl
      exact hserved.exact (h.serving.rests hc)
    refine ⟨?_, fun hnone => ?_, fun stream hstream => ?_, fun hsettled stream => ?_⟩
    · intro c' hc'
      rw [hc] at hc'
      cases hc'
      exact hserved.fifo
    · rw [hc] at hnone
      cases hnone
    · -- A connection that is not open has read all it will ever answer.
      cases hstate : c.state with
      | kOpen => exact (hserved.going hstate).follows hstream
      | kClosing => exact (hserved.ended hstate).exact.follows hstream
      | kClosed => exact (hserved.closed hstate).1.follows hstream
    · exact (hexact hsettled).complete
  | none =>
    -- The connection was destroyed, or there has been none yet.
    have hgone : (s.sessions id).Exact ∧
        ((s.sessions id).broken = false → (s.sessions id).written = (s.sessions id).replies) := by
      by_cases hlt : id < s.nextId
      · obtain ⟨hexact, hbroken | ⟨-, hsent⟩⟩ := h.serving.gone hlt hc
        · exact ⟨hexact, fun hnot => by rw [hbroken] at hnot; cases hnot⟩
        · exact ⟨hexact, fun _ => hsent⟩
      · rw [(h.serving.fresh (Nat.le_of_not_lt hlt)).2]
        exact ⟨Session.exact_empty, fun _ => rfl⟩
    refine ⟨fun c hc' => ?_, fun _ => hgone.2, fun stream => hgone.1.follows,
      fun _ stream => hgone.1.complete⟩
    rw [hc] at hc'
    cases hc'

namespace Server

/-- Every client is served its own stream, in order. A run of the server is never undefined, and at
every moment of every run, whatever the kernel answers and whatever the other connections do, every
connection is served in order. -/
theorem run_inOrder (cfg : Config) (rd : UInt64) (listenFd : Fd) (reserveFd : Option Fd)
    (held : Fd → Bool) (s₀ : System) (hmax : cfg.store.maxKeys ≤ kPoolCapacity)
    (hsamples : 1 ≤ cfg.store.lruSamples) (hsamples' : cfg.store.lruSamples ≤ 64)
    (hnew : Server.new cfg rd listenFd reserveFd held = some s₀) (script : List Answers) :
    (Server.run script s₀).Sat (fun _ s => ∀ id, InOrder s True id)
      (fun call s => ∀ id, InOrder s (call.midway = false) id) := by
  have hvalid : cfg.Valid := ⟨hmax, hsamples, hsamples'⟩
  have hrun := (Server.run_spec (new_health hnew) not_false).wp (not_not.mpr hvalid) script
  cases hout : Server.run script s₀ with
  | done r script' s =>
    rw [hout] at hrun
    intro id
    have hid := (hrun.inv hvalid).inOrder id
    exact { hid with complete := fun _ => hid.complete rfl }
  | waiting call s =>
    rw [hout] at hrun
    obtain ⟨busy, hbusy, hmidway⟩ := hrun.moment hvalid
    intro id
    have hid := hbusy.inOrder id
    -- The input is parsed to its end except where the run waits midway in a batch of commands.
    refine { hid with complete := fun hcall => hid.complete ?_ }
    by_contra hne
    rw [hmidway hne] at hcall
    cases hcall
  | stuck =>
    rw [hout] at hrun
    exact hrun

omit [EntryPool] in
/-- Two commands and the start of a third in one read, the rest of it with a QUIT in the next, and
a write that takes three bytes, is interrupted and then has to wait. -/
theorem run_inOrder_pipelined : letI := slabPool
    let cfg : Config := { store := { seed := 7, initialBuckets := 4 } }
    let accepting : List Answers := [{}, {}, { wait := .ok [(3, EPOLLIN)] }, {},
      { accept := .ok 7 }, {}, {}, {}, {}, { nowMs := 1000 }]
    let reading : List Answers := [{}, {}, { wait := .ok [(7, EPOLLIN)] },
      { read := .ok (ascii "PING\r\nSET a b\r\nGE") }, { nowMs := 1001 }, {}, {}, {}, {},
      { write := .ok 3 }, {}, { write := .error .EINTR }, {}, { write := .error .EAGAIN }, {}]
    let quitting : List Answers := [{}, {}, { wait := .ok [(7, EPOLLIN ||| EPOLLOUT)] },
      { read := .ok (ascii "T a\r\nQUIT\r\nPING\r\n") }, { nowMs := 1101 }, {}, {}, {},
      { write := .ok 10 }]
    ∃ s₀, Server.new cfg 0 3 (some 4) (fun fd => fd < 3) = some s₀ ∧
      (Server.run (accepting ++ reading ++ quitting) s₀).Sat (fun _ s => ∀ id, InOrder s True id)
        (fun call s => ∀ id, InOrder s (call.midway = false) id) := by
  let _ := slabPool
  intro cfg accepting reading quitting
  obtain ⟨s₀, hnew⟩ := Server.new_isSome 0 (show cfg.store.initialBuckets ≤ 2 ^ 63 by decide)
    (by decide) 3 (some 4) fun fd => fd < 3
  exact ⟨s₀, hnew, run_inOrder cfg 0 3 (some 4) _ s₀ (by decide) (by decide) (by decide) hnew _⟩

end Server

end TinyRedis
