import TinyRedis.Net.System
import TinyRedis.Proofs.Resp.Session

/-!
# `TinyRedis.Proofs.Net.Session`: what a connection owes to the stream it has received

The session of a connection against the connection itself (`Served`): the bytes written and the
bytes still in the output buffer are the replies so far, and the input buffer holds what the
commands dispatched so far have left of the bytes received. One lemma for each thing that a
connection does to its buffers.

* `Session.Going`: the commands so far, and what is left of the bytes received behind them.
* `Session.Ended`: a protocol error has been replied to, or a command that ends the connection.
* `Session.Exact`: the commands dispatched are all those that the bytes received hold.
* `Served`: an open connection is going on, with its input buffer for what is left. A closing one
  has ended. A closed one was broken, or has ended and sent everything.
* `Served.receive`, `refuse`, `dispatch`, `quit`, `write`, `close`, `break_`: the things that a
  connection does.

What the bytes of a stream hold is said by `commands.session` of the protocol, once for the whole
stream. `Going` connects the loop over the buffer to it, command by command.
-/

set_option autoImplicit false

namespace TinyRedis

open Lib

variable [EntryPool]

/-- The reply of a dispatched command. -/
def Dispatch.reply (d : Dispatch) : Bytes :=
  match dispatch d.store d.cmd d.now (Buffer.new 0) with
  | some (_, _, out) => out.readable
  | none => []

/-- What a command writes does not depend on what the output holds already. -/
theorem readable_dispatch {s s' : Store} {cmd : Command} {now : Int64} {out out' : Buffer}
    {d : DispatchResult} (h : dispatch s cmd now out = some (d, s', out')) :
    out'.readable = out.readable ++ Dispatch.reply { store := s, cmd, now } := by
  obtain ⟨res, -, hres⟩ := dispatch_emits s cmd now
  rw [hres] at h
  cases res with
  | none => cases h
  | some x =>
    cases h
    rw [readable_emitReply, Dispatch.reply, hres]
    simp only [Option.map_some, readable_emitReply, Buffer.readable_new, List.nil_append]

omit [EntryPool] in
/-- The text of a protocol error goes behind the replies that are there. -/
theorem readable_error (out : Buffer) (msg : Bytes) :
    (reply.error out msg).readable = out.readable ++ (reply.error (Buffer.new 0) msg).readable := by
  simp [reply.error, appendLine]

namespace Session

/-- The commands dispatched so far. -/
def cmds (h : Session) : List Command := h.dispatched.map Dispatch.cmd

/-- The protocol-error line, if there was a protocol error. -/
def refusal (h : Session) : Bytes :=
  match h.refused with
  | none => []
  | some msg => (reply.error (Buffer.new 0) msg).readable

/-- The replies of the commands dispatched so far, in order, and the protocol-error line. -/
def replies (h : Session) : Bytes := h.dispatched.flatMap Dispatch.reply ++ h.refusal

/-- The commands are read off the front of the bytes received, and `rest` is left. -/
def Going (h : Session) (rest : Bytes) : Prop :=
  h.refused = none ∧ commands.Reads h.received h.cmds rest

/-- The commands are those of the session of the bytes received, and the protocol error is its
failure. -/
def Exact (h : Session) : Prop :=
  ∃ e, commands.session h.received = (h.cmds, e) ∧ e.failure? = h.refused

/-- The session of the bytes received is over. -/
def Ended (h : Session) : Prop :=
  ∃ e, commands.session h.received = (h.cmds, e) ∧ e.failure? = h.refused ∧ e ≠ .pending

variable {h : Session} {rest : Bytes}

/-- A session that has ended has dispatched all it ever will. -/
theorem Ended.exact (hended : h.Ended) : h.Exact := by
  obtain ⟨e, hsession, hfailure, -⟩ := hended
  exact ⟨e, hsession, hfailure⟩

/-- A session that is going on has dispatched all there is, when what is left holds no command. -/
theorem Going.exact (hgoing : h.Going rest) (hrest : verdict rest = .pending) : h.Exact :=
  ⟨.pending, hgoing.2.session_pending hrest, hgoing.1.symm⟩

/-- More bytes arrive behind those that are left. -/
theorem Going.receive (hgoing : h.Going rest) (data : Bytes) :
    Going { h with received := h.received ++ data } (rest ++ data) :=
  ⟨hgoing.1, hgoing.2.append data⟩

/-- Bytes that arrive after the end change nothing. -/
theorem Ended.receive (hended : h.Ended) (data : Bytes) :
    Ended { h with received := h.received ++ data } := by
  obtain ⟨e, hsession, hfailure, he⟩ := hended
  have hover := (Parser.session_append (p := commands) h.received data).1
  rw [hsession] at hover
  exact ⟨e, hover he, hfailure, he⟩

/-- A protocol error ends the session. -/
theorem Going.refuse (hgoing : h.Going rest) {msg : Bytes} (hrest : verdict rest = .failed msg) :
    Ended { h with refused := some msg } :=
  ⟨.failed msg, hgoing.2.session_failed hrest, rfl, nofun⟩

/-- The commands of a session with one more dispatched. -/
theorem cmds_dispatched (h : Session) (d : Dispatch) :
    cmds { h with dispatched := h.dispatched ++ [d] } = h.cmds ++ [d.cmd] := by
  simp [cmds]

/-- A command is dispatched, and its bytes are no longer left. -/
theorem Going.dispatch (hgoing : h.Going rest) (d : Dispatch) {n : Nat}
    (hrest : verdict rest = .item d.cmd n) (hquits : d.cmd.quits = false) :
    Going { h with dispatched := h.dispatched ++ [d] } (rest.drop n) :=
  ⟨hgoing.1, by rw [cmds_dispatched]; exact hgoing.2.item hrest hquits⟩

/-- A command that ends the connection ends the session. -/
theorem Going.quit (hgoing : h.Going rest) (d : Dispatch) {n : Nat}
    (hrest : verdict rest = .item d.cmd n) (hquits : d.cmd.quits = true) :
    Ended { h with dispatched := h.dispatched ++ [d] } :=
  ⟨.last, by rw [cmds_dispatched]; exact hgoing.2.session_last hrest hquits, hgoing.1.symm, nofun⟩

/-- The reply of a command goes behind the others. -/
theorem replies_dispatched (hrefused : h.refused = none) (d : Dispatch) :
    replies { h with dispatched := h.dispatched ++ [d] } = h.replies ++ d.reply := by
  simp [replies, refusal, hrefused]

/-- The text of a protocol error goes behind the others, and is the last. -/
theorem replies_refused (hrefused : h.refused = none) (msg : Bytes) :
    replies { h with refused := some msg }
      = h.replies ++ (reply.error (Buffer.new 0) msg).readable := by
  simp [replies, refusal, hrefused]

end Session

/-- The parser has nothing to say about the input buffer of a connection that still parses. -/
def Connection.Settled (c : Connection) : Prop :=
  c.state = .kOpen → verdict c.in_.readable = .pending

/-- What holds between an existing connection and its session. -/
structure Served (h : Session) (c : Connection) : Prop where
  fifo : h.written ++ c.out.readable = h.replies
  going : c.state = .kOpen → h.Going c.in_.readable
  ended : c.state = .kClosing → h.Ended
  closed : c.state = .kClosed → h.Exact ∧ (h.broken = true ∨ h.Ended ∧ c.out.readable = [])

/-- What holds of the session of a connection that is no more. -/
def Session.Gone (h : Session) : Prop :=
  h.Exact ∧ (h.broken = true ∨ h.Ended ∧ h.written = h.replies)

namespace Served

variable {h : Session} {c : Connection}

/-- A closed connection leaves a session that is complete, or broken off. -/
theorem gone (hs : Served h c) (hstate : c.state = .kClosed) : h.Gone := by
  obtain ⟨hexact, hbroken | ⟨hended, hout⟩⟩ := hs.closed hstate
  · exact ⟨hexact, Or.inl hbroken⟩
  · have hfifo := hs.fifo
    rw [hout, List.append_nil] at hfifo
    exact ⟨hexact, Or.inr ⟨hended, hfifo⟩⟩

/-- A connection that is not closed and has nothing to parse has dispatched its whole session. -/
theorem exact (hs : Served h c) (hsettled : c.Settled) : h.Exact := by
  cases hstate : c.state with
  | kOpen => exact (hs.going hstate).exact (hsettled hstate)
  | kClosing => exact (hs.ended hstate).exact
  | kClosed => exact (hs.closed hstate).1

/-- A buffer change that no byte can tell. -/
theorem congr (hs : Served h c) {c' : Connection} (hin : c'.in_.readable = c.in_.readable)
    (hout : c'.out.readable = c.out.readable) (hstate : c'.state = c.state) : Served h c' where
  fifo := by rw [hout]; exact hs.fifo
  going := by rw [hin, hstate]; exact hs.going
  ended := by rw [hstate]; exact hs.ended
  closed := by rw [hout, hstate]; exact hs.closed

/-- The connection receives bytes. -/
theorem receive (hs : Served h c) (hopen : c.state ≠ .kClosed) {in_ : Buffer} {data : Bytes}
    (hin : in_.readable = c.in_.readable ++ data) :
    Served { h with received := h.received ++ data } { c with in_ } where
  fifo := hs.fifo
  going hstate := by
    rw [hin]
    exact (hs.going hstate).receive data
  ended hstate := (hs.ended hstate).receive data
  closed hstate := absurd hstate hopen

/-- The connection replies to a protocol error, and is closing. -/
theorem refuse (hs : Served h c) (hstate : c.state = .kOpen) {msg : Bytes}
    (hrest : verdict c.in_.readable = .failed msg) :
    Served { h with refused := some msg }
      { c with out := reply.error c.out msg, state := .kClosing } where
  fifo := by
    have hgoing := hs.going hstate
    rw [Session.replies_refused hgoing.1, ← hs.fifo, readable_error, List.append_assoc]
  going := nofun
  ended _ := (hs.going hstate).refuse hrest
  closed := nofun

/-- The bytes of `out` after a command, against the replies. -/
theorem fifo_dispatch (hs : Served h c) (hstate : c.state = .kOpen) {d : Dispatch} {out : Buffer}
    (hout : out.readable = c.out.readable ++ d.reply) :
    h.written ++ out.readable
      = Session.replies { h with dispatched := h.dispatched ++ [d] } := by
  rw [Session.replies_dispatched (hs.going hstate).1, ← hs.fifo, hout, List.append_assoc]

/-- The connection dispatches a command and goes on. -/
theorem dispatch (hs : Served h c) (hstate : c.state = .kOpen) {d : Dispatch} {n : Nat}
    {in_ out : Buffer} (hrest : verdict c.in_.readable = .item d.cmd n)
    (hquits : d.cmd.quits = false) (hin : in_.readable = c.in_.readable.drop n)
    (hout : out.readable = c.out.readable ++ d.reply) :
    Served { h with dispatched := h.dispatched ++ [d] } { c with in_, out } where
  fifo := hs.fifo_dispatch hstate hout
  going _ := by
    rw [hin]
    exact (hs.going hstate).dispatch d hrest hquits
  ended hclosing := by
    rw [hstate] at hclosing
    cases hclosing
  closed hclosed := by
    rw [hstate] at hclosed
    cases hclosed

/-- The connection dispatches a command that ends it. -/
theorem quit (hs : Served h c) (hstate : c.state = .kOpen) {d : Dispatch} {n : Nat}
    {in_ out : Buffer} (hrest : verdict c.in_.readable = .item d.cmd n)
    (hquits : d.cmd.quits = true) (hout : out.readable = c.out.readable ++ d.reply) :
    Served { h with dispatched := h.dispatched ++ [d] }
      { c with in_, out, state := .kClosing } where
  fifo := hs.fifo_dispatch hstate hout
  going := nofun
  ended _ := (hs.going hstate).quit d hrest hquits
  closed := nofun

/-- The connection writes some of its output. -/
theorem write (hs : Served h c) (hopen : c.state ≠ .kClosed) {out : Buffer} {n : Nat}
    (hout : out.readable = c.out.readable.drop n) :
    Served { h with written := h.written ++ c.out.readable.take n } { c with out } where
  fifo := by
    rw [hout, List.append_assoc, List.take_append_drop]
    exact hs.fifo
  going := hs.going
  ended := hs.ended
  closed hstate := absurd hstate hopen

/-- A connection closes when its session is over and written out. -/
theorem close (hs : Served h c) (hstate : c.state = .kClosing) (hout : c.out.readable = []) :
    Served h { c with state := .kClosed } where
  fifo := hs.fifo
  going := nofun
  ended := nofun
  closed _ := ⟨(hs.ended hstate).exact, Or.inr ⟨hs.ended hstate, hout⟩⟩

/-- A connection closes when its socket fails. -/
theorem break_ (hs : Served h c) (hsettled : c.Settled) :
    Served { h with broken := true } { c with state := .kClosed } where
  fifo := hs.fifo
  going := nofun
  ended := nofun
  closed _ := ⟨hs.exact hsettled, Or.inl rfl⟩

end Served

end TinyRedis
