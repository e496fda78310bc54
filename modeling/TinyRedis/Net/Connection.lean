import TinyRedis.Net.EventLoop

/-!
# `TinyRedis.Net.Connection`: one client socket

The model of `src/net/connection.h` and `src/net/connection.cpp`, with the two functions of `Server`
that a connection calls. `id` is `this`: every function starts by following it, which is undefined
when the connection has been destroyed.

* `onReadable`: reads once, carries out the commands that are complete, and sends the replies.
* `processInput`, `processRound`: the loop over the commands in the input buffer.
* `flushOutput`, `flushRound`: the loop that writes the output buffer to the socket.
* `updateInterest`: tells epoll what the connection waits for.
* `markClosed`, `new`, `destroy`: the life of a connection.

The source has one `Command` for all rounds of `processInput`, and `parseCommand` writes into it
from the front. It is an argument of the round here, so what an unfinished parse has left in it is
there for the next one.

The functions write to the session of the connection and to the journal of the server at the places
where something is done: bytes read, a command dispatched, a protocol error replied to, bytes
written, a failure of the socket. `markBroken` is `markClosed` with that last note.
-/

set_option autoImplicit false

namespace TinyRedis

open Lib

variable [EntryPool]

namespace Server

/-- The time, read once for each tick of the loop. -/
def now : NetM Int64 := do
  let s ← Exec.get
  let lt := s.server.tickCount
  if lt = s.server.cachedTick then return s.server.cachedNow
  else
    let t ← Exec.ask .nowMs fun a => some a.nowMs
    Exec.modify fun s => { s with
      server.cachedNow := t, server.cachedTick := lt, journal := s.journal ++ [.clock t] }
    return t

/-- Moves the owner of whatever stands under the descriptor of `id`. -/
def retire (id : ConnId) : NetM Unit := do
  -- The look-up is by descriptor, so it could find another connection there; `Owned` excludes
  -- it.
  let c ← connection id
  let s ← Exec.get
  match s.server.connections c.fd with
  | none => return ()
  | some owned =>
      Exec.modify fun s => { s with
        server.retired := s.server.retired ++ [owned]
        server.connections := Function.update s.server.connections c.fd none }

end Server

namespace Connection

/-- `closed()`. -/
def closed (c : Connection) : Bool := c.state = .kClosed

/-- Closes the connection, and leaves it to the server to destroy it. Closing it again does nothing.
-/
def markClosed (id : ConnId) : NetM Unit := do
  let c ← connection id
  if c.closed then return ()
  else
    Exec.modify (·.put id { c with state := .kClosed })
    Server.retire id

/-- `markClosed()` after a failure of the socket. -/
def markBroken (id : ConnId) : NetM Unit := do
  Exec.modify (·.record id fun h => { h with broken := true })
  markClosed id

/-- The mask that `updateInterest` wants. -/
def wanted (c : Connection) : UInt32 :=
  (if c.out.empty then 0 else EPOLLOUT) ||| (if c.state = .kOpen then EPOLLIN else 0)

/-- Registers the mask that the connection wants, unless it is the one it has. -/
def updateInterest (id : ConnId) : NetM Unit := do
  let c ← connection id
  -- no system call for a mask that is already there
  if c.wanted = c.interest then return ()
  else
    match ← EventLoop.modify (.connection id) c.fd c.wanted with
    | .error _ => markBroken id
    | .ok () => Exec.modify (·.put id { c with interest := c.wanted })

/-- `write(fd, out_.readable())` takes no more than it is given. -/
def canWrite (c : Connection) (n : Nat) : Option { n : Nat // n ≤ c.out.size } :=
  if h : n ≤ c.out.size then some ⟨n, h⟩ else none

/-- A round of the loop of `flushOutput`. It leaves with whether the function goes on. -/
def flushRound (id : ConnId) (_ : Unit) : NetM (Round Unit Bool) := do
  let c ← connection id
  if c.out.empty then return .leave true
  else
    match ← Exec.ask (.write id) fun a => granted c.canWrite a.write with
    | .ok n =>
        -- nothing was taken; wait for the next EPOLLOUT
        if n.val = 0 then return .leave true
        else
          let out ← Exec.defined (c.out.consume n)
          Exec.modify (·.put id { c with out })
          Exec.modify (·.record id fun h =>
            { h with written := h.written ++ c.out.readable.take n })
          return .again ()
    -- the socket is full
    | .error .EAGAIN => return .leave true
    | .error .EINTR => return .again ()
    | .error _ =>
        markBroken id
        return .leave false

/-- Sends what there is. A closing connection that has sent everything is closed. -/
def flushOutput (id : ConnId) : NetM Unit := do
  if ← Exec.loop (.flushLoop id) (flushRound id) () then
    let c ← connection id
    if c.out.empty ∧ c.state = .kClosing then markClosed id
    else updateInterest id
  else return ()

/-- A round of the loop of `processInput`, with the command that the rounds reuse. -/
def processRound (id : ConnId) (now : Int64) (cmd : Command) : NetM (Round Command Unit) := do
  let c ← connection id
  if c.in_.empty then return .leave ()
  else
    let (parseRes, cmd) := parseCommand c.in_.readable cmd
    match parseRes.status with
    -- the rest of the command is still to arrive
    | .kIncomplete => return .leave ()
    | .kProtocolError =>
        Exec.modify (·.put id
          { c with out := reply.error c.out parseRes.error, state := .kClosing })
        Exec.modify (·.record id fun h => { h with refused := some parseRes.error })
        return .leave ()
    | .kOk =>
        let s ← Exec.get
        -- The reply is appended to the output before the command leaves the input.
        let (dispatchRes, store, out) ← Exec.defined (dispatch s.server.store cmd now c.out)
        let in_ ← Exec.defined (c.in_.consume parseRes.consumed)
        Exec.modify fun s => { s with
          server.store := store, journal := s.journal ++ [.command id cmd now] }
        Exec.modify (·.record id fun h =>
          { h with dispatched := h.dispatched ++ [{ store := s.server.store, cmd, now }] })
        -- the input behind a QUIT is never parsed
        if dispatchRes = .kCloseConnection then
          Exec.modify (·.put id { c with in_, out, state := .kClosing })
          return .leave ()
        else
          Exec.modify (·.put id { c with in_, out })
          return .again cmd

/-- Carries out the commands in the input buffer, all at the time of this tick. -/
def processInput (id : ConnId) : NetM Unit := do
  let c ← connection id
  if c.state ≠ .kOpen then return ()
  else
    let now ← Server.now
    Exec.loop (.processLoop id) (processRound id now) Command.empty

/-- `read(fd, writePtr(), writableBytes())` copies no more than there is room for. -/
def canRead (b : Buffer) (data : Bytes) :
    Option { data : Bytes // data.length ≤ b.writableBytes } :=
  if h : data.length ≤ b.writableBytes then some ⟨data, h⟩ else none

/-- The connection can be read from, or has an error that a `read` will find. -/
def onReadable (id : ConnId) : NetM Unit := do
  let c ← connection id
  if c.closed then return ()
  else
    let in_ := c.in_.ensureWritable kDefaultCapacity
    Exec.modify (·.put id { c with in_ })
    match ← Exec.ask (.read id) fun a => granted (canRead in_) a.read with
    | .ok data =>
        -- peer EOF
        if data.val.isEmpty then markBroken id
        else
          Exec.modify (·.put id { c with in_ := in_.write data data.property })
          Exec.modify (·.record id fun h => { h with received := h.received ++ data })
          -- The replies of all commands of one read go out together.
          processInput id
          flushOutput id
    | .error .EAGAIN => return ()
    | .error .EINTR => return ()
    | .error _ => markBroken id

/-- The connection can be written to. -/
def onWritable (id : ConnId) : NetM Unit := do
  let c ← connection id
  if c.closed then return () else flushOutput id

/-- `Connection(fd, server)`. When `epoll_ctl` fails the constructor throws, and the base class
closes the descriptor. -/
def new (fd : Fd) : NetM (Except Errno ConnId) := do
  let s ← Exec.get
  let id := s.nextId
  let c : Connection :=
    { fd, in_ := Buffer.new kDefaultCapacity, out := Buffer.new kDefaultCapacity, state := .kOpen,
      interest := EPOLLIN }
  match ← EventLoop.add (.connection id) fd c.interest with
  | .error e =>
      Exec.modify (·.closed fd)
      return .error e
  | .ok () =>
      Exec.modify fun s => { s.put id c with nextId := id + 1 }
      return .ok id

/-- `~Connection()`, then the `UniqueFd` of its base class. -/
def destroy (id : ConnId) : NetM Unit := do
  let c ← connection id
  EventLoop.remove c.fd
  Exec.modify fun s => { s.closed c.fd with heap := Function.update s.heap id none }

end Connection

end TinyRedis
