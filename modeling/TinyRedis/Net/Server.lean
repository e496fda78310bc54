import Mathlib.Data.UInt
import TinyRedis.Net.Connection

/-!
# `TinyRedis.Net.Server`: the accept path, the tick and the run of the server

The model of `src/net/server.h` and `src/net/server.cpp`. Opening the listening socket is not part
of it: a server starts (`Server.new`) with the descriptor that came of it. `Net.Process` has the
constructors, and shows how a server comes to start like this.

* `acceptPending`, `acceptRound`: the loop that accepts what is queued on the listening socket.
* `handleAcceptFailure`: what an `accept4` that fails leads to (`classifyAcceptErrno`).
* `shedPending`: with no descriptor left, gives up the reserve to turn one client away.
* `pauseAccepting`, `resumeAccepting`: takes the listener out of the interest of epoll, and back.
* `onTick`: what is done after each batch: the retired connections are destroyed, accepting is
  resumed, and the store is swept once in every expire interval.
* `run`: the event loop, to its end.

`connections_` is a function from descriptors. The source's `assert` that a connection being retired
is in the map has no counterpart, since a release build does not have it; that it never fails is
part of `Owned`.

`tNow - lastSweepMs_` is signed arithmetic in the source. The subtraction wraps here; that nothing
overflows in a run whose clock reads 500 or more is proved in `Proofs.Net.Reference`
(`System.NoOverflow`).
-/

set_option autoImplicit false

namespace TinyRedis

open Lib

/-- `AcceptFailure`: what is to be done about an `accept4` that failed. -/
inductive AcceptFailure where
  | kDrained
  | kRetry
  | kShed
  | kPause
deriving DecidableEq, Repr

/-- Only errors that consumed the queued connection are retried. -/
def classifyAcceptErrno : Errno → AcceptFailure
  | .EAGAIN => .kDrained
  | .EINTR | .ECONNABORTED | .EPERM => .kRetry
  -- accept(2): pending network errors on the new socket
  | .EPROTO | .ENOPROTOOPT | .ENETDOWN | .ENETUNREACH | .ENONET | .EHOSTDOWN | .EHOSTUNREACH
  | .EOPNOTSUPP | .ETIMEDOUT => .kRetry
  | .EMFILE | .ENFILE => .kShed
  | .EBADF | .ENOTSOCK | .EINVAL | .EFAULT => .kPause
  | .other _ => .kPause

variable [EntryPool]

namespace Server

/-- A server that has just been built, in a process that holds the descriptors `held` besides its
listening socket and its reserve. `rd` is what the random device would give to its store. -/
def new (cfg : Config) (rd : UInt64) (listenFd : Fd) (reserveFd : Option Fd) (held : Fd → Bool) :
    Option System := do
  let store ← Store.new cfg.store rd
  return {
    server := { cfg, store, tickCount := 0, listenFd, connections := fun _ => none, retired := [],
                cachedNow := 0, lastSweepMs := 0, cachedTick := 2 ^ 64 - 1, reserveFd,
                acceptPaused := false }
    heap := fun _ => none
    nextId := 0
    kernel := { isOpen := fun fd => fd = listenFd ∨ some fd = reserveFd ∨ held fd
                epoll := fun fd => if fd = listenFd then some (.acceptor, EPOLLIN) else none }
    sessions := fun _ => {} }

/-- Destroys the retired connections, first to last. -/
def destroyRetired : NetM Unit := do
  let s ← Exec.get
  s.server.retired.forM Connection.destroy
  Exec.modify fun s => { s with server.retired := [] }

/-- `reserveFd_ = fd`: the descriptor held so far, if any, is closed. -/
def setReserve (fd : Option Fd) : NetM Unit := do
  let s ← Exec.get
  match s.server.reserveFd with
  | none => Exec.modify fun s => { s with server.reserveFd := fd }
  | some old => Exec.modify fun s => { s.closed old with server.reserveFd := fd }

/-- Spends the reserve to accept one connection and close it. -/
def shedPending : NetM Bool := do
  let s ← Exec.get
  if s.server.reserveFd = none then return false
  else
    -- the reserve is given up, so that there is a descriptor for the client
    setReserve none
    let validShed ← match ← accept4 with
      | .error _ => pure false
      | .ok shed => do
          Exec.modify (·.closed shed)
          pure true
    setReserve (← openReserve)
    return validShed

/-- Stops asking epoll about the listener. -/
def pauseAccepting : NetM Unit := do
  let s ← Exec.get
  if s.server.acceptPaused then return ()
  else
    match ← EventLoop.modify .acceptor s.server.listenFd 0 with
    | .error _ => return ()
    | .ok () => Exec.modify fun s => { s with server.acceptPaused := true }

/-- Asks epoll about the listener again, once the reserve is back. -/
def resumeAccepting : NetM Unit := do
  let s ← Exec.get
  if s.server.acceptPaused then
    let fd ← openReserve
    setReserve fd
    -- still no descriptor to spare
    if fd = none then return ()
    else
      match ← EventLoop.modify .acceptor s.server.listenFd EPOLLIN with
      | .error _ => return ()
      | .ok () => Exec.modify fun s => { s with server.acceptPaused := false }
  else return ()

/-- Whether `acceptPending` should keep accepting. -/
def handleAcceptFailure (err : Errno) : NetM Bool := do
  match classifyAcceptErrno err with
  | .kDrained => return false
  | .kRetry => return true
  | .kShed =>
      if ← shedPending then return true
      else
        pauseAccepting
        return false
  | .kPause =>
      pauseAccepting
      return false

/-- `connections_.emplace(fd, connection)`: a connection that finds its place taken is
destroyed. -/
def emplace (fd : Fd) (id : ConnId) : NetM Unit := do
  let s ← Exec.get
  match s.server.connections fd with
  | none => Exec.modify fun s => { s with
      server.connections := Function.update s.server.connections fd (some id) }
  | some _ => Connection.destroy id

/-- A round of the loop of `acceptPending`. -/
def acceptRound (_ : Unit) : NetM (Round Unit Unit) := do
  match ← accept4 with
  | .error e =>
      if ← handleAcceptFailure e then return .again () else return .leave ()
  | .ok pendingFd =>
      match ← Exec.ask .setsockopt fun a => some a.setsockopt with
      -- the socket is dropped, and the next one tried
      | .error _ =>
          Exec.modify (·.closed pendingFd)
          return .again ()
      | .ok () =>
          match ← Connection.new pendingFd with
          -- the constructor has closed the descriptor
          | .error _ => return .again ()
          | .ok id =>
              emplace pendingFd id
              return .again ()

/-- Accepts until there is nothing left, or nothing more can be done about it. -/
def acceptPending : NetM Unit := Exec.loop .acceptLoop acceptRound ()

/-- The virtual functions of `Connection` and of `Acceptor`. -/
def io : IoHandler where
  onReadable
    | .acceptor => acceptPending
    | .connection id => Connection.onReadable id
  onWritable
    | .acceptor => return ()
    | .connection id => Connection.onWritable id

/-- What `run` does after each batch of events. -/
def onTick : NetM Unit := do
  -- no event of the batch is left that could point to a retired connection
  destroyRetired
  resumeAccepting
  let tNow ← now
  let s ← Exec.get
  -- once in every expire interval
  if tNow - s.server.lastSweepMs ≥ s.server.cfg.expireIntervalMs.toInt64 then
    let (_, store) ← Exec.defined
      (s.server.store.activeExpireCycle tNow s.server.cfg.expireSampleBuckets)
    Exec.modify fun s => { s with
      server.store := store, server.lastSweepMs := tNow, journal := s.journal ++ [.sweep tNow] }
  else return ()

/-- An `epoll_wait` that fails for good ends the run with its error. -/
def run : NetM (Except Errno Unit) := do
  match ← EventLoop.run io onTick with
  | .error e => return .error e
  | .ok () =>
      destroyRetired
      return .ok ()

end Server

end TinyRedis
