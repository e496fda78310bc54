import Mathlib.Logic.Function.Basic
import TinyRedis.Core.Command
import TinyRedis.Lib.Exec

/-!
# `TinyRedis.Net.System`: the server process and what it can ask of the kernel

The state that the code of `src/net` works on, and its system calls. The process is single threaded;
a run is driven by the answers of the kernel (`Answers`), and at every call, and at the head of
every loop, there is a moment at which it can be observed (`Call`). The answers are arbitrary, as
far as a kernel could give them: a call that opens a descriptor answers with one that is not open
(`System.vacant`), and an answer that the kernel could not give has no successor (`granted`).

* `Connection`, `Server`: the objects of the source, with its fields under their own names.
* `Kernel`: the open descriptors, and the interest list of the epoll instance.
* `System`: the server in its process, with the heap that its connections live on.
* `NetM`: the code of `src/net`, an `Exec` over answers, calls and a `System`.

A `Connection` lives on the heap under an address that is never used again, so a pointer to a
destroyed one has nothing behind it, and following it is undefined (`connection`). A descriptor is a
number, and an empty `UniqueFd` is `none`.

`Session` is the record of what happened on a connection, and the journal of a `System` is the
record of what happened to the whole server, in order (`JournalEntry`). The code writes to both
where the thing itself is done, and does not read them. A session outlives its connection.
-/

set_option autoImplicit false

namespace TinyRedis

open Lib

/-- A file descriptor, as the kernel counts them. -/
abbrev Fd := Nat

/-- The address of a `Connection`. -/
abbrev ConnId := Nat

/-- `errno`. `EWOULDBLOCK` is `EAGAIN` on Linux. -/
inductive Errno where
  | EAGAIN
  | EINTR
  | ECONNABORTED
  | EPERM
  | EPROTO
  | ENOPROTOOPT
  | ENETDOWN
  | ENETUNREACH
  | ENONET
  | EHOSTDOWN
  | EHOSTUNREACH
  | EOPNOTSUPP
  | ETIMEDOUT
  | EMFILE
  | ENFILE
  | EBADF
  | ENOTSOCK
  | EINVAL
  | EFAULT
  | other (code : Nat)
deriving DecidableEq, Repr

/-- There is something to read, or a connection to accept. -/
def EPOLLIN : UInt32 := 0x1

/-- The socket takes more output. -/
def EPOLLOUT : UInt32 := 0x4

/-- The socket has an error. It is reported whether or not it was asked for. -/
def EPOLLERR : UInt32 := 0x8

/-- The peer has hung up. It is reported whether or not it was asked for. -/
def EPOLLHUP : UInt32 := 0x10

/-- What an `IoHandler*` points to. -/
inductive Handler where
  | acceptor
  | connection (id : ConnId)
deriving DecidableEq, Repr

/-- `ConnectionState`. A connection that is closing has replies left to send, and reads no more
commands. -/
inductive ConnectionState where
  | kOpen
  | kClosing
  | kClosed
deriving DecidableEq, Repr

/-- `Connection`. `interest` is the mask that it has last registered with epoll. -/
structure Connection where
  fd : Fd
  in_ : Buffer
  out : Buffer
  state : ConnectionState
  interest : UInt32

/-- `Server::Config`, without what only the listening socket is opened with. -/
structure Server.Config where
  expireIntervalMs : Int32 := 100
  expireSampleBuckets : Nat := 20
  store : TinyRedis.Config := {}
deriving DecidableEq, Repr

/-- What the kernel, the clock and the signal handler answer to a call made now. Each call reads
its own field. -/
structure Answers where
  /-- Whether `stop()` has been called since the loop last looked. -/
  stop : Bool := false
  /-- `epoll_wait`: the ready descriptors and their events. -/
  wait : Except Errno (List (Fd × UInt32)) := .ok []
  /-- `read`: the bytes copied; none of them is the end of the file. -/
  read : Except Errno Bytes := .error .EAGAIN
  /-- `write`: the number of bytes taken. -/
  write : Except Errno Nat := .error .EAGAIN
  /-- `accept4`: the descriptor of the new socket. -/
  accept : Except Errno Fd := .error .EAGAIN
  /-- `setsockopt(TCP_NODELAY)`. -/
  setsockopt : Except Errno Unit := .ok ()
  /-- `epoll_ctl` to add or to modify. -/
  epollCtl : Except Errno Unit := .ok ()
  /-- `open("/dev/null")`. -/
  openNull : Option Fd := none
  /-- `nowMs()`. -/
  nowMs : Int64 := 0

/-- Where a run can be observed: in a call, or at the head of a loop. -/
inductive Call where
  | stop
  | epollWait
  | read (id : ConnId)
  | write (id : ConnId)
  | accept
  | setsockopt
  | epollCtl
  | openNull
  | nowMs
  | runLoop
  | acceptLoop
  | processLoop (id : ConnId)
  | flushLoop (id : ConnId)
deriving DecidableEq, Repr

variable [EntryPool]

/-- A command handed to `dispatch`, with the store and the time it found. -/
structure Dispatch where
  store : Store
  cmd : Command
  now : Int64

/-- What has happened on a connection. -/
structure Session where
  /-- The bytes `read` has delivered. -/
  received : Bytes := []
  /-- The bytes `write` has taken. -/
  written : Bytes := []
  /-- The commands handed to `dispatch`, first to last. -/
  dispatched : List Dispatch := []
  /-- The protocol error that was replied to. -/
  refused : Option Bytes := none
  /-- An end of file, a `read`, `write` or `epoll_ctl` that failed for good. -/
  broken : Bool := false

/-- What the server has done, for the journal. -/
inductive JournalEntry where
  /-- `epoll_wait` has returned a batch, and the tick counter has gone up. -/
  | tick
  /-- `nowMs()` has answered `t`. -/
  | clock (t : Int64)
  /-- A command of a connection was handed to `dispatch`. -/
  | command (id : ConnId) (cmd : Command) (now : Int64)
  /-- `activeExpireCycle` has been run. -/
  | sweep (now : Int64)
deriving DecidableEq, Repr

/-- `Server` with the tick counter of its `EventLoop` and the descriptor of its `Acceptor`. -/
structure Server where
  cfg : Server.Config
  store : Store
  tickCount : UInt64
  listenFd : Fd
  /-- `connections_`, from descriptors to connections. -/
  connections : Fd → Option ConnId
  /-- `retired_`: closed connections that are destroyed after the batch. -/
  retired : List ConnId
  cachedNow : Int64
  lastSweepMs : Int64
  cachedTick : UInt64
  /-- `/dev/null`, held open so that there is a descriptor to give up. -/
  reserveFd : Option Fd
  acceptPaused : Bool

/-- What the kernel keeps for the process. -/
structure Kernel where
  /-- The open descriptors. -/
  isOpen : Fd → Bool
  /-- The interest list of the epoll instance: the `data.ptr` and the mask of a descriptor. -/
  epoll : Fd → Option (Handler × UInt32)

/-- The server in its process. -/
structure System where
  server : Server
  /-- The connections that exist, under their addresses. -/
  heap : ConnId → Option Connection
  /-- The address that the next connection will have. -/
  nextId : ConnId
  kernel : Kernel
  sessions : ConnId → Session
  /-- What has happened, first to last. -/
  journal : List JournalEntry := []

/-- The code of `src/net`. -/
abbrev NetM (α : Type) : Type := Exec Answers Call System α

namespace System

/-- `c` written back to where it lives. -/
def put (s : System) (id : ConnId) (c : Connection) : System :=
  { s with heap := Function.update s.heap id (some c) }

/-- The record of a connection, written on. -/
def record (s : System) (id : ConnId) (f : Session → Session) : System :=
  { s with sessions := Function.update s.sessions id (f (s.sessions id)) }

/-- A descriptor that the kernel has opened. -/
def opened (s : System) (fd : Fd) : System :=
  { s with kernel.isOpen := Function.update s.kernel.isOpen fd true }

/-- `close(fd)`. A closed descriptor leaves the interest list. -/
def closed (s : System) (fd : Fd) : System :=
  { s with
    kernel.isOpen := Function.update s.kernel.isOpen fd false
    kernel.epoll := Function.update s.kernel.epoll fd none }

/-- What stands in the interest list for a descriptor. -/
def registered (s : System) (fd : Fd) (entry : Option (Handler × UInt32)) : System :=
  { s with kernel.epoll := Function.update s.kernel.epoll fd entry }

/-- A descriptor that the kernel could open now. -/
def vacant (s : System) (fd : Fd) : Option Fd := if s.kernel.isOpen fd then none else some fd

end System

/-! ### System calls -/

/-- The answer to a call that may fail, if the kernel can give it. -/
def granted {α β : Type} (can : α → Option β) : Except Errno α → Option (Except Errno β)
  | .ok a => (can a).map .ok
  | .error e => some (.error e)

/-- `this`, dereferenced. -/
def connection (id : ConnId) : NetM Connection := do
  let s ← Exec.get
  Exec.defined (s.heap id)

/-- `accept4` on the listening socket. The kernel answers with a descriptor that is not open. -/
def accept4 : NetM (Except Errno Fd) := do
  let s ← Exec.get
  match ← Exec.ask .accept fun a => granted s.vacant a.accept with
  | .error e => return .error e
  | .ok fd =>
      Exec.modify (·.opened fd)
      return .ok fd

/-- `openReserve()`. -/
def openReserve : NetM (Option Fd) := do
  let s ← Exec.get
  match ← Exec.ask .openNull fun a => a.openNull.mapM s.vacant with
  | none => return none
  | some fd =>
      Exec.modify (·.opened fd)
      return some fd

end TinyRedis
