import TinyRedis.Lib.Decimal
import TinyRedis.Net.Server

/-!
# `TinyRedis.Net.Process`: the server process from its arguments to its exit

The model of `src/main.cpp`, of the constructors of `Server`, `Acceptor` and `EventLoop` with
`openListener`, and of `~Server()`. A constructor that throws destroys what it has built so far.

* `parseArgs`: the loop of `main` over the arguments, with `strtoull` for the numbers.
* `openListener`, `Acceptor.construct`, `Server.construct`: from no descriptor to a server.
* `Server.destroy`, `Server.serve`: the run of the server, and its members destroyed after it.
* `main`: all of it, with the exit code of the process.

The calls that build the server are answered by a script of their own (`BootAnswers`), on what the
kernel keeps for the process. The signal handler calls `stop()`, which is an answer of the run
(`Answers.stop`). What the program prints is left out.

The source does not check what it is given for a number: `strtoull` takes what digits there are, and
a port is cut to 16 bits. The descriptor of the epoll instance belongs to the `EventLoop`, which no
other function asks about; `construct` hands it to `destroy`.
-/

set_option autoImplicit false

namespace TinyRedis

open Lib

/-! ### Arguments -/

/-- `Server::Config`. -/
structure ProcessConfig where
  bindAddr : Bytes := ascii "127.0.0.1"
  port : UInt16 := 6380
  backlog : Int32 := 512
  server : Server.Config := {}
deriving DecidableEq, Repr

/-- `isspace` in the C locale. -/
def isSpace (c : UInt8) : Bool := c = 32 ∨ 9 ≤ c ∧ c ≤ 13

/-- `strtoull(s, nullptr, 10)`, which is also `strtoul` where `unsigned long` has 64 bits. A number
that is too large becomes the largest one. A minus sign negates in `2 ^ 64`. -/
def strtoull (s : Bytes) : UInt64 :=
  let s := s.dropWhile isSpace
  let negative : Bool := s.head? = some 45
  let s := if s.head? = some 45 ∨ s.head? = some 43 then s.drop 1 else s
  let n := value (s.takeWhile fun c => decide (IsDigit c)) 0
  if n ≥ 2 ^ 64 then UInt64.ofNat (2 ^ 64 - 1)
  else if negative then -UInt64.ofNat n else UInt64.ofNat n

/-- The loop of `main` over its arguments. A flag that is not known, or that has no value, ends the
process. -/
def parseArgs : ProcessConfig → List Bytes → Option ProcessConfig
  | cfg, [] => some cfg
  | cfg, arg :: value :: args =>
      if arg = ascii "--bind" then parseArgs { cfg with bindAddr := value } args
      else if arg = ascii "--port" then
        parseArgs { cfg with port := (strtoull value).toUInt16 } args
      else if arg = ascii "--maxkeys" then
        parseArgs { cfg with server.store.maxKeys := (strtoull value).toNat } args
      else if arg = ascii "--buckets" then
        parseArgs { cfg with server.store.initialBuckets := (strtoull value).toNat } args
      else none
  | _, [_] => none

/-! ### Construction -/

/-- What a constructor throws. -/
inductive Fault where
  | invalidArgument
  | systemError (e : Errno)
deriving DecidableEq, Repr

/-- What the kernel answers to the calls that build the server. -/
structure BootAnswers where
  epollCreate : Except Errno Fd := .error .EMFILE
  /-- Whether `inet_pton` takes the address. -/
  inetPton : Bool := true
  socket : Except Errno Fd := .error .EMFILE
  setsockopt : Except Errno Unit := .ok ()
  bind : Except Errno Unit := .ok ()
  listen : Except Errno Unit := .ok ()
  epollCtl : Except Errno Unit := .ok ()
  /-- `open("/dev/null")`. -/
  openNull : Except Errno Fd := .error .EMFILE

/-- The calls that build the server. -/
inductive BootCall where
  | epollCreate
  | inetPton
  | socket
  | setsockopt
  | bind
  | listen
  | epollCtl
  | openNull
deriving DecidableEq, Repr

/-- The code that builds the server. -/
abbrev BootM (α : Type) : Type := Exec BootAnswers BootCall Kernel α

namespace Kernel

/-- The process with the descriptors `held` and an empty interest list. -/
def start (held : Fd → Bool) : Kernel where
  isOpen := held
  epoll := fun _ => none

/-- A descriptor that the kernel has opened. -/
def opened (k : Kernel) (fd : Fd) : Kernel :=
  { k with isOpen := Function.update k.isOpen fd true }

/-- `close(fd)`. A closed descriptor leaves the interest list. -/
def closed (k : Kernel) (fd : Fd) : Kernel where
  isOpen := Function.update k.isOpen fd false
  epoll := Function.update k.epoll fd none

/-- What stands in the interest list for a descriptor. -/
def registered (k : Kernel) (fd : Fd) (entry : Option (Handler × UInt32)) : Kernel :=
  { k with epoll := Function.update k.epoll fd entry }

/-- A descriptor that the kernel could open now. -/
def vacant (k : Kernel) (fd : Fd) : Option Fd := if k.isOpen fd then none else some fd

end Kernel

/-- A call that opens a descriptor. -/
def openFd (call : BootCall) (answer : BootAnswers → Except Errno Fd) :
    BootM (Except Errno Fd) := do
  let k ← Exec.get
  match ← Exec.ask call fun a => granted k.vacant (answer a) with
  | .error e => return .error e
  | .ok fd =>
      Exec.modify (·.opened fd)
      return .ok fd

/-- The calls on a new socket, in order. At the first that fails the socket is closed. -/
def configure (fd : Fd) :
    List (BootCall × (BootAnswers → Except Errno Unit)) → BootM (Except Fault Fd)
  | [] => return .ok fd
  | (call, answer) :: calls => do
      match ← Exec.ask call fun a => some (answer a) with
      | .error e =>
          Exec.modify (·.closed fd)
          return .error (.systemError e)
      | .ok () => configure fd calls

/-- `openListener(cfg)`: a socket that listens on the address, or what went wrong. -/
def openListener : BootM (Except Fault Fd) := do
  if ← Exec.ask .inetPton fun a => some a.inetPton then
    match ← openFd .socket (·.socket) with
    | .error e => return .error (.systemError e)
    | .ok fd =>
        configure fd [(.setsockopt, (·.setsockopt)), (.bind, (·.bind)), (.listen, (·.listen))]
  else return .error .invalidArgument

/-- `Acceptor(cfg, server)`. -/
def Acceptor.construct : BootM (Except Fault Fd) := do
  match ← openListener with
  | .error e => return .error e
  | .ok listenFd =>
      match ← Exec.ask .epollCtl fun a => some a.epollCtl with
      | .error e =>
          Exec.modify (·.closed listenFd)
          return .error (.systemError e)
      | .ok () =>
          Exec.modify (·.registered listenFd (some (.acceptor, EPOLLIN)))
          return .ok listenFd

variable [EntryPool]

namespace Server

/-- The members of a new server, in its process. -/
def assemble (cfg : Config) (store : Store) (listenFd : Fd) (reserveFd : Option Fd)
    (kernel : Kernel) : System where
  server := { cfg, store, tickCount := 0, listenFd, connections := fun _ => none, retired := [],
              cachedNow := 0, lastSweepMs := 0, cachedTick := 2 ^ 64 - 1, reserveFd,
              acceptPaused := false }
  heap := fun _ => none
  nextId := 0
  kernel := kernel
  sessions := fun _ => {}

/-- `Server(cfg)`. It gives back the server with its process, and the descriptor of its
`EventLoop`. -/
def construct (cfg : Config) (rd : UInt64) : BootM (Except Fault (Fd × System)) := do
  let store ← Exec.defined (Store.new cfg.store rd)
  match ← openFd .epollCreate (·.epollCreate) with
  | .error e => return .error (.systemError e)
  | .ok epollFd =>
      match ← Acceptor.construct with
      | .error e =>
          Exec.modify (·.closed epollFd)
          return .error e
      | .ok listenFd =>
          -- a reserve that could not be opened is not an error
          let reserveFd := (← openFd .openNull (·.openNull)).toOption
          return .ok (epollFd, assemble cfg store listenFd reserveFd (← Exec.get))

/-- The connections that `connections_` owns. -/
def owned (s : System) : List ConnId :=
  (List.range s.nextId).filter fun id =>
    (s.heap id).any fun c => s.server.connections c.fd = some id

/-- `~Server()`: the members are destroyed last to first. `order` is the order in which the map
destroys what it owns, which is not specified. -/
def destroy (epollFd : Fd) (order : List ConnId → List ConnId) : NetM Unit := do
  setReserve none
  destroyRetired
  let s ← Exec.get
  (order (owned s)).forM Connection.destroy
  EventLoop.remove s.server.listenFd
  Exec.modify (·.closed s.server.listenFd)
  Exec.modify (·.closed epollFd)

/-- The block of `main` that the server lives in, after it has been built. The server is destroyed
also where its run ends with an exception. -/
def serve (epollFd : Fd) (order : List ConnId → List ConnId) : NetM (Except Errno Unit) := do
  let r ← run
  destroy epollFd order
  return r

end Server

/-! ### `main` -/

/-- How far the process has come. -/
inductive Process where
  /-- It has ended with a code. -/
  | exited (code : Nat) (kernel : Kernel)
  /-- It waits for a call that builds the server. -/
  | building (call : BootCall) (kernel : Kernel)
  /-- It has a server, and is at a call or at the head of a loop. -/
  | serving (call : Call) (s : System)
  /-- It has done something that the source does not define. -/
  | undefined

/-- `main` with its arguments, in a process that holds the descriptors `held`. An exception is
reported, and ends the process. -/
def main (args : List Bytes) (rd : UInt64) (held : Fd → Bool) (order : List ConnId → List ConnId)
    (boot : List BootAnswers) (script : List Answers) : Process :=
  match parseArgs {} args with
  | none => .exited 2 (.start held)
  | some cfg =>
      match Server.construct cfg.server rd boot (.start held) with
      | .stuck => .undefined
      | .waiting call k => .building call k
      | .done (.error _) _ k => .exited 1 k
      | .done (.ok (epollFd, s)) _ _ =>
          match Server.serve epollFd order script s with
          | .stuck => .undefined
          | .waiting call s => .serving call s
          | .done (.error _) _ s => .exited 1 s.kernel
          | .done (.ok ()) _ s => .exited 0 s.kernel

end TinyRedis
