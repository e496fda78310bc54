import TinyRedis.Net.System

/-!
# `TinyRedis.Net.EventLoop`: the epoll loop

The model of `src/net/event_loop.h` and `src/net/event_loop.cpp`. A call that throws gives back the
error. The virtual functions of `IoHandler` are a parameter of the loop.

* `add`, `modify`, `remove`: the three calls of `epoll_ctl`.
* `dispatchEvent`: what one event of a batch calls.
* `runRound`, `run`: the loop, one round for each `epoll_wait`.

`epoll_wait` may report any mask for any descriptor of the interest list, in any order, and the same
one twice (`batch`). Nothing is assumed about the events that a mask asked for: what is proved holds
also for reports that nobody wanted. A report holds the `data.ptr` that stood in the interest list
when the call was made, so an event late in a batch can be for a handler that an earlier one has
closed; the server has its `retired` list for that.

The timeout of `epoll_wait` has no counterpart here, since an empty batch is among its answers.
-/

set_option autoImplicit false

namespace TinyRedis

open Lib

variable [EntryPool]

/-- The virtual functions of `IoHandler`. -/
structure IoHandler where
  /-- The source calls it also for an error and for a hang-up. -/
  onReadable : Handler → NetM Unit
  /-- It is called after `onReadable` when a report asks for both. -/
  onWritable : Handler → NetM Unit

/-- The operation of an `epoll_ctl` that can fail. -/
inductive CtlFlag where
  | EPOLL_CTL_ADD
  | EPOLL_CTL_MOD
deriving DecidableEq, Repr

namespace EventLoop

/-- The length of the array that `epoll_wait` fills. -/
def kMaxEvents : Nat := 1024

/-- `epoll_ctl` to add or modify an entry. It adds only a descriptor that is not in the interest
list, and modifies only one that is. -/
def epollCtl (h : Handler) (fd : Fd) (flag : CtlFlag) (events : UInt32) :
    NetM (Except Errno Unit) := do
  let s ← Exec.get
  let can (_ : Unit) : Option Unit :=
    if (s.kernel.epoll fd).isSome = decide (flag = .EPOLL_CTL_MOD) then some () else none
  match ← Exec.ask .epollCtl fun a => granted can a.epollCtl with
  | .error e => return .error e
  | .ok () =>
      Exec.modify (·.registered fd (some (h, events)))
      return .ok ()

/-- `add(h, fd, events)`. -/
def add (h : Handler) (fd : Fd) (events : UInt32) : NetM (Except Errno Unit) :=
  epollCtl h fd .EPOLL_CTL_ADD events

/-- `modify(h, fd, events)`. -/
def modify (h : Handler) (fd : Fd) (events : UInt32) : NetM (Except Errno Unit) :=
  epollCtl h fd .EPOLL_CTL_MOD events

/-- `EPOLL_CTL_DEL`, whose result the source ignores. -/
def remove (fd : Fd) : NetM Unit := Exec.modify (·.registered fd none)

/-- One event: an error or a hang-up is shown to the reader, who will find it out. -/
def dispatchEvent (io : IoHandler) (event : Handler × UInt32) : NetM Unit := do
  -- Both may be called: the second for a connection that the first has just closed.
  if event.2 &&& (EPOLLIN ||| EPOLLERR ||| EPOLLHUP) ≠ 0 then io.onReadable event.1
  if event.2 &&& EPOLLOUT ≠ 0 then io.onWritable event.1

/-- The events of an `epoll_wait`: any masks, for descriptors in the interest list. -/
def batch (s : System) (ready : List (Fd × UInt32)) : Option (List (Handler × UInt32)) :=
  if ready.length ≤ kMaxEvents then
    ready.mapM fun event => (s.kernel.epoll event.1).map fun entry => (entry.1, event.2)
  else none

/-- A round of the loop of `run`. -/
def runRound (io : IoHandler) (onTick : NetM Unit) (_ : Unit) :
    NetM (Round Unit (Except Errno Unit)) := do
  if ← Exec.ask .stop fun a => some a.stop then return .leave (.ok ())
  else
    let s ← Exec.get
    match ← Exec.ask .epollWait fun a => granted (batch s) a.wait with
    -- interrupted by a signal; recheck for a requested stop
    | .error .EINTR => return .again ()
    | .error e => return .leave (.error e)
    | .ok events =>
        Exec.modify fun s => { s with
          server.tickCount := s.server.tickCount + 1, journal := s.journal ++ [.tick] }
        events.forM (dispatchEvent io)
        onTick
        return .again ()

/-- Runs until `stop()`, or until `epoll_wait` fails. -/
def run (io : IoHandler) (onTick : NetM Unit) : NetM (Except Errno Unit) :=
  Exec.loop .runLoop (runRound io onTick) ()

end EventLoop

end TinyRedis
