import TinyRedis.Lib.Driven
import TinyRedis.Proofs.Net.Process

/-!
# `TinyRedis.Proofs.Net.Shutdown`: a process that is told to stop exits

Every loop of the server is driven by the kernel: it goes on accepting while connections are queued,
writing while the socket takes bytes or a signal interrupts it, and waiting until it is told to
stop. `Calm` says that from some time on the kernel does no more of this: `stop()` has been called,
nobody connects and no `write` is interrupted. Until then it may do what it likes.

Whatever the process is doing at that time, it gets back to the head of its loop and exits
(`main_exits`). What ends the loops is the backlog of a connection: a round of `processInput` takes
a byte at least from its input, and a `write` one from its output.

* `Halts`: a function ends, in every environment of this kind. `Ends` also says how.
* `Connection.backlog`: the bytes that a connection has in one of its buffers.
* `flushRound_ends`, `processRound_ends`: a round ends, and leaves its loop or a smaller backlog.
* `acceptRound_ends`, `shedPending_ends`: from the time on, nobody is accepted.
* `runRound_ends`: from the time on, the head of the loop is the last.
* `serve_halts`: all of it, with the destructors after it.

An environment is a strategy that answers each call from what it has answered before (`Lib.Driven`).
A function ends when the strategy, asked often enough, takes it to its return. The loops of the
source are not bounded otherwise: a client that keeps its socket writable and a server that has
always more to say would keep `flushOutput` going, and so would connections that never stop
arriving.
-/

set_option autoImplicit false

namespace TinyRedis

open Lib Exec

variable [EntryPool]

/-- What the kernel has left to do from the time `T` on, counted in its answers. -/
structure Calm (env : Strategy Answers Call System) (T : Nat) : Prop where
  stop : ∀ past s, T ≤ past.length → (env past .stop s).stop = true
  /-- No connection is queued. -/
  accept : ∀ past s, T ≤ past.length → ∃ e, (env past .accept s).accept = .error e ∧
    classifyAcceptErrno e ≠ .kRetry
  write : ∀ past id s, T ≤ past.length → (env past (.write id) s).write ≠ .error .EINTR

variable {α : Type} {env : Strategy Answers Call System} {T : Nat} {past : List Answers}
  {s : System} {id : ConnId}

/-- The program comes to an end. -/
def Halts (env : Strategy Answers Call System) (past : List Answers) (x : NetM α) (s : System) :
    Prop :=
  Ends env past x (fun _ _ => True) s

/-- A connection that is there is found without a call. -/
theorem ends_this {f : Connection → NetM α} {Q : α → System → Prop}
    (h : ∀ c, s.heap id = some c → Ends env past (f c) Q s) :
    Ends env past (connection id >>= f) Q s :=
  have hdefined : Ends env past (defined (s.heap id) >>= f) Q s := ends_defined_bind h
  hdefined

/-- `epoll_ctl` is one call. -/
theorem ends_epollCtl {h : Handler} {fd : Fd} {flag : CtlFlag} {events : UInt32} :
    Halts env past (EventLoop.epollCtl h fd flag events) s := by
  refine ends_get_bind (ends_ask_bind fun _ r _ _ => ?_)
  cases r with
  | error e => exact ends_pure trivial
  | ok _ => exact ends_modify_bind (ends_pure trivial)

omit [EntryPool] in
/-- An error that the code sees is one that the kernel has answered. -/
theorem granted_error {β : Type} {can : α → Option β} {r : Except Errno α} {e : Errno}
    (h : granted can r = some (.error e)) : r = .error e := by
  cases r with
  | error e' =>
    cases h
    rfl
  | ok a =>
    obtain ⟨b, -, hb⟩ := Option.map_eq_some_iff.mp h
    cases hb

namespace Connection

/-- Closing a connection takes no call. -/
theorem markClosed_halts : Halts env past (markClosed id) s := by
  refine ends_this fun c _ => ?_
  split
  · exact ends_pure trivial
  · refine ends_modify_bind (ends_this fun c' _ => ends_get_bind ?_)
    split
    · exact ends_pure trivial
    · exact ends_modify trivial

/-- Closing a connection after a failure takes no call. -/
theorem markBroken_halts : Halts env past (markBroken id) s :=
  ends_modify_bind markClosed_halts

/-- A new mask is one call at most. -/
theorem updateInterest_halts : Halts env past (updateInterest id) s := by
  refine ends_this fun c _ => ?_
  split
  · exact ends_pure trivial
  · refine ends_seq ends_epollCtl fun _ r _ _ _ => ?_
    cases r with
    | error e => exact markBroken_halts
    | ok _ => exact ends_modify trivial

/-- The bytes in a buffer of a connection. -/
def backlog (part : Connection → Buffer) (id : ConnId) (s : System) : Nat :=
  (s.heap id).elim 0 fun c => (part c).readable.length

/-- What is consumed leaves the backlog. -/
theorem backlog_consume {part : Connection → Buffer} {c c' : Connection} {n : Nat} {s' : System}
    (hc : s.heap id = some c) (hn : 0 < n) (hconsume : (part c).consume n = some (part c'))
    (hc' : s'.heap id = some c') : backlog part id s' < backlog part id s := by
  have hle : n ≤ (part c).readable.length := by
    unfold Buffer.consume at hconsume
    split at hconsume
    · next hle => rwa [Buffer.length_readable]
    · cases hconsume
  obtain ⟨b, hb, hreadable⟩ := Buffer.consume_spec hle
  rw [hb] at hconsume
  cases hconsume
  rw [backlog, backlog, hc, hc', Option.elim_some, Option.elim_some, hreadable, List.length_drop]
  omega

/-- A round of `flushOutput` that goes on has written something, but for an interrupted one. -/
theorem flushRound_ends (hcalm : Calm env T) (b : Unit) :
    Ends env past (flushRound id b) (Round.Sat
      (fun _ s' => T ≤ past.length → backlog out id s' < backlog out id s) fun _ _ => True) s := by
  refine ends_this fun c hc => ?_
  split
  · exact ends_pure trivial
  refine ends_ask_bind fun _ r _ hr => ?_
  split
  · next n _ =>
    split
    · exact ends_pure trivial
    next hn =>
    refine ends_defined_bind fun out' hout =>
      ends_modify_bind (ends_modify_bind (ends_pure fun _ => ?_))
    have hc' : (s.put id { c with out := out' }).heap id = some { c with out := out' } :=
      Function.update_self ..
    exact backlog_consume hc (Nat.pos_of_ne_zero hn) hout hc'
  · exact ends_pure trivial
  · refine ends_pure fun hT => ?_
    exact absurd (granted_error hr) (hcalm.write past id s hT)
  · exact ends_seq markBroken_halts fun _ _ _ _ _ => ends_pure trivial

/-- Writing ends: the output gets shorter, or the socket is full. -/
theorem flushOutput_halts (hcalm : Calm env T) : Halts env past (flushOutput id) s := by
  refine ends_seq (ends_loop (fun _ => backlog out id) fun _ b _ => flushRound_ends hcalm b)
    fun _ goesOn _ _ _ => ?_
  split
  · refine ends_this fun c _ => ?_
    split
    · exact markClosed_halts
    · exact updateInterest_halts
  · exact ends_pure trivial

/-- A round of `processInput` that goes on has parsed a command, which has a byte at least. -/
theorem processRound_ends (now : Int64) (cmd : Command) :
    Ends env past (processRound id now cmd) (Round.Sat
      (fun _ s' => T ≤ past.length → backlog in_ id s' < backlog in_ id s) fun _ _ => True) s := by
  refine ends_this fun c hc => ?_
  split
  · exact ends_pure trivial
  have hconsumed := parseCommand_consumed c.in_.readable cmd
  generalize parseCommand c.in_.readable cmd = parsed at hconsumed ⊢
  obtain ⟨res, cmd'⟩ := parsed
  dsimp only at hconsumed ⊢
  cases hres : res.status with
  | kIncomplete => exact ends_pure trivial
  | kProtocolError => exact ends_modify_bind (ends_modify_bind (ends_pure trivial))
  | kOk =>
    refine ends_get_bind (ends_defined_bind ?_)
    rintro ⟨d, store, out'⟩ -
    refine ends_defined_bind fun in' hin => ends_modify_bind (ends_modify_bind ?_)
    split
    · exact ends_modify_bind (ends_pure trivial)
    · refine ends_modify_bind (ends_pure fun _ => ?_)
      have hpos : 0 < res.consumed := by
        rcases hconsumed with ⟨-, hpos, -⟩ | ⟨hnot, -⟩
        · exact hpos
        · exact absurd hres hnot
      refine backlog_consume hc hpos ?_ (Function.update_self ..)
      exact hin

/-- Asking for the time is one call at most. -/
theorem now_halts : Halts env past Server.now s := by
  refine ends_get_bind ?_
  dsimp only
  split
  · exact ends_pure trivial
  · exact ends_ask_bind fun _ _ _ _ => ends_modify_bind (ends_pure trivial)

/-- The input gets shorter with every command, so its loop ends, whatever the kernel does. -/
theorem processInput_halts : Halts env past (processInput id) s := by
  refine ends_this fun c _ => ?_
  split
  · exact ends_pure trivial
  · refine ends_seq now_halts fun _ now _ _ _ => ?_
    exact ends_loop (T := 0) (fun _ => backlog in_ id) fun _ cmd _ => processRound_ends now cmd

/-- The reading handler ends. -/
theorem onReadable_halts (hcalm : Calm env T) : Halts env past (onReadable id) s := by
  refine ends_this fun c _ => ?_
  split
  · exact ends_pure trivial
  refine ends_modify_bind (ends_ask_bind fun _ r _ _ => ?_)
  split
  · split
    · exact markBroken_halts
    · exact ends_modify_bind (ends_modify_bind
        (ends_seq processInput_halts fun _ _ _ _ _ => flushOutput_halts hcalm))
  · exact ends_pure trivial
  · exact ends_pure trivial
  · exact markBroken_halts

/-- The writing handler ends. -/
theorem onWritable_halts (hcalm : Calm env T) : Halts env past (onWritable id) s := by
  refine ends_this fun c _ => ?_
  split
  · exact ends_pure trivial
  · exact flushOutput_halts hcalm

/-- A new connection is one call. -/
theorem new_halts {fd : Fd} : Halts env past (new fd) s := by
  refine ends_get_bind (ends_seq ends_epollCtl fun _ r _ _ _ => ?_)
  cases r with
  | error e => exact ends_modify_bind (ends_pure trivial)
  | ok _ => exact ends_modify_bind (ends_pure trivial)

/-- Destroying a connection takes no call. -/
theorem destroy_halts : Halts env past (destroy id) s :=
  ends_this fun _ _ => ends_modify_bind (ends_modify trivial)

end Connection

namespace Server

/-- Destroying all that are retired takes no call. -/
theorem destroyRetired_halts : Halts env past destroyRetired s :=
  ends_get_bind (ends_seq (ends_forM fun _ _ _ => Connection.destroy_halts)
    fun _ _ _ _ _ => ends_modify trivial)

/-- An exchange of the reserve takes no call. -/
theorem setReserve_halts {fd : Option Fd} : Halts env past (setReserve fd) s := by
  refine ends_get_bind ?_
  split
  · exact ends_modify trivial
  · exact ends_modify trivial

/-- Opening the reserve is one call. -/
theorem openReserve_halts : Halts env past openReserve s := by
  refine ends_get_bind (ends_ask_bind fun _ r _ _ => ?_)
  split
  · exact ends_pure trivial
  · exact ends_modify_bind (ends_pure trivial)

/-- In the end `accept4` fails, and not so that it is tried again. -/
theorem accept4_ends (hcalm : Calm env T) :
    Ends env past accept4 (fun r _ => T ≤ past.length →
      ∃ e, r = .error e ∧ classifyAcceptErrno e ≠ .kRetry) s := by
  refine ends_get_bind (ends_ask_bind fun _ r _ hr => ?_)
  cases r with
  | error e =>
    refine ends_pure fun hT => ⟨e, rfl, ?_⟩
    obtain ⟨e', he', hretry⟩ := hcalm.accept past s hT
    rw [granted_error hr] at he'
    cases he'
    exact hretry
  | ok fd =>
    refine ends_modify_bind (ends_pure fun hT => ?_)
    obtain ⟨e, he, -⟩ := hcalm.accept past s hT
    rw [he] at hr
    cases hr

/-- Turning a client away ends, and from the time on there is none to turn away. -/
theorem shedPending_ends (hcalm : Calm env T) :
    Ends env past shedPending (fun again _ => T ≤ past.length → again = false) s := by
  have hreopen : ∀ (again : Bool) (past' : List Answers) (s' : System),
      (T ≤ past.length → again = false) →
      Ends env past' (do setReserve (← openReserve); return again)
        (fun again _ => T ≤ past.length → again = false) s' :=
    fun _ _ _ hagain => ends_seq openReserve_halts fun _ _ _ _ _ =>
      ends_seq setReserve_halts fun _ _ _ _ _ => ends_pure hagain
  refine ends_get_bind ?_
  split
  · exact ends_pure fun _ => rfl
  refine ends_seq setReserve_halts fun _ _ _ hlen _ =>
    ends_seq (accept4_ends hcalm) fun past' r s' _ hr => ?_
  cases r with
  | error e => exact hreopen false past' s' fun _ => rfl
  | ok fd =>
    refine ends_modify_bind (hreopen true past' _ fun hT => ?_)
    obtain ⟨e, he, -⟩ := hr (hT.trans hlen)
    cases he

/-- A pause is one call. -/
theorem pauseAccepting_halts : Halts env past pauseAccepting s := by
  refine ends_get_bind ?_
  split
  · exact ends_pure trivial
  · refine ends_seq ends_epollCtl fun _ r _ _ _ => ?_
    cases r with
    | error e => exact ends_pure trivial
    | ok _ => exact ends_modify trivial

/-- The end of a pause is two calls at most. -/
theorem resumeAccepting_halts : Halts env past resumeAccepting s := by
  refine ends_get_bind ?_
  split
  · refine ends_seq openReserve_halts fun _ fd _ _ _ =>
      ends_seq setReserve_halts fun _ _ _ _ _ => ?_
    split
    · exact ends_pure trivial
    · refine ends_seq ends_epollCtl fun _ r _ _ _ => ?_
      cases r with
      | error e => exact ends_pure trivial
      | ok _ => exact ends_modify trivial
  · exact ends_pure trivial

/-- In the end `acceptPending` does not go on after a failure. -/
theorem handleAcceptFailure_ends (hcalm : Calm env T) (err : Errno) :
    Ends env past (handleAcceptFailure err) (fun again _ => T ≤ past.length →
      classifyAcceptErrno err ≠ .kRetry → again = false) s := by
  unfold handleAcceptFailure
  split
  · exact ends_pure fun _ _ => rfl
  · next hretry => exact ends_pure fun _ hnot => absurd hretry hnot
  · refine ends_seq (shedPending_ends hcalm) fun _ again _ _ hagain => ?_
    split
    · next htrue => exact ends_pure fun hT _ => htrue.symm.trans (hagain hT)
    · exact ends_seq pauseAccepting_halts fun _ _ _ _ _ => ends_pure fun _ _ => rfl
  · exact ends_seq pauseAccepting_halts fun _ _ _ _ _ => ends_pure fun _ _ => rfl

/-- Putting a connection into the map takes no call. -/
theorem emplace_halts {fd : Fd} : Halts env past (emplace fd id) s := by
  refine ends_get_bind ?_
  split
  · exact ends_modify trivial
  · exact Connection.destroy_halts

/-- In the end a round of `acceptPending` is its last. -/
theorem acceptRound_ends (hcalm : Calm env T) (b : Unit) :
    Ends env past (acceptRound b)
      (Round.Sat (fun _ _ => T ≤ past.length → 0 < 0) fun _ _ => True) s := by
  refine ends_seq (accept4_ends hcalm) fun past₁ r _ hlen hr => ?_
  cases r with
  | error e =>
    refine ends_seq (handleAcceptFailure_ends hcalm e) fun _ again _ _ hagain => ?_
    split
    · next htrue =>
      refine ends_pure fun hT => ?_
      obtain ⟨_, he, hretry⟩ := hr hT
      cases he
      cases htrue.symm.trans (hagain (hT.trans hlen) hretry)
    · exact ends_pure trivial
  | ok fd =>
    have hearly : ¬ T ≤ past.length := fun hT => by
      obtain ⟨e, he, -⟩ := hr hT
      cases he
    refine ends_ask_bind fun _ r _ _ => ?_
    cases r with
    | error e => exact ends_modify_bind (ends_pure fun hT => absurd hT hearly)
    | ok _ =>
      refine ends_seq Connection.new_halts fun _ r _ _ _ => ?_
      cases r with
      | error e => exact ends_pure fun hT => absurd hT hearly
      | ok id =>
        exact ends_seq emplace_halts fun _ _ _ _ _ => ends_pure fun hT => absurd hT hearly

/-- Accepting ends. -/
theorem acceptPending_halts (hcalm : Calm env T) : Halts env past acceptPending s :=
  ends_loop (fun _ _ => 0) fun _ b _ => acceptRound_ends hcalm b

/-- What is done after a batch ends. -/
theorem onTick_halts : Halts env past onTick s := by
  refine ends_seq destroyRetired_halts fun _ _ _ _ _ => ends_seq resumeAccepting_halts
    fun _ _ _ _ _ => ends_seq Connection.now_halts fun _ tNow _ _ _ => ends_get_bind ?_
  split
  · refine ends_defined_bind ?_
    rintro ⟨_, store⟩ -
    exact ends_modify trivial
  · exact ends_pure trivial

/-- The handlers of every event of a batch end. -/
theorem dispatchEvent_halts (hcalm : Calm env T) (event : Handler × UInt32) :
    Halts env past (EventLoop.dispatchEvent io event) s := by
  have hwrite : ∀ past s, Halts env past
      (if event.2 &&& EPOLLOUT ≠ 0 then io.onWritable event.1 else pure ()) s := by
    intro past s
    split
    · cases event.1 with
      | acceptor => exact ends_pure trivial
      | connection id => exact Connection.onWritable_halts hcalm
    · exact ends_pure trivial
  have hread : Halts env past (io.onReadable event.1) s := by
    cases event.1 with
    | acceptor => exact acceptPending_halts hcalm
    | connection id => exact Connection.onReadable_halts hcalm
  unfold EventLoop.dispatchEvent
  dsimp only
  split
  · exact ends_seq hread fun past' _ s' _ _ => hwrite past' s'
  · exact hwrite past s

/-- In the end a round of the event loop is its last. -/
theorem runRound_ends (hcalm : Calm env T) (b : Unit) :
    Ends env past (EventLoop.runRound io onTick b)
      (Round.Sat (fun _ _ => T ≤ past.length → 0 < 0) fun _ _ => True) s := by
  refine ends_ask_bind fun _ stop _ hstop => ?_
  cases stop with
  | true => exact ends_pure trivial
  | false =>
    have hearly : ¬ T ≤ past.length := fun hT => by
      rw [hcalm.stop past s hT] at hstop
      cases hstop
    refine ends_get_bind (ends_ask_bind fun _ r _ _ => ?_)
    split
    · exact ends_pure fun hT => absurd hT hearly
    · exact ends_pure trivial
    · next events _ =>
      refine ends_modify_bind (ends_seq (ends_forM fun _ event _ => dispatchEvent_halts hcalm event)
        fun _ _ _ _ _ => ends_seq onTick_halts fun _ _ _ _ _ => ?_)
      exact ends_pure fun hT => absurd hT hearly

/-- The event loop ends, and with it the run. -/
theorem run_halts (hcalm : Calm env T) : Halts env past run s := by
  have hloop : Halts env past (EventLoop.run io onTick) s :=
    ends_loop (fun _ _ => 0) fun _ b _ => runRound_ends hcalm b
  refine ends_seq hloop fun _ r _ _ _ => ?_
  cases r with
  | error e => exact ends_pure trivial
  | ok _ => exact ends_seq destroyRetired_halts fun _ _ _ _ _ => ends_pure trivial

/-- The run and the end of the server after it. -/
theorem serve_halts (hcalm : Calm env T) (epollFd : Fd) (order : List ConnId → List ConnId) :
    Halts env past (serve epollFd order) s := by
  have hdestroy : ∀ past s, Halts env past (destroy epollFd order) s := fun _ _ =>
    ends_seq setReserve_halts fun _ _ _ _ _ => ends_seq destroyRetired_halts fun _ _ _ _ _ =>
      ends_get_bind (ends_seq (ends_forM fun _ _ _ => Connection.destroy_halts) fun _ _ _ _ _ =>
        ends_modify_bind (ends_modify_bind (ends_modify trivial)))
  exact ends_seq (run_halts hcalm) fun past' _ s' _ _ =>
    ends_seq (hdestroy past' s') fun _ _ _ _ _ => ends_pure trivial

end Server

/-- A process whose server has been built exits, once it is told to stop and the kernel has come to
rest, and leaves no descriptor open. The answers of the kernel are possible ones: none of them stops
the run for good. -/
theorem main_exits {args : List Bytes} {cfg : ProcessConfig} {rd : UInt64} {held : Fd → Bool}
    {boot rest : List BootAnswers} {k : Kernel} {epollFd : Fd} {s₀ : System}
    {order : List ConnId → List ConnId} (hargs : parseArgs {} args = some cfg)
    (hvalid : cfg.server.Valid) (horder : ∀ l, (order l).Perm l)
    (hboot : Server.construct cfg.server rd boot (.start held) = .done (.ok (epollFd, s₀)) rest k)
    (hcalm : Calm env T) (hpossible : ∀ n, ¬ Blocked (Server.serve epollFd order)
      (drive env (Server.serve epollFd order) s₀ n) s₀) :
    ∃ n code k', main args rd held order boot (drive env (Server.serve epollFd order) s₀ n)
      = .exited code k' ∧ k'.isOpen = held := by
  have hopen : (Kernel.start held).isOpen = held := rfl
  have hbuilt := (Server.construct_spec cfg.server rd hopen rfl).of_done hboot
  obtain ⟨hepoll, listenFd, reserveFd, hnew, hbooked⟩ := hbuilt
  have hserve := Server.serve_spec (Server.new_health hnew) not_false hbooked epollFd horder
  obtain ⟨n, ⟨r, s', hrun, -⟩ | hstuck⟩ :=
    (Server.serve_halts hcalm epollFd order).returns hpossible
  · have hclosed := held_of_closed hepoll (hserve.of_done hrun)
    cases r with
    | error e => exact ⟨n, 1, s'.kernel, by simp only [main, hargs, hboot, hrun], hclosed⟩
    | ok _ => exact ⟨n, 0, s'.kernel, by simp only [main, hargs, hboot, hrun], hclosed⟩
  · have hsat := hserve (drive env (Server.serve epollFd order) s₀ n)
    rw [hstuck] at hsat
    exact absurd hvalid hsat

omit [EntryPool] in
/-- A process that is told to stop while it writes a reply, with a request still incomplete. -/
theorem main_exits_replying : letI := slabPool
    let args : List Bytes := [ascii "--buckets", ascii "4"]
    let boot : List BootAnswers := [{ epollCreate := .ok 3 }, {}, { socket := .ok 4 }, {}, {}, {},
      {}, { openNull := .ok 5 }]
    let script : List Answers := [{}, {}, { wait := .ok [(4, EPOLLIN)] }, {}, { accept := .ok 6 },
      {}, {}, {}, {}, { nowMs := 1000 }, {}, {}, { wait := .ok [(6, EPOLLIN)] },
      { read := .ok (ascii "PING\r\nGE") }, { nowMs := 1001 }, {}, {}, {}, { write := .ok 3 }, {},
      { write := .error .EINTR }]
    let env : Strategy Answers Call System := fun past _ _ =>
      (script[past.length]?).getD { stop := true }
    let held : Fd → Bool := fun fd => fd < 3
    ∃ epollFd s₀ rest k, Server.construct { store := { initialBuckets := 4 } } 0 boot (.start held)
        = .done (.ok (epollFd, s₀)) rest k ∧
      ∃ n code k', main args 0 held List.reverse boot
          (drive env (Server.serve epollFd List.reverse) s₀ n) = .exited code k' ∧
        k'.isOpen = held := by
  let _ := slabPool
  intro args boot script env held
  have hargs : parseArgs {} args = some { server := { store := { initialBuckets := 4 } } } := by
    decide
  have hvalid : Server.Config.Valid { store := { initialBuckets := 4 } } := by
    unfold Server.Config.Valid
    decide
  have hlate : ∀ past call s, script.length ≤ past.length → env past call s = { stop := true } := by
    intro past call s hT
    show (script[past.length]?).getD _ = _
    rw [List.getElem?_eq_none hT]
    rfl
  have hcalm : Calm env script.length :=
    { stop := fun past s hT => by rw [hlate past .stop s hT]
      accept := fun past s hT => ⟨.EAGAIN, by rw [hlate past .accept s hT], by decide⟩
      write := fun past id s hT => by
        rw [hlate past (.write id) s hT]
        nofun }
  have hreturns : (match Server.construct { store := { initialBuckets := 4 } } 0 boot
        (.start held) with
      | .done (.ok (epollFd, s₀)) _ _ =>
          match Server.serve epollFd List.reverse
            (drive env (Server.serve epollFd List.reverse) s₀ 40) s₀ with
          | .done .. => true
          | _ => false
      | _ => false) = true := by decide +kernel
  split at hreturns
  · next epollFd s₀ rest k hboot =>
    split at hreturns
    · next r rest' s' hdone =>
      exact ⟨epollFd, s₀, rest, k, hboot, main_exits hargs hvalid List.reverse_perm hboot hcalm
        (not_blocked_of_done hdone)⟩
    · cases hreturns
  · cases hreturns

end TinyRedis
