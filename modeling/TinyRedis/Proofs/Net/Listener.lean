import TinyRedis.Proofs.Net.Points

/-!
# `TinyRedis.Proofs.Net.Listener`: a listener that is paused, and the tick that follows

A failed accept that leaves its connection queued pauses the listener in the middle of a batch:
level-triggered epoll would report it again at once. The tick that ends the same round of the loop
resumes accepting as soon as it can open a descriptor for the reserve. So the next `epoll_wait` does
not report the listener exactly where the tick cannot open one, or cannot register the listener
again (`paused_listener_iff`).

* `openReserve_done`, `modify_done`, `setReserve_done`: what a call of the tick reads off the
  script, and what it leaves of the pause.
* `RearmFails`: the answers that keep the listener paused, as they stand in the script.
* `resumeAccepting_done`: they are exactly those.
* `onTick_done`: so they are for the tick, since nothing before `resumeAccepting` makes a call and
  nothing after it is about the listener.
* `pause_undone`: a pause in a batch that the tick of the same round undoes.

The other modules say what holds whatever the kernel answers. Here the answers matter, so the lemmas
are about a run that has ended (`.done`) and the part of the script that it has used.
-/

set_option autoImplicit false

namespace TinyRedis

open Lib Exec

variable [EntryPool] {s s' : System} {script rest : List Answers}

/-! ### The calls of the tick -/

/-- Opening the reserve takes one answer. -/
theorem openReserve_done {r : Option Fd} (h : openReserve script s = .done r rest s') :
    ∃ a, script = a :: rest ∧ (r = none ↔ a.openNull = none) ∧ s'.server = s.server := by
  obtain ⟨_, _, _, hget, hasked⟩ := bind_eq_done.mp h
  cases hget
  obtain ⟨r', _, s₁, hask, hopened⟩ := bind_eq_done.mp hasked
  obtain ⟨a, hscript, hlegal, heq⟩ := ask_eq_done.mp hask
  have hnull : r' = none ↔ a.openNull = none := by
    cases hopen : a.openNull with
    | none =>
      rw [hopen] at hlegal
      cases hlegal
      simp
    | some fd =>
      rw [hopen, Option.mapM_some] at hlegal
      cases hvacant : s.vacant fd with
      | none => simp [hvacant] at hlegal
      | some fd' =>
        rw [hvacant] at hlegal
        cases hlegal
        simp
  cases r' with
  | none =>
    cases hopened
    exact ⟨a, hscript, hnull, by rw [heq]⟩
  | some fd =>
    cases hopened
    exact ⟨a, hscript, hnull, by rw [heq]; rfl⟩

/-- Changing the mask of a handler takes one answer. -/
theorem modify_done {handler : Handler} {fd : Fd} {events : UInt32} {r : Except Errno Unit}
    (h : EventLoop.modify handler fd events script s = .done r rest s') :
    ∃ a, script = a :: rest ∧ a.epollCtl = r ∧ s'.server = s.server := by
  obtain ⟨_, _, _, hget, hasked⟩ := bind_eq_done.mp h
  cases hget
  obtain ⟨r', _, s₁, hask, hmodified⟩ := bind_eq_done.mp hasked
  obtain ⟨a, hscript, hlegal, heq⟩ := ask_eq_done.mp hask
  have hctl : a.epollCtl = r' := by
    cases hanswer : a.epollCtl with
    | error e =>
      rw [hanswer] at hlegal
      exact Option.some.inj hlegal
    | ok _ =>
      rw [hanswer] at hlegal
      cases r' with
      | error e =>
        obtain ⟨_, -, herror⟩ := Option.map_eq_some_iff.mp hlegal
        cases herror
      | ok _ => rfl
  cases r' with
  | error e =>
    cases hmodified
    exact ⟨a, hscript, hctl, by rw [heq]⟩
  | ok _ =>
    cases hmodified
    exact ⟨a, hscript, hctl, by rw [heq]; rfl⟩

namespace Server

/-- The reserve is exchanged without a call, and without a word about the pause. -/
theorem setReserve_done {fd : Option Fd} (h : setReserve fd script s = .done () rest s') :
    rest = script ∧ s'.server.acceptPaused = s.server.acceptPaused := by
  obtain ⟨_, _, _, hget, hset⟩ := bind_eq_done.mp h
  cases hget
  cases hold : s.server.reserveFd with
  | none =>
    rw [hold] at hset
    cases hset
    exact ⟨rfl, rfl⟩
  | some old =>
    rw [hold] at hset
    cases hset
    exact ⟨rfl, rfl⟩

/-- The tick cannot open a descriptor for the reserve, or cannot register the listener again. The
answers are those that the kernel gives to the tick. -/
def RearmFails (script : List Answers) : Prop :=
  (∃ a, script[0]? = some a ∧ a.openNull = none) ∨
    ∃ a e, script[1]? = some a ∧ a.epollCtl = .error e

/-- A paused listener stays paused exactly where the reserve or the registration fails. -/
theorem resumeAccepting_done (hpaused : s.server.acceptPaused = true)
    (h : resumeAccepting script s = .done () rest s') :
    s'.server.acceptPaused = true ↔ RearmFails script := by
  obtain ⟨_, _, _, hget, hresume⟩ := bind_eq_done.mp h
  cases hget
  rw [if_pos hpaused] at hresume
  obtain ⟨r, script₁, s₁, hopen, hreserve⟩ := bind_eq_done.mp hresume
  obtain ⟨a, rfl, hnull, hserver₁⟩ := openReserve_done hopen
  obtain ⟨_, script₂, s₂, hset, hrearm⟩ := bind_eq_done.mp hreserve
  obtain ⟨rfl, hpaused₂⟩ := setReserve_done hset
  rw [hserver₁, hpaused] at hpaused₂
  by_cases hr : r = none
  · -- No descriptor to spare: accepting stays paused.
    rw [if_pos hr] at hrearm
    cases hrearm
    exact iff_of_true hpaused₂ (Or.inl ⟨a, rfl, hnull.mp hr⟩)
  · rw [if_neg hr] at hrearm
    obtain ⟨res, script₃, s₃, hmodify, hnoted⟩ := bind_eq_done.mp hrearm
    obtain ⟨a', rfl, hctl, hserver₃⟩ := modify_done hmodify
    cases res with
    | error e =>
      cases hnoted
      rw [hserver₃]
      exact iff_of_true hpaused₂ (Or.inr ⟨a', e, rfl, hctl⟩)
    | ok _ =>
      cases hnoted
      refine iff_of_false (by simp) ?_
      rintro (⟨_, heq, hnone⟩ | ⟨_, e, heq, herror⟩)
      · cases heq
        exact hr (hnull.mpr hnone)
      · cases heq
        rw [hctl] at herror
        cases herror

/-- Destroying a connection makes no call, and leaves the server as it is. -/
theorem destroy_done {id : ConnId} (h : Connection.destroy id script s = .done () rest s') :
    rest = script ∧ s'.server = s.server := by
  obtain ⟨c, _, _, hconn, hremove⟩ := bind_eq_done.mp h
  obtain ⟨_, _, _, hget, hdefined⟩ := bind_eq_done.mp hconn
  cases hget
  obtain ⟨-, rfl, rfl⟩ := defined_eq_done.mp hdefined
  cases hremove
  exact ⟨rfl, rfl⟩

/-- The end of the retired connections takes no answer. -/
theorem destroyRetired_done (h : destroyRetired script s = .done () rest s') :
    rest = script ∧ s'.server.acceptPaused = s.server.acceptPaused := by
  have hall : ∀ (ids : List ConnId) {s s' : System} {rest : List Answers},
      ids.forM Connection.destroy script s = .done () rest s' →
        rest = script ∧ s'.server = s.server := by
    intro ids
    induction ids with
    | nil =>
      intro s s' rest h
      cases h
      exact ⟨rfl, rfl⟩
    | cons id ids ih =>
      intro s s' rest h
      obtain ⟨_, _, s₁, hfirst, hrest⟩ := bind_eq_done.mp h
      obtain ⟨rfl, hserver₁⟩ := destroy_done hfirst
      obtain ⟨rfl, hserver'⟩ := ih hrest
      exact ⟨rfl, hserver'.trans hserver₁⟩
  obtain ⟨_, _, _, hget, hdestroy⟩ := bind_eq_done.mp h
  cases hget
  obtain ⟨_, _, s₁, hforM, hclear⟩ := bind_eq_done.mp hdestroy
  obtain ⟨rfl, hserver⟩ := hall _ hforM
  cases hclear
  exact ⟨rfl, by rw [← hserver]⟩

/-- Asking for the time does nothing about the pause. -/
theorem now_paused : wpu True now
    (fun _ s' => s'.server.acceptPaused = s.server.acceptPaused) (fun _ _ => True) s := by
  refine wpu_get_bind ?_
  dsimp only
  split
  · exact wpu_pure rfl
  · exact wpu_ask_bind trivial fun _ t _ => wpu_modify_bind (wpu_pure rfl)

/-- The tick leaves a paused listener paused exactly where its calls fail. -/
theorem onTick_done (hpaused : s.server.acceptPaused = true)
    (h : onTick script s = .done () rest s') :
    s'.server.acceptPaused = true ↔ RearmFails script := by
  obtain ⟨_, script₁, s₁, hdestroy, hafter₁⟩ := bind_eq_done.mp h
  obtain ⟨rfl, hpaused₁⟩ := destroyRetired_done hdestroy
  obtain ⟨_, script₂, s₂, hresume, hafter₂⟩ := bind_eq_done.mp hafter₁
  obtain ⟨tNow, script₃, s₃, hnow, hsweep⟩ := bind_eq_done.mp hafter₂
  have hpaused₃ := now_paused.of_done hnow
  have hpaused' : s'.server.acceptPaused = s₃.server.acceptPaused := by
    obtain ⟨_, _, _, hget, hafter₃⟩ := bind_eq_done.mp hsweep
    cases hget
    split at hafter₃
    · obtain ⟨⟨r, store⟩, _, s₄, hcycle, hstored⟩ := bind_eq_done.mp hafter₃
      obtain ⟨-, rfl, rfl⟩ := defined_eq_done.mp hcycle
      cases hstored
      rfl
    · cases hafter₃
      rfl
  rw [← resumeAccepting_done (hpaused₁.trans hpaused) hresume, hpaused', hpaused₃]

end Server

omit [EntryPool] in
/-- The mask of the listener says whether it is paused. -/
theorem listenMask_eq_zero {paused : Bool} : listenMask paused = 0 ↔ paused = true := by
  cases paused <;> decide

/-- A paused listener is polled at once, unless the tick cannot resume it. In every run of the
server, whenever an event of a batch leaves accepting paused, the listener has the mask 0 when the
next `epoll_wait` is entered exactly where the tick at the end of the batch cannot open a
descriptor or cannot register the listener again. -/
theorem paused_listener_iff {cfg : Server.Config} {rd : UInt64} {listenFd : Fd}
    {reserveFd : Option Fd} {held : Fd → Bool} {s₀ : System}
    (hnew : Server.new cfg rd listenFd reserveFd held = some s₀)
    (hdistinct : reserveFd ≠ some listenFd) {event : Handler × UInt32}
    {events : List (Handler × UInt32)} {s s₁ b t : System}
    {script script₁ rest rest' : List Answers}
    (hreach : Reaches ⟨.head, s₀⟩ ⟨.batch (event :: events), s⟩)
    (hevent : EventLoop.dispatchEvent Server.io event script s = .done () script₁ s₁)
    (hpaused : s₁.server.acceptPaused = true)
    (hafter : events.forM (EventLoop.dispatchEvent Server.io) script₁ s₁ = .done () rest b)
    (htick : Server.onTick rest b = .done () rest' t) :
    (∀ a : Answers, a.stop = false →
      EventLoop.runRound Server.io Server.onTick () [a] t = .waiting .epollWait t) ∧
    ((t.kernel.epoll t.server.listenFd).map Prod.snd = some 0 ↔ Server.RearmFails rest) := by
  have hfds := Server.new_distinct hnew hdistinct
  have hs := hreach.health not_false (Server.new_health hnew)
  have hs₁ := (EventLoop.deliver_spec hs).of_done hevent
  have hb := (EventLoop.batch_spec hs₁).of_done hafter
  have ht := (Server.onTick_spec hb not_false).of_done htick
  -- No event resumes accepting, so it is still paused at the end of the batch.
  have hstill : b.server.acceptPaused = true := by
    have hs₁' : Health { Server.frame cfg s₀ with paused := True } (connIds events) .idle s₁ :=
      { hs₁ with paused := fun _ => hpaused }
    exact ((EventLoop.batch_spec hs₁').of_done hafter).paused trivial
  refine ⟨fun a hstop => ?_, ?_⟩
  · have hgo : Exec.ask Call.stop (fun a : Answers => some a.stop) [a] t = .done false [] t := by
      simp only [Exec.ask, hstop]
    exact (bind_of_done hgo).trans rfl
  · rw [(ht.polled hfds).listener, ← Server.onTick_done hstill htick]
    simp [listenMask_eq_zero]

omit [EntryPool] in
set_option maxRecDepth 20000 in
/-- With no descriptor for the reserve, the listener stays paused over the tick. -/
theorem paused_listener_iff_no_reserve : letI := slabPool
    let cfg : Server.Config := { store := { seed := 7, initialBuckets := 4 } }
    let failing : List Answers := [{}, { accept := .error (.other 12) }, {}]
    let tick : List Answers := [{ openNull := none }, { nowMs := 10 }]
    ∃ s₀ s s₁ t, Server.new cfg 0 3 (some 4) (fun fd => fd < 3) = some s₀ ∧
      Reaches ⟨.head, s₀⟩ ⟨.batch [(.acceptor, EPOLLIN)], s⟩ ∧
      EventLoop.dispatchEvent Server.io (.acceptor, EPOLLIN) (failing ++ tick) s =
        .done () tick s₁ ∧
      s₁.server.acceptPaused = true ∧ Server.onTick tick s₁ = .done () [] t ∧
      (t.kernel.epoll t.server.listenFd).map Prod.snd = some 0 := by
  let _ := slabPool
  intro cfg failing tick
  obtain ⟨s₀, hnew⟩ := Server.new_isSome 0 (show cfg.store.initialBuckets ≤ 2 ^ 63 by decide)
    (by decide) 3 (some 4) fun fd => fd < 3
  have hfresh := hnew
  simp only [Server.new, Option.bind_eq_bind, Option.bind_eq_some_iff] at hfresh
  obtain ⟨store, -, heq⟩ := hfresh
  cases heq
  obtain ⟨s₀, s, s₁, t, hnew, hreach, hevent, hpaused, htick⟩ : ∃ s₀ s s₁ t,
      Server.new cfg 0 3 (some 4) (fun fd => fd < 3) = some s₀ ∧
      Reaches ⟨.head, s₀⟩ ⟨.batch [(.acceptor, EPOLLIN)], s⟩ ∧
      EventLoop.dispatchEvent Server.io (.acceptor, EPOLLIN) (failing ++ tick) s =
        .done () tick s₁ ∧
      s₁.server.acceptPaused = true ∧ Server.onTick tick s₁ = .done () [] t :=
    ⟨_, _, _, _, hnew, .single (@Step.wait _ _ [(3, EPOLLIN)] _ rfl), rfl, rfl,
      Server.onTick_early rfl rfl rfl (show ¬ (10 : Int64) - 0 ≥ (100 : Int32).toInt64 by decide)⟩
  refine ⟨s₀, s, s₁, t, hnew, hreach, hevent, hpaused, htick, ?_⟩
  exact (paused_listener_iff hnew (by decide) hreach hevent hpaused rfl htick).2.mpr
    (Or.inl ⟨_, rfl, rfl⟩)

omit [EntryPool] in
set_option maxRecDepth 20000 in
/-- With a descriptor to spare, an accept that fails for want of memory pauses the listener, and
the tick that follows registers it again: the next `epoll_wait` reports it at once. -/
theorem pause_undone : letI := slabPool
    let cfg : Server.Config := { store := { seed := 7, initialBuckets := 4 } }
    let failing : List Answers := [{}, { accept := .error (.other 12) }, {}]
    let tick : List Answers := [{ openNull := some 5 }, {}, { nowMs := 10 }]
    ∃ s₀ s s₁ t, Server.new cfg 0 3 (some 4) (fun fd => fd < 3) = some s₀ ∧
      Reaches ⟨.head, s₀⟩ ⟨.batch [(.acceptor, EPOLLIN)], s⟩ ∧
      EventLoop.dispatchEvent Server.io (.acceptor, EPOLLIN) (failing ++ tick) s =
        .done () tick s₁ ∧
      s₁.server.acceptPaused = true ∧ Server.onTick tick s₁ = .done () [] t ∧
      EventLoop.runRound Server.io Server.onTick () [{}] t = .waiting .epollWait t ∧
      (t.kernel.epoll t.server.listenFd).map Prod.snd = some EPOLLIN := by
  let _ := slabPool
  intro cfg failing tick
  obtain ⟨s₀, hnew⟩ := Server.new_isSome 0 (show cfg.store.initialBuckets ≤ 2 ^ 63 by decide)
    (by decide) 3 (some 4) fun fd => fd < 3
  have hfresh := hnew
  simp only [Server.new, Option.bind_eq_bind, Option.bind_eq_some_iff] at hfresh
  obtain ⟨store, -, heq⟩ := hfresh
  cases heq
  exact ⟨_, _, _, _, hnew, .single (@Step.wait _ _ [(3, EPOLLIN)] _ rfl), rfl, rfl,
    Server.onTick_early rfl rfl rfl (show ¬ (10 : Int64) - 0 ≥ (100 : Int32).toInt64 by decide),
    rfl, rfl⟩

end TinyRedis
