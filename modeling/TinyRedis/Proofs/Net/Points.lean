import Mathlib.Logic.Relation
import TinyRedis.Proofs.Net.Server

/-!
# `TinyRedis.Proofs.Net.Points`: the event loop as a transition system

Seen from outside the handlers, the loop goes from point to point: it waits for a batch, delivers
the events of the batch one by one, and ticks (`Step`). Every moment of a run of the server is
observed at a point that the loop reaches (`run_observed`), so what holds of the points that can be
reached, one after another, holds of the run.

* `Point`, `Step`, `Reaches`: where the loop is, and where it can get to.
* `Point.Observes`: the moments inside the handler that runs at a point.
* `run_observed`: every moment of a run is one of these.
* `Step.health`, `Reaches.health`: the points keep the process healthy.
* `Point.Observes.observed`: so do the moments in between.

A step is made for some answers of the kernel and takes its function as a whole, from its call to
its return. That a run of the code is made of such steps is the content of `run_observed`, and no
other module looks at the loop itself again.
-/

set_option autoImplicit false

namespace TinyRedis

open Lib Exec

variable [EntryPool]

/-- Where the loop stands: at its head, or with events of a batch still to be delivered. -/
inductive Phase where
  | head
  | batch (events : List (Handler × UInt32))

/-- Where the loop is, with the process there. -/
structure Point where
  phase : Phase
  state : System

/-- What the loop does between two points. An interrupted `epoll_wait` ends where it began. -/
inductive Step : Point → Point → Prop where
  | wait {s : System} {ready : List (Fd × UInt32)} {events : List (Handler × UInt32)} :
      EventLoop.batch s ready = some events →
      Step ⟨.head, s⟩ ⟨.batch events, { s with
        server.tickCount := s.server.tickCount + 1, journal := s.journal ++ [.tick] }⟩
  | deliver {s s' : System} {event : Handler × UInt32} {events : List (Handler × UInt32)}
      {script rest : List Answers} :
      EventLoop.dispatchEvent Server.io event script s = .done () rest s' →
      Step ⟨.batch (event :: events), s⟩ ⟨.batch events, s'⟩
  | tick {s s' : System} {script rest : List Answers} :
      Server.onTick script s = .done () rest s' → Step ⟨.batch [], s⟩ ⟨.head, s'⟩

/-- The points that the loop gets to from a point. -/
def Reaches : Point → Point → Prop := Relation.ReflTransGen Step

namespace Point

/-- The connections that events are still to be delivered to. -/
def live (p : Point) : List ConnId :=
  match p.phase with
  | .head => []
  | .batch events => connIds events

/-- What the loop does next may be observed at the call in the state `s`. -/
def Observes (p : Point) (call : Call) (s : System) : Prop :=
  match p.phase with
  | .head => s = p.state ∧ (call = .runLoop ∨ call = .stop ∨ call = .epollWait)
  | .batch [] => ∃ script, Server.onTick script p.state = .waiting call s
  | .batch (event :: _) =>
      ∃ script, EventLoop.dispatchEvent Server.io event script p.state = .waiting call s

end Point

/-! ### Every moment of a run -/

section Runs

variable (s₀ : System)

/-- The moments that can be observed at the points reached from the start. -/
def ObservedFrom (call : Call) (s : System) : Prop :=
  ∃ p, Reaches ⟨.head, s₀⟩ p ∧ p.Observes call s

variable {s₀} {s : System}

/-- The three calls at the head of the loop. -/
theorem observedFrom_head (h : Reaches ⟨.head, s₀⟩ ⟨.head, s⟩) {call : Call}
    (hcall : call = .runLoop ∨ call = .stop ∨ call = .epollWait) : ObservedFrom s₀ call s :=
  ⟨_, h, rfl, hcall⟩

/-- The events of a batch are steps, one after another. -/
theorem batch_observed {events : List (Handler × UInt32)}
    (h : Reaches ⟨.head, s₀⟩ ⟨.batch events, s⟩) :
    wpu True (events.forM (EventLoop.dispatchEvent Server.io))
      (fun _ s' => Reaches ⟨.head, s₀⟩ ⟨.batch [], s'⟩) (ObservedFrom s₀) s := by
  refine wpu_forM (fun events s' => Reaches ⟨.head, s₀⟩ ⟨.batch events, s'⟩) ?_ h
  intro event events s' hs'
  refine wpu_imp (wpu_self _) ?_ ?_
  · rintro _ s'' ⟨script, rest, hrun⟩
    exact hs'.tail (.deliver hrun)
  · exact fun call s'' hrun => ⟨_, hs', hrun⟩

/-- The tick, after the last event. -/
theorem onTick_observed (h : Reaches ⟨.head, s₀⟩ ⟨.batch [], s⟩) :
    wpu True Server.onTick (fun _ s' => Reaches ⟨.head, s₀⟩ ⟨.head, s'⟩) (ObservedFrom s₀) s := by
  refine wpu_imp (wpu_self _) ?_ ?_
  · rintro _ s' ⟨script, rest, hrun⟩
    exact h.tail (.tick hrun)
  · exact fun call s' hrun => ⟨_, h, hrun⟩

/-- A round of the loop is a wait, the deliveries of a batch and a tick. -/
theorem runRound_observed (h : Reaches ⟨.head, s₀⟩ ⟨.head, s⟩) :
    wpu True (EventLoop.runRound Server.io Server.onTick ())
      (Round.Sat (fun _ s' => Reaches ⟨.head, s₀⟩ ⟨.head, s'⟩) fun _ _ => True)
      (ObservedFrom s₀) s := by
  refine wpu_ask_bind (observedFrom_head h (by simp)) fun _ stop _ => ?_
  split
  · exact wpu_pure trivial
  refine wpu_get_bind (wpu_ask_bind (observedFrom_head h (by simp)) fun _ r hr => ?_)
  split
  · exact wpu_pure h
  · exact wpu_pure trivial
  · next events hr =>
    obtain ⟨ready, hbatch⟩ := granted_ok hr
    refine wpu_modify_bind (wpu_seq (batch_observed (h.tail (.wait hbatch))) fun _ s' hs' => ?_)
    exact wpu_seq (onTick_observed hs') fun _ s'' hs'' => wpu_pure hs''

/-- The end of retired connections is not observed. -/
theorem destroyRetired_silent {C : Call → System → Prop} :
    wpu True Server.destroyRetired (fun _ _ => True) C s := by
  refine wpu_get_bind (wpu_seq (wpu_forM (fun _ _ => True) ?_ trivial)
    fun _ _ _ => wpu_modify trivial)
  intro id _ s' _
  refine wpu_bind (wpu_get_bind ?_)
  cases s'.heap id with
  | none => exact fun _ => trivial
  | some c => exact fun _ => wpu_modify_bind (wpu_modify trivial)

/-- Every moment of every run of the server is observed at a point that the loop reaches. -/
theorem run_observed (s₀ : System) :
    wpu True Server.run (fun _ _ => True) (ObservedFrom s₀) s₀ := by
  have hloop : wpu True (EventLoop.run Server.io Server.onTick) (fun _ _ => True)
      (ObservedFrom s₀) s₀ := by
    refine wpu_loop (fun _ s => Reaches ⟨.head, s₀⟩ ⟨.head, s⟩) ?_ ?_ .refl
    · exact fun _ s hs => observedFrom_head hs (by simp)
    · exact fun _ s hs => runRound_observed hs
  refine wpu_seq hloop fun r s _ => ?_
  cases r with
  | error e => exact wpu_pure trivial
  | ok _ => exact wpu_seq destroyRetired_silent fun _ _ _ => wpu_pure trivial

end Runs

/-- A tick before the next sweep is due only destroys, resumes and looks at the clock. -/
theorem Server.onTick_early {s s₁ s₂ s₃ : System} {script script₁ script₂ rest : List Answers}
    {tNow : Int64} (hdestroy : destroyRetired script s = .done () script₁ s₁)
    (hresume : resumeAccepting script₁ s₁ = .done () script₂ s₂)
    (hnow : now script₂ s₂ = .done tNow rest s₃)
    (hearly : ¬ tNow - s₃.server.lastSweepMs ≥ s₃.server.cfg.expireIntervalMs.toInt64) :
    onTick script s = .done () rest s₃ := by
  refine (bind_of_done hdestroy).trans ((bind_of_done hresume).trans ((bind_of_done hnow).trans
    ((bind_of_done rfl).trans ?_)))
  rw [if_neg hearly]
  rfl

/-! ### Health of the points -/

variable {f : Frame} {p q : Point}

/-- The step lemma. -/
theorem Step.health (h : Step p q) (hf : ¬ f.paused) (hp : Health f p.live .idle p.state) :
    Health f q.live .idle q.state := by
  cases h with
  | wait hbatch =>
    have hevents := hp.batch hbatch
    exact ⟨hevents.cap, hevents.serving, hevents.owned, hevents.live, hevents.polled,
      hevents.later, hevents.paused⟩
  | deliver hrun => exact (EventLoop.deliver_spec hp).of_done hrun
  | tick hrun => exact (Server.onTick_spec hp hf).of_done hrun

/-- The run lemma. -/
theorem Reaches.health (h : Reaches p q) (hf : ¬ f.paused) (hp : Health f p.live .idle p.state) :
    Health f q.live .idle q.state := by
  induction h with
  | refl => exact hp
  | tail _ hstep ih => exact hstep.health hf ih

/-- What can be observed at a healthy point. -/
theorem Point.Observes.observed {call : Call} {s : System} (h : p.Observes call s)
    (hf : ¬ f.paused) (hp : Health f p.live .idle p.state) : Observed f call s := by
  obtain ⟨phase, state⟩ := p
  cases phase with
  | head =>
    obtain ⟨rfl, hcall⟩ := h
    refine hp.observed rfl ?_
    rcases hcall with rfl | rfl | rfl <;> exact trivial
  | batch events =>
    cases events with
    | nil =>
      obtain ⟨script, hrun⟩ := h
      exact (Server.onTick_spec hp hf).of_waiting hrun
    | cons event events =>
      obtain ⟨script, hrun⟩ := h
      exact (EventLoop.deliver_spec hp).of_waiting hrun

end TinyRedis
