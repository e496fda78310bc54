import TinyRedis.Proofs.Net.Points

/-!
# `TinyRedis.Proofs.Net.Lifetime`: connections from accept to the end

A connection closes in the middle of a batch in which it may still have events, and in which new
sockets may be accepted. It is moved to `retired_` at once and destroyed after the batch. Until then
its descriptor stays open, so no new socket gets it, and the events still queued for it find a
closed connection and not a destroyed one.

* `Lifetimes`: every connection has one owner, the map while it is open and the retired list after
  that; both hold only connections that exist, and no two connections have one descriptor.
* `Health.lifetimes`: a healthy process is like this.
* `Call.actor`: the connection that makes a call, if one does.
* `run_lifetimes`: it is so at every moment of every run. A connection that is over makes no call
  and writes nothing to its session. The handlers of the events still to be delivered exist.

The second part is about two points of one run: `Health.rebase` takes the first of them for the
state that the later ones are compared with.
-/

set_option autoImplicit false

namespace TinyRedis

open Lib Exec

variable [EntryPool]

/-- Who owns the existing connections. -/
structure Lifetimes (s : System) : Prop where
  /-- A connection is in `connections_`, under its own descriptor, or in `retired_`, and not in
  both. It is in `retired_` exactly when it is closed. -/
  owner : ∀ {id c}, s.heap id = some c →
    (c.state ≠ .kClosed ∧ s.server.connections c.fd = some id ∧ id ∉ s.server.retired) ∨
      (c.state = .kClosed ∧ id ∈ s.server.retired ∧ ∀ fd, s.server.connections fd ≠ some id)
  listed : ∀ {fd id}, s.server.connections fd = some id → ∃ c, s.heap id = some c ∧ c.fd = fd
  retired : ∀ {id}, id ∈ s.server.retired → ∃ c, s.heap id = some c
  nodup : s.server.retired.Nodup
  fd_inj : ∀ {id id' c c'}, s.heap id = some c → s.heap id' = some c' → c.fd = c'.fd → id = id'
  /-- A descriptor that the kernel can give to a new socket has its place free. -/
  vacant : ∀ {fd}, s.kernel.isOpen fd = false → s.server.connections fd = none

variable {f : Frame} {live : List ConnId} {act : Activity} {s : System}

/-- A healthy process has its connections in order. -/
theorem Health.lifetimes (h : Health f live act s) : Lifetimes s where
  owner := by
    intro id c hc
    have hplace := places_eq hc
    -- A closed connection is in the retired list, any other in the map, and none in both.
    by_cases hstate : c.state = .kClosed
    · have hclosed : places s.heap id = some ⟨c.fd, true⟩ := by
        rw [hplace, Connection.place, decide_eq_true hstate]
      refine Or.inr ⟨hstate, h.owned.mem_retired.mpr ⟨c.fd, hclosed⟩, fun fd hlisted => ?_⟩
      have hopen := h.owned.connections_iff.mp hlisted
      rw [hclosed] at hopen
      cases hopen
    · have hopen : places s.heap id = some ⟨c.fd, false⟩ := by
        rw [hplace, Connection.place, decide_eq_false hstate]
      refine Or.inl ⟨hstate, h.owned.connections_iff.mpr hopen, fun hretired => ?_⟩
      obtain ⟨fd, hclosed⟩ := h.owned.mem_retired.mp hretired
      rw [hopen] at hclosed
      cases hclosed
  listed := by
    intro fd id hlisted
    obtain ⟨c, hc, hplace⟩ := Option.map_eq_some_iff.mp (h.owned.connections_iff.mp hlisted)
    exact ⟨c, hc, congrArg Place.fd hplace⟩
  retired := by
    intro id hretired
    obtain ⟨fd, hplace⟩ := h.owned.mem_retired.mp hretired
    obtain ⟨c, hc, -⟩ := Option.map_eq_some_iff.mp hplace
    exact ⟨c, hc⟩
  nodup := h.owned.nodup
  fd_inj := fun hc hc' hfd => h.owned.fd_inj (places_eq hc) (places_eq hc') hfd
  vacant := by
    intro fd hclosed
    by_contra hlisted
    obtain ⟨id, hid⟩ := Option.ne_none_iff_exists'.mp hlisted
    have hopen := h.owned.isOpen (h.owned.connections_iff.mp hid)
    rw [hclosed] at hopen
    cases hopen

/-- The connection that reads, writes or dispatches at the call. -/
def Call.actor : Call → Option ConnId
  | .read id | .write id | .flushLoop id | .processLoop id => some id
  | _ => none

/-- A connection that is over does none of these. -/
theorem Call.Ready.actor_ne {call : Call} (h : call.Ready s) {id : ConnId} (hover : s.Over id) :
    call.actor ≠ some id := by
  intro hactor
  have hopen : ∃ c, s.heap id = some c ∧ c.state ≠ .kClosed := by
    cases call with
    | read id' | write id' | flushLoop id' =>
      cases hactor
      exact h
    | processLoop id' =>
      cases hactor
      obtain ⟨c, hc, hstate⟩ := h
      exact ⟨c, hc, by simp [hstate]⟩
    | _ => cases hactor
  obtain ⟨c, hc, hne⟩ := hopen
  exact hne (hover.2 c hc)

/-- From here on, the state is compared with this one. -/
theorem Health.rebase (h : Health f live act s) : Health { f with base := s } live act s :=
  { h with later := System.Later.refl s }

/-- The lifetime of connections, in every run of the server from its construction on. At every
moment the existing connections are owned as they should be, and one that reads, writes or
dispatches is not closed. A connection that is over at some point of the loop, closed or destroyed,
is over at every later one, and nothing more happens on it. An event of a batch is delivered to a
connection that exists. -/
theorem run_lifetimes {cfg : Server.Config} {rd : UInt64} {listenFd : Fd} {reserveFd : Option Fd}
    {held : Fd → Bool} {s₀ : System}
    (hnew : Server.new cfg rd listenFd reserveFd held = some s₀) :
    (∀ script, (Server.run script s₀).SatUnless (¬ cfg.Valid) (fun _ s => Lifetimes s)
      fun call s => Lifetimes s ∧ call.Ready s ∧ ObservedFrom s₀ call s) ∧
    (∀ p q id, Reaches ⟨.head, s₀⟩ p → Reaches p q → p.state.Over id →
      q.state.Over id ∧ q.state.sessions id = p.state.sessions id ∧
      ∀ call s, q.Observes call s →
        s.Over id ∧ s.sessions id = p.state.sessions id ∧ call.actor ≠ some id) ∧
    (∀ id mask events s, Reaches ⟨.head, s₀⟩ ⟨.batch ((.connection id, mask) :: events), s⟩ →
      ∃ c, s.heap id = some c) := by
  have hstart := Server.new_health hnew
  refine ⟨fun script => ?_, fun p q id hp hq hover => ?_, fun id mask events s hreach => ?_⟩
  · have hrun := Server.run_spec hstart not_false script
    have hobserved := run_observed s₀ script
    cases hout : Server.run script s₀ with
    | done r rest s =>
      rw [hout] at hrun
      exact Health.lifetimes hrun
    | waiting call s =>
      rw [hout] at hrun hobserved
      obtain ⟨⟨act, hact, -⟩, hready⟩ := hrun
      exact ⟨hact.lifetimes, hready, hobserved⟩
    | stuck =>
      rw [hout] at hrun
      exact hrun
  · -- From the first point on, the state there is one that the run has passed.
    have hhealth := hq.health not_false (hp.health not_false hstart).rebase
    refine ⟨(hhealth.later id hover).1, (hhealth.later id hover).2, fun call s hobserves => ?_⟩
    obtain ⟨⟨act, hact, -⟩, hready⟩ := hobserves.observed not_false hhealth
    obtain ⟨hover', hsession⟩ := hact.later id hover
    exact ⟨hover', hsession, hready.actor_ne hover'⟩
  · have hhealth := hreach.health not_false hstart
    exact hhealth.live id (by simp [Point.live, connIds])

omit [EntryPool] in
/-- A client hangs up in a batch that reports it twice, once to read and once to write, and a new
client after it. -/
theorem run_lifetimes_hangup : letI := slabPool
    let cfg : Server.Config := { store := { seed := 7, initialBuckets := 4 } }
    let accepting : List Answers := [{}, {}, { wait := .ok [(3, EPOLLIN)] }, {},
      { accept := .ok 7 }, {}, {}, {}, {}, { nowMs := 10 }]
    let hangup : List Answers := [{}, {}, { wait := .ok [(7, EPOLLIN ||| EPOLLOUT), (3, EPOLLIN)] },
      { read := .ok [] }, {}, { accept := .ok 8 }, {}, {}, {}, {}, { nowMs := 20 }]
    ∃ s₀, Server.new cfg 0 3 (some 4) (fun fd => fd < 3) = some s₀ ∧
      (Server.run (accepting ++ hangup) s₀).SatUnless (¬ cfg.Valid) (fun _ s => Lifetimes s)
        fun call s => Lifetimes s ∧ call.Ready s ∧ ObservedFrom s₀ call s := by
  let _ := slabPool
  intro cfg accepting hangup
  obtain ⟨s₀, hnew⟩ := Server.new_isSome 0 (show cfg.store.initialBuckets ≤ 2 ^ 63 by decide)
    (by decide) 3 (some 4) fun fd => fd < 3
  exact ⟨s₀, hnew, (run_lifetimes hnew).1 (accepting ++ hangup)⟩

end TinyRedis
