import TinyRedis.Proofs.Net.Polled
import TinyRedis.Proofs.Net.Session

/-!
# `TinyRedis.Proofs.Net.Invariant`: what holds at every moment of a run

The invariant of the server process (`Inv`). A connection in `processInput` may have a command in
its input buffer; no other has (`busy`). The handlers of the events still to be delivered exist
(`live`).

* `Serving`: each connection against the record of what happened on it (`Served`).
* `Owned`: the map, the retired list and the descriptors against the connections that exist.
* `Store.Cap`: the store is within its capacity.
* `System.Later`: nothing more happens on a connection that was over in an earlier state.
* `Polled`: what epoll is asked about.

`Health` is what the functions of the code are shown to keep. Beyond the invariant it says what
epoll is asked about, and what has become of the connections that were over in an earlier state. It
says less where less is given (`Frame`): without a valid configuration a command may be undefined,
but every moment that a run gets to is as it should be.

The rules at the end say what the code does to a healthy process in one go: `Health.turn` for a
write to the connection that is attended to, `Health.rearm` for a new mask, `Health.retire` for a
connection that is closed. The functions of the code are sequences of these.
-/

set_option autoImplicit false

namespace TinyRedis

open Lib

variable [EntryPool]

/-- Every connection there has been, against its session. -/
structure Serving (busy : Option ConnId) (heap : ConnId → Option Connection)
    (sessions : ConnId → Session) (nextId : ConnId) : Prop where
  served : ∀ {id c}, heap id = some c → Served (sessions id) c
  settled : ∀ {id c}, heap id = some c → busy ≠ some id → c.Settled
  gone : ∀ {id}, id < nextId → heap id = none → (sessions id).Gone
  fresh : ∀ {id}, nextId ≤ id → heap id = none ∧ sessions id = {}

namespace Serving

variable {busy : Option ConnId} {heap : ConnId → Option Connection}
  {sessions : ConnId → Session} {nextId id : ConnId} {c c' : Connection} {h' : Session}

/-- A connection that exists has an address that was given out. -/
theorem lt_nextId (h : Serving busy heap sessions nextId) (hc : heap id = some c) :
    id < nextId := by
  by_contra hge
  rw [(h.fresh (Nat.le_of_not_lt hge)).1] at hc
  cases hc

/-- Where no connection is busy, none has anything left to parse. -/
theorem rests (h : Serving none heap sessions nextId) (hc : heap id = some c) : c.Settled :=
  h.settled hc (Option.some_ne_none id).symm

/-- A turn of a connection: it and its session change, the others do not. -/
theorem put (h : Serving busy heap sessions nextId) (hc : heap id = some c) (hserved : Served h' c')
    {busy' : Option ConnId} (hbusy : busy' = none ∧ c'.Settled ∨ busy' = some id)
    (hwas : busy = none ∨ busy = some id) :
    Serving busy' (Function.update heap id (some c')) (Function.update sessions id h') nextId where
  -- The record and the connection are written together, so they go on explaining each other.
  served := by
    intro id' d hd
    rcases update_eq_some hd with ⟨rfl, heq⟩ | ⟨hid, hd⟩
    · cases heq
      rw [Function.update_self]
      exact hserved
    · rw [Function.update_of_ne hid]
      exact h.served hd
  settled := by
    intro id' d hd hne
    rcases update_eq_some hd with ⟨rfl, heq⟩ | ⟨hid, hd⟩
    · cases heq
      rcases hbusy with ⟨-, hsettled⟩ | hbusy
      · exact hsettled
      · exact absurd hbusy hne
    · -- Another connection was not the busy one before.
      refine h.settled hd ?_
      rcases hwas with hwas | hwas <;> rw [hwas]
      · exact (Option.some_ne_none id').symm
      · exact fun heq => hid (Option.some.inj heq).symm
  gone := by
    intro id' hlt hnone
    obtain ⟨hid, hnone⟩ := update_eq_none hnone
    rw [Function.update_of_ne hid]
    exact h.gone hlt hnone
  fresh := by
    intro id' hge
    have hid : id' ≠ id := by
      rintro rfl
      exact absurd (h.lt_nextId hc) (Nat.not_lt_of_le hge)
    rw [Function.update_of_ne hid, Function.update_of_ne hid]
    exact h.fresh hge

/-- A new connection starts with an empty session. -/
theorem add (h : Serving none heap sessions nextId) (hserved : Served {} c) (hsettled : c.Settled) :
    Serving none (Function.update heap nextId (some c)) sessions (nextId + 1) where
  served := by
    intro id d hd
    rcases update_eq_some hd with ⟨rfl, heq⟩ | ⟨-, hd⟩
    · cases heq
      rw [(h.fresh (Nat.le_refl _)).2]
      exact hserved
    · exact h.served hd
  settled := by
    intro id d hd hne
    rcases update_eq_some hd with ⟨rfl, heq⟩ | ⟨-, hd⟩
    · cases heq
      exact hsettled
    · exact h.settled hd hne
  gone := by
    intro id hlt hnone
    obtain ⟨hid, hnone⟩ := update_eq_none hnone
    exact h.gone (Nat.lt_of_le_of_ne (Nat.le_of_lt_succ hlt) hid) hnone
  fresh := by
    intro id hge
    rw [Function.update_of_ne (Nat.ne_of_gt (Nat.lt_of_succ_le hge))]
    exact h.fresh (Nat.le_of_succ_le hge)

/-- A closed connection leaves its session behind. -/
theorem destroy (h : Serving none heap sessions nextId) (hc : heap id = some c)
    (hstate : c.state = .kClosed) :
    Serving none (Function.update heap id none) sessions nextId where
  served := by
    intro id' d hd
    rcases update_eq_some hd with ⟨-, heq⟩ | ⟨-, hd⟩
    · cases heq
    · exact h.served hd
  settled := by
    intro id' d hd hne
    rcases update_eq_some hd with ⟨-, heq⟩ | ⟨-, hd⟩
    · cases heq
    · exact h.settled hd hne
  gone := by
    intro id' hlt hnone
    by_cases hid : id' = id
    · subst hid
      exact (h.served hc).gone hstate
    · rw [Function.update_of_ne hid] at hnone
      exact h.gone hlt hnone
  fresh := by
    intro id' hge
    refine ⟨?_, (h.fresh hge).2⟩
    rw [Function.update_apply, (h.fresh hge).1, ite_self]

end Serving

/-- Whether a run that stands at the call may be in `processInput`. -/
def Call.midway : Call → Bool
  | .nowMs => true
  | .processLoop _ => true
  | _ => false

section Invariant

variable (presized : Prop) (b₀ m₀ : Nat)

/-- The invariant of the process. -/
structure Inv (live : List ConnId) (busy : Option ConnId) (s : System) : Prop where
  cap : Store.Cap presized b₀ m₀ s.server.store
  serving : Serving busy s.heap s.sessions s.nextId
  owned : Owned (places s.heap) s.server.connections s.server.retired s.kernel s.server.reserveFd
  live : ∀ id ∈ live, ∃ c, s.heap id = some c

/-- What holds wherever a run can be observed. -/
def Moment (call : Call) (s : System) : Prop :=
  ∃ busy, Inv presized b₀ m₀ [] busy s ∧ (busy ≠ none → call.midway = true)

end Invariant

/-! ### Connections that are over -/

namespace System

/-- The connection is closed, or has been destroyed. -/
def Over (s : System) (id : ConnId) : Prop :=
  id < s.nextId ∧ ∀ c, s.heap id = some c → c.state = .kClosed

/-- A connection that is over stays over, and nothing more happens on it. -/
def Later (s s' : System) : Prop :=
  ∀ id, s.Over id → s'.Over id ∧ s'.sessions id = s.sessions id

namespace Later

variable {s₀ s s' : System} {id : ConnId} {c : Connection}

/-- A state is no earlier than itself. -/
theorem refl (s : System) : Later s s := fun _ hover => ⟨hover, rfl⟩

/-- What is over in the first state is over in the second, and so in the third. -/
theorem trans (h : Later s₀ s) (h' : Later s s') : Later s₀ s' := by
  intro id hover
  obtain ⟨hover', heq⟩ := h id hover
  obtain ⟨hover'', heq'⟩ := h' id hover'
  exact ⟨hover'', heq'.trans heq⟩

/-- A connection that is not over changes. -/
theorem of_open (h : Later s₀ s) (hc : s.heap id = some c) (hopen : c.state ≠ .kClosed)
    {x : Option Connection} {h' : Session} (hheap : s'.heap = Function.update s.heap id x)
    (hsessions : s'.sessions = Function.update s.sessions id h') (hnext : s'.nextId = s.nextId) :
    Later s₀ s' := by
  refine h.trans fun id' hover => ?_
  have hid : id' ≠ id := by
    rintro rfl
    exact hopen (hover.2 c hc)
  refine ⟨⟨hnext.symm ▸ hover.1, fun d hd => ?_⟩, ?_⟩
  · rw [hheap, Function.update_of_ne hid] at hd
    exact hover.2 d hd
  · rw [hsessions, Function.update_of_ne hid]

/-- A connection that is destroyed is over. -/
theorem destroy (h : Later s₀ s) (hheap : s'.heap = Function.update s.heap id none)
    (hsessions : s'.sessions = s.sessions) (hnext : s'.nextId = s.nextId) : Later s₀ s' := by
  refine h.trans fun id' hover => ⟨⟨hnext.symm ▸ hover.1, fun d hd => ?_⟩, by rw [hsessions]⟩
  rw [hheap] at hd
  rcases update_eq_some hd with ⟨-, heq⟩ | ⟨-, hd⟩
  · cases heq
  · exact hover.2 d hd

/-- A new connection has an address that no earlier one had. -/
theorem add (h : Later s₀ s) (hheap : s'.heap = Function.update s.heap s.nextId (some c))
    (hsessions : s'.sessions = s.sessions) (hnext : s'.nextId = s.nextId + 1) : Later s₀ s' := by
  refine h.trans fun id' hover => ⟨⟨?_, fun d hd => ?_⟩, by rw [hsessions]⟩
  · rw [hnext]
    exact Nat.lt_succ_of_lt hover.1
  · rw [hheap, Function.update_of_ne (Nat.ne_of_lt hover.1)] at hd
    exact hover.2 d hd

end Later

end System

/-! ### The state between the steps of the code -/

/-- What the handler at work is doing. -/
inductive Activity where
  | idle
  | parsing (id : ConnId)
  | flushing (id : ConnId)

namespace Activity

/-- The connection that may have a command in its input buffer. -/
def busy : Activity → Option ConnId
  | .parsing id => some id
  | _ => none

/-- The connection that the handler is at work on. -/
def attended : Activity → Option ConnId
  | .idle => none
  | .parsing id => some id
  | .flushing id => some id

/-- No connection but `id` is worked on. -/
def Only (act : Activity) (id : ConnId) : Prop := act.attended = none ∨ act.attended = some id

variable {act : Activity} {id : ConnId}

omit [EntryPool] in
/-- If nothing else is attended to, nothing else is parsed. -/
theorem Only.busy (h : act.Only id) : act.busy = none ∨ act.busy = some id := by
  cases act with
  | idle => exact Or.inl rfl
  | parsing id' => exact h
  | flushing id' => exact Or.inl rfl

end Activity

/-- What is given about a run: whether the configuration of the store is valid, with the numbers of
its capacity invariant, whether the listening socket and the reserve are different descriptors, a
state that the run has passed, and whether accepting has been paused since the last tick. -/
structure Frame where
  valid : Prop
  presized : Prop
  b₀ : Nat
  m₀ : Nat
  distinct : Prop
  base : System
  paused : Prop

/-- What the functions of the code keep. -/
structure Health (f : Frame) (live : List ConnId) (act : Activity) (s : System) : Prop where
  cap : f.valid → Store.Cap f.presized f.b₀ f.m₀ s.server.store
  serving : Serving act.busy s.heap s.sessions s.nextId
  owned : Owned (places s.heap) s.server.connections s.server.retired s.kernel s.server.reserveFd
  live : ∀ id ∈ live, ∃ c, s.heap id = some c
  polled : f.distinct → Polled act.attended s.heap s.kernel s.server.listenFd
    s.server.acceptPaused s.server.reserveFd
  later : f.base.Later s
  paused : f.paused → s.server.acceptPaused = true

/-- A connection that reads, writes or dispatches exists and is not closed. -/
def Call.Ready (s : System) : Call → Prop
  | .read id | .write id | .flushLoop id => ∃ c, s.heap id = some c ∧ c.state ≠ .kClosed
  | .processLoop id => ∃ c, s.heap id = some c ∧ c.state = .kOpen
  | _ => True

/-- What holds wherever a run can be observed. -/
structure Observed (f : Frame) (call : Call) (s : System) : Prop where
  health : ∃ act, Health f [] act s ∧ (act.busy ≠ none → call.midway = true)
  ready : call.Ready s

/-- The program keeps what is given: `Q` where it returns, and what can be observed on the way. -/
abbrev Meets {α : Type} (f : Frame) (x : NetM α) (Q : α → System → Prop) (s : System) : Prop :=
  Exec.wpu (¬ f.valid) x Q (Observed f) s

/-- With a valid configuration, what is observed is a moment of the invariant. -/
theorem Observed.moment {f : Frame} {call : Call} {s : System} (h : Observed f call s)
    (hvalid : f.valid) : Moment f.presized f.b₀ f.m₀ call s := by
  obtain ⟨act, hact, hmidway⟩ := h.health
  exact ⟨act.busy, ⟨hact.cap hvalid, hact.serving, hact.owned, hact.live⟩, hmidway⟩

namespace Health

variable {f : Frame} {live live' : List ConnId} {act act' : Activity} {s s' : System}
  {id : ConnId} {c c' : Connection}

/-- Fewer events may be left to deliver. -/
theorem mono (h : Health f live act s) (hsub : live' ⊆ live) : Health f live' act s :=
  { h with live := fun id hid => h.live id (hsub hid) }

/-- The invariant, with a valid configuration. -/
theorem inv (h : Health f live act s) (hvalid : f.valid) :
    Inv f.presized f.b₀ f.m₀ live act.busy s :=
  ⟨h.cap hvalid, h.serving, h.owned, h.live⟩

/-- What can be observed where no connection is being parsed. -/
theorem observed (h : Health f live act s) (hact : act.busy = none) {call : Call}
    (hready : call.Ready s) : Observed f call s :=
  ⟨⟨act, h.mono (List.nil_subset _), fun hne => absurd hact hne⟩, hready⟩

/-- What can be observed in the middle of `processInput`. -/
theorem observed_midway (h : Health f live act s) {call : Call} (hcall : call.midway = true)
    (hready : call.Ready s) : Observed f call s :=
  ⟨⟨act, h.mono (List.nil_subset _), fun _ => hcall⟩, hready⟩

/-- A handler turns to the output of a connection. -/
theorem attend (h : Health f live .idle s) (id : ConnId) : Health f live (.flushing id) s :=
  { h with polled := fun hd => (h.polled hd).attend id }

/-- A connection that has nothing to parse is not busy. -/
theorem settle (h : Health f live (.parsing id) s) (hc : s.heap id = some c)
    (hsettled : c.Settled) : Health f live (.flushing id) s :=
  { h with serving := { h.serving with
      settled := by
        intro id' d hd _
        by_cases hid : id' = id
        · subst hid
          rw [hc] at hd
          cases hd
          exact hsettled
        · exact h.serving.settled hd (fun heq => hid (Option.some.inj heq).symm) } }

/-- A write to a connection destroys none. -/
theorem live_update (h : Health f live act s) {x : Connection} :
    ∀ id' ∈ live, ∃ c, Function.update s.heap id (some x) id' = some c := by
  intro id' hid'
  by_cases hid : id' = id
  · exact ⟨x, by rw [hid, Function.update_self]⟩
  · rw [Function.update_of_ne hid]
    exact h.live id' hid'

/-- A turn of a connection, which may change the store on the way. -/
theorem turn (h : Health f live act s) (hc : s.heap id = some c) (hopen : c.state ≠ .kClosed)
    {h' : Session} (hheap : s'.heap = Function.update s.heap id (some c'))
    (hsessions : s'.sessions = Function.update s.sessions id h')
    (hserver : s'.server = { s.server with store := s'.server.store })
    (hkernel : s'.kernel = s.kernel) (hnext : s'.nextId = s.nextId)
    (hcap : f.valid → Store.Cap f.presized f.b₀ f.m₀ s'.server.store)
    (hplace : c'.place = c.place) (hinterest : c'.interest = c.interest) (hserved : Served h' c')
    (hwas : act.Only id)
    (hnow : act' = .parsing id ∨
      c'.Settled ∧ (act' = .flushing id ∨ act' = .idle ∧ (f.distinct → c'.Rested))) :
    Health f live act' s' where
  cap := hcap
  -- The new activity says whether the connection may be left with a command in its buffer.
  serving := by
    rw [hheap, hsessions, hnext]
    refine h.serving.put hc hserved ?_ hwas.busy
    rcases hnow with rfl | ⟨hsettled, rfl | ⟨rfl, -⟩⟩
    · exact Or.inr rfl
    · exact Or.inl ⟨rfl, hsettled⟩
    · exact Or.inl ⟨rfl, hsettled⟩
  owned := by
    rw [hheap, hserver, hkernel, places_put hc hplace]
    exact h.owned
  live := by
    rw [hheap]
    exact h.live_update
  polled := by
    intro hd
    rw [hheap, hserver, hkernel]
    refine (h.polled hd).put hc (congrArg Place.fd hplace) hinterest hwas ?_
    -- A connection that is left idle is registered for what it wants.
    rcases hnow with rfl | ⟨-, rfl | ⟨rfl, hrested⟩⟩
    · exact Or.inl rfl
    · exact Or.inl rfl
    · exact Or.inr ⟨rfl, hrested hd⟩
  later := h.later.of_open hc hopen hheap hsessions hnext
  paused := by
    rw [hserver]
    exact h.paused

/-- A connection registers the mask it wants. -/
theorem rearm (h : Health f live (.flushing id) s) (hc : s.heap id = some c)
    (hopen : c.state ≠ .kClosed) (hpending : c.state = .kClosing → c.out.readable ≠ []) :
    Health f live .idle ((s.registered c.fd (some (.connection id, c.wanted))).put id
      { c with interest := c.wanted }) where
  cap := h.cap
  serving := by
    have hserved : Served (s.sessions id) { c with interest := c.wanted } :=
      (h.serving.served hc).congr rfl rfl rfl
    have hsettled := h.serving.rests hc
    have hput := h.serving.put hc hserved (Or.inl ⟨rfl, hsettled⟩) (Or.inl rfl)
    rw [Function.update_eq_self] at hput
    exact hput
  owned := by
    have hplace : Connection.place { c with interest := c.wanted } = c.place := rfl
    show Owned (places (Function.update s.heap id _)) _ _ _ _
    rw [places_put hc hplace]
    refine h.owned.registered ?_ _
    intro id' heq
    cases heq
    exact ⟨c.place, places_eq hc, rfl⟩
  live := h.live_update
  polled := fun hd => (h.polled hd).rearm hc (Or.inr rfl) fun _ => ⟨rfl, hpending⟩
  later := h.later.of_open hc hopen rfl (Function.update_eq_self ..).symm rfl
  paused := h.paused

/-- A connection is closed and retired. -/
theorem retire (h : Health f live act s) (hact : act.busy = none) (hwas : act.Only id)
    (hc : s.heap id = some c) (hopen : c.state ≠ .kClosed)
    (hserved : Served (s.sessions id) { c with state := .kClosed }) :
    Health f live .idle { s.put id { c with state := .kClosed } with
      server.retired := s.server.retired ++ [id]
      server.connections := Function.update s.server.connections c.fd none } where
  cap := h.cap
  serving := by
    have hput := h.serving.put hc hserved (Or.inl ⟨rfl, fun heq => by cases heq⟩)
      (Or.inl hact)
    rw [Function.update_eq_self] at hput
    exact hput
  owned := by
    show Owned (places (Function.update s.heap id _)) _ _ _ _
    rw [places_update]
    have hplace : places s.heap id = some ⟨c.fd, false⟩ := by
      rw [places_eq hc, Connection.place, decide_eq_false hopen]
    exact h.owned.retire hplace
  live := h.live_update
  polled := fun hd => (h.polled hd).put hc rfl rfl hwas
    (Or.inr ⟨rfl, fun hne => absurd rfl hne⟩)
  later := h.later.of_open hc hopen rfl (Function.update_eq_self ..).symm rfl
  paused := h.paused

end Health

end TinyRedis
