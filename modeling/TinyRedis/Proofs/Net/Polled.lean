import TinyRedis.Net.Connection
import TinyRedis.Proofs.Net.Owned

/-!
# `TinyRedis.Proofs.Net.Polled`: what epoll is asked about

The interest list against the process. Every existing connection stands in it under its own
descriptor, with the mask that the connection believes in, and so does the listening socket, with a
mask that says whether accepting is paused. A connection that no handler is at work on asks for
exactly what it waits for (`Rested`).

* `Polled`: all of that, with the connection that is attended to left out of the last part.
* `Polled.fd_ne`, `fd_inj`: an entry of the interest list belongs to one handler, so descriptors are
  distinct.
* `Polled.put`, `rearm`: a write to a connection, and a new mask for it.
* `Polled.add`, `closed`, `destroy`, `opened`: connections and descriptors come and go.
* `Polled.listen`, `reserved`: the listener is registered anew, and the reserve exchanged.

The rest of the invariant does not need this, and does not need what this needs: that the reserve
and the listening socket are two descriptors.
-/

set_option autoImplicit false

namespace TinyRedis

/-- The mask is what the state and the output buffer ask for, and a connection that is closing has
something left to write. -/
def Connection.Rested (c : Connection) : Prop :=
  c.state ≠ .kClosed → c.interest = c.wanted ∧ (c.state = .kClosing → c.out.readable ≠ [])

/-- The mask of the listening socket. -/
def listenMask (paused : Bool) : UInt32 := if paused then 0 else EPOLLIN

/-- The interest list. A handler is at work on the connection `attended`. -/
structure Polled (attended : Option ConnId) (heap : ConnId → Option Connection) (kernel : Kernel)
    (listenFd : Fd) (paused : Bool) (reserveFd : Option Fd) : Prop where
  entry : ∀ {id c}, heap id = some c → kernel.epoll c.fd = some (.connection id, c.interest)
  rested : ∀ {id c}, heap id = some c → attended ≠ some id → c.Rested
  listener : kernel.epoll listenFd = some (.acceptor, listenMask paused)
  isOpen : kernel.isOpen listenFd = true
  ne_reserve : reserveFd ≠ some listenFd

namespace Polled

variable {attended attended' : Option ConnId} {heap : ConnId → Option Connection} {kernel : Kernel}
  {listenFd : Fd} {paused : Bool} {reserveFd : Option Fd} {id : ConnId} {c c' : Connection}
  {fd : Fd}

/-- No connection has the descriptor of the listening socket. -/
theorem fd_ne (h : Polled attended heap kernel listenFd paused reserveFd) (hc : heap id = some c) :
    c.fd ≠ listenFd := by
  intro heq
  have hentry := h.entry hc
  rw [heq, h.listener] at hentry
  cases hentry

/-- Two connections do not have the same descriptor. -/
theorem fd_inj (h : Polled attended heap kernel listenFd paused reserveFd) (hc : heap id = some c)
    {id' : ConnId} (hc' : heap id' = some c') (hfd : c'.fd = c.fd) : id' = id := by
  have hentry := h.entry hc'
  rw [hfd, h.entry hc] at hentry
  exact (Handler.connection.inj (congrArg Prod.fst (Option.some.inj hentry))).symm

/-- A handler turns to the connection `id`. -/
theorem attend (h : Polled none heap kernel listenFd paused reserveFd) (id : ConnId) :
    Polled (some id) heap kernel listenFd paused reserveFd :=
  { h with rested := fun hc _ => h.rested hc (Option.some_ne_none _).symm }

/-- A turn of a connection that keeps its descriptor and its mask. -/
theorem put (h : Polled attended heap kernel listenFd paused reserveFd) (hc : heap id = some c)
    (hfd : c'.fd = c.fd) (hinterest : c'.interest = c.interest)
    (hwas : attended = none ∨ attended = some id)
    (hnow : attended' = some id ∨ attended' = none ∧ c'.Rested) :
    Polled attended' (Function.update heap id (some c')) kernel listenFd paused reserveFd :=
  { h with
    entry := by
      intro id' d hd
      rcases update_eq_some hd with ⟨rfl, heq⟩ | ⟨-, hd⟩
      · cases heq
        rw [hfd, hinterest]
        exact h.entry hc
      · exact h.entry hd
    rested := by
      intro id' d hd hne
      rcases update_eq_some hd with ⟨rfl, heq⟩ | ⟨hid, hd⟩
      · cases heq
        rcases hnow with hnow | ⟨-, hrested⟩
        · exact absurd hnow hne
        · exact hrested
      · -- Another connection was not attended to before.
        refine h.rested hd ?_
        rcases hwas with hwas | hwas <;> rw [hwas]
        · exact (Option.some_ne_none id').symm
        · exact fun heq => hid (Option.some.inj heq).symm }

/-- A connection registers a new mask. -/
theorem rearm (h : Polled attended heap kernel listenFd paused reserveFd) (hc : heap id = some c)
    (hwas : attended = none ∨ attended = some id) {mask : UInt32}
    (hrested : Connection.Rested { c with interest := mask }) :
    Polled none (Function.update heap id (some { c with interest := mask }))
      { kernel with epoll := Function.update kernel.epoll c.fd (some (.connection id, mask)) }
      listenFd paused reserveFd where
  entry := by
    intro id' d hd
    rcases update_eq_some hd with ⟨rfl, heq⟩ | ⟨hid, hd⟩
    · cases heq
      exact Function.update_self ..
    · have hne : d.fd ≠ c.fd := fun heq => hid (h.fd_inj hc hd heq)
      simp only [Function.update_of_ne hne]
      exact h.entry hd
  rested := by
    intro id' d hd _
    rcases update_eq_some hd with ⟨-, heq⟩ | ⟨hid, hd⟩
    · cases heq
      exact hrested
    · refine h.rested hd ?_
      rcases hwas with hwas | hwas <;> rw [hwas]
      · exact (Option.some_ne_none id').symm
      · exact fun heq => hid (Option.some.inj heq).symm
  listener := by
    simp only [Function.update_of_ne (h.fd_ne hc).symm]
    exact h.listener
  isOpen := h.isOpen
  ne_reserve := h.ne_reserve

/-- A new connection registers under a descriptor that is nobody's. -/
theorem add (h : Polled none heap kernel listenFd paused reserveFd)
    (hfd : ∀ {id d}, heap id = some d → d.fd ≠ c.fd) (hlisten : c.fd ≠ listenFd)
    (hrested : c.Rested) (id : ConnId) :
    Polled none (Function.update heap id (some c))
      { kernel with epoll := Function.update kernel.epoll c.fd (some (.connection id, c.interest)) }
      listenFd paused reserveFd where
  entry := by
    intro id' d hd
    rcases update_eq_some hd with ⟨rfl, heq⟩ | ⟨-, hd⟩
    · cases heq
      exact Function.update_self ..
    · simp only [Function.update_of_ne (hfd hd)]
      exact h.entry hd
  rested := by
    intro id' d hd hne
    rcases update_eq_some hd with ⟨-, heq⟩ | ⟨-, hd⟩
    · cases heq
      exact hrested
    · exact h.rested hd hne
  listener := by
    simp only [Function.update_of_ne hlisten.symm]
    exact h.listener
  isOpen := h.isOpen
  ne_reserve := h.ne_reserve

/-- A descriptor that is neither a connection's nor the listening socket's is closed. -/
theorem closed (h : Polled attended heap kernel listenFd paused reserveFd)
    (hfd : ∀ {id c}, heap id = some c → c.fd ≠ fd) (hlisten : fd ≠ listenFd) :
    Polled attended heap
      { isOpen := Function.update kernel.isOpen fd false
        epoll := Function.update kernel.epoll fd none } listenFd paused reserveFd where
  entry := by
    intro id c hc
    simp only [Function.update_of_ne (hfd hc)]
    exact h.entry hc
  rested := h.rested
  listener := by
    simp only [Function.update_of_ne hlisten.symm]
    exact h.listener
  isOpen := by
    simp only [Function.update_of_ne hlisten.symm]
    exact h.isOpen
  ne_reserve := h.ne_reserve

/-- A connection is destroyed, and its descriptor closed. -/
theorem destroy (h : Polled attended heap kernel listenFd paused reserveFd)
    (hc : heap id = some c) :
    Polled attended (Function.update heap id none)
      { isOpen := Function.update kernel.isOpen c.fd false
        epoll := Function.update kernel.epoll c.fd none } listenFd paused reserveFd := by
  have hrest : ∀ {id' d}, Function.update heap id none id' = some d →
      heap id' = some d ∧ d.fd ≠ c.fd := by
    intro id' d hd
    rcases update_eq_some hd with ⟨-, heq⟩ | ⟨hid, hd⟩
    · cases heq
    · exact ⟨hd, fun heq => hid (h.fd_inj hc hd heq)⟩
  have hgone : Polled attended (Function.update heap id none) kernel listenFd paused reserveFd :=
    { h with
      entry := fun hd => h.entry (hrest hd).1
      rested := fun hd => h.rested (hrest hd).1 }
  exact hgone.closed (fun hd => (hrest hd).2) (h.fd_ne hc)

/-- The kernel opens a descriptor. -/
theorem opened (h : Polled attended heap kernel listenFd paused reserveFd) (fd : Fd) :
    Polled attended heap { kernel with isOpen := Function.update kernel.isOpen fd true }
      listenFd paused reserveFd :=
  { h with
    isOpen := by
      simp only [Function.update_apply]
      split
      · rfl
      · exact h.isOpen }

/-- The listening socket registers a new mask. -/
theorem listen (h : Polled attended heap kernel listenFd paused reserveFd) {paused' : Bool}
    {mask : UInt32} (hmask : mask = listenMask paused') :
    Polled attended heap
      { kernel with epoll := Function.update kernel.epoll listenFd (some (.acceptor, mask)) }
      listenFd paused' reserveFd :=
  { h with
    entry := by
      intro id c hc
      simp only [Function.update_of_ne (h.fd_ne hc)]
      exact h.entry hc
    listener := by
      rw [← hmask]
      exact Function.update_self .. }

/-- The reserve becomes another descriptor. -/
theorem reserved (h : Polled attended heap kernel listenFd paused reserveFd) {new : Option Fd}
    (hnew : new ≠ some listenFd) : Polled attended heap kernel listenFd paused new :=
  { h with ne_reserve := hnew }

end Polled

end TinyRedis
