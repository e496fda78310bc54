import TinyRedis.Net.System

/-!
# `TinyRedis.Proofs.Net.Owned`: who owns which connection, and under which descriptor

An existing connection is owned by `connections_`, under its own descriptor, until it is closed, and
by `retired_` from then on. Its descriptor stays open for as long as it exists, so the kernel cannot
give it to another one, and epoll reports events only to existing connections.

All that matters of a connection here is its `Place`.

* `Owned`: the map, the retired list, the open descriptors, the interest list and the reserve, each
  against the places of the connections.
* `Owned.retire`, `add`, `destroy`: the three things that happen to a place.
* `Owned.opened`, `closed`, `registered`: the three things that happen to the kernel.
* `Owned.unreserved`, `reserved`: the reserve is given up, or taken.

`Owned.retire` is where the look-up by descriptor in `Server::retire` finds the connection that
asked for it: the map has under a descriptor the one open connection with that descriptor.
-/

set_option autoImplicit false

namespace TinyRedis

/-- The descriptor of a connection, and whether it is closed. -/
structure Place where
  fd : Fd
  closed : Bool

/-- The place of a connection: its descriptor, and whether it is closed. -/
def Connection.place (c : Connection) : Place := { fd := c.fd, closed := c.state = .kClosed }

/-- The places of the existing connections. -/
def places (heap : ConnId → Option Connection) (id : ConnId) : Option Place :=
  (heap id).map Connection.place

/-- The existing connections, against the server and the kernel. -/
structure Owned (places : ConnId → Option Place) (connections : Fd → Option ConnId)
    (retired : List ConnId) (kernel : Kernel) (reserveFd : Option Fd) : Prop where
  connections_iff : ∀ {fd id}, connections fd = some id ↔ places id = some ⟨fd, false⟩
  mem_retired : ∀ {id}, id ∈ retired ↔ ∃ fd, places id = some ⟨fd, true⟩
  nodup : retired.Nodup
  fd_inj : ∀ {id id' p p'}, places id = some p → places id' = some p' → p.fd = p'.fd → id = id'
  isOpen : ∀ {id p}, places id = some p → kernel.isOpen p.fd = true
  handler : ∀ {fd id mask}, kernel.epoll fd = some (.connection id, mask) →
    ∃ p, places id = some p ∧ p.fd = fd
  reserve : ∀ {fd}, reserveFd = some fd →
    kernel.isOpen fd = true ∧ ∀ {id p}, places id = some p → p.fd ≠ fd

/-! ### Places -/

section Places

variable {heap : ConnId → Option Connection} {id id' : ConnId} {c c' : Connection}

/-- A connection that is found after a write to the heap is the one written, or was there. -/
theorem update_eq_some {x : Option Connection} (hc : Function.update heap id x id' = some c) :
    id' = id ∧ x = some c ∨ id' ≠ id ∧ heap id' = some c := by
  by_cases hid : id' = id
  · subst hid
    rw [Function.update_self] at hc
    exact Or.inl ⟨rfl, hc⟩
  · rw [Function.update_of_ne hid] at hc
    exact Or.inr ⟨hid, hc⟩

/-- A connection that is not found after a write of one was not found before. -/
theorem update_eq_none (hnone : Function.update heap id (some c) id' = none) :
    id' ≠ id ∧ heap id' = none := by
  by_cases hid : id' = id
  · subst hid
    rw [Function.update_self] at hnone
    cases hnone
  · rw [Function.update_of_ne hid] at hnone
    exact ⟨hid, hnone⟩

/-- The place of a connection that exists. -/
theorem places_eq (hc : heap id = some c) : places heap id = some c.place := by
  rw [places, hc]
  rfl

/-- Writing a connection writes its place. -/
theorem places_update (x : Option Connection) :
    places (Function.update heap id x)
      = Function.update (places heap) id (x.map Connection.place) := by
  funext id'
  by_cases hid : id' = id
  · subst hid
    simp [places]
  · simp [places, Function.update_of_ne hid]

/-- A write that keeps the descriptor and the closedness. -/
theorem places_put (hc : heap id = some c) (hplace : c'.place = c.place) :
    places (Function.update heap id (some c')) = places heap := by
  rw [places_update, Option.map_some, hplace, ← places_eq hc, Function.update_eq_self]

end Places

namespace Owned

variable {places : ConnId → Option Place} {connections : Fd → Option ConnId}
  {retired : List ConnId} {kernel : Kernel} {reserveFd : Option Fd} {id : ConnId} {fd : Fd}

/-- `retire` finds the very connection that calls it, and moves it. -/
theorem retire (h : Owned places connections retired kernel reserveFd)
    (hp : places id = some ⟨fd, false⟩) :
    Owned (Function.update places id (some ⟨fd, true⟩)) (Function.update connections fd none)
      (retired ++ [id]) kernel reserveFd := by
  have hnot : id ∉ retired := by
    intro hmem
    obtain ⟨fd', hp'⟩ := h.mem_retired.mp hmem
    rw [hp] at hp'
    cases hp'
  obtain ⟨hconn, hretired, hnodup, hinj, hopen, hhandler, hreserve⟩ := h
  constructor
  case nodup => exact List.nodup_append.mpr ⟨hnodup, by simp, by grind⟩
  case mem_retired =>
    intro id'
    by_cases hid : id' = id
    · simp [hid]
    · simp [hid, hretired]
  all_goals simp only [Function.update_apply]; grind

/-- A new connection, under a descriptor that no other connection has. -/
theorem add (h : Owned places connections retired kernel reserveFd) (hnew : places id = none)
    (hfd : ∀ {id p}, places id = some p → p.fd ≠ fd) (hisOpen : kernel.isOpen fd = true)
    (hreserve : reserveFd ≠ some fd) (mask : UInt32) :
    Owned (Function.update places id (some ⟨fd, false⟩)) (Function.update connections fd (some id))
      retired { kernel with epoll := Function.update kernel.epoll fd (some (.connection id, mask)) }
      reserveFd := by
  obtain ⟨hconn, hretired, hnodup, hinj, hopen, hhandler, hreserve'⟩ := h
  constructor
  case nodup => exact hnodup
  case handler =>
    intro fd' id' mask' hentry
    by_cases hfd' : fd' = fd
    · subst hfd'
      simp only [Function.update_self, Option.some.injEq, Prod.mk.injEq,
        Handler.connection.injEq] at hentry
      obtain ⟨rfl, -⟩ := hentry
      exact ⟨⟨fd', false⟩, Function.update_self .., rfl⟩
    · simp only [Function.update_of_ne hfd'] at hentry
      obtain ⟨p, hp, hpfd⟩ := hhandler hentry
      have hid : id' ≠ id := by
        rintro rfl
        rw [hnew] at hp
        cases hp
      exact ⟨p, by rw [Function.update_of_ne hid]; exact hp, hpfd⟩
  all_goals simp only [Function.update_apply]; grind

/-- The end of a retired connection. Its descriptor is closed, and leaves the interest list. -/
theorem destroy (h : Owned places connections (id :: retired) kernel reserveFd)
    (hp : places id = some ⟨fd, true⟩) :
    Owned (Function.update places id none) connections retired
      { isOpen := Function.update kernel.isOpen fd false
        epoll := Function.update kernel.epoll fd none } reserveFd := by
  obtain ⟨hconn, hretired, hnodup, hinj, hopen, hhandler, hreserve⟩ := h
  obtain ⟨hnot, hnodup⟩ := List.nodup_cons.mp hnodup
  constructor
  case nodup => exact hnodup
  case mem_retired =>
    intro id'
    by_cases hid : id' = id
    · simp [hid, hnot]
    · have hretired' : id' ∈ id :: retired ↔ _ := hretired
      simpa [hid] using hretired'
  all_goals simp only [Function.update_apply]; grind

/-- The kernel opens a descriptor. -/
theorem opened (h : Owned places connections retired kernel reserveFd) (fd : Fd) :
    Owned places connections retired
      { kernel with isOpen := Function.update kernel.isOpen fd true } reserveFd := by
  have hisOpen : ∀ fd', kernel.isOpen fd' = true →
      Function.update kernel.isOpen fd true fd' = true := by
    intro fd' hfd'
    by_cases heq : fd' = fd
    · simp [heq]
    · rwa [Function.update_of_ne heq]
  exact { h with
    isOpen := fun hp => hisOpen _ (h.isOpen hp)
    reserve := fun hfd => ⟨hisOpen _ (h.reserve hfd).1, (h.reserve hfd).2⟩ }

/-- A descriptor that is neither a connection's nor the reserve is closed. -/
theorem closed (h : Owned places connections retired kernel reserveFd)
    (hfd : ∀ {id p}, places id = some p → p.fd ≠ fd) (hreserve : reserveFd ≠ some fd) :
    Owned places connections retired
      { isOpen := Function.update kernel.isOpen fd false
        epoll := Function.update kernel.epoll fd none } reserveFd := by
  have hisOpen : ∀ fd', fd' ≠ fd → kernel.isOpen fd' = true →
      Function.update kernel.isOpen fd false fd' = true := by
    intro fd' hne hfd'
    rwa [Function.update_of_ne hne]
  exact { h with
    isOpen := fun hp => hisOpen _ (hfd hp) (h.isOpen hp)
    handler := by
      intro fd' id mask hentry
      simp only [Function.update_apply] at hentry
      split at hentry
      · cases hentry
      · exact h.handler hentry
    reserve := fun {fd'} hfd' => by
      refine ⟨hisOpen _ ?_ (h.reserve hfd').1, (h.reserve hfd').2⟩
      rintro rfl
      exact hreserve hfd' }

/-- A new mask for a handler under its own descriptor. -/
theorem registered (h : Owned places connections retired kernel reserveFd) {handler : Handler}
    (hhandler : ∀ id, handler = .connection id → ∃ p, places id = some p ∧ p.fd = fd)
    (mask : UInt32) :
    Owned places connections retired
      { kernel with epoll := Function.update kernel.epoll fd (some (handler, mask)) }
      reserveFd :=
  { h with
    handler := by
      intro fd' id mask' hentry
      simp only [Function.update_apply] at hentry
      split at hentry
      · next heq =>
        rw [heq]
        exact hhandler id (congrArg Prod.fst (Option.some.inj hentry))
      · exact h.handler hentry }

/-- The reserve is given up. -/
theorem unreserved (h : Owned places connections retired kernel reserveFd) :
    Owned places connections retired kernel none :=
  ⟨h.connections_iff, h.mem_retired, h.nodup, h.fd_inj, h.isOpen, h.handler, nofun⟩

/-- An open descriptor that is no connection's becomes the reserve. -/
theorem reserved (h : Owned places connections retired kernel reserveFd)
    (hisOpen : kernel.isOpen fd = true) (hfd : ∀ {id p}, places id = some p → p.fd ≠ fd) :
    Owned places connections retired kernel (some fd) :=
  ⟨h.connections_iff, h.mem_retired, h.nodup, h.fd_inj, h.isOpen, h.handler, by
    intro fd' heq
    cases heq
    exact ⟨hisOpen, hfd⟩⟩

end Owned

end TinyRedis
