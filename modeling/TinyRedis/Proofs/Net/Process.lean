import TinyRedis.Net.Process
import TinyRedis.Proofs.Net.Descriptors
import TinyRedis.Proofs.Net.Reference

/-!
# `TinyRedis.Proofs.Net.Process`: the process gives back every descriptor

`main_accounted` is about the whole program: its arguments, the construction of the server with
every way in which it can fail, the run, and the end of the server after the run or after an
exception.

A constructor that throws closes what it has opened. One that does not leaves a server as
`Server.new` describes it, so what is shown of the runs from there holds of the process. While it
runs, every open descriptor has one owner. `~Server()` destroys the owners one after another, and
when the process exits it holds the descriptors that it started with, and no others.

* `openListener_spec`, `Acceptor.construct_spec`, `Server.construct_spec`: from the descriptors that
  the process holds to a server with its own, or back.
* `Server.assemble_spec`: the server that is built is the one that `Server.new` describes.
* `Server.Leaving`: what is left while the connections are destroyed one by one.
* `Server.destroy_closes`, `Server.serve_spec`: the end of the server, in any order of its map.
* `Process.Accounted`: what is said of each way in which the process can be found.

`main` can be found in a state that the source does not define, and `Accounted` says when not. With
a valid configuration no call of the model is undefined, and where the clock has read 500 or more no
signed operation of the source has overflowed either (`System.NoOverflow`), at any moment.
-/

set_option autoImplicit false

namespace TinyRedis

open Lib Exec

/-! ### Construction -/

section Boot

variable {α : Type} {U : Prop} {k : Kernel} {fd : Fd}

/-- A call that opens a descriptor fails, or answers with one that was not open. -/
theorem wpu_openFd {call : BootCall} {answer : BootAnswers → Except Errno Fd}
    {g : Except Errno Fd → BootM α} {Q : α → Kernel → Prop} {C : BootCall → Kernel → Prop}
    (hC : C call k) (herror : ∀ e, wpu U (g (.error e)) Q C k)
    (hok : ∀ fd, k.isOpen fd = false → wpu U (g (.ok fd)) Q C (k.opened fd)) :
    wpu U (openFd call answer >>= g) Q C k := by
  refine wpu_bind (wpu_get_bind (wpu_ask_bind hC fun _ r hr => ?_))
  cases r with
  | error e => exact wpu_pure (herror e)
  | ok fd =>
    obtain ⟨fd', hfd'⟩ := granted_ok hr
    refine wpu_modify_bind (wpu_pure (hok fd ?_))
    unfold Kernel.vacant at hfd'
    split at hfd'
    · cases hfd'
    · next hclosed =>
      cases hfd'
      simpa using hclosed

/-- A new socket stays open if every call on it succeeds, and is closed otherwise. -/
theorem configure_spec {Q : Except Fault Fd → Kernel → Prop} {C : BootCall → Kernel → Prop}
    (hC : ∀ call, C call k) (hok : Q (.ok fd) k) (herror : ∀ e, Q (.error e) (k.closed fd)) :
    ∀ calls, wpu U (configure fd calls) Q C k
  | [] => wpu_pure hok
  | (call, answer) :: calls => by
    refine wpu_ask_bind (hC call) fun _ r _ => ?_
    cases r with
    | error e => exact wpu_modify_bind (wpu_pure (herror _))
    | ok _ => exact configure_spec hC hok herror calls

/-- What has been opened since is closed again. -/
theorem Kernel.closed_opened {held : Fd → Bool} (h : k.isOpen = held) (hfd : held fd = false) :
    ((k.opened fd).closed fd).isOpen = held := by
  show Function.update (Function.update k.isOpen fd true) fd false = held
  rw [Function.update_idem, h, ← hfd, Function.update_eq_self]

/-- The descriptors `held` are open. -/
def Kernel.Keeps (held : Fd → Bool) (k : Kernel) : Prop := ∀ fd, held fd = true → k.isOpen fd = true

/-- Opening a descriptor keeps those that are open. -/
theorem Kernel.Keeps.opened {held : Fd → Bool} (h : k.Keeps held) (fd : Fd) :
    (k.opened fd).Keeps held := by
  intro fd' hfd'
  by_cases heq : fd' = fd
  · subst heq
    exact Function.update_self ..
  · exact (Function.update_of_ne heq ..).trans (h fd' hfd')

/-- Who keeps more keeps less. -/
theorem Kernel.Keeps.of_update {held : Fd → Bool} (h : k.Keeps (Function.update held fd true)) :
    k.Keeps held := by
  intro fd' hfd'
  refine h fd' ?_
  rw [Function.update_apply, hfd', ite_self]

variable {held : Fd → Bool}

/-- The listening socket, or an exception that leaves nothing open. -/
theorem openListener_spec (hopen : k.isOpen = held) :
    wpu U openListener (fun r k' => match r with
      | .error _ => k'.isOpen = held
      | .ok listenFd => held listenFd = false ∧ k' = k.opened listenFd)
      (fun _ => Kernel.Keeps held) k := by
  have hkeeps : k.Keeps held := fun fd hfd => by rw [hopen, hfd]
  refine wpu_ask_bind hkeeps fun _ valid _ => ?_
  split
  · refine wpu_openFd hkeeps (fun e => wpu_pure hopen) fun fd hfd => ?_
    rw [hopen] at hfd
    exact configure_spec (fun _ => hkeeps.opened fd) ⟨hfd, rfl⟩
      (fun _ => Kernel.closed_opened hopen hfd) _
  · exact wpu_pure hopen

/-- A listener that could not be registered is closed again. -/
theorem Acceptor.construct_spec (hopen : k.isOpen = held) :
    wpu U Acceptor.construct (fun r k' => match r with
      | .error _ => k'.isOpen = held
      | .ok listenFd => held listenFd = false ∧
          k' = (k.opened listenFd).registered listenFd (some (.acceptor, EPOLLIN)))
      (fun _ => Kernel.Keeps held) k := by
  have hkeeps : k.Keeps held := fun fd hfd => by rw [hopen, hfd]
  refine wpu_seq (openListener_spec hopen) fun r k' hk' => ?_
  cases r with
  | error e => exact wpu_pure hk'
  | ok listenFd =>
    obtain ⟨hfd, rfl⟩ := hk'
    refine wpu_ask_bind (hkeeps.opened listenFd) fun _ r _ => ?_
    cases r with
    | error e => exact wpu_modify_bind (wpu_pure (Kernel.closed_opened hopen hfd))
    | ok _ => exact wpu_modify_bind (wpu_pure ⟨hfd, rfl⟩)

end Boot

variable [EntryPool]

/-! ### The ledger of a new server -/

/-- The descriptors of a new server, beside those that the process holds. -/
theorem Server.new_booked {cfg : Config} {rd : UInt64} {listenFd : Fd} {reserveFd : Option Fd}
    {held : Fd → Bool} {s₀ : System} (hnew : Server.new cfg rd listenFd reserveFd held = some s₀)
    (hlisten : held listenFd = false)
    (hreserve : ∀ fd, reserveFd = some fd → fd ≠ listenFd ∧ held fd = false) :
    Booked held none s₀.fds := by
  obtain ⟨store, -, hs₀⟩ := Option.bind_eq_some_iff.mp hnew
  cases hs₀
  refine ⟨⟨fun fd => ?_, ?_⟩, fun _ _ => rfl⟩
  · show decide _ = true ↔ _
    rw [decide_eq_true_iff]
    constructor
    · rintro (rfl | hr | hheld)
      · exact ⟨.listener, rfl⟩
      · exact ⟨.reserve, hr.symm⟩
      · exact ⟨.process, hheld⟩
    · rintro ⟨_ | _ | _ | _ | id, howns⟩
      · exact Or.inr (Or.inr howns)
      · exact Or.inl howns.symm
      · exact Or.inr (Or.inl howns.symm)
      · cases howns
      · cases howns
  · rintro (_ | _ | _ | _ | id) (_ | _ | _ | _ | id') fd howns howns' <;>
      simp only [Fds.Holds, System.fds] at howns howns' <;> grind

namespace Server

/-- What is assembled is a new server, if the acceptor stands in the kernel and the reserve is what
the kernel opened last. -/
theorem assemble_spec {cfg : Config} {rd : UInt64} {store : Store} {listenFd : Fd}
    {reserveFd : Option Fd} {held : Fd → Bool} {k : Kernel}
    (hstore : Store.new cfg.store rd = some store) (hlisten : held listenFd = false)
    (hopen : k.isOpen = Function.update held listenFd true)
    (hepoll : k.epoll = fun fd => if fd = listenFd then some (.acceptor, EPOLLIN) else none)
    (hvacant : ∀ fd, reserveFd = some fd → k.isOpen fd = false) :
    ∃ listenFd' reserveFd', Server.new cfg rd listenFd' reserveFd' held
        = some (assemble cfg store listenFd reserveFd (reserveFd.elim k k.opened)) ∧
      Booked held none (assemble cfg store listenFd reserveFd (reserveFd.elim k k.opened)).fds := by
  -- The reserve was not open, so it is none of the others.
  have hreserve : ∀ fd, reserveFd = some fd → fd ≠ listenFd ∧ held fd = false := by
    intro fd hfd
    have hclosed := hvacant fd hfd
    rw [hopen, Function.update_apply] at hclosed
    split at hclosed
    · cases hclosed
    · next hne => exact ⟨hne, hclosed⟩
  have hopen' : (reserveFd.elim k k.opened).isOpen
      = fun fd => decide (fd = listenFd ∨ some fd = reserveFd ∨ held fd) := by
    funext fd
    cases reserveFd <;>
      simp only [Option.elim, Kernel.opened, hopen, Function.update_apply] <;> grind
  have hepoll' : (reserveFd.elim k k.opened).epoll = k.epoll := by cases reserveFd <;> rfl
  have hnew : Server.new cfg rd listenFd reserveFd held
      = some (assemble cfg store listenFd reserveFd (reserveFd.elim k k.opened)) := by
    rw [Server.new, hstore, Option.bind_eq_bind, Option.bind_some, assemble, ← hopen', ← hepoll,
      ← hepoll']
    rfl
  exact ⟨listenFd, reserveFd, hnew, new_booked hnew hlisten hreserve⟩

/-- A constructor that returns leaves a new server, and one that throws leaves nothing open. -/
theorem construct_spec (cfg : Config) (rd : UInt64) {held : Fd → Bool} {k : Kernel}
    (hopen : k.isOpen = held) (hepoll : k.epoll = fun _ => none) :
    wpu (Store.new cfg.store rd = none) (construct cfg rd) (fun r k' => match r with
      | .error _ => k'.isOpen = held
      | .ok (epollFd, s) => held epollFd = false ∧ ∃ listenFd reserveFd,
          Server.new cfg rd listenFd reserveFd (Function.update held epollFd true) = some s ∧
          Booked (Function.update held epollFd true) none s.fds)
      (fun _ => Kernel.Keeps held) k := by
  have hkeeps : k.Keeps held := fun fd hfd => by rw [hopen, hfd]
  refine wpu_defined_unless_bind id fun store hstore => ?_
  refine wpu_openFd hkeeps (fun e => wpu_pure hopen) fun epollFd hfd => ?_
  rw [hopen] at hfd
  have hopen₁ : (k.opened epollFd).isOpen = Function.update held epollFd true := by
    rw [← hopen]
    rfl
  refine wpu_seq (wpu_imp (Acceptor.construct_spec hopen₁) (fun _ _ h => h)
    fun _ _ hk' => hk'.of_update) fun r k' hk' => ?_
  -- Without a listener the epoll instance is closed again, and nothing is left of the server.
  cases r with
  | error e =>
    refine wpu_modify_bind (wpu_pure ?_)
    show Function.update k'.isOpen epollFd false = held
    rw [show k'.isOpen = _ from hk', Function.update_idem, ← hfd, Function.update_eq_self]
  | ok listenFd =>
    obtain ⟨hlisten, rfl⟩ := hk'
    let k₂ := ((k.opened epollFd).opened listenFd).registered listenFd (some (.acceptor, EPOLLIN))
    have hopen₂ : k₂.isOpen
        = Function.update (Function.update held epollFd true) listenFd true := by
      rw [← hopen₁]
      rfl
    have hepoll₂ : k₂.epoll
        = fun fd => if fd = listenFd then some (.acceptor, EPOLLIN) else none := by
      funext fd
      show Function.update k.epoll listenFd _ fd = _
      rw [hepoll, Function.update_apply]
    have hkeeps₂ : k₂.Keeps (Function.update held epollFd true) := by
      intro fd hheld
      rw [hopen₂, Function.update_apply, hheld, ite_self]
    -- The server is the same with and without a reserve, up to that descriptor.
    refine wpu_openFd hkeeps₂.of_update (fun e => wpu_get_bind (wpu_pure ⟨hfd, ?_⟩))
      fun spare hspare => wpu_get_bind (wpu_pure ⟨hfd, ?_⟩)
    · exact assemble_spec hstore hlisten hopen₂ hepoll₂ nofun
    · have hvacant : ∀ fd, some spare = some fd → k₂.isOpen fd = false := by
        rintro _ ⟨⟩
        exact hspare
      exact assemble_spec hstore hlisten hopen₂ hepoll₂ hvacant

/-! ### The end of the server -/

/-- The connections `todo` are left, and nothing is in hand. -/
structure Leaving (held : Fd → Bool) (v : Server) (todo : List ConnId) (s : System) : Prop where
  booked : Booked held none s.fds
  server : s.server = v
  nodup : todo.Nodup
  mem_todo : ∀ id, id ∈ todo ↔ (s.heap id).isSome

variable {held : Fd → Bool} {v : Server} {s : System} {U : Prop} {C : Call → System → Prop}

/-- A connection that is destroyed gives back its descriptor, and the rest is still to do. -/
theorem Leaving.destroy {id : ConnId} {todo : List ConnId} (h : Leaving held v (id :: todo) s) :
    wpu U (Connection.destroy id) (fun _ => Leaving held v todo) C s := by
  obtain ⟨c, hc⟩ := Option.isSome_iff_exists.mp ((h.mem_todo id).mp List.mem_cons_self)
  obtain ⟨hnot, hnodup⟩ := List.nodup_cons.mp h.nodup
  refine wpu_connection hc (wpu_modify_bind (wpu_modify ?_))
  refine ⟨h.booked.destroyed hc, h.server, hnodup, fun id' => ?_⟩
  show id' ∈ todo ↔ (Function.update s.heap id none id').isSome
  by_cases hid : id' = id
  · subst hid
    simp [hnot]
  · rw [Function.update_of_ne hid, ← h.mem_todo id', List.mem_cons]
    simp [hid]

/-- Destroying the retired connections makes no call, and changes no other member. -/
theorem destroyRetired_server :
    wpu True destroyRetired (fun _ s' => s'.server = { s.server with retired := [] })
      (fun _ _ => False) s := by
  have hloop : wpu True (s.server.retired.forM Connection.destroy)
      (fun _ s' => s'.server = s.server) (fun _ _ => False) s := by
    refine wpu_forM (fun _ (s' : System) => s'.server = s.server) (fun id _ s' hs' => ?_) rfl
    exact wpu_this fun _ _ => wpu_modify_bind (wpu_modify hs')
  refine wpu_get_bind (wpu_seq hloop fun _ s' hs' => wpu_modify ?_)
  rw [hs']

/-- Giving up the reserve changes nothing else of the server. -/
theorem setReserve_none_server :
    wpu True (setReserve none) (fun _ s' => s'.server = { s.server with reserveFd := none })
      (fun _ _ => False) s := by
  refine wpu_get_bind ?_
  split
  · exact wpu_modify rfl
  · exact wpu_modify rfl

/-- With nothing retired, the map owns all connections there are. -/
theorem mem_owned {f : Frame} (h : Health f [] .idle s) (hretired : s.server.retired = [])
    (id : ConnId) : id ∈ owned s ↔ (s.heap id).isSome := by
  rw [owned, List.mem_filter, List.mem_range]
  constructor
  · rintro ⟨-, hany⟩
    cases hc : s.heap id with
    | none => simp [hc] at hany
    | some c => rfl
  · intro hsome
    obtain ⟨c, hc⟩ := Option.isSome_iff_exists.mp hsome
    refine ⟨h.serving.lt_nextId hc, ?_⟩
    have hopen : c.place.closed = false := by
      by_contra hclosed
      rw [Bool.not_eq_false] at hclosed
      have hmem : id ∈ s.server.retired :=
        h.owned.mem_retired.mpr ⟨c.fd, (places_eq hc).trans (by rw [← hclosed]; rfl)⟩
      rw [hretired] at hmem
      cases hmem
    have hconn : s.server.connections c.fd = some id :=
      h.owned.connections_iff.mpr ((places_eq hc).trans (by rw [← hopen]; rfl))
    simp [hc, hconn]

/-- When no connection is left, the listening socket is all that is open beside what is held. -/
theorem Leaving.isOpen_iff (h : Leaving held v [] s) (hreserve : v.reserveFd = none) (fd : Fd) :
    s.kernel.isOpen fd = true ↔ held fd = true ∨ fd = v.listenFd := by
  have hlive : s.kernel.isOpen fd = true ↔ ∃ o, s.fds.Holds held none o fd :=
    h.booked.ledger.live_iff fd
  rw [hlive]
  constructor
  · rintro ⟨_ | _ | _ | _ | id, howns⟩
    · exact Or.inl howns
    · exact Or.inr (by rw [← h.server]; exact howns.symm)
    · have hsome : s.server.reserveFd = some fd := howns
      rw [h.server, hreserve] at hsome
      cases hsome
    · cases howns
    · have hsome : (s.heap id).map Connection.fd = some fd := howns
      have hnone : ¬ (s.heap id).isSome := fun hid => by simpa using (h.mem_todo id).mpr hid
      rw [Option.not_isSome_iff_eq_none.mp hnone] at hsome
      cases hsome
  · rintro (hheld | rfl)
    · exact ⟨.process, hheld⟩
    · exact ⟨.listener, by rw [← h.server]; rfl⟩

/-- When the server has ended, what the process held from the start is open, but for the descriptor
of the event loop, and nothing else. -/
theorem destroy_closes {f : Frame} (h : Health f [] .idle s) (hbooked : Booked held none s.fds)
    (epollFd : Fd) {order : List ConnId → List ConnId} (horder : ∀ l, (order l).Perm l) :
    wpu (¬ f.valid) (destroy epollFd order)
      (fun _ s' => ∀ fd, s'.kernel.isOpen fd = true ↔ held fd = true ∧ fd ≠ epollFd)
      (fun _ _ => False) s := by
  have hfree : ∀ fd, (none : Option Fd) = some fd → Free f s fd := nofun
  have hunreserve := wpu_and (wpu_and (setReserve_spec h hfree)
    (setReserve_balanced hbooked) fun hU _ => hU) setReserve_none_server fun hU _ => hU
  refine wpu_seq (wpu_imp hunreserve (fun _ _ h => h) fun _ _ h => h.2) ?_
  rintro _ s₁ ⟨⟨⟨h₁, -⟩, hbooked₁⟩, hserver₁⟩
  have hretire := wpu_and (wpu_and (destroyRetired_spec h₁)
    (destroyRetired_balanced hbooked₁) fun hU _ => hU) destroyRetired_server fun hU _ => hU
  refine wpu_seq (wpu_imp hretire (fun _ _ h => h) fun _ _ h => h.2) ?_
  rintro _ s₂ ⟨⟨h₂, hbooked₂⟩, hserver₂⟩
  have hretired : s₂.server.retired = [] := by rw [hserver₂]
  have hreserve : s₂.server.reserveFd = none := by rw [hserver₂, hserver₁]
  have hleaving : Leaving held s₂.server (order (owned s₂)) s₂ :=
    { booked := hbooked₂
      server := rfl
      nodup := (horder _).nodup_iff.mpr (List.nodup_range.filter _)
      mem_todo := fun id => (horder _).mem_iff.trans (mem_owned h₂ hretired id) }
  refine wpu_get_bind (wpu_seq (wpu_forM (Leaving held s₂.server)
    (fun _ _ _ hs => hs.destroy) hleaving) fun _ s₃ h₃ => ?_)
  refine wpu_modify_bind (wpu_modify_bind (wpu_modify fun fd => ?_))
  -- The listening socket is not among what the process held.
  have hlisten : held s₂.server.listenFd ≠ true := by
    intro hheld
    have howns : s₃.fds.Holds held none .listener s₂.server.listenFd := by rw [← h₃.server]; rfl
    cases h₃.booked.ledger.unique howns (show s₃.fds.Holds held none .process _ from hheld)
  have hopen := h₃.isOpen_iff hreserve fd
  show Function.update (Function.update s₃.kernel.isOpen s₂.server.listenFd false) epollFd false fd
    = true ↔ _
  simp only [Function.update_apply]
  grind

/-- The ledger is kept over a run of the server. -/
theorem run_booked {f : Frame} (h : Health f [] .idle s) (hf : ¬ f.paused)
    (hbooked : Booked held none s.fds) :
    wpu (¬ f.valid) run (fun _ s' => Health f [] .idle s' ∧ Booked held none s'.fds)
      (fun _ s' => ∃ hand, Booked held hand s'.fds) s := by
  have hends : wpu True run (fun _ s' => Booked held none s'.fds) (ObservedFrom s) s :=
    run_ends (fun s' hs' => hs'.booked hbooked) fun s' hs' =>
      wpu_imp (destroyRetired_balanced hs') (fun _ _ h => h) fun _ _ _ => trivial
  refine wpu_imp (wpu_and (run_spec h hf) hends fun hU _ => hU) (fun _ _ h => h) ?_
  rintro call s' ⟨-, p, hp, hobs⟩
  exact hobs.booked (hp.booked hbooked)

/-- The server lives until its run ends, and then gives back what it has opened. It waits only where
the run waits. -/
theorem serve_spec {f : Frame} (h : Health f [] .idle s) (hf : ¬ f.paused)
    (hbooked : Booked held none s.fds) (epollFd : Fd) {order : List ConnId → List ConnId}
    (horder : ∀ l, (order l).Perm l) :
    wpu (¬ f.valid) (serve epollFd order)
      (fun _ s' => ∀ fd, s'.kernel.isOpen fd = true ↔ held fd = true ∧ fd ≠ epollFd)
      (fun call s' => (∃ script, run script s = .waiting call s') ∧
        ∃ hand, Booked held hand s'.fds) s := by
  have hrun := wpu_and (wpu_self run) (run_booked h hf hbooked) fun _ hU => hU
  refine wpu_seq hrun fun r s' hs' => ?_
  have hend := destroy_closes hs'.2.1 hs'.2.2 epollFd horder
  exact wpu_seq (wpu_imp hend (fun _ _ h => h) fun _ _ h => h.elim) fun _ _ h => wpu_pure h

end Server

/-! ### `main` -/

/-- What is known of the process, however far it has come. `held` are the descriptors it started
with. -/
def Process.Accounted (args : List Bytes) (rd : UInt64) (held : Fd → Bool) : Process → Prop
  -- The descriptors are those that the process started with.
  | .exited code k => k.isOpen = held ∧ code ≤ 2 ∧ (code = 2 ↔ parseArgs {} args = none)
  | .building _ k => k.Keeps held
  -- The process is at a moment of a run of a new server, and every open descriptor has one owner.
  | .serving call s => ∃ cfg epollFd listenFd reserveFd s₀ hand, parseArgs {} args = some cfg ∧
      held epollFd = false ∧
      Server.new cfg.server rd listenFd reserveFd (Function.update held epollFd true) = some s₀ ∧
      (∃ script, Server.run script s₀ = .waiting call s) ∧
      Booked (Function.update held epollFd true) hand s.fds ∧
      (cfg.server.Valid → (∀ t ∈ readings s.journal, 500 ≤ t) → s.NoOverflow)
  -- The configuration is out of bounds. Signed overflow does not end here: the model wraps where
  -- it is undefined in the source, and the case of `serving` says where there is none.
  | .undefined => ∃ cfg, parseArgs {} args = some cfg ∧
      ¬ (cfg.server.Valid ∧ cfg.server.store.initialBuckets ≤ 2 ^ 63)

omit [EntryPool] in
/-- What was held before the epoll descriptor was opened is held again once it is closed. -/
theorem held_of_closed {held : Fd → Bool} {k : Kernel} {epollFd : Fd}
    (hepoll : held epollFd = false)
    (hk : ∀ fd, k.isOpen fd = true ↔ Function.update held epollFd true fd = true ∧ fd ≠ epollFd) :
    k.isOpen = held := by
  funext fd
  rw [Bool.eq_iff_iff, hk fd, Function.update_apply]
  by_cases hfd : fd = epollFd
  · simp [hfd, hepoll]
  · simp [hfd]

/-- The whole process: whatever the arguments, the answers of the kernel and the order in which the
map destroys its connections. -/
theorem main_accounted (args : List Bytes) (rd : UInt64) (held : Fd → Bool)
    {order : List ConnId → List ConnId} (horder : ∀ l, (order l).Perm l) (boot : List BootAnswers)
    (script : List Answers) :
    (main args rd held order boot script).Accounted args rd held := by
  unfold main
  cases hargs : parseArgs {} args with
  | none => exact ⟨rfl, Nat.le_refl 2, by simp [hargs]⟩
  | some cfg =>
  have hopen : (Kernel.start held).isOpen = held := rfl
  have hbuilt := Server.construct_spec cfg.server rd hopen rfl boot
  dsimp only
  -- The construction: it may be at a call, have failed, or have built a server.
  cases hboot : Server.construct cfg.server rd boot (.start held) with
  | stuck =>
    rw [hboot] at hbuilt
    refine ⟨cfg, hargs, fun hvalid => ?_⟩
    obtain ⟨store, hstore⟩ := Store.new_isSome rd hvalid.2 hvalid.1.1
    cases hstore.symm.trans hbuilt
  | waiting call k =>
    rw [hboot] at hbuilt
    exact hbuilt
  | done r rest k =>
    rw [hboot] at hbuilt
    cases r with
    | error e => exact ⟨hbuilt, by decide, by simp [hargs]⟩
    | ok made =>
    obtain ⟨epollFd, s⟩ := made
    obtain ⟨hepoll, listenFd, reserveFd, hnew, hbooked⟩ := hbuilt
    have hserve :=
      Server.serve_spec (Server.new_health hnew) not_false hbooked epollFd horder script
    dsimp only
    -- The run with the end of the server: at a call, or returned.
    cases hout : Server.serve epollFd order script s with
    | stuck =>
      rw [hout] at hserve
      exact ⟨cfg, hargs, fun hvalid => hserve hvalid.1⟩
    | waiting call s' =>
      rw [hout] at hserve
      obtain ⟨⟨script', hrun⟩, hand, hs'⟩ := hserve
      have hdefined : cfg.server.Valid → (∀ t ∈ readings s'.journal, 500 ≤ t) → s'.NoOverflow :=
        fun hvalid => Server.noOverflow_of_run hvalid hnew hrun
      exact ⟨cfg, epollFd, listenFd, reserveFd, s, hand, hargs, hepoll, hnew, ⟨script', hrun⟩, hs',
        hdefined⟩
    | done r rest s' =>
      rw [hout] at hserve
      cases r with
      | error e => exact ⟨held_of_closed hepoll hserve, by decide, by simp [hargs]⟩
      | ok _ => exact ⟨held_of_closed hepoll hserve, by decide, by simp [hargs]⟩

/-- Whether the process waits in the run of its server, at a moment with `P`. -/
def Process.servesAt (P : System → Bool) : Process → Bool
  | .serving _ s => P s
  | _ => false

/-- Whether the process has exited with the status `code`. -/
def Process.exits (code : Nat) : Process → Bool
  | .exited c _ => c = code
  | _ => false

/-- The moment that a process waits at. -/
theorem Process.exists_serving {p : Process} {P : System → Bool} (h : p.servesAt P = true) :
    ∃ call s, p = .serving call s ∧ P s = true := by
  cases p with
  | serving call s => exact ⟨call, s, rfl, h⟩
  | exited | building | undefined => cases h

/-- What the kernel keeps for a process that has exited. -/
theorem Process.exists_exited {p : Process} {code : Nat} (h : p.exits code = true) :
    ∃ k, p = .exited code k := by
  cases p with
  | exited c k => exact ⟨k, by rw [of_decide_eq_true h]⟩
  | serving | building | undefined => cases h

omit [EntryPool] in
/-- A process that takes a client and answers two requests of it, and is then told to stop. While it
serves, seven descriptors are open. When it has exited, there are the three it started with. -/
theorem main_accounted_stopped : letI := slabPool
    let args : List Bytes := [ascii "--port", ascii "7000", ascii "--maxkeys", ascii " 4",
      ascii "--buckets", ascii "+4"]
    let boot : List BootAnswers := [{ epollCreate := .ok 3 }, {}, { socket := .ok 4 }, {}, {}, {},
      {}, { openNull := .ok 5 }]
    let script : List Answers := [{}, {}, { wait := .ok [(4, EPOLLIN)] }, {}, { accept := .ok 6 },
      {}, {}, {}, {}, { nowMs := 1000 }, {}, {}, { wait := .ok [(6, EPOLLIN)] },
      { read := .ok (ascii "SET k v PX 900\r\nTTL k\r\n") }, { nowMs := 1001 }, {}, {}, {}, {},
      { write := .ok 5 }, {}, { write := .ok 4 }, {}]
    let stopping : List Answers := [{}, { stop := true }]
    let held : Fd → Bool := fun fd => fd < 3
    (∀ l : List ConnId, l.reverse.Perm l) ∧
      (∃ call s, main args 0 held List.reverse boot script = .serving call s ∧
        (List.range 7).all s.kernel.isOpen = true ∧
        (s.sessions 0).written = ascii "+OK\r\n:1\r\n" ∧ s.NoOverflow) ∧
      ∃ k, main args 0 held List.reverse boot (script ++ stopping) = .exited 0 k ∧
        k.isOpen = held := by
  let _ := slabPool
  intro args boot script stopping held
  obtain ⟨cfg, hargs, hvalid⟩ : ∃ cfg, parseArgs {} args = some cfg ∧ cfg.server.Valid :=
    ⟨{ port := 7000, server.store.maxKeys := 4, server.store.initialBuckets := 4 },
      by decide +kernel, by unfold Server.Config.Valid; decide⟩
  have hserving : (main args 0 held List.reverse boot script).servesAt (fun s => decide
      ((List.range 7).all s.kernel.isOpen = true ∧ (s.sessions 0).written = ascii "+OK\r\n:1\r\n" ∧
        readings s.journal = [1000, 1001])) = true := by decide +kernel
  have hexits : (main args 0 held List.reverse boot (script ++ stopping)).exits 0 = true := by
    decide +kernel
  obtain ⟨call, s, hs, hreached⟩ := Process.exists_serving hserving
  obtain ⟨hopen, hwritten, hreadings⟩ := of_decide_eq_true hreached
  obtain ⟨k, hk⟩ := Process.exists_exited hexits
  -- The process would otherwise be evaluated again where the theorem is applied.
  clear_value args boot script stopping
  have haccounted := main_accounted args 0 held List.reverse_perm boot
  have hrun := haccounted script
  have hend := haccounted (script ++ stopping)
  rw [hs] at hrun
  rw [hk] at hend
  obtain ⟨cfg', _, _, _, _, _, hargs', -, -, -, -, hdefined⟩ := hrun
  obtain rfl : cfg = cfg' := Option.some.inj (hargs.symm.trans hargs')
  have hclock : ∀ t ∈ readings s.journal, 500 ≤ t := by
    rw [hreadings]
    simp
  exact ⟨List.reverse_perm, ⟨call, s, hs, hopen, hwritten, hdefined hvalid hclock⟩, k, hk, hend.1⟩

end TinyRedis
