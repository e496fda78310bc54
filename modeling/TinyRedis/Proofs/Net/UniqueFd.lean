import TinyRedis.Lib.Ledger
import TinyRedis.Net.UniqueFd

/-!
# `TinyRedis.Proofs.Net.UniqueFd`: every descriptor is closed once

`Fleet.run_closes_once`: however objects are made, moved, reset, released and destroyed, no
descriptor is closed that is not open, and the open descriptors are those that exactly one object
has, or that the code holds as a number. The one thing asked of the code is that it gives a number
to one object only.

A move is a release and then a construction or a reset with the number that was released
(`step_moveNew`, `step_moveAssign`), so the two moves need no argument of their own. This holds also
of an object that is moved to itself.

* `Fleet.Owns`: the owners of a descriptor are the objects, and the code itself.
* `Fleet.Inv`: the ledger of `Lib.Ledger` at these owners. No object has `-1` for a descriptor.
* `Fleet.Inv.acquire`, `fill`, `release`, `close`: the entries of the ledger.
* `Fleet.Inv.new`, `reset`, `destroy`: the operations of the class, made of these entries.
* `Fleet.Inv.step`, `Fleet.Inv.run`: one legal operation, and a run of them.
-/

set_option autoImplicit false

namespace TinyRedis

open Lib

namespace Fleet

variable {s s' : Fleet} {id other : ObjId} {fd newFd : Int} {u : UniqueFd}

/-- Who owns a descriptor: an object, or the code that holds it as a number. -/
def Owns (s : Fleet) : Option ObjId → Int → Prop
  | none, fd => s.loose fd = true
  | some id, fd => s.objs id = some { fd } ∧ fd ≠ -1

/-- The ledger is balanced, and `-1` is not a descriptor. -/
structure Inv (s : Fleet) : Prop where
  ledger : Ledger s.Owns s.opened
  none_open : s.opened (-1) = false

/-- What was held by the object is held by the code. -/
theorem step_release (hu : s.objs id = some u) :
    s.step (.release id) = some { s.put id { fd := -1 } with
      loose := if u.fd = -1 then s.loose else Function.update s.loose u.fd true } := by
  rw [step, hu]
  rfl

namespace Inv

/-- The code does not hold `-1`. -/
theorem not_loose (h : s.Inv) : s.loose (-1) = false := by
  by_contra hloose
  rw [Bool.not_eq_false] at hloose
  have hopen := h.ledger.live_of_owns (show s.Owns none (-1) from hloose)
  rw [h.none_open] at hopen
  cases hopen

/-- What an object has is not a loose number too. -/
theorem not_loose_of_obj (h : s.Inv) (hu : s.objs id = some u) : s.loose u.fd = false := by
  by_cases hfd : u.fd = -1
  · rw [hfd]
    exact h.not_loose
  · by_contra hloose
    rw [Bool.not_eq_false] at hloose
    cases h.ledger.unique (show s.Owns none u.fd from hloose)
      (show s.Owns (some id) u.fd from ⟨hu, hfd⟩)

/-- At the start the code holds everything that is open. -/
theorem start {opened : Opened} (h : opened (-1) = false) : (start opened).Inv where
  ledger.live_iff fd := by
    constructor
    · exact fun hopen => ⟨none, hopen⟩
    · rintro ⟨_ | id, howns⟩
      · exact howns
      · cases howns.1
  ledger.unique := by
    rintro (_ | id) (_ | id') fd howns howns'
    · rfl
    · cases howns'.1
    · cases howns.1
    · cases howns.1
  none_open := h

/-- A system call has answered with a new descriptor, which the code holds. -/
theorem acquire (h : s.Inv) (hfd : 0 ≤ fd) (hclosed : s.opened fd = false) :
    ∃ s', s.step (.acquire fd) = some s' ∧ s'.Inv := by
  refine ⟨_, rfl, h.ledger.acquire hclosed none ?_, ?_⟩
  · rintro (_ | id) r
    · by_cases hr : r = fd <;> simp [Owns, hr]
    · simp [Owns]
  · show Function.update s.opened fd true (-1) = false
    rw [Function.update_of_ne (by omega)]
    exact h.none_open

/-- An object that has nothing takes a loose number, or none. -/
theorem fill (h : s.Inv) (hempty : ∀ v, s.objs id = some v → v.fd = -1)
    (hfd : fd = -1 ∨ s.loose fd = true) :
    Inv { s.put id { fd } with loose := Function.update s.loose fd false } := by
  refine ⟨?_, h.none_open⟩
  have hlose := h.not_loose
  rcases hfd with rfl | hloose
  · refine h.ledger.congr ?_
    rintro (_ | id') r <;> simp only [Owns, put, Function.update_apply] <;> grind
  · refine h.ledger.transfer (show s.Owns none fd from hloose) (some id) ?_
    rintro (_ | id') r <;> simp only [Owns, put, Function.update_apply] <;> grind

/-- A new object takes a number from the code, or none. -/
theorem new (h : s.Inv) (hnew : s.objs id = none) (hfd : fd = -1 ∨ s.loose fd = true) :
    ∃ s', s.step (.new id fd) = some s' ∧ s'.Inv :=
  ⟨_, rfl, h.fill (fun v hv => by cases hnew.symm.trans hv) hfd⟩

/-- An object gives its descriptor back as a number. -/
theorem release (h : s.Inv) (hu : s.objs id = some u) :
    ∃ s', s.step (.release id) = some s' ∧ s'.Inv := by
  refine ⟨_, step_release hu, ?_, h.none_open⟩
  by_cases hfd : u.fd = -1
  · refine h.ledger.congr ?_
    rintro (_ | id') r <;> simp only [Owns, put, Function.update_apply] <;> grind
  · refine h.ledger.transfer (show s.Owns (some id) u.fd from ⟨hu, hfd⟩) none ?_
    rintro (_ | id') r <;> simp only [Owns, put, Function.update_apply] <;> grind

/-- What an object has is open, and closing it leaves the rest. -/
theorem close (h : s.Inv) (hu : s.objs id = some u) (hfd : u.fd ≠ -1) {v : Option UniqueFd}
    (hv : v = none ∨ v = some { fd := -1 }) :
    closeFd u.fd s.opened = some (Function.update s.opened u.fd false) ∧
      Inv { s with objs := Function.update s.objs id v
                   opened := Function.update s.opened u.fd false } := by
  have howns : s.Owns (some id) u.fd := ⟨hu, hfd⟩
  refine ⟨?_, h.ledger.release howns ?_, ?_⟩
  · rw [closeFd, if_pos (h.ledger.live_of_owns howns)]
  · rintro (_ | id') r <;> simp only [Owns, Function.update_apply] <;> grind
  · show Function.update s.opened u.fd false (-1) = false
    rw [Function.update_of_ne hfd.symm]
    exact h.none_open

/-- `reset` closes what is held, unless it is the same, and takes the new one. -/
theorem reset (h : s.Inv) (hu : s.objs id = some u)
    (hfd : newFd = -1 ∨ s.loose newFd = true ∨ newFd = u.fd) :
    ∃ s', s.step (.reset id newFd) = some s' ∧ s'.Inv := by
  by_cases hsame : newFd = u.fd
  · refine ⟨s, ?_, h⟩
    have hobjs : Function.update s.objs id (some u) = s.objs := by
      rw [← hu, Function.update_eq_self]
    have hloose : Function.update s.loose u.fd false = s.loose := by
      rw [← h.not_loose_of_obj hu, Function.update_eq_self]
    simp [step, hu, UniqueFd.reset, hsame, put, hobjs, hloose]
  · have hloose : newFd = -1 ∨ s.loose newFd = true := by simpa [hsame] using hfd
    by_cases hnone : u.fd = -1
    · have hempty : ∀ v, s.objs id = some v → v.fd = -1 := by
        rintro v hv
        cases hu.symm.trans hv
        exact hnone
      refine ⟨_, ?_, h.fill hempty hloose⟩
      rw [hnone] at hsame
      simp [step, hu, UniqueFd.reset, hsame, hnone, put]
    · -- The old descriptor is closed first, which leaves an object that has nothing.
      obtain ⟨hclose, hclosed⟩ := h.close hu hnone (Or.inr rfl)
      have hempty : ∀ v, Function.update s.objs id (some { fd := -1 }) id = some v → v.fd = -1 := by
        simp
      refine ⟨_, ?_, hclosed.fill hempty hloose⟩
      simp [step, hu, UniqueFd.reset, hsame, hnone, hclose, put]

/-- The destructor closes what is held. -/
theorem destroy (h : s.Inv) (hu : s.objs id = some u) :
    ∃ s', s.step (.destroy id) = some s' ∧ s'.Inv := by
  by_cases hnone : u.fd = -1
  · refine ⟨{ s with objs := Function.update s.objs id none }, ?_, h.ledger.congr ?_, h.none_open⟩
    · simp [step, hu, UniqueFd.destroy, hnone]
    · rintro (_ | id') r
      · exact Iff.rfl
      · simp only [Owns, Function.update_apply]
        grind
  · obtain ⟨hclose, hclosed⟩ := h.close hu hnone (Or.inl rfl)
    exact ⟨_, by simp [step, hu, UniqueFd.destroy, hnone, hclose], hclosed⟩

/-- What a release leaves for the second half of a move. -/
theorem released (h : s.Inv) (hu : s.objs other = some u) :
    ∃ s₁, s.step (.release other) = some s₁ ∧ s₁.Inv ∧
      s₁.objs = Function.update s.objs other (some { fd := -1 }) ∧
      (u.fd = -1 ∨ s₁.loose u.fd = true) := by
  obtain ⟨s₁, hs₁, h₁⟩ := h.release hu
  refine ⟨s₁, hs₁, h₁, ?_⟩
  rw [step_release hu] at hs₁
  cases hs₁
  refine ⟨rfl, ?_⟩
  by_cases hfd : u.fd = -1 <;> simp [hfd]

/-- A number that has been released and given on is as loose as it was before. -/
theorem loose_restored (h : s.Inv) (hu : s.objs id = some u) :
    Function.update (if u.fd = -1 then s.loose else Function.update s.loose u.fd true) u.fd false
      = s.loose := by
  have hloose : Function.update s.loose u.fd false = s.loose := by
    rw [← h.not_loose_of_obj hu, Function.update_eq_self]
  split
  · exact hloose
  · rw [Function.update_idem, hloose]

/-- A move to a new object is a release and a construction. -/
theorem step_moveNew (h : s.Inv) (hu : s.objs other = some u) :
    s.step (.moveNew id other) = (s.step (.release other)).bind (·.step (.new id u.fd)) := by
  rw [step_release hu, Option.bind_some]
  simp [step, hu, put, UniqueFd.release, h.loose_restored hu]

/-- A move to an object is a release and a reset. -/
theorem step_moveAssign (h : s.Inv) (hu : s.objs other = some u) :
    s.step (.moveAssign id other) = (s.step (.release other)).bind (·.step (.reset id u.fd)) := by
  rw [step_release hu, Option.bind_some]
  simp [step, hu, put, UniqueFd.release, h.loose_restored hu]

/-- The step lemma: a legal operation closes nothing that is not open, and keeps the ledger. -/
theorem step (h : s.Inv) {op : Op} (hlegal : s.Legal op) : ∃ s', s.step op = some s' ∧ s'.Inv := by
  -- The moves are a release and a construction or a reset.
  cases op with
  | acquire fd => exact h.acquire hlegal.1 hlegal.2
  | new id fd => exact h.new hlegal.1 hlegal.2
  | moveNew id other =>
    obtain ⟨hnew, hother⟩ := hlegal
    obtain ⟨u, hu⟩ := Option.isSome_iff_exists.mp hother
    obtain ⟨s₁, hs₁, h₁, hobjs, hfd⟩ := h.released hu
    rw [h.step_moveNew hu, hs₁, Option.bind_some]
    refine h₁.new ?_ hfd
    have hid : id ≠ other := by
      rintro rfl
      cases hnew.symm.trans hu
    rw [hobjs, Function.update_of_ne hid, hnew]
  | moveAssign id other =>
    obtain ⟨hid, hother⟩ := hlegal
    obtain ⟨u, hu⟩ := Option.isSome_iff_exists.mp hother
    obtain ⟨s₁, hs₁, h₁, hobjs, hfd⟩ := h.released hu
    rw [h.step_moveAssign hu, hs₁, Option.bind_some]
    obtain ⟨v, hv⟩ : ∃ v, s₁.objs id = some v := by
      rw [hobjs, ← Option.isSome_iff_exists, Function.update_apply]
      split
      · rfl
      · exact hid
    exact h₁.reset hv (hfd.imp_right Or.inl)
  | reset id newFd =>
    obtain ⟨u, hu, hfd⟩ := hlegal
    exact h.reset hu hfd
  | release id =>
    obtain ⟨u, hu⟩ := Option.isSome_iff_exists.mp hlegal
    exact h.release hu
  | destroy id =>
    obtain ⟨u, hu⟩ := Option.isSome_iff_exists.mp hlegal
    exact h.destroy hu

/-- The run lemma. -/
theorem run {ops : List Op} (h : s.Inv) (hlegal : s.LegalRun ops) :
    ∃ s', ops.foldlM Fleet.step s = some s' ∧ s'.Inv := by
  induction ops generalizing s with
  | nil => exact ⟨s, rfl, h⟩
  | cons op ops ih =>
    obtain ⟨s₁, hs₁, h₁⟩ := h.step hlegal.1
    rw [List.foldlM_cons, hs₁]
    exact ih h₁ (hlegal.2 s₁ hs₁)

end Inv

/-- Nothing is closed twice and nothing leaks, whatever is done with the objects: no `close` fails,
and the open descriptors are at all times those that have exactly one owner. Once all objects are
destroyed, the open descriptors are those that the code has as numbers. -/
theorem run_closes_once {opened : Opened} (hopened : opened (-1) = false) {ops : List Op}
    (hlegal : (start opened).LegalRun ops) :
    ∃ s, ops.foldlM step (start opened) = some s ∧
      (∀ fd, s.opened fd = true ↔ ∃! owner, s.Owns owner fd) ∧
      (∀ owner fd, s.Owns owner fd → s.opened fd = true) ∧
      ((∀ id, s.objs id = none) → s.opened = s.loose) := by
  obtain ⟨s, hrun, hs⟩ := (Inv.start hopened).run hlegal
  refine ⟨s, hrun, fun fd => ?_, fun owner fd => hs.ledger.live_of_owns, fun hgone => ?_⟩
  · rw [hs.ledger.live_iff fd]
    constructor
    · rintro ⟨owner, howner⟩
      exact ⟨owner, howner, fun _ hother => hs.ledger.unique hother howner⟩
    · rintro ⟨owner, howner, -⟩
      exact ⟨owner, howner⟩
  · funext fd
    rw [Bool.eq_iff_iff, hs.ledger.live_iff fd]
    constructor
    · rintro ⟨_ | id, howner⟩
      · exact howner
      · cases (hgone id).symm.trans howner.1
    · exact fun hloose => ⟨none, hloose⟩

/-- An object takes a descriptor, is moved to itself and then to another one, which takes a second
descriptor in its place. -/
theorem run_closes_once_moved :
    let ops : List Op := [.acquire 3, .new 0 3, .moveAssign 0 0, .moveNew 1 0, .acquire 4,
      .reset 1 4, .destroy 0, .destroy 1]
    ∃ s, ops.foldlM step (start fun _ => false) = some s ∧
      (∀ fd, s.opened fd = true ↔ ∃! owner, s.Owns owner fd) := by
  intro ops
  have hlegal : (start fun _ => false).LegalRun ops := by decide
  obtain ⟨s, hrun, howners, -⟩ := run_closes_once rfl hlegal
  exact ⟨s, hrun, howners⟩

end Fleet

end TinyRedis
