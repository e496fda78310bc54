import Mathlib.Logic.Function.Basic

/-!
# `TinyRedis.Net.UniqueFd`: the owner of a descriptor

The model of `src/net/unique_fd.h` and `src/net/unique_fd.cpp`. Objects are moved from one another,
so they live in a table of objects (`Fleet`); a move whose source is its target reads and writes the
same one. Beside the objects, the code holds descriptors as plain numbers: what a system call has
just answered, and what `release` has given back. They are `loose`.

* `UniqueFd.release`, `reset`, `destroy`: the members of the class.
* `Fleet.Op`, `Fleet.step`: what a program can do with such objects, one operation at a time.
* `Fleet.Legal`: when the source allows it. An object is built where none is, a moved one exists,
  and a plain number goes to one owner only.

Closing a descriptor that is not open is an error (`closeFd`): in a real process it could be another
one's by then. So a `step` that is defined has closed nothing twice.

In the other modules the model has an owner as the number that it holds, and its destructor as a
`close`. `Proofs.Net.UniqueFd` is what that rests on.
-/

set_option autoImplicit false

namespace TinyRedis

/-- The open descriptors of the process. -/
abbrev Opened := Int → Bool

/-- `close(fd)`. A descriptor that is not open may be another one's before long, so closing it is an
error. -/
def closeFd (fd : Int) (opened : Opened) : Option Opened :=
  if opened fd then some (Function.update opened fd false) else none

/-- `UniqueFd`, with `-1` for no descriptor. -/
structure UniqueFd where
  fd : Int
deriving DecidableEq, Repr

namespace UniqueFd

/-- `release()`: gives the descriptor away, and holds none. -/
def release (u : UniqueFd) : Int × UniqueFd := (u.fd, { u with fd := -1 })

/-- `reset(newFd)`: closes what it holds and takes the new one, unless they are the same. -/
def reset (u : UniqueFd) (newFd : Int) (opened : Opened) : Option (UniqueFd × Opened) :=
  if newFd = u.fd then some (u, opened)
  else do
    let opened ← if u.fd ≠ -1 then closeFd u.fd opened else some opened
    return ({ u with fd := newFd }, opened)

/-- `~UniqueFd()`. -/
def destroy (u : UniqueFd) (opened : Opened) : Option Opened :=
  if u.fd = -1 then some opened else closeFd u.fd opened

end UniqueFd

/-- The address of a `UniqueFd`. -/
abbrev ObjId := Nat

/-- The objects that exist, the open descriptors, and those that the code holds as numbers. -/
structure Fleet where
  objs : ObjId → Option UniqueFd
  opened : Opened
  loose : Int → Bool

namespace Fleet

/-- Only plain numbers, and no objects. -/
def start (opened : Opened) : Fleet where
  objs := fun _ => none
  opened := opened
  loose := opened

/-- `u` at its address. -/
def put (s : Fleet) (id : ObjId) (u : UniqueFd) : Fleet :=
  { s with objs := Function.update s.objs id (some u) }

/-- What the code does with the objects. -/
inductive Op where
  /-- A system call answers with a new descriptor. -/
  | acquire (fd : Int)
  /-- `UniqueFd{fd}`. -/
  | new (id : ObjId) (fd : Int)
  /-- `UniqueFd{std::move(other)}`. -/
  | moveNew (id other : ObjId)
  /-- `*this = std::move(other)`. -/
  | moveAssign (id other : ObjId)
  /-- `reset(newFd)`. -/
  | reset (id : ObjId) (newFd : Int)
  /-- `release()`. -/
  | release (id : ObjId)
  /-- `~UniqueFd()`. -/
  | destroy (id : ObjId)
deriving DecidableEq, Repr

/-- One operation. -/
def step (s : Fleet) : Op → Option Fleet
  | .acquire fd => some { s with
      opened := Function.update s.opened fd true, loose := Function.update s.loose fd true }
  | .new id fd => some { s.put id { fd } with loose := Function.update s.loose fd false }
  | .moveNew id other => do
      let (fd, u) := (← s.objs other).release
      return (s.put other u).put id { fd }
  | .moveAssign id other => do
      let (fd, u) := (← s.objs other).release
      -- `release` comes first: a move to itself finds its object empty, and takes the descriptor
      -- back.
      let s := s.put other u
      let (u, opened) ← (← s.objs id).reset fd s.opened
      return { s.put id u with opened }
  | .reset id newFd => do
      let (u, opened) ← (← s.objs id).reset newFd s.opened
      return { s.put id u with opened, loose := Function.update s.loose newFd false }
  | .release id => do
      let (fd, u) := (← s.objs id).release
      return { s.put id u with
        loose := if fd = -1 then s.loose else Function.update s.loose fd true }
  | .destroy id => do
      let opened ← (← s.objs id).destroy s.opened
      return { s with objs := Function.update s.objs id none, opened }

/-- What the language and the kernel see to, and that a plain number is given to one object only. -/
def Legal (s : Fleet) : Op → Prop
  | .acquire fd => 0 ≤ fd ∧ s.opened fd = false
  | .new id fd => s.objs id = none ∧ (fd = -1 ∨ s.loose fd = true)
  | .moveNew id other => s.objs id = none ∧ (s.objs other).isSome
  | .moveAssign id other => (s.objs id).isSome ∧ (s.objs other).isSome
  | .reset id newFd => ∃ u ∈ s.objs id, newFd = -1 ∨ s.loose newFd = true ∨ newFd = u.fd
  | .release id => (s.objs id).isSome
  | .destroy id => (s.objs id).isSome

/-- A program can be checked as it goes. -/
instance (s : Fleet) : DecidablePred s.Legal
  | .acquire _ | .new _ _ | .moveNew _ _ | .moveAssign _ _ => inferInstanceAs (Decidable (_ ∧ _))
  | .reset _ _ => inferInstanceAs (Decidable (∃ _ ∈ _, _))
  | .release _ | .destroy _ => inferInstanceAs (Decidable (_ = true))

/-- A run in which every operation is legal where it is made. -/
def LegalRun : Fleet → List Op → Prop
  | _, [] => True
  | s, op :: ops => s.Legal op ∧ ∀ s' ∈ s.step op, LegalRun s' ops

/-- A run can be checked before it is made. -/
instance : (s : Fleet) → (ops : List Op) → Decidable (s.LegalRun ops)
  | _, [] => inferInstanceAs (Decidable True)
  | s, op :: ops =>
      let _ (s' : Fleet) : Decidable (s'.LegalRun ops) := instDecidableLegalRun s' ops
      inferInstanceAs (Decidable (s.Legal op ∧ ∀ s' ∈ s.step op, LegalRun s' ops))

end Fleet

end TinyRedis
