import Mathlib.Data.List.Basic

/-!
# `TinyRedis.Lib.Exec`: programs that make calls to their environment

A program runs on a state and on a script: the list of the answers that its environment gives to its
calls, in order. Where the script ends the run is waiting in a call, and the state it waits in is
the state at that moment. What holds at every moment of every run is thus what holds for every
script. Undefined behaviour of the program is the outcome `stuck`.

* `ask` makes a call. It says which answers are possible in the state of the program.
* `defined` is a value that may be undefined.
* `loop` is a loop without a bound of its own: its head is a moment of the run, and takes an entry
  of the script, so that a script drives at most as many rounds as it is long.

`wp` states what holds of a run from a given state for every script: `Q` where the program returns,
`C` wherever it waits, and never `stuck`. `wpu` is its liberal form, which lets a run be stuck where
`U` holds: one proof then says what holds at every moment of every run, and that no run is undefined
where there is reason for it.

The rules take a program apart. `wpu_seq` composes what is known of two programs, `wpu_ask_bind`
asks for `C` in the state before a call, `wpu_loop` is the invariant rule, and `wpu_and` joins two
results about one program, each of which may have its own reason for being undefined.
-/

set_option autoImplicit false

namespace TinyRedis.Lib

/-- How a run ends: with a result and what is left of the script, in a call whose answer the
script does not hold, or in undefined behaviour. -/
inductive Outcome (ι κ σ α : Type) where
  | done (a : α) (script : List ι) (s : σ)
  | waiting (call : κ) (s : σ)
  | stuck

/-- What holds of an outcome: `Q` of a result, `C` of a call that waits. -/
def Outcome.Sat {ι κ σ α : Type} (Q : α → σ → Prop) (C : κ → σ → Prop) : Outcome ι κ σ α → Prop
  | .done a _ s => Q a s
  | .waiting call s => C call s
  | .stuck => False

/-- As `Sat`, with undefined behaviour allowed where `U` holds. -/
def Outcome.SatUnless {ι κ σ α : Type} (U : Prop) (Q : α → σ → Prop) (C : κ → σ → Prop) :
    Outcome ι κ σ α → Prop
  | .done a _ s => Q a s
  | .waiting call s => C call s
  | .stuck => U

/-- A program over states `σ` that makes calls `κ` and takes answers `ι`. -/
def Exec (ι κ σ α : Type) : Type := List ι → σ → Outcome ι κ σ α

/-- What a round of a loop decides. -/
inductive Round (β α : Type) where
  | again (b : β)
  | leave (a : α)

/-- What holds after a round: `I` when the loop goes on, `Q` when it is left. -/
def Round.Sat {σ α β : Type} (I : β → σ → Prop) (Q : α → σ → Prop) : Round β α → σ → Prop
  | .again b => I b
  | .leave a => Q a

/-- What holds whatever the round decides. -/
theorem Round.sat_of {σ α β : Type} {P : σ → Prop} {r : Round β α} {s : σ} (h : P s) :
    r.Sat (fun _ => P) (fun _ => P) s := by
  cases r with
  | again b => exact h
  | leave a => exact h

namespace Exec

variable {ι κ σ α β : Type}

/-- A program goes on with what is left of the script. -/
instance : Monad (Exec ι κ σ) where
  pure a := fun script s => .done a script s
  bind x f := fun script s =>
    match x script s with
    | .done a script s => f a script s
    | .waiting call s => .waiting call s
    | .stuck => .stuck

/-- The state. -/
def get : Exec ι κ σ σ := fun script s => .done s script s

/-- A change of the state. -/
def modify (f : σ → σ) : Exec ι κ σ Unit := fun script s => .done () script (f s)

/-- A value that may be undefined. -/
def defined : Option α → Exec ι κ σ α
  | some a => fun script s => .done a script s
  | none => fun _ _ => .stuck

/-- A call, answered by the next entry of the script. `legal` reads the answer off the entry; an
entry that it refuses is one the environment cannot give, and the run does not go past it. -/
def ask (call : κ) (legal : ι → Option α) : Exec ι κ σ α
  | [], s => .waiting call s
  | i :: script, s =>
      match legal i with
      | some a => .done a script s
      | none => .waiting call s

/-- At most `rounds` rounds of a loop. -/
def loopN (head : κ) (body : β → Exec ι κ σ (Round β α)) : (rounds : Nat) → β → Exec ι κ σ α
  | 0, _ => fun _ s => .waiting head s
  | rounds + 1, b => do
      ask head fun _ => some ()
      match ← body b with
      | .again b => loopN head body rounds b
      | .leave a => pure a

/-- A loop without a bound of its own. The head of the loop is a moment of the run: it takes an
entry of the script, so a script is at least as long as the rounds it drives. -/
def loop (head : κ) (body : β → Exec ι κ σ (Round β α)) (b : β) : Exec ι κ σ α :=
  fun script s => loopN head body script.length b script s

/-- The weakest precondition of a program. -/
def wp (x : Exec ι κ σ α) (Q : α → σ → Prop) (C : κ → σ → Prop) (s : σ) : Prop :=
  ∀ script, (x script s).Sat Q C

/-- The weakest precondition of a program that may be undefined where `U` holds. -/
def wpu (U : Prop) (x : Exec ι κ σ α) (Q : α → σ → Prop) (C : κ → σ → Prop) (s : σ) : Prop :=
  ∀ script, (x script s).SatUnless U Q C

variable {U : Prop} {Q : α → σ → Prop} {C : κ → σ → Prop} {s : σ}

/-! ### Runs that return -/

section Returns

variable {x : Exec ι κ σ β} {f : β → Exec ι κ σ α} {script rest : List ι} {s s' : σ}

/-- Where the first program returns, the second runs on what is left. -/
theorem bind_of_done {b : β} (h : x script s = .done b rest s') :
    (x >>= f) script s = f b rest s' := by
  show (match x script s with
    | .done a script s => f a script s
    | .waiting call s => .waiting call s
    | .stuck => .stuck) = _
  rw [h]

/-- Where the first program waits, so does the whole. -/
theorem bind_of_waiting {call : κ} (h : x script s = .waiting call s') :
    (x >>= f) script s = .waiting call s' := by
  show (match x script s with
    | .done a script s => f a script s
    | .waiting call s => .waiting call s
    | .stuck => .stuck) = _
  rw [h]

/-- Where the first program is undefined, so is the whole. -/
theorem bind_of_stuck (h : x script s = .stuck) : (x >>= f) script s = .stuck := by
  show (match x script s with
    | .done a script s => f a script s
    | .waiting call s => .waiting call s
    | .stuck => .stuck) = _
  rw [h]

/-- A sequence returns where both programs do. -/
theorem bind_eq_done {a : α} : (x >>= f) script s = .done a rest s' ↔
    ∃ b script₁ s₁, x script s = .done b script₁ s₁ ∧ f b script₁ s₁ = .done a rest s' := by
  constructor
  · intro h
    change (match x script s with
      | .done a script s => f a script s
      | .waiting call s => .waiting call s
      | .stuck => .stuck) = _ at h
    cases hrun : x script s <;> rw [hrun] at h
    case done b script₁ s₁ => exact ⟨b, script₁, s₁, rfl, h⟩
    all_goals cases h
  · rintro ⟨b, script₁, s₁, hx, hf⟩
    rw [bind_of_done hx, hf]

/-- A value is returned as it is. -/
theorem defined_eq_done {o : Option α} {a : α} :
    (defined o : Exec ι κ σ α) script s = .done a rest s' ↔
      o = some a ∧ rest = script ∧ s' = s := by
  cases o with
  | none => simp [defined]
  | some b => simp [defined, eq_comm]

/-- A call returns what is read off the next entry of the script. -/
theorem ask_eq_done {call : κ} {legal : ι → Option α} {a : α} :
    ask call legal script s = .done a rest s' ↔
      ∃ i, script = i :: rest ∧ legal i = some a ∧ s' = s := by
  cases script with
  | nil => simp [ask]
  | cons i script =>
    cases hi : legal i with
    | none => simp [ask, hi]
    | some b =>
      simp only [ask, hi, Outcome.done.injEq, List.cons.injEq]
      -- The entry and its reading are determined by the script.
      constructor
      · rintro ⟨rfl, rfl, rfl⟩
        exact ⟨i, ⟨rfl, rfl⟩, hi, rfl⟩
      · rintro ⟨_, ⟨rfl, rfl⟩, ha, rfl⟩
        rw [hi] at ha
        cases ha
        exact ⟨rfl, rfl, rfl⟩

end Returns

/-! ### What a run gives -/

/-- What is known of a run that has returned. -/
theorem wpu.of_done {x : Exec ι κ σ α} (h : wpu U x Q C s) {script rest : List ι} {a : α} {s' : σ}
    (hrun : x script s = .done a rest s') : Q a s' := by
  have hx := h script
  rw [hrun] at hx
  exact hx

/-- What is known of a run that waits. -/
theorem wpu.of_waiting {x : Exec ι κ σ α} (h : wpu U x Q C s) {script : List ι} {call : κ} {s' : σ}
    (hrun : x script s = .waiting call s') : C call s' := by
  have hx := h script
  rw [hrun] at hx
  exact hx

/-- Where nothing may be undefined, nothing is. -/
theorem wpu.wp {x : Exec ι κ σ α} (h : wpu U x Q C s) (hU : ¬ U) : wp x Q C s := by
  intro script
  have hx := h script
  cases hrun : x script s <;> rw [hrun] at hx
  case stuck => exact hU hx
  all_goals exact hx

/-- What a program does is what its runs do. -/
theorem wpu_self (x : Exec ι κ σ α) :
    wpu True x (fun a s' => ∃ script rest, x script s = .done a rest s')
      (fun call s' => ∃ script, x script s = .waiting call s') s := by
  intro script
  cases hrun : x script s with
  | done a rest s' => exact ⟨script, rest, hrun⟩
  | waiting call s' => exact ⟨script, hrun⟩
  | stuck => exact trivial

/-! ### Rules -/

/-- A program that only returns. -/
theorem wpu_pure {a : α} (h : Q a s) : wpu U (pure a : Exec ι κ σ α) Q C s := fun _ => h

/-- The rule of consequence. -/
theorem wpu_imp {x : Exec ι κ σ α} {Q' : α → σ → Prop} {C' : κ → σ → Prop} (h : wpu U x Q' C' s)
    (hQ : ∀ a s, Q' a s → Q a s) (hC : ∀ call s, C' call s → C call s) : wpu U x Q C s := by
  intro script
  have hx := h script
  cases hrun : x script s <;> rw [hrun] at hx
  case done a script' s' => exact hQ a s' hx
  case waiting call s' => exact hC call s' hx
  case stuck => exact hx

/-- The rule of consequence, where nothing changes for the calls. -/
theorem wpu_mono {x : Exec ι κ σ α} {Q' : α → σ → Prop} (h : wpu U x Q' C s)
    (hQ : ∀ a s, Q' a s → Q a s) : wpu U x Q C s :=
  wpu_imp h hQ fun _ _ hC => hC

/-- The rule of conjunction: a run is undefined only where both allow it. -/
theorem wpu_and {x : Exec ι κ σ α} {U' V : Prop} {Q' : α → σ → Prop} {C' : κ → σ → Prop}
    (h : wpu U x Q C s) (h' : wpu U' x Q' C' s) (hV : U → U' → V) :
    wpu V x (fun a s => Q a s ∧ Q' a s) (fun call s => C call s ∧ C' call s) s := by
  intro script
  have hx := h script
  have hx' := h' script
  cases hrun : x script s <;> rw [hrun] at hx hx'
  case done a script' s' => exact ⟨hx, hx'⟩
  case waiting call s' => exact ⟨hx, hx'⟩
  case stuck => exact hV hx hx'

/-- The rule of sequence, in the form of a weakest precondition. -/
theorem wpu_bind {x : Exec ι κ σ β} {f : β → Exec ι κ σ α}
    (h : wpu U x (fun b s => wpu U (f b) Q C s) C s) : wpu U (x >>= f) Q C s := by
  intro script
  have hx := h script
  show Outcome.SatUnless U Q C (match x script s with
    | .done a script s => f a script s
    | .waiting call s => .waiting call s
    | .stuck => .stuck)
  cases hrun : x script s <;> rw [hrun] at hx
  -- Where the first program returns, the second runs on what is left of the script.
  case done b script' s' => exact hx script'
  all_goals exact hx

/-- A program after one whose result is known to satisfy `R`. -/
theorem wpu_seq {x : Exec ι κ σ β} {f : β → Exec ι κ σ α} {R : β → σ → Prop} (h : wpu U x R C s)
    (hf : ∀ b s, R b s → wpu U (f b) Q C s) : wpu U (x >>= f) Q C s :=
  wpu_bind (wpu_mono h hf)

/-- Reading the state. -/
theorem wpu_get_bind {f : σ → Exec ι κ σ α} (h : wpu U (f s) Q C s) : wpu U (get >>= f) Q C s :=
  wpu_bind fun _ => h

/-- A change of the state. -/
theorem wpu_modify {g : σ → σ} {Q : Unit → σ → Prop} (h : Q () (g s)) :
    wpu U (modify g : Exec ι κ σ Unit) Q C s := fun _ => h

/-- A change of the state, and then the rest. -/
theorem wpu_modify_bind {g : σ → σ} {f : Unit → Exec ι κ σ α} (h : wpu U (f ()) Q C (g s)) :
    wpu U (modify g >>= f) Q C s :=
  wpu_bind fun _ => h

/-- A value that is known to be defined. -/
theorem wpu_defined_bind {o : Option β} {b : β} {f : β → Exec ι κ σ α} (ho : o = some b)
    (h : wpu U (f b) Q C s) : wpu U (defined o >>= f) Q C s := by
  subst ho
  exact wpu_bind fun _ => h

/-- A value that is undefined only where that is allowed. -/
theorem wpu_defined_unless_bind {o : Option β} {f : β → Exec ι κ σ α} (hnone : o = none → U)
    (h : ∀ b, o = some b → wpu U (f b) Q C s) : wpu U (defined o >>= f) Q C s := by
  cases o with
  | none => exact wpu_bind fun _ => hnone rfl
  | some b => exact wpu_bind fun _ => h b rfl

/-- A call: the run may wait in it, and any answer that is possible may come. -/
theorem wpu_ask {call : κ} {legal : ι → Option α} (hC : C call s)
    (h : ∀ i a, legal i = some a → Q a s) : wpu U (ask call legal) Q C s := by
  intro script
  cases script with
  | nil => exact hC
  | cons i script =>
    show Outcome.SatUnless U Q C (match legal i with
      | some a => .done a script s
      | none => .waiting call s)
    cases hi : legal i with
    | none => exact hC
    | some a => exact h i a hi

/-- A call, and then the rest. -/
theorem wpu_ask_bind {call : κ} {legal : ι → Option β} {f : β → Exec ι κ σ α} (hC : C call s)
    (h : ∀ i b, legal i = some b → wpu U (f b) Q C s) : wpu U (ask call legal >>= f) Q C s :=
  wpu_bind (wpu_ask hC h)

/-- The loop rule: `I` holds at the head of the loop, where the run may be waiting; a round ends
at the head again or leaves with `Q`. -/
theorem wpu_loop {head : κ} {body : β → Exec ι κ σ (Round β α)} (I : β → σ → Prop)
    (hhead : ∀ b s, I b s → C head s)
    (hbody : ∀ b s, I b s → wpu U (body b) (Round.Sat I Q) C s)
    {b : β} (h : I b s) : wpu U (loop head body b) Q C s := by
  intro script
  -- The number of rounds does not matter for what holds at the head and at the end.
  suffices hN : ∀ rounds b s, I b s → wpu U (loopN head body rounds b) Q C s from
    hN script.length b s h script
  intro rounds
  induction rounds with
  | zero => exact fun b s h _ => hhead b s h
  | succ rounds ih =>
    intro b s h
    refine wpu_ask_bind (hhead b s h) fun _ _ _ => wpu_seq (hbody b s h) fun r s hr => ?_
    cases r with
    | again b => exact ih b s hr
    | leave a => exact wpu_pure hr

/-- A loop over a list, from left to right. `I` may speak of what is left of the list. -/
theorem wpu_forM {body : β → Exec ι κ σ Unit} (I : List β → σ → Prop)
    (hbody : ∀ b l s, I (b :: l) s → wpu U (body b) (fun _ => I l) C s) :
    ∀ {l : List β} {s : σ}, I l s → wpu U (l.forM body) (fun _ => I []) C s
  | [], _, h => wpu_pure h
  | b :: l, s, h => wpu_seq (hbody b l s h) fun _ _ => wpu_forM I hbody

end Exec

end TinyRedis.Lib
