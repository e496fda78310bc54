import Mathlib.Order.Basic
import TinyRedis.Lib.Exec

/-!
# `TinyRedis.Lib.Driven`: programs that come to an end

`wpu` says what holds wherever a run stands, and nothing of whether it gets on. Here the environment
is a strategy: it sees what it has answered so far, the call that waits and the state, and answers.
`Ends` says that a program that is driven by a strategy is not asking for ever: after finitely many
answers it returns, or is undefined, or has been given an answer that it refuses.

* `drive` are the first answers of a strategy to a program, and `Blocked` says that the last of them
  is refused: no environment can give it, and the run does not go past it.
* `Ends.returns` is what `Ends` is for. A driven run that is never blocked returns or is undefined.
* `ends_seq`, `ends_ask_bind` and the others follow the rules of `wpu`. A later part of a program is
  driven by a strategy that has answered more, so they hand on that the past has not become shorter.
* `ends_loop` is the rule of a loop. It ends if from some time on every round lowers a variant. What
  the environment does before that time does not matter: each round takes an answer at its head, so
  the time comes.

Programs with fuel (`EndsN`) are only here for the proof of that rule.
-/

set_option autoImplicit false

namespace TinyRedis.Lib

/-- An environment: the next answer, after what has been answered. -/
abbrev Strategy (ι κ σ : Type) := List ι → κ → σ → ι

namespace Exec

variable {ι κ σ α β : Type}

/-- The first `n` answers that a strategy gives to a program. -/
def drive (env : Strategy ι κ σ) (x : Exec ι κ σ α) (s : σ) : (n : Nat) → List ι
  | 0 => []
  | n + 1 =>
      let script := drive env x s n
      match x script s with
      | .waiting call s' => script ++ [env script call s']
      | _ => script

/-- The last answer of the script is refused: whatever follows, the run does not go past it. -/
def Blocked (x : Exec ι κ σ α) (script : List ι) (s : σ) : Prop :=
  ∃ call s', ∀ rest, x (script ++ rest) s = .waiting call s'

/-- What a run comes to, with what is left of the script. -/
inductive Final (Q : α → σ → Prop) : (List ι → Outcome ι κ σ α) → Prop where
  | done {a : α} {s' : σ} : Q a s' → Final Q fun rest => .done a rest s'
  | blocked (call : κ) (s' : σ) : Final Q fun _ => .waiting call s'
  | stuck : Final Q fun _ => .stuck

/-- The answers `used` are those of the strategy to a program with enough fuel. -/
def Answered (env : Strategy ι κ σ) (past : List ι) (x : Nat → Exec ι κ σ α) (s : σ)
    (used : List ι) : Prop :=
  ∀ pre i rest, used = pre ++ i :: rest →
    ∃ call s', (∀ n, pre.length ≤ n → x n pre s = .waiting call s') ∧ env (past ++ pre) call s' = i

/-- As `Ends`, for a program that takes fuel: as much as the script is long is enough. -/
def EndsN (env : Strategy ι κ σ) (past : List ι) (x : Nat → Exec ι κ σ α) (Q : α → σ → Prop)
    (s : σ) : Prop :=
  ∃ used outcome, Answered env past x s used ∧ Final Q outcome ∧
    ∀ rest n, (used ++ rest).length ≤ n → x n (used ++ rest) s = outcome rest

/-- A program comes to an end when it is driven by a strategy that has answered `past` before. -/
def Ends (env : Strategy ι κ σ) (past : List ι) (x : Exec ι κ σ α) (Q : α → σ → Prop) (s : σ) :
    Prop :=
  EndsN env past (fun _ => x) Q s

variable {env : Strategy ι κ σ} {past : List ι} {s : σ} {Q : α → σ → Prop}

/-! ### What it gives -/

/-- The answers that are known of a run are those that the strategy gives, one by one. -/
theorem Answered.drive {x : Exec ι κ σ α} {used : List ι}
    (h : Answered env [] (fun _ => x) s used) :
    ∀ {n : Nat}, n ≤ used.length → drive env x s n = used.take n
  | 0, _ => by rw [List.take_zero, Exec.drive]
  | n + 1, hn => by
    have ih : Exec.drive env x s n = used.take n := h.drive (Nat.le_of_succ_le hn)
    obtain ⟨call, s', hwait, hi⟩ := h (used.take n) used[n] (used.drop (n + 1))
      (by rw [← List.drop_eq_getElem_cons hn, List.take_append_drop])
    have hwait : x (used.take n) s = .waiting call s' := hwait _ (Nat.le_refl _)
    rw [Exec.drive, ih, hwait, List.take_succ_eq_append_getElem hn, ← hi, List.nil_append]

/-- A driven run that is never blocked returns, or is undefined. -/
theorem Ends.returns {x : Exec ι κ σ α} (h : Ends env [] x Q s)
    (hpossible : ∀ n, ¬ Blocked x (drive env x s n) s) :
    ∃ n, (∃ a s', x (drive env x s n) s = .done a [] s' ∧ Q a s') ∨
      x (drive env x s n) s = .stuck := by
  obtain ⟨used, outcome, hanswered, hfinal, hrun⟩ := h
  have hdrive : drive env x s used.length = used := by
    rw [hanswered.drive (Nat.le_refl _), List.take_length]
  have hend := hrun [] _ (Nat.le_refl _)
  rw [List.append_nil] at hend
  refine ⟨used.length, ?_⟩
  rw [hdrive]
  cases hfinal with
  | done hQ => exact .inl ⟨_, _, hend, hQ⟩
  | stuck => exact .inr hend
  -- A run that is blocked after `used` is blocked for every continuation.
  | blocked call s' =>
    refine absurd ⟨call, s', fun rest => ?_⟩ (hpossible used.length)
    rw [hdrive]
    exact hrun rest _ (Nat.le_refl _)

/-- More answers continue those before. -/
theorem drive_mono (env : Strategy ι κ σ) (x : Exec ι κ σ α) (s : σ) (m : Nat) :
    ∀ k, drive env x s m <+: drive env x s (m + k)
  | 0 => List.prefix_rfl
  | k + 1 => by
    refine (drive_mono env x s m k).trans ?_
    rw [← Nat.add_assoc, drive]
    cases x (drive env x s (m + k)) s with
    | waiting call s' => exact List.prefix_append ..
    | done a rest s' => exact List.prefix_rfl
    | stuck => exact List.prefix_rfl

/-- Nothing more is answered once the program has returned. -/
theorem drive_of_done {x : Exec ι κ σ α} {m : Nat} {a : α} {rest : List ι} {s' : σ}
    (h : x (drive env x s m) s = .done a rest s') : ∀ k, drive env x s (m + k) = drive env x s m
  | 0 => rfl
  | k + 1 => by rw [← Nat.add_assoc, drive, drive_of_done h k, h]

/-- A driven run that returns has not been blocked. -/
theorem not_blocked_of_done {x : Exec ι κ σ α} {m : Nat} {a : α} {rest : List ι} {s' : σ}
    (h : x (drive env x s m) s = .done a rest s') (n : Nat) : ¬ Blocked x (drive env x s n) s := by
  rintro ⟨call, s'', hblocked⟩
  -- Either the run went on from there and returned, or it had returned before.
  obtain ⟨k, rfl⟩ | ⟨k, rfl⟩ :=
    (Nat.le_total n m).imp Nat.exists_eq_add_of_le Nat.exists_eq_add_of_le
  · obtain ⟨ext, hext⟩ := drive_mono env x s n k
    have hwait := hblocked ext
    rw [hext, h] at hwait
    cases hwait
  · have hwait := hblocked []
    rw [List.append_nil, drive_of_done h, h] at hwait
    cases hwait

/-! ### Rules -/

/-- A program that only returns asks nothing. -/
theorem endsN_pure {a : α} (h : Q a s) : EndsN env past (fun _ => (pure a : Exec ι κ σ α)) Q s :=
  ⟨[], _, by rintro (_ | _) _ _ ⟨⟩, .done h, fun _ _ _ => rfl⟩

section Bind

variable {x : Nat → Exec ι κ σ β} {f : Nat → β → Exec ι κ σ α} {used : List ι}

/-- While the first program waits, so does the whole. -/
theorem Answered.bind_left (h : Answered env past x s used) :
    Answered env past (fun n => x n >>= f n) s used := by
  intro pre i rest hused
  obtain ⟨call, s', hwait, hi⟩ := h pre i rest hused
  exact ⟨call, s', fun n hn => bind_of_waiting (hwait n hn), hi⟩

/-- The answers to the first program, and then those to the second. -/
theorem Answered.bind {b : β} {s₁ : σ} {used' : List ι} (h : Answered env past x s used)
    (hrun : ∀ rest n, (used ++ rest).length ≤ n → x n (used ++ rest) s = .done b rest s₁)
    (h' : Answered env (past ++ used) (fun n => f n b) s₁ used') :
    Answered env past (fun n => x n >>= f n) s (used ++ used') := by
  have hsecond : ∀ mid i rest, used' = mid ++ i :: rest → ∃ call s',
      (∀ n, (used ++ mid).length ≤ n → (x n >>= f n) (used ++ mid) s = .waiting call s') ∧
        env (past ++ (used ++ mid)) call s' = i := by
    intro mid i rest hused'
    obtain ⟨call, s', hwait, hi⟩ := h' mid i rest hused'
    refine ⟨call, s', fun n hn => (bind_of_done (hrun mid n hn)).trans (hwait n ?_), ?_⟩
    · rw [List.length_append] at hn
      omega
    · rw [← List.append_assoc]
      exact hi
  intro pre i rest hused
  -- The answer was given to the first program or to the second.
  obtain ⟨mid, rfl, hmid⟩ | ⟨mid, hpre, hmid⟩ := List.append_eq_append_iff.mp hused
  · exact hsecond mid i rest hmid
  · cases mid with
    | nil =>
      rw [List.append_nil] at hpre
      subst hpre
      have hwait := hsecond [] i rest hmid.symm
      rwa [List.append_nil] at hwait
    | cons j mid =>
      cases hmid
      exact h.bind_left pre i mid hpre

/-- The rule of sequence with fuel. The second program may assume what the first ends with. -/
theorem endsN_bind {R : β → σ → Prop} (h : EndsN env past x R s)
    (hf : ∀ past' b s', past.length ≤ past'.length → R b s' →
      EndsN env past' (fun n => f n b) Q s') :
    EndsN env past (fun n => x n >>= f n) Q s := by
  obtain ⟨used, outcome, hanswered, hfinal, hrun⟩ := h
  -- The whole ends as the first program does, unless that returns.
  cases hfinal with
  | blocked call s' =>
    exact ⟨used, _, hanswered.bind_left, .blocked call s',
      fun rest n hn => bind_of_waiting (hrun rest n hn)⟩
  | stuck =>
    exact ⟨used, _, hanswered.bind_left, .stuck, fun rest n hn => bind_of_stuck (hrun rest n hn)⟩
  | @done b s₁ hR =>
    have hlen : past.length ≤ (past ++ used).length := by
      rw [List.length_append]
      omega
    obtain ⟨used', outcome', hanswered', hfinal', hrun'⟩ := hf (past ++ used) b s₁ hlen hR
    refine ⟨used ++ used', outcome', hanswered.bind hrun hanswered', hfinal', fun rest n hn => ?_⟩
    rw [List.append_assoc] at hn ⊢
    refine (bind_of_done (hrun (used' ++ rest) n hn)).trans (hrun' rest n ?_)
    rw [List.length_append] at hn
    omega

end Bind

/-- The head of a loop with fuel: a round takes an answer and one unit of fuel. -/
theorem endsN_head {head : κ} {x y : Nat → Exec ι κ σ α}
    (hzero : x 0 = fun _ s => .waiting head s)
    (hsucc : ∀ n, x (n + 1) = ask head (fun _ => some ()) >>= fun _ => y n)
    (h : EndsN env (past ++ [env past head s]) y Q s) : EndsN env past x Q s := by
  obtain ⟨used, outcome, hanswered, hfinal, hrun⟩ := h
  refine ⟨env past head s :: used, outcome, ?_, hfinal, fun rest n hn => ?_⟩
  · intro pre i rest hused
    cases pre with
    | nil =>
      cases hused
      refine ⟨head, s, fun n _ => ?_, by rw [List.append_nil]⟩
      cases n with
      | zero => rw [hzero]
      | succ n => rw [hsucc]; rfl
    | cons j pre =>
      cases hused
      obtain ⟨call, s', hwait, hi⟩ := hanswered pre i rest rfl
      refine ⟨call, s', fun n hn => ?_, by rw [← hi, List.append_assoc]; rfl⟩
      cases n with
      | zero => cases hn
      | succ n =>
        rw [hsucc]
        exact (bind_of_done rfl).trans (hwait n (Nat.le_of_succ_le_succ hn))
  · cases n with
    | zero => cases hn
    | succ n =>
      rw [hsucc]
      exact (bind_of_done rfl).trans (hrun rest n (Nat.le_of_succ_le_succ hn))

/-- A program that only returns. -/
theorem ends_pure {a : α} (h : Q a s) : Ends env past (pure a : Exec ι κ σ α) Q s :=
  endsN_pure h

/-- A program after one that ends with `R`. -/
theorem ends_seq {x : Exec ι κ σ β} {f : β → Exec ι κ σ α} {R : β → σ → Prop}
    (h : Ends env past x R s)
    (hf : ∀ past' b s', past.length ≤ past'.length → R b s' → Ends env past' (f b) Q s') :
    Ends env past (x >>= f) Q s :=
  endsN_bind h hf

/-- Reading the state asks nothing. -/
theorem ends_get_bind {f : σ → Exec ι κ σ α} (h : Ends env past (f s) Q s) :
    Ends env past (get >>= f) Q s :=
  h

/-- A change of the state asks nothing. -/
theorem ends_modify {g : σ → σ} {Q : Unit → σ → Prop} (h : Q () (g s)) :
    Ends env past (modify g : Exec ι κ σ Unit) Q s :=
  ⟨[], _, by rintro (_ | _) _ _ ⟨⟩, .done h, fun _ _ _ => rfl⟩

/-- A change of the state, and then the rest. -/
theorem ends_modify_bind {g : σ → σ} {f : Unit → Exec ι κ σ α} (h : Ends env past (f ()) Q (g s)) :
    Ends env past (modify g >>= f) Q s :=
  h

/-- A value that is undefined ends the run too. -/
theorem ends_defined_bind {o : Option β} {f : β → Exec ι κ σ α}
    (h : ∀ b, o = some b → Ends env past (f b) Q s) : Ends env past (defined o >>= f) Q s := by
  cases o with
  | none => exact ⟨[], _, by rintro (_ | _) _ _ ⟨⟩, .stuck, fun _ _ _ => rfl⟩
  | some b => exact h b rfl

/-- A call is answered, or the answer is refused. -/
theorem ends_ask {call : κ} {legal : ι → Option α}
    (h : ∀ a, legal (env past call s) = some a → Q a s) :
    Ends env past (ask call legal) Q s := by
  have hanswered : Answered env past (fun _ => ask call legal) s [env past call s] := by
    rintro (_ | ⟨_, _ | _⟩) i rest ⟨⟩
    exact ⟨call, s, fun _ _ => rfl, by rw [List.append_nil]⟩
  cases ha : legal (env past call s) with
  | none => exact ⟨_, _, hanswered, .blocked call s, fun rest _ _ => by simp [ask, ha]⟩
  | some a => exact ⟨_, _, hanswered, .done (h a ha), fun rest _ _ => by simp [ask, ha]⟩

/-- A call, and then the rest with one answer more in the past. -/
theorem ends_ask_bind {call : κ} {legal : ι → Option β} {f : β → Exec ι κ σ α}
    (h : ∀ past' b, past.length ≤ past'.length → legal (env past call s) = some b →
      Ends env past' (f b) Q s) :
    Ends env past (ask call legal >>= f) Q s :=
  ends_seq (R := fun b s' => legal (env past call s) = some b ∧ s' = s)
    (ends_ask fun _ ha => ⟨ha, rfl⟩) fun past' b _ hlen hb => hb.2 ▸ h past' b hlen hb.1

/-- A loop with fuel. The measure is the time that is left until `T`, and then the variant. -/
theorem endsN_loopN {T : Nat} (head : κ) {body : β → Exec ι κ σ (Round β α)} (V : β → σ → Nat)
    (hbody : ∀ past b s, Ends env past (body b) (Round.Sat
      (fun b' s' => T ≤ past.length → V b' s' < V b s) Q) s)
    (past : List ι) (b : β) (s : σ) : EndsN env past (fun n => loopN head body n b) Q s := by
  refine endsN_head rfl (fun _ => rfl) (endsN_bind (hbody _ b s) fun past' r s' hlen hr => ?_)
  cases r with
  | leave a => exact endsN_pure hr
  | again b' =>
    -- The head has taken an answer, so before the time `T` the round has brought it nearer.
    rw [List.length_append, List.length_singleton] at hlen
    have hlower : T - past'.length < T - past.length ∨
        T - past'.length = T - past.length ∧ V b' s' < V b s := by
      by_cases hT : T ≤ past.length
      · refine .inr ⟨by omega, hr ?_⟩
        rw [List.length_append]
        omega
      · exact .inl (by omega)
    exact endsN_loopN head V hbody past' b' s'
termination_by (T - past.length, V b s)
decreasing_by exact Prod.lex_def.mpr hlower

/-- The loop rule. From the time `T` on, a round that does not leave lowers the variant. -/
theorem ends_loop {T : Nat} {head : κ} {body : β → Exec ι κ σ (Round β α)} (V : β → σ → Nat)
    (hbody : ∀ past b s, Ends env past (body b) (Round.Sat
      (fun b' s' => T ≤ past.length → V b' s' < V b s) Q) s) {b : β} :
    Ends env past (loop head body b) Q s := by
  obtain ⟨used, outcome, hanswered, hfinal, hrun⟩ := endsN_loopN head V hbody past b s
  refine ⟨used, outcome, fun pre i rest hused => ?_, hfinal,
    fun rest _ _ => hrun rest _ (Nat.le_refl _)⟩
  obtain ⟨call, s', hwait, hi⟩ := hanswered pre i rest hused
  exact ⟨call, s', fun _ _ => hwait _ (Nat.le_refl _), hi⟩

/-- A loop over a list, each round of which ends. -/
theorem ends_forM {body : β → Exec ι κ σ Unit}
    (hbody : ∀ past b s, Ends env past (body b) (fun _ _ => True) s) :
    ∀ {past : List ι} {l : List β} {s : σ}, Ends env past (l.forM body) (fun _ _ => True) s
  | _, [], _ => ends_pure trivial
  | _, b :: _, _ => ends_seq (hbody _ b _) fun _ _ _ _ _ => ends_forM hbody

end Exec

end TinyRedis.Lib
