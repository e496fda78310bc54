import TinyRedis.Proofs.Command.Expiry
import TinyRedis.Proofs.Command.Sync

/-!
# `TinyRedis.Proofs.Command.Checked`: where the model and the source agree on overflow

The model wraps where the source has no defined behaviour. Two results say what that comes to.

* `Checked.dispatch_sound`: wherever every signed operation of a command is defined, `dispatch`
  gives what the source gives. Nothing is assumed of the store, the command or the time. So the
  model is never wrong about a behaviour that the source has; it only has more of them.
* `Checked.dispatch_eq`: at a time of at least 500, on a store that keeps its invariant, every
  signed operation of every command is defined. The bound is that of the rounding in `TTL`: a
  deadline is at most `2 ^ 63 - 1`, so at most `2 ^ 63 - 501` milliseconds are left of it, and half
  a second more is in range. Times of the wall clock are in milliseconds since 1970, so a time below
  500 is a clock that was never set.

Both are proved function by function, in the order of the calls. `Checked.dispatchAll_sound` is the
first for runs of commands.

The source checks a deadline before it multiplies and adds (`Checked.deadline`), so a number from a
client cannot overflow it at a time that is not negative (`numbered_eq`). It does not check the
rounding of `TTL`, nor the sum that `DEL` and `EXISTS` count with. The sum is no more than the
number of arguments, which the command has 16 of at most (`foldlM_counting`, `length_keys_le`).
-/

set_option autoImplicit false

namespace TinyRedis.Checked

open Lib

/-! ### Where an operation is defined, it does not wrap -/

section Operations

variable {a b r : Int64}

/-- A sum that does not overflow is the sum in `Int64`. -/
theorem add_sound (h : add a b = some r) : r = a + b := by
  unfold add at h
  split at h
  · exact (Option.some.inj h).symm
  · cases h

/-- A difference that does not overflow is the difference in `Int64`. -/
theorem sub_sound (h : sub a b = some r) : r = a - b := by
  unfold sub at h
  split at h
  · exact (Option.some.inj h).symm
  · cases h

/-- A product that does not overflow is the product in `Int64`. -/
theorem mul_sound (h : mul a b = some r) : r = a * b := by
  unfold mul at h
  split at h
  · exact (Option.some.inj h).symm
  · cases h

/-- A quotient with a divisor that is not zero, and that does not overflow, is the one in `Int64`.
-/
theorem div_sound (h : div a b = some r) : r = a / b := by
  unfold div at h
  split at h
  · exact (Option.some.inj h).symm
  · cases h

end Operations

/-- A deadline that is computed without overflow is the one of the model. -/
theorem deadline_sound {n unitMs now : Int64} {r : Option Int64}
    (h : deadline n unitMs now = some r) : TinyRedis.deadline n unitMs now = r := by
  simp only [deadline, Option.bind_eq_bind, Option.bind_eq_some_iff] at h
  obtain ⟨remaining, hremaining, bound, hbound, h⟩ := h
  obtain rfl := sub_sound hremaining
  obtain rfl := div_sound hbound
  unfold TinyRedis.deadline
  split at h
  · next hgt =>
    rw [if_pos hgt]
    exact Option.some.inj h
  · next hle =>
    rw [if_neg hle]
    simp only [Option.bind_eq_some_iff] at h
    obtain ⟨product, hproduct, sum, hsum, h⟩ := h
    obtain rfl := mul_sound hproduct
    obtain rfl := add_sound hsum
    exact Option.some.inj h

/-- The deadline of a number that an option gives, if the number is positive. -/
theorem numbered_sound {n unitMs now : Int64} {r : Option Int64}
    (h : (if n > 0 then deadline n unitMs now else some none) = some r) :
    (if n > 0 then TinyRedis.deadline n unitMs now else none) = r := by
  split at h
  · next hpos =>
    rw [if_pos hpos]
    exact deadline_sound h
  · next hpos =>
    rw [if_neg hpos]
    exact Option.some.inj h

/-- A positive number gets a deadline without overflow. -/
theorem numbered_eq {n unitMs now : Int64} (hnow : 0 ≤ now) (hunit : 0 < unitMs) :
    (if n > 0 then deadline n unitMs now else some none)
      = some (if n > 0 then TinyRedis.deadline n unitMs now else none) := by
  split
  · next hpos => exact (deadlineInRange hnow hpos hunit).checked
  · rfl

/-- The units of the options. -/
theorem unit_pos (ex : Bool) : 0 < (if ex then kMsPerSec else 1 : Int64) := by
  cases ex <;> decide

/-- The loop makes the same choices, argument by argument. -/
theorem setOptions_sound {now : Int64} (args : List Bytes) (expireAt : Int64) (have_ : Bool) :
    ∀ {r : Except SetError Int64}, setOptions now args expireAt have_ = some r →
      TinyRedis.setOptions now args expireAt have_ = r := by
  -- The cases are those of the option loop. Only the last two compute anything.
  fun_induction TinyRedis.setOptions now args expireAt have_ with
  | case1 => exact Option.some.inj
  | case2 _ _ _ _ hkeep ih =>
    rw [setOptions, if_pos hkeep]
    exact ih
  | case3 _ _ _ hkeep =>
    rw [setOptions, if_neg hkeep]
    exact Option.some.inj
  | case4 _ _ _ hkeep =>
    rename_i hbad
    rw [setOptions, if_neg hkeep]
    dsimp only
    rw [if_pos hbad]
    exact Option.some.inj
  | case5 _ _ _ hkeep =>
    rename_i hgood hint
    rw [setOptions, if_neg hkeep]
    dsimp only
    rw [if_neg hgood, hint]
    exact Option.some.inj
  | case6 _ _ _ hkeep =>
    rename_i hgood n hint hnone
    rw [setOptions, if_neg hkeep]
    dsimp only
    rw [if_neg hgood, hint]
    intro r h
    obtain ⟨at_, hat, h⟩ := Option.bind_eq_some_iff.mp h
    rw [numbered_sound hat] at hnone
    subst hnone
    exact Option.some.inj h
  | case7 _ _ _ hkeep =>
    rename_i hgood n hint expireAt hsome ih
    rw [setOptions, if_neg hkeep]
    dsimp only
    rw [if_neg hgood, hint]
    intro r h
    obtain ⟨at_, hat, h⟩ := Option.bind_eq_some_iff.mp h
    rw [numbered_sound hat] at hsome
    subst hsome
    exact ih h

variable [EntryPool]

section Sound

variable {s s' : Store} {cmd : Command} {now : Int64} {out out' : Buffer}

/-- `SET` computes with nothing but the options. -/
theorem cmdSet_sound (h : cmdSet s cmd now out = some (s', out')) :
    TinyRedis.cmdSet s cmd now out = some (s', out') := by
  obtain ⟨opts, hopts, h⟩ := Option.bind_eq_some_iff.mp h
  rw [TinyRedis.cmdSet, setOptions_sound _ _ _ hopts]
  cases opts with
  | error e => cases e <;> exact h
  | ok expireAt => exact h

/-- `EXPIRE` computes one deadline. -/
theorem cmdExpire_sound (h : cmdExpire s cmd now out = some (s', out')) :
    TinyRedis.cmdExpire s cmd now out = some (s', out') := by
  unfold cmdExpire at h
  unfold TinyRedis.cmdExpire
  cases hint : parseInt (cmd.get 2) with
  | none =>
    rw [hint] at h
    exact h
  | some secs =>
    rw [hint] at h
    dsimp only at h ⊢
    split at h
    · next hsecs =>
      rw [if_pos hsecs]
      exact h
    · next hsecs =>
      rw [if_neg hsecs]
      obtain ⟨at_, hat, h⟩ := Option.bind_eq_some_iff.mp h
      rw [deadline_sound hat]
      cases at_ <;> exact h

/-- The time that is left, as the store computes it. -/
theorem ttlMs_sound {key : Bytes} {ms : Int64} (h : ttlMs s key now = some (ms, s')) :
    s.ttlMs key now = some (ms, s') := by
  obtain ⟨⟨found, s₁⟩, hlook, h⟩ := Option.bind_eq_some_iff.mp h
  rw [Store.ttlMs, hlook]
  cases found with
  | none => exact h
  | some p =>
    obtain ⟨e, he, h⟩ := Option.bind_eq_some_iff.mp h
    simp only [Option.bind_eq_bind, Option.bind_some, he]
    split at h
    · next hno =>
      rw [if_pos hno]
      exact h
    · next hno =>
      rw [if_neg hno]
      obtain ⟨left, hleft, h⟩ := Option.bind_eq_some_iff.mp h
      rw [← sub_sound hleft]
      exact h

/-- `TTL` rounds what is left to seconds. -/
theorem cmdTtl_sound (h : cmdTtl s cmd now out = some (s', out')) :
    TinyRedis.cmdTtl s cmd now out = some (s', out') := by
  obtain ⟨⟨ms, s₁⟩, httl, h⟩ := Option.bind_eq_some_iff.mp h
  obtain ⟨secs, hsecs, h⟩ := Option.bind_eq_some_iff.mp h
  rw [seconds_eq] at hsecs
  split at hsecs
  · cases hsecs
    rw [TinyRedis.cmdTtl, ttlMs_sound httl]
    exact h
  · cases hsecs

/-- A count that is defined is the count of the model. -/
theorem delStep_sound {x x' : Store × Int64} {key : Bytes} (h : delStep now x key = some x') :
    TinyRedis.delStep now x key = some x' := by
  obtain ⟨⟨erased, s₁⟩, herase, h⟩ := Option.bind_eq_some_iff.mp h
  obtain ⟨n, hn, h⟩ := Option.bind_eq_some_iff.mp h
  rw [TinyRedis.delStep, herase]
  rw [add_sound hn] at h
  exact h

/-- One round of the loop of `EXISTS`. -/
theorem existsStep_sound {x x' : Store × Int64} {key : Bytes}
    (h : existsStep now x key = some x') : TinyRedis.existsStep now x key = some x' := by
  obtain ⟨⟨e, s₁⟩, hfind, h⟩ := Option.bind_eq_some_iff.mp h
  obtain ⟨n, hn, h⟩ := Option.bind_eq_some_iff.mp h
  rw [TinyRedis.existsStep, hfind]
  rw [add_sound hn] at h
  exact h

/-- Every handler, from the ones that compute. -/
theorem handle_sound {c : Cmd} (h : handle s c cmd now out = some (s', out')) :
    TinyRedis.handle s c cmd now out = some (s', out') := by
  cases c with
  | kSet => exact cmdSet_sound h
  | kExpire => exact cmdExpire_sound h
  | kTtl => exact cmdTtl_sound h
  | kDel =>
    obtain ⟨x, hx, h⟩ := Option.bind_eq_some_iff.mp h
    exact Option.bind_eq_some_iff.mpr ⟨x, foldlM_mono (fun _ _ _ => delStep_sound) hx, h⟩
  | kExists =>
    obtain ⟨x, hx, h⟩ := Option.bind_eq_some_iff.mp h
    exact Option.bind_eq_some_iff.mpr ⟨x, foldlM_mono (fun _ _ _ => existsStep_sound) hx, h⟩
  | kGet | kPing | kEcho | kDbsize | kFlushall | kQuit => exact h

/-- Wherever a command is defined in the source, the model does what the source does. -/
theorem dispatch_sound {d : DispatchResult} (h : dispatch s cmd now out = some (d, s', out')) :
    TinyRedis.dispatch s cmd now out = some (d, s', out') := by
  unfold dispatch at h
  unfold TinyRedis.dispatch
  -- The checks before the handler compute nothing, so both functions take the same branch.
  split at h
  · next hargc =>
    rw [if_pos hargc]
    exact h
  next hargc =>
  rw [if_neg hargc]
  cases hlookup : lookup (cmd.get 0) with
  | none =>
    rw [hlookup] at h
    exact h
  | some spec =>
    rw [hlookup] at h
    dsimp only at h ⊢
    split at h
    · next harity =>
      rw [if_pos harity]
      exact h
    · next harity =>
      rw [if_neg harity]
      obtain ⟨⟨s₁, out₁⟩, hhandle, h⟩ := Option.bind_eq_some_iff.mp h
      exact Option.bind_eq_some_iff.mpr ⟨_, handle_sound hhandle, h⟩

end Sound

/-! ### Where every operation is defined -/

section Defined

variable {now : Int64}

omit [EntryPool] in
/-- The numbers that are given a deadline are positive. -/
theorem setOptions_eq (hnow : 0 ≤ now) (args : List Bytes) (expireAt : Int64) (have_ : Bool) :
    setOptions now args expireAt have_
      = some (TinyRedis.setOptions now args expireAt have_) := by
  fun_induction TinyRedis.setOptions now args expireAt have_ with
  | case1 => rfl
  | case2 _ _ _ _ hkeep ih => rw [setOptions, if_pos hkeep, ih]
  | case3 _ _ _ hkeep => rw [setOptions, if_neg hkeep]
  | case4 _ _ _ hkeep =>
    rename_i hbad
    rw [setOptions, if_neg hkeep]
    exact if_pos hbad
  | case5 _ _ _ hkeep =>
    rename_i hgood hint
    rw [setOptions, if_neg hkeep]
    dsimp only
    rw [if_neg hgood, hint]
  | case6 _ _ _ hkeep =>
    rename_i hgood n hint hnone
    rw [setOptions, if_neg hkeep]
    dsimp only
    rw [if_neg hgood, hint]
    dsimp only
    rw [numbered_eq hnow (unit_pos _), hnone]
    rfl
  | case7 _ _ _ hkeep =>
    rename_i hgood n hint expireAt hsome ih
    rw [setOptions, if_neg hkeep]
    dsimp only
    rw [if_neg hgood, hint]
    dsimp only
    rw [numbered_eq hnow (unit_pos _), hsome]
    exact ih

variable {s : Store} {cmd : Command}

/-- `SET` is defined at a time that is not negative. -/
theorem cmdSet_eq (hnow : 0 ≤ now) (out : Buffer) :
    cmdSet s cmd now out = TinyRedis.cmdSet s cmd now out := by
  rw [cmdSet, setOptions_eq hnow, TinyRedis.cmdSet, Option.bind_eq_bind, Option.bind_some]
  cases TinyRedis.setOptions now (cmd.args.drop 3) kNoExpiry false with
  | error e => cases e <;> rfl
  | ok expireAt => rfl

/-- `EXPIRE` is defined at a time that is not negative. -/
theorem cmdExpire_eq (hnow : 0 ≤ now) (out : Buffer) :
    cmdExpire s cmd now out = TinyRedis.cmdExpire s cmd now out := by
  unfold cmdExpire TinyRedis.cmdExpire
  cases parseInt (cmd.get 2) with
  | none => rfl
  | some secs =>
    dsimp only
    split
    · rfl
    · next hsecs =>
      have hpos : 0 < secs := Int64.not_le.mp hsecs
      rw [(deadlineInRange hnow hpos (by decide)).checked, Option.bind_eq_bind, Option.bind_some]
      cases TinyRedis.deadline secs kMsPerSec now <;> rfl

/-- From the bound on, no deadline is too far away to be rounded. -/
theorem ttlOf_le (hnow : 500 ≤ now) (key : Bytes) :
    (Store.ttlOf (s.view.live key now) now).toInt ≤ 2 ^ 63 - 1 - 500 := by
  have hnow' : 500 ≤ now.toInt := Int64.le_iff_toInt_le.mp hnow
  have hpos : 0 ≤ now := Int64.le_trans (by decide) hnow
  cases hlive : s.view.live key now with
  | none =>
    rw [Store.ttlOf]
    decide
  | some it =>
    have hfresh : it.expired now = false := by
      simpa using (Option.filter_eq_some_iff.mp hlive).2
    have hmax := it.expiresAtMs.toInt_lt
    rw [Store.ttlOf]
    split
    · decide
    · next hno =>
      rw [Item.toInt_ttl hpos hfresh hno]
      omega

/-- `TTL` is defined at a time of at least 500. -/
theorem cmdTtl_eq_of_le (h : s.table.Inv) (hnow : 500 ≤ now) (out : Buffer) :
    cmdTtl s cmd now out = TinyRedis.cmdTtl s cmd now out := by
  obtain ⟨s', httl, -⟩ := Store.ttlMs_spec h (cmd.get 1) now
  rw [cmdTtl_eq h (Int64.le_trans (by decide) hnow) httl]
  exact if_pos (ttlOf_le hnow (cmd.get 1))

omit [EntryPool] in
/-- A count that is far from the end of the type can go up. -/
theorem add_ite (n : Int64) (b : Bool) (h : 0 ≤ n.toInt) (hlt : n.toInt < 2 ^ 63 - 1) :
    add n (if b then 1 else 0) = some (n + if b then 1 else 0) := by
  refine if_pos ?_
  have hle : 0 ≤ (if b then 1 else 0 : Int64).toInt ∧ (if b then 1 else 0 : Int64).toInt ≤ 1 := by
    cases b <;> decide
  exact ⟨by omega, by omega⟩

/-- Loops that count what a call says count alike, as long as the count stays in range. -/
theorem foldlM_counting (op : Store → Bytes → Option (Bool × Store))
    {f g : Store × Int64 → Bytes → Option (Store × Int64)}
    (hf : ∀ s n key, f (s, n) key
      = (op s key).bind fun r => (add n (if r.1 then 1 else 0)).map fun n => (r.2, n))
    (hg : ∀ s n key, g (s, n) key = (op s key).map fun r => (r.2, n + if r.1 then 1 else 0)) :
    ∀ (keys : List Bytes) (s : Store) (n : Int64), 0 ≤ n.toInt →
      n.toInt + keys.length ≤ 2 ^ 63 - 1 → keys.foldlM f (s, n) = keys.foldlM g (s, n) := by
  -- The count has room for one more key in every round, since the keys left are counted in.
  intro keys
  induction keys with
  | nil => intros; rfl
  | cons key keys ih =>
    intro s n hn hroom
    rw [List.length_cons] at hroom
    rw [List.foldlM_cons, List.foldlM_cons, hf, hg]
    cases hop : op s key with
    | none => rfl
    | some r =>
      have hstep := add_ite n r.1 hn (by omega)
      have hone : (if r.1 then 1 else 0 : Int64).toInt = if r.1 then 1 else 0 := by
        cases r.1 <;> decide
      have hnext : (n + if r.1 then 1 else 0).toInt = n.toInt + if r.1 then 1 else 0 := by
        rw [Int64.toInt_add, hone, Int.bmod_eq_of_le] <;> split <;> omega
      rw [Option.bind_some, hstep, Option.map_some, Option.map_some, Option.bind_eq_bind,
        Option.bind_some, Option.bind_some]
      refine ih r.2 _ ?_ ?_
      · rw [hnext]
        split <;> omega
      · rw [hnext]
        split <;> omega

omit [EntryPool] in
/-- A command has few arguments. -/
theorem length_keys_le (cmd : Command) : (cmd.args.drop 1).length ≤ 16 := by
  have hargs : cmd.args.length ≤ kMaxArgs := by simp [Command.args]
  rw [List.length_drop]
  exact Nat.le_trans (Nat.sub_le ..) hargs

/-- `DEL` is defined: it counts no more keys than a command has. -/
theorem cmdDel_eq (out : Buffer) : cmdDel s cmd now out = TinyRedis.cmdDel s cmd now out := by
  have hloop := foldlM_counting (fun s key => s.erase key now) (f := delStep now)
    (g := TinyRedis.delStep now) (fun s n key => ?_) (fun s n key => ?_) (cmd.args.drop 1) s 0
    (by decide) (by have := length_keys_le cmd; rw [Int64.toInt_zero]; omega)
  · rw [cmdDel, TinyRedis.cmdDel, hloop]
  · rw [delStep]
    cases s.erase key now with
    | none => rfl
    | some r =>
      simp only [Option.bind_eq_bind, Option.bind_some]
      cases add n (if r.1 then 1 else 0) <;> rfl
  · rw [TinyRedis.delStep]
    cases s.erase key now <;> rfl

/-- `EXISTS` is defined: it counts each of its arguments once at most. -/
theorem cmdExists_eq (out : Buffer) :
    cmdExists s cmd now out = TinyRedis.cmdExists s cmd now out := by
  have hloop := foldlM_counting
    (fun s key => (s.find key now false).map fun r => (r.1.isSome, r.2))
    (f := existsStep now) (g := TinyRedis.existsStep now) (fun s n key => ?_) (fun s n key => ?_)
    (cmd.args.drop 1) s 0 (by decide) (by have := length_keys_le cmd; rw [Int64.toInt_zero]; omega)
  · rw [cmdExists, TinyRedis.cmdExists, hloop]
  · rw [existsStep]
    cases s.find key now false with
    | none => rfl
    | some r =>
      simp only [Option.bind_eq_bind, Option.bind_some, Option.map_some]
      cases add n (if r.1.isSome then 1 else 0) <;> rfl
  · rw [TinyRedis.existsStep]
    cases s.find key now false <;> rfl

/-- No signed operation of a command overflows at a time of at least 500: the source is defined, and
the model does what it does. -/
theorem dispatch_eq (h : s.table.Inv) (hnow : 500 ≤ now) (out : Buffer) :
    dispatch s cmd now out = TinyRedis.dispatch s cmd now out := by
  have hpos : 0 ≤ now := Int64.le_trans (by decide) hnow
  have hhandle : ∀ c, handle s c cmd now out = TinyRedis.handle s c cmd now out := by
    intro c
    cases c with
    | kSet => exact cmdSet_eq hpos out
    | kExpire => exact cmdExpire_eq hpos out
    | kTtl => exact cmdTtl_eq_of_le h hnow out
    | kDel => exact cmdDel_eq out
    | kExists => exact cmdExists_eq out
    | kGet | kPing | kEcho | kDbsize | kFlushall | kQuit => rfl
  simp only [dispatch, hhandle]
  rfl

end Defined

/-! ### Runs of commands -/

/-- A command at its time, on a store and an output. -/
def dispatchStep (x : Store × Buffer) (c : Command × Int64) : Option (Store × Buffer) :=
  (dispatch x.1 c.1 c.2 x.2).map fun r => r.2

/-- Commands dispatched one after another. -/
def dispatchAll (s : Store) (out : Buffer) (cmds : List (Command × Int64)) :
    Option (Store × Buffer) :=
  cmds.foldlM dispatchStep (s, out)

/-- A run of commands that is defined is one of the model. -/
theorem dispatchAll_sound {s : Store} {out : Buffer} {cmds : List (Command × Int64)}
    {x : Store × Buffer} (h : dispatchAll s out cmds = some x) :
    TinyRedis.dispatchAll s out cmds = some x := by
  refine foldlM_mono (fun x c x' hx => ?_) h
  obtain ⟨⟨d, x''⟩, hdispatch, rfl⟩ := Option.map_eq_some_iff.mp hx
  exact Option.map_eq_some_iff.mpr ⟨_, dispatch_sound hdispatch, rfl⟩

end TinyRedis.Checked
