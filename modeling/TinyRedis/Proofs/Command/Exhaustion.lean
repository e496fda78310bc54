import TinyRedis.Proofs.Command.Expiry
import TinyRedis.Proofs.Command.Failures
import TinyRedis.Proofs.Command.Sync

/-!
# `TinyRedis.Proofs.Command.Exhaustion`: SET and a pool that runs out

`set` writes the new entry through the pointer that `insert` returns. With a cap of at most the pool
the pointer is never null: a store that is full refuses the key, or evicts first. Nothing in the
release build checks the cap. With a larger one, SETs of as many different keys as the pool has
blocks are answered OK, and the next one writes through a null pointer (`fill_undefined`).

* `Reported`: what a `SET` should come to. It is defined, a new key is stored and answered `OK` or
  refused and answered with the error of a full store, and bad options change nothing.
* `Store.Cap.reported`: it does, in a store whose cap is within the pool.
* `fill`: the commands that fill a store. Their keys are the decimal numbers, so they all differ.
* `fill_defined`: they are answered `OK` until the pool is empty, when the cap is above it.
* `exhaustion_reported_iff`: every run of `SET`s is reported as it should be, exactly when the cap
  is within the pool.

The keys of `fill` have to fit in an entry and there have to be enough of them; a pool has at most
`2 ^ 57` blocks, which is what `fill_fits` needs.
-/

set_option autoImplicit false

namespace TinyRedis

open Lib

/-! ### Options -/

/-- What the options of a SET ask for has not passed. -/
theorem setOptions_fresh {now : Int64} (hnow : 0 ≤ now) {args : List Bytes} {expireAt e : Int64}
    {haveExpiryOpt : Bool} (hfresh : ¬ Store.Past expireAt now)
    (hopts : setOptions now args expireAt haveExpiryOpt = .ok e) : ¬ Store.Past e now := by
  fun_induction setOptions now args expireAt haveExpiryOpt with
  | case1 =>
    cases hopts
    exact hfresh
  | case2 _ _ _ _ _ ih => exact ih (fun hpast => hpast.2.1 rfl) hopts
  | case7 _ _ _ _ ex _ _ _ n _ at_ hat ih =>
    refine ih (fun hpast => ?_) hopts
    split at hat
    · next hn =>
      have hunit : 0 < if ex then kMsPerSec else 1 := by split <;> decide
      have hlt := ((deadlineExact hnow hn hunit).value at_ hat).2.1
      exact absurd hpast.2.2 (Int64.not_lt.mpr (Int64.le_of_lt hlt))
    · cases hat
  | case3 | case4 | case5 | case6 => cases hopts

/-! ### A cap within the pool -/

/-- A SET at its time. -/
structure SetAt (c : Command × Int64) : Prop where
  isSet : c.1.IsSet
  fits : c.1.Fits
  time : 0 ≤ c.2

variable [EntryPool]

/-- What a SET does to `s`, wherever its key is new: `set` stores the pair, or returns `false` and
changes nothing, and the reply says which. A SET with wrong options changes nothing either. -/
structure Reported (s : Store) (c : Command × Int64) (out : Buffer) : Prop where
  defined : ∃ d s' out', dispatch s c.1 c.2 out = some (d, s', out') ∧ s'.Sound
  new_key : ∀ expireAt, setOptions c.2 (c.1.args.drop 3) kNoExpiry false = .ok expireAt →
    s.view.live (c.1.get 1) c.2 = none →
    (∃ s', s.set (c.1.get 1) (c.1.get 2) expireAt c.2 = some (true, s') ∧
      (s'.view (c.1.get 1)).map Item.value = some (c.1.get 2) ∧
      dispatch s c.1 c.2 out = some (.kContinue, s', reply.simpleString out (ascii "OK"))) ∨
    (s.set (c.1.get 1) (c.1.get 2) expireAt c.2 = some (false, s) ∧
      dispatch s c.1 c.2 out = some (.kContinue, s, reply.error out kOom))
  wrong_options : ∀ e, setOptions c.2 (c.1.args.drop 3) kNoExpiry false = .error e →
    ∃ out', dispatch s c.1 c.2 out = some (.kContinue, s, out')

namespace Store.Cap

variable {presized : Prop} {b₀ m₀ : Nat} {s : Store}

/-- A store within its capacity has its invariant, and is not over its cap. -/
theorem sound (h : Cap presized b₀ m₀ s) : s.Sound := ⟨h.inv, h.size_le, h.maxKeys_pos⟩

/-- In a store within its capacity, a `SET` is reported as it should be. -/
theorem reported (h : Cap presized b₀ m₀ s) {c : Command × Int64} (hc : SetAt c) (out : Buffer) :
    Reported s c out := by
  refine ⟨?_, fun expireAt hopts hlive => ?_, fun e hopts => ?_⟩
  · obtain ⟨d, s', out', hrun, hcap⟩ := h.dispatch c.1 c.2 out hc.fits
    exact ⟨d, s', out', hrun, hcap.sound⟩
  · obtain ⟨stored, s', hset, -⟩ := h.set expireAt c.2 hc.fits
    have hdispatch := dispatch_set_ok hc.isSet hopts hset out
    have hfresh := setOptions_fresh hc.time (by simp [Store.Past]) hopts
    -- Which of the ways of a `set` it is: the key is absent and the deadline is not past, so it is
    -- stored or refused.
    cases set_cases h.inv hc.fits hset with
    | past past => exact absurd past hfresh
    | overwritten _ live =>
      rw [hlive] at live
      cases live
    | refused =>
      obtain rfl := set_refused h.sound hset
      rw [if_neg Bool.false_ne_true] at hdispatch
      exact Or.inr ⟨hset, hdispatch⟩
    | inserted _ _ _ _ _ _ _ _ view =>
      rw [if_pos rfl] at hdispatch
      refine Or.inl ⟨s', hset, ?_, hdispatch⟩
      rw [view, Function.update_self]
      rfl
  · rw [dispatch_set hc.isSet, TinyRedis.cmdSet, hopts]
    cases e with
    | syntaxError => exact ⟨reply.error out kSyntax, rfl⟩
    | notInteger => exact ⟨reply.error out kNotInteger, rfl⟩
    | invalidExpire => exact ⟨invalidExpire (ascii "set") out, rfl⟩

end Store.Cap

/-! ### A cap above the pool -/

namespace Store

/-- Where the pool is exhausted, the insertion of a new key writes through a null pointer. -/
theorem insertNew_exhausted {s : Store} (h : s.table.Inv) {key value : Bytes}
    (expireAtMs now : Int64) (hfit : key.length + value.length < 2 ^ 32)
    (habsent : s.view key = none) (hfull : s.size = kPoolCapacity) :
    s.insertNew key value expireAtMs now = none := by
  rcases Table.insert_spec h hfit habsent with ⟨-, hins⟩ | ⟨p, t', -, hinv, -, -, hlive, -⟩
  · simp [insertNew, hins]
  · have hle := hinv.toBase.liveCount_le
    have hsize : s.table.liveCount = kPoolCapacity := hfull
    omega

/-- The cap lets the key through, and the pool has no block for it. -/
theorem set_exhausted {s : Store} (h : s.table.Inv) {key value : Bytes} {expireAtMs now : Int64}
    (hfit : key.length + value.length < 2 ^ 32) (habsent : s.view key = none)
    (hpast : ¬ Past expireAtMs now) (hfull : s.size = kPoolCapacity)
    (hroom : kPoolCapacity < s.maxKeys) : s.set key value expireAtMs now = none := by
  rw [set_absent (lookup_absent h habsent now) hpast, makeRoom, if_neg (by omega)]
  simp [insertNew_exhausted h expireAtMs now hfit habsent hfull]

end Store

section Fill

omit [EntryPool]

/-- The command with the given arguments, as the parser publishes one. -/
def Command.ofArgs (args : List Bytes) (h : args.length ≤ kMaxArgs) : Command :=
  { argv := Vector.ofFn fun i => args.getD i [], argc := args.length, argc_le := h }

/-- The arguments of the command are those it was built from. -/
theorem Command.get_ofArgs (args : List Bytes) (h : args.length ≤ kMaxArgs) (i : Fin kMaxArgs) :
    (ofArgs args h).get i = args.getD i [] := by
  show (Vector.ofFn _)[i.val] = _
  rw [Vector.getElem_ofFn]

/-- There are no others. -/
theorem Command.args_ofArgs (args : List Bytes) (h : args.length ≤ kMaxArgs) :
    (ofArgs args h).args = args := by
  apply List.ext_getElem
  · simp [Command.args, ofArgs, h]
  · intro i h₁ h₂
    simp [Command.args, ofArgs, h₂]

/-- `SET key value`. -/
def setCommand (key value : Bytes) : Command :=
  .ofArgs [ascii "SET", key, value] (show 3 ≤ kMaxArgs by decide)

/-- SETs of `n` different keys. -/
def fill (n : Nat) : List (Command × Int64) :=
  (List.range n).map fun i => (setCommand (decimal i) [], 0)

section Command

variable (key value : Bytes)

/-- The key of the command. -/
theorem setCommand_get_one : (setCommand key value).get 1 = key := Command.get_ofArgs _ _ 1

/-- The value of the command. -/
theorem setCommand_get_two : (setCommand key value).get 2 = value := Command.get_ofArgs _ _ 2

/-- The command has the name of a `SET`, and enough arguments. -/
theorem setCommand_isSet : (setCommand key value).IsSet := by
  refine ⟨?_, Nat.le_refl 3⟩
  rw [setCommand, Command.get_ofArgs]
  show (lookup (ascii "SET")).map Spec.cmd = some .kSet
  decide

/-- The command fits when its key and its value do. -/
theorem setCommand_fits (h : key.length + value.length < 2 ^ 32) :
    (setCommand key value).Fits := by
  rw [Command.Fits, setCommand_get_one, setCommand_get_two]
  exact h

/-- The command has no options. -/
theorem setCommand_options (now : Int64) :
    setOptions now ((setCommand key value).args.drop 3) kNoExpiry false = .ok kNoExpiry := by
  rw [setCommand, Command.args_ofArgs]
  rfl

end Command

/-- The commands are made one after the other. -/
theorem fill_succ (n : Nat) : fill (n + 1) = fill n ++ [(setCommand (decimal n) [], 0)] := by
  simp [fill, List.range_succ]

/-- Their keys are short enough. -/
theorem fill_fits {i : Nat} (hi : i ≤ 2 ^ 57) :
    (decimal i).length + ([] : Bytes).length < 2 ^ 32 := by
  have hlen := length_decimal_le (n := i) (k := 20) (by decide) (by omega)
  simp only [List.length_nil]
  omega

/-- All of them are `SET`s that fit. -/
theorem setAt_of_mem_fill {n : Nat} (hn : n ≤ 2 ^ 57 + 1) {c : Command × Int64} (h : c ∈ fill n) :
    SetAt c := by
  obtain ⟨i, hi, rfl⟩ := List.mem_map.mp h
  have hlt := List.mem_range.mp hi
  have hfits := setCommand_fits (decimal i) [] (fill_fits (by omega))
  exact ⟨setCommand_isSet (decimal i) [], hfits, Int64.le_refl 0⟩

end Fill

/-- What such a command comes to is what the store says to it. -/
theorem dispatch_setCommand (s : Store) (key value : Bytes) (now : Int64) (out : Buffer) :
    dispatch s (setCommand key value) now out
      = (s.set key value kNoExpiry now).map fun x => (.kContinue, x.2,
          if x.1 then reply.simpleString out (ascii "OK") else reply.error out kOom) := by
  rw [dispatch_set (setCommand_isSet key value), cmdSet, setCommand_options, setCommand_get_one,
    setCommand_get_two]
  dsimp only
  rcases s.set key value kNoExpiry now with _ | ⟨stored, s'⟩
  · rfl
  · cases stored <;> rfl

/-- A run with one command more. -/
theorem dispatchAll_append (s : Store) (out : Buffer) (cmds : List (Command × Int64))
    (c : Command × Int64) : dispatchAll s out (cmds ++ [c])
      = (dispatchAll s out cmds).bind fun x => dispatchStep x c := by
  simp [dispatchAll, List.foldlM_append]

/-- The run lemma: while the pool lasts every SET is answered OK, and the keys ahead are new. -/
theorem fill_defined {s₀ : Store} (hinv₀ : s₀.table.Inv) (hview₀ : s₀.view = fun _ => none)
    (hsize₀ : s₀.size = 0) (hcap : kPoolCapacity < s₀.maxKeys) (out : Buffer) :
    ∀ n, n ≤ kPoolCapacity → ∃ s out', dispatchAll s₀ out (fill n) = some (s, out') ∧
      s.table.Inv ∧ s.maxKeys = s₀.maxKeys ∧ s.size = n ∧
      ∀ i, n ≤ i → s.view (decimal i) = none := by
  have hpool := EntryPool.capacity_le
  intro n
  induction n with
  | zero =>
    intro _
    exact ⟨s₀, out, rfl, hinv₀, rfl, hsize₀, fun i _ => congrFun hview₀ _⟩
  -- The next key is not there yet, and neither the cap nor the pool is reached.
  | succ n ih =>
    intro hn
    obtain ⟨s, out', hrun, hinv, hmax, hsize, habsent⟩ := ih (by omega)
    obtain ⟨t, hset, hinv', hview', hsize'⟩ := Store.set_below hinv (fill_fits (i := n) (by omega))
      (habsent n (Nat.le_refl n)) (show ¬ Store.Past kNoExpiry 0 by decide) (by omega) (by omega)
    refine ⟨{ s with table := t }, reply.simpleString out' (ascii "OK"), ?_, hinv', hmax,
      by rw [← hsize]; exact hsize', ?_⟩
    · rw [fill_succ, dispatchAll_append, hrun, Option.bind_some, dispatchStep,
        dispatch_setCommand, hset]
      rfl
    · intro i hi
      have hne : decimal i ≠ decimal n := fun heq => by
        have := decimal_injective heq
        omega
      rw [Store.view, hview', Function.update_of_ne hne]
      exact habsent i (by omega)

/-- One SET more than the pool has blocks is undefined. -/
theorem fill_undefined {cfg : Config} {rd : UInt64} {s₀ : Store}
    (hnew : Store.new cfg rd = some s₀) (hmax : kPoolCapacity < cfg.maxKeys) (out : Buffer) :
    dispatchAll s₀ out (fill (kPoolCapacity + 1)) = none := by
  obtain ⟨hinv₀, hview₀, hsize₀, -, hmax₀, -⟩ := Store.new_spec hnew
  have hcap : kPoolCapacity < s₀.maxKeys := by
    rw [hmax₀, resolveMaxKeys, if_neg (by omega)]
    exact hmax
  obtain ⟨s, out', hrun, hinv, hmax', hsize, habsent⟩ :=
    fill_defined hinv₀ hview₀ hsize₀ hcap out _ (Nat.le_refl _)
  have hset := Store.set_exhausted hinv (fill_fits EntryPool.capacity_le)
    (habsent _ (Nat.le_refl _)) (show ¬ Store.Past kNoExpiry 0 by decide) hsize (by omega)
  rw [fill_succ, dispatchAll_append, hrun, Option.bind_some, dispatchStep, dispatch_setCommand,
    hset]
  rfl

/-- The exhaustion of the pool is reported exactly where the cap is within the pool: the store can
be built, and after every run of SETs, each further SET of a new key is stored, or refused with the
OOM error. -/
theorem exhaustion_reported_iff {cfg : Config} (rd : UInt64) (hsamples : 1 ≤ cfg.lruSamples)
    (hsamples' : cfg.lruSamples ≤ 64) (hbuckets : cfg.initialBuckets ≤ 2 ^ 63) :
    (∃ s₀, Store.new cfg rd = some s₀ ∧
      ∀ (cmds : List (Command × Int64)) (out : Buffer), (∀ c ∈ cmds, SetAt c) →
        ∃ s out', dispatchAll s₀ out cmds = some (s, out') ∧
          ∀ c, SetAt c → ∀ out, Reported s c out) ↔
    cfg.maxKeys ≤ kPoolCapacity := by
  constructor
  · rintro ⟨s₀, hnew, h⟩
    by_contra hmax
    have hpool := EntryPool.capacity_le
    obtain ⟨s, out', hrun, -⟩ := h (fill (kPoolCapacity + 1)) (Buffer.new 0)
      fun c hc => setAt_of_mem_fill (by omega) hc
    rw [fill_undefined hnew (by omega)] at hrun
    cases hrun
  · intro hmax
    obtain ⟨s₀, hnew⟩ := Store.new_isSome rd hbuckets hmax
    refine ⟨s₀, hnew, fun cmds out hcmds => ?_⟩
    obtain ⟨s, out', hrun, hcap⟩ := (Store.Cap.new hmax hsamples hsamples' hnew).dispatchAll out
      fun c hc => (hcmds c hc).fits
    exact ⟨s, out', hrun, fun c hc out => hcap.reported hc out⟩

omit [EntryPool] in
/-- The default configuration leaves the cap to the pool. A cap that no table has room for is not
reported either: the constructor is undefined. -/
theorem exhaustion_reported_iff_default : letI := slabPool
    (∃ s₀ s out', Store.new {} 7 = some s₀ ∧
      dispatchAll s₀ (Buffer.new 0) (fill 2) = some (s, out') ∧
      Reported s (setCommand [1] [2], 5) out') ∧
    let cfg : Config := { maxKeys := 2 ^ 64 - 1 }
    ¬ ∃ s₀, Store.new cfg 7 = some s₀ ∧
      ∀ (cmds : List (Command × Int64)) (out : Buffer), (∀ c ∈ cmds, SetAt c) →
        ∃ s out', dispatchAll s₀ out cmds = some (s, out') ∧
          ∀ c, SetAt c → ∀ out, Reported s c out := by
  let _ := slabPool
  refine ⟨?_, fun h => ?_⟩
  · obtain ⟨s₀, hnew, hruns⟩ := (exhaustion_reported_iff 7 (by decide) (by decide) (by decide)).mpr
      (show ({} : Config).maxKeys ≤ kPoolCapacity by decide)
    obtain ⟨s, out', hrun, hreported⟩ :=
      hruns (fill 2) (Buffer.new 0) fun c hc => setAt_of_mem_fill (by decide) hc
    have hset : SetAt (setCommand [1] [2], 5) :=
      ⟨setCommand_isSet [1] [2], setCommand_fits [1] [2] (by decide), by decide⟩
    exact ⟨s₀, s, out', hnew, hrun, hreported _ hset out'⟩
  · exact absurd ((exhaustion_reported_iff 7 (by decide) (by decide) (by decide)).mp h) (by decide)

omit [EntryPool] in
/-- With a cap one above the pool of the source, `2 ^ 18` SETs fill the pool and the next one
writes through a null pointer. -/
theorem fill_overruns : letI := slabPool
    let cfg : Config := { maxKeys := 2 ^ 18 + 1 }
    ∃ s₀, Store.new cfg 7 = some s₀ ∧
      (∃ s out', dispatchAll s₀ (Buffer.new 0) (fill (2 ^ 18)) = some (s, out')) ∧
      dispatchAll s₀ (Buffer.new 0) (fill (2 ^ 18 + 1)) = none := by
  let _ := slabPool
  intro cfg
  obtain ⟨s₀, hnew⟩ := Store.new_isSome_of_le 7 (show cfg.initialBuckets ≤ 2 ^ 63 by decide)
    (show cfg.maxKeys ≤ 2 ^ 63 by decide)
  obtain ⟨hinv₀, hview₀, hsize₀, -, hmax₀, -⟩ := Store.new_spec hnew
  have hmax : s₀.maxKeys = 2 ^ 18 + 1 := hmax₀.trans (if_neg (by decide))
  obtain ⟨s, out', hrun, -⟩ := fill_defined hinv₀ hview₀ hsize₀
    (show kPoolCapacity < s₀.maxKeys by rw [hmax]; decide) (Buffer.new 0) (2 ^ 18) (by decide)
  exact ⟨s₀, hnew, ⟨s, out', hrun⟩, fill_undefined hnew (by decide) (Buffer.new 0)⟩

end TinyRedis
