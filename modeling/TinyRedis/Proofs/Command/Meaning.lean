import TinyRedis.Proofs.Command.Checked
import TinyRedis.Proofs.Command.Options
import TinyRedis.Proofs.Command.Plans

/-!
# `TinyRedis.Proofs.Command.Meaning`: what the commands are meant to do

`Command.plan` says which calls the code of a command makes, and it uses the functions of the code
for what they are called with: `setOptions`, `parseInt` and `deadline`, and the rounding of `TTL` in
`Int64`. `Command.meaning` is written without them:

* A number is an optional minus sign and digits (`number`), as an integer.
* The options of SET are read off by the shape of the list (`expiryOf`): none, `KEEPTTL`, or `EX` or
  `PX` with a number, up to ASCII case. Deadlines are sums of integers, and refused from `2 ^ 63`
  on.
* `TTL` rounds integers.
* DEL and EXISTS count in `Nat`.

What is shared with the code is the table of the commands with their names and arities, the texts of
the errors, and the plans of the commands that compute nothing.

`plan_agree` shows that the two agree on every answer that a store gives at a time of at least 500.
Together with the simulation of `TinyRedis.Proofs.Store.Reference`, commands without eviction are
thereby answered as on a finite map (`dispatchAll_eq_reference`), with no signed operation undefined
on the way.

The agreement is up to the answers that a store can give (`Store.Op.Rounds`): a plan goes on with
whatever it is told, and for a time to live near `2 ^ 63` the rounding of the code would wrap. No
store says that at such a time (`Store.Op.rounds_run`).
-/

set_option autoImplicit false

namespace TinyRedis

open Lib

/-! ### Numbers and options -/

/-- The number that an argument denotes, if `std::int64_t` holds it. -/
def number (s : Bytes) : Option Int :=
  let digits := if s.head? = some 45 then s.tail else s
  let n : Int := if s.head? = some 45 then -value digits 0 else value digits 0
  if digits ≠ [] ∧ digits.all (fun c => decide (IsDigit c)) ∧ InInt64 n then some n else none

/-- Exactly the numbers of the grammar. -/
theorem number_eq_some_iff {s : Bytes} {n : Int} :
    number s = some n ↔ Denotes s n ∧ InInt64 n := by
  simp only [number, List.all_eq_true, decide_eq_true_iff]
  by_cases hneg : s.head? = some 45
  · obtain ⟨digits, rfl⟩ : ∃ digits, s = 45 :: digits := ⟨s.tail, (List.cons_head?_tail hneg).symm⟩
    simp only [List.head?_cons, if_true, List.tail_cons, Option.ite_none_right_eq_some,
      Option.some.injEq]
    constructor
    · rintro ⟨⟨hne, hdigits, hrange⟩, rfl⟩
      exact ⟨⟨digits, hne, hdigits, .inr ⟨rfl, rfl⟩⟩, hrange⟩
    · rintro ⟨⟨digits', hne, hdigits, ⟨hs, -⟩ | ⟨hs, rfl⟩⟩, hrange⟩
      · -- A minus sign is no digit.
        exact absurd (hdigits 45 (hs ▸ List.mem_cons_self)) (by decide)
      · cases hs
        exact ⟨⟨hne, hdigits, hrange⟩, rfl⟩
  · simp only [if_neg hneg, Option.ite_none_right_eq_some, Option.some.injEq]
    constructor
    · rintro ⟨⟨hne, hdigits, hrange⟩, rfl⟩
      exact ⟨⟨s, hne, hdigits, .inl ⟨rfl, rfl⟩⟩, hrange⟩
    · rintro ⟨⟨digits, hne, hdigits, ⟨rfl, rfl⟩ | ⟨rfl, -⟩⟩, hrange⟩
      · exact ⟨⟨hne, hdigits, hrange⟩, rfl⟩
      · exact absurd rfl hneg

/-- The code reads the same numbers. -/
theorem parseInt_eq (s : Bytes) : parseInt s = (number s).map Int64.ofInt := by
  cases hint : parseInt s with
  | none =>
    cases hnum : number s with
    | none => rfl
    | some n =>
      obtain ⟨hdenotes, hrange⟩ := number_eq_some_iff.mp hnum
      have hv : (Int64.ofInt n).toInt = n := (toInt_ofInt_iff hrange).mp rfl
      rw [← hv] at hdenotes
      rw [parseInt_iff.mpr hdenotes] at hint
      cases hint
  | some v =>
    have hrange : InInt64 v.toInt := ⟨v.le_toInt, Int.le_sub_one_of_lt v.toInt_lt⟩
    rw [number_eq_some_iff.mpr ⟨parseInt_iff.mp hint, hrange⟩, Option.map_some, Int64.ofInt_toInt]

/-- Letters can be compared up to case. -/
instance : DecidableRel SameLetter := fun c d =>
  inferInstanceAs (Decidable (c = d ∨ (65 ≤ c ∧ c ≤ 90 ∧ d = c + 32) ∨
    (65 ≤ d ∧ d ≤ 90 ∧ c = d + 32)))

/-- Names can be compared up to case, letter by letter. -/
instance : DecidableRel EqIgnoreCase := fun s t =>
  inferInstanceAs (Decidable (List.Forall₂ SameLetter s t))

/-- The milliseconds of an option with a number. -/
def unitOf (opt : Bytes) : Option Int :=
  if EqIgnoreCase opt (ascii "EX") then some 1000
  else if EqIgnoreCase opt (ascii "PX") then some 1
  else none

/-- The deadline that is `n` units after `now`, if `std::int64_t` holds it. -/
def deadlineAt (now n unitMs : Int) : Option Int :=
  if n ≤ 0 ∨ 2 ^ 63 ≤ now + n * unitMs then none else some (now + n * unitMs)

/-- What the options of a SET ask for. -/
def expiryOf (now : Int) : List Bytes → Except SetError Expiry
  | [] => .ok .drop
  | [opt] => if EqIgnoreCase opt (ascii "KEEPTTL") then .ok .keep else .error .syntaxError
  | opt :: arg :: more =>
      match unitOf opt with
      | none => .error .syntaxError
      | some unitMs =>
          match number arg with
          | none => .error .notInteger
          | some n =>
              match deadlineAt now n unitMs with
              | none => .error .invalidExpire
              -- No option goes with another.
              | some d => if more = [] then .ok (.deadline d) else .error .syntaxError

/-- The argument of `Store::set` for an expiry. -/
def Expiry.toMs : Expiry → Int64
  | .keep => kKeepTtl
  | .drop => kNoExpiry
  | .deadline d => Int64.ofInt d

/-- `deadline` and its meaning. -/
theorem deadline_eq {n unitMs now : Int64} (hnow : 0 ≤ now) (hunit : 0 < unitMs) :
    (if n > 0 then deadline n unitMs now else none)
      = (deadlineAt now.toInt n.toInt unitMs.toInt).map Int64.ofInt := by
  have hpos_iff : n > 0 ↔ 0 < n.toInt := Int64.lt_iff_toInt_lt
  unfold deadlineAt
  by_cases hpos : n > 0
  · rw [if_pos hpos]
    have hexact := deadlineExact hnow hpos hunit
    cases hd : deadline n unitMs now with
    | none =>
      have hover : ¬ now.toInt + n.toInt * unitMs.toInt ≤ 2 ^ 63 - 1 := fun hle => by
        have hsome := hexact.isSome_iff.mpr hle
        rw [hd] at hsome
        cases hsome
      rw [if_pos (.inr (by omega))]
      rfl
    | some at_ =>
      have hvalue := (hexact.value at_ hd).1
      have hlt := at_.toInt_lt
      rw [if_neg (by rw [hpos_iff] at hpos; omega), Option.map_some, ← hvalue, Int64.ofInt_toInt]
  · rw [if_neg hpos, if_pos (.inl (by rw [hpos_iff] at hpos; omega))]
    rfl

/-- The units as the code finds them. `KEEPTTL` is none of them. -/
theorem unitOf_eq (opt : Bytes) :
    unitOf opt = if iequals opt (ascii "ex") ∨ iequals opt (ascii "px") then
      some (if iequals opt (ascii "ex") then kMsPerSec else 1 : Int64).toInt else none := by
  have hEx : iequals opt (ascii "ex") = true ↔ EqIgnoreCase opt (ascii "EX") :=
    iequals_iff_eqIgnoreCase (by decide)
  have hPx : iequals opt (ascii "px") = true ↔ EqIgnoreCase opt (ascii "PX") :=
    iequals_iff_eqIgnoreCase (by decide)
  simp only [unitOf, ← hEx, ← hPx]
  by_cases hex : iequals opt (ascii "ex") = true
  · rw [if_pos hex, if_pos (.inl hex), if_pos hex]
    rfl
  · by_cases hpx : iequals opt (ascii "px") = true
    · rw [if_neg hex, if_pos hpx, if_pos (.inr hpx), if_neg hex]
      rfl
    · rw [if_neg hex, if_neg hpx, if_neg (not_or_intro hex hpx)]

/-- After an option nothing may follow. -/
theorem setOptions_have {now expireAt : Int64} (args : List Bytes) :
    setOptions now args expireAt true
      = if args = [] then .ok expireAt else .error .syntaxError := by
  cases args with
  | nil => rfl
  | cons opt rest => cases rest <;> simp [setOptions]

/-- The option loop computes what the options ask for. -/
theorem setOptions_eq_expiryOf {now : Int64} (hnow : 0 ≤ now) (args : List Bytes) :
    setOptions now args kNoExpiry false = (expiryOf now.toInt args).map Expiry.toMs := by
  have hKeep : ∀ {s}, iequals s (ascii "keepttl") = true ↔ EqIgnoreCase s (ascii "KEEPTTL") :=
    iequals_iff_eqIgnoreCase (by decide)
  -- The cases are those of `expiryOf`: no option, one, or an option with what follows it.
  rcases args with _ | ⟨opt, _ | ⟨arg, more⟩⟩
  · rfl
  · rw [expiryOf, setOptions]
    by_cases hkeep : iequals opt (ascii "keepttl") = true
    · rw [if_pos ⟨hkeep, Bool.false_ne_true⟩, if_pos (hKeep.mp hkeep)]
      rfl
    · rw [if_neg fun h => hkeep h.1, if_neg fun h => hkeep (hKeep.mpr h)]
      rfl
  · rw [expiryOf, setOptions, unitOf_eq]
    by_cases hkeep : iequals opt (ascii "keepttl") = true
    · have hex := iequals_unique (b := ascii "ex") (by decide) hkeep
      have hpx := iequals_unique (b := ascii "px") (by decide) hkeep
      rw [if_pos ⟨hkeep, Bool.false_ne_true⟩, setOptions_have, if_neg (by simp), hex, hpx]
      rfl
    rw [if_neg fun h => hkeep h.1]
    dsimp only
    by_cases hname : iequals opt (ascii "ex") = true ∨ iequals opt (ascii "px") = true
    · rw [if_neg (by rintro (hnot | hnot); exacts [hnot hname, Bool.false_ne_true hnot]),
        if_pos hname, parseInt_eq]
      cases hnum : number arg with
      | none => rfl
      | some n =>
        have hn : (Int64.ofInt n).toInt = n :=
          (toInt_ofInt_iff (number_eq_some_iff.mp hnum).2).mp rfl
        dsimp only [Option.map_some]
        rw [deadline_eq hnow (Checked.unit_pos _), hn]
        cases deadlineAt now.toInt n (if iequals opt (ascii "ex") then kMsPerSec else 1).toInt with
        | none => rfl
        | some d =>
          dsimp only [Option.map_some]
          rw [setOptions_have]
          split <;> rfl
    · rw [if_pos (.inl hname), if_neg hname]
      rfl

/-! ### The meaning of a command -/

/-- Seconds, to the nearest. What is negative says that there is no time left to round. -/
def roundedSeconds (ms : Int) : Int := if ms < 0 then ms else (ms + 500) / 1000

/-- The time left that a `ttlMs` was answered with. -/
def Reply.left : Reply → Int
  | .ttl ms => ms
  | _ => 0

/-- One call for each key, and the number of calls that hit. -/
def countMeaning (op : Bytes → Store.Op) (hit : Reply → Bool) : List Bytes → Nat → StorePlan Nat
  | [], n => .ret n
  | key :: keys, n => .call (op key) fun r => countMeaning op hit keys (n + if hit r then 1 else 0)

namespace Command

variable (cmd : Command) (now : Int64)

/-- SET stores the value with the expiry that its options ask for. -/
def setMeaning : StorePlan RespReply :=
  match expiryOf now.toInt (cmd.args.drop 3) with
  | .error .syntaxError => .ret (.error kSyntax)
  | .error .notInteger => .ret (.error kNotInteger)
  | .error .invalidExpire => .ret (.error (invalidExpireText (ascii "set")))
  | .ok e => .call (.set (cmd.get 1) (cmd.get 2) e.toMs now) fun r =>
      .ret (if r.isTrue then .simpleString (ascii "OK") else .error kOom)

/-- DEL erases its keys and replies how many there were. -/
def delMeaning : StorePlan RespReply :=
  (countMeaning (fun key => .erase key now) Reply.isTrue (cmd.args.drop 1) 0).map fun n =>
    .integer (Int64.ofNat n)

/-- EXISTS replies how many of its keys there are. -/
def existsMeaning : StorePlan RespReply :=
  (countMeaning (fun key => .find key now false) (fun r => r.value?.isSome) (cmd.args.drop 1) 0).map
    fun n => .integer (Int64.ofNat n)

/-- EXPIRE gives the key a deadline, or erases it if that is not in the future. -/
def expireMeaning : StorePlan RespReply :=
  match number (cmd.get 2) with
  | none => .ret (.error kNotInteger)
  | some secs =>
      if secs ≤ 0 then .call (.erase (cmd.get 1) now) fun r =>
        .ret (.integer (if r.isTrue then 1 else 0))
      else
        match deadlineAt now.toInt secs 1000 with
        | none => .ret (.error (invalidExpireText (ascii "expire")))
        | some d => .call (.setExpireAt (cmd.get 1) (Int64.ofInt d) now) fun r =>
            .ret (.integer (if r.isTrue then 1 else 0))

/-- TTL replies the seconds left. -/
def ttlMeaning : StorePlan RespReply :=
  .call (.ttlMs (cmd.get 1) now) fun r => .ret (.integer (Int64.ofInt (roundedSeconds r.left)))

/-- The meaning of a command whose arity is right. The others have no arithmetic and no options. -/
def handleMeaning : Cmd → StorePlan RespReply
  | .kSet => cmd.setMeaning now
  | .kDel => cmd.delMeaning now
  | .kExists => cmd.existsMeaning now
  | .kExpire => cmd.expireMeaning now
  | .kTtl => cmd.ttlMeaning now
  | c => cmd.handlePlan now c

/-- What a command is meant to do with the store, and to reply. -/
def meaning : StorePlan (DispatchResult × Option RespReply) :=
  if cmd.argc = 0 then .ret (.kContinue, none)
  else
    match lookup (cmd.get 0) with
    | none => .ret (.kContinue, some (.error (unknownCommandText cmd)))
    | some spec =>
        if ¬ arityOk spec cmd.argc then
          .ret (.kContinue, some (.error (wrongArityText spec.name)))
        else (cmd.handleMeaning now spec.cmd).map fun r =>
          (if spec.cmd = .kQuit then .kCloseConnection else .kContinue, some r)

end Command

/-! ### The code agrees with the meaning -/

/-- An answer whose time left can be rounded: half a second more is an `std::int64_t`. -/
def Store.Op.Rounds (op : Store.Op) (r : Reply) : Prop :=
  ∀ key now, op = .ttlMs key now → ∃ ms : Int64, r = .ttl ms.toInt ∧ ms.toInt ≤ 2 ^ 63 - 1 - 500

/-- Counting in `std::int64_t` is counting. -/
theorem countPlan_agree {good : Store.Op → Reply → Prop} (op : Bytes → Store.Op)
    (hit : Reply → Bool) (keys : List Bytes) (n : Nat) :
    ((countPlan op hit keys (Int64.ofNat n)).map RespReply.integer).Agree good
      ((countMeaning op hit keys n).map fun n => .integer (Int64.ofNat n)) := by
  induction keys generalizing n with
  | nil => rfl
  | cons key keys ih =>
    refine ⟨rfl, fun r _ => ?_⟩
    have hcount : Int64.ofNat n + (if hit r then 1 else 0)
        = Int64.ofNat (n + if hit r then 1 else 0) := by
      split
      · rw [Int64.ofNat_add]
        rfl
      · exact Int64.add_zero _
    show ((countPlan op hit keys _).map _).Agree good _
    rw [hcount]
    exact ih _

/-- The rounding of the code is that of the integers, where half a second can be added. -/
theorem toInt_rounded {ms : Int64} (h : ms.toInt ≤ 2 ^ 63 - 1 - 500) :
    (if ms < 0 then ms else (ms + kMsPerSec / 2) / kMsPerSec)
      = Int64.ofInt (roundedSeconds ms.toInt) := by
  have hneg : ms < 0 ↔ ms.toInt < 0 := Int64.lt_iff_toInt_lt
  unfold roundedSeconds
  by_cases hms : ms < 0
  · rw [if_pos hms, if_pos (hneg.mp hms), Int64.ofInt_toInt]
  · rw [hneg] at hms
    have hsum : InInt64 (ms.toInt + 500) := ⟨by omega, by omega⟩
    have hquotient : InInt64 ((ms.toInt + 500) / 1000) := ⟨by omega, by omega⟩
    rw [if_neg (fun h => hms (hneg.mp h)), if_neg hms, ← Int64.toInt_inj,
      (toInt_ofInt_iff hquotient).mp rfl, Int64.toInt_div, Int64.toInt_add,
      show (kMsPerSec / 2).toInt = 500 by decide, show kMsPerSec.toInt = 1000 by decide,
      hsum.bmod_eq, Int.tdiv_eq_ediv_of_nonneg (by omega), hquotient.bmod_eq]

namespace Command

variable {now : Int64} (cmd : Command)

/-- The options of SET are those of the grammar. -/
theorem setPlan_eq (hnow : 0 ≤ now) : cmd.setPlan now = cmd.setMeaning now := by
  rw [setPlan, setOptions_eq_expiryOf hnow, setMeaning]
  cases expiryOf now.toInt (cmd.args.drop 3) with
  | error e => cases e <;> rfl
  | ok e => rfl

/-- The number and the deadline of EXPIRE are those of the integers. -/
theorem expirePlan_eq (hnow : 0 ≤ now) : cmd.expirePlan now = cmd.expireMeaning now := by
  rw [expirePlan, parseInt_eq, expireMeaning]
  cases hnum : number (cmd.get 2) with
  | none => rfl
  | some n =>
    have hn : (Int64.ofInt n).toInt = n :=
      (toInt_ofInt_iff (number_eq_some_iff.mp hnum).2).mp rfl
    have hle : Int64.ofInt n ≤ 0 ↔ n ≤ 0 := by
      rw [Int64.le_iff_toInt_le, hn]
      rfl
    dsimp only [Option.map_some]
    by_cases hneg : n ≤ 0
    · rw [if_pos (hle.mpr hneg), if_pos hneg]
    · have hpos : Int64.ofInt n > 0 := Int64.not_le.mp fun h => hneg (hle.mp h)
      have hdeadline := deadline_eq (n := Int64.ofInt n) hnow (show 0 < kMsPerSec by decide)
      rw [if_pos hpos, hn, show kMsPerSec.toInt = 1000 by decide] at hdeadline
      rw [if_neg (fun h => hneg (hle.mp h)), if_neg hneg, hdeadline]
      cases deadlineAt now.toInt n 1000 <;> rfl

/-- TTL rounds as the integers do, for the answers of a store. -/
theorem ttlPlan_agree (now : Int64) :
    (cmd.ttlPlan now).Agree Store.Op.Rounds (cmd.ttlMeaning now) := by
  refine ⟨rfl, fun r hr => ?_⟩
  obtain ⟨ms, rfl, hle⟩ := hr _ _ rfl
  show RespReply.integer _ = .integer _
  rw [Reply.ms, Int64.ofInt_toInt, Reply.left, toInt_rounded hle]

/-- A command does what it is meant to do, on answers that a store gives. -/
theorem plan_agree (hnow : 0 ≤ now) :
    (cmd.plan now).Agree Store.Op.Rounds (cmd.meaning now) := by
  have hhandle : ∀ c, (cmd.handlePlan now c).Agree Store.Op.Rounds (cmd.handleMeaning now c) := by
    intro c
    cases c with
    | kSet =>
      rw [handlePlan, handleMeaning, setPlan_eq cmd hnow]
      exact Plan.agree_refl ..
    | kExpire =>
      rw [handlePlan, handleMeaning, expirePlan_eq cmd hnow]
      exact Plan.agree_refl ..
    | kTtl => exact ttlPlan_agree cmd now
    | kDel => exact countPlan_agree _ _ _ 0
    | kExists => exact countPlan_agree _ _ _ 0
    | kGet | kPing | kEcho | kDbsize | kFlushall | kQuit => exact Plan.agree_refl ..
  -- The checks before the handler are shared.
  unfold plan meaning
  by_cases hargc : cmd.argc = 0
  · rw [if_pos hargc, if_pos hargc]
    exact Plan.agree_refl ..
  rw [if_neg hargc, if_neg hargc]
  cases lookup (cmd.get 0) with
  | none => exact Plan.agree_refl ..
  | some spec =>
    dsimp only
    by_cases harity : ¬ arityOk spec cmd.argc
    · rw [if_pos harity, if_pos harity]
      exact Plan.agree_refl ..
    · rw [if_neg harity, if_neg harity]
      exact (hhandle spec.cmd).map _

end Command

variable [EntryPool]

/-- From the bound on, what a store answers can be rounded. -/
theorem Store.Op.rounds_run {s s' : Store} (h : s.table.Inv) {op : Op} {r : Reply}
    (hnow : ∀ t ∈ op.now?, 500 ≤ t) (hrun : op.run s = some (r, s')) : op.Rounds r := by
  rintro key now rfl
  obtain ⟨s₁, httl, -⟩ := ttlMs_spec h key now
  simp only [Op.run, httl, Option.bind_eq_bind, Option.bind_some] at hrun
  cases hrun
  exact ⟨_, rfl, Checked.ttlOf_le (hnow now rfl) key⟩

/-! ### Commands on the reference map -/

/-- The reply that a command at its time is meant to have on the map, and the map after it. -/
def RefMap.command (maxKeys : Nat) (m : RefMap) (c : Command × Int64) :
    Option RespReply × RefMap :=
  let r := (c.1.meaning c.2).run (RefMap.step maxKeys) m
  (r.1.2, r.2)

omit [EntryPool] in
/-- The output after the replies, in their order. -/
theorem readable_foldl_emitReply (replies : List (Option RespReply)) (out : Buffer) :
    (replies.foldl emitReply out).readable = out.readable ++ replies.flatMap replyBytes := by
  induction replies generalizing out with
  | nil => simp
  | cons r replies ih => simp [ih]

namespace Store.Sim

variable {maxKeys : Nat} {s : Store} {m : RefMap}

/-- The plan of a command on the store, and its meaning on the map. -/
theorem plan (h : Sim maxKeys s m) {cmd : Command} (hbounded : cmd.Bounded) {now : Int64}
    (hnow : 500 ≤ now) :
    ∃ s', (cmd.plan now).runM Op.run s
        = some (((cmd.meaning now).run (RefMap.step maxKeys) m).1, s') ∧
      Sim maxKeys s' (m.command maxKeys (cmd, now)).2 := by
  have hpos : 0 ≤ now := Int64.le_trans (by decide) hnow
  refine Plan.runM_eq_of_sim (Sim maxKeys) ?_ (cmd.plan_all now) (cmd.plan_agree hpos) h
  intro s m op hsim hasks
  obtain ⟨s', hrun, hsim'⟩ := hsim.step (hasks.ok hbounded hpos)
  exact ⟨s', hrun, Op.rounds_run hsim.inv (fun t ht => hasks.now_eq t ht ▸ hnow) hrun, hsim'⟩

/-- A command replies as on the map, and the store stands for the new map. No operation of it is
undefined. -/
theorem dispatch (h : Sim maxKeys s m) {c : Command × Int64} (hbounded : c.1.Bounded)
    (hnow : 500 ≤ c.2) (out : Buffer) :
    ∃ d s', Checked.dispatch s c.1 c.2 out
        = some (d, s', emitReply out (m.command maxKeys c).1) ∧
      Sim maxKeys s' (m.command maxKeys c).2 := by
  obtain ⟨s', hrun, hsim⟩ := h.plan hbounded hnow
  have hdispatch := dispatch_of_plan out hrun
  rw [← Checked.dispatch_eq h.inv hnow] at hdispatch
  exact ⟨_, s', hdispatch, hsim⟩

/-- The run lemma. -/
theorem dispatchAll {cmds : List (Command × Int64)}
    (hcmds : ∀ c ∈ cmds, c.1.Bounded ∧ 500 ≤ c.2) (out : Buffer) (h : Sim maxKeys s m) :
    ∃ s', Checked.dispatchAll s out cmds
        = some (s', (outputs (RefMap.command maxKeys) m cmds).1.foldl emitReply out) ∧
      Sim maxKeys s' (outputs (RefMap.command maxKeys) m cmds).2 := by
  induction cmds generalizing s m out with
  | nil => exact ⟨s, rfl, h⟩
  | cons c cmds ih =>
    obtain ⟨hbounded, hnow⟩ := hcmds c List.mem_cons_self
    obtain ⟨d, s₁, hrun, hsim⟩ := h.dispatch hbounded hnow out
    obtain ⟨s', hrest, hsim'⟩ := ih (fun c' hc' => hcmds c' (List.mem_cons_of_mem c hc'))
      (emitReply out (m.command maxKeys c).1) hsim
    refine ⟨s', ?_, hsim'⟩
    rw [Checked.dispatchAll, List.foldlM_cons, Checked.dispatchStep, hrun]
    exact hrest

end Store.Sim

/-- Without eviction, a new store answers every run of commands with the replies that the finite
map gives to them, byte for byte, from a time of 500 on. No signed operation of the source overflows
on the way. -/
theorem dispatchAll_eq_reference {cfg : Config} {rd : UInt64} {cmds : List (Command × Int64)}
    (hbuckets : cfg.initialBuckets ≤ 2 ^ 63) (hmax : cfg.maxKeys ≤ kPoolCapacity)
    (hpolicy : cfg.policy = .kNoEviction) (hcmds : ∀ c ∈ cmds, c.1.Bounded ∧ 500 ≤ c.2) :
    ∃ s₀ s out, Store.new cfg rd = some s₀ ∧
      Checked.dispatchAll s₀ (Buffer.new 0) cmds = some (s, out) ∧
      dispatchAll s₀ (Buffer.new 0) cmds = some (s, out) ∧
      out.readable
        = (outputs (RefMap.command (resolveMaxKeys cfg.maxKeys)) ∅ cmds).1.flatMap replyBytes := by
  obtain ⟨s₀, hnew⟩ := Store.new_isSome rd hbuckets hmax
  obtain ⟨hinv, hview, -, hp, hm, -⟩ := Store.new_spec hnew
  have hcap := (Store.resolveMaxKeys_bounds hmax).2
  have hsim : Store.Sim (resolveMaxKeys cfg.maxKeys) s₀ ∅ :=
    ⟨hinv, hp.trans hpolicy, hm, hcap, fun k => by simp [hview], by simp⟩
  obtain ⟨s, hrun, -⟩ := hsim.dispatchAll hcmds (Buffer.new 0)
  refine ⟨s₀, s, _, hnew, hrun, Checked.dispatchAll_sound hrun, ?_⟩
  rw [readable_foldl_emitReply]
  simp

omit [EntryPool] in
/-- A cap of two keys: a third is refused until the EXPIRE of the first has passed. A TTL rounds
half a second up, and an EXPIRE beyond the end of `std::int64_t` is an error. -/
theorem dispatchAll_eq_reference_oom : letI := slabPool
    let at_ (now : Int64) (s : String) : Command × Int64 :=
      ((parseCommand (ascii s) Command.empty).2, now)
    let cmds := [at_ 510 "SET a 1\r\n", at_ 515 "SET c 3 px 900000\r\n", at_ 520 "EXPIRE a 3\r\n",
      at_ 1020 "TTL a\r\n", at_ 1030 "SET b 2\r\n", at_ 3521 "EXISTS a c a\r\n",
      at_ 3522 "SET b 2\r\n", at_ 3523 "GET b\r\n", at_ 3524 "EXPIRE b 9223372036854775\r\n"]
    ∃ s₀ s out, Store.new { maxKeys := 2, seed := 7, initialBuckets := 4 } 0 = some s₀ ∧
      Checked.dispatchAll s₀ (Buffer.new 0) cmds = some (s, out) ∧
      dispatchAll s₀ (Buffer.new 0) cmds = some (s, out) ∧
      out.readable = ascii "+OK\r\n+OK\r\n:1\r\n:3\r\n" ++ (45 :: kOom ++ crlf)
        ++ ascii ":1\r\n+OK\r\n$1\r\n2\r\n-ERR invalid expire time in 'expire' command\r\n" := by
  let _ := slabPool
  intro at_ cmds
  have href : (outputs (RefMap.command (resolveMaxKeys 2)) ∅ cmds).1.flatMap replyBytes
      = ascii "+OK\r\n+OK\r\n:1\r\n:3\r\n" ++ (45 :: kOom ++ crlf)
        ++ ascii ":1\r\n+OK\r\n$1\r\n2\r\n-ERR invalid expire time in 'expire' command\r\n" := by
    decide +kernel
  rw [← href]
  exact dispatchAll_eq_reference (by decide) (by decide) rfl (by decide)

end TinyRedis
