import TinyRedis.Core.Checked
import TinyRedis.Proofs.Command.Emits
import TinyRedis.Proofs.Store.Outcomes
import TinyRedis.Proofs.Store.Reference

/-!
# `TinyRedis.Proofs.Command.Expiry`: the arithmetic of deadlines

Deadlines and times are `std::int64_t`, and an operation of theirs whose result lies outside its
range is undefined. `TinyRedis.Core.Checked` has the functions with such operations, and what is
said here of overflow is said of them: an operation that leaves the range makes the function
`none`.

* `deadlineInRange`: `deadline` guards its product and its sum by a division, so every operation of
  it is defined, for all arguments that SET and EXPIRE give it. What it computes is exact
  (`deadlineExact`).
* `Checked.ttlMs_eq`: a key that is still there has a deadline that is not before `now`, so what is
  left of it is in range.
* `Checked.seconds_eq`: `TTL` rounds the time that is left to seconds by adding half a second first,
  and that sum has no guard. It leaves the range where a key has more than `2 ^ 63 - 501`
  milliseconds left.
* `ttl_exact_iff` puts the three together, and `ttl_overflows` is a run of commands that gets there.

The ranges of the single operations (`DeadlineInRange`, `TtlExact`) stand beside the checked
functions, over the integers.
-/

set_option autoImplicit false

namespace TinyRedis

/-- In range, the machine's arithmetic does not wrap. -/
theorem InInt64.bmod_eq {v : Int} (h : InInt64 v) : v.bmod (2 ^ 64) = v := by
  have h₁ := h.1
  have h₂ := h.2
  rw [Int.bmod_eq_of_le] <;> omega

/-! ### Deadlines -/

/-- The operations of `deadline` stay in range. The product and the sum are computed only where a
deadline is returned. -/
structure DeadlineInRange (n unitMs now : Int64) : Prop where
  /-- No operation overflows where the source has it. -/
  checked : Checked.deadline n unitMs now = some (deadline n unitMs now)
  remaining : InInt64 (2 ^ 63 - 1 - now.toInt)
  quotient : InInt64 ((2 ^ 63 - 1 - now.toInt) / unitMs.toInt)
  product : (deadline n unitMs now).isSome → InInt64 (n.toInt * unitMs.toInt)
  sum : (deadline n unitMs now).isSome → InInt64 (now.toInt + n.toInt * unitMs.toInt)

/-- `deadline` returns the sum exactly where it is in range. It lies in the future, so it is no
sentinel. -/
structure DeadlineExact (n unitMs now : Int64) : Prop where
  isSome_iff : (deadline n unitMs now).isSome ↔ now.toInt + n.toInt * unitMs.toInt ≤ 2 ^ 63 - 1
  value : ∀ at_, deadline n unitMs now = some at_ →
    at_.toInt = now.toInt + n.toInt * unitMs.toInt ∧ now < at_ ∧ at_ ≠ kNoExpiry ∧ at_ ≠ kKeepTtl

section Deadline

variable {n unitMs now : Int64}

/-- The time up to the last one that `std::int64_t` holds. -/
theorem toInt_remaining (hnow : 0 ≤ now) :
    (Int64.maxValue - now).toInt = 2 ^ 63 - 1 - now.toInt := by
  have hnow' : 0 ≤ now.toInt := Int64.le_iff_toInt_le.mp hnow
  have hlt := now.toInt_lt
  have hmax : Int64.maxValue.toInt = 2 ^ 63 - 1 := by decide
  rw [Int64.toInt_sub, hmax, Int.bmod_eq_of_le] <;> omega

/-- The guard of `deadline`. -/
theorem toInt_quotient (hnow : 0 ≤ now) (hunit : 0 < unitMs) :
    ((Int64.maxValue - now) / unitMs).toInt = (2 ^ 63 - 1 - now.toInt) / unitMs.toInt := by
  have hnow' : 0 ≤ now.toInt := Int64.le_iff_toInt_le.mp hnow
  have hlt := now.toInt_lt
  have hunit' : 0 < unitMs.toInt := Int64.lt_iff_toInt_lt.mp hunit
  have hrem : 0 ≤ 2 ^ 63 - 1 - now.toInt := by omega
  have hle := Int.ediv_le_self unitMs.toInt hrem
  have hge := Int.ediv_nonneg hrem (Int.le_of_lt hunit')
  rw [Int64.toInt_div, toInt_remaining hnow, Int.tdiv_eq_ediv_of_nonneg hrem,
    Int.bmod_eq_of_le] <;> omega

/-- The guard lets through what has a sum in range. -/
theorem deadline_guard (hnow : 0 ≤ now) (hunit : 0 < unitMs) :
    ¬ n > (Int64.maxValue - now) / unitMs ↔
      now.toInt + n.toInt * unitMs.toInt ≤ 2 ^ 63 - 1 := by
  have hunit' : 0 < unitMs.toInt := Int64.lt_iff_toInt_lt.mp hunit
  rw [gt_iff_lt, Int64.lt_iff_toInt_lt, toInt_quotient hnow hunit, Int.not_lt,
    Int.le_ediv_iff_mul_le hunit']
  omega

/-- Every operation of `deadline` is in range, on every path. -/
theorem deadlineInRange (hnow : 0 ≤ now) (hn : 0 < n) (hunit : 0 < unitMs) :
    DeadlineInRange n unitMs now := by
  have hnow' : 0 ≤ now.toInt := Int64.le_iff_toInt_le.mp hnow
  have hlt := now.toInt_lt
  have hunit' : 0 < unitMs.toInt := Int64.lt_iff_toInt_lt.mp hunit
  have hn' : 0 < n.toInt := Int64.lt_iff_toInt_lt.mp hn
  have hrem : 0 ≤ 2 ^ 63 - 1 - now.toInt := by omega
  have hle := Int.ediv_le_self unitMs.toInt hrem
  have hge := Int.ediv_nonneg hrem (Int.le_of_lt hunit')
  have hpos := Int.mul_pos hn' hunit'
  -- Past the guard the sum is in range, and the product with it.
  have hguard : (deadline n unitMs now).isSome →
      now.toInt + n.toInt * unitMs.toInt ≤ 2 ^ 63 - 1 := by
    intro hsome
    rw [← deadline_guard hnow hunit]
    intro hgt
    rw [deadline, if_pos hgt] at hsome
    cases hsome
  have hremaining : InInt64 (2 ^ 63 - 1 - now.toInt) := ⟨by omega, by omega⟩
  have hquotient : InInt64 ((2 ^ 63 - 1 - now.toInt) / unitMs.toInt) := ⟨by omega, by omega⟩
  have hproduct : (deadline n unitMs now).isSome → InInt64 (n.toInt * unitMs.toInt) := by
    intro hsome
    have := hguard hsome
    exact ⟨by omega, by omega⟩
  have hsum : (deadline n unitMs now).isSome →
      InInt64 (now.toInt + n.toInt * unitMs.toInt) := by
    intro hsome
    have := hguard hsome
    exact ⟨by omega, by omega⟩
  refine ⟨?_, hremaining, hquotient, hproduct, hsum⟩
  have hsub : Checked.sub Int64.maxValue now = some (Int64.maxValue - now) := if_pos hremaining
  have hdiv : Checked.div (Int64.maxValue - now) unitMs
      = some ((Int64.maxValue - now) / unitMs) := by
    refine if_pos ⟨fun heq => ?_, ?_⟩
    · rw [heq] at hunit
      cases hunit
    · rw [toInt_remaining hnow, Int.tdiv_eq_ediv_of_nonneg hrem]
      exact hquotient
  rw [Checked.deadline, hsub, Option.bind_eq_bind, Option.bind_some, hdiv, Option.bind_some,
    deadline]
  split
  · rfl
  · next hle =>
    have hsome : (deadline n unitMs now).isSome := by rw [deadline, if_neg hle]; rfl
    have hmul : Checked.mul n unitMs = some (n * unitMs) := if_pos (hproduct hsome)
    have hadd : Checked.add now (n * unitMs) = some (now + n * unitMs) := by
      refine if_pos ?_
      rw [Int64.toInt_mul, (hproduct hsome).bmod_eq]
      exact hsum hsome
    rw [hmul, Option.bind_some, hadd]
    rfl

/-- `deadline` is exact. -/
theorem deadlineExact (hnow : 0 ≤ now) (hn : 0 < n) (hunit : 0 < unitMs) :
    DeadlineExact n unitMs now := by
  have hrange := deadlineInRange hnow hn hunit
  have hguard := deadline_guard (n := n) hnow hunit
  have hnow' : 0 ≤ now.toInt := Int64.le_iff_toInt_le.mp hnow
  have hunit' : 0 < unitMs.toInt := Int64.lt_iff_toInt_lt.mp hunit
  have hn' : 0 < n.toInt := Int64.lt_iff_toInt_lt.mp hn
  have hpos := Int.mul_pos hn' hunit'
  -- What the guard lets through is in range, so the machine arithmetic is exact there.
  constructor
  · rw [← hguard, deadline]
    split
    · next hgt => simp [hgt]
    · next hle => simp [hle]
  · intro at_ hat
    have hsome : (deadline n unitMs now).isSome := by rw [hat]; rfl
    have hproduct := hrange.product hsome
    have hsum := hrange.sum hsome
    have hvalue : at_.toInt = now.toInt + n.toInt * unitMs.toInt := by
      unfold deadline at hat
      split at hat
      · cases hat
      · cases hat
        rw [Int64.toInt_add, Int64.toInt_mul, hproduct.bmod_eq, hsum.bmod_eq]
    have hneg : ∀ m : Int64, m.toInt < 0 → at_ ≠ m := by
      rintro m hm rfl
      omega
    exact ⟨hvalue, Int64.lt_iff_toInt_lt.mpr (by omega), hneg _ (by decide), hneg _ (by decide)⟩

end Deadline

/-! ### Time to live -/

variable [EntryPool]

/-- The reply of `TTL` for a key with the deadline `d`: every operation on the way stays in range,
and the reply is the time that is left in seconds, to the nearest. -/
structure TtlExact (s : Store) (cmd : Command) (d now : Int64) : Prop where
  difference : InInt64 (d.toInt - now.toInt)
  sum : InInt64 (d.toInt - now.toInt + 500)
  quotient : InInt64 ((d.toInt - now.toInt + 500) / 1000)
  /-- No operation overflows where the source has it. -/
  checked : ∀ out, ∃ s', Checked.cmdTtl s cmd now out
    = some (s', reply.integer out (Int64.ofInt ((d.toInt - now.toInt + 500) / 1000)))
  reply_eq : ∀ out, ∃ s', cmdTtl s cmd now out
    = some (s', reply.integer out (Int64.ofInt ((d.toInt - now.toInt + 500) / 1000)))

omit [EntryPool] in
/-- Half a second is added within the range, or the sum is undefined. -/
theorem Checked.seconds_eq (ms : Int64) :
    Checked.seconds ms = if ms.toInt ≤ 2 ^ 63 - 1 - 500 then
      some (if ms < 0 then ms else (ms + kMsPerSec / 2) / kMsPerSec) else none := by
  have hhalf : (kMsPerSec / 2).toInt = 500 := by decide
  have hsec : kMsPerSec.toInt = 1000 := by decide
  have hdiv : Checked.div kMsPerSec 2 = some (kMsPerSec / 2) := by decide
  unfold Checked.seconds
  -- A negative answer is a code and is passed on. Any other has half a second added.
  by_cases hneg : ms < 0
  · have hneg' : ms.toInt < 0 := Int64.lt_iff_toInt_lt.mp hneg
    rw [if_pos hneg, if_pos hneg, if_pos (by omega)]
    rfl
  · have hnonneg : 0 ≤ ms.toInt := by
      rw [Int64.lt_iff_toInt_lt, Int64.toInt_zero] at hneg
      omega
    rw [if_neg hneg, if_neg hneg, hdiv, Option.bind_eq_bind, Option.bind_some, Checked.add, hhalf]
    by_cases hle : ms.toInt ≤ 2 ^ 63 - 1 - 500
    · have hsum : InInt64 (ms.toInt + 500) := ⟨by omega, by omega⟩
      have hquotient : InInt64 ((ms.toInt + 500) / 1000) := ⟨by omega, by omega⟩
      have hrounded : InInt64 ((ms + kMsPerSec / 2).toInt.tdiv kMsPerSec.toInt) := by
        rw [Int64.toInt_add, hhalf, hsum.bmod_eq, hsec, Int.tdiv_eq_ediv_of_nonneg (by omega)]
        exact hquotient
      rw [if_pos hsum, if_pos hle, Option.bind_some]
      exact if_pos ⟨by decide, hrounded⟩
    · have hsum : ¬ InInt64 (ms.toInt + 500) := fun h => hle (by have := h.2; omega)
      rw [if_neg hsum, if_neg hle]
      rfl

/-- What is left of a key that is still there is in range. -/
theorem Checked.ttlMs_eq {s : Store} (h : s.table.Inv) (key : Bytes) {now : Int64}
    (hnow : 0 ≤ now) : Checked.ttlMs s key now = s.ttlMs key now := by
  obtain ⟨r, s₁, hlook, hL⟩ := Store.lookup_spec h key now
  rcases hL.cases with ⟨rfl, -⟩ | ⟨p, it, rfl, hlive, hc⟩
  · simp [Checked.ttlMs, Store.ttlMs, hlook]
  · obtain ⟨e, he, -, -, hexp, -⟩ := hL.table.inv.mem_eq hc
    by_cases hno : it.expiresAtMs = kNoExpiry
    · simp [Checked.ttlMs, Store.ttlMs, hlook, he, hexp, hno]
    · have hfresh : it.expired now = false := by
        simpa using (Option.filter_eq_some_iff.mp hlive).2
      have hrange : InInt64 (it.expiresAtMs.toInt - now.toInt) := by
        rw [← Item.toInt_ttl hnow hfresh hno]
        exact ⟨(it.expiresAtMs - now).le_toInt,
          Int.le_sub_one_of_lt (it.expiresAtMs - now).toInt_lt⟩
      have hsub : Checked.sub it.expiresAtMs now = some (it.expiresAtMs - now) := if_pos hrange
      simp [Checked.ttlMs, Store.ttlMs, hlook, he, hexp, hno, hsub]

/-- `TTL` is undefined where the time left is too long to be rounded, and else it is what the model
computes. -/
theorem Checked.cmdTtl_eq {s s' : Store} (h : s.table.Inv) {cmd : Command} {now ms : Int64}
    (hnow : 0 ≤ now) (httl : s.ttlMs (cmd.get 1) now = some (ms, s')) (out : Buffer) :
    Checked.cmdTtl s cmd now out
      = if ms.toInt ≤ 2 ^ 63 - 1 - 500 then TinyRedis.cmdTtl s cmd now out else none := by
  rw [Checked.cmdTtl, Checked.ttlMs_eq h _ hnow, TinyRedis.cmdTtl, httl, Option.bind_eq_bind,
    Option.bind_some]
  dsimp only
  rw [Checked.seconds_eq]
  split <;> rfl

/-- What is left of a key whose deadline has not passed. -/
theorem ttlMs_of_view {s : Store} (h : s.table.Inv) {key : Bytes} {it : Item} {now : Int64}
    (hnow : 0 ≤ now) (hkey : s.view key = some it) (hd : now ≤ it.expiresAtMs) :
    (it.expiresAtMs - now).toInt = it.expiresAtMs.toInt - now.toInt ∧
      ∃ s', s.ttlMs key now = some (it.expiresAtMs - now, s') := by
  have hnow' : 0 ≤ now.toInt := Int64.le_iff_toInt_le.mp hnow
  have hd' : now.toInt ≤ it.expiresAtMs.toInt := Int64.le_iff_toInt_le.mp hd
  -- A deadline that is not negative is no sentinel.
  have hno : it.expiresAtMs ≠ kNoExpiry := by
    intro heq
    rw [heq, show kNoExpiry.toInt = -1 from rfl] at hd'
    omega
  have hlive : it.expired now = false := by
    rw [Item.expired, if_neg hno, decide_eq_false_iff_not, gt_iff_lt, Int64.lt_iff_toInt_lt]
    omega
  obtain ⟨s', httl, -⟩ := Store.ttlMs_spec h key now
  rw [Dict.live_of_not_expired hkey hlive] at httl
  refine ⟨Item.toInt_ttl hnow hlive hno, s', ?_⟩
  rw [httl, Store.ttlOf, if_neg hno]

/-- What `TTL` computes for a key whose deadline has not passed, as the machine computes it. -/
theorem cmdTtl_eq {s : Store} (h : s.table.Inv) {cmd : Command} {it : Item} {now : Int64}
    (hnow : 0 ≤ now) (hkey : s.view (cmd.get 1) = some it) (hd : now ≤ it.expiresAtMs)
    (out : Buffer) :
    ∃ s', cmdTtl s cmd now out = some (s', reply.integer out
      ((it.expiresAtMs - now + kMsPerSec / 2) / kMsPerSec)) := by
  obtain ⟨hms, s', httl⟩ := ttlMs_of_view h hnow hkey hd
  have hd' : now.toInt ≤ it.expiresAtMs.toInt := Int64.le_iff_toInt_le.mp hd
  have hnonneg : ¬ it.expiresAtMs - now < 0 := by
    rw [Int64.lt_iff_toInt_lt, hms, Int64.toInt_zero]
    omega
  refine ⟨s', ?_⟩
  simp only [cmdTtl, httl, Option.bind_eq_bind, Option.bind_some, if_neg hnonneg, Option.pure_def]

/-- Expiry arithmetic is exact where the time left is far enough from the end of `std::int64_t`.
`deadline` never overflows and returns the exact sum whenever there is one. `TTL` is exact, with no
overflow on the way, if and only if the key has at most `2 ^ 63 - 501` milliseconds left: half a
second more than that is not an `std::int64_t`. -/
theorem ttl_exact_iff {cfg : Config} {s : Store} (hreach : Store.Reachable cfg s)
    {n unitMs now now' : Int64} (hnow : 0 ≤ now) (hn : 0 < n)
    (hunit : unitMs = kMsPerSec ∨ unitMs = 1) (hlater : now ≤ now') {cmd : Command} {it : Item}
    (hkey : s.view (cmd.get 1) = some it) (hd : now' ≤ it.expiresAtMs) :
    (DeadlineInRange n unitMs now ∧ DeadlineExact n unitMs now ∧
      TtlExact s cmd it.expiresAtMs now') ↔
    it.expiresAtMs.toInt - now'.toInt ≤ 2 ^ 63 - 1 - 500 := by
  have hunit' : 0 < unitMs := by
    rcases hunit with rfl | rfl <;> decide
  have hnow' : 0 ≤ now' := Int64.le_trans hnow hlater
  have hpos : 0 ≤ now'.toInt := Int64.le_iff_toInt_le.mp hnow'
  have hle : now'.toInt ≤ it.expiresAtMs.toInt := Int64.le_iff_toInt_le.mp hd
  have hlt := it.expiresAtMs.toInt_lt
  constructor
  · rintro ⟨-, -, httl⟩
    have := httl.sum.2
    omega
  · intro hleft
    have hdiff : InInt64 (it.expiresAtMs.toInt - now'.toInt) := ⟨by omega, by omega⟩
    have hsum : InInt64 (it.expiresAtMs.toInt - now'.toInt + 500) := ⟨by omega, by omega⟩
    have hquotient : InInt64 ((it.expiresAtMs.toInt - now'.toInt + 500) / 1000) :=
      ⟨by omega, by omega⟩
    -- No operation wraps, so the machine computes the integer.
    have hvalue : (it.expiresAtMs - now' + kMsPerSec / 2) / kMsPerSec
        = Int64.ofInt ((it.expiresAtMs.toInt - now'.toInt + 500) / 1000) := by
      rw [← Int64.toInt_inj, Int64.toInt_ofInt, show Int64.size = 2 ^ 64 from rfl,
        hquotient.bmod_eq, Int64.toInt_div,
        Int64.toInt_add, Int64.toInt_sub, show (kMsPerSec / 2).toInt = 500 by decide,
        show kMsPerSec.toInt = 1000 by decide, hdiff.bmod_eq, hsum.bmod_eq,
        Int.tdiv_eq_ediv_of_nonneg (by omega), hquotient.bmod_eq]
    have hreply : ∀ out, ∃ s', cmdTtl s cmd now' out = some (s', reply.integer out
        (Int64.ofInt ((it.expiresAtMs.toInt - now'.toInt + 500) / 1000))) := by
      intro out
      rw [← hvalue]
      exact cmdTtl_eq hreach.sound.inv hnow' hkey hd out
    refine ⟨deadlineInRange hnow hn hunit', deadlineExact hnow hn hunit', hdiff, hsum, hquotient,
      fun out => ?_, hreply⟩
    obtain ⟨hms, s', httl⟩ := ttlMs_of_view hreach.sound.inv hnow' hkey hd
    rw [Checked.cmdTtl_eq hreach.sound.inv hnow' httl, hms, if_pos hleft]
    exact hreply out

omit [EntryPool] in
/-- A key with a second and a half to live, asked for three hundred milliseconds later. -/
theorem ttl_exact_iff_px : letI := slabPool
    let cmd : Command := (parseCommand (ascii "TTL k\r\n") Command.empty).2
    ∃ s₀ s : Store, Store.new { seed := 7, initialBuckets := 4 } 0 = some s₀ ∧
      s₀.set (ascii "k") (ascii "v") 2500 1000 = some (true, s) ∧
      DeadlineExact 1500 1 1000 ∧ TtlExact s cmd 2500 1300 := by
  let _ := slabPool
  intro cmd
  obtain ⟨s₀, s, hnew, hset, hreach, -, hview⟩ := Store.exists_reachable_single 0
    (show ({ seed := 7, initialBuckets := 4 } : Config).initialBuckets ≤ 2 ^ 63 by decide)
    (by decide) (show (ascii "k").length + (ascii "v").length < 2 ^ 32 by decide)
    (show ¬ Store.Past 2500 1000 by decide)
  have hkey : s.view (cmd.get 1)
      = some { value := ascii "v", expiresAtMs := 2500, lruClock := 1000 } := by
    rw [hview]
    exact Function.update_self ..
  obtain ⟨-, hexact, httl⟩ := (ttl_exact_iff hreach (show (0 : Int64) ≤ 1000 by decide)
    (show (0 : Int64) < 1500 by decide) (Or.inr rfl) (show (1000 : Int64) ≤ 1300 by decide) hkey
    (by decide)).mpr (by decide)
  exact ⟨s₀, s, hnew, hset, hexact, httl⟩

omit [EntryPool] in
/-- The longest time to live that SET accepts, asked for at once: the rounding sum leaves
`std::int64_t`, so TTL is undefined. Where the machine wraps, it answers with a negative number of
seconds. -/
theorem ttl_overflows : letI := slabPool
    let set : Command := (parseCommand (ascii "SET k v PX 9223372036854775807\r\n") Command.empty).2
    let ttl : Command := (parseCommand (ascii "TTL k\r\n") Command.empty).2
    ∃ s₀ s : Store, ∃ out, Store.new { seed := 7, initialBuckets := 4 } 0 = some s₀ ∧
      dispatch s₀ set 0 (Buffer.new 0) = some (.kContinue, s, out) ∧
      (s.view (ttl.get 1)).map Item.expiresAtMs = some Int64.maxValue ∧
      ¬ InInt64 (Int64.maxValue.toInt - 0 + 500) ∧ ¬ TtlExact s ttl Int64.maxValue 0 ∧
      (∀ out, Checked.cmdTtl s ttl 0 out = none) ∧
      ∀ out, ∃ s', cmdTtl s ttl 0 out = some (s', reply.integer out (-9223372036854775)) := by
  let _ := slabPool
  intro set ttl
  obtain ⟨s₀, s, hnew, hset, hreach, -, hview⟩ := Store.exists_reachable_single 0
    (show ({ seed := 7, initialBuckets := 4 } : Config).initialBuckets ≤ 2 ^ 63 by decide)
    (by decide) (show (set.get 1).length + (set.get 2).length < 2 ^ 32 by decide)
    (show ¬ Store.Past Int64.maxValue 0 by decide)
  have hopts : setOptions 0 (set.args.drop 3) kNoExpiry false = .ok Int64.maxValue := rfl
  have hdispatch := dispatch_set_ok (show set.IsSet by decide) hopts hset (Buffer.new 0)
  have hkey : s.view (ttl.get 1) = some (Dict.written none (set.get 2) Int64.maxValue 0) := by
    rw [hview, show ttl.get 1 = set.get 1 by decide, Function.update_self]
  have hout : ¬ InInt64 (Int64.maxValue.toInt - 0 + 500) := by decide
  have hdeadline : (Dict.written none (set.get 2) Int64.maxValue 0).expiresAtMs = Int64.maxValue :=
    rfl
  refine ⟨s₀, s, _, hnew, hdispatch, by rw [hkey]; rfl, hout, fun h => hout h.sum, fun out => ?_,
    fun out => ?_⟩
  · obtain ⟨-, s', httl⟩ := ttlMs_of_view hreach.sound.inv (Int64.le_refl 0) hkey (by decide)
    rw [Checked.cmdTtl_eq hreach.sound.inv (Int64.le_refl 0) httl, hdeadline]
    exact if_neg (by decide)
  · obtain ⟨s', httl⟩ := cmdTtl_eq hreach.sound.inv (Int64.le_refl 0) hkey (by decide) out
    have hwrapped : (Int64.maxValue - 0 + kMsPerSec / 2) / kMsPerSec = -9223372036854775 := by
      decide
    rw [hdeadline, hwrapped] at httl
    exact ⟨s', httl⟩

end TinyRedis
