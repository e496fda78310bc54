import Mathlib.Data.List.Forall2
import Mathlib.Data.List.TakeWhile
import TinyRedis.Proofs.Command.Expiry

/-!
# `TinyRedis.Proofs.Command.Options`: the option grammar of SET

`SetGrammar` lists the option lists that SET has, with the deadline each asks for. The option loop
accepts these and no others (`setOptions_eq_ok_iff`): once an option is read, `haveExpiryOpt` lets
no other one pass. Names are compared up to ASCII case (`EqIgnoreCase`), and a number is what
`std::from_chars` reads, over the whole argument (`Denotes`).

* `iequals_iff_eqIgnoreCase`: the comparison of the source with a name in lower case.
* `parseInt_iff`: the number that an argument is read as, digit by digit with the checks for
  overflow on the way.
* `setOptions_keepTtl`, `setOptions_unit`, `setOptions_unknown`: the first option of a list.
* `cmdSet_grammar`: SET stores with the deadline of its options, and otherwise answers with one of
  three errors and leaves the store alone.

The grammar is stated over integers: a deadline is `now + n * unit`, and a list whose deadline does
not fit in 64 bits is not in it. The guard in `deadline` refuses exactly these.
-/

set_option autoImplicit false

namespace TinyRedis

open Lib

/-! ### Names -/

/-- Two bytes that are equal, or one letter in its two cases. -/
def SameLetter (c d : UInt8) : Prop :=
  c = d ∨ (65 ≤ c ∧ c ≤ 90 ∧ d = c + 32) ∨ (65 ≤ d ∧ d ≤ 90 ∧ c = d + 32)

/-- Equal up to ASCII case. -/
def EqIgnoreCase (s t : Bytes) : Prop := List.Forall₂ SameLetter s t

/-- `lower` adds 32 to a capital letter, and leaves every other byte alone. -/
theorem toNat_lower (c : UInt8) :
    (lower c).toNat = if 65 ≤ c.toNat ∧ c.toNat ≤ 90 then c.toNat + 32 else c.toNat := by
  have hletter : (c ≥ 65 ∧ c ≤ 90) ↔ 65 ≤ c.toNat ∧ c.toNat ≤ 90 := Iff.rfl
  simp only [lower, hletter]
  split
  · next h =>
    rw [UInt8.toNat_add, UInt8.toNat_sub_of_le _ _ h.1]
    have : (65 : UInt8).toNat = 65 := rfl
    have : (97 : UInt8).toNat = 97 := rfl
    omega
  · rfl

/-- Two bytes are the same letter when they are the same in lower case. -/
theorem sameLetter_iff {c d : UInt8} : SameLetter c d ↔ lower c = lower d := by
  have hc := c.toNat_lt
  have hd := d.toNat_lt
  have h32 : (32 : UInt8).toNat = 32 := rfl
  have h65 : ∀ x : UInt8, 65 ≤ x ↔ 65 ≤ x.toNat := fun _ => Iff.rfl
  have h90 : ∀ x : UInt8, x ≤ 90 ↔ x.toNat ≤ 90 := fun _ => Iff.rfl
  simp only [SameLetter, ← UInt8.toNat_inj, toNat_lower, UInt8.toNat_add, h32, h65, h90]
  split <;> split <;> omega

/-- The loop compares byte by byte, with the first side in lower case. -/
theorem iequalsLoop_iff : ∀ {s lowerRef : Bytes}, s.length = lowerRef.length →
    (iequalsLoop s lowerRef = true ↔ s.map lower = lowerRef) := by
  intro s
  induction s with
  | nil =>
    intro lowerRef hlen
    obtain rfl := List.length_eq_zero_iff.mp hlen.symm
    exact iff_of_true rfl rfl
  | cons c s ih =>
    intro lowerRef hlen
    cases lowerRef with
    | nil => cases hlen
    | cons d lowerRef =>
      rw [iequalsLoop, List.map_cons, List.cons.injEq]
      by_cases hc : lower c = d
      · rw [if_neg (not_not.mpr hc), ih (Nat.succ.inj hlen), and_iff_right hc]
      · rw [if_pos hc]
        exact iff_of_false nofun fun h => hc h.1

/-- Names of different lengths differ. -/
theorem iequals_iff {s lowerRef : Bytes} :
    iequals s lowerRef = true ↔ s.map lower = lowerRef := by
  unfold iequals
  split
  · next hlen =>
    refine iff_of_false nofun fun h => hlen ?_
    rw [← h, List.length_map]
  · next hlen => exact iequalsLoop_iff (not_not.mp hlen)

/-- Comparing with a lowercase name is comparing up to case. -/
theorem iequals_iff_eqIgnoreCase {s name lowerRef : Bytes} (h : name.map lower = lowerRef) :
    iequals s lowerRef = true ↔ EqIgnoreCase s name := by
  rw [iequals_iff, ← h, EqIgnoreCase, ← List.forall₂_eq_eq_eq, List.forall₂_map_left_iff,
    List.forall₂_map_right_iff]
  simp only [← sameLetter_iff]

/-! ### Numbers -/

/-- An optional minus sign and digits, for the number `n`. -/
def Denotes (s : Bytes) (n : Int) : Prop :=
  ∃ digits : Bytes, digits ≠ [] ∧ (∀ c ∈ digits, IsDigit c) ∧
    ((s = digits ∧ n = value digits 0) ∨ (s = 45 :: digits ∧ n = -value digits 0))

/-- An integer in range is the value of one 64-bit integer. -/
theorem toInt_ofInt_iff {n : Int} (h : InInt64 n) {v : Int64} :
    Int64.ofInt n = v ↔ v.toInt = n := by
  have hbmod : n.bmod Int64.size = n := h.bmod_eq
  rw [← Int64.toInt_inj, Int64.toInt_ofInt, hbmod, eq_comm]

/-- What `std::from_chars` makes of the bytes behind the sign. -/
theorem fromDigits_iff (negative : Bool) (rest : Bytes) (v : Int64) :
    (let digits := rest.takeWhile fun c => decide (IsDigit c)
     let n : Int := if negative then -value digits 0 else value digits 0
     if digits.isEmpty then none
     else if n < -2 ^ 63 ∨ n ≥ 2 ^ 63 then none
     else some (Int64.ofInt n, rest.dropWhile fun c => decide (IsDigit c))) = some (v, []) ↔
    rest ≠ [] ∧ (∀ c ∈ rest, IsDigit c) ∧
      v.toInt = if negative then -(value rest 0 : Int) else value rest 0 := by
  dsimp only
  by_cases hall : ∀ c ∈ rest, IsDigit c
  case neg =>
    -- A byte that is no digit is left over.
    have hleft : (rest.dropWhile fun c => decide (IsDigit c)) ≠ [] := by
      simpa [List.dropWhile_eq_nil_iff] using hall
    refine iff_of_false (fun h => ?_) fun h => hall h.2.1
    generalize (if negative then
      -(value (rest.takeWhile fun c => decide (IsDigit c)) 0 : Int) else _) = n at h
    split at h
    · cases h
    · split at h
      · cases h
      · exact hleft (Prod.mk.inj (Option.some.inj h)).2
  have htake : (rest.takeWhile fun c => decide (IsDigit c)) = rest :=
    List.takeWhile_eq_self_iff.mpr (by simpa using hall)
  have hdrop : (rest.dropWhile fun c => decide (IsDigit c)) = [] :=
    List.dropWhile_eq_nil_iff.mpr (by simpa using hall)
  rw [htake, hdrop]
  by_cases hne : rest = []
  · subst hne
    exact iff_of_false nofun fun h => h.1 rfl
  rw [if_neg (by simpa using hne)]
  generalize (if negative then -(value rest 0 : Int) else value rest 0) = n
  have hv := v.toInt_lt
  have hv' := v.le_toInt
  by_cases hrange : n < -2 ^ 63 ∨ n ≥ 2 ^ 63
  · rw [if_pos hrange]
    refine iff_of_false nofun fun h => ?_
    have := h.2.2
    omega
  · have hin : InInt64 n := ⟨by omega, by omega⟩
    rw [if_neg hrange, Option.some.injEq, Prod.mk.injEq, toInt_ofInt_iff hin]
    exact ⟨fun h => ⟨hne, hall, h.1⟩, fun h => ⟨h.2.2, rfl⟩⟩

/-- `from_chars` takes the whole text when it denotes a number in range. -/
theorem fromChars_iff {s : Bytes} {v : Int64} :
    fromChars s = some (v, []) ↔ Denotes s v.toInt := by
  unfold fromChars
  split
  next negative rest hsign =>
  rw [fromDigits_iff]
  split at hsign
  · next rest' =>
    cases hsign
    constructor
    · rintro ⟨hne, hall, hv⟩
      exact ⟨rest, hne, hall, Or.inr ⟨rfl, hv⟩⟩
    · rintro ⟨digits, hne, hall, ⟨rfl, -⟩ | ⟨heq, hv⟩⟩
      · exact absurd (hall 45 (by simp)) (by decide)
      · obtain rfl := (List.cons.inj heq).2
        exact ⟨hne, hall, hv⟩
  · next hplain =>
    cases hsign
    constructor
    · rintro ⟨hne, hall, hv⟩
      exact ⟨s, hne, hall, Or.inl ⟨rfl, hv⟩⟩
    · rintro ⟨digits, hne, hall, ⟨rfl, hv⟩ | ⟨rfl, -⟩⟩
      · exact ⟨hne, hall, hv⟩
      · exact absurd rfl (hplain digits)

/-- `parseInt` takes nothing but a number, and all of it. -/
theorem parseInt_iff {s : Bytes} {v : Int64} : parseInt s = some v ↔ Denotes s v.toInt := by
  rw [← fromChars_iff]
  unfold parseInt
  split
  · next w hfrom => simp [hfrom]
  · next hother =>
    refine iff_of_false nofun fun h => hother v h

/-- An argument denotes one number. -/
theorem exists_denotes_iff {s : Bytes} {n : Int64} (h : Denotes s n.toInt) {P : Int64 → Prop} :
    (∃ m : Int64, Denotes s m.toInt ∧ P m) ↔ P n := by
  refine ⟨fun ⟨m, hm, hP⟩ => ?_, fun hP => ⟨n, h, hP⟩⟩
  rw [← parseInt_iff] at h hm
  rwa [Option.some.inj (h.symm.trans hm)]

/-! ### The option loop -/

/-- The option lists of SET, and the `expireAt` that each one asks for. -/
inductive SetGrammar (now : Int64) : List Bytes → Int64 → Prop where
  | bare : SetGrammar now [] kNoExpiry
  | keepTtl {opt : Bytes} : EqIgnoreCase opt (ascii "KEEPTTL") → SetGrammar now [opt] kKeepTtl
  | ex {opt arg : Bytes} {n expireAt : Int64} : EqIgnoreCase opt (ascii "EX") →
      Denotes arg n.toInt → 0 < n → expireAt.toInt = now.toInt + 1000 * n.toInt →
      SetGrammar now [opt, arg] expireAt
  | px {opt arg : Bytes} {n expireAt : Int64} : EqIgnoreCase opt (ascii "PX") →
      Denotes arg n.toInt → 0 < n → expireAt.toInt = now.toInt + n.toInt →
      SetGrammar now [opt, arg] expireAt

section

variable {now e : Int64} {opt arg : Bytes} {rest : List Bytes}

/-- A deadline is given exactly where it is an `std::int64_t`. -/
theorem deadline_eq_some_iff {n unitMs : Int64} (hnow : 0 ≤ now) (hn : 0 < n) (hunit : 0 < unitMs) :
    deadline n unitMs now = some e ↔ e.toInt = now.toInt + n.toInt * unitMs.toInt := by
  have hexact := deadlineExact hnow hn hunit
  refine ⟨fun h => (hexact.value e h).1, fun h => ?_⟩
  have hlt := e.toInt_lt
  obtain ⟨e', he'⟩ := Option.isSome_iff_exists.mp (hexact.isSome_iff.mpr (by omega))
  have hsame : e' = e := Int64.toInt_inj.mp (((hexact.value e' he').1).trans h.symm)
  rw [he', hsame]

/-- After one option no other is taken. -/
theorem setOptions_of_have {args : List Bytes} {expireAt : Int64} :
    setOptions now args expireAt true = .ok e ↔ args = [] ∧ expireAt = e := by
  cases args with
  | nil => simp [setOptions]
  | cons opt rest => cases rest <;> simp [setOptions]

/-- `KEEPTTL` stands alone. -/
theorem setOptions_keepTtl (h : iequals opt (ascii "keepttl") = true) :
    setOptions now (opt :: rest) kNoExpiry false = .ok e ↔ rest = [] ∧ kKeepTtl = e := by
  rw [setOptions, if_pos ⟨h, nofun⟩, setOptions_of_have]

/-- An option with an argument: a number whose deadline there is, and no more options. -/
theorem setOptions_unit {unitMs : Int64} (hnow : 0 ≤ now)
    (hkeep : iequals opt (ascii "keepttl") = false)
    (hopt : iequals opt (ascii "ex") = true ∧ unitMs = kMsPerSec ∨
      iequals opt (ascii "ex") = false ∧ iequals opt (ascii "px") = true ∧ unitMs = 1) :
    setOptions now (opt :: arg :: rest) kNoExpiry false = .ok e ↔
      rest = [] ∧ ∃ n : Int64, Denotes arg n.toInt ∧ 0 < n ∧
        e.toInt = now.toInt + n.toInt * unitMs.toInt := by
  -- Either option: its name passes the check, and its unit is the one of the statement.
  have hunit : 0 < unitMs := by
    rcases hopt with ⟨-, rfl⟩ | ⟨-, -, rfl⟩ <;> decide
  have hname : ¬ (¬ (iequals opt (ascii "ex") = true ∨ iequals opt (ascii "px") = true) ∨
      (false : Bool) = true) := by
    rcases hopt with ⟨hex, -⟩ | ⟨-, hpx, -⟩
    · simp [hex]
    · simp [hpx]
  have hms : (if iequals opt (ascii "ex") = true then kMsPerSec else 1) = unitMs := by
    rcases hopt with ⟨hex, rfl⟩ | ⟨hex, -, rfl⟩
    · rw [if_pos hex]
    · rw [if_neg (by rw [hex]; decide)]
  rw [setOptions, if_neg (by rw [hkeep]; simp)]
  dsimp only
  rw [if_neg hname, hms]
  cases hint : parseInt arg with
  | none =>
    refine iff_of_false nofun fun ⟨_, n, hn, _⟩ => ?_
    rw [parseInt_iff.mpr hn] at hint
    cases hint
  | some n =>
    rw [exists_denotes_iff (parseInt_iff.mp hint)]
    dsimp only
    by_cases hpos : 0 < n
    · rw [if_pos hpos, and_iff_right hpos, ← deadline_eq_some_iff hnow hpos hunit]
      cases deadline n unitMs now with
      | none => exact iff_of_false nofun fun h => (by cases h.2)
      | some at_ => rw [setOptions_of_have, Option.some.injEq]
    · rw [if_neg hpos]
      exact iff_of_false nofun fun h => hpos h.2.1

/-- Any other name is a syntax error. -/
theorem setOptions_unknown (hkeep : iequals opt (ascii "keepttl") = false)
    (hex : iequals opt (ascii "ex") = false) (hpx : iequals opt (ascii "px") = false) :
    setOptions now (opt :: rest) kNoExpiry false = .error .syntaxError := by
  cases rest <;> simp [setOptions, hkeep, hex, hpx]

/-- An argument names one option. -/
theorem iequals_unique {a b : Bytes} (hne : a ≠ b) (ha : iequals opt a = true) :
    iequals opt b = false := by
  rw [Bool.eq_false_iff, ne_eq, iequals_iff]
  intro hb
  exact hne ((iequals_iff.mp ha).symm.trans hb)

/-- The option loop accepts the grammar and nothing else. -/
theorem setOptions_eq_ok_iff (hnow : 0 ≤ now) {args : List Bytes} :
    setOptions now args kNoExpiry false = .ok e ↔ SetGrammar now args e := by
  -- The code compares with lower-case names, the grammar has them in capitals.
  have hKeep : ∀ {s}, iequals s (ascii "keepttl") = true ↔ EqIgnoreCase s (ascii "KEEPTTL") :=
    iequals_iff_eqIgnoreCase (by decide)
  have hEx : ∀ {s}, iequals s (ascii "ex") = true ↔ EqIgnoreCase s (ascii "EX") :=
    iequals_iff_eqIgnoreCase (by decide)
  have hPx : ∀ {s}, iequals s (ascii "px") = true ↔ EqIgnoreCase s (ascii "PX") :=
    iequals_iff_eqIgnoreCase (by decide)
  have hsec : kMsPerSec.toInt = 1000 := rfl
  have hone : (1 : Int64).toInt = 1 := rfl
  constructor
  · intro h
    cases args with
    | nil =>
      cases h
      exact .bare
    | cons opt rest =>
      -- The names are tried in the order of the code.
      by_cases hkeep : iequals opt (ascii "keepttl") = true
      · obtain ⟨rfl, rfl⟩ := (setOptions_keepTtl hkeep).mp h
        exact .keepTtl (hKeep.mp hkeep)
      rw [Bool.not_eq_true] at hkeep
      cases rest with
      | nil => simp [setOptions, hkeep] at h
      | cons arg rest =>
        by_cases hex : iequals opt (ascii "ex") = true
        · obtain ⟨rfl, n, hn, hpos, he⟩ :=
            (setOptions_unit hnow hkeep (Or.inl ⟨hex, rfl⟩)).mp h
          rw [hsec, Int.mul_comm] at he
          exact .ex (hEx.mp hex) hn hpos he
        rw [Bool.not_eq_true] at hex
        by_cases hpx : iequals opt (ascii "px") = true
        · obtain ⟨rfl, n, hn, hpos, he⟩ :=
            (setOptions_unit hnow hkeep (Or.inr ⟨hex, hpx, rfl⟩)).mp h
          rw [hone, Int.mul_one] at he
          exact .px (hPx.mp hpx) hn hpos he
        · rw [setOptions_unknown hkeep hex (Bool.not_eq_true _ ▸ hpx)] at h
          cases h
  · intro h
    cases h with
    | bare => rfl
    | keepTtl hname => exact (setOptions_keepTtl (hKeep.mpr hname)).mpr ⟨rfl, rfl⟩
    | ex hname hn hpos he =>
      have hex := hEx.mpr hname
      refine (setOptions_unit hnow (iequals_unique (by decide) hex) (Or.inl ⟨hex, rfl⟩)).mpr
        ⟨rfl, _, hn, hpos, ?_⟩
      rw [he, hsec, Int.mul_comm]
    | px hname hn hpos he =>
      have hpx := hPx.mpr hname
      refine (setOptions_unit hnow (iequals_unique (by decide) hpx)
        (Or.inr ⟨iequals_unique (by decide) hpx, hpx, rfl⟩)).mpr ⟨rfl, _, hn, hpos, ?_⟩
      rw [he, hone, Int.mul_one]

end

variable [EntryPool]

/-- SET accepts exactly its option grammar. The option loop reaches `store.set`, with the `expireAt`
that the options ask for, if and only if they are in the grammar. What the client is told then
depends on the outcome of that call alone. Any other option list is answered with one error, and
the store is not called. -/
theorem cmdSet_grammar (s : Store) (cmd : Command) {now : Int64} (hnow : 0 ≤ now) (out : Buffer) :
    (∀ e, setOptions now (cmd.args.drop 3) kNoExpiry false = .ok e ↔
      SetGrammar now (cmd.args.drop 3) e) ∧
    (∀ e, SetGrammar now (cmd.args.drop 3) e →
      cmdSet s cmd now out = (s.set (cmd.get 1) (cmd.get 2) e now).map fun r =>
        (r.2, if r.1 then reply.simpleString out (ascii "OK") else reply.error out kOom)) ∧
    ((∀ e, ¬ SetGrammar now (cmd.args.drop 3) e) →
      ∃ msg ∈ [kSyntax, kNotInteger, ascii "ERR invalid expire time in 'set' command"],
        cmdSet s cmd now out = some (s, reply.error out msg)) := by
  refine ⟨fun e => setOptions_eq_ok_iff hnow, fun e he => ?_, fun hnone => ?_⟩
  · rw [cmdSet, (setOptions_eq_ok_iff hnow).mpr he]
    dsimp only
    -- The reply is chosen by whether the store took the key.
    cases s.set (cmd.get 1) (cmd.get 2) e now with
    | none => rfl
    | some r =>
      obtain ⟨stored, s'⟩ := r
      dsimp only [Option.map_some]
      cases stored with
      | true =>
        rw [if_pos rfl]
        rfl
      | false =>
        rw [if_neg Bool.false_ne_true]
        rfl
  · cases hopts : setOptions now (cmd.args.drop 3) kNoExpiry false with
    | ok e => exact absurd ((setOptions_eq_ok_iff hnow).mp hopts) (hnone e)
    | error err =>
      rw [cmdSet, hopts]
      cases err with
      | syntaxError => exact ⟨kSyntax, by simp, rfl⟩
      | notInteger => exact ⟨kNotInteger, by simp, rfl⟩
      | invalidExpire =>
        have hmsg : ascii "ERR invalid expire time in '" ++ ascii "set" ++ ascii "' command"
            = ascii "ERR invalid expire time in 'set' command" := by decide
        exact ⟨_,
          List.mem_cons_of_mem _ (List.mem_cons_of_mem _ (List.mem_singleton.mpr hmsg)), rfl⟩

omit [EntryPool] in
/-- An option in mixed case, and one given twice. -/
theorem cmdSet_grammar_px : letI := slabPool
    let px : Command := (parseCommand (ascii "SET k v pX 1500\r\n") Command.empty).2
    let twice : Command := (parseCommand (ascii "SET k v KEEPTTL KEEPTTL\r\n") Command.empty).2
    ∃ s₀ s : Store, s₀.set (ascii "k") (ascii "v") 2500 1000 = some (true, s) ∧
      cmdSet s₀ px 1000 (Buffer.new 0)
        = some (s, reply.simpleString (Buffer.new 0) (ascii "OK")) ∧
      ∃ msg, cmdSet s₀ twice 1000 (Buffer.new 0) = some (s₀, reply.error (Buffer.new 0) msg) := by
  let _ := slabPool
  intro px twice
  obtain ⟨s₀, s, -, hset, -⟩ := Store.exists_reachable_single 0
    (show ({ seed := 7, initialBuckets := 4 } : Config).initialBuckets ≤ 2 ^ 63 by decide)
    (by decide) (show (ascii "k").length + (ascii "v").length < 2 ^ 32 by decide)
    (show ¬ Store.Past 2500 1000 by decide)
  have hnow : (0 : Int64) ≤ 1000 := by decide
  refine ⟨s₀, s, hset, ?_, ?_⟩
  · have hgrammar : SetGrammar 1000 (px.args.drop 3) 2500 :=
      (setOptions_eq_ok_iff hnow).mp (by decide)
    rw [(cmdSet_grammar s₀ px hnow (Buffer.new 0)).2.1 2500 hgrammar,
      show px.get 1 = ascii "k" by decide, show px.get 2 = ascii "v" by decide, hset]
    rfl
  · have hrefused : ∀ e, ¬ SetGrammar 1000 (twice.args.drop 3) e := by
      intro e he
      have hopts := (setOptions_eq_ok_iff hnow).mpr he
      rw [show setOptions 1000 (twice.args.drop 3) kNoExpiry false = .error .syntaxError
        by decide] at hopts
      cases hopts
    obtain ⟨msg, -, hreply⟩ := (cmdSet_grammar s₀ twice hnow (Buffer.new 0)).2.2 hrefused
    exact ⟨msg, hreply⟩

end TinyRedis
