import TinyRedis.Lib.Decimal
import TinyRedis.Proofs.Resp.Final

/-!
# `TinyRedis.Proofs.Resp.Canonical`: the array form is canonical

`encodeCommand` is the one spelling of an argument list. The array form parses it back with anything
behind it (`arrayElems_complete`), and parses nothing else (`arrayElems_sound`).

* `readInt_eq_some_iff`: a number is read from its decimal digits and from no other text. A leading
  zero, a sign or a digit too many is refused.
* `readInt64_exact`: the arithmetic of the source does not wrap on the way. The check before each
  digit leaves room for it.
* `headerValue_eq_some_iff`: a header is its type byte and such a number, up to its limit.
* `arrayElem_ok_iff`: one argument, with its length in front and a CRLF behind it.
* `arrayElems_sound`, `arrayElems_complete`: the loop over the arguments, in both directions.
* `parseArray_ok_iff`, `parseCommand_array_iff`: the array form, and commands that start with an
  asterisk.

The arguments are arbitrary bytes: a payload is taken by its length, so a CRLF or a zero byte in it
is nothing special.
-/

set_option autoImplicit false

namespace TinyRedis

open Lib

/-- A bulk string: its length, then its bytes. -/
def encodeBulk (arg : Bytes) : Bytes :=
  ascii "$" ++ decimal arg.length ++ crlf ++ arg ++ crlf

/-- A command in the array form. -/
def encodeCommand (args : List Bytes) : Bytes :=
  ascii "*" ++ decimal args.length ++ crlf ++ args.flatMap encodeBulk

/-! ### Numbers -/

/-- The check of the source, as a digit. -/
theorem isDigit_iff_not {c : UInt8} : IsDigit c ↔ ¬ (c < 48 ∨ c > 57) := by
  rw [not_or, UInt8.not_lt, gt_iff_lt, UInt8.not_lt]
  rfl

/-- The digit loop reads digits, up to the largest `size_t`. -/
theorem readDigits_eq_some_iff (s : Bytes) : ∀ (v w : Nat), v ≤ kLimit →
    (readDigits s v = some w ↔ (∀ c ∈ s, IsDigit c) ∧ value s v = w ∧ w ≤ kLimit) := by
  induction s with
  | nil =>
    intro v w hv
    constructor
    · intro h
      obtain rfl : v = w := Option.some.inj h
      exact ⟨nofun, rfl, hv⟩
    · rintro ⟨-, rfl, -⟩
      rfl
  | cons c s ih =>
    intro v w hv
    by_cases hc : IsDigit c
    case neg =>
      rw [readDigits, if_pos (not_not.mp (mt isDigit_iff_not.mpr hc))]
      exact ⟨nofun, fun h => absurd (h.1 c (by simp)) hc⟩
    have hlt := digitVal_lt hc
    rw [readDigits, if_neg (isDigit_iff_not.mp hc)]
    -- The bound is the source's test that `v * 10 + digit` does not wrap.
    change (if v > (kLimit - digitVal c) / 10 then none
      else readDigits s (v * 10 + digitVal c)) = some w ↔ _
    have hlimit : kLimit = 2 ^ 64 - 1 := rfl
    by_cases hover : v > (kLimit - digitVal c) / 10
    · -- Past the bound the number can only grow.
      have hge := le_value s (v * 10 + digitVal c)
      rw [if_pos hover]
      refine ⟨nofun, fun ⟨_, hw, hle⟩ => ?_⟩
      rw [value_cons] at hw
      omega
    · rw [if_neg hover, ih _ w (by omega), value_cons]
      simp only [List.mem_cons, forall_eq_or_imp, hc, true_and]

/-- What `readInt` reads is the canonical decimal of what it gives. -/
theorem decimal_of_readInt {s : Bytes} {v : Nat} (h : readInt s = some v) :
    s = decimal v ∧ v ≤ kLimit := by
  cases s with
  | nil => cases h
  | cons c s =>
    simp only [readInt] at h
    by_cases hzero : c :: s = ascii "0"
    · rw [if_pos hzero] at h
      obtain rfl := Option.some.inj h
      exact ⟨hzero, Nat.zero_le _⟩
    rw [if_neg hzero] at h
    -- The first digit is not `0`, so there is one decimal of this value.
    by_cases hlead : c < 49 ∨ c > 57
    · rw [if_pos hlead] at h
      cases h
    rw [if_neg hlead, readDigits_eq_some_iff _ _ _ (Nat.zero_le _)] at h
    obtain ⟨hdigits, rfl, hle⟩ := h
    refine ⟨(decimal_value (by simp) hdigits ?_).symm, hle⟩
    rw [List.head?_cons]
    intro hc
    obtain rfl := Option.some.inj hc
    exact hlead (Or.inl (by decide))

/-- A digit that is not `0` may lead. -/
theorem not_lead_of_isDigit {c : UInt8} (hc : IsDigit c) (hne : c ≠ 48) :
    ¬ (c < 49 ∨ c > 57) := by
  rw [isDigit_iff] at hc
  have hne' : c.toNat ≠ 48 := fun heq => hne (UInt8.toNat_inj.mp heq)
  simp only [UInt8.lt_iff_toNat_lt, gt_iff_lt]
  rintro (h | h)
  · have : c.toNat < 49 := h
    omega
  · have : 57 < c.toNat := h
    omega

/-- `readInt` reads canonical decimals. -/
theorem readInt_decimal {v : Nat} (hle : v ≤ kLimit) : readInt (decimal v) = some v := by
  by_cases hv : v = 0
  · subst hv
    rfl
  have hhead := head?_decimal hv
  have hdigit : ∀ c ∈ decimal v, IsDigit c := fun c hc => isDigit_of_mem_decimal hc
  have hread := (readDigits_eq_some_iff (decimal v) 0 v (Nat.zero_le _)).mpr
    ⟨hdigit, value_decimal v, hle⟩
  cases hs : decimal v with
  | nil => exact absurd hs (decimal_ne_nil v)
  | cons c s =>
    rw [hs] at hhead hread hdigit
    have hne : c ≠ 48 := by
      rintro rfl
      exact hhead rfl
    have hzero : c :: s ≠ ascii "0" := by
      intro heq
      exact hne (List.cons.inj heq).1
    rw [readInt, if_neg hzero, if_neg (not_lead_of_isDigit (hdigit c (by simp)) hne), hread]

/-- `readInt` reads canonical decimals and nothing else. -/
theorem readInt_eq_some_iff {s : Bytes} {v : Nat} :
    readInt s = some v ↔ s = decimal v ∧ v ≤ kLimit := by
  constructor
  · exact decimal_of_readInt
  · rintro ⟨rfl, hle⟩
    exact readInt_decimal hle

/-! ### Numbers of a fixed width

`readDigits` counts in `Nat`. The source counts in `std::size_t`; here a product or a sum that
wraps is `none`, and there is none.
-/

/-- A product that fits in 64 bits. -/
def mulExact (a b : UInt64) : Option UInt64 :=
  if a.toNat * b.toNat < 2 ^ 64 then some (a * b) else none

/-- A sum that fits in 64 bits. -/
def addExact (a b : UInt64) : Option UInt64 :=
  if a.toNat + b.toNat < 2 ^ 64 then some (a + b) else none

/-- The digit loop over `std::size_t`. -/
def readDigits64 : Bytes → (v : UInt64) → Option (Option UInt64)
  | [], v => some (some v)
  | c :: s, v =>
      if c < 48 ∨ c > 57 then some none
      else
        let d := (c - 48).toUInt64
        if v > (UInt64.ofNat kLimit - d) / 10 then some none
        else do
          let p ← mulExact v 10
          let v ← addExact p d
          readDigits64 s v

/-- `readInt` over `std::size_t`. -/
def readInt64 (s : Bytes) : Option (Option UInt64) :=
  match s with
  | [] => some none
  | c :: _ =>
      if s = ascii "0" then some (some 0)
      else if c < 49 ∨ c > 57 then some none
      else readDigits64 s 0

/-- A product that fits is the product of the numbers. -/
theorem mulExact_eq_some {a b : UInt64} (h : a.toNat * b.toNat < 2 ^ 64) :
    mulExact a b = some (a * b) ∧ (a * b).toNat = a.toNat * b.toNat :=
  ⟨if_pos h, by rw [UInt64.toNat_mul, Nat.mod_eq_of_lt h]⟩

/-- A sum that fits is the sum of the numbers. -/
theorem addExact_eq_some {a b : UInt64} (h : a.toNat + b.toNat < 2 ^ 64) :
    addExact a b = some (a + b) ∧ (a + b).toNat = a.toNat + b.toNat :=
  ⟨if_pos h, by rw [UInt64.toNat_add, Nat.mod_eq_of_lt h]⟩

/-- The bound of the digit loop is the same number in `std::size_t`. -/
theorem toNat_digitBound {c : UInt8} (hc : IsDigit c) :
    ((UInt64.ofNat kLimit - (c - 48).toUInt64) / 10).toNat = (kLimit - digitVal c) / 10 := by
  have hd : (c - 48).toUInt64.toNat = digitVal c := UInt8.toNat_toUInt64 _
  have hle : (c - 48).toUInt64 ≤ UInt64.ofNat kLimit := by
    have := digitVal_lt hc
    rw [UInt64.le_iff_toNat_le, hd]
    exact Nat.le_of_lt (Nat.lt_trans this (by decide))
  rw [UInt64.toNat_div, UInt64.toNat_sub_of_le _ _ hle, hd]
  rfl

/-- Below the bound of the digit loop there is room for one more digit. -/
theorem pushDigit_exact {c : UInt8} (hc : IsDigit c) {v : UInt64}
    (h : v.toNat ≤ (kLimit - digitVal c) / 10) :
    mulExact v 10 = some (v * 10) ∧
      addExact (v * 10) (c - 48).toUInt64 = some (v * 10 + (c - 48).toUInt64) ∧
      (v * 10 + (c - 48).toUInt64).toNat = v.toNat * 10 + digitVal c := by
  have hd : (c - 48).toUInt64.toNat = digitVal c := UInt8.toNat_toUInt64 _
  have hten : (10 : UInt64).toNat = 10 := rfl
  have hroom : v.toNat * 10 + digitVal c < 2 ^ 64 := by
    have hlt := digitVal_lt hc
    have hlimit : kLimit = 2 ^ 64 - 1 := rfl
    omega
  obtain ⟨hmul, hmul'⟩ := mulExact_eq_some (show v.toNat * (10 : UInt64).toNat < 2 ^ 64 by
    rw [hten]; omega)
  rw [hten] at hmul'
  obtain ⟨hadd, hadd'⟩ := addExact_eq_some
    (show (v * 10).toNat + (c - 48).toUInt64.toNat < 2 ^ 64 by rwa [hmul', hd])
  rw [hmul', hd] at hadd'
  exact ⟨hmul, hadd, hadd'⟩

/-- No product and no sum of the digit loop wraps. -/
theorem readDigits64_exact (s : Bytes) : ∀ v : UInt64,
    ∃ r, readDigits64 s v = some r ∧ r.map UInt64.toNat = readDigits s v.toNat := by
  induction s with
  | nil =>
    intro v
    exact ⟨some v, rfl, rfl⟩
  | cons c s ih =>
    intro v
    rw [readDigits64, readDigits]
    -- The two readers make the same checks; only the last step computes.
    by_cases hc : IsDigit c
    case neg =>
      have hnot := not_not.mp (mt isDigit_iff_not.mpr hc)
      rw [if_pos hnot, if_pos hnot]
      exact ⟨none, rfl, rfl⟩
    rw [if_neg (isDigit_iff_not.mp hc), if_neg (isDigit_iff_not.mp hc)]
    dsimp only
    have hbound := toNat_digitBound hc
    change ∃ r : Option UInt64, _ = some r ∧ r.map UInt64.toNat
      = if v.toNat > (kLimit - digitVal c) / 10 then none
        else readDigits s (v.toNat * 10 + digitVal c)
    by_cases hover : v > (UInt64.ofNat kLimit - (c - 48).toUInt64) / 10
    · have hover' := UInt64.lt_iff_toNat_lt.mp hover
      rw [hbound] at hover'
      rw [if_pos hover, if_pos hover']
      exact ⟨none, rfl, rfl⟩
    · have hover' : ¬ v.toNat > (kLimit - digitVal c) / 10 := by
        rw [← hbound]
        exact fun h => hover (UInt64.lt_iff_toNat_lt.mpr h)
      rw [if_neg hover, if_neg hover']
      obtain ⟨hmul, hadd, hpush⟩ := pushDigit_exact hc (Nat.not_lt.mp hover')
      obtain ⟨r, hread, hr⟩ := ih (v * 10 + (c - 48).toUInt64)
      rw [hpush] at hr
      refine ⟨r, ?_, hr⟩
      rw [hmul, Option.bind_eq_bind, Option.bind_some, hadd, Option.bind_some, hread]

/-- A whole number, with the check of its first digit. -/
theorem readInt64_exact (s : Bytes) :
    ∃ r, readInt64 s = some r ∧ r.map UInt64.toNat = readInt s := by
  cases s with
  | nil => exact ⟨none, rfl, rfl⟩
  | cons c s =>
    rw [readInt64, readInt]
    by_cases hzero : c :: s = ascii "0"
    · rw [if_pos hzero, if_pos hzero]
      exact ⟨some 0, rfl, rfl⟩
    rw [if_neg hzero, if_neg hzero]
    by_cases hlead : c < 49 ∨ c > 57
    · rw [if_pos hlead, if_pos hlead]
      exact ⟨none, rfl, rfl⟩
    · rw [if_neg hlead, if_neg hlead]
      exact readDigits64_exact (c :: s) 0

/-- `readInt` is the inverse of the canonical decimal of a `std::size_t`, for input of any length,
and its products and sums do not wrap on the way. -/
theorem readInt_inverse (s : Bytes) (v : Nat) :
    (readInt s = some v ↔ v < 2 ^ 64 ∧ s = decimal v) ∧
      ∃ r, readInt64 s = some r ∧ r.map UInt64.toNat = readInt s := by
  refine ⟨?_, readInt64_exact s⟩
  have hlimit : v ≤ kLimit ↔ v < 2 ^ 64 := Nat.le_sub_one_iff_lt (by decide)
  rw [readInt_eq_some_iff, hlimit, and_comm]

/-! ### Headers -/

/-- A header line is its type byte and the canonical decimal of its value. -/
theorem headerValue_eq_some_iff {line : Bytes} {type : UInt8} {limit : Nat}
    (hlimit : limit ≤ kLimit) (v : { v : Nat // v ≤ limit }) :
    headerValue line type limit = some v ↔ line = type :: decimal v := by
  cases line with
  | nil => exact ⟨nofun, nofun⟩
  | cons c rest =>
    simp only [headerValue]
    by_cases hc : c ≠ type
    · rw [if_pos hc]
      exact ⟨nofun, fun h => absurd (List.cons.inj h).1 hc⟩
    rw [if_neg hc, not_not.mp hc, List.cons.injEq, and_iff_right rfl]
    cases hread : readInt rest with
    | none =>
      refine ⟨nofun, fun h => ?_⟩
      have := readInt_eq_some_iff.mpr ⟨h, Nat.le_trans v.property hlimit⟩
      rw [hread] at this
      cases this
    | some w =>
      obtain ⟨hrest, -⟩ := readInt_eq_some_iff.mp hread
      dsimp only
      rw [hrest, decimal_injective.eq_iff]
      split
      · next hgt =>
        refine ⟨nofun, fun h => ?_⟩
        have := v.property
        omega
      · rw [Option.some.injEq, Subtype.ext_iff]

/-! ### Elements -/

/-- What is left behind a piece that has been read. -/
theorem drop_add_length {input a rest : Bytes} {cursor : Nat}
    (h : input.drop cursor = a ++ rest) : input.drop (cursor + a.length) = rest := by
  rw [← List.drop_drop, h, List.drop_left]

/-- A header line reads back: its bytes hold no LF, and it is short. -/
theorem readLine_header {input rest : Bytes} {cursor v : Nat} {type : UInt8} (htype : type ≠ LF)
    (hv : v ≤ kMaxBulkLength)
    (hdrop : input.drop cursor = (type :: decimal v) ++ crlf ++ rest) :
    readLine input cursor kMaxHeaderLength .kStrict
      = { status := .kFound, text := type :: decimal v
          next := cursor + (type :: decimal v).length + 2 } := by
  have hLF : LF ∉ type :: decimal v := by
    rw [List.mem_cons, not_or]
    exact ⟨htype.symm, fun hmem => absurd (isDigit_of_mem_decimal hmem) (by decide)⟩
  have hbound : kMaxBulkLength < 10 ^ 8 := by decide
  have hlen : (decimal v).length ≤ 8 := length_decimal_le (by decide) (by omega)
  have hmax : kMaxHeaderLength = 32 := rfl
  exact readLine_of_crlf .kStrict hdrop hLF (by rw [List.length_cons]; omega)

/-- An argument as a header line and a payload line. -/
theorem encodeBulk_eq (arg : Bytes) :
    encodeBulk arg = (36 :: decimal arg.length) ++ crlf ++ (arg ++ crlf) := by
  simp [encodeBulk, ascii]

/-- A line end has two bytes. -/
theorem length_crlf : crlf.length = 2 := rfl

/-- A round reads exactly one bulk string. -/
theorem arrayElem_ok_iff {input text : Bytes} {cursor next : Nat} :
    arrayElem input cursor = .ok (text, next) ↔
      text.length ≤ kMaxBulkLength ∧ next = cursor + (encodeBulk text).length ∧
        ∃ rest, input.drop cursor = encodeBulk text ++ rest := by
  have hlimit : kMaxBulkLength ≤ kLimit := by decide
  constructor
  · intro h
    obtain ⟨⟨len, hbound⟩, hfound, hvalue, hpayload⟩ := arrayElem_ok h
    -- A header that reads as a length is its canonical decimal.
    obtain ⟨line, rest, hdrop, hline⟩ := readLine_strict_found hfound
    rw [hline] at hvalue hpayload
    obtain rfl : line = 36 :: decimal len := (headerValue_eq_some_iff hlimit _).mp hvalue
    obtain ⟨text', rest', hdrop', rfl, heq⟩ := takeBytes_found (by rw [hpayload])
    rw [hpayload] at heq
    obtain ⟨-, rfl, rfl⟩ := Line.mk.inj heq
    have hrest := drop_add_length hdrop
    rw [List.length_append, length_crlf, ← Nat.add_assoc] at hrest
    refine ⟨hbound, ?_, rest', ?_⟩
    · simp only [encodeBulk_eq, List.length_append, length_crlf]
      omega
    · rw [hdrop, ← hrest, hdrop', encodeBulk_eq, List.append_assoc _ (text ++ crlf)]
  · rintro ⟨hbound, rfl, rest, hdrop⟩
    rw [encodeBulk_eq, List.append_assoc] at hdrop
    have hline := readLine_header (by decide) hbound hdrop
    -- The payload starts behind the header line.
    have hrest := drop_add_length hdrop
    rw [List.length_append, length_crlf, ← Nat.add_assoc] at hrest
    have hpayload := takeBytes_of_crlf hrest
    have hvalue : headerValue (36 :: decimal text.length) 36 kMaxBulkLength
        = some ⟨text.length, hbound⟩ := (headerValue_eq_some_iff hlimit _).mpr rfl
    simp only [arrayElem, hline, hvalue, hpayload, encodeBulk_eq, List.length_append, length_crlf]
    rw [Except.ok.injEq, Prod.mk.injEq]
    exact ⟨rfl, by omega⟩

/-! ### Commands -/

namespace Command

/-- A command that is published has the arguments that were written. -/
theorem args_publish {n : Nat} (h : n ≤ kMaxArgs) (out : Command) :
    (out.publish n h).args = out.argv.toList.take n := by
  apply List.ext_getElem
  · simp [args, publish]
  · intro j h₁ h₂
    have hj : j < n := by
      rw [List.length_take] at h₂
      omega
    simp [args, publish, hj]

/-- An argument is written behind those that are there. -/
theorem take_setArg {n : Nat} (h : n < kMaxArgs) (out : Command) (arg : Bytes) :
    (out.setArg n arg h).argv.toList.take (n + 1) = out.argv.toList.take n ++ [arg] := by
  have hlen : n < out.argv.toList.length := by simpa using h
  rw [setArg, Vector.toList_set, List.take_add_one, List.take_set_of_le (Nat.le_refl n),
    List.getElem?_set_self hlen]
  rfl

end Command

/-- A loop that gives a command has read its remaining arguments as bulk strings. -/
theorem arrayElems_sound (input : Bytes) : ∀ (left i cursor : Nat) (h : i + left ≤ kMaxArgs)
    (out : Command), (arrayElems input left i cursor h out).1.status = .kOk →
    ∃ args rest, args.length = left ∧ (∀ arg ∈ args, arg.length ≤ kMaxBulkLength) ∧
      input.drop cursor = args.flatMap encodeBulk ++ rest ∧
      (arrayElems input left i cursor h out).1.consumed
        = cursor + (args.flatMap encodeBulk).length ∧
      (arrayElems input left i cursor h out).2.args = out.argv.toList.take i ++ args := by
  intro left
  induction left with
  | zero =>
    intro i cursor h out _
    exact ⟨[], input.drop cursor, rfl, nofun, rfl, rfl, by
      rw [List.append_nil]; exact out.args_publish h⟩
  | succ left ih =>
    intro i cursor h out hok
    rw [arrayElems_succ] at hok ⊢
    -- The first element is an argument, and the rest is the array of the induction.
    cases hround : arrayElem input cursor with
    | error r =>
      rw [hround] at hok
      rcases arrayElem_error hround with rfl | rfl <;> cases hok
    | ok round =>
      obtain ⟨text, next⟩ := round
      rw [hround] at hok
      obtain ⟨hbound, rfl, rest, hdrop⟩ := arrayElem_ok_iff.mp hround
      obtain ⟨args, rest', hlen, hall, hdrop', hconsumed, hargs⟩ := ih _ _ _ _ hok
      rw [drop_add_length hdrop] at hdrop'
      refine ⟨text :: args, rest', by rw [List.length_cons, hlen], ?_, ?_, ?_, ?_⟩
      · rintro arg (_ | ⟨_, hmem⟩)
        · exact hbound
        · exact hall arg hmem
      · rw [hdrop, hdrop', List.flatMap_cons, List.append_assoc]
      · rw [List.flatMap_cons, List.length_append, ← Nat.add_assoc]
        exact hconsumed
      · rw [Command.take_setArg, List.append_assoc] at hargs
        exact hargs

/-- Bulk strings in the input are read as arguments, whatever follows them. -/
theorem arrayElems_complete (input : Bytes) (args : List Bytes) : ∀ (i cursor : Nat) (rest : Bytes)
    (h : i + args.length ≤ kMaxArgs) (out : Command),
    (∀ arg ∈ args, arg.length ≤ kMaxBulkLength) →
    input.drop cursor = args.flatMap encodeBulk ++ rest →
    (arrayElems input args.length i cursor h out).1.status = .kOk ∧
      (arrayElems input args.length i cursor h out).1.consumed
        = cursor + (args.flatMap encodeBulk).length ∧
      (arrayElems input args.length i cursor h out).2.args = out.argv.toList.take i ++ args := by
  induction args with
  | nil =>
    intro i cursor rest h out _ _
    exact ⟨rfl, rfl, by rw [List.append_nil]; exact out.args_publish h⟩
  | cons arg args ih =>
    intro i cursor rest h out hall hdrop
    rw [List.flatMap_cons, List.append_assoc] at hdrop
    have hround := arrayElem_ok_iff.mpr ⟨hall arg (by simp), rfl, _, hdrop⟩
    have hrest := ih (i + 1) _ rest (by rw [List.length_cons] at h; omega)
      (out.setArg i arg (by rw [List.length_cons] at h; omega))
      (fun a ha => hall a (by simp [ha])) (drop_add_length hdrop)
    rw [Command.take_setArg, List.append_assoc] at hrest
    simp only [List.length_cons, arrayElems_succ, hround]
    rw [List.flatMap_cons, List.length_append, ← Nat.add_assoc]
    exact hrest

/-- A command as a header line and its arguments. -/
theorem encodeCommand_eq (args : List Bytes) :
    encodeCommand args = (42 :: decimal args.length) ++ crlf ++ args.flatMap encodeBulk := by
  simp [encodeCommand, ascii]

/-- The header gives the count of a canonical array header. -/
theorem arrayCount_ok_iff {input : Bytes} {count : { v : Nat // v ≤ kMaxArgs }} {next : Nat} :
    arrayCount input = .ok (count, next) ↔
      next = (42 :: decimal count.val).length + 2 ∧
        ∃ rest, input = (42 :: decimal count.val) ++ crlf ++ rest := by
  have hlimit : kMaxArgs ≤ kLimit := by decide
  constructor
  · intro h
    obtain ⟨hfound, hvalue, hnext⟩ := arrayCount_ok h
    obtain ⟨line, rest, hdrop, hline⟩ := readLine_strict_found hfound
    rw [hline] at hvalue hnext
    obtain rfl : line = 42 :: decimal count := (headerValue_eq_some_iff hlimit _).mp hvalue
    exact ⟨by rw [← hnext]; simp only [Nat.zero_add], rest, hdrop⟩
  · rintro ⟨rfl, rest, rfl⟩
    have hbound : count.val ≤ kMaxBulkLength := Nat.le_trans count.property (by decide)
    have hvalue : headerValue (42 :: decimal count.val) 42 kMaxArgs = some count :=
      (headerValue_eq_some_iff hlimit _).mpr rfl
    have hline : readLine ((42 :: decimal count.val) ++ crlf ++ rest) 0 kMaxHeaderLength .kStrict
        = { status := .kFound, text := 42 :: decimal count.val
            next := 0 + (42 :: decimal count.val).length + 2 } :=
      readLine_header (by decide) hbound List.drop_zero
    simp only [arrayCount, hline, hvalue, Nat.zero_add]

/-- The array form takes the encoding of an argument list within the caps, and nothing else. -/
theorem parseArray_ok_iff (input : Bytes) (out : Command) (n : Nat) (args : List Bytes) :
    ((parseArray input out).1.status = .kOk ∧ (parseArray input out).1.consumed = n ∧
      (parseArray input out).2.args = args) ↔
    args.length ≤ kMaxArgs ∧ (∀ arg ∈ args, arg.length ≤ kMaxBulkLength) ∧
      n = (encodeCommand args).length ∧ ∃ rest, input = encodeCommand args ++ rest := by
  rw [parseArray_eq]
  constructor
  · rintro ⟨hok, rfl, rfl⟩
    cases hheader : arrayCount input with
    | error r =>
      rw [hheader] at hok
      rcases arrayCount_error hheader with rfl | rfl <;> cases hok
    | ok header =>
      obtain ⟨count, next⟩ := header
      rw [hheader] at hok
      dsimp only at hok ⊢
      obtain ⟨rfl, rest, hinput⟩ := arrayCount_ok_iff.mp hheader
      -- The loop has read as many bulk strings as the header counts.
      obtain ⟨args, rest', hlen, hall, hdrop, hconsumed, hargs⟩ := arrayElems_sound _ _ _ _ _ _ hok
      rw [List.take_zero, List.nil_append] at hargs
      have hrest : input.drop ((42 :: decimal count.val).length + 2) = rest := by
        rw [hinput, List.drop_left' (by rw [List.length_append, length_crlf])]
      rw [hargs, hconsumed, encodeCommand_eq, hlen]
      refine ⟨count.property, hall, ?_, rest', ?_⟩
      · simp only [List.length_append, length_crlf]
      · rw [List.append_assoc, ← hdrop, hrest, ← hinput]
  · rintro ⟨hmax, hall, rfl, rest, hinput⟩
    rw [encodeCommand_eq, List.append_assoc] at hinput
    have hheader : arrayCount input
        = .ok (⟨args.length, hmax⟩, (42 :: decimal args.length).length + 2) :=
      arrayCount_ok_iff.mpr ⟨rfl, _, hinput⟩
    have hdrop : input.drop ((42 :: decimal args.length).length + 2)
        = args.flatMap encodeBulk ++ rest := by
      rw [hinput, List.drop_left' (by rw [List.length_append, length_crlf])]
    obtain ⟨hok, hconsumed, hargs⟩ := arrayElems_complete input args 0 _ rest (by omega) out hall
      hdrop
    rw [hheader]
    refine ⟨hok, hconsumed.trans ?_, hargs⟩
    simp only [encodeCommand_eq, List.length_append, length_crlf]

/-- The array form is parsed exactly and canonically: input whose first byte is an asterisk parses
as the arguments `args` in `n` bytes exactly when its first `n` bytes are their encoding. -/
theorem parseCommand_array_iff (input : Bytes) (out : Command) (hstar : input.head? = some 42)
    (n : Nat) (args : List Bytes) :
    ((parseCommand input out).1.status = .kOk ∧ (parseCommand input out).1.consumed = n ∧
      (parseCommand input out).2.args = args) ↔
    args.length ≤ kMaxArgs ∧ (∀ arg ∈ args, arg.length ≤ kMaxBulkLength) ∧
      n ≤ input.length ∧ input.take n = encodeCommand args := by
  have hne : input ≠ [] := by
    rintro rfl
    cases hstar
  have hform : parseForm input out = parseArray input out := if_pos hstar
  have hcommand : ((parseCommand input out).1.status = .kOk ∧
      (parseCommand input out).1.consumed = n ∧ (parseCommand input out).2.args = args) ↔
      ((parseArray input out).1.status = .kOk ∧ (parseArray input out).1.consumed = n ∧
        (parseArray input out).2.args = args) := by
    rw [parseCommand_fst hne, hform]
    refine and_congr_right fun hok => ?_
    rw [parseCommand_of_ok hne (by rw [hform, hok]), hform]
  -- Being in front of the input, in terms of its first `n` bytes.
  have hprefix : (n = (encodeCommand args).length ∧ ∃ rest, input = encodeCommand args ++ rest) ↔
      n ≤ input.length ∧ input.take n = encodeCommand args := by
    constructor
    · rintro ⟨rfl, rest, rfl⟩
      exact ⟨by rw [List.length_append]; omega, List.take_left⟩
    · rintro ⟨hle, htake⟩
      refine ⟨by rw [← htake, List.length_take_of_le hle], input.drop n, ?_⟩
      rw [← htake, List.take_append_drop]
  rw [hcommand, parseArray_ok_iff, hprefix]

/-- Arguments with CR, LF, NUL and the type bytes in them, and bytes of a next command behind. -/
theorem parseCommand_array_iff_binary :
    (parseCommand (encodeCommand [[13, 10], [0, 42], [36]] ++ [42]) Command.empty).2.args
      = [[13, 10], [0, 42], [36]] :=
  ((parseCommand_array_iff (encodeCommand [[13, 10], [0, 42], [36]] ++ [42]) Command.empty
    (by decide) (encodeCommand [[13, 10], [0, 42], [36]]).length [[13, 10], [0, 42], [36]]).mpr
    ⟨by decide, by decide, by decide, by decide⟩).2.2

end TinyRedis
