import TinyRedis.Proofs.Resp.Slots

/-!
# `TinyRedis.Proofs.Resp.Bounds`: how much input waits

A parse that wants more bytes has accepted every header it has seen (`ElemOpen`, `arrayElems_open`),
so what it waits for is bounded by the caps. A header line that has arrived and is not accepted ends
the parse at once (`readHeader_refused`).

* `FirstLine`, `HeaderOk`: the first line of the input, and what a header line should look like.
* `readHeader_refused`, `arrayCount_refused`, `arrayElem_refused`, `arrayElems_refused`: a bad
  header is refused where it stands, in the count and in every element.
* `ElemOpen`, `ArrayOpen`: what an array that is not complete looks like, as far as it has come.
* `parseArray_open`: an array that is reported incomplete looks like that.
* `ElemOpen.length_lt`, `ArrayOpen.length_lt`: so it is shorter than a complete one could be.
* `parseCommand_waits`: the bound for both forms, and that a bad header is refused at once.

The bound is the length of the longest request: a count, and as many arguments as a command may
have, each with its header of at most eight digits and its two line ends. A server that keeps
reading until a command is complete holds no more than this of one client.
-/

set_option autoImplicit false

namespace TinyRedis

open Lib

/-! ### Header lines -/

/-- The first strict line of `s` is `line`, and its terminator has arrived. -/
def FirstLine (s line : Bytes) : Prop :=
  (∃ rest, s = line ++ crlf ++ rest) ∧ ∀ j ≤ line.length, ¬ EndsLine .kStrict s j

/-- A header line: its type byte and the decimal of a number within the limit. -/
def HeaderOk (type : UInt8) (limit : Nat) (line : Bytes) : Prop :=
  ∃ v ≤ limit, line = type :: decimal v

/-- Whether a header line is accepted can be checked. -/
instance (type : UInt8) (limit : Nat) (line : Bytes) : Decidable (HeaderOk type limit line) :=
  inferInstanceAs (Decidable (∃ v, v ≤ limit ∧ line = type :: decimal v))

namespace FirstLine

variable {s line : Bytes}

/-- The line ends at its CRLF. -/
theorem firstEnd (h : FirstLine s line) : FirstEnd .kStrict s (line.length + 1) := by
  obtain ⟨⟨rest, rfl⟩, hbefore⟩ := h
  refine ⟨⟨by simp [crlf], Or.inl (by simp [crBefore, crlf])⟩, fun j hj => ?_⟩
  exact hbefore j (Nat.le_of_lt_succ hj)

/-- The text of the line is what stands before the CRLF. -/
theorem textLen_eq (h : FirstLine s line) : textLen s (line.length + 1) = line.length := by
  obtain ⟨⟨rest, rfl⟩, -⟩ := h
  exact if_pos (by simp [crBefore, crlf])

/-- The text is at the front of the input. -/
theorem take_eq (h : FirstLine s line) : s.take line.length = line := by
  obtain ⟨⟨rest, rfl⟩, -⟩ := h
  rw [List.append_assoc, List.take_left]

end FirstLine

/-- A header line that has arrived and is not accepted is too long or has no value. -/
theorem readHeader_refused {input line : Bytes} {cursor limit : Nat} {type : UInt8}
    (hlimit : limit ≤ kLimit) (hline : FirstLine (input.drop cursor) line)
    (hbad : ¬ HeaderOk type limit line) :
    (readLine input cursor kMaxHeaderLength .kStrict).status = .kTooLong ∨
    ((readLine input cursor kMaxHeaderLength .kStrict).status = .kFound ∧
      headerValue (readLine input cursor kMaxHeaderLength .kStrict).text type limit = none) := by
  by_cases hlen : line.length ≤ kMaxHeaderLength
  · refine Or.inr ?_
    have hread := readLine_of_firstEnd hline.firstEnd
      (show textLen (input.drop cursor) _ ≤ kMaxHeaderLength by rwa [hline.textLen_eq])
    rw [hline.textLen_eq, hline.take_eq] at hread
    rw [hread]
    refine ⟨rfl, ?_⟩
    cases hvalue : headerValue line type limit with
    | none => rfl
    | some v => exact absurd ⟨v, v.property, (headerValue_eq_some_iff hlimit v).mp hvalue⟩ hbad
  · refine Or.inl ?_
    cases hstatus : (readLine input cursor kMaxHeaderLength .kStrict).status with
    | kTooLong => rfl
    | kBadTrailer => exact absurd hstatus (readLine_ne_badTrailer _ _ _ _)
    | kIncomplete => exact absurd hline.firstEnd.1 ((readLine_incomplete_iff.mp hstatus).1 _)
    | kFound =>
      obtain ⟨lf, hfirst, hshort⟩ := readLine_found_iff.mp hstatus
      rw [hfirst.unique hline.firstEnd, hline.textLen_eq] at hshort
      exact absurd hshort hlen

/-- A bad count is refused. -/
theorem arrayCount_refused {input line : Bytes} (hline : FirstLine input line)
    (hbad : ¬ HeaderOk 42 kMaxArgs line) : arrayCount input = .error (fail .kArgLength) := by
  rcases @readHeader_refused input line 0 kMaxArgs 42 (by decide) hline hbad with
    hlong | ⟨hfound, hnone⟩
  · simp only [arrayCount, hlong]
  · simp only [arrayCount, hfound, hnone]

/-- A bad length of an argument is refused. -/
theorem arrayElem_refused {input line : Bytes} {cursor : Nat}
    (hline : FirstLine (input.drop cursor) line) (hbad : ¬ HeaderOk 36 kMaxBulkLength line) :
    arrayElem input cursor = .error (fail .kBulkLength) := by
  rcases readHeader_refused (by decide) hline hbad with hlong | ⟨hfound, hnone⟩
  · simp only [arrayElem, hlong]
  · simp only [arrayElem, hfound, hnone]

/-- The loop stops at a header line that is not accepted, behind any elements. -/
theorem arrayElems_refused {input line tail : Bytes} (hline : FirstLine tail line)
    (hbad : ¬ HeaderOk 36 kMaxBulkLength line) (args : List Bytes) :
    ∀ (left i cursor : Nat) (h : i + left ≤ kMaxArgs) (out : Command), args.length < left →
    (∀ arg ∈ args, arg.length ≤ kMaxBulkLength) →
    input.drop cursor = args.flatMap encodeBulk ++ tail →
    (arrayElems input left i cursor h out).1 = fail .kBulkLength := by
  induction args with
  | nil =>
    intro left i cursor h out hlt _ hdrop
    cases left with
    | zero => exact absurd hlt (Nat.not_lt_zero _)
    | succ left =>
      rw [arrayElems_succ, arrayElem_refused (hdrop ▸ hline) hbad]
  | cons arg args ih =>
    intro left i cursor h out hlt hall hdrop
    cases left with
    | zero => exact absurd hlt (Nat.not_lt_zero _)
    | succ left =>
      rw [List.flatMap_cons, List.append_assoc] at hdrop
      have hround := arrayElem_ok_iff.mpr ⟨hall arg (by simp), rfl, _, hdrop⟩
      rw [arrayElems_succ, hround]
      exact ih left (i + 1) _ _ _ (Nat.lt_of_succ_lt_succ hlt) (fun a ha => hall a (by simp [ha]))
        (drop_add_length hdrop)

/-! ### What is waited for -/

/-- An element still arriving: its header line is open, or it was accepted and bytes of the payload
it declares are missing. -/
def ElemOpen (tail : Bytes) : Prop :=
  ((∀ j, ¬ EndsLine .kStrict tail j) ∧ tail.length ≤ kMaxHeaderLength + 1) ∨
  ∃ len ≤ kMaxBulkLength, ∃ payload : Bytes,
    tail = (36 :: decimal len) ++ crlf ++ payload ∧ payload.length < len + 2

/-- A payload that is waited for is not there with its CRLF. -/
theorem takeBytes_incomplete {input : Bytes} {start len : Nat}
    (h : (takeBytes input start len).status = .kIncomplete) : input.length < start + len + 2 := by
  by_contra hroom
  have hstart : ¬ start > input.length := by omega
  have havail : ¬ (input.length - start < 2 ∨ len > input.length - start - 2) := by omega
  rw [takeBytes, if_neg hstart, if_neg havail] at h
  split at h <;> cases h

/-- A header that is waited for has no end yet, and is within its bound. -/
theorem readHeader_open {input : Bytes} {cursor : Nat}
    (h : (readLine input cursor kMaxHeaderLength .kStrict).status = .kIncomplete) :
    (∀ j, ¬ EndsLine .kStrict (input.drop cursor) j) ∧
      (input.drop cursor).length ≤ kMaxHeaderLength + 1 := by
  obtain ⟨hnone, hroom⟩ := readLine_incomplete_iff.mp h
  exact ⟨hnone, by omega⟩

/-- An element that is waited for is an open one. -/
theorem arrayElem_open {input : Bytes} {cursor : Nat}
    (h : arrayElem input cursor = .error incomplete) : ElemOpen (input.drop cursor) := by
  have hbad := readLine_ne_badTrailer input cursor kMaxHeaderLength .kStrict
  simp only [arrayElem] at h
  cases hstatus : (readLine input cursor kMaxHeaderLength .kStrict).status with
  | kIncomplete => exact Or.inl (readHeader_open hstatus)
  | kBadTrailer => exact absurd hstatus hbad
  | kTooLong =>
    rw [hstatus] at h
    cases h
  | kFound =>
    obtain ⟨line, payload, hdrop, hline⟩ := readLine_strict_found hstatus
    rw [hline] at h
    dsimp only at h
    cases hvalue : headerValue line 36 kMaxBulkLength with
    | none =>
      rw [hvalue] at h
      cases h
    | some len =>
      have hlimit : kMaxBulkLength ≤ kLimit := by decide
      obtain rfl := (headerValue_eq_some_iff hlimit len).mp hvalue
      refine Or.inr ⟨len, len.property, payload, hdrop, ?_⟩
      rw [hvalue] at h
      dsimp only at h
      -- The header is accepted, so it is the payload that is short.
      have hwait : (takeBytes input (cursor + (36 :: decimal len).length + 2) len).status
          = .kIncomplete := by
        split at h
        · assumption
        · cases h
        · cases h
      have hshort := takeBytes_incomplete hwait
      have hlen := congrArg List.length hdrop
      simp only [List.length_drop, List.length_append, length_crlf] at hlen
      omega

/-- A loop that wants more bytes has read elements, and the next one is still arriving. -/
theorem arrayElems_open (input : Bytes) : ∀ (left i cursor : Nat) (h : i + left ≤ kMaxArgs)
    (out : Command), (arrayElems input left i cursor h out).1.status = .kIncomplete →
    ∃ (args : List Bytes) (tail : Bytes), args.length < left ∧
      (∀ arg ∈ args, arg.length ≤ kMaxBulkLength) ∧
      input.drop cursor = args.flatMap encodeBulk ++ tail ∧ ElemOpen tail := by
  intro left
  induction left with
  | zero =>
    intro i cursor h out hopen
    cases hopen
  | succ left ih =>
    intro i cursor h out hopen
    rw [arrayElems_succ] at hopen
    cases hround : arrayElem input cursor with
    | error r =>
      rw [hround] at hopen
      rcases arrayElem_error hround with rfl | rfl
      · exact ⟨[], _, Nat.succ_pos left, nofun, rfl, arrayElem_open hround⟩
      · cases hopen
    | ok round =>
      obtain ⟨text, next⟩ := round
      rw [hround] at hopen
      obtain ⟨hbound, rfl, rest, hdrop⟩ := arrayElem_ok_iff.mp hround
      obtain ⟨args, tail, hlt, hall, hdrop', htail⟩ := ih _ _ _ _ hopen
      rw [drop_add_length hdrop] at hdrop'
      refine ⟨text :: args, tail, Nat.succ_lt_succ hlt, ?_, ?_, htail⟩
      · rintro arg (_ | ⟨_, hmem⟩)
        · exact hbound
        · exact hall arg hmem
      · rw [hdrop, hdrop', List.flatMap_cons, List.append_assoc]

/-! ### Lengths -/

/-- The length of an argument has eight digits at most. -/
theorem length_decimal_bulk {n : Nat} (h : n ≤ kMaxBulkLength) : (decimal n).length ≤ 8 := by
  have hbound : kMaxBulkLength < 10 ^ 8 := by decide
  exact length_decimal_le (by decide) (Nat.lt_of_le_of_lt h hbound)

/-- The bytes of an argument with its header. -/
theorem length_encodeBulk_le {arg : Bytes} (h : arg.length ≤ kMaxBulkLength) :
    (encodeBulk arg).length ≤ kMaxBulkLength + 13 := by
  have hdigits := length_decimal_bulk h
  simp only [encodeBulk_eq, List.length_append, List.length_cons, length_crlf]
  omega

/-- The bytes of several arguments with their headers. -/
theorem length_flatMap_encodeBulk_le {args : List Bytes}
    (h : ∀ arg ∈ args, arg.length ≤ kMaxBulkLength) :
    (args.flatMap encodeBulk).length ≤ args.length * (kMaxBulkLength + 13) := by
  induction args with
  | nil => exact Nat.zero_le _
  | cons arg args ih =>
    have harg := length_encodeBulk_le (h arg (by simp))
    have hrest := ih fun a ha => h a (by simp [ha])
    rw [List.flatMap_cons, List.length_append, List.length_cons, Nat.succ_mul]
    omega

/-- An open element is shorter than the longest one. -/
theorem ElemOpen.length_lt {tail : Bytes} (h : ElemOpen tail) :
    tail.length < kMaxBulkLength + 13 := by
  rcases h with ⟨-, hlen⟩ | ⟨len, hle, payload, rfl, hlen⟩
  · have hmax : kMaxHeaderLength + 1 < kMaxBulkLength := by decide
    omega
  · have hdigits := length_decimal_bulk hle
    simp only [List.length_append, List.length_cons, length_crlf]
    omega

/-- An array still arriving: its header line is open, or it was accepted, and one of the elements
that it counts is still arriving, behind those that are complete. -/
def ArrayOpen (input : Bytes) : Prop :=
  ((∀ j, ¬ EndsLine .kStrict input j) ∧ input.length ≤ kMaxHeaderLength + 1) ∨
  ∃ count ≤ kMaxArgs, ∃ (args : List Bytes) (tail : Bytes), args.length < count ∧
    (∀ arg ∈ args, arg.length ≤ kMaxBulkLength) ∧
    input = (42 :: decimal count) ++ crlf ++ (args.flatMap encodeBulk ++ tail) ∧ ElemOpen tail

/-- A count that is waited for has no end yet. -/
theorem arrayCount_open {input : Bytes} (h : arrayCount input = .error incomplete) :
    (readLine input 0 kMaxHeaderLength .kStrict).status = .kIncomplete := by
  simp only [arrayCount] at h
  split at h
  · assumption
  · cases h
  · split at h <;> cases h

/-- An array that is waited for is an open one. -/
theorem parseArray_open {input : Bytes} {out : Command}
    (h : (parseArray input out).1.status = .kIncomplete) : ArrayOpen input := by
  rw [parseArray_eq] at h
  cases hheader : arrayCount input with
  | error r =>
    rw [hheader] at h
    rcases arrayCount_error hheader with rfl | rfl
    · exact Or.inl (readHeader_open (arrayCount_open hheader))
    · cases h
  | ok header =>
    obtain ⟨count, next⟩ := header
    rw [hheader] at h
    obtain ⟨rfl, rest, hinput⟩ := arrayCount_ok_iff.mp hheader
    obtain ⟨args, tail, hlt, hall, hdrop, htail⟩ := arrayElems_open _ _ _ _ _ _ h
    refine Or.inr ⟨count, count.property, args, tail, hlt, hall, ?_, htail⟩
    rw [← hdrop, hinput, List.drop_left' (by rw [List.length_append, length_crlf])]

/-- An open array is shorter than the longest request. -/
theorem ArrayOpen.length_lt {input : Bytes} (h : ArrayOpen input) :
    input.length < 5 + kMaxArgs * (kMaxBulkLength + 13) := by
  rcases h with ⟨-, hlen⟩ | ⟨count, hcount, args, tail, hlt, hall, rfl, htail⟩
  · exact Nat.lt_of_le_of_lt hlen (by decide)
  · have hdigits : (decimal count).length ≤ 2 :=
      length_decimal_le (by decide) (Nat.lt_of_le_of_lt hcount (by decide))
    have hargs := length_flatMap_encodeBulk_le hall
    have htail := htail.length_lt
    -- The element still arriving is one of those that the header counts.
    have hfull : (args.length + 1) * (kMaxBulkLength + 13) ≤ kMaxArgs * (kMaxBulkLength + 13) :=
      Nat.mul_le_mul_right _ (Nat.le_trans hlt hcount)
    rw [Nat.succ_mul] at hfull
    simp only [List.length_append, List.length_cons, length_crlf]
    omega

/-- An input with an asterisk in front is an array. -/
theorem parseCommand_of_star {input : Bytes} (hstar : input.head? = some 42) (out : Command) :
    (parseCommand input out).1 = (parseArray input out).1 := by
  have hne : input ≠ [] := by
    rintro rfl
    cases hstar
  rw [parseCommand_fst hne, parseForm, if_pos hstar]

/-- Any other is a line. -/
theorem parseCommand_of_not_star {input : Bytes} (hne : input ≠ [])
    (hstar : input.head? ≠ some 42) (out : Command) :
    (parseCommand input out).1 = (parseInline input out).1 := by
  rw [parseCommand_fst hne, parseForm, if_neg hstar]

/-- Input that waits to be parsed is bounded. Less than a line waits in the inline form, and less
than the longest array in the other, which has accepted every header line it has: of a payload, no
more is waited for than its header has declared. A header line that has arrived and is malformed or
exceeds its limit is a protocol error, whatever comes after it. -/
theorem parseCommand_waits (input : Bytes) (out : Command) :
    ((parseCommand input out).1.status = .kIncomplete → input.head? ≠ some 42 →
      input.length ≤ kMaxInlineLength + 1) ∧
    ((parseCommand input out).1.status = .kIncomplete → input.head? = some 42 →
      input.length < 5 + kMaxArgs * (kMaxBulkLength + 13) ∧ ArrayOpen input) ∧
    (input.head? = some 42 → ∀ line, FirstLine input line → ¬ HeaderOk 42 kMaxArgs line →
      (parseCommand input out).1 = fail .kArgLength) ∧
    (∀ (count : Nat) (args : List Bytes) (tail line : Bytes), count ≤ kMaxArgs →
      args.length < count → (∀ arg ∈ args, arg.length ≤ kMaxBulkLength) →
      input = (42 :: decimal count) ++ crlf ++ (args.flatMap encodeBulk ++ tail) →
      FirstLine tail line → ¬ HeaderOk 36 kMaxBulkLength line →
      (parseCommand input out).1 = fail .kBulkLength) := by
  refine ⟨fun hopen hstar => ?_, fun hopen hstar => ?_, fun hstar line hline hbad => ?_, ?_⟩
  · by_cases hne : input = []
    · subst hne
      exact Nat.zero_le _
    rw [parseCommand_of_not_star hne hstar] at hopen
    have hroom := (parseInline_outcome input out).of_incomplete hopen
    rw [Overlong] at hroom
    omega
  · rw [parseCommand_of_star hstar] at hopen
    have harray := parseArray_open hopen
    exact ⟨harray.length_lt, harray⟩
  · rw [parseCommand_of_star hstar, parseArray_eq, arrayCount_refused hline hbad]
  · intro count args tail line hcount hlt hall hinput hline hbad
    have hheader : arrayCount input = .ok (⟨count, hcount⟩, (42 :: decimal count).length + 2) :=
      arrayCount_ok_iff.mpr ⟨rfl, _, hinput⟩
    rw [parseCommand_of_star (by rw [hinput]; rfl), parseArray_eq, hheader]
    refine arrayElems_refused hline hbad args _ _ _ _ _ hlt hall ?_
    rw [hinput, List.drop_left' (by rw [List.length_append, length_crlf])]

/-- A payload with bytes missing, a count past its limit, and a second element whose length is no
number. -/
theorem parseCommand_waits_get :
    ArrayOpen (ascii "*1\r\n$4\r\nPI") ∧
    (parseCommand (ascii "*17\r\n$4\r\n") Command.empty).1 = fail .kArgLength ∧
    (parseCommand (ascii "*2\r\n$3\r\nGET\r\n$x\r\nk") Command.empty).1 = fail .kBulkLength := by
  refine ⟨((parseCommand_waits _ Command.empty).2.1 (by decide) (by decide)).2,
    (parseCommand_waits _ Command.empty).2.2.1 (by decide) (ascii "*17")
      ⟨⟨ascii "$4\r\n", by decide⟩, by decide⟩ (by decide),
    (parseCommand_waits _ Command.empty).2.2.2 2 [ascii "GET"] (ascii "$x\r\nk") (ascii "$x")
      (by decide) (by decide) (by decide) (by decide) ⟨⟨ascii "k", by decide⟩, by decide⟩ ?_⟩
  rintro ⟨v, -, hline⟩
  have hmem : (120 : UInt8) ∈ decimal v := by
    rw [← (List.cons.inj hline).2]
    decide
  exact absurd (isDigit_of_mem_decimal hmem) (by decide)

end TinyRedis
