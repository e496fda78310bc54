import TinyRedis.Proofs.Resp.Lines

/-!
# `TinyRedis.Proofs.Resp.Final`: verdicts are final

`parseCommand` sees a prefix of what the client will send. A verdict other than `kIncomplete` does
not depend on what comes after it, nor on the command that the caller reuses (`Agree` follows the
slots that a parse has written).

* `arrayElem`, `arrayCount`: one element of the array form, and its count, as functions of their
  own. `arrayElems_succ` and `parseArray_eq` are the loops in terms of them.
* `arrayElem_append`, `arrayElems_append`, `parseArray_append`: the array form.
* `inlineWords_agree`, `parseInline_append`: the inline form.
* `ConsumesWithin`: a command takes at least its first byte, and no more than is there.
* `parseCommand_append`, `parseCommand_consumed`: both forms.
* `parseCommand_final`: a verdict stands whatever arrives, and a command is the same command, in
  whatever slots it is parsed.

The loop of the server depends on this twice: it parses as soon as bytes have arrived, and it parses
all commands of a buffer into one `Command`.
-/

set_option autoImplicit false

namespace TinyRedis

namespace Command

/-- The first `n` slots of two commands are equal. -/
def Agree (n : Nat) (c d : Command) : Prop :=
  ∀ (j : Nat) (h : j < kMaxArgs), j < n → c.argv[j] = d.argv[j]

/-- Any two commands agree before a slot has been written. -/
theorem Agree.zero (c d : Command) : Agree 0 c d := by
  intro j h hlt
  exact absurd hlt (Nat.not_lt_zero j)

/-- The same argument is written to both. -/
theorem Agree.setArg {n : Nat} {c d : Command} (hagree : Agree n c d) (arg : Bytes)
    (h : n < kMaxArgs) : Agree (n + 1) (c.setArg n arg h) (d.setArg n arg h) := by
  intro j hj hlt
  simp only [Command.setArg, Vector.getElem_set]
  split
  · rfl
  · exact hagree j hj (by omega)

/-- Publishing blanks what two commands may not share. -/
theorem Agree.publish {n : Nat} {c d : Command} (hagree : Agree n c d) (h : n ≤ kMaxArgs) :
    c.publish n h = d.publish n h := by
  simp only [Command.publish, Command.mk.injEq, and_true]
  ext j hj : 1
  simp only [Vector.getElem_ofFn]
  split
  · next hlt => exact hagree j hj hlt
  · rfl

end Command

open Command

/-! ### The array form -/

/-- One round of the element loop: the element and the offset past it, or the verdict that ends
the loop. -/
def arrayElem (input : Bytes) (cursor : Nat) : Except ParseResult (Bytes × Nat) :=
  let elem := readLine input cursor kMaxHeaderLength .kStrict
  match elem.status with
  | .kIncomplete => .error incomplete
  | .kTooLong => .error (fail .kBulkLength)
  | _ =>
      match headerValue elem.text 36 kMaxBulkLength with
      | none => .error (fail .kBulkLength)
      | some len =>
          let payload := takeBytes input elem.next len
          match payload.status with
          | .kIncomplete => .error incomplete
          | .kBadTrailer => .error (fail .kBulkLength)
          | _ => .ok (payload.text, payload.next)

/-- The loop over the elements, one element at a time. -/
theorem arrayElems_succ (input : Bytes) (left i cursor : Nat) (h : i + (left + 1) ≤ kMaxArgs)
    (out : Command) :
    arrayElems input (left + 1) i cursor h out =
      match arrayElem input cursor with
      | .error r => (r, out)
      | .ok (text, next) =>
          arrayElems input left (i + 1) next (by omega) (out.setArg i text (by omega)) := by
  rw [arrayElems, arrayElem]
  dsimp only
  cases (readLine input cursor kMaxHeaderLength .kStrict).status with
  | kIncomplete => rfl
  | kTooLong => rfl
  | kFound | kBadTrailer =>
    dsimp only
    cases headerValue (readLine input cursor kMaxHeaderLength .kStrict).text 36 kMaxBulkLength with
    | none => rfl
    | some len =>
      dsimp only
      cases (takeBytes input (readLine input cursor kMaxHeaderLength .kStrict).next len).status <;>
        rfl

/-- The element and the verdict of a round stand when more bytes arrive. -/
theorem arrayElem_append {input : Bytes} {cursor : Nat}
    (h : arrayElem input cursor ≠ .error incomplete) (ext : Bytes) :
    arrayElem (input ++ ext) cursor = arrayElem input cursor := by
  have hline : (readLine input cursor kMaxHeaderLength .kStrict).status ≠ .kIncomplete := by
    intro hline
    exact h (by simp only [arrayElem, hline])
  simp only [arrayElem, readLine_append hline ext] at h ⊢
  generalize readLine input cursor kMaxHeaderLength .kStrict = elem at h ⊢
  cases hstatus : elem.status with
  | kIncomplete => rfl
  | kTooLong => rfl
  | kFound | kBadTrailer =>
    rw [hstatus] at h
    dsimp only at h ⊢
    cases hlen : headerValue elem.text 36 kMaxBulkLength with
    | none => rfl
    | some len =>
      have hpayload : (takeBytes input elem.next len).status ≠ .kIncomplete := by
        intro hpayload
        exact h (by simp only [hlen, hpayload])
      dsimp only
      rw [takeBytes_append hpayload ext]

/-- A round that stops the loop stops it without a command. -/
theorem arrayElem_error {input : Bytes} {cursor : Nat} {r : ParseResult}
    (h : arrayElem input cursor = .error r) : r = incomplete ∨ r = fail .kBulkLength := by
  simp only [arrayElem] at h
  split at h
  · exact Or.inl (Except.error.inj h).symm
  · exact Or.inr (Except.error.inj h).symm
  · split at h
    · exact Or.inr (Except.error.inj h).symm
    · split at h
      · exact Or.inl (Except.error.inj h).symm
      · exact Or.inr (Except.error.inj h).symm
      · cases h

/-- What a round has read when it goes on. -/
theorem arrayElem_ok {input text : Bytes} {cursor next : Nat}
    (h : arrayElem input cursor = .ok (text, next)) :
    ∃ len, (readLine input cursor kMaxHeaderLength .kStrict).status = .kFound ∧
      headerValue (readLine input cursor kMaxHeaderLength .kStrict).text 36 kMaxBulkLength
        = some len ∧
      takeBytes input (readLine input cursor kMaxHeaderLength .kStrict).next len
        = { status := .kFound, text, next } := by
  have hbad := readLine_ne_badTrailer input cursor kMaxHeaderLength .kStrict
  simp only [arrayElem] at h
  generalize readLine input cursor kMaxHeaderLength .kStrict = elem at h hbad ⊢
  cases hstatus : elem.status with
  | kIncomplete | kTooLong =>
    rw [hstatus] at h
    cases h
  | kBadTrailer => exact absurd hstatus hbad
  | kFound =>
    rw [hstatus] at h
    cases hlen : headerValue elem.text 36 kMaxBulkLength with
    | none =>
      rw [hlen] at h
      cases h
    | some len =>
      have hlong := takeBytes_ne_tooLong input elem.next len
      rw [hlen] at h
      refine ⟨len, rfl, rfl, ?_⟩
      dsimp only at h
      -- `takeBytes` has no line to be too long.
      generalize takeBytes input elem.next len = payload at h hlong ⊢
      obtain ⟨status, ptext, pnext⟩ := payload
      cases status with
      | kIncomplete | kBadTrailer => cases h
      | kTooLong => exact absurd rfl hlong
      | kFound =>
        cases h
        rfl

/-- A round moves on, within the input. -/
theorem arrayElem_next {input text : Bytes} {cursor next : Nat}
    (h : arrayElem input cursor = .ok (text, next)) : cursor < next ∧ next ≤ input.length := by
  obtain ⟨len, hline, -, hpayload⟩ := arrayElem_ok h
  obtain ⟨hlt, -⟩ := readLine_next hline
  obtain ⟨text', rest, hdrop, hlen, heq⟩ := takeBytes_found (by rw [hpayload])
  rw [hpayload] at heq
  cases heq
  have := congrArg List.length hdrop
  simp only [List.length_drop, List.length_append, crlf, List.length_cons, List.length_nil] at this
  omega

/-- A loop that comes to a verdict comes to the same one when more bytes arrive. -/
theorem arrayElems_append (input ext : Bytes) : ∀ (left i cursor : Nat) (h : i + left ≤ kMaxArgs)
    (out out' : Command), Agree i out out' →
    (arrayElems input left i cursor h out).1.status ≠ .kIncomplete →
    (arrayElems (input ++ ext) left i cursor h out').1 = (arrayElems input left i cursor h out).1 ∧
      ((arrayElems input left i cursor h out).1.status = .kOk →
        (arrayElems (input ++ ext) left i cursor h out').2
          = (arrayElems input left i cursor h out).2) := by
  intro left
  induction left with
  | zero =>
    intro i cursor h out out' hagree _
    exact ⟨rfl, fun _ => (hagree.publish h).symm⟩
  | succ left ih =>
    intro i cursor h out out' hagree hs
    -- A round that wants more bytes would leave the loop incomplete.
    have helem : arrayElem input cursor ≠ .error incomplete := by
      intro helem
      exact hs (by rw [arrayElems_succ, helem]; rfl)
    rw [arrayElems_succ, arrayElems_succ, arrayElem_append helem ext]
    rw [arrayElems_succ] at hs
    cases hround : arrayElem input cursor with
    | error r =>
      refine ⟨rfl, fun hok => ?_⟩
      rcases arrayElem_error hround with rfl | rfl
      · exact absurd hround helem
      · cases hok
    | ok next =>
      rw [hround] at hs
      exact ih (i + 1) next.2 _ _ _ (hagree.setArg next.1 _) hs

/-- A parse that starts at `start` and succeeds ends between `start` and `stop`. One that does not
consumes nothing. -/
def ConsumesWithin (start stop : Nat) (r : ParseResult) : Prop :=
  (r.status = .kOk ∧ start ≤ r.consumed ∧ r.consumed ≤ stop) ∨ (r.status ≠ .kOk ∧ r.consumed = 0)

/-- Nothing is consumed while bytes are missing. -/
theorem consumesWithin_incomplete (start stop : Nat) : ConsumesWithin start stop incomplete :=
  Or.inr ⟨by decide, rfl⟩

/-- Nothing is consumed after an error. -/
theorem consumesWithin_fail (start stop : Nat) (e : Error) : ConsumesWithin start stop (fail e) :=
  Or.inr ⟨nofun, rfl⟩

/-- What is consumed from further on is consumed from here. -/
theorem ConsumesWithin.mono {start start' stop : Nat} {r : ParseResult}
    (h : ConsumesWithin start' stop r) (hle : start ≤ start') : ConsumesWithin start stop r := by
  rcases h with ⟨hok, hge, hstop⟩ | hnot
  · exact Or.inl ⟨hok, Nat.le_trans hle hge, hstop⟩
  · exact Or.inr hnot

/-- The loop consumes what it has read. -/
theorem arrayElems_consumed (input : Bytes) : ∀ (left i cursor : Nat) (h : i + left ≤ kMaxArgs)
    (out : Command), cursor ≤ input.length →
    ConsumesWithin cursor input.length (arrayElems input left i cursor h out).1 := by
  intro left
  induction left with
  | zero =>
    intro i cursor h out hcursor
    exact Or.inl ⟨rfl, Nat.le_refl _, hcursor⟩
  | succ left ih =>
    intro i cursor h out hcursor
    rw [arrayElems_succ]
    cases hround : arrayElem input cursor with
    | error r =>
      rcases arrayElem_error hround with rfl | rfl
      · exact consumesWithin_incomplete _ _
      · exact consumesWithin_fail _ _ _
    | ok round =>
      obtain ⟨hlt, hle⟩ := arrayElem_next hround
      exact (ih (i + 1) round.2 (by omega) (out.setArg i round.1 (by omega)) hle).mono
        (Nat.le_of_lt hlt)

/-- The header of the array form: the element count and the offset of the first element, or the
verdict. -/
def arrayCount (input : Bytes) : Except ParseResult ({ v : Nat // v ≤ kMaxArgs } × Nat) :=
  let header := readLine input 0 kMaxHeaderLength .kStrict
  match header.status with
  | .kIncomplete => .error incomplete
  | .kTooLong => .error (fail .kArgLength)
  | _ =>
      match headerValue header.text 42 kMaxArgs with
      | none => .error (fail .kArgLength)
      | some count => .ok (count, header.next)

/-- A count that the header bounds leaves room for its arguments. -/
theorem zero_add_count_le (count : { v : Nat // v ≤ kMaxArgs }) : 0 + count.val ≤ kMaxArgs := by
  rw [Nat.zero_add]
  exact count.property

/-- The array form is its count and the loop over its elements. -/
theorem parseArray_eq (input : Bytes) (out : Command) :
    parseArray input out =
      match arrayCount input with
      | .error r => (r, out)
      | .ok (count, next) =>
          arrayElems input count 0 next (zero_add_count_le count) out := by
  rw [parseArray, arrayCount]
  cases (readLine input 0 kMaxHeaderLength .kStrict).status with
  | kIncomplete => rfl
  | kTooLong => rfl
  | kFound | kBadTrailer =>
    dsimp only
    cases headerValue (readLine input 0 kMaxHeaderLength .kStrict).text 42 kMaxArgs <;> rfl

/-- A verdict on the count stands when more arrives. -/
theorem arrayCount_append {input : Bytes} (h : arrayCount input ≠ .error incomplete)
    (ext : Bytes) : arrayCount (input ++ ext) = arrayCount input := by
  have hline : (readLine input 0 kMaxHeaderLength .kStrict).status ≠ .kIncomplete := by
    intro hline
    exact h (by simp only [arrayCount, hline])
  simp only [arrayCount, readLine_append hline ext]

/-- The count is missing, or wrong. -/
theorem arrayCount_error {input : Bytes} {r : ParseResult} (h : arrayCount input = .error r) :
    r = incomplete ∨ r = fail .kArgLength := by
  simp only [arrayCount] at h
  split at h
  · exact Or.inl (Except.error.inj h).symm
  · exact Or.inr (Except.error.inj h).symm
  · split at h
    · exact Or.inr (Except.error.inj h).symm
    · cases h

/-- What the header has read when it gives a count. -/
theorem arrayCount_ok {input : Bytes} {count : { v : Nat // v ≤ kMaxArgs }} {next : Nat}
    (h : arrayCount input = .ok (count, next)) :
    (readLine input 0 kMaxHeaderLength .kStrict).status = .kFound ∧
      headerValue (readLine input 0 kMaxHeaderLength .kStrict).text 42 kMaxArgs = some count ∧
      (readLine input 0 kMaxHeaderLength .kStrict).next = next := by
  have hbad := readLine_ne_badTrailer input 0 kMaxHeaderLength .kStrict
  simp only [arrayCount] at h
  generalize readLine input 0 kMaxHeaderLength .kStrict = header at h hbad ⊢
  cases hstatus : header.status with
  | kIncomplete | kTooLong =>
    rw [hstatus] at h
    cases h
  | kBadTrailer => exact absurd hstatus hbad
  | kFound =>
    rw [hstatus] at h
    cases hcount : headerValue header.text 42 kMaxArgs with
    | none =>
      rw [hcount] at h
      cases h
    | some count' =>
      rw [hcount] at h
      cases h
      exact ⟨rfl, rfl, rfl⟩

/-- A verdict on an array stands when more arrives. -/
theorem parseArray_append {input : Bytes} {out : Command}
    (h : (parseArray input out).1.status ≠ .kIncomplete) (ext : Bytes) (out' : Command) :
    (parseArray (input ++ ext) out').1 = (parseArray input out).1 ∧
      ((parseArray input out).1.status = .kOk →
        (parseArray (input ++ ext) out').2 = (parseArray input out).2) := by
  have hcount : arrayCount input ≠ .error incomplete := by
    intro hcount
    exact h (by rw [parseArray_eq, hcount]; rfl)
  rw [parseArray_eq, parseArray_eq, arrayCount_append hcount ext]
  rw [parseArray_eq] at h
  cases hheader : arrayCount input with
  | error r =>
    refine ⟨rfl, fun hok => ?_⟩
    rcases arrayCount_error hheader with rfl | rfl
    · exact absurd hheader hcount
    · cases hok
  | ok header =>
    rw [hheader] at h
    exact arrayElems_append input ext _ _ _ _ out out' (Agree.zero out out') h

/-- An array consumes at least its asterisk. -/
theorem parseArray_consumed (input : Bytes) (out : Command) :
    ConsumesWithin 1 input.length (parseArray input out).1 := by
  rw [parseArray_eq]
  cases hheader : arrayCount input with
  | error r =>
    rcases arrayCount_error hheader with rfl | rfl
    · exact consumesWithin_incomplete _ _
    · exact consumesWithin_fail _ _ _
  | ok header =>
    obtain ⟨hline, -, hnext⟩ := arrayCount_ok hheader
    obtain ⟨hpos, hle⟩ := readLine_next hline
    rw [hnext] at hpos hle
    exact (arrayElems_consumed input _ _ _ _ out hle).mono hpos

/-! ### The inline form -/

/-- The word loop writes the same slots into any two commands. -/
theorem inlineWords_agree (text : Bytes) : ∀ (rounds : Nat) (pos : Option Nat) (n : Nat)
    (h : n ≤ kMaxArgs) (out out' : Command), Agree n out out' →
    (inlineWords text rounds pos n h out').1 = (inlineWords text rounds pos n h out).1 ∧
      ∀ m, (inlineWords text rounds pos n h out).1 = some m →
        Agree m (inlineWords text rounds pos n h out).2
          (inlineWords text rounds pos n h out').2 := by
  intro rounds
  induction rounds with
  | zero =>
    intro pos n h out out' hagree
    refine ⟨rfl, fun m hm => ?_⟩
    cases hm
    exact hagree
  | succ rounds ih =>
    intro pos n h out out' hagree
    simp only [inlineWords]
    cases pos.bind (findFrom (!isBlank ·) text) with
    | none =>
      refine ⟨rfl, fun m hm => ?_⟩
      cases hm
      exact hagree
    | some start =>
      dsimp only
      by_cases hn : n = kMaxArgs
      · simp only [dif_pos hn]
        exact ⟨trivial, nofun⟩
      · simp only [dif_neg hn]
        exact ih _ _ _ _ _ (hagree.setArg _ _)

/-- A verdict on a line stands when more arrives. -/
theorem parseInline_append {input : Bytes} {out : Command}
    (h : (parseInline input out).1.status ≠ .kIncomplete) (ext : Bytes) (out' : Command) :
    (parseInline (input ++ ext) out').1 = (parseInline input out).1 ∧
      ((parseInline input out).1.status = .kOk →
        (parseInline (input ++ ext) out').2 = (parseInline input out).2) := by
  have hline : (readLine input 0 kMaxInlineLength .kInline).status ≠ .kIncomplete := by
    intro hline
    exact h (by simp only [parseInline, hline]; rfl)
  simp only [parseInline, readLine_append hline ext] at h ⊢
  generalize readLine input 0 kMaxInlineLength .kInline = line at h hline ⊢
  cases hstatus : line.status with
  | kIncomplete => exact absurd hstatus hline
  | kTooLong => exact ⟨rfl, nofun⟩
  | kFound | kBadTrailer =>
    dsimp only
    obtain ⟨hwords, hagree⟩ := inlineWords_agree line.text (line.text.length + 1) (some 0) 0
      (Nat.zero_le _) out out' (Agree.zero out out')
    generalize inlineWords line.text (line.text.length + 1) (some 0) 0 (Nat.zero_le _) out = words
      at hwords hagree ⊢
    generalize inlineWords line.text (line.text.length + 1) (some 0) 0 (Nat.zero_le _) out' = words'
      at hwords hagree ⊢
    obtain ⟨n, out₁⟩ := words
    obtain ⟨n', out₁'⟩ := words'
    obtain rfl : n' = n := hwords
    cases n' with
    | none => exact ⟨rfl, nofun⟩
    | some n => exact ⟨rfl, fun _ => ((hagree n rfl).publish n.property).symm⟩

/-- A line consumes at least its line end. -/
theorem parseInline_consumed (input : Bytes) (out : Command) :
    ConsumesWithin 1 input.length (parseInline input out).1 := by
  have hbad := readLine_ne_badTrailer input 0 kMaxInlineLength .kInline
  have hnext := @readLine_next input 0 kMaxInlineLength .kInline
  simp only [parseInline]
  generalize readLine input 0 kMaxInlineLength .kInline = line at hbad hnext ⊢
  cases hstatus : line.status with
  | kIncomplete => exact consumesWithin_incomplete _ _
  | kTooLong => exact consumesWithin_fail _ _ _
  | kBadTrailer => exact absurd hstatus hbad
  | kFound =>
    dsimp only
    generalize inlineWords line.text (line.text.length + 1) (some 0) 0 (Nat.zero_le _) out = words
    obtain ⟨n, out₁⟩ := words
    cases n with
    | none => exact consumesWithin_fail _ _ _
    | some n => exact Or.inl ⟨rfl, hnext hstatus⟩

/-! ### Commands -/

/-- The parse of the form that the first byte tells. -/
def parseForm (input : Bytes) (out : Command) : ParseResult × Command :=
  if input.head? = some 42 then parseArray input out else parseInline input out

/-- A parse is one of its forms, with the slots cleared when it has not succeeded. -/
theorem parseCommand_of_ne_nil {input : Bytes} (h : input ≠ []) (out : Command) :
    parseCommand input out =
      if (parseForm input out).1.status ≠ .kOk then
        ((parseForm input out).1, (parseForm input out).2.clear)
      else parseForm input out := by
  have hempty : input.isEmpty = false := by simpa using h
  simp only [parseCommand, hempty, Bool.false_eq_true, if_false]
  rfl

/-- The verdict of a parse is that of its form. -/
theorem parseCommand_fst {input : Bytes} (h : input ≠ []) (out : Command) :
    (parseCommand input out).1 = (parseForm input out).1 := by
  rw [parseCommand_of_ne_nil h]
  split <;> rfl

/-- The command of a parse is that of its form, when it has one. -/
theorem parseCommand_of_ok {input : Bytes} (h : input ≠ []) {out : Command}
    (hok : (parseForm input out).1.status = .kOk) :
    parseCommand input out = parseForm input out := by
  rw [parseCommand_of_ne_nil h, if_neg (not_not.mpr hok)]

/-- The first byte decides the form, so what arrives later does not change it. -/
theorem parseForm_append {input : Bytes} (hne : input ≠ []) {out : Command}
    (h : (parseForm input out).1.status ≠ .kIncomplete) (ext : Bytes) (out' : Command) :
    (parseForm (input ++ ext) out').1 = (parseForm input out).1 ∧
      ((parseForm input out).1.status = .kOk →
        (parseForm (input ++ ext) out').2 = (parseForm input out).2) := by
  have hhead : (input ++ ext).head? = input.head? := by
    cases input with
    | nil => exact absurd rfl hne
    | cons c rest => rfl
  unfold parseForm at h ⊢
  rw [hhead]
  split
  · next hstar =>
    rw [if_pos hstar] at h
    exact parseArray_append h ext out'
  · next hstar =>
    rw [if_neg hstar] at h
    exact parseInline_append h ext out'

/-- A verdict of `parseCommand` stands when more bytes arrive, whatever command is reused. -/
theorem parseCommand_append {input : Bytes} {out : Command}
    (h : (parseCommand input out).1.status ≠ .kIncomplete) (ext : Bytes) (out' : Command) :
    parseCommand (input ++ ext) out' = parseCommand input out := by
  by_cases hne : input = []
  · subst hne
    exact absurd rfl h
  have hne' : input ++ ext ≠ [] := by simp [hne]
  rw [parseCommand_of_ne_nil hne] at h ⊢
  rw [parseCommand_of_ne_nil hne']
  have hform : (parseForm input out).1.status ≠ .kIncomplete := by
    intro hform
    exact h (by rw [if_pos (by rw [hform]; decide)]; exact hform)
  obtain ⟨hfst, hsnd⟩ := parseForm_append hne hform ext out'
  rw [hfst]
  split
  · rfl
  · next hok => exact Prod.ext hfst (hsnd (not_not.mp hok))

/-- A command consumes at least a byte and at most the input. Otherwise nothing is consumed. -/
theorem parseCommand_consumed (input : Bytes) (out : Command) :
    ConsumesWithin 1 input.length (parseCommand input out).1 := by
  by_cases hne : input = []
  · subst hne
    exact consumesWithin_incomplete _ _
  rw [parseCommand_fst hne, parseForm]
  split
  · exact parseArray_consumed input out
  · exact parseInline_consumed input out

/-- Verdicts of `parseCommand` are final. A command parses to the same consumed count and the same
arguments, and a protocol error stays the same error, whatever arrives after it and whatever
command is reused. So a strict prefix of a frame that parses whole is incomplete. -/
theorem parseCommand_final (input ext : Bytes) (out out' : Command) :
    ((parseCommand input out).1.status = .kOk →
      (parseCommand (input ++ ext) out').1.status = .kOk ∧
      (parseCommand (input ++ ext) out').1.consumed = (parseCommand input out).1.consumed ∧
      (parseCommand (input ++ ext) out').2 = (parseCommand input out).2) ∧
    ((parseCommand input out).1.status = .kProtocolError →
      (parseCommand (input ++ ext) out').1.status = .kProtocolError ∧
      (parseCommand (input ++ ext) out').1.error = (parseCommand input out).1.error) ∧
    ((parseCommand (input ++ ext) out').1.status = .kOk →
      (parseCommand (input ++ ext) out').1.consumed = (input ++ ext).length → ext ≠ [] →
      (parseCommand input out).1.status = .kIncomplete ∧
      (parseCommand input out).1.consumed = 0) := by
  refine ⟨fun hok => ?_, fun herr => ?_, fun hok hall hext => ?_⟩
  · rw [parseCommand_append (by rw [hok]; decide) ext out']
    exact ⟨hok, rfl, rfl⟩
  · rw [parseCommand_append (by rw [herr]; decide) ext out']
    exact ⟨herr, rfl⟩
  · by_cases hinc : (parseCommand input out).1.status = .kIncomplete
    · rcases parseCommand_consumed input out with ⟨hok', -⟩ | ⟨-, hzero⟩
      · rw [hinc] at hok'
        cases hok'
      · exact ⟨hinc, hzero⟩
    -- A verdict on the prefix would be the verdict on the frame, which ends past the prefix.
    · exfalso
      rw [parseCommand_append hinc ext out'] at hok hall
      have hlen := List.length_pos_iff.mpr hext
      rw [List.length_append] at hall
      rcases parseCommand_consumed input out with ⟨-, -, hle⟩ | ⟨hnot, -⟩
      · omega
      · exact hnot hok

/-- A frame cut inside its payload, a frame with the next one behind it, and a count that no
extension repairs. -/
theorem parseCommand_final_ping :
    (parseCommand (ascii "*1\r\n$4\r\nPI") Command.empty).1.status = .kIncomplete ∧
    (parseCommand (ascii "*1\r\n$4\r\nPING\r\n" ++ ascii "GET") Command.empty).1.consumed = 14 ∧
    (parseCommand (ascii "*x\r\n" ++ ascii "GET") Command.empty).1.status = .kProtocolError :=
  ⟨((parseCommand_final (ascii "*1\r\n$4\r\nPI") (ascii "NG\r\n") Command.empty
      Command.empty).2.2 (by decide) (by decide) (by decide)).1,
    ((parseCommand_final (ascii "*1\r\n$4\r\nPING\r\n") (ascii "GET") Command.empty
      Command.empty).1 (by decide)).2.1.trans (by decide),
    ((parseCommand_final (ascii "*x\r\n") (ascii "GET") Command.empty
      Command.empty).2.1 (by decide)).1⟩

end TinyRedis
