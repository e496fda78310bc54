import TinyRedis.Lib.Runs
import TinyRedis.Proofs.Resp.Canonical

/-!
# `TinyRedis.Proofs.Resp.Inline`: the inline form is a split on blanks

A line of the inline form is the bytes up to the first LF, less a CR at their end. Its arguments are
the runs of the line between blanks (`Lib.runs`): `inlineWords_spec` follows the word loop, whose
rounds skip blanks and take a run. `InlineOutcome` lists what an input without an asterisk at its
front can parse to.

* `inlineRest`, `inlineWord`: what the word loop has in front of it, and the word that it takes.
* `runs_inlineRest_of_none`, `runs_inlineRest_of_some`: one round, in terms of runs.
* `firstLF`, `inlineText`: the line, by a search of its own.
* `parseInline_of_line`: a line within its bound, with its words.
* `parseInline_outcome`: every input has one of the outcomes.
* `parseCommand_inline_iff`: each outcome is reported exactly for the inputs that have it.

A line without a word is a command without arguments. It is consumed and answered with nothing.
-/

set_option autoImplicit false

namespace TinyRedis

open Lib

/-! ### The word loop -/

/-- What is left of the text at `pos`. -/
def inlineRest (text : Bytes) : (pos : Option Nat) → Bytes
  | none => []
  | some pos => text.drop pos

/-- The word at `start`. -/
def inlineWord (text : Bytes) (start : Nat) : Bytes :=
  match findFrom isBlank text start with
  | none => text.drop start
  | some pos => substr text start (pos - start)

/-- What `find` skips, and what it stops at. -/
theorem findFrom_split {c : UInt8 → Bool} {s : Bytes} {start i : Nat}
    (h : findFrom c s start = some i) :
    ∃ b rest, s.drop start = substr s start (i - start) ++ b :: rest ∧
      (∀ x ∈ substr s start (i - start), c x = false) ∧ c b = true ∧ s.drop i = b :: rest := by
  obtain ⟨hle, ⟨b, hb, hc⟩, hbefore⟩ := findFrom_eq_some_iff.mp h
  obtain ⟨hlt, rfl⟩ := List.getElem?_eq_some_iff.mp hb
  have hdrop : s.drop i = s[i] :: s.drop (i + 1) := List.drop_eq_getElem_cons hlt
  refine ⟨s[i], s.drop (i + 1), ?_, fun x hx => ?_, hc, hdrop⟩
  · rw [← hdrop, substr]
    conv_lhs => rw [← List.take_append_drop (i - start) (s.drop start)]
    rw [List.drop_drop, Nat.add_sub_cancel' hle]
  · obtain ⟨k, hk⟩ := List.mem_iff_getElem?.mp hx
    have hki : k < i - start := by
      have := (List.getElem?_eq_some_iff.mp hk).1
      rw [substr, List.length_take] at this
      omega
    rw [substr, List.getElem?_take_of_lt hki, List.getElem?_drop] at hk
    exact hbefore (start + k) (by omega) (by omega) x hk

/-- A search that finds nothing has looked at everything. -/
theorem findFrom_none {c : UInt8 → Bool} {s : Bytes} {start : Nat}
    (h : findFrom c s start = none) : ∀ x ∈ s.drop start, c x = false := by
  intro x hx
  obtain ⟨k, hk⟩ := List.mem_iff_getElem?.mp hx
  rw [List.getElem?_drop] at hk
  exact findFrom_eq_none_iff.mp h (start + k) (Nat.le_add_right _ _) x hk

/-- A round that finds no word has only blanks left. -/
theorem runs_inlineRest_of_none {text : Bytes} {pos : Option Nat}
    (h : pos.bind (findFrom (!isBlank ·) text) = none) :
    runs isBlank (inlineRest text pos) = [] := by
  cases pos with
  | none => exact runs_nil
  | some pos =>
    refine runs_of_all_sep fun c hc => ?_
    simpa using findFrom_none (show findFrom (!isBlank ·) text pos = none from h) c hc

/-- A word runs from a byte that is no blank to the next blank or the end of the text. -/
theorem runs_drop_word {text rest : Bytes} {start : Nat} {b : UInt8}
    (hdrop : text.drop start = b :: rest) (hb : isBlank b = false) :
    runs isBlank (text.drop start)
      = inlineWord text start :: runs isBlank (inlineRest text (findFrom isBlank text start)) := by
  unfold inlineWord
  cases hfind : findFrom isBlank text start with
  | none =>
    rw [runs_of_no_sep (by rw [hdrop]; simp) (findFrom_none hfind)]
    exact congrArg _ runs_nil.symm
  | some pos =>
    obtain ⟨b', rest', hsplit, hword, hb', hpos⟩ := findFrom_split hfind
    have hne : substr text start (pos - start) ≠ [] := by
      intro hnil
      rw [hnil, List.nil_append, hdrop] at hsplit
      rw [(List.cons.inj hsplit).1, hb'] at hb
      cases hb
    change _ = _ :: runs isBlank (text.drop pos)
    rw [hsplit, runs_append_cons hne hword hb', hpos]

/-- A round that finds a word takes the next run. -/
theorem runs_inlineRest_of_some {text : Bytes} {pos : Option Nat} {start : Nat}
    (h : pos.bind (findFrom (!isBlank ·) text) = some start) :
    runs isBlank (inlineRest text pos)
      = inlineWord text start :: runs isBlank (inlineRest text (findFrom isBlank text start)) := by
  cases pos with
  | none => cases h
  | some pos =>
    obtain ⟨b, rest, hsplit, hskip, hb, hstart⟩ := findFrom_split h
    rw [← runs_drop_word hstart (by simpa using hb), hstart]
    change runs isBlank (text.drop pos) = _
    rw [hsplit]
    exact runs_append_of_sep (fun c hc => by simpa using hskip c hc) _

/-- The word loop writes the runs that are left into the slots from `n` on, and stops at a run
without a slot. -/
theorem inlineWords_spec (text : Bytes) : ∀ (rounds : Nat) (pos : Option Nat) (n : Nat)
    (h : n ≤ kMaxArgs) (out : Command),
    (runs isBlank (inlineRest text pos)).length ≤ rounds →
    (n + (runs isBlank (inlineRest text pos)).length ≤ kMaxArgs ∧
      ∃ m, (inlineWords text rounds pos n h out).1 = some m ∧
        (inlineWords text rounds pos n h out).2.argv.toList.take m
          = out.argv.toList.take n ++ runs isBlank (inlineRest text pos)) ∨
    (kMaxArgs < n + (runs isBlank (inlineRest text pos)).length ∧
      (inlineWords text rounds pos n h out).1 = none) := by
  intro rounds
  induction rounds with
  | zero =>
    intro pos n h out hrounds
    have hnil := List.length_eq_zero_iff.mp (Nat.le_zero.mp hrounds)
    rw [hnil]
    exact Or.inl ⟨h, ⟨n, h⟩, rfl, (List.append_nil _).symm⟩
  | succ rounds ih =>
    intro pos n h out hrounds
    rw [inlineWords]
    -- a round that finds no word, or one that does
    cases hfind : pos.bind (findFrom (!isBlank ·) text) with
    | none =>
      rw [runs_inlineRest_of_none hfind]
      exact Or.inl ⟨h, ⟨n, h⟩, rfl, (List.append_nil _).symm⟩
    | some start =>
      rw [runs_inlineRest_of_some hfind, List.length_cons] at hrounds ⊢
      dsimp only
      -- a word too many
      by_cases hn : n = kMaxArgs
      · rw [dif_pos hn]
        exact Or.inr ⟨by omega, rfl⟩
      rw [dif_neg hn]
      have hlt : n < kMaxArgs := Nat.lt_of_le_of_ne h hn
      rcases ih (findFrom isBlank text start) (n + 1) hlt
        (out.setArg n (inlineWord text start) hlt) (by omega) with
        ⟨hfit, m, hm, htake⟩ | ⟨hfull, hnone⟩
      · rw [Command.take_setArg, List.append_assoc] at htake
        exact Or.inl ⟨by omega, m, hm, htake⟩
      · exact Or.inr ⟨by omega, hnone⟩

/-! ### The line -/

/-- The position of the first LF. -/
def firstLF (input : Bytes) : Option Nat := input.findIdx? (· = LF)

/-- The line that ends at `p`: the bytes before it, less one CR at their end. -/
def inlineText (input : Bytes) (p : Nat) : Bytes :=
  if (input.take p).getLast? = some CR then (input.take p).dropLast else input.take p

/-- The first LF is what `find` finds. -/
theorem firstLF_eq_findFrom (input : Bytes) : firstLF input = findFrom (· = LF) input 0 := by
  simp [firstLF, findFrom]

/-- A line of the inline form ends at any LF. -/
theorem endsLine_inline_iff {s : Bytes} {lf : Nat} :
    EndsLine .kInline s lf ↔ s[lf]? = some LF :=
  ⟨fun h => h.1, fun h => ⟨h, Or.inr rfl⟩⟩

/-- A line of the inline form ends at the first LF. -/
theorem firstLF_eq_some_iff {input : Bytes} {p : Nat} :
    firstLF input = some p ↔ FirstEnd .kInline input p := by
  rw [firstLF_eq_findFrom, findFrom_eq_some_iff, FirstEnd, endsLine_inline_iff]
  simp only [endsLine_inline_iff, Nat.zero_le, true_and, forall_const, decide_eq_true_eq,
    exists_eq_right, decide_eq_false_iff_not]
  refine and_congr_right fun _ => forall₂_congr fun j _ => ?_
  exact ⟨fun h hj => h LF hj rfl, fun h b hb hLF => h (hLF ▸ hb)⟩

/-- A line of the inline form without an LF has no end. -/
theorem firstLF_eq_none_iff {input : Bytes} :
    firstLF input = none ↔ ∀ j, ¬ EndsLine .kInline input j := by
  rw [firstLF_eq_findFrom, findFrom_eq_none_iff]
  simp only [endsLine_inline_iff, Nat.zero_le, forall_const, decide_eq_false_iff_not]
  refine forall_congr' fun j => ?_
  exact ⟨fun h hj => h LF hj rfl, fun h b hb hLF => h (hLF ▸ hb)⟩

/-- The text of a line is what stands before the LF, less a CR. -/
theorem inlineText_eq {input : Bytes} {p : Nat} (h : p ≤ input.length) :
    inlineText input p = input.take (textLen input p) := by
  have hcr : crBefore input p = true ↔ (input.take p).getLast? = some CR := by
    cases p with
    | zero => simp [crBefore]
    | succ p =>
      rw [List.getLast?_take, if_neg (by omega)]
      simp [crBefore, List.getElem?_eq_getElem (show p < input.length by omega)]
  unfold inlineText textLen
  by_cases hlast : crBefore input p = true
  · rw [if_pos (hcr.mp hlast), if_pos hlast, List.dropLast_eq_take, List.length_take_of_le h,
      List.take_take, Nat.min_eq_left (Nat.sub_le p 1)]
  · rw [if_neg (mt hcr.mpr hlast), if_neg hlast]

/-- The length of the text is the one that is compared with the bound. -/
theorem length_inlineText {input : Bytes} {p : Nat} (h : p ≤ input.length) :
    (inlineText input p).length = textLen input p := by
  rw [inlineText_eq h, List.length_take_of_le]
  unfold textLen
  split <;> omega

/-! ### Outcomes -/

/-- A line that is waited for. -/
theorem parseInline_of_incomplete {input : Bytes}
    (h : (readLine input 0 kMaxInlineLength .kInline).status = .kIncomplete) (out : Command) :
    (parseInline input out).1 = incomplete := by
  simp only [parseInline, h]

/-- A line that is too long. -/
theorem parseInline_of_tooLong {input : Bytes}
    (h : (readLine input 0 kMaxInlineLength .kInline).status = .kTooLong) (out : Command) :
    (parseInline input out).1 = fail .kInlineLength := by
  simp only [parseInline, h]

/-- A line within the bound parses to its runs, if there are slots for them. -/
theorem parseInline_of_line {input : Bytes} {p : Nat} (hp : firstLF input = some p)
    (hlen : (inlineText input p).length ≤ kMaxInlineLength) (out : Command) :
    ((runs isBlank (inlineText input p)).length ≤ kMaxArgs ∧
      (parseInline input out).1 = { status := .kOk, consumed := p + 1 } ∧
      (parseInline input out).2.args = runs isBlank (inlineText input p)) ∨
    (kMaxArgs < (runs isBlank (inlineText input p)).length ∧
      (parseInline input out).1 = fail .kArgLength) := by
  have hfirst := firstLF_eq_some_iff.mp hp
  have hle := Nat.le_of_lt hfirst.1.lt
  rw [length_inlineText hle] at hlen
  have hread := @readLine_of_firstEnd input 0 kMaxInlineLength p .kInline hfirst hlen
  rw [List.drop_zero, ← inlineText_eq hle, Nat.zero_add] at hread
  simp only [parseInline, hread]
  generalize inlineText input p = text
  have hwords := inlineWords_spec text (text.length + 1) (some 0) 0 (Nat.zero_le _) out
    (Nat.le_succ_of_le (length_runs_le isBlank text))
  generalize inlineWords text (text.length + 1) (some 0) 0 (Nat.zero_le _) out = words at hwords ⊢
  obtain ⟨n, cmd⟩ := words
  simp only [inlineRest, List.drop_zero, Nat.zero_add] at hwords
  rcases hwords with ⟨hfit, m, rfl, htake⟩ | ⟨hfull, rfl⟩
  · exact Or.inl ⟨hfit, rfl, by rw [Command.args_publish, htake]; rfl⟩
  · exact Or.inr ⟨hfull, rfl⟩

/-- A line without an LF that is past its bound whatever comes. -/
def Overlong (input : Bytes) : Prop :=
  input.length ≥ kMaxInlineLength + 2 ∨
    (input.length = kMaxInlineLength + 1 ∧ input.getLast? ≠ some CR)

/-- What an input in the inline form parses to. -/
inductive InlineOutcome (input : Bytes) (r : ParseResult) (cmd : Command) : Prop where
  | line {p : Nat} (result : r = { status := .kOk, consumed := p + 1 })
      (first : firstLF input = some p) (bound : (inlineText input p).length ≤ kMaxInlineLength)
      (fit : (runs isBlank (inlineText input p)).length ≤ kMaxArgs)
      (args : cmd.args = runs isBlank (inlineText input p))
  | crowded {p : Nat} (result : r = fail .kArgLength) (first : firstLF input = some p)
      (bound : (inlineText input p).length ≤ kMaxInlineLength)
      (full : kMaxArgs < (runs isBlank (inlineText input p)).length)
  | long {p : Nat} (result : r = fail .kInlineLength) (first : firstLF input = some p)
      (beyond : kMaxInlineLength < (inlineText input p).length)
  | endless (result : r = fail .kInlineLength) (first : firstLF input = none)
      (beyond : Overlong input)
  | pending (result : r = incomplete) (first : firstLF input = none) (room : ¬ Overlong input)

/-- A line that is neither found nor waited for is too long. -/
theorem parseInline_of_refused {input : Bytes}
    (hfound : (readLine input 0 kMaxInlineLength .kInline).status ≠ .kFound)
    (hwait : (readLine input 0 kMaxInlineLength .kInline).status ≠ .kIncomplete) (out : Command) :
    (parseInline input out).1 = fail .kInlineLength := by
  apply parseInline_of_tooLong
  cases hstatus : (readLine input 0 kMaxInlineLength .kInline).status with
  | kFound => exact absurd hstatus hfound
  | kIncomplete => exact absurd hstatus hwait
  | kTooLong => rfl
  | kBadTrailer => exact absurd hstatus (readLine_ne_badTrailer _ _ _ _)

/-- Every input has one of the outcomes. -/
theorem parseInline_outcome (input : Bytes) (out : Command) :
    InlineOutcome input (parseInline input out).1 (parseInline input out).2 := by
  have hfound := @readLine_found_iff input 0 kMaxInlineLength .kInline
  have hwait := @readLine_incomplete_iff input 0 kMaxInlineLength .kInline
  rw [List.drop_zero] at hfound hwait
  cases hp : firstLF input with
  | some p =>
    have hfirst := firstLF_eq_some_iff.mp hp
    by_cases hlen : (inlineText input p).length ≤ kMaxInlineLength
    · rcases parseInline_of_line hp hlen out with ⟨hfit, hok, hargs⟩ | ⟨hfull, herr⟩
      · exact .line hok hp hlen hfit hargs
      · exact .crowded herr hp hlen hfull
    · refine .long (parseInline_of_refused ?_ ?_ out) hp (Nat.not_le.mp hlen)
      · rw [ne_eq, hfound]
        rintro ⟨lf, hfirst', hlen'⟩
        obtain rfl := hfirst'.unique hfirst
        exact hlen (by rwa [length_inlineText (Nat.le_of_lt hfirst.1.lt)])
      · rw [ne_eq, hwait]
        exact fun h => h.1 p hfirst.1
  | none =>
    have hnone := firstLF_eq_none_iff.mp hp
    by_cases hover : Overlong input
    · refine .endless (parseInline_of_refused ?_ ?_ out) hp hover
      · rw [ne_eq, hfound]
        exact fun ⟨lf, hfirst, _⟩ => hnone lf hfirst.1
      · rw [ne_eq, hwait]
        exact fun h => h.2 hover
    · exact .pending (parseInline_of_incomplete (hwait.mpr ⟨hnone, hover⟩) out) hp hover

/-- Only a line parses. -/
theorem InlineOutcome.of_ok {input : Bytes} {r : ParseResult} {cmd : Command}
    (h : InlineOutcome input r cmd) (hok : r.status = .kOk) :
    ∃ p, firstLF input = some p ∧ (inlineText input p).length ≤ kMaxInlineLength ∧
      cmd.args = runs isBlank (inlineText input p) := by
  cases h with
  | line _ first bound _ args => exact ⟨_, first, bound, args⟩
  | crowded result _ _ _ | long result _ _ | endless result _ _ | pending result _ _ =>
    rw [result] at hok
    cases hok

/-- Only input within the bound waits. -/
theorem InlineOutcome.of_incomplete {input : Bytes} {r : ParseResult} {cmd : Command}
    (h : InlineOutcome input r cmd) (hopen : r.status = .kIncomplete) : ¬ Overlong input := by
  cases h with
  | pending _ _ room => exact room
  | line result _ _ _ _ | crowded result _ _ _ | long result _ _ | endless result _ _ =>
    rw [result] at hopen
    cases hopen

/-- Errors are told apart. -/
theorem fail_inj {e e' : Error} : fail e = fail e' ↔ e = e' := by
  cases e <;> cases e' <;> decide

/-- An error is a protocol error. -/
theorem status_fail (e : Error) : (fail e).status = .kProtocolError := rfl

/-- More bytes are wanted. -/
theorem status_incomplete : incomplete.status = .kIncomplete := rfl

/-- A command is not an error. -/
theorem ok_ne_fail (n : Nat) (e : Error) : { status := .kOk, consumed := n } ≠ fail e := nofun

/-- An incomplete command is not an error. -/
theorem incomplete_ne_fail (e : Error) : incomplete ≠ fail e := nofun

/-- The inline form is parsed exactly. With `p` the first LF, input that does not start with an
asterisk parses as the runs of the line before `p`, in `p + 1` bytes, if the line is within its
bound and there are slots for the runs. It is refused for the count of the runs, or for the length
of the line, which without an LF is certain from two bytes past the bound on, or one if that is no
CR. Nothing else is waited for but the LF of a line that may still be within the bound. -/
theorem parseCommand_inline_iff (input : Bytes) (out : Command) (hne : input ≠ [])
    (hstar : input.head? ≠ some 42) :
    (∀ n args, ((parseCommand input out).1.status = .kOk ∧
        (parseCommand input out).1.consumed = n ∧ (parseCommand input out).2.args = args) ↔
      ∃ p, firstLF input = some p ∧ (inlineText input p).length ≤ kMaxInlineLength ∧
        (runs isBlank (inlineText input p)).length ≤ kMaxArgs ∧
        p + 1 = n ∧ runs isBlank (inlineText input p) = args) ∧
    ((parseCommand input out).1 = fail .kArgLength ↔
      ∃ p, firstLF input = some p ∧ (inlineText input p).length ≤ kMaxInlineLength ∧
        kMaxArgs < (runs isBlank (inlineText input p)).length) ∧
    ((parseCommand input out).1 = fail .kInlineLength ↔
      (∃ p, firstLF input = some p ∧ kMaxInlineLength < (inlineText input p).length) ∨
      firstLF input = none ∧ (input.length ≥ kMaxInlineLength + 2 ∨
        (input.length = kMaxInlineLength + 1 ∧ input.getLast? ≠ some CR))) ∧
    ((parseCommand input out).1.status = .kIncomplete ↔
      firstLF input = none ∧ ¬ (input.length ≥ kMaxInlineLength + 2 ∨
        (input.length = kMaxInlineLength + 1 ∧ input.getLast? ≠ some CR))) := by
  have hform : parseForm input out = parseInline input out := if_neg hstar
  have hfst := parseCommand_fst hne out
  have hsnd := @parseCommand_of_ok input hne out
  rw [hform] at hfst hsnd
  rw [hfst]
  -- Each outcome decides all four statements.
  cases parseInline_outcome input out with
  | line result first bound fit args =>
    rw [hsnd (by rw [result]), args, result, first]
    simp [bound, fit, ok_ne_fail, Nat.not_lt.mpr bound, Nat.not_lt.mpr fit]
  | crowded result first bound full =>
    rw [result, first]
    simp [bound, full, fail_inj, status_fail, Nat.not_lt.mpr bound, Nat.not_le.mpr full]
  | long result first beyond =>
    rw [result, first]
    simp [beyond, fail_inj, status_fail, Nat.not_le.mpr beyond]
  | endless result first beyond =>
    rw [Overlong] at beyond
    rw [result, first]
    simp [fail_inj, status_fail, beyond]
  | pending result first room =>
    rw [Overlong] at room
    rw [result, first]
    simp [incomplete_ne_fail, status_incomplete, room]

/-- Blanks of both kinds around the words, a CR before the LF, and bytes of a next command; a line
whose LF is still to come. -/
theorem parseCommand_inline_iff_set :
    (parseCommand (ascii " SET\tk  v\r\nGET") Command.empty).2.args
      = [ascii "SET", ascii "k", ascii "v"] ∧
    (parseCommand (ascii "PING\r") Command.empty).1.status = .kIncomplete :=
  ⟨(((parseCommand_inline_iff (ascii " SET\tk  v\r\nGET") Command.empty (by decide)
      (by decide)).1 11 [ascii "SET", ascii "k", ascii "v"]).mpr
      ⟨10, by decide, by decide, by decide, by decide, by decide⟩).2.2,
    (parseCommand_inline_iff (ascii "PING\r") Command.empty (by decide) (by decide)).2.2.2.mpr
      (by decide)⟩

end TinyRedis
