import TinyRedis.Proofs.Resp.Inline

/-!
# `TinyRedis.Proofs.Resp.Slots`: what a parse leaves in the slots

The parsers write the slots of the caller's command as they go, and may stop anywhere. What the
caller gets is published or cleared (`parseCommand_cases`), so nothing of an earlier command stays
in it: an argument is a piece of the input, and the other slots are empty.

* `Settles`: a parse that succeeds has published its command.
* `parseCommand_cases`: a command is published, or all slots are cleared.
* `parseCommand_reuse`: what a parse gives does not depend on the slots that it was given.
* `parseCommand_args`, `parseCommand_slot`: every argument stands in the part of the input that was
  consumed.
* `parseCommand_no_leak`: all of it together.

The slots matter because the loop of a connection parses all its commands into one `Command`, and
the arguments of the source are views into the input buffer: a slot that kept an old view would
point to bytes that have been consumed.
-/

set_option autoImplicit false

namespace TinyRedis

open Lib

/-! ### Published commands -/

/-- Publishing keeps the arguments that are counted, and empties the other slots. -/
theorem Command.getElem_publish {n j : Nat} (h : n ≤ kMaxArgs) (hj : j < kMaxArgs)
    (out : Command) : (out.publish n h).argv[j] = if j < n then out.argv[j] else [] := by
  simp only [Command.publish, Vector.getElem_ofFn]
  rfl

/-- A slot that is counted holds an argument. -/
theorem Command.getElem_mem_args {cmd : Command} {j : Nat} (hj : j < kMaxArgs)
    (hlt : j < cmd.argc) : cmd.argv[j] ∈ cmd.args := by
  refine List.mem_iff_getElem?.mpr ⟨j, ?_⟩
  rw [Command.args, List.getElem?_take_of_lt hlt]
  simp [hj]

/-- A parse ends without a command, or publishes one. -/
def Settles (r : ParseResult × Command) : Prop :=
  r.1 = incomplete ∨ (∃ e, r.1 = fail e) ∨
    ∃ n cmd m h, r = ({ status := .kOk, consumed := n }, Command.publish cmd m h)

/-- The loop over the elements publishes when it comes to its end. -/
theorem arrayElems_settles (input : Bytes) : ∀ (left i cursor : Nat) (h : i + left ≤ kMaxArgs)
    (out : Command), Settles (arrayElems input left i cursor h out) := by
  intro left
  induction left with
  | zero =>
    intro i cursor h out
    exact Or.inr (Or.inr ⟨cursor, out, _, h, rfl⟩)
  | succ left ih =>
    intro i cursor h out
    rw [arrayElems_succ]
    cases hround : arrayElem input cursor with
    | error r =>
      rcases arrayElem_error hround with rfl | rfl
      · exact Or.inl rfl
      · exact Or.inr (Or.inl ⟨_, rfl⟩)
    | ok round => exact ih _ _ _ _

/-- The array form publishes its command when it succeeds. -/
theorem parseArray_settles (input : Bytes) (out : Command) : Settles (parseArray input out) := by
  rw [parseArray_eq]
  cases hheader : arrayCount input with
  | error r =>
    rcases arrayCount_error hheader with rfl | rfl
    · exact Or.inl rfl
    · exact Or.inr (Or.inl ⟨_, rfl⟩)
  | ok header => exact arrayElems_settles input _ _ _ _ out

/-- The inline form publishes its command when it succeeds. -/
theorem parseInline_settles (input : Bytes) (out : Command) : Settles (parseInline input out) := by
  simp only [parseInline]
  generalize readLine input 0 kMaxInlineLength .kInline = line
  cases line.status with
  | kIncomplete => exact Or.inl rfl
  | kTooLong => exact Or.inr (Or.inl ⟨_, rfl⟩)
  | kFound | kBadTrailer =>
    dsimp only
    generalize inlineWords line.text (line.text.length + 1) (some 0) 0 (Nat.zero_le _) out = words
    obtain ⟨n, cmd⟩ := words
    cases n with
    | none => exact Or.inr (Or.inl ⟨_, rfl⟩)
    | some n => exact Or.inr (Or.inr ⟨_, cmd, n, n.property, rfl⟩)

/-- What `parseCommand` can give: a published command with `kOk`, a cleared one otherwise. -/
theorem parseCommand_cases (input : Bytes) (out : Command) :
    parseCommand input out = (incomplete, Command.empty) ∨
    (∃ e, parseCommand input out = (fail e, Command.empty)) ∨
    ∃ n cmd m h, parseCommand input out
      = ({ status := .kOk, consumed := n }, Command.publish cmd m h) := by
  by_cases hne : input = []
  · subst hne
    exact Or.inl rfl
  have hform : Settles (parseForm input out) := by
    unfold parseForm
    split
    · exact parseArray_settles input out
    · exact parseInline_settles input out
  rw [parseCommand_of_ne_nil hne]
  rcases hform with hinc | ⟨e, hfail⟩ | ⟨n, cmd, m, h, hok⟩
  · rw [hinc]
    exact Or.inl rfl
  · rw [hfail]
    exact Or.inr (Or.inl ⟨e, rfl⟩)
  · rw [hok]
    exact Or.inr (Or.inr ⟨n, cmd, m, h, rfl⟩)

/-- The command that the caller reuses does not matter. -/
theorem parseCommand_reuse (input : Bytes) (out out' : Command) :
    parseCommand input out' = parseCommand input out := by
  have hverdict : ∀ c c' : Command, (parseCommand input c).1.status ≠ .kIncomplete →
      parseCommand input c' = parseCommand input c := by
    intro c c' h
    have happ := parseCommand_append h [] c'
    rwa [List.append_nil] at happ
  by_cases hopen : (parseCommand input out).1.status = .kIncomplete
  case neg => exact hverdict out out' hopen
  by_cases hopen' : (parseCommand input out').1.status = .kIncomplete
  case neg => exact (hverdict out' out hopen').symm
  -- Without a verdict both are cleared.
  have hclear : ∀ c : Command, (parseCommand input c).1.status = .kIncomplete →
      parseCommand input c = (incomplete, Command.empty) := by
    intro c h
    rcases parseCommand_cases input c with heq | ⟨e, heq⟩ | ⟨n, cmd, m, hm, heq⟩
    · exact heq
    · rw [heq] at h
      cases h
    · rw [heq] at h
      cases h
  rw [hclear out hopen, hclear out' hopen']

/-! ### Arguments -/

/-- An argument stands in the encoding of its command. -/
theorem infix_encodeCommand {args : List Bytes} {arg : Bytes} (h : arg ∈ args) :
    arg <:+: encodeCommand args := by
  have hbulk : arg <:+: encodeBulk arg :=
    ⟨(36 :: decimal arg.length) ++ crlf, crlf, by rw [encodeBulk_eq, ← List.append_assoc]⟩
  have hall : encodeBulk arg <:+: args.flatMap encodeBulk := by
    rw [List.flatMap_def]
    exact List.infix_of_mem_flatten (List.mem_map_of_mem h)
  rw [encodeCommand_eq]
  exact hbulk.trans (hall.trans (List.suffix_append _ _).isInfix)

/-- An argument is a piece of the input, no longer than a bulk string may be. -/
theorem parseCommand_args {input : Bytes} {out : Command}
    (hok : (parseCommand input out).1.status = .kOk) :
    ∀ arg ∈ (parseCommand input out).2.args, arg <:+: input ∧ arg.length ≤ kMaxBulkLength := by
  have hne : input ≠ [] := by
    rintro rfl
    cases hok
  rw [parseCommand_fst hne] at hok
  rw [parseCommand_of_ok hne hok]
  unfold parseForm at hok ⊢
  by_cases hstar : input.head? = some 42
  · rw [if_pos hstar] at hok ⊢
    obtain ⟨-, hall, -, rest, hinput⟩ := (parseArray_ok_iff input out _ _).mp ⟨hok, rfl, rfl⟩
    intro arg harg
    refine ⟨?_, hall arg harg⟩
    rw [hinput]
    exact (infix_encodeCommand harg).trans (List.prefix_append _ _).isInfix
  · rw [if_neg hstar] at hok ⊢
    obtain ⟨p, hp, hlen, hargs⟩ := (parseInline_outcome input out).of_ok hok
    rw [hargs]
    intro arg harg
    have hin := infix_of_mem_runs harg
    refine ⟨hin.trans ?_, Nat.le_trans (hin.length_le.trans hlen) (by decide)⟩
    rw [inlineText_eq (Nat.le_of_lt (firstLF_eq_some_iff.mp hp).1.lt)]
    exact (List.take_prefix _ _).isInfix

/-- A slot of a parsed command is a piece of the input. -/
theorem parseCommand_slot {input : Bytes} {out : Command}
    (hok : (parseCommand input out).1.status = .kOk) {j : Nat} (hj : j < kMaxArgs) :
    (parseCommand input out).2.argv[j] <:+: input ∧
      (parseCommand input out).2.argv[j].length ≤ kMaxBulkLength ∧
      ((parseCommand input out).2.argc ≤ j → (parseCommand input out).2.argv[j] = []) := by
  by_cases hlt : j < (parseCommand input out).2.argc
  · obtain ⟨hin, hlen⟩ := parseCommand_args hok _ (Command.getElem_mem_args hj hlt)
    exact ⟨hin, hlen, fun hge => absurd hlt (Nat.not_lt.mpr hge)⟩
  · have hblank : (parseCommand input out).2.argv[j] = [] := by
      rcases parseCommand_cases input out with heq | ⟨e, heq⟩ | ⟨n, cmd, m, hm, heq⟩
      · rw [heq] at hok
        cases hok
      · rw [heq] at hok
        cases hok
      · simp only [heq] at hlt ⊢
        rw [Command.getElem_publish]
        exact if_neg hlt
    rw [hblank]
    exact ⟨List.nil_infix, Nat.zero_le _, fun _ => rfl⟩

/-- Nothing of an earlier command leaks into a later one. The result of a parse and the command it
leaves do not depend on what the reused command held. A parsed command has pieces of the input in
the slots below `argc` and nothing in the others; after any other verdict it is empty, wherever the
parse has stopped. -/
theorem parseCommand_no_leak (input : Bytes) (out out' : Command) :
    parseCommand input out' = parseCommand input out ∧
    ((parseCommand input out).1.status = .kOk → ∀ (j : Nat) (hj : j < kMaxArgs),
      (j < (parseCommand input out).2.argc → (parseCommand input out).2.argv[j] <:+: input) ∧
      ((parseCommand input out).2.argc ≤ j → (parseCommand input out).2.argv[j] = [])) ∧
    ((parseCommand input out).1.status ≠ .kOk →
      (parseCommand input out).2.argc = 0 ∧
      ∀ (j : Nat) (hj : j < kMaxArgs), (parseCommand input out).2.argv[j] = []) := by
  refine ⟨parseCommand_reuse input out out', fun hok j hj => ?_, fun hnot => ?_⟩
  · obtain ⟨hin, -, hblank⟩ := parseCommand_slot hok hj
    exact ⟨fun _ => hin, hblank⟩
  · have hclear : (parseCommand input out).2 = Command.empty := by
      rcases parseCommand_cases input out with heq | ⟨e, heq⟩ | ⟨n, cmd, m, hm, heq⟩
      · rw [heq]
      · rw [heq]
      · rw [heq] at hnot
        exact absurd rfl hnot
    rw [hclear]
    exact ⟨rfl, fun j hj => Vector.getElem_replicate hj⟩

/-- A command of three arguments, reused for one that stops in its second element, and for one of
a single argument. -/
theorem parseCommand_no_leak_reused :
    let out := (parseCommand (ascii "SET k v\n") Command.empty).2
    (parseCommand (ascii "*2\r\n$3\r\nGET\r\n$1\r") out).2.argc = 0 ∧
    (parseCommand (ascii "PING\n") out).2.get 1 = [] := by
  intro out
  exact ⟨((parseCommand_no_leak (ascii "*2\r\n$3\r\nGET\r\n$1\r") out out).2.2 (by decide)).1,
    ((parseCommand_no_leak (ascii "PING\n") out out).2.1 (by decide) 1 (by decide)).2 (by decide)⟩

end TinyRedis
