import TinyRedis.Lib.Stream
import TinyRedis.Proofs.Command.Sync
import TinyRedis.Proofs.Resp.Slots

/-!
# `TinyRedis.Proofs.Resp.Session`: a byte stream as a session of commands

`parseCommand` is an incremental parser (`commands`), so a byte stream has a session: its commands
up to a QUIT, a protocol error, or bytes that are not a command yet. A parsed command is within the
caps of the parser, which is what `dispatch` needs to be defined (`Command.Fits`).

* `parseCommand_short`, `parseCommand_fits`: the arguments of a parsed command are short.
* `Command.quits`, `dispatch_quits`: the commands after which the connection is closed.
* `verdict`: what the parser says of an input, without the slots that it parses into.
* `commands`: the parser of `Lib.Parser`, with the laws that it asks for: a verdict is final, and a
  command consumes at least a byte.

A session depends on the bytes only, not on the pieces in which they arrive. That is the general
fact about such parsers, and `Proofs.Net` uses it for the loop of a connection.
-/

set_option autoImplicit false

namespace TinyRedis

open Lib

/-! ### Parsed arguments are short -/

/-- The first `n` slots hold at most `limit` bytes each. -/
def Command.Short (limit n : Nat) (cmd : Command) : Prop :=
  ∀ (j : Nat) (h : j < kMaxArgs), j < n → cmd.argv[j].length ≤ limit

/-- No argument of a parsed command is longer than a bulk string may be. -/
theorem parseCommand_short {input : Bytes} {out : Command}
    (hok : (parseCommand input out).1.status = .kOk) :
    (parseCommand input out).2.Short kMaxBulkLength kMaxArgs := by
  intro j hj _
  exact (parseCommand_slot hok hj).2.1

/-- `dispatch` is defined on what the parser gives it. -/
theorem parseCommand_fits [EntryPool] {input : Bytes} {out : Command}
    (hok : (parseCommand input out).1.status = .kOk) : (parseCommand input out).2.Fits := by
  have hshort := parseCommand_short hok
  have h₁ := hshort 1 (by decide) (by decide)
  have h₂ := hshort 2 (by decide) (by decide)
  have hmax : kMaxBulkLength + kMaxBulkLength < 2 ^ 32 := by decide
  exact Nat.lt_of_le_of_lt (Nat.add_le_add h₁ h₂) hmax

/-! ### Sessions -/

/-- Whether `dispatch` closes the connection after the command: a QUIT. -/
def Command.quits (cmd : Command) : Bool :=
  cmd.argc ≠ 0 ∧ ∃ spec ∈ lookup (cmd.get 0), arityOk spec cmd.argc ∧ spec.cmd = .kQuit

/-- The connection is told to close after a QUIT, and after no other command. -/
theorem dispatch_quits [EntryPool] {s s' : Store} {cmd : Command} {now : Int64}
    {out out' : Buffer} {d : DispatchResult} (h : dispatch s cmd now out = some (d, s', out')) :
    d = .kCloseConnection ↔ cmd.quits = true := by
  unfold dispatch at h
  unfold Command.quits
  split at h
  · next hargc =>
    cases h
    simp [hargc]
  · next hargc =>
    split at h
    · next hlookup =>
      cases h
      simp [hlookup]
    · next spec hlookup =>
      split at h
      · next harity =>
        cases h
        simp [hlookup, harity]
      · next harity =>
        simp only [Option.bind_eq_bind, Option.bind_eq_some_iff] at h
        obtain ⟨⟨s₁, out₁⟩, -, h⟩ := h
        cases h
        rw [not_not] at harity
        by_cases hquit : spec.cmd = .kQuit <;> simp [hlookup, harity, hargc, hquit]

/-- What `parseCommand` says about the front of its input. -/
def verdict (input : Bytes) : Verdict Command Bytes :=
  let (res, cmd) := parseCommand input Command.empty
  match res.status with
  | .kIncomplete => .pending
  | .kProtocolError => .failed res.error
  | .kOk => .item cmd res.consumed

/-- The command that the caller reuses does not matter. -/
theorem verdict_eq (input : Bytes) (out : Command) :
    verdict input = match (parseCommand input out).1.status with
      | .kIncomplete => .pending
      | .kProtocolError => .failed (parseCommand input out).1.error
      | .kOk => .item (parseCommand input out).2 (parseCommand input out).1.consumed := by
  rw [verdict, parseCommand_reuse input out Command.empty]

/-- The verdict is open when the parse wants more bytes, whatever slots it has. -/
theorem verdict_pending_iff {input : Bytes} (out : Command) :
    verdict input = .pending ↔ (parseCommand input out).1.status = .kIncomplete := by
  rw [verdict_eq input out]
  cases (parseCommand input out).1.status <;> simp

/-- A command takes at least one byte and no more than there are. -/
theorem verdict_item {input : Bytes} {cmd : Command} {n : Nat}
    (h : verdict input = .item cmd n) : 0 < n ∧ n ≤ input.length := by
  have hwithin := parseCommand_consumed input Command.empty
  unfold verdict at h
  dsimp only at h
  split at h
  · cases h
  · cases h
  · next hok =>
    cases h
    rcases hwithin with ⟨-, hpos, hle⟩ | ⟨hnot, -⟩
    · exact ⟨hpos, hle⟩
    · exact absurd hok hnot

/-- The command parser, with QUIT as the last command of a session. -/
def commands : Parser UInt8 Command Bytes where
  next := verdict
  last := Command.quits
  item_pos h := (verdict_item h).1
  item_le h := (verdict_item h).2
  next_append := by
    intro s t h
    rw [Ne, verdict_pending_iff Command.empty] at h
    rw [verdict, verdict, parseCommand_append h t Command.empty]

end TinyRedis
