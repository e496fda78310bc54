import TinyRedis.Core.Command
import TinyRedis.Proofs.Resp.Replies

/-!
# `TinyRedis.Proofs.Command.Emits`: a command writes one reply

`Emits` says of a handler that it writes one well-formed reply and that neither the reply nor the
store after it depends on the output buffer. It composes with the calls into the store, so each
handler is shown to emit by its own shape (`handle_emits`). `dispatch_emits` is the same for
commands of any name and arity.

* `Emits.simpleString`, `error`, `integer`, `bulk`, `nullBulk`: the five functions of `reply`.
* `Emits.bind`: a handler that first calls the store emits if its rest does.
* `cmdSet_emits` and so on: the handlers, one by one.
* `Answered`: a command has one reply, unless it is the empty command, which has none.
* `dispatch_set`, `dispatch_set_ok`: `SET` through the dispatcher, for the modules that follow what
  a `SET` does.

A reply is well formed when a client can tell where it ends: a simple string or an error is one line
(`LineText`). The texts of the source are lines by inspection. The only text with bytes of a client
in it is that of an unknown command, and `appendSanitized` has taken the line breaks out
(`unknownCommand_eq`).
-/

set_option autoImplicit false

namespace TinyRedis

/-! ### Text on one line -/

/-- Two pieces of a line are a line. -/
theorem LineText.append {s t : Bytes} (hs : LineText s) (ht : LineText t) : LineText (s ++ t) := by
  simp only [LineText, List.mem_append, not_or]
  exact ⟨⟨hs.1, ht.1⟩, hs.2, ht.2⟩

/-- What a client sent is echoed without its line breaks. -/
theorem lineText_appendSanitized {dst : Bytes} (hdst : LineText dst) (s : Bytes) :
    LineText (appendSanitized dst s) := by
  refine hdst.append ⟨fun h => ?_, fun h => ?_⟩
  all_goals
    obtain ⟨c, -, hc⟩ := List.mem_map.mp h
    split at hc
    · exact absurd hc (by decide)
    · next hbreak =>
      subst hc
      simp at hbreak

/-- The command names of the table, as they stand in error replies. -/
theorem lineText_name {name : Bytes} {spec : Spec} (h : lookup name = some spec) :
    LineText spec.name := by
  have hall : ∀ spec ∈ kSpecs, LineText spec.name := by decide
  exact hall spec (List.mem_of_find?_eq_some h)

/-- The message for an unknown command. -/
theorem unknownCommand_eq (cmd : Command) :
    ∃ msg, LineText msg ∧ ∀ out, unknownCommand cmd out = reply.error out msg := by
  refine ⟨_, ?_, fun out => rfl⟩
  have hloop : ∀ (args : List Bytes) (msg : Bytes), LineText msg → LineText (args.foldl
      (fun msg arg => appendSanitized (msg ++ ascii "'") arg ++ ascii "' ") msg) := by
    intro args
    induction args with
    | nil =>
      intro msg hmsg
      exact hmsg
    | cons arg args ih =>
      intro msg hmsg
      refine ih _ (LineText.append ?_ (by decide))
      exact lineText_appendSanitized (hmsg.append (by decide)) arg
  exact hloop _ _ ((lineText_appendSanitized (by decide) _).append (by decide))

/-! ### Replies of a command -/

/-- The output after a command, given its reply. -/
def emitReply (out : Buffer) (r : Option RespReply) : Buffer := r.elim out fun r => r.emit out

/-- The bytes of a command's reply. -/
def replyBytes (r : Option RespReply) : Bytes := r.elim [] RespReply.encode

/-- A reply goes behind what is already in the buffer. -/
@[simp] theorem readable_emitReply (out : Buffer) (r : Option RespReply) :
    (emitReply out r).readable = out.readable ++ replyBytes r := by
  cases r with
  | none => simp [emitReply, replyBytes]
  | some r => simp [emitReply, replyBytes]

/-- A command has a reply exactly when it has a name. -/
structure Answered (cmd : Command) (r : Option RespReply) : Prop where
  isSome_iff : r.isSome = true ↔ cmd.argc > 0
  wellFormed : ∀ x ∈ r, x.WellFormed

/-- A command with a name is answered by a reply that is well formed. -/
theorem Answered.some {cmd : Command} (h : cmd.argc ≠ 0) {r : RespReply} (hr : r.WellFormed) :
    Answered cmd (.some r) :=
  ⟨⟨fun _ => Nat.pos_of_ne_zero h, fun _ => rfl⟩, fun x hx => by cases hx; exact hr⟩

variable [EntryPool]

/-- The handler writes one well-formed reply, and what it does else does not depend on the
buffer. -/
def Emits (f : Buffer → Option (Store × Buffer)) : Prop :=
  ∃ res : Option (Store × RespReply), (∀ x ∈ res, x.2.WellFormed) ∧
    ∀ out, f out = res.map fun x => (x.1, x.2.emit out)

namespace Emits

/-- A handler that only writes a reply. -/
theorem reply (s : Store) {r : RespReply} (h : r.WellFormed) :
    Emits fun out => some (s, r.emit out) := by
  refine ⟨some (s, r), fun x hx => ?_, fun out => rfl⟩
  cases hx
  exact h

/-- A simple string of one line is well formed. -/
theorem simpleString (s : Store) {text : Bytes} (h : LineText text) :
    Emits fun out => some (s, reply.simpleString out text) :=
  Emits.reply s (r := .simpleString text) h

/-- An error message of one line is well formed. -/
theorem error (s : Store) {msg : Bytes} (h : LineText msg) :
    Emits fun out => some (s, reply.error out msg) :=
  Emits.reply s (r := .error msg) h

/-- An integer is well formed, whatever it is. -/
theorem integer (s : Store) (v : Int64) : Emits fun out => some (s, reply.integer out v) :=
  Emits.reply s (r := .integer v) trivial

/-- A bulk string is well formed, since it has its length in front. -/
theorem bulk (s : Store) (text : Bytes) : Emits fun out => some (s, reply.bulk out text) :=
  Emits.reply s (r := .bulk text) trivial

/-- The null bulk is well formed. -/
theorem nullBulk (s : Store) : Emits fun out => some (s, reply.nullBulk out) :=
  Emits.reply s (r := .nullBulk) trivial

/-- A call before the handler, which may be undefined. -/
theorem bind {α : Type} {a : Option α} {f : α → Buffer → Option (Store × Buffer)}
    (h : ∀ x, Emits (f x)) : Emits fun out => a.bind fun x => f x out := by
  cases a with
  | none => exact ⟨none, nofun, fun out => rfl⟩
  | some x => exact h x

end Emits

/-! ### The handlers -/

section Handlers

variable (s : Store) (cmd : Command) (now : Int64)

/-- `SET`: an error of its options, `OK`, or an error of the store. -/
theorem cmdSet_emits : Emits (cmdSet s cmd now) := by
  unfold cmdSet
  cases setOptions now (cmd.args.drop 3) kNoExpiry false with
  | error e =>
    cases e with
    | syntaxError => exact Emits.error s (by decide)
    | notInteger => exact Emits.error s (by decide)
    | invalidExpire => exact Emits.error s (by decide)
  | ok expireAt =>
    refine Emits.bind fun ⟨stored, s⟩ => ?_
    cases stored with
    | false => exact Emits.error s (by decide)
    | true => exact Emits.simpleString s (by decide)

/-- `EXPIRE`: an error, or whether the key is there. -/
theorem cmdExpire_emits : Emits (cmdExpire s cmd now) := by
  unfold cmdExpire
  cases parseInt (cmd.get 2) with
  | none => exact Emits.error s (by decide)
  | some secs =>
    dsimp only
    by_cases hsecs : secs ≤ 0
    · simp only [if_pos hsecs]
      exact Emits.bind fun ⟨erased, s⟩ => Emits.integer s _
    · simp only [if_neg hsecs]
      cases deadline secs kMsPerSec now with
      | none => exact Emits.error s (by decide)
      | some expireAt => exact Emits.bind fun ⟨updated, s⟩ => Emits.integer s _

/-- `TTL`: an integer. -/
theorem cmdTtl_emits : Emits (cmdTtl s cmd now) :=
  Emits.bind fun ⟨_, s⟩ => Emits.integer s _

/-- `GET`: the value, or the null bulk. -/
theorem cmdGet_emits : Emits (cmdGet s cmd now) := by
  refine Emits.bind fun ⟨e, s⟩ => ?_
  cases e with
  | none => exact Emits.nullBulk s
  | some p => exact Emits.bind fun e => Emits.bind fun value => Emits.bulk s value

/-- `DEL`: how many keys were there. -/
theorem cmdDel_emits : Emits (cmdDel s cmd now) :=
  Emits.bind fun ⟨s, n⟩ => Emits.integer s n

/-- `EXISTS`: the same. -/
theorem cmdExists_emits : Emits (cmdExists s cmd now) :=
  Emits.bind fun ⟨s, n⟩ => Emits.integer s n

/-- `PING`: the argument, or `PONG`. -/
theorem cmdPing_emits : Emits fun out => some (s, cmdPing cmd out) := by
  unfold cmdPing
  by_cases hmany : cmd.argc > 2
  · simp only [if_pos hmany]
    exact Emits.error s (by decide)
  · simp only [if_neg hmany]
    by_cases htwo : cmd.argc = 2
    · simp only [if_pos htwo]
      exact Emits.bulk s _
    · simp only [if_neg htwo]
      exact Emits.simpleString s (by decide)

/-- `FLUSHALL`: `OK`. -/
theorem cmdFlushall_emits : Emits (cmdFlushall s cmd) := by
  unfold cmdFlushall
  split
  · exact Emits.error s (by decide)
  · exact Emits.bind fun s => Emits.simpleString s (by decide)

/-- The handler of every command emits. -/
theorem handle_emits (c : Cmd) : Emits (handle s c cmd now) := by
  cases c with
  | kGet => exact cmdGet_emits s cmd now
  | kSet => exact cmdSet_emits s cmd now
  | kDel => exact cmdDel_emits s cmd now
  | kExists => exact cmdExists_emits s cmd now
  | kExpire => exact cmdExpire_emits s cmd now
  | kTtl => exact cmdTtl_emits s cmd now
  | kPing => exact cmdPing_emits s cmd
  | kEcho => exact Emits.bulk s _
  | kDbsize => exact Emits.integer s _
  | kFlushall => exact cmdFlushall_emits s cmd
  | kQuit => exact Emits.simpleString s (by decide)

end Handlers

/-! ### Dispatch -/

/-- `dispatch` writes the one reply of the command. Neither the reply nor the rest of the result
depends on the buffer. -/
theorem dispatch_emits (s : Store) (cmd : Command) (now : Int64) :
    ∃ res : Option (DispatchResult × Store × Option RespReply),
      (∀ x ∈ res, Answered cmd x.2.2) ∧
      ∀ out, dispatch s cmd now out = res.map fun x => (x.1, x.2.1, emitReply out x.2.2) := by
  unfold dispatch
  by_cases hargc : cmd.argc = 0
  · -- An empty command has no reply.
    refine ⟨some (.kContinue, s, none), fun x hx => ?_, fun out => by rw [if_pos hargc]; rfl⟩
    cases hx
    exact ⟨⟨nofun, fun h => by omega⟩, nofun⟩
  simp only [if_neg hargc]
  cases hlookup : lookup (cmd.get 0) with
  | none =>
    obtain ⟨msg, hmsg, heq⟩ := unknownCommand_eq cmd
    refine ⟨some (.kContinue, s, some (.error msg)), fun x hx => ?_, fun out => ?_⟩
    · cases hx
      exact .some hargc hmsg
    · simp only [heq]
      rfl
  | some spec =>
    dsimp only
    by_cases harity : ¬ arityOk spec cmd.argc
    · simp only [if_pos harity]
      have hfront : LineText (ascii "ERR wrong number of arguments for '") := by decide
      have hmsg := (hfront.append (lineText_name hlookup)).append
        (show LineText (ascii "' command") by decide)
      refine ⟨some (.kContinue, s, some (.error _)), fun x hx => ?_, fun out => rfl⟩
      cases hx
      exact .some hargc hmsg
    · simp only [if_neg harity]
      obtain ⟨res, hwf, hres⟩ := handle_emits s cmd now spec.cmd
      refine ⟨res.map fun x =>
        (if spec.cmd = .kQuit then .kCloseConnection else .kContinue, x.1, some x.2), ?_, ?_⟩
      · intro x hx
        obtain ⟨y, hy, rfl⟩ := Option.mem_map.mp hx
        exact .some hargc (hwf y hy)
      · intro out
        rw [hres out]
        cases res <;> rfl

/-! ### SET -/

omit [EntryPool] in
/-- A SET command with its key and its value. -/
def Command.IsSet (cmd : Command) : Prop :=
  (lookup (cmd.get 0)).map Spec.cmd = some .kSet ∧ 3 ≤ cmd.argc

omit [EntryPool] in
/-- Whether a command is a `SET` can be checked. -/
instance (cmd : Command) : Decidable cmd.IsSet := inferInstanceAs (Decidable (_ ∧ _))

/-- A `SET` reaches its handler. -/
theorem dispatch_set {cmd : Command} (h : cmd.IsSet) (s : Store) (now : Int64) (out : Buffer) :
    dispatch s cmd now out
      = (cmdSet s cmd now out).map fun x => (.kContinue, x.1, x.2) := by
  obtain ⟨spec, hlookup, hcmd⟩ := Option.map_eq_some_iff.mp h.1
  -- There is one SET in the table, and its arity is a minimum of three.
  have hall : ∀ spec ∈ kSpecs, spec.cmd = .kSet → spec.arity = -3 := by decide
  have harity := hall spec (List.mem_of_find?_eq_some hlookup) hcmd
  have hargc := h.2
  have hok : arityOk spec cmd.argc = true := by
    rw [arityOk, harity, if_neg (by decide)]
    exact decide_eq_true (by omega)
  rw [dispatch, if_neg (by omega), hlookup]
  simp only [hok, not_true_eq_false, if_false, hcmd, handle]
  cases cmdSet s cmd now out <;> rfl

/-- A SET whose options are right is a call of `set`, and its reply says whether it was stored. -/
theorem dispatch_set_ok {cmd : Command} (h : cmd.IsSet) {s s' : Store} {now expireAt : Int64}
    {stored : Bool} (hopts : setOptions now (cmd.args.drop 3) kNoExpiry false = .ok expireAt)
    (hset : s.set (cmd.get 1) (cmd.get 2) expireAt now = some (stored, s')) (out : Buffer) :
    dispatch s cmd now out = some (.kContinue, s',
      if stored then reply.simpleString out (ascii "OK") else reply.error out kOom) := by
  rw [dispatch_set h, cmdSet, hopts]
  cases stored <;> simp [hset]

end TinyRedis
