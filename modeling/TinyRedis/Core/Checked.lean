import TinyRedis.Core.Command

/-!
# `TinyRedis.Core.Checked`: the signed arithmetic of the commands, overflow undefined

`TinyRedis.Core.Command` and `TinyRedis.Core.Store` compute with `Int64`, whose operations wrap. In
the source a sum, a difference or a product of two `std::int64_t` that leaves the range of the type
is undefined, and a quotient is undefined for a divisor of zero. A compiler may assume that it does
not happen, so nothing that the wrapped value gives can be relied on.

This module has the functions with signed arithmetic once more, operation by operation as the source
has them, and `none` where an operation is undefined:

* `add`, `sub`, `mul` and `div` are the four operations.
* `deadline` and `setOptions` compute the deadline that SET and EXPIRE ask for.
* `ttlMs` subtracts the time from a deadline, and `cmdTtl` rounds the rest to seconds.
* `delStep` and `existsStep` count keys.

The other handlers have no signed arithmetic and are the ones of `TinyRedis.Core.Command`. Times are
otherwise only compared, and the clock of the LRU is unsigned.

Where a function of this module is defined, the one of the same name in the model gives the same
result, and both are defined alike while the clock is at least 500
(`TinyRedis.Proofs.Command.Checked`).
-/

set_option autoImplicit false

namespace TinyRedis

/-- An integer that `std::int64_t` holds. -/
def InInt64 (v : Int) : Prop := -2 ^ 63 ≤ v ∧ v ≤ 2 ^ 63 - 1

/-- Whether an operation overflows can be computed. -/
instance (v : Int) : Decidable (InInt64 v) := inferInstanceAs (Decidable (_ ∧ _))

namespace Checked

/-! ### Operations -/

/-- `a + b`. -/
def add (a b : Int64) : Option Int64 := if InInt64 (a.toInt + b.toInt) then some (a + b) else none

/-- `a - b`. -/
def sub (a b : Int64) : Option Int64 := if InInt64 (a.toInt - b.toInt) then some (a - b) else none

/-- `a * b`. -/
def mul (a b : Int64) : Option Int64 := if InInt64 (a.toInt * b.toInt) then some (a * b) else none

/-- `a / b`, which rounds towards zero. -/
def div (a b : Int64) : Option Int64 :=
  if b ≠ 0 ∧ InInt64 (a.toInt.tdiv b.toInt) then some (a / b) else none

/-! ### Functions without a store -/

/-- `deadline`. The inner option is the `std::optional` of the source. -/
def deadline (n unitMs now : Int64) : Option (Option Int64) := do
  let remaining ← sub Int64.maxValue now
  let bound ← div remaining unitMs
  if n > bound then return none
  else
    let product ← mul n unitMs
    let sum ← add now product
    return some sum

/-- The option loop of `cmdSet`. A number that is not positive gets no deadline. -/
def setOptions (now : Int64) : List Bytes → (expireAt : Int64) → (haveExpiryOpt : Bool) →
    Option (Except SetError Int64)
  | [], expireAt, _ => some (.ok expireAt)
  | opt :: rest, _, haveExpiryOpt =>
      if iequals opt (ascii "keepttl") ∧ ¬ haveExpiryOpt then setOptions now rest kKeepTtl true
      else
        let ex := iequals opt (ascii "ex")
        match rest with
        | [] => some (.error .syntaxError)
        | arg :: rest =>
            if ¬ (ex ∨ iequals opt (ascii "px")) ∨ haveExpiryOpt then some (.error .syntaxError)
            else
              match parseInt arg with
              | none => some (.error .notInteger)
              | some n =>
                  (if n > 0 then deadline n (if ex then kMsPerSec else 1) now else some none).bind
                    fun
                    | none => some (.error .invalidExpire)
                    | some expireAt => setOptions now rest expireAt true

variable [EntryPool]

/-! ### Handlers -/

/-- `cmdSet`. -/
def cmdSet (s : Store) (cmd : Command) (now : Int64) (out : Buffer) : Option (Store × Buffer) := do
  match ← setOptions now (cmd.args.drop 3) kNoExpiry false with
  | .error .syntaxError => return (s, reply.error out kSyntax)
  | .error .notInteger => return (s, reply.error out kNotInteger)
  | .error .invalidExpire => return (s, invalidExpire (ascii "set") out)
  | .ok expireAt =>
      let (stored, s) ← s.set (cmd.get 1) (cmd.get 2) expireAt now
      if ¬ stored then return (s, reply.error out kOom)
      else return (s, reply.simpleString out (ascii "OK"))

/-- `cmdExpire`. -/
def cmdExpire (s : Store) (cmd : Command) (now : Int64) (out : Buffer) :
    Option (Store × Buffer) :=
  match parseInt (cmd.get 2) with
  | none => some (s, reply.error out kNotInteger)
  | some secs =>
      if secs ≤ 0 then do
        let (erased, s) ← s.erase (cmd.get 1) now
        return (s, reply.integer out (if erased then 1 else 0))
      else do
        match ← deadline secs kMsPerSec now with
        | none => return (s, invalidExpire (ascii "expire") out)
        | some expireAt =>
            let (updated, s) ← s.setExpireAt (cmd.get 1) expireAt now
            return (s, reply.integer out (if updated then 1 else 0))

/-- `Store::ttlMs`. -/
def ttlMs (s : Store) (key : Bytes) (now : Int64) : Option (Int64 × Store) := do
  let (found, s) ← s.lookup key now
  match found with
  | none => return (-2, s)
  | some p =>
      let e ← s.table.mem p
      if e.expiresAtMs = kNoExpiry then return (kNoExpiry, s)
      else return (← sub e.expiresAtMs now, s)

/-- `ms < 0 ? ms : (ms + kMsPerSec / 2) / kMsPerSec`. -/
def seconds (ms : Int64) : Option Int64 := do
  if ms < 0 then return ms
  else
    let half ← div kMsPerSec 2
    let sum ← add ms half
    div sum kMsPerSec

/-- `cmdTtl`. -/
def cmdTtl (s : Store) (cmd : Command) (now : Int64) (out : Buffer) : Option (Store × Buffer) := do
  let (ms, s) ← ttlMs s (cmd.get 1) now
  return (s, reply.integer out (← seconds ms))

/-- The loop body of `cmdDel`. -/
def delStep (now : Int64) : Store × Int64 → Bytes → Option (Store × Int64)
  | (s, n), key => do
      let (erased, s) ← s.erase key now
      return (s, ← add n (if erased then 1 else 0))

/-- `cmdDel`. -/
def cmdDel (s : Store) (cmd : Command) (now : Int64) (out : Buffer) : Option (Store × Buffer) := do
  let (s, n) ← (cmd.args.drop 1).foldlM (delStep now) (s, 0)
  return (s, reply.integer out n)

/-- The loop body of `cmdExists`. -/
def existsStep (now : Int64) : Store × Int64 → Bytes → Option (Store × Int64)
  | (s, n), key => do
      let (e, s) ← s.find key now false
      return (s, ← add n (if e.isSome then 1 else 0))

/-- `cmdExists`. -/
def cmdExists (s : Store) (cmd : Command) (now : Int64) (out : Buffer) :
    Option (Store × Buffer) := do
  let (s, n) ← (cmd.args.drop 1).foldlM (existsStep now) (s, 0)
  return (s, reply.integer out n)

/-- The handler of a command whose arity is right. -/
def handle (s : Store) (c : Cmd) (cmd : Command) (now : Int64) (out : Buffer) :
    Option (Store × Buffer) :=
  match c with
  | .kSet => cmdSet s cmd now out
  | .kDel => cmdDel s cmd now out
  | .kExists => cmdExists s cmd now out
  | .kExpire => cmdExpire s cmd now out
  | .kTtl => cmdTtl s cmd now out
  | .kGet | .kPing | .kEcho | .kDbsize | .kFlushall | .kQuit => TinyRedis.handle s c cmd now out

/-- `dispatch`. -/
def dispatch (s : Store) (cmd : Command) (now : Int64) (out : Buffer) :
    Option (DispatchResult × Store × Buffer) :=
  if cmd.argc = 0 then some (.kContinue, s, out)
  else
    match lookup (cmd.get 0) with
    | none => some (.kContinue, s, unknownCommand cmd out)
    | some spec =>
        if ¬ arityOk spec cmd.argc then some (.kContinue, s, wrongArity spec.name out)
        else do
          let (s, out) ← handle s spec.cmd cmd now out
          return (if spec.cmd = .kQuit then .kCloseConnection else .kContinue, s, out)

end Checked

end TinyRedis
