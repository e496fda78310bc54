import TinyRedis.Core.Resp
import TinyRedis.Core.Store

/-!
# `TinyRedis.Core.Command`: command dispatch

The model of `src/core/command.h` and `src/core/command.cpp`. A handler takes the store and the
output buffer and gives both back, or `none` where the store is undefined. Loops over `cmd[i]` with
`i < argc` run over the list of arguments.

* `kSpecs` is the table of the commands, with the name in lower case and the arity.
* `lookup`, `iequals` and `arityOk` find the command of a request.
* `parseInt`, `deadline` and `setOptions` read numbers and options. `setOptions` is the loop of
  `cmdSet` over its options, with the error that the handler then replies.
* `cmdSet` to `cmdFlushall` are the handlers, `handle` is the `switch` over them, and `dispatch` is
  the entry point: an empty request is nothing, an unknown name and a wrong arity are errors, and
  QUIT is the one command after which the caller closes the connection.

`Int64` arithmetic wraps. In the source the overflow of a signed operation is undefined.
`TinyRedis.Core.Checked` has the functions of this module that compute with signed numbers once
more, with `none` in that case, and `TinyRedis.Proofs.Command.Checked` says when the two agree.
-/

set_option autoImplicit false

namespace TinyRedis

/-- What the connection does after a command. -/
inductive DispatchResult where
  | kContinue
  | kCloseConnection
deriving DecidableEq, Repr

/-- The commands of the table. -/
inductive Cmd where
  | kGet
  | kSet
  | kDel
  | kExists
  | kExpire
  | kTtl
  | kPing
  | kEcho
  | kDbsize
  | kFlushall
  | kQuit
deriving DecidableEq, Repr

/-- A command of the table. Its arity counts the name: positive is exact, negative a minimum. -/
structure Spec where
  name : Bytes
  cmd : Cmd
  arity : Int
deriving DecidableEq, Repr

/-- The commands with their arities, in the order of the source. -/
def kSpecs : List Spec :=
  [{ name := ascii "get", cmd := .kGet, arity := 2 },
   { name := ascii "set", cmd := .kSet, arity := -3 },
   { name := ascii "del", cmd := .kDel, arity := -2 },
   { name := ascii "exists", cmd := .kExists, arity := -2 },
   { name := ascii "expire", cmd := .kExpire, arity := 3 },
   { name := ascii "ttl", cmd := .kTtl, arity := 2 },
   { name := ascii "ping", cmd := .kPing, arity := -1 },
   { name := ascii "echo", cmd := .kEcho, arity := 2 },
   { name := ascii "dbsize", cmd := .kDbsize, arity := 1 },
   { name := ascii "flushall", cmd := .kFlushall, arity := -1 },
   { name := ascii "quit", cmd := .kQuit, arity := -1 }]

/-- The milliseconds of a second. -/
def kMsPerSec : Int64 := 1000

/-- The reply to an argument that is no number. -/
def kNotInteger : Bytes := ascii "ERR value is not an integer or out of range"

/-- The reply to options that are not understood. -/
def kSyntax : Bytes := ascii "ERR syntax error"

/-- The reply to a SET that the full store has refused. -/
def kOom : Bytes := ascii "OOM command not allowed when used memory > 'maxmemory'."

/-- ASCII lower case. -/
def lower (c : UInt8) : UInt8 := if c ≥ 65 ∧ c ≤ 90 then c - 65 + 97 else c

/-- The loop of `iequals`, over views of one length. -/
def iequalsLoop : Bytes → Bytes → Bool
  | c :: s, d :: lowerRef => if lower c ≠ d then false else iequalsLoop s lowerRef
  | _, _ => true

/-- Equal up to the ASCII case of `s`. The reference is in lower case already. -/
def iequals (s lowerRef : Bytes) : Bool :=
  if s.length ≠ lowerRef.length then false else iequalsLoop s lowerRef

/-- The command with this name. -/
def lookup (name : Bytes) : Option Spec := kSpecs.find? fun s => iequals name s.name

/-- Whether a request of `argc` words, the name included, has the arity of the command. -/
def arityOk (spec : Spec) (argc : Nat) : Bool :=
  if spec.arity > 0 then argc = spec.arity else argc ≥ -spec.arity

/-- `std::from_chars` on `std::int64_t`: an optional minus sign and the longest run of digits.
Without a digit, or out of range, it fails. Otherwise it gives the value and the bytes that it
did not read. -/
def fromChars (s : Bytes) : Option (Int64 × Bytes) :=
  let (negative, rest) := match s with
    | 45 :: rest => (true, rest)
    | _ => (false, s)
  let digits := rest.takeWhile fun c => decide (Lib.IsDigit c)
  let v : Int := if negative then -Lib.value digits 0 else Lib.value digits 0
  if digits.isEmpty then none
  else if v < -2 ^ 63 ∨ v ≥ 2 ^ 63 then none
  else some (Int64.ofInt v, rest.dropWhile fun c => decide (Lib.IsDigit c))

/-- A number, with nothing before or behind it. -/
def parseInt (s : Bytes) : Option Int64 :=
  match fromChars s with
  | some (v, []) => some v
  | _ => none

/-- The absolute deadline, where it does not overflow. -/
def deadline (n unitMs now : Int64) : Option Int64 :=
  -- The test is on the quotient, so that the product and the sum are in range once it passes. The
  -- difference and the quotient are in range for a clock that is not negative.
  if n > (Int64.maxValue - now) / unitMs then none else some (now + n * unitMs)

/-- How much of a word an error echoes. -/
def kMaxEcho : Nat := 128

/-- Appends the front of a word that a client has sent, with blanks in place of CR and LF: a line
break in an error would end the reply early. -/
def appendSanitized (dst s : Bytes) : Bytes :=
  dst ++ (substr s 0 kMaxEcho).map fun c => if c = CR ∨ c = LF then 32 else c

/-- The reply to a name that is not in the table. It echoes the words of the request. -/
def unknownCommand (cmd : Command) (out : Buffer) : Buffer :=
  let msg := appendSanitized (ascii "ERR unknown command '") (cmd.get 0)
  let msg := msg ++ ascii "', with args beginning with: "
  let msg := (cmd.args.drop 1).foldl
    (fun msg arg => appendSanitized (msg ++ ascii "'") arg ++ ascii "' ") msg
  reply.error out msg

/-- The reply to a request of the wrong length. -/
def wrongArity (name : Bytes) (out : Buffer) : Buffer :=
  reply.error out (ascii "ERR wrong number of arguments for '" ++ name ++ ascii "' command")

/-- The reply to a deadline that is not in the future, or that is out of range. -/
def invalidExpire (name : Bytes) (out : Buffer) : Buffer :=
  reply.error out (ascii "ERR invalid expire time in '" ++ name ++ ascii "' command")

/-! ### Handlers -/

/-- How an option list fails. -/
inductive SetError where
  | syntaxError
  | notInteger
  | invalidExpire
deriving DecidableEq, Repr

/-- The option loop of `cmdSet`, over the arguments from `cmd[3]` on. -/
def setOptions (now : Int64) : List Bytes → (expireAt : Int64) → (haveExpiryOpt : Bool) →
    Except SetError Int64
  | [], expireAt, _ => .ok expireAt
  | opt :: rest, _, haveExpiryOpt =>
      if iequals opt (ascii "keepttl") ∧ ¬ haveExpiryOpt then setOptions now rest kKeepTtl true
      else
        -- A second expiry option falls through to here, and fails below.
        let ex := iequals opt (ascii "ex")
        match rest with
        | [] => .error .syntaxError
        | arg :: rest =>
            if ¬ (ex ∨ iequals opt (ascii "px")) ∨ haveExpiryOpt then .error .syntaxError
            else
              match parseInt arg with
              | none => .error .notInteger
              | some n =>
                  match if n > 0 then deadline n (if ex then kMsPerSec else 1) now else none with
                  | none => .error .invalidExpire
                  | some expireAt => setOptions now rest expireAt true

variable [EntryPool]

/-- SET key value, with options. A store that is full and does not evict refuses a new key. -/
def cmdSet (s : Store) (cmd : Command) (now : Int64) (out : Buffer) : Option (Store × Buffer) :=
  match setOptions now (cmd.args.drop 3) kNoExpiry false with
  | .error .syntaxError => some (s, reply.error out kSyntax)
  | .error .notInteger => some (s, reply.error out kNotInteger)
  | .error .invalidExpire => some (s, invalidExpire (ascii "set") out)
  | .ok expireAt => do
      let (stored, s) ← s.set (cmd.get 1) (cmd.get 2) expireAt now
      if ¬ stored then return (s, reply.error out kOom)
      else return (s, reply.simpleString out (ascii "OK"))

/-- A non-positive number of seconds deletes the key now. -/
def cmdExpire (s : Store) (cmd : Command) (now : Int64) (out : Buffer) : Option (Store × Buffer) :=
  match parseInt (cmd.get 2) with
  | none => some (s, reply.error out kNotInteger)
  | some secs =>
      if secs ≤ 0 then do
        let (erased, s) ← s.erase (cmd.get 1) now
        return (s, reply.integer out (if erased then 1 else 0))
      else
        match deadline secs kMsPerSec now with
        | none => some (s, invalidExpire (ascii "expire") out)
        | some expireAt => do
            let (updated, s) ← s.setExpireAt (cmd.get 1) expireAt now
            return (s, reply.integer out (if updated then 1 else 0))

/-- TTL key. The sum with half a second wraps for a deadline within half a second of the end of
`std::int64_t`, where the source is undefined (`Checked.cmdTtl`). -/
def cmdTtl (s : Store) (cmd : Command) (now : Int64) (out : Buffer) : Option (Store × Buffer) := do
  let (ms, s) ← s.ttlMs (cmd.get 1) now
  -- seconds, to the nearest; `-1` and `-2` as they are
  return (s, reply.integer out (if ms < 0 then ms else (ms + kMsPerSec / 2) / kMsPerSec))

/-- GET key, which counts as a use of the key. -/
def cmdGet (s : Store) (cmd : Command) (now : Int64) (out : Buffer) : Option (Store × Buffer) := do
  let (e, s) ← s.find (cmd.get 1) now true
  match e with
  | none => return (s, reply.nullBulk out)
  | some p => return (s, reply.bulk out (← (← s.table.mem p).value))

/-- The loop body of `cmdDel`. -/
def delStep (now : Int64) : Store × Int64 → Bytes → Option (Store × Int64)
  | (s, n), key => do
      let (erased, s) ← s.erase key now
      return (s, n + if erased then 1 else 0)

/-- DEL keys: the number of those that were there. A key that is named twice is deleted once. -/
def cmdDel (s : Store) (cmd : Command) (now : Int64) (out : Buffer) : Option (Store × Buffer) := do
  let (s, n) ← (cmd.args.drop 1).foldlM (delStep now) (s, 0)
  return (s, reply.integer out n)

/-- The loop body of `cmdExists`. -/
def existsStep (now : Int64) : Store × Int64 → Bytes → Option (Store × Int64)
  | (s, n), key => do
      let (e, s) ← s.find key now false
      return (s, n + if e.isSome then 1 else 0)

/-- Not a use, so no touch. -/
def cmdExists (s : Store) (cmd : Command) (now : Int64) (out : Buffer) :
    Option (Store × Buffer) := do
  let (s, n) ← (cmd.args.drop 1).foldlM (existsStep now) (s, 0)
  return (s, reply.integer out n)

omit [EntryPool] in
/-- PING, with an argument to echo or without. -/
def cmdPing (cmd : Command) (out : Buffer) : Buffer :=
  -- The arity of the command table is a lower bound only.
  if cmd.argc > 2 then wrongArity (ascii "ping") out
  else if cmd.argc = 2 then reply.bulk out (cmd.get 1)
  else reply.simpleString out (ascii "PONG")

/-- FLUSHALL, with `ASYNC` or `SYNC` or nothing. It is done at once in any case. -/
def cmdFlushall (s : Store) (cmd : Command) (out : Buffer) : Option (Store × Buffer) :=
  if cmd.argc > 2 ∨ (cmd.argc = 2 ∧ ¬ iequals (cmd.get 1) (ascii "async") ∧
      ¬ iequals (cmd.get 1) (ascii "sync")) then some (s, reply.error out kSyntax)
  else do return (← s.clear, reply.simpleString out (ascii "OK"))

/-- The handler of a command whose arity is right. -/
def handle (s : Store) (c : Cmd) (cmd : Command) (now : Int64) (out : Buffer) :
    Option (Store × Buffer) :=
  match c with
  | .kGet => cmdGet s cmd now out
  | .kSet => cmdSet s cmd now out
  | .kDel => cmdDel s cmd now out
  | .kExists => cmdExists s cmd now out
  | .kExpire => cmdExpire s cmd now out
  | .kTtl => cmdTtl s cmd now out
  | .kPing => some (s, cmdPing cmd out)
  | .kEcho => some (s, reply.bulk out (cmd.get 1))
  | .kDbsize => some (s, reply.integer out (Int64.ofNat s.size))
  | .kFlushall => cmdFlushall s cmd out
  | .kQuit => some (s, reply.simpleString out (ascii "OK"))

/-- One command: its reply at the end of `out`, and what becomes of the connection. -/
def dispatch (s : Store) (cmd : Command) (now : Int64) (out : Buffer) :
    Option (DispatchResult × Store × Buffer) :=
  if cmd.argc = 0 then some (.kContinue, s, out)
  else
    match lookup (cmd.get 0) with
    | none => some (.kContinue, s, unknownCommand cmd out)
    | some spec =>
        if ¬ arityOk spec cmd.argc then some (.kContinue, s, wrongArity spec.name out)
        else do
          -- QUIT is answered like the others; the caller closes.
          let (s, out) ← handle s spec.cmd cmd now out
          return (if spec.cmd = .kQuit then .kCloseConnection else .kContinue, s, out)

end TinyRedis
