import TinyRedis.Core.Buffer
import TinyRedis.Lib.Decimal

/-!
# `TinyRedis.Core.Resp`: RESP2 request parsing and reply encoding

The model of `src/core/resp.h` and `src/core/resp.cpp`. A `std::string_view` is its bytes, and
`npos` is `none`. Offsets are `Nat`: an offset into an existing view, and a length bound plus two,
do not wrap. `char` is compared as an unsigned byte; the comparisons of the source are all against
ASCII ranges, where the sign of `char` makes no difference.

* `readLine` finds the end of a line within a window. In the array form a line ends at CRLF, in the
  inline form at LF, with a CR before it or not.
* `takeBytes` takes the payload of a bulk string, which may contain any byte.
* `readInt` reads the number of a header in canonical decimal. `headerValue` bounds it.
* `parseArray` and `parseInline` are the two forms of a request, each with its loop (`arrayElems`,
  `inlineWords`), and `parseCommand` decides between them by the first byte.
* The `reply` functions append one RESP value to a buffer.

An `argv` slot is written with the proof that it exists, which is what the bound on the argument
count is for. The loops of the parser thread the command that the caller reuses through all their
branches, since a parse that fails has written to it too.
-/

set_option autoImplicit false

namespace TinyRedis

/-- Carriage return. -/
def CR : UInt8 := 13

/-- Line feed. -/
def LF : UInt8 := 10

/-- The end of a line in the array form and in every reply. -/
def crlf : Bytes := [CR, LF]

/-- What can be wrong with a request. -/
inductive Error where
  | kArgLength
  | kBulkLength
  | kInlineLength
deriving DecidableEq, Repr

/-- The text of the reply that goes before the connection is closed. -/
def errorToString : Error → Bytes
  | .kArgLength => ascii "ERR Protocol error: invalid multibulk length"
  | .kBulkLength => ascii "ERR Protocol error: invalid bulk length"
  | .kInlineLength => ascii "ERR Protocol error: too big inline request"

/-- The most words a request may have. -/
def kMaxArgs : Nat := 16

/-- `cmd[0]` exists. -/
instance : NeZero kMaxArgs := ⟨by decide⟩

/-- The most bytes an argument may have in the array form. -/
def kMaxBulkLength : Nat := 64 * 1024 * 1024

/-- The most bytes a line may have in the inline form. -/
def kMaxInlineLength : Nat := 64 * 1024

/-- The most bytes a header line may have: a type byte and any 64-bit count fit. -/
def kMaxHeaderLength : Nat := 32

/-- One parsed command: `kMaxArgs` slots, of which the first `argc` count. -/
structure Command where
  argv : Vector Bytes kMaxArgs
  argc : Nat
  argc_le : argc ≤ kMaxArgs
deriving DecidableEq, Repr

/-- How a parse has ended. -/
inductive ParseStatus where
  | kOk
  | kIncomplete
  | kProtocolError
deriving DecidableEq, Repr

/-- The result of a parse. Only a parse that is `kOk` consumes anything. -/
structure ParseResult where
  status : ParseStatus := .kIncomplete
  consumed : Nat := 0
  error : Bytes := []
deriving DecidableEq, Repr

/-- How the search for a line has ended. `kBadTrailer` is for `takeBytes` only. -/
inductive LineStatus where
  | kFound
  | kIncomplete
  | kTooLong
  | kBadTrailer
deriving DecidableEq, Repr

/-- A line without its terminator, and the offset behind it. -/
structure Line where
  status : LineStatus := .kIncomplete
  text : Bytes := []
  next : Nat := 0
deriving DecidableEq, Repr

/-- What ends a line: CRLF, or also a bare LF. -/
inductive Framing where
  | kStrict
  | kInline
deriving DecidableEq, Repr

/-! ### `std::string_view` -/

/-- `s.find(c, start)`, for the bytes that `c` accepts. -/
def findFrom (c : UInt8 → Bool) (s : Bytes) (start : Nat) : Option Nat :=
  ((s.drop start).findIdx? c).map (· + start)

/-- `s.substr(start, n)`. -/
def substr (s : Bytes) (start n : Nat) : Bytes := (s.drop start).take n

/-! ### Lines -/

/-- The loop of `readLine` over the LFs of the window, from `start` on: the LF that ends the
line and whether a CR stands before it. A round moves past an LF, so `scan.length + 1` rounds
see them all. -/
def scanLine (scan : Bytes) (framing : Framing) : (rounds start : Nat) → Option (Nat × Bool)
  | 0, _ => none
  | rounds + 1, start =>
      match findFrom (· = LF) scan start with
      | none => none
      | some lf =>
          let cr : Bool := lf > 0 ∧ scan[lf - 1]? = some CR
          if cr ∨ framing = .kInline then some (lf, cr) else scanLine scan framing rounds (lf + 1)

/-- The line at `start`, of at most `maxLen` bytes. The window has room for the terminator too. -/
def readLine (input : Bytes) (start maxLen : Nat) (framing : Framing) : Line :=
  if start ≥ input.length then {}
  else
    let avail := input.length - start
    let window := min avail (maxLen + 2)
    let scan := substr input start window
    match scanLine scan framing (scan.length + 1) 0 with
    | none =>
        -- Only with the whole window in hand can a legal line still arriving be ruled out.
        if avail ≥ maxLen + 2 ∨ (avail = maxLen + 1 ∧ scan.getLast? ≠ some CR) then
          { status := .kTooLong }
        else {}
    | some (lf, cr) =>
        let len := if cr then lf - 1 else lf
        if len > maxLen then { status := .kTooLong }
        else { status := .kFound, text := substr input start len, next := start + lf + 1 }

/-- Takes exactly `len` bytes at `start` and checks that CRLF follows. -/
def takeBytes (input : Bytes) (start len : Nat) : Line :=
  if start > input.length then {}
  else
    let avail := input.length - start
    if avail < 2 ∨ len > avail - 2 then {}
    else if input[start + len]? ≠ some CR ∨ input[start + len + 1]? ≠ some LF then
      { status := .kBadTrailer }
    else { status := .kFound, text := substr input start len, next := start + len + 2 }

/-- `std::numeric_limits<std::size_t>::max()`. -/
def kLimit : Nat := 2 ^ 64 - 1

/-- The digit loop of `readInt`. -/
def readDigits : Bytes → (v : Nat) → Option Nat
  | [], v => some v
  | c :: s, v =>
      if c < 48 ∨ c > 57 then none
      else
        let d := (c - 48).toNat
        -- The source tests against the limit before it multiplies.
        if v > (kLimit - d) / 10 then none else readDigits s (v * 10 + d)

/-- Canonical unsigned decimal. -/
def readInt (s : Bytes) : Option Nat :=
  match s with
  | [] => none
  | c :: _ =>
      -- A leading zero is refused, so zero itself is a case of its own.
      if s = ascii "0" then some 0
      else if c < 49 ∨ c > 57 then none
      else readDigits s 0

/-- A header line: its type byte, then a number of at most `limit`. -/
def headerValue (line : Bytes) (type : UInt8) (limit : Nat) : Option { v : Nat // v ≤ limit } :=
  match line with
  | [] => none
  | c :: rest =>
      if c ≠ type then none
      else
        match readInt rest with
        | none => none
        | some v => if h : v > limit then none else some ⟨v, Nat.le_of_not_lt h⟩

/-! ### Commands -/

namespace Command

/-- `Command{}`. -/
def empty : Command :=
  { argv := Vector.replicate kMaxArgs [], argc := 0, argc_le := Nat.zero_le _ }

/-- `argv[i] = arg`. -/
def setArg (out : Command) (i : Nat) (arg : Bytes) (h : i < kMaxArgs) : Command :=
  { out with argv := out.argv.set i arg h }

/-- Sets `argc` and blanks the slots past it. -/
def publish (out : Command) (argc : Nat) (argc_le : argc ≤ kMaxArgs) : Command :=
  { argv := Vector.ofFn fun i => if i.val < argc then out.argv[i] else [], argc, argc_le }

/-- `detail::clear`. -/
def clear (_ : Command) : Command :=
  { argv := Vector.replicate kMaxArgs [], argc := 0, argc_le := Nat.zero_le _ }

/-- `cmd[i]`. -/
def get (cmd : Command) (i : Fin kMaxArgs) : Bytes := cmd.argv.get i

/-- The arguments of the command: `cmd[i]` for every `i < argc`. -/
def args (cmd : Command) : List Bytes := cmd.argv.toList.take cmd.argc

end Command

/-- More input is needed. -/
def incomplete : ParseResult := {}

/-- A protocol error, which consumes nothing. -/
def fail (e : Error) : ParseResult :=
  { status := .kProtocolError, error := errorToString e }

/-- What separates the words of the inline form. -/
def isBlank (c : UInt8) : Bool := c = 32 ∨ c = 9

/-- The word loop of `parseInline`, at `pos` with `n` words found. It stops with `none` at the
word after the last slot. A round moves past a word, so `text.length + 1` rounds see them
all. -/
def inlineWords (text : Bytes) : (rounds : Nat) → (pos : Option Nat) → (n : Nat) →
    n ≤ kMaxArgs → Command → Option { n : Nat // n ≤ kMaxArgs } × Command
  | 0, _, n, h, out => (some ⟨n, h⟩, out)
  | rounds + 1, pos, n, h, out =>
      match pos.bind (findFrom (!isBlank ·) text) with
      | none => (some ⟨n, h⟩, out)
      | some start =>
          let pos := findFrom isBlank text start
          -- a word, and no slot left for it
          if hn : n = kMaxArgs then (none, out)
          else
            let word := match pos with
              | none => text.drop start
              | some pos => substr text start (pos - start)
            have hlt : n < kMaxArgs := Nat.lt_of_le_of_ne h hn
            inlineWords text rounds pos (n + 1) hlt (out.setArg n word hlt)

/-- A line of words. A line without words is a command without arguments. -/
def parseInline (input : Bytes) (out : Command) : ParseResult × Command :=
  let line := readLine input 0 kMaxInlineLength .kInline
  match line.status with
  | .kIncomplete => (incomplete, out)
  | .kTooLong => (fail .kInlineLength, out)
  | _ =>
      match inlineWords line.text (line.text.length + 1) (some 0) 0 (Nat.zero_le _) out with
      | (none, out) => (fail .kArgLength, out)
      -- Slots that an earlier command has used are blanked.
      | (some n, out) => ({ status := .kOk, consumed := line.next }, out.publish n n.property)

/-- The element loop of `parseArray`, at element `i` with `left` of them to come. -/
def arrayElems (input : Bytes) : (left i cursor : Nat) → i + left ≤ kMaxArgs → Command →
    ParseResult × Command
  | 0, i, cursor, h, out => ({ status := .kOk, consumed := cursor }, out.publish i h)
  | left + 1, i, cursor, h, out =>
      let elem := readLine input cursor kMaxHeaderLength .kStrict
      match elem.status with
      | .kIncomplete => (incomplete, out)
      | .kTooLong => (fail .kBulkLength, out)
      | _ =>
          match headerValue elem.text 36 kMaxBulkLength with
          | none => (fail .kBulkLength, out)
          | some len =>
              let payload := takeBytes input elem.next len
              match payload.status with
              | .kIncomplete => (incomplete, out)
              | .kBadTrailer => (fail .kBulkLength, out)
              | _ =>
                  arrayElems input left (i + 1) payload.next
                    (by omega) (out.setArg i payload.text (by omega))

/-- A header with the number of arguments, and then each of them as a bulk string. -/
def parseArray (input : Bytes) (out : Command) : ParseResult × Command :=
  let header := readLine input 0 kMaxHeaderLength .kStrict
  match header.status with
  | .kIncomplete => (incomplete, out)
  | .kTooLong => (fail .kArgLength, out)
  | _ =>
      match headerValue header.text 42 kMaxArgs with
      | none => (fail .kArgLength, out)
      | some count =>
          arrayElems input count 0 header.next (by have := count.property; omega) out

/-- Parses one command, array or inline form, from the front of `input`. `out` is the command
the caller reuses. -/
def parseCommand (input : Bytes) (out : Command) : ParseResult × Command :=
  if input.isEmpty then (incomplete, out.clear)
  else
    let (res, out) := if input.head? = some 42 then parseArray input out
      else parseInline input out
    -- arguments of a parse that failed do not stay behind
    if res.status ≠ .kOk then (res, out.clear) else (res, out)

/-! ### Reply encoders -/

/-- `std::to_chars` of an integer: canonical decimal. -/
def toChars (v : Int) : Bytes :=
  if v < 0 then 45 :: Lib.decimal v.natAbs else Lib.decimal v.natAbs

/-- A type byte, a text and CRLF. -/
def appendLine (out : Buffer) (type : UInt8) (body : Bytes) : Buffer :=
  ((out.appendByte type).append body).append crlf

/-- The 24 bytes on the stack hold the digits of any 64-bit value. -/
def appendNumber (out : Buffer) (type : UInt8) (v : Int) : Buffer :=
  appendLine out type (toChars v)

namespace reply

/-- `+s`. -/
def simpleString (out : Buffer) (s : Bytes) : Buffer := appendLine out 43 s

/-- `-msg`. -/
def error (out : Buffer) (msg : Bytes) : Buffer := appendLine out 45 msg

/-- `:v`. -/
def integer (out : Buffer) (v : Int64) : Buffer := appendNumber out 58 v.toInt

/-- `$n` and the bytes. They may contain anything. -/
def bulk (out : Buffer) (s : Bytes) : Buffer :=
  ((appendNumber out 36 s.length).append s).append crlf

/-- The reply for a key that is not there. -/
def nullBulk (out : Buffer) : Buffer := out.append (ascii "$-1\r\n")

end reply

end TinyRedis
