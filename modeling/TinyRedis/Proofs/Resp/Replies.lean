import TinyRedis.Core.Resp
import TinyRedis.Proofs.Buffer

/-!
# `TinyRedis.Proofs.Resp.Replies`: the reply grammar

`decodeReply` is a client of RESP2: it takes one reply off the front of the stream. A simple string
or an error ends at the first CRLF and holds no CR or LF of its own; a bulk string is taken by its
length. What the encoders write decodes as one reply, with anything behind it
(`decodeReply_encode`), so a stream of replies decodes reply by reply (`decodeReplies_flatMap`).

* `RespReply`: the five replies that the server writes.
* `splitLine`, `readSigned`, `decodeReply`, `decodeStream`: the client.
* `RespReply.encode`: the bytes of a reply, as the protocol has them.
* `RespReply.emit`, `readable_emit`: the functions of `reply` append these bytes.
* `RespReply.WellFormed`: what a line may hold. The other replies may hold anything.

The client is written from the protocol and knows nothing of the server. It reads numbers by a
reader of its own, as integers; that `std::to_chars` writes what it reads is `readSigned_toChars`.
-/

set_option autoImplicit false

namespace TinyRedis

open Lib

/-- A RESP2 reply. -/
inductive RespReply where
  | simpleString (s : Bytes)
  | error (msg : Bytes)
  | integer (v : Int64)
  | bulk (s : Bytes)
  | nullBulk
deriving DecidableEq, Repr

/-- Text that fits on a line of the protocol. -/
def LineText (s : Bytes) : Prop := CR ∉ s ∧ LF ∉ s

/-- Whether a text is one line can be checked. -/
instance (s : Bytes) : Decidable (LineText s) := inferInstanceAs (Decidable (_ ∧ _))

/-! ### Decoding -/

/-- The bytes before the first CRLF and those after it. -/
def splitLine : Bytes → Option (Bytes × Bytes)
  | [] => none
  | c :: s =>
      if c = CR ∧ s.head? = some LF then some ([], s.tail)
      else (splitLine s).map fun (line, rest) => (c :: line, rest)

/-- A decimal with an optional minus sign. -/
def readSigned (line : Bytes) : Option Int :=
  if line.head? = some 45 then (ofDecimal line.tail).map fun n : Nat => -(n : Int)
  else (ofDecimal line).map fun n : Nat => (n : Int)

/-- An integer in canonical spelling, in the range of `std::int64_t`. -/
def decodeInteger (line : Bytes) : Option Int64 :=
  match readSigned line with
  | none => none
  | some v =>
      if toChars v = line ∧ -2 ^ 63 ≤ v ∧ v < 2 ^ 63 then some (Int64.ofInt v) else none

/-- One reply off the front of the stream, and what is left of it. -/
def decodeReply : Bytes → Option (RespReply × Bytes)
  | [] => none
  | type :: s => do
      let (line, rest) ← splitLine s
      if type = 43 then
        guard (LineText line)
        return (.simpleString line, rest)
      else if type = 45 then
        guard (LineText line)
        return (.error line, rest)
      else if type = 58 then return (.integer (← decodeInteger line), rest)
      else if type = 36 then
        if line = ascii "-1" then return (.nullBulk, rest)
        else
          let n ← ofDecimal line
          guard (substr rest n 2 = crlf)
          return (.bulk (rest.take n), rest.drop (n + 2))
      else none

/-- The replies of a stream, in at most `rounds` rounds, with nothing left over. -/
def decodeReplies : (rounds : Nat) → Bytes → Option (List RespReply)
  | _, [] => some []
  | 0, _ :: _ => none
  | rounds + 1, c :: s => do
      let (r, rest) ← decodeReply (c :: s)
      return r :: (← decodeReplies rounds rest)

/-- The replies of a stream. A reply is at least a byte long. -/
def decodeStream (s : Bytes) : Option (List RespReply) := decodeReplies s.length s

/-! ### Encoding -/

namespace RespReply

/-- The bytes of a reply. -/
def encode : RespReply → Bytes
  | .simpleString s => 43 :: s ++ crlf
  | .error msg => 45 :: msg ++ crlf
  | .integer v => 58 :: toChars v.toInt ++ crlf
  | .bulk s => 36 :: toChars s.length ++ crlf ++ s ++ crlf
  | .nullBulk => ascii "$-1\r\n"

/-- A reply whose line text is on one line. -/
def WellFormed : RespReply → Prop
  | .simpleString s => LineText s
  | .error msg => LineText msg
  | .integer _ | .bulk _ | .nullBulk => True

/-- The encoder of the reply. -/
def emit (out : Buffer) : RespReply → Buffer
  | .simpleString s => reply.simpleString out s
  | .error msg => reply.error out msg
  | .integer v => reply.integer out v
  | .bulk s => reply.bulk out s
  | .nullBulk => reply.nullBulk out

/-- A reply is appended to the buffer. -/
@[simp] theorem readable_emit (out : Buffer) (r : RespReply) :
    (r.emit out).readable = out.readable ++ r.encode := by
  cases r <;> simp [emit, encode, reply.simpleString, reply.error, reply.integer, reply.bulk,
    reply.nullBulk, appendNumber, appendLine]

/-- A reply has at least its type byte. -/
theorem encode_ne_nil (r : RespReply) : r.encode ≠ [] := by
  cases r <;> simp [encode, ascii]

end RespReply

/-! ### What is encoded decodes -/

/-- A line without a CR is split off at its CRLF. -/
theorem splitLine_crlf {s : Bytes} (h : CR ∉ s) (rest : Bytes) :
    splitLine (s ++ crlf ++ rest) = some (s, rest) := by
  induction s with
  | nil => rfl
  | cons c s ih =>
    rw [List.mem_cons, not_or] at h
    rw [List.cons_append, List.cons_append, splitLine, if_neg (fun hc => h.1 hc.1.symm), ih h.2]
    rfl

/-- A number is spelled without CR and LF. -/
theorem lineText_toChars (v : Int) : LineText (toChars v) := by
  have hdigits : ∀ c ∈ decimal v.natAbs, IsDigit c := fun c hc => isDigit_of_mem_decimal hc
  unfold toChars LineText
  split
  · simp only [List.mem_cons, not_or]
    exact ⟨⟨by decide, fun h => absurd (hdigits _ h) (by decide)⟩,
      by decide, fun h => absurd (hdigits _ h) (by decide)⟩
  · exact ⟨fun h => absurd (hdigits _ h) (by decide), fun h => absurd (hdigits _ h) (by decide)⟩

/-- The digits after an optional minus sign. -/
theorem toChars_cases (v : Int) :
    (v < 0 ∧ toChars v = 45 :: decimal v.natAbs) ∨ (0 ≤ v ∧ toChars v = decimal v.natAbs) := by
  unfold toChars
  by_cases hv : v < 0
  · exact Or.inl ⟨hv, if_pos hv⟩
  · exact Or.inr ⟨Int.not_lt.mp hv, if_neg hv⟩

/-- A number that was written is read back. -/
theorem readSigned_toChars (v : Int) : readSigned (toChars v) = some v := by
  rcases toChars_cases v with ⟨hneg, hchars⟩ | ⟨hpos, hchars⟩
  · rw [hchars, readSigned, List.head?_cons, if_pos rfl, List.tail_cons, ofDecimal_decimal,
      Option.map_some]
    congr 1
    omega
  · -- The first byte is a digit, so the sign branch is not taken.
    have hhead : (decimal v.natAbs).head? ≠ some 45 := by
      intro h
      exact absurd (isDigit_of_mem_decimal (List.mem_of_head? h)) (by decide)
    rw [hchars, readSigned, if_neg hhead, ofDecimal_decimal, Option.map_some]
    congr 1
    omega

/-- A number of 64 bits that was written is read back. -/
theorem decodeInteger_toChars (v : Int64) : decodeInteger (toChars v.toInt) = some v := by
  have hrange : -2 ^ 63 ≤ v.toInt ∧ v.toInt < 2 ^ 63 := ⟨v.le_toInt, v.toInt_lt⟩
  rw [decodeInteger, readSigned_toChars]
  exact (if_pos ⟨rfl, hrange⟩).trans (congrArg some (Int64.ofInt_toInt v))

/-- The length line of a bulk string. -/
theorem toChars_natCast (n : Nat) : toChars n = decimal n := by
  rw [toChars, if_neg (by omega), Int.natAbs_natCast]

/-- What an encoder writes decodes as that one reply, whatever follows it. -/
theorem decodeReply_encode {r : RespReply} (h : r.WellFormed) (rest : Bytes) :
    decodeReply (r.encode ++ rest) = some (r, rest) := by
  cases r with
  | simpleString s =>
    have hsplit := splitLine_crlf h.1 rest
    have hguard : (guard (LineText s) : Option Unit) = some () := if_pos h
    show decodeReply (43 :: (s ++ crlf ++ rest)) = _
    simp [decodeReply, hsplit, hguard, -List.append_assoc]
  | error msg =>
    have hsplit := splitLine_crlf h.1 rest
    have hguard : (guard (LineText msg) : Option Unit) = some () := if_pos h
    show decodeReply (45 :: (msg ++ crlf ++ rest)) = _
    simp [decodeReply, hsplit, hguard, -List.append_assoc]
  | integer v =>
    have hsplit := splitLine_crlf (lineText_toChars v.toInt).1 rest
    show decodeReply (58 :: (toChars v.toInt ++ crlf ++ rest)) = _
    simp [decodeReply, hsplit, decodeInteger_toChars, -List.append_assoc]
  | bulk s =>
    have hsplit := splitLine_crlf (lineText_toChars s.length).1 (s ++ crlf ++ rest)
    have hcode : RespReply.encode (.bulk s) ++ rest
        = 36 :: (toChars s.length ++ crlf ++ (s ++ crlf ++ rest)) := by
      simp [RespReply.encode]
    -- A length has no sign, so it does not read as the null bulk string.
    have hnull : decimal s.length ≠ ascii "-1" := by
      intro heq
      exact absurd (isDigit_of_mem_decimal (n := s.length) (c := 45) (by rw [heq]; decide))
        (by decide)
    have hguard : (guard (substr (s ++ crlf ++ rest) s.length 2 = crlf) : Option Unit)
        = some () := if_pos (by simp [substr, crlf])
    have hdrop : (s ++ crlf ++ rest).drop (s.length + 2) = rest := by
      rw [List.append_assoc, ← List.drop_drop, List.drop_left]
      rfl
    have htake : (s ++ crlf ++ rest).take s.length = s := by
      rw [List.append_assoc, List.take_left]
    rw [hcode]
    rw [toChars_natCast] at hsplit ⊢
    simp [decodeReply, hsplit, hnull, hguard, hdrop, htake, -List.append_assoc]
  | nullBulk => rfl

/-- A stream of replies decodes as those replies, with nothing left over. -/
theorem decodeReplies_flatMap {rs : List RespReply} : ∀ {rounds : Nat},
    (∀ r ∈ rs, r.WellFormed) → rs.length ≤ rounds →
    decodeReplies rounds (rs.flatMap RespReply.encode) = some rs := by
  induction rs with
  | nil =>
    intro rounds _ _
    cases rounds <;> rfl
  | cons r rs ih =>
    intro rounds hwf hle
    cases rounds with
    | zero => cases hle
    | succ rounds =>
      rw [List.length_cons] at hle
      have hdecode := decodeReply_encode (hwf r (by simp)) (rs.flatMap RespReply.encode)
      rw [List.flatMap_cons]
      cases hcode : r.encode ++ rs.flatMap RespReply.encode with
      | nil => exact absurd (List.append_eq_nil_iff.mp hcode).1 r.encode_ne_nil
      | cons c s =>
        rw [hcode] at hdecode
        rw [decodeReplies, hdecode]
        simp [ih (fun r hr => hwf r (by simp [hr])) (Nat.le_of_succ_le_succ hle)]

/-- There are no more replies than bytes. -/
theorem length_le_flatMap_encode (rs : List RespReply) :
    rs.length ≤ (rs.flatMap RespReply.encode).length := by
  induction rs with
  | nil => exact Nat.le_refl 0
  | cons r rs ih =>
    have hpos := List.length_pos_iff.mpr r.encode_ne_nil
    rw [List.flatMap_cons, List.length_append, List.length_cons]
    omega

/-- A stream of replies is decoded to these replies. -/
theorem decodeStream_flatMap {rs : List RespReply} (h : ∀ r ∈ rs, r.WellFormed) :
    decodeStream (rs.flatMap RespReply.encode) = some rs :=
  decodeReplies_flatMap h (length_le_flatMap_encode rs)

end TinyRedis
