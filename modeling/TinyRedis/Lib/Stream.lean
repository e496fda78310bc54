import Mathlib.Data.List.Basic

/-!
# `TinyRedis.Lib.Stream`: items read off a stream that arrives in pieces

A parser looks at the front of what has arrived and answers with an item and its length, with a
failure, or that it has to wait. Its verdicts are final: more input does not change an item or a
failure (`Parser.next_append`).

* `session` applies a parser to a whole stream until it waits, fails or meets an item that is the
  last one.
* `Reads` is the relation between a reader that has taken some items off the front of what has
  arrived, and the stream. Every later arrival keeps it (`Reads.append`), and the session goes on
  from what is left (`Reads.session_eq`).
* `session_append`: a session that is over is not changed by what arrives later, and one that waits
  keeps its items.

So a reader that works piece by piece, with a parser that has final verdicts, reads what it would
read off the whole stream.
-/

set_option autoImplicit false

namespace TinyRedis.Lib

/-- What a parser says about the front of its input. -/
inductive Verdict (ι ε : Type) where
  | pending
  | item (i : ι) (n : Nat)
  | failed (e : ε)

/-- A parser that can be applied before all of its input is there. -/
structure Parser (β ι ε : Type) where
  next : List β → Verdict ι ε
  last : ι → Bool
  item_pos : ∀ {s i n}, next s = .item i n → 0 < n
  item_le : ∀ {s i n}, next s = .item i n → n ≤ s.length
  next_append : ∀ {s} t, next s ≠ .pending → next (s ++ t) = next s

/-- Why a session has no further item. -/
inductive Ending (ε : Type) where
  | pending
  | last
  | failed (e : ε)
deriving DecidableEq

/-- The failure that ended a session. -/
def Ending.failure? {ε : Type} : Ending ε → Option ε
  | .failed e => some e
  | _ => none

namespace Parser

variable {β ι ε : Type} (p : Parser β ι ε)

/-- The items of a stream, up to the first that is the last one, and why there is no more. -/
def session (s : List β) : List ι × Ending ε :=
  match _h : p.next s with
  | .pending => ([], .pending)
  | .failed e => ([], .failed e)
  | .item i n =>
      if p.last i then ([i], .last)
      else
        let rest := session (s.drop n)
        (i :: rest.1, rest.2)
termination_by s.length
decreasing_by
  have hpos := p.item_pos _h
  have hle := p.item_le _h
  rw [List.length_drop]
  omega

variable {p}

/-- Nothing can be read yet. -/
theorem session_pending {s : List β} (h : p.next s = .pending) :
    p.session s = ([], .pending) := by
  rw [session]
  split <;> simp_all

/-- Nothing can be read any more. -/
theorem session_failed {s : List β} {e : ε} (h : p.next s = .failed e) :
    p.session s = ([], .failed e) := by
  rw [session]
  split <;> simp_all

/-- The item is the last one. -/
theorem session_last {s : List β} {i : ι} {n : Nat} (h : p.next s = .item i n)
    (hlast : p.last i = true) : p.session s = ([i], .last) := by
  rw [session]
  split <;> simp_all

/-- An item, and what the rest gives. -/
theorem session_item {s : List β} {i : ι} {n : Nat} (h : p.next s = .item i n)
    (hlast : p.last i = false) :
    p.session s = (i :: (p.session (s.drop n)).1, (p.session (s.drop n)).2) := by
  rw [session]
  split <;> simp_all

/-- A reader has taken `items` off the front of `s`, none of them the last, and `rest` is left. -/
inductive Reads (p : Parser β ι ε) (s : List β) : List ι → List β → Prop
  | start : Reads p s [] s
  | item {items rest i n} (h : Reads p s items rest) (hnext : p.next rest = .item i n)
      (hlast : p.last i = false) : Reads p s (items ++ [i]) (rest.drop n)

namespace Reads

variable {s rest : List β} {items : List ι}

/-- What arrives later is added to what is left. -/
theorem append (h : p.Reads s items rest) (t : List β) : p.Reads (s ++ t) items (rest ++ t) := by
  induction h with
  | start => exact .start
  | item _ hnext hlast ih =>
    rw [← List.drop_append_of_le_length (p.item_le hnext)]
    refine ih.item ?_ hlast
    rw [p.next_append t (by simp [hnext]), hnext]

/-- The session goes on from what is left. -/
theorem session_eq (h : p.Reads s items rest) :
    p.session s = (items ++ (p.session rest).1, (p.session rest).2) := by
  induction h with
  | start => rfl
  | item _ hnext hlast ih => rw [ih, session_item hnext hlast, List.append_assoc]; rfl

/-- A reader that has to wait has read the session so far. -/
theorem session_pending (h : p.Reads s items rest) (hnext : p.next rest = .pending) :
    p.session s = (items, .pending) := by
  rw [h.session_eq, Parser.session_pending hnext, List.append_nil]

/-- A reader that fails has read the session. -/
theorem session_failed {e : ε} (h : p.Reads s items rest) (hnext : p.next rest = .failed e) :
    p.session s = (items, .failed e) := by
  rw [h.session_eq, Parser.session_failed hnext, List.append_nil]

/-- A reader that takes the last item has read the session. -/
theorem session_last {i : ι} {n : Nat} (h : p.Reads s items rest)
    (hnext : p.next rest = .item i n) (hlast : p.last i = true) :
    p.session s = (items ++ [i], .last) := by
  rw [h.session_eq, Parser.session_last hnext hlast]

end Reads

/-- A session that is not waiting is over: what arrives later does not change it. One that waits
keeps its items. -/
theorem session_append (s t : List β) :
    ((p.session s).2 ≠ .pending → p.session (s ++ t) = p.session s) ∧
      (p.session s).1 <+: (p.session (s ++ t)).1 := by
  -- The induction is on the length of the stream: an item takes something off it.
  induction hlen : s.length using Nat.strongRecOn generalizing s with
  | ind len ih =>
    have happ := p.next_append (s := s) t
    cases hnext : p.next s with
    | pending => simp [session_pending hnext]
    | failed e =>
      rw [hnext] at happ
      simp [session_failed hnext, session_failed (happ nofun)]
    | item i n =>
      rw [hnext] at happ
      cases hlast : p.last i with
      | true => simp [session_last hnext hlast, session_last (happ nofun) hlast]
      | false =>
        have hle := p.item_le hnext
        have hpos := p.item_pos hnext
        obtain ⟨hover, hitems⟩ :=
          ih (s.drop n).length (by rw [List.length_drop]; omega) (s.drop n) rfl
        rw [← List.drop_append_of_le_length hle] at hover hitems
        rw [session_item hnext hlast, session_item (happ nofun) hlast]
        refine ⟨fun h => ?_, ?_⟩
        · rw [hover h]
        · exact (List.prefix_cons_inj i).mpr hitems

end Parser

end TinyRedis.Lib
