import Mathlib.Data.Nat.Basic
import TinyRedis.Core.Resp

/-!
# `TinyRedis.Proofs.Resp.Lines`: lines and payloads

What `readLine` and `takeBytes` find, and that a verdict other than `kIncomplete` stands when more
bytes arrive (`readLine_append`, `takeBytes_append`). The window of `readLine` is where this could
fail: the last legal terminator is the CRLF at `maxLen`, and a CR there keeps the line open for one
more byte.

* `EndsLine`, `FirstEnd`: where a line ends, under either framing. A strict line ends at an LF with
  a CR before it, an inline one at any LF.
* `scanLine_spec`: the search loop finds the first end in its window.
* `readLine_spec`: what `readLine` says, by where the first end is (`lineAt`) or when there is none
  in the window (`lineOpen`).
* `readLine_found_iff`, `readLine_incomplete_iff`: when a line is found, and when it is waited for.
* `takeBytes_append`, `takeBytes_found`, `takeBytes_of_crlf`: a payload of a known length.

`readLine_viable` is the converse: no verdict is late. A line is reported open exactly when some
bytes after it would end it within its bound.

The lemmas are stated on the input behind the start, `input.drop start`, so that positions are
counted from the beginning of the line.
-/

set_option autoImplicit false

namespace TinyRedis

/-! ### `find` -/

/-- `find` from a position: the first byte there or later that it looks for. -/
theorem findFrom_eq_some_iff {c : UInt8 → Bool} {s : Bytes} {start i : Nat} :
    findFrom c s start = some i ↔
      start ≤ i ∧ (∃ b, s[i]? = some b ∧ c b = true) ∧
        ∀ j, start ≤ j → j < i → ∀ b, s[j]? = some b → c b = false := by
  simp only [findFrom, Option.map_eq_some_iff, List.findIdx?_eq_some_iff_getElem]
  constructor
  · rintro ⟨k, ⟨hk, hc, hbefore⟩, rfl⟩
    refine ⟨by omega, ⟨(s.drop start)[k], ?_, hc⟩, fun j hj hji b hb => ?_⟩
    · rw [Nat.add_comm, ← List.getElem?_drop, List.getElem?_eq_getElem hk]
    · have hlt := hbefore (j - start) (by omega)
      obtain ⟨hjlen, rfl⟩ := List.getElem?_eq_some_iff.mp hb
      simpa [List.getElem_drop, Nat.add_sub_cancel' hj] using hlt
  · rintro ⟨hle, ⟨b, hb, hc⟩, hbefore⟩
    obtain ⟨hilen, rfl⟩ := List.getElem?_eq_some_iff.mp hb
    refine ⟨i - start, ⟨by simp; omega, ?_, fun j hj => ?_⟩, by omega⟩
    · simpa [List.getElem_drop, Nat.add_sub_cancel' hle] using hc
    · have hjlen : start + j < s.length := by omega
      have := hbefore (start + j) (by omega) (by omega) _ (List.getElem?_eq_getElem hjlen)
      simpa [List.getElem_drop] using this

/-- `find` from a position finds nothing when no byte there or later is one that it looks for. -/
theorem findFrom_eq_none_iff {c : UInt8 → Bool} {s : Bytes} {start : Nat} :
    findFrom c s start = none ↔ ∀ j, start ≤ j → ∀ b, s[j]? = some b → c b = false := by
  simp only [findFrom, Option.map_eq_none_iff, List.findIdx?_eq_none_iff]
  constructor
  · intro h j hj b hb
    refine h b (List.mem_iff_getElem?.mpr ⟨j - start, ?_⟩)
    rw [List.getElem?_drop, Nat.add_sub_cancel' hj, hb]
  · intro h b hb
    obtain ⟨k, hk⟩ := List.mem_iff_getElem?.mp hb
    rw [List.getElem?_drop] at hk
    exact h (start + k) (Nat.le_add_right _ _) b hk

/-! ### The terminator -/

/-- Whether a CR stands before `lf`. -/
def crBefore (s : Bytes) (lf : Nat) : Bool := lf > 0 ∧ s[lf - 1]? = some CR

/-- A line of `s` ends with the LF at `lf`. -/
def EndsLine (framing : Framing) (s : Bytes) (lf : Nat) : Prop :=
  s[lf]? = some LF ∧ (crBefore s lf = true ∨ framing = .kInline)

/-- Where a line ends can be checked. -/
instance (framing : Framing) (s : Bytes) (lf : Nat) : Decidable (EndsLine framing s lf) :=
  inferInstanceAs (Decidable (_ ∧ _))

/-- A line ends inside the input. -/
theorem EndsLine.lt {framing : Framing} {s : Bytes} {lf : Nat} (h : EndsLine framing s lf) :
    lf < s.length :=
  (List.getElem?_eq_some_iff.mp h.1).1

/-- The loop finds the first terminator from `start` on, if there is one. -/
theorem scanLine_spec (scan : Bytes) (framing : Framing) : ∀ (rounds start : Nat),
    scan.length < start + rounds →
    (scanLine scan framing rounds start = none ∧ ∀ j, start ≤ j → ¬ EndsLine framing scan j) ∨
    ∃ lf, scanLine scan framing rounds start = some (lf, crBefore scan lf) ∧
      EndsLine framing scan lf ∧ ∀ j, start ≤ j → j < lf → ¬ EndsLine framing scan j := by
  intro rounds
  induction rounds with
  | zero =>
    intro start hfuel
    refine Or.inl ⟨rfl, fun j hj hend => ?_⟩
    -- The rounds cover the rest of the input.
    have := hend.lt
    omega
  | succ rounds ih =>
    intro start hfuel
    cases hfind : findFrom (· = LF) scan start with
    | none =>
      have hnone : scanLine scan framing (rounds + 1) start = none := by rw [scanLine, hfind]
      rw [findFrom_eq_none_iff] at hfind
      exact Or.inl ⟨hnone, fun j hj hend => by simpa using hfind j hj LF hend.1⟩
    | some lf =>
      have hstep : scanLine scan framing (rounds + 1) start
          = if crBefore scan lf = true ∨ framing = .kInline then some (lf, crBefore scan lf)
            else scanLine scan framing rounds (lf + 1) := by
        rw [scanLine, hfind]
        rfl
      obtain ⟨hle, ⟨b, hb, hbLF⟩, hbefore⟩ := findFrom_eq_some_iff.mp hfind
      obtain rfl : b = LF := by simpa using hbLF
      have hskip : ∀ j, start ≤ j → j < lf → ¬ EndsLine framing scan j := fun j hj hlt hend => by
        simpa using hbefore j hj hlt LF hend.1
      by_cases hstop : crBefore scan lf = true ∨ framing = .kInline
      · exact Or.inr ⟨lf, by rw [hstep, if_pos hstop], ⟨hb, hstop⟩, hskip⟩
      · -- A bare LF ends no strict line, so the first terminator is past it.
        have hnot : ∀ j, start ≤ j → j < lf + 1 → ¬ EndsLine framing scan j := by
          intro j hj hlt
          rcases Nat.lt_succ_iff_lt_or_eq.mp hlt with hlt | rfl
          · exact hskip j hj hlt
          · exact fun hend => hstop hend.2
        rw [hstep, if_neg hstop]
        rcases ih (lf + 1) (by omega) with ⟨hnone, hall⟩ | ⟨lf', hsome, hend, hfirst⟩
        · refine Or.inl ⟨hnone, fun j hj => ?_⟩
          by_cases hlt : j < lf + 1
          · exact hnot j hj hlt
          · exact hall j (by omega)
        · refine Or.inr ⟨lf', hsome, hend, fun j hj hlt' => ?_⟩
          by_cases hlt : j < lf + 1
          · exact hnot j hj hlt
          · exact hfirst j (by omega) hlt'

/-- Whether there is a CR before a position is decided by what stands before it. -/
theorem crBefore_append {s t : Bytes} {lf : Nat} (h : lf ≤ s.length) :
    crBefore (s ++ t) lf = crBefore s lf := by
  by_cases hz : lf = 0
  · simp [crBefore, hz]
  · simp only [crBefore, List.getElem?_append_left (show lf - 1 < s.length by omega)]

/-- Whether a line ends at a position is decided by what stands up to it. -/
theorem endsLine_append_iff {framing : Framing} {s t : Bytes} {lf : Nat} (h : lf < s.length) :
    EndsLine framing (s ++ t) lf ↔ EndsLine framing s lf := by
  rw [EndsLine, EndsLine, crBefore_append (Nat.le_of_lt h), List.getElem?_append_left h]

/-- A window shows the ends inside it. -/
theorem endsLine_take_iff {framing : Framing} {s : Bytes} {w lf : Nat} :
    EndsLine framing (s.take w) lf ↔ lf < w ∧ EndsLine framing s lf := by
  conv_rhs => rw [← List.take_append_drop w s]
  constructor
  · intro h
    have hlt := h.lt
    exact ⟨by rw [List.length_take] at hlt; omega, (endsLine_append_iff hlt).mpr h⟩
  · rintro ⟨hw, h⟩
    have hlt := h.lt
    rw [List.take_append_drop] at hlt
    exact (endsLine_append_iff (by rw [List.length_take]; omega)).mp h

/-! ### `readLine` -/

/-- The line that ends with the LF at `lf` of `s`, for `s` at `start` of the input. -/
def lineAt (s : Bytes) (start maxLen lf : Nat) : Line :=
  let len := if crBefore s lf then lf - 1 else lf
  if len > maxLen then { status := .kTooLong }
  else { status := .kFound, text := s.take len, next := start + lf + 1 }

/-- The verdict on a line without a terminator in the window. -/
def lineOpen (s : Bytes) (maxLen : Nat) : Line :=
  if s.length ≥ maxLen + 2 ∨ (s.length = maxLen + 1 ∧ s.getLast? ≠ some CR) then
    { status := .kTooLong }
  else {}

/-- `lf` is the first terminator of `s`. -/
def FirstEnd (framing : Framing) (s : Bytes) (lf : Nat) : Prop :=
  EndsLine framing s lf ∧ ∀ j < lf, ¬ EndsLine framing s j

/-- A line has one first end. -/
theorem FirstEnd.unique {framing : Framing} {s : Bytes} {i j : Nat} (hi : FirstEnd framing s i)
    (hj : FirstEnd framing s j) : i = j := by
  rcases Nat.lt_trichotomy i j with hlt | heq | hgt
  · exact absurd hi.1 (hj.2 i hlt)
  · exact heq
  · exact absurd hj.1 (hi.2 j hgt)

/-- More input does not move the first end of a line. -/
theorem FirstEnd.append {framing : Framing} {s : Bytes} {lf : Nat} (h : FirstEnd framing s lf)
    (t : Bytes) : FirstEnd framing (s ++ t) lf := by
  have hlt := h.1.lt
  refine ⟨(endsLine_append_iff hlt).mpr h.1, fun j hj hend => ?_⟩
  exact h.2 j hj ((endsLine_append_iff (Nat.lt_trans hj hlt)).mp hend)

/-- The spec of `readLine`: the verdict depends on the first terminator within the window. -/
theorem readLine_spec {input : Bytes} {start : Nat} (h : start < input.length) (maxLen : Nat)
    (framing : Framing) :
    (∃ lf < maxLen + 2, FirstEnd framing (input.drop start) lf ∧
      readLine input start maxLen framing = lineAt (input.drop start) start maxLen lf) ∨
    ((∀ j < maxLen + 2, ¬ EndsLine framing (input.drop start) j) ∧
      readLine input start maxLen framing = lineOpen (input.drop start) maxLen) := by
  have hlen : (input.drop start).length = input.length - start := List.length_drop
  generalize hs : input.drop start = s at hlen ⊢
  have hscan : substr input start (min (input.length - start) (maxLen + 2))
      = s.take (maxLen + 2) := by
    rw [substr, hs, ← hlen, Nat.min_comm, ← List.take_eq_take_min]
  simp only [readLine, if_neg (show ¬ start ≥ input.length by omega), hscan]
  rcases scanLine_spec (s.take (maxLen + 2)) framing ((s.take (maxLen + 2)).length + 1) 0
    (by omega) with ⟨hnone, hall⟩ | ⟨lf, hsome, hend, hfirst⟩
  · refine Or.inr ⟨fun j hj hend => hall j (Nat.zero_le j) (endsLine_take_iff.mpr ⟨hj, hend⟩), ?_⟩
    simp only [hnone, lineOpen, hlen]
    congr 1
    refine propext (or_congr_right (and_congr_right fun heq => ?_))
    rw [List.take_of_length_le (by omega)]
  · obtain ⟨hlt, hend'⟩ := endsLine_take_iff.mp hend
    have hcr : crBefore (s.take (maxLen + 2)) lf = crBefore s lf := by
      conv_rhs => rw [← List.take_append_drop (maxLen + 2) s]
      exact (crBefore_append (Nat.le_of_lt hend.lt)).symm
    refine Or.inl ⟨lf, hlt, ⟨hend', fun j hj hj' => ?_⟩, ?_⟩
    · exact hfirst j (Nat.zero_le j) hj (endsLine_take_iff.mpr ⟨by omega, hj'⟩)
    · simp only [hsome, hcr, lineAt, substr, hs]

/-- Behind the input there is no line. -/
theorem readLine_of_length_le {input : Bytes} {start : Nat} (h : input.length ≤ start)
    (maxLen : Nat) (framing : Framing) : readLine input start maxLen framing = {} :=
  if_pos h

/-- What is said of a line that ends is not changed by what comes after it. -/
theorem lineAt_append {s : Bytes} {lf : Nat} (h : lf < s.length) (t : Bytes) (start maxLen : Nat) :
    lineAt (s ++ t) start maxLen lf = lineAt s start maxLen lf := by
  have hlen : (if crBefore s lf = true then lf - 1 else lf) ≤ s.length := by
    split <;> omega
  simp only [lineAt, crBefore_append (Nat.le_of_lt h), List.take_append_of_le_length hlen]

/-- An open line with a verdict is too long: the window is full, or full but for its last byte and
without the CR that could still end it. -/
theorem lineOpen_tooLong {s : Bytes} {maxLen : Nat}
    (hopen : (lineOpen s maxLen).status ≠ .kIncomplete) :
    (s.length ≥ maxLen + 2 ∨ (s.length = maxLen + 1 ∧ s.getLast? ≠ some CR)) ∧
      lineOpen s maxLen = { status := .kTooLong } := by
  unfold lineOpen at hopen ⊢
  split at hopen
  · next hlong => exact ⟨hlong, if_pos hlong⟩
  · exact absurd rfl hopen

/-- A line that is too long without a terminator in sight has no legal one to come: the only
place left in the window takes an LF with no CR before it. -/
theorem lineAt_of_lineOpen {framing : Framing} {s : Bytes} {maxLen lf : Nat}
    (hopen : (lineOpen s maxLen).status ≠ .kIncomplete)
    (hnone : ∀ j < maxLen + 2, ¬ EndsLine framing s j) {ext : Bytes} (hlf : lf < maxLen + 2)
    (hend : EndsLine framing (s ++ ext) lf) (start : Nat) :
    lineAt (s ++ ext) start maxLen lf = { status := .kTooLong } := by
  obtain ⟨hlong, -⟩ := lineOpen_tooLong hopen
  have hge : s.length ≤ lf := by
    by_contra hlt
    exact hnone lf hlf ((endsLine_append_iff (by omega)).mp hend)
  obtain ⟨hlen, hlast⟩ : s.length = maxLen + 1 ∧ s.getLast? ≠ some CR := by
    rcases hlong with hlong | hlong
    · omega
    · exact hlong
  have hlf' : lf = s.length := by omega
  have hcr : crBefore (s ++ ext) lf = false := by
    rw [hlf', crBefore_append (Nat.le_refl _), crBefore, ← List.getLast?_eq_getElem?]
    simp [hlast]
  simp only [lineAt, hcr, Bool.false_eq_true, if_false]
  exact if_pos (by omega)

/-- A line without an end that is too long stays too long. -/
theorem lineOpen_append {s : Bytes} {maxLen : Nat}
    (hopen : (lineOpen s maxLen).status ≠ .kIncomplete) (ext : Bytes) :
    lineOpen (s ++ ext) maxLen = lineOpen s maxLen := by
  cases ext with
  | nil => rw [List.append_nil]
  | cons c ext =>
    obtain ⟨hlong, heq⟩ := lineOpen_tooLong hopen
    rw [heq, lineOpen, if_pos (Or.inl ?_)]
    rw [List.length_append, List.length_cons]
    omega

/-- A verdict of `readLine` stands when more bytes arrive. -/
theorem readLine_append {input : Bytes} {start maxLen : Nat} {framing : Framing}
    (h : (readLine input start maxLen framing).status ≠ .kIncomplete) (ext : Bytes) :
    readLine (input ++ ext) start maxLen framing = readLine input start maxLen framing := by
  by_cases hstart : start < input.length
  case neg => exact absurd (by rw [readLine_of_length_le (by omega)]) h
  have hdrop : (input ++ ext).drop start = input.drop start ++ ext :=
    List.drop_append_of_le_length (Nat.le_of_lt hstart)
  have hspec' := readLine_spec (show start < (input ++ ext).length by
    rw [List.length_append]; omega) maxLen framing
  rw [hdrop] at hspec'
  rcases readLine_spec hstart maxLen framing with ⟨lf, hlf, hfirst, hread⟩ | ⟨hnone, hread⟩
  · rw [hread]
    rcases hspec' with ⟨lf', -, hfirst', hread'⟩ | ⟨hnone', -⟩
    · rw [hread', hfirst'.unique (hfirst.append ext)]
      exact lineAt_append hfirst.1.lt ext start maxLen
    · exact absurd (hfirst.append ext).1 (hnone' lf hlf)
  · rw [hread] at h ⊢
    rcases hspec' with ⟨lf', hlf', hfirst', hread'⟩ | ⟨-, hread'⟩
    · rw [hread', lineAt_of_lineOpen h hnone hlf' hfirst'.1, (lineOpen_tooLong h).2]
    · rw [hread', lineOpen_append h]

/-- `readLine` knows no bad trailer; that is for payloads. -/
theorem readLine_ne_badTrailer (input : Bytes) (start maxLen : Nat) (framing : Framing) :
    (readLine input start maxLen framing).status ≠ .kBadTrailer := by
  by_cases hstart : start < input.length
  · rcases readLine_spec hstart maxLen framing with ⟨lf, -, -, hread⟩ | ⟨-, hread⟩
    · rw [hread, lineAt]
      generalize (if crBefore (input.drop start) lf = true then lf - 1 else lf) = len
      split <;> simp
    · rw [hread, lineOpen]
      split <;> simp
  · rw [readLine_of_length_le (by omega)]
    decide

/-- A line is found at the first terminator. -/
theorem readLine_found {input : Bytes} {start maxLen : Nat} {framing : Framing}
    (h : (readLine input start maxLen framing).status = .kFound) :
    ∃ lf, FirstEnd framing (input.drop start) lf ∧
      readLine input start maxLen framing =
        { status := .kFound
          text := (input.drop start).take
            (if crBefore (input.drop start) lf = true then lf - 1 else lf)
          next := start + lf + 1 } := by
  by_cases hstart : start < input.length
  case neg =>
    rw [readLine_of_length_le (by omega)] at h
    cases h
  rcases readLine_spec hstart maxLen framing with ⟨lf, -, hfirst, hread⟩ | ⟨-, hread⟩
  · refine ⟨lf, hfirst, ?_⟩
    rw [hread] at h ⊢
    simp only [lineAt] at h ⊢
    by_cases hlen : (if crBefore (input.drop start) lf = true then lf - 1 else lf) > maxLen
    · rw [if_pos hlen] at h
      cases h
    · rw [if_neg hlen]
  · rw [hread] at h
    obtain ⟨-, htoo⟩ := lineOpen_tooLong (by rw [h]; decide)
    rw [htoo] at h
    cases h

/-- A line that is found ends within the input. -/
theorem readLine_next {input : Bytes} {start maxLen : Nat} {framing : Framing}
    (h : (readLine input start maxLen framing).status = .kFound) :
    start < (readLine input start maxLen framing).next ∧
      (readLine input start maxLen framing).next ≤ input.length := by
  obtain ⟨lf, hfirst, hread⟩ := readLine_found h
  have hlt := hfirst.1.lt
  rw [List.length_drop] at hlt
  rw [hread]
  exact ⟨show start < start + lf + 1 by omega, show start + lf + 1 ≤ input.length by omega⟩

/-- A strict line that is found is its text, then CRLF. -/
theorem readLine_strict_found {input : Bytes} {start maxLen : Nat}
    (h : (readLine input start maxLen .kStrict).status = .kFound) :
    ∃ text rest, input.drop start = text ++ crlf ++ rest ∧
      readLine input start maxLen .kStrict
        = { status := .kFound, text, next := start + text.length + 2 } := by
  obtain ⟨lf, hfirst, hread⟩ := readLine_found h
  obtain ⟨hLF, hcr⟩ := hfirst.1
  have hcr : crBefore (input.drop start) lf = true := hcr.resolve_right (by decide)
  obtain ⟨hpos, hCR⟩ : lf > 0 ∧ (input.drop start)[lf - 1]? = some CR := by
    simpa [crBefore] using hcr
  rw [hcr, if_pos rfl] at hread
  rw [hread]
  generalize input.drop start = s at hCR hLF ⊢
  obtain ⟨h₁, hCR⟩ := List.getElem?_eq_some_iff.mp hCR
  obtain ⟨h₂, hLF⟩ := List.getElem?_eq_some_iff.mp hLF
  have hdrop : s.drop (lf - 1) = crlf ++ s.drop (lf + 1) := by
    rw [List.drop_eq_getElem_cons h₁, hCR, Nat.sub_add_cancel hpos,
      List.drop_eq_getElem_cons h₂, hLF]
    rfl
  refine ⟨s.take (lf - 1), s.drop (lf + 1), ?_, ?_⟩
  · rw [List.append_assoc, ← hdrop, List.take_append_drop]
  · rw [List.length_take_of_le (Nat.le_of_lt h₁)]
    congr 1
    omega

/-- A text without LF, then CRLF, reads as a line, whatever follows. -/
theorem readLine_of_crlf {input text rest : Bytes} {start maxLen : Nat} (framing : Framing)
    (hdrop : input.drop start = text ++ crlf ++ rest) (hLF : LF ∉ text)
    (hlen : text.length ≤ maxLen) :
    readLine input start maxLen framing
      = { status := .kFound, text, next := start + text.length + 2 } := by
  have hstart : start < input.length := by
    have := congrArg List.length hdrop
    simp [crlf] at this
    omega
  -- The first LF is that of the CRLF.
  have hget : ∀ j, j ≤ text.length → (text ++ crlf ++ rest)[j]? ≠ some LF := by
    intro j hj heq
    rcases Nat.lt_or_eq_of_le hj with hlt | rfl
    · rw [List.append_assoc, List.getElem?_append_left hlt] at heq
      exact hLF (List.mem_of_getElem? heq)
    · simp [crlf] at heq
      exact absurd heq (by decide)
  have hcr : crBefore (text ++ crlf ++ rest) (text.length + 1) = true := by
    simp [crBefore, crlf]
  have hfirst : FirstEnd framing (text ++ crlf ++ rest) (text.length + 1) := by
    refine ⟨⟨by simp [crlf], Or.inl hcr⟩, fun j hj hend => ?_⟩
    exact hget j (by omega) hend.1
  have hspec := readLine_spec hstart maxLen framing
  rw [hdrop] at hspec
  rcases hspec with ⟨lf, -, hfirst', hread⟩ | ⟨hnone, -⟩
  · obtain rfl := hfirst'.unique hfirst
    rw [hread]
    simp only [lineAt, hcr, if_true, Nat.add_sub_cancel, gt_iff_lt, if_neg (Nat.not_lt.mpr hlen)]
    rw [List.append_assoc, List.take_left]
    rfl
  · exact absurd hfirst.1 (hnone _ (by omega))

/-! ### Lines that can still come -/

/-- The bytes of the line that ends with the LF at `lf`: a CR before it is not one of them. -/
def textLen (s : Bytes) (lf : Nat) : Nat := if crBefore s lf = true then lf - 1 else lf

/-- A line that ends is too long, or found with its text. -/
theorem lineAt_eq (s : Bytes) (start maxLen lf : Nat) :
    lineAt s start maxLen lf =
      if textLen s lf > maxLen then { status := .kTooLong }
      else { status := .kFound, text := s.take (textLen s lf), next := start + lf + 1 } := rfl

/-- A line is found at the first terminator, if it is no longer than it may be. -/
theorem readLine_of_firstEnd {input : Bytes} {start maxLen lf : Nat} {framing : Framing}
    (hfirst : FirstEnd framing (input.drop start) lf)
    (hlen : textLen (input.drop start) lf ≤ maxLen) :
    readLine input start maxLen framing =
      { status := .kFound
        text := (input.drop start).take (textLen (input.drop start) lf)
        next := start + lf + 1 } := by
  have hlt := hfirst.1.lt
  rw [List.length_drop] at hlt
  rcases readLine_spec (show start < input.length by omega) maxLen framing with
    ⟨lf', -, hfirst', hread⟩ | ⟨hnone, -⟩
  · obtain rfl := hfirst'.unique hfirst
    rw [hread, lineAt_eq, if_neg (Nat.not_lt.mpr hlen)]
  · refine absurd hfirst.1 (hnone lf ?_)
    unfold textLen at hlen
    split at hlen <;> omega

/-- A line is found where it ends first, if its text is within the bound. -/
theorem readLine_found_iff {input : Bytes} {start maxLen : Nat} {framing : Framing} :
    (readLine input start maxLen framing).status = .kFound ↔
      ∃ lf, FirstEnd framing (input.drop start) lf ∧
        textLen (input.drop start) lf ≤ maxLen := by
  constructor
  · intro h
    obtain ⟨lf, hfirst, -⟩ := readLine_found h
    refine ⟨lf, hfirst, ?_⟩
    have hlt := hfirst.1.lt
    rw [List.length_drop] at hlt
    rcases readLine_spec (show start < input.length by omega) maxLen framing with
      ⟨lf', -, hfirst', hread⟩ | ⟨-, hread⟩
    · obtain rfl := hfirst'.unique hfirst
      by_contra hlong
      rw [hread, lineAt_eq, if_pos (Nat.not_le.mp hlong)] at h
      cases h
    · rw [hread] at h
      rw [(lineOpen_tooLong (by rw [h]; decide)).2] at h
      cases h
  · rintro ⟨lf, hfirst, hlen⟩
    rw [readLine_of_firstEnd hfirst hlen]

/-- A line without an end is waited for while an end could still come in time. -/
theorem lineOpen_incomplete_iff {s : Bytes} {maxLen : Nat} :
    (lineOpen s maxLen).status = .kIncomplete ↔
      ¬ (s.length ≥ maxLen + 2 ∨ (s.length = maxLen + 1 ∧ s.getLast? ≠ some CR)) := by
  unfold lineOpen
  split
  · next hlong => exact iff_of_false nofun (not_not.mpr hlong)
  · next hshort => exact iff_of_true rfl hshort

/-- `readLine` waits for a line that has no terminator yet, and room for one. -/
theorem readLine_incomplete_iff {input : Bytes} {start maxLen : Nat} {framing : Framing} :
    (readLine input start maxLen framing).status = .kIncomplete ↔
      (∀ j, ¬ EndsLine framing (input.drop start) j) ∧
        ¬ ((input.drop start).length ≥ maxLen + 2 ∨
          ((input.drop start).length = maxLen + 1 ∧ (input.drop start).getLast? ≠ some CR)) := by
  by_cases hstart : start < input.length
  case neg =>
    rw [readLine_of_length_le (by omega), List.drop_of_length_le (by omega)]
    refine iff_of_true rfl ⟨fun j hend => absurd hend.lt (Nat.not_lt_zero j), ?_⟩
    rw [List.length_nil]
    omega
  rcases readLine_spec hstart maxLen framing with ⟨lf, -, hfirst, hread⟩ | ⟨hnone, hread⟩
  · refine iff_of_false ?_ fun h => h.1 lf hfirst.1
    rw [hread, lineAt_eq]
    split <;> simp
  · rw [hread, lineOpen_incomplete_iff]
    -- A line with room ends before the window does.
    refine ⟨fun hroom => ⟨fun j hend => hnone j ?_ hend, hroom⟩, fun h => h.2⟩
    have := hend.lt
    omega

/-- An LF ends an open line behind its last CR. -/
theorem firstEnd_append_lf {framing : Framing} {s : Bytes} (hnone : ∀ j, ¬ EndsLine framing s j)
    (hlast : s.getLast? = some CR) :
    FirstEnd framing (s ++ [LF]) s.length ∧ textLen (s ++ [LF]) s.length = s.length - 1 := by
  have hne : s ≠ [] := by
    rintro rfl
    cases hlast
  have hcr : crBefore (s ++ [LF]) s.length = true := by
    rw [crBefore_append (Nat.le_refl _), crBefore, ← List.getLast?_eq_getElem?]
    simp [hlast, List.length_pos_iff.mpr hne]
  refine ⟨⟨⟨List.getElem?_concat_length, Or.inl hcr⟩, fun j hj hend => ?_⟩, if_pos hcr⟩
  exact hnone j ((endsLine_append_iff hj).mp hend)

/-- CRLF ends any open line. -/
theorem firstEnd_append_crlf {framing : Framing} {s : Bytes}
    (hnone : ∀ j, ¬ EndsLine framing s j) :
    FirstEnd framing (s ++ crlf) (s.length + 1) ∧
      textLen (s ++ crlf) (s.length + 1) = s.length := by
  have hcr : crBefore (s ++ crlf) (s.length + 1) = true := by
    simp [crBefore, crlf]
  refine ⟨⟨⟨by simp [crlf], Or.inl hcr⟩, fun j hj hend => ?_⟩, if_pos hcr⟩
  rcases Nat.lt_succ_iff_lt_or_eq.mp hj with hlt | rfl
  · exact hnone j ((endsLine_append_iff hlt).mp hend)
  · have hLF := hend.1
    rw [List.getElem?_append_right (Nat.le_refl _), Nat.sub_self] at hLF
    exact absurd hLF (by decide)

/-- A line that `readLine` waits for can still come. -/
theorem exists_readLine_append_found {input : Bytes} {start maxLen : Nat} {framing : Framing}
    (hstart : start ≤ input.length)
    (h : (readLine input start maxLen framing).status = .kIncomplete) :
    ∃ ext, (readLine (input ++ ext) start maxLen framing).status = .kFound := by
  have hdrop : ∀ ext, (input ++ ext).drop start = input.drop start ++ ext := fun ext =>
    List.drop_append_of_le_length hstart
  obtain ⟨hnone, hroom⟩ := readLine_incomplete_iff.mp h
  simp only [readLine_found_iff, hdrop]
  by_cases hlast : (input.drop start).getLast? = some CR
  -- At the cap the last byte is the CR of a terminator that lacks its LF.
  · obtain ⟨hfirst, hlen⟩ := firstEnd_append_lf hnone hlast
    exact ⟨[LF], _, hfirst, by omega⟩
  · obtain ⟨hfirst, hlen⟩ := firstEnd_append_crlf hnone
    refine ⟨crlf, _, hfirst, ?_⟩
    simp only [hlast, ne_eq, not_false_eq_true, and_true] at hroom
    omega

/-- `readLine` decides which lines can still come. It finds a line exactly when the first
terminator ends one of at most `maxLen` bytes. Otherwise it waits exactly if some continuation of
the input has such a line, and gives up exactly if none has. The bound plus two is a `Nat` here:
the source's does not wrap below `2 ^ 64`. -/
theorem readLine_viable (input : Bytes) (start maxLen : Nat) (framing : Framing)
    (hstart : start ≤ input.length) :
    ((readLine input start maxLen framing).status = .kFound ↔
      ∃ lf, FirstEnd framing (input.drop start) lf ∧
        textLen (input.drop start) lf ≤ maxLen) ∧
    (∀ lf, FirstEnd framing (input.drop start) lf → textLen (input.drop start) lf ≤ maxLen →
      (readLine input start maxLen framing).text
          = (input.drop start).take (textLen (input.drop start) lf) ∧
        (readLine input start maxLen framing).next = start + lf + 1) ∧
    ((readLine input start maxLen framing).status ≠ .kFound →
      ((readLine input start maxLen framing).status = .kIncomplete ↔
        ∃ ext, (readLine (input ++ ext) start maxLen framing).status = .kFound) ∧
      ((readLine input start maxLen framing).status = .kTooLong ↔
        ∀ ext, (readLine (input ++ ext) start maxLen framing).status ≠ .kFound)) := by
  refine ⟨readLine_found_iff, fun lf hfirst hlen => ?_, fun hnot => ?_⟩
  · rw [readLine_of_firstEnd hfirst hlen]
    exact ⟨rfl, rfl⟩
  have hwait := @exists_readLine_append_found input start maxLen framing hstart
  have hstay := @readLine_append input start maxLen framing
  have hbad := readLine_ne_badTrailer input start maxLen framing
  cases hstatus : (readLine input start maxLen framing).status with
  | kFound => exact absurd hstatus hnot
  | kBadTrailer => exact absurd hstatus hbad
  | kIncomplete =>
    refine ⟨iff_of_true rfl (hwait hstatus), iff_of_false nofun fun hnever => ?_⟩
    obtain ⟨ext, hfound⟩ := hwait hstatus
    exact hnever ext hfound
  | kTooLong =>
    have hnever : ∀ ext, (readLine (input ++ ext) start maxLen framing).status ≠ .kFound := by
      intro ext
      rw [hstay (by rw [hstatus]; decide) ext, hstatus]
      decide
    exact ⟨iff_of_false nofun fun ⟨ext, hfound⟩ => hnever ext hfound, iff_of_true rfl hnever⟩

/-- A CR in the last place keeps the line open, another byte there does not. A bare LF is a byte
of a strict line. -/
theorem readLine_viable_at_cap :
    (∃ ext, (readLine (ascii "ab\r" ++ ext) 0 2 .kStrict).status = .kFound) ∧
    (∀ ext, (readLine (ascii "abc" ++ ext) 0 2 .kInline).status ≠ .kFound) ∧
    (∀ ext, (readLine (ascii "\n\n\n" ++ ext) 0 2 .kStrict).status ≠ .kFound) :=
  ⟨(((readLine_viable (ascii "ab\r") 0 2 .kStrict (by decide)).2.2 (by decide)).1).mp (by decide),
    (((readLine_viable (ascii "abc") 0 2 .kInline (by decide)).2.2 (by decide)).2).mp (by decide),
    (((readLine_viable (ascii "\n\n\n") 0 2 .kStrict (by decide)).2.2 (by decide)).2).mp
      (by decide)⟩

/-! ### `takeBytes` -/

/-- A verdict of `takeBytes` stands when more bytes arrive. -/
theorem takeBytes_append {input : Bytes} {start len : Nat}
    (h : (takeBytes input start len).status ≠ .kIncomplete) (ext : Bytes) :
    takeBytes (input ++ ext) start len = takeBytes input start len := by
  by_cases hroom : start + len + 2 ≤ input.length
  · have hstart : start ≤ input.length := by omega
    have hdrop : (input ++ ext).drop start = input.drop start ++ ext :=
      List.drop_append_of_le_length hstart
    have htake : substr (input ++ ext) start len = substr input start len := by
      rw [substr, hdrop, List.take_append_of_le_length (by rw [List.length_drop]; omega), substr]
    simp only [takeBytes, htake, List.length_append,
      List.getElem?_append_left (show start + len < input.length by omega),
      List.getElem?_append_left (show start + len + 1 < input.length by omega),
      if_neg (show ¬ start > input.length + ext.length by omega),
      if_neg (show ¬ start > input.length by omega),
      if_neg (show ¬ (input.length + ext.length - start < 2 ∨
        len > input.length + ext.length - start - 2) by omega),
      if_neg (show ¬ (input.length - start < 2 ∨ len > input.length - start - 2) by omega)]
  · refine absurd ?_ h
    simp only [takeBytes]
    by_cases hstart : start > input.length
    · rw [if_pos hstart]
    · rw [if_neg hstart, if_pos (by omega)]

/-- `takeBytes` knows no bound; the header has been checked against it. -/
theorem takeBytes_ne_tooLong (input : Bytes) (start len : Nat) :
    (takeBytes input start len).status ≠ .kTooLong := by
  unfold takeBytes
  split
  · decide
  · dsimp only
    split
    · decide
    · split <;> simp

/-- A payload that is found has CRLF after it. -/
theorem takeBytes_found {input : Bytes} {start len : Nat}
    (h : (takeBytes input start len).status = .kFound) :
    ∃ text rest, input.drop start = text ++ crlf ++ rest ∧ text.length = len ∧
      takeBytes input start len = { status := .kFound, text, next := start + len + 2 } := by
  simp only [takeBytes] at h ⊢
  by_cases hstart : start > input.length
  · rw [if_pos hstart] at h
    cases h
  rw [if_neg hstart] at h ⊢
  by_cases hroom : input.length - start < 2 ∨ len > input.length - start - 2
  · rw [if_pos hroom] at h
    cases h
  rw [if_neg hroom] at h ⊢
  by_cases hbad : input[start + len]? ≠ some CR ∨ input[start + len + 1]? ≠ some LF
  · rw [if_pos hbad] at h
    cases h
  rw [if_neg hbad]
  obtain ⟨hCR, hLF⟩ := not_or.mp hbad
  obtain ⟨h₁, hCR⟩ := List.getElem?_eq_some_iff.mp (not_not.mp hCR)
  obtain ⟨h₂, hLF⟩ := List.getElem?_eq_some_iff.mp (not_not.mp hLF)
  refine ⟨substr input start len, input.drop (start + len + 2), ?_, ?_, rfl⟩
  · have hdrop : input.drop (start + len) = crlf ++ input.drop (start + len + 2) := by
      rw [List.drop_eq_getElem_cons h₁, hCR, List.drop_eq_getElem_cons h₂, hLF]
      rfl
    rw [List.append_assoc, ← hdrop, ← List.drop_drop, substr, List.take_append_drop]
  · rw [substr, List.length_take, List.length_drop]
    omega

/-- A payload with CRLF after it is found, whatever follows. -/
theorem takeBytes_of_crlf {input text rest : Bytes} {start : Nat}
    (hdrop : input.drop start = text ++ crlf ++ rest) :
    takeBytes input start text.length
      = { status := .kFound, text, next := start + text.length + 2 } := by
  have hlen : start + text.length + 2 ≤ input.length := by
    have := congrArg List.length hdrop
    simp [crlf] at this
    omega
  have hCR : input[start + text.length]? = some CR := by
    rw [← List.getElem?_drop, hdrop]
    simp [crlf]
  have hLF : input[start + text.length + 1]? = some LF := by
    rw [Nat.add_assoc, ← List.getElem?_drop, hdrop]
    simp [crlf]
  have htake : substr input start text.length = text := by
    rw [substr, hdrop, List.append_assoc, List.take_left]
  simp only [takeBytes, if_neg (show ¬ start > input.length by omega),
    if_neg (show ¬ (input.length - start < 2 ∨ text.length > input.length - start - 2) by omega),
    hCR, hLF, htake, ne_eq, not_true_eq_false, or_self, if_false]

end TinyRedis
