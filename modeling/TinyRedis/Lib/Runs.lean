import Mathlib.Data.List.Infix

/-!
# `TinyRedis.Lib.Runs`: the runs of a list between separators

`runs p s` are the maximal runs of `s` without an element that `p` accepts: what a split on `p`
gives, without its empty pieces.

* `runs_append_of_sep` and `runs_append_cons` are the two steps of a loop that skips separators and
  takes a run.
* `infix_of_mem_runs` and `length_runs_le`: every run lies in the list, and there are no more of
  them than it has elements.
-/

set_option autoImplicit false

namespace TinyRedis.Lib

variable {α : Type*} {p : α → Bool}

/-- The maximal runs of elements that are no separators, in order. -/
def runs (p : α → Bool) (s : List α) : List (List α) := (s.splitOnP p).filter (!·.isEmpty)

/-- An empty list has no run. -/
@[simp] theorem runs_nil : runs p [] = [] := by
  rw [runs, List.splitOnP_nil]
  rfl

/-- A separator in front makes no run. -/
theorem runs_cons_of_sep {a : α} (h : p a = true) (s : List α) : runs p (a :: s) = runs p s := by
  rw [runs, List.splitOnP_cons_eq_if_modifyHead, if_pos h]
  exact List.filter_cons_of_neg (by simp)

/-- Separators in front make no run. -/
theorem runs_append_of_sep {w : List α} (h : ∀ a ∈ w, p a = true) (s : List α) :
    runs p (w ++ s) = runs p s := by
  induction w with
  | nil => rfl
  | cons a w ih =>
    rw [List.cons_append, runs_cons_of_sep (h a (by simp))]
    exact ih fun b hb => h b (by simp [hb])

/-- Separators alone make no run. -/
theorem runs_of_all_sep {s : List α} (h : ∀ a ∈ s, p a = true) : runs p s = [] := by
  rw [← List.append_nil s, runs_append_of_sep h, runs_nil]

/-- A piece that is not empty is kept. -/
theorem filter_nonempty_cons {w : List α} (hne : w ≠ []) (ws : List (List α)) :
    (w :: ws).filter (!·.isEmpty) = w :: ws.filter (!·.isEmpty) :=
  List.filter_cons_of_pos (by simpa using hne)

/-- A list without a separator is one run. -/
theorem runs_of_no_sep {w : List α} (hne : w ≠ []) (h : ∀ a ∈ w, p a = false) :
    runs p w = [w] := by
  rw [runs, List.splitOnP_eq_singleton h, filter_nonempty_cons hne]
  rfl

/-- A run ends at the next separator. -/
theorem runs_append_cons {w : List α} (hne : w ≠ []) (h : ∀ a ∈ w, p a = false) {b : α}
    (hb : p b = true) (s : List α) : runs p (w ++ b :: s) = w :: runs p (b :: s) := by
  rw [runs_cons_of_sep hb, runs, List.splitOnP_append_cons_of_forall_mem h b hb,
    filter_nonempty_cons hne]
  rfl

/-- The pieces of a split lie in the list, the first one at its front. -/
theorem exists_splitOnP (p : α → Bool) (s : List α) :
    ∃ w ws, s.splitOnP p = w :: ws ∧ w <+: s ∧ ∀ v ∈ ws, v <:+: s := by
  induction s with
  | nil => exact ⟨[], [], List.splitOnP_nil, List.prefix_rfl, nofun⟩
  | cons a s ih =>
    obtain ⟨w, ws, hsplit, hw, hws⟩ := ih
    have hin : ∀ v ∈ ws, v <:+: a :: s := fun v hv => List.infix_cons (hws v hv)
    rw [List.splitOnP_cons_eq_if_modifyHead, hsplit]
    by_cases ha : p a = true
    · rw [if_pos ha]
      refine ⟨[], w :: ws, rfl, List.nil_prefix, ?_⟩
      rintro v (_ | ⟨_, hv⟩)
      · exact List.infix_cons hw.isInfix
      · exact hin v hv
    · rw [if_neg ha]
      exact ⟨a :: w, ws, rfl, (List.prefix_cons_inj a).mpr hw, hin⟩

/-- Every run stands in the list as it is. -/
theorem infix_of_mem_runs {s v : List α} (h : v ∈ runs p s) : v <:+: s := by
  obtain ⟨w, ws, hsplit, hw, hws⟩ := exists_splitOnP p s
  have hmem : v ∈ w :: ws := hsplit ▸ List.mem_of_mem_filter h
  rcases List.mem_cons.mp hmem with rfl | hv
  · exact hw.isInfix
  · exact hws v hv

/-- There are at most as many runs as elements. -/
theorem length_runs_le (p : α → Bool) (s : List α) : (runs p s).length ≤ s.length := by
  induction s with
  | nil => simp
  | cons a s ih =>
    by_cases ha : p a = true
    · rw [runs_cons_of_sep ha, List.length_cons]
      omega
    -- The first piece grows, and may have been empty.
    · obtain ⟨w, ws, hsplit, -⟩ := exists_splitOnP p s
      have hcons : runs p (a :: s) = (a :: w) :: ws.filter (!·.isEmpty) := by
        rw [runs, List.splitOnP_cons_eq_if_modifyHead, if_neg ha, hsplit]
        exact filter_nonempty_cons (by simp) ws
      have hle : (ws.filter (!·.isEmpty)).length ≤ (runs p s).length := by
        rw [runs, hsplit]
        exact ((List.sublist_cons_self w ws).filter _).length_le
      rw [hcons, List.length_cons, List.length_cons]
      omega

end TinyRedis.Lib
