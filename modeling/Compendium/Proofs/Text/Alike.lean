/-
# `Compendium.Proofs.Text.Alike` — two texts whose rows correspond, before and after trimming

A text and its restyled form have as many rows as each other, and row corresponds to row.  Trimming
takes rows away at both ends, and shortens the first and the last one that are left.  If rows that
correspond are blank together and correspond again when they are trimmed (`Alike`), then the rows
of the trimmed texts correspond (`forall₂_rows_trim`).

The start is seen row by row (`rows_trimStart`); the end is the start of the reversed text.
-/
import Compendium.Proofs.Text.Row
import Compendium.Proofs.Text.Trim
import Mathlib.Data.List.Forall2

namespace Compendium.Text

/-- A correspondence of rows that trimming keeps. -/
structure Alike (Q : Text → Text → Prop) : Prop where
  start : ∀ r s, Q r s → Q (trimStart r) (trimStart s)
  stop : ∀ r s, Q r s → Q (trimEnd r) (trimEnd s)
  blank : ∀ r s, Q r s → (trimStart r = [] ↔ trimStart s = [])

theorem Alike.and_trim {Q : Text → Text → Prop} (hQ : Alike Q) (P : Text → Text → Prop) :
    Alike fun r s => Q r s ∧ P (trim r) (trim s) where
  start := fun r s h => ⟨hQ.start r s h.1, by rw [trim_trimStart, trim_trimStart]; exact h.2⟩
  stop := fun r s h => ⟨hQ.stop r s h.1, by rw [trim_trimEnd, trim_trimEnd]; exact h.2⟩
  blank := fun r s h => hQ.blank r s h.1

/-! ## The start of a text, row by row -/

/-- The rows of a text without the blanks at its start. -/
def startRows : List Text → List Text
  | [] => []
  | [r] => [trimStart r]
  | r :: q :: rs => if trimStart r = [] then startRows (q :: rs) else trimStart r :: q :: rs

theorem startRows_cons {r : Text} {rs : List Text} (hne : rs ≠ []) :
    startRows (r :: rs) = if trimStart r = [] then startRows rs else trimStart r :: rs := by
  obtain ⟨q, qs, rfl⟩ := List.exists_cons_of_ne_nil hne
  rfl

theorem not_mem_trimStart {s : Text} (hs : '\n' ∉ s) : '\n' ∉ trimStart s :=
  fun hm => hs (mem_of_mem_dropWhile hm)

theorem trimStart_append_break (s t : Text) :
    trimStart (s ++ '\n' :: t) =
      if trimStart s = [] then trimStart t else trimStart s ++ '\n' :: t := by
  by_cases he : (s.dropWhile isBlank).isEmpty = true
  · have hs : trimStart s = [] := List.isEmpty_iff.mp he
    rw [if_pos hs, trimStart, List.dropWhile_append, if_pos he,
      List.dropWhile_cons_of_pos (by decide)]
    rfl
  · have hs : trimStart s ≠ [] := fun h => he (List.isEmpty_iff.mpr h)
    rw [if_neg hs, trimStart, List.dropWhile_append, if_neg he]
    rfl

theorem rows_trimStart (t : Text) : rows (trimStart t) = startRows (rows t) := by
  induction t using rowInduction with
  | last s hs => rw [rows_of_row hs, rows_of_row (not_mem_trimStart hs), startRows]
  | cut s t hs ih =>
      rw [rows_append_break, rows_of_row hs, List.singleton_append,
        startRows_cons (rows_ne_nil t), ← ih, trimStart_append_break]
      by_cases he : trimStart s = []
      · rw [if_pos he, if_pos he]
      · rw [if_neg he, if_neg he, rows_append_break, rows_of_row (not_mem_trimStart hs)]
        rfl

/-! ## The end of a text -/

theorem rows_reverse (t : Text) : rows t.reverse = ((rows t).map List.reverse).reverse := by
  induction t using rowInduction with
  | last s hs =>
      rw [rows_of_row hs, rows_of_row fun hm => hs (List.mem_reverse.mp hm)]
      rfl
  | cut s t hs ih =>
      rw [rows_append_break, rows_of_row hs, List.reverse_append, List.reverse_cons,
        List.append_assoc, List.singleton_append, rows_append_break, ih,
        rows_of_row fun hm => hs (List.mem_reverse.mp hm)]
      simp only [List.singleton_append, List.map_cons, List.reverse_cons]

theorem rows_trimEnd_of_row {s : Text} (hs : '\n' ∉ s) : rows (trimEnd s) = [trimEnd s] :=
  rows_of_row fun hm => hs (mem_of_mem_dropEndWhile hm)

theorem rows_trim_of_row {s : Text} (hs : '\n' ∉ s) : rows (trim s) = [trim s] :=
  rows_of_row fun hm => hs (mem_of_mem_trim hm)

theorem trimEnd_eq_nil_iff {t : Text} : trimEnd t = [] ↔ trimStart t = [] :=
  List.rdropWhile_eq_nil_iff.trans List.dropWhile_eq_nil_iff.symm

theorem trimEnd_append_break (s t : Text) :
    trimEnd (s ++ '\n' :: t) = if trimEnd t = [] then trimEnd s else s ++ '\n' :: trimEnd t := by
  have hback : (s ++ '\n' :: t).reverse = t.reverse ++ '\n' :: s.reverse := by simp
  have hnil : trimEnd t = [] ↔ trimStart t.reverse = [] := List.reverse_eq_nil_iff
  rw [trimEnd, dropEndWhile, hback, ← trimStart, trimStart_append_break]
  by_cases ht : trimEnd t = []
  · rw [if_pos ht, if_pos (hnil.mp ht)]
    rfl
  · rw [if_neg ht, if_neg fun h => ht (hnil.mpr h), List.reverse_append, List.reverse_cons,
      List.reverse_reverse, List.append_assoc]
    rfl

/-- A text is trimmed in its first row, or behind it, where that row is blank. -/
theorem trim_append_break (s t : Text) :
    trim (s ++ '\n' :: t) =
      if trimStart s = [] then trim t
      else if trimEnd t = [] then trim s else trimStart s ++ '\n' :: trimEnd t := by
  rw [trim, trimStart_append_break]
  by_cases hs : trimStart s = []
  · rw [if_pos hs, if_pos hs]
    rfl
  · rw [if_neg hs, if_neg hs, trimEnd_append_break]
    rfl

/-! ## The first and the last row -/

/-- The last row of a text is the last one still, up to blanks, when the start is trimmed. -/
theorem exists_rows_trimStart {v r : Text} (hv : v = [] ∨ ∃ u, v = u ++ ['\n']) (hr : '\n' ∉ r) :
    ∃ rs q, rows (trimStart (v ++ r)) = rs ++ [q] ∧ trim q = trim r := by
  rcases hv with rfl | ⟨u, rfl⟩
  · exact ⟨[], trimStart r, rows_of_row (not_mem_trimStart hr), trim_trimStart r⟩
  · rw [List.append_assoc, List.singleton_append, trimStart_append_break]
    split
    · exact ⟨[], trimStart r, rows_of_row (not_mem_trimStart hr), trim_trimStart r⟩
    · exact ⟨rows (trimStart u), r, by rw [rows_append_break, rows_of_row hr], rfl⟩

theorem exists_rows_trimEnd {r v : Text} (hr : '\n' ∉ r) (hv : ∀ c ∈ v.head?, c = '\n') :
    ∃ q rs, rows (trimEnd (r ++ v)) = q :: rs ∧ trim q = trim r := by
  cases v with
  | nil =>
      rw [List.append_nil]
      exact ⟨trimEnd r, [], rows_trimEnd_of_row hr, trim_trimEnd r⟩
  | cons c u =>
      obtain rfl := hv c rfl
      rw [trimEnd_append_break]
      split
      · exact ⟨trimEnd r, [], rows_trimEnd_of_row hr, trim_trimEnd r⟩
      · refine ⟨r, rows (trimEnd u), ?_, rfl⟩
        rw [rows_append_break, rows_of_row hr]
        rfl

/-! ## Trimming two texts -/

section Alike

variable {Q : Text → Text → Prop} {s t : Text}

theorem forall₂_startRows (hstart : ∀ r s, Q r s → Q (trimStart r) (trimStart s))
    (hblank : ∀ r s, Q r s → (trimStart r = [] ↔ trimStart s = []))
    {rs qs : List Text} (h : List.Forall₂ Q rs qs) :
    List.Forall₂ Q (startRows rs) (startRows qs) := by
  induction h with
  | nil => exact .nil
  | @cons r q rs qs hrq hrest ih =>
      cases hrest with
      | nil => exact .cons (hstart r q hrq) .nil
      | cons hnext hrest =>
          rw [startRows_cons (List.cons_ne_nil _ _), startRows_cons (List.cons_ne_nil _ _)]
          by_cases hr : trimStart r = []
          · rw [if_pos hr, if_pos ((hblank r q hrq).mp hr)]
            exact ih
          · rw [if_neg hr, if_neg fun hq => hr ((hblank r q hrq).mpr hq)]
            exact .cons (hstart r q hrq) (.cons hnext hrest)

theorem forall₂_rows_reverse (h : List.Forall₂ Q (rows s) (rows t)) :
    List.Forall₂ (fun r q => Q r.reverse q.reverse) (rows s.reverse) (rows t.reverse) := by
  rw [rows_reverse, rows_reverse, List.forall₂_reverse_iff, List.forall₂_map_left_iff,
    List.forall₂_map_right_iff]
  simpa only [List.reverse_reverse] using h

theorem trimStart_eq_nil_iff {r : Text} : trimStart r = [] ↔ ∀ c ∈ r, isBlank c = true :=
  List.dropWhile_eq_nil_iff

theorem forall₂_rows_trim (hQ : Alike Q) (h : List.Forall₂ Q (rows s) (rows t)) :
    List.Forall₂ Q (rows (trim s)) (rows (trim t)) := by
  have hstart : List.Forall₂ Q (rows (trimStart s)) (rows (trimStart t)) := by
    rw [rows_trimStart, rows_trimStart]
    exact forall₂_startRows hQ.start hQ.blank h
  -- the reversed rows correspond, and are trimmed at their start
  have hback : List.Forall₂ (fun r q => Q r.reverse q.reverse)
      (rows (trimStart (trimStart s).reverse)) (rows (trimStart (trimStart t).reverse)) := by
    rw [rows_trimStart, rows_trimStart]
    refine forall₂_startRows (fun r q hrq => ?_) (fun r q hrq => ?_)
      (forall₂_rows_reverse hstart)
    · have := hQ.stop _ _ hrq
      simp only [trimEnd, dropEndWhile, List.reverse_reverse] at this
      exact this
    · have := hQ.blank _ _ hrq
      simp only [trimStart_eq_nil_iff, List.mem_reverse] at this ⊢
      exact this
  have := forall₂_rows_reverse hback
  simp only [List.reverse_reverse] at this
  exact this

theorem flatMap_rows_eq {β : Type} {f g : Text → List β} (hf : ∀ r q, Q r q → f r = g q)
    (h : List.Forall₂ Q (rows s) (rows t)) : (rows s).flatMap f = (rows t).flatMap g := by
  have hrel : List.Forall₂ Eq ((rows s).flatMap f) ((rows t).flatMap g) :=
    List.rel_flatMap h fun r q hrq => List.forall₂_eq_eq_eq ▸ hf r q hrq
  rwa [List.forall₂_eq_eq_eq] at hrel

end Alike
end Compendium.Text
