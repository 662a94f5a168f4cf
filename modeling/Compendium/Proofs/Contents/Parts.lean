/-
# `Compendium.Proofs.Contents.Parts` — a text taken apart at its markers

`parts` takes a text apart as `clear` does: what stands before the first marker, and then each
marker with what follows it up to the next.  A marker has with it all the breaks around it, so what
stands beside it neither ends nor begins with one (`isChain_stretches`), and three breaks in a row
lie in one part of the text (`piled_iff_parts`).

The breaks between two markers all belong to the first one.  Where nothing else is between them,
taking them out leaves one blank line for each of the two and nothing in between: in this way, and
in no other, `clear` piles up blank lines (`piled_clear_iff`).
-/
import Compendium.Proofs.Contents.Marker
import Compendium.Proofs.Text.Piled

namespace Compendium.Marker

variable {t before after : Text}

/-! ## The first marker and the breaks around it -/

/-- A marker with gaps and breaks around it. -/
inductive Widened : Text → Prop
  | mk {x l y : Text} : (∀ c ∈ x, isBreak c = true) → Spaced l → (∀ c ∈ y, isBreak c = true) →
      Widened (x ++ l ++ y)

theorem Widened.not_mem {m : Text} (h : Widened m) : '#' ∉ m := by
  obtain @⟨x, l, y, hx, hl, hy⟩ := h
  have hbreaks {z : Text} (hz : ∀ c ∈ z, isBreak c = true) : '#' ∉ z := fun hm =>
    absurd (hz _ hm) (by decide)
  simp only [List.mem_append, not_or]
  exact ⟨⟨hbreaks hx, hl.not_mem⟩, hbreaks hy⟩

/-- The first marker is found with all the breaks around it, and where something stands before or
behind it, there is a break between. -/
theorem first?_eq_some (h : first? t = some (before, after)) :
    ∃ m, t = before ++ m ++ after ∧ Widened m ∧
      before.getLast? ≠ some '\n' ∧ after.head? ≠ some '\n' ∧
      (before = [] ∨ ∃ u, m = '\n' :: u) ∧ (after = [] ∨ ∃ u, m = u ++ ['\n']) := by
  simp only [first?, Option.map_eq_some_iff, Prod.exists, Prod.mk.injEq] at h
  obtain ⟨before, after, hfind, rfl, rfl⟩ := h
  obtain ⟨l, rest, rfl, hl, rfl, hend, hbefore⟩ := find_eq_some hfind
  have hx : Text.dropBreaks before ++ before.rtakeWhile isBreak = before :=
    List.rdropWhile_append_rtakeWhile
  refine ⟨before.rtakeWhile isBreak ++ l ++ rest.takeWhile isBreak, ?_,
    .mk (fun c hc => List.mem_rtakeWhile_imp hc) hl fun c hc => List.mem_takeWhile_imp hc,
    Text.getLast?_dropBreaks_ne before, Text.head?_dropWhile_isBreak_ne rest, ?_, ?_⟩
  · nth_rewrite 1 [← hx, ← List.takeWhile_append_dropWhile (p := isBreak) (l := rest)]
    simp only [List.append_assoc]
  · rcases hbefore with ⟨rfl, -⟩ | ⟨u, rfl⟩
    · exact .inl rfl
    · -- the break that ends the line before goes with the marker
      have hne : (u ++ ['\n']).rtakeWhile isBreak ≠ [] := by
        rw [List.rtakeWhile_concat_pos _ _ _ rfl]
        exact List.append_ne_nil_of_right_ne_nil _ (List.cons_ne_nil _ _)
      obtain ⟨c, x, hx⟩ := List.exists_cons_of_ne_nil hne
      have hc : isBreak c = true := List.mem_rtakeWhile_imp (hx ▸ List.mem_cons_self)
      rw [hx, beq_iff_eq.mp hc]
      exact .inr ⟨_, rfl⟩
  · rcases hend with rfl | ⟨v, rfl⟩
    · exact .inl rfl
    · rcases List.eq_nil_or_concat' (('\n' :: v).takeWhile isBreak) with hy | ⟨y, c, hy⟩
      · cases hy
      · have hc : isBreak c = true := List.mem_takeWhile_imp (hy ▸ List.mem_concat_self)
        rw [hy, ← List.append_assoc, beq_iff_eq.mp hc]
        exact .inr ⟨_, rfl⟩

/-! ## All markers -/

/-- A text taken apart at its markers: what stands before the first one, and each marker with the
breaks around it and what follows up to the next. -/
structure Parts where
  lead : Text
  rest : List (Text × Text)
deriving DecidableEq

namespace Parts

def push (before m : Text) (p : Parts) : Parts := ⟨before, (m, p.lead) :: p.rest⟩

def text (p : Parts) : Text := p.lead ++ p.rest.flatMap fun (m, s) => m ++ s

def markers (p : Parts) : List Text := p.rest.map Prod.fst

/-- What stands before, between and behind the markers. -/
def stretches (p : Parts) : List Text := p.lead :: p.rest.map Prod.snd

variable {before m : Text} {p : Parts}

@[simp] theorem text_push : (push before m p).text = before ++ m ++ p.text := by
  simp only [push, text, List.flatMap_cons, List.append_assoc]

@[simp] theorem markers_push : (push before m p).markers = m :: p.markers := rfl

@[simp] theorem stretches_push : (push before m p).stretches = before :: p.stretches := rfl

end Parts

/-- What stands between the start and the end of a text. -/
def between (t before after : Text) : Text := (t.drop before.length).rdrop after.length

theorem between_eq {m : Text} (h : t = before ++ m ++ after) : between t before after = m := by
  rw [between, h, List.append_assoc, List.drop_left, List.rdrop_append_length]

def parts (t : Text) : Parts :=
  match _h : first? t with
  | none => ⟨t, []⟩
  | some (before, after) => (parts after).push before (between t before after)
termination_by t.length
decreasing_by exact length_first?_lt _h

theorem parts_of_none (h : first? t = none) : parts t = ⟨t, []⟩ := by
  rw [parts]
  split
  · rfl
  · next he => exact absurd (he.symm.trans h) (Option.some_ne_none _)

theorem parts_of_some (h : first? t = some (before, after)) :
    parts t = (parts after).push before (between t before after) := by
  rw [parts]
  split
  · next he => exact absurd (h.symm.trans he) (Option.some_ne_none _)
  · next he =>
    obtain ⟨rfl, rfl⟩ := Prod.mk.inj (Option.some.inj (he.symm.trans h))
    rfl

theorem text_parts (t : Text) : (parts t).text = t := by
  fun_induction parts t with
  | case1 t hf => exact List.append_nil t
  | case2 t before after hf ih =>
      obtain ⟨m, ht, -⟩ := first?_eq_some hf
      rw [Parts.text_push, ih, between_eq ht, ← ht]

/-- `blankOut` takes out the markers and leaves the rest. -/
theorem blankOut_eq_setApart (t : Text) : blankOut t = Text.setApart (parts t).stretches := by
  fun_induction blankOut t with
  | case1 t hf => rw [parts_of_none hf, Parts.stretches, List.map_nil, Text.setApart_singleton]
  | case2 t before after hf ih =>
      rw [parts_of_some hf, Parts.stretches_push, ih]
      exact (Text.setApart_cons_cons _ _ _).symm

theorem head?_lead_ne (h : t.head? ≠ some '\n') : (parts t).lead.head? ≠ some '\n' := by
  intro hl
  obtain ⟨u, hu⟩ := List.head?_eq_some_iff.mp hl
  rw [← text_parts t, Parts.text, hu] at h
  exact h rfl

/-- No break stands right before a marker or right behind one. -/
theorem isChain_stretches (t : Text) : (parts t).stretches.IsChain Text.Flush := by
  fun_induction parts t with
  | case1 t hf => exact .singleton t
  | case2 t before after hf ih =>
      obtain ⟨m, -, -, hlast, hhead, -⟩ := first?_eq_some hf
      exact .cons_cons ⟨hlast, head?_lead_ne hhead⟩ ih

theorem widened_of_mem_markers {m : Text} (hm : m ∈ (parts t).markers) : Widened m := by
  fun_induction parts t with
  | case1 t hf => exact absurd hm List.not_mem_nil
  | case2 t before after hf ih =>
      obtain ⟨n, ht, hn, -⟩ := first?_eq_some hf
      rw [Parts.markers_push, between_eq ht] at hm
      rcases List.mem_cons.mp hm with rfl | hm
      · exact hn
      · exact ih hm

/-! ## What is made of the parts -/

section Rowwise

variable {β : Type} {f : Text → List β}

/-- A marker is cut out at breaks, so what is made of a text row by row is made of what comes before
the marker, of the marker, and of what comes behind it. -/
theorem rowwise_first? (hf : Rowwise f) (h : first? t = some (before, after)) :
    f t = f before ++ f (between t before after) ++ f after := by
  obtain ⟨m, ht, -, -, -, hbefore, hafter⟩ := first?_eq_some h
  have hcut : f (before ++ m) = f before ++ f m := by
    rcases hbefore with rfl | hm
    · rw [List.nil_append, hf.nil, List.nil_append]
    · exact hf.append_of_head (.inr hm)
  rw [between_eq ht, ht, ← hcut]
  rcases hafter with rfl | ⟨u, rfl⟩
  · rw [List.append_nil, hf.nil, List.append_nil]
  · exact hf.append_of_last (.inr ⟨before ++ u, (List.append_assoc _ _ _).symm⟩)

theorem rowwise_parts (hf : Rowwise f) (t : Text) :
    f t = f (parts t).lead ++ (parts t).rest.flatMap fun (m, s) => f m ++ f s := by
  fun_induction parts t with
  | case1 t hf => rw [List.flatMap_nil, List.append_nil]
  | case2 t before after h ih =>
      rw [rowwise_first? hf h, ih, Parts.push, List.flatMap_cons]
      simp only [List.append_assoc]

theorem rowwise_setApart (hf : Rowwise f) (ts : List Text) :
    f (Text.setApart ts) = ts.flatMap f := by
  induction ts with
  | nil => exact hf.nil
  | cons t ts ih =>
      cases ts with
      | nil => rw [Text.setApart_singleton, List.flatMap_singleton]
      | cons s ts =>
          rw [Text.setApart_cons_cons, List.append_assoc, List.flatMap_cons, ← ih]
          exact (hf.append_break _ _).trans (congrArg (f t ++ ·) (hf.break_cons _))

end Rowwise

/-! ## Blank lines on top of each other -/

open Text (Piled)

theorem piled_iff_parts (t : Text) :
    Piled t ↔ (∃ m ∈ (parts t).markers, Piled m) ∨ ∃ s ∈ (parts t).stretches, Piled s := by
  fun_induction parts t with
  | case1 t hf => simp only [Parts.markers, Parts.stretches, List.map_nil, List.not_mem_nil,
      false_and, exists_false, false_or, List.mem_singleton, exists_eq_left]
  | case2 t before after hf ih =>
      obtain ⟨m, ht, -, hlast, hhead, -⟩ := first?_eq_some hf
      rw [between_eq ht, ht, Text.piled_append_iff (.inr hhead), Text.piled_append_iff (.inl hlast),
        ih, Parts.markers_push, Parts.stretches_push, List.exists_mem_cons_iff,
        List.exists_mem_cons_iff, or_comm (a := Piled before), or_or_or_comm]

/-- The text without its markers is what stands around them, with one blank line for each.  If no
three breaks in a row stand outside the markers, then it has three in a row exactly if two markers
have nothing but breaks between them, with more than blanks before them and behind them. -/
theorem piled_clear_iff (t : Text) :
    (parts t).text = t ∧ clear t = Text.trim (Text.setApart (parts t).stretches) ∧
    (parts t).stretches.IsChain Text.Flush ∧
    (Piled t ↔ (∃ m ∈ (parts t).markers, Piled m) ∨ ∃ s ∈ (parts t).stretches, Piled s) ∧
    ((∀ s ∈ (parts t).stretches, ¬ Piled s) →
      (Piled (clear t) ↔ ∃ l r, (parts t).stretches = l ++ [] :: r ∧
        (∃ s ∈ l, Text.trim s ≠ []) ∧ ∃ s ∈ r, Text.trim s ≠ [])) := by
  have hclear : clear t = Text.trim (Text.setApart (parts t).stretches) :=
    congrArg Text.trim (blankOut_eq_setApart t)
  refine ⟨text_parts t, hclear, isChain_stretches t, piled_iff_parts t, fun h => ?_⟩
  rw [hclear]
  exact Text.piled_trim_setApart_iff (isChain_stretches t) h

theorem piled_clear_iff_spread :
    (∀ s ∈ (parts "A\n\n\n[[_TOC_]]\n\nB\n[[_TOC_]]\n\n\nC".toList).stretches, ¬ Piled s) ∧
    ¬ Piled (clear "A\n\n\n[[_TOC_]]\n\nB\n[[_TOC_]]\n\n\nC".toList) := by
  have hstretches : (parts "A\n\n\n[[_TOC_]]\n\nB\n[[_TOC_]]\n\n\nC".toList).stretches =
      [['A'], ['B'], ['C']] := by decide +kernel
  have hplain : ∀ s ∈ [['A'], ['B'], ['C']], ¬ Piled s := by decide
  have hiff := (piled_clear_iff "A\n\n\n[[_TOC_]]\n\nB\n[[_TOC_]]\n\n\nC".toList).2.2.2.2
  rw [hstretches] at hiff ⊢
  refine ⟨hplain, fun h => ?_⟩
  obtain ⟨l, r, hlr, -⟩ := (hiff hplain).mp h
  have hmem : [] ∈ [['A'], ['B'], ['C']] := hlr ▸ List.mem_append_right l List.mem_cons_self
  exact absurd hmem (by decide)

/-- Two markers in a row leave three blank lines, where nothing was piled up before. -/
theorem piled_clear_adjacent :
    ¬ Piled "A\n\n[[_TOC_]]\n\n[[_TOC_]]\n\nB".toList ∧
    clear "A\n\n[[_TOC_]]\n\n[[_TOC_]]\n\nB".toList = "A\n\n\n\nB".toList ∧
    Piled "A\n\n\n\nB".toList := by
  refine ⟨by decide +kernel, by decide +kernel, by decide +kernel⟩

end Compendium.Marker
