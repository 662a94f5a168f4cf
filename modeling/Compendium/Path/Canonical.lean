/-
# `Compendium.Path.Canonical` — one spelling for each way of writing a path

`Path.canonical` takes a path's steps one after the other: a dot is dropped, a
move to the parent takes back the name before it, and all else is kept.  A
move up at the root, or where nothing but moves up came before, stays.  No
disk is asked.

A canonical path takes the steps that it was made from (`steps_canonical`), so
its own canonical path is itself (`canonical_canonical`).
-/
import Compendium.Path.Basic

namespace Compendium

namespace Step

/-- Adds a step to canonical steps, which are given newest first. -/
def fold : List Step → Step → List Step
  | kept, .here => kept
  | .name _ :: kept, .up => kept
  | kept, s => s :: kept

/-- The canonical form of a list of steps. -/
def canonical (steps : List Step) : List Step := (steps.foldl fold []).reverse

end Step

/-- The path with the same meaning and no needless step. -/
def Path.canonical (p : Path) : Path := Path.ofSteps (Step.canonical p.steps)

/-! ## Which lists of steps are canonical -/

namespace Step

/-- Steps, newest first, none of which `fold` would drop or take back. -/
inductive Settled : List Step → Prop
  | nil : Settled []
  | cons {s : Step} {kept : List Step} : fold kept s = s :: kept → Settled kept →
      Settled (s :: kept)

theorem settled_fold {kept : List Step} (h : Settled kept) (s : Step) : Settled (fold kept s) := by
  simp only [fold]
  split
  · exact h
  · cases h with
    | cons _ h => exact h
  · next h₁ h₂ =>
    refine .cons ?_ h
    unfold fold
    split
    · exact absurd rfl h₁
    · exact absurd rfl (h₂ _ _ rfl)
    · rfl

theorem settled_foldl {kept : List Step} (h : Settled kept) (steps : List Step) :
    Settled (steps.foldl fold kept) := by
  induction steps generalizing kept with
  | nil => exact h
  | cons s steps ih => exact ih (settled_fold h s)

theorem foldl_fold_reverse {kept : List Step} (h : Settled kept) :
    kept.reverse.foldl fold [] = kept := by
  induction h with
  | nil => rfl
  | cons hs _ ih => rw [List.reverse_cons, List.foldl_append, ih]; exact hs

theorem canonical_canonical (steps : List Step) : canonical (canonical steps) = canonical steps := by
  simp only [canonical]
  rw [foldl_fold_reverse (settled_foldl .nil steps)]

/-- A piece of a path that is a step, and is read back from its text. -/
def IsPiece (s : Step) : Prop := '/' ∉ s.text ∧ s.text ≠ [] ∧ ofPiece? s.text = some s

theorem isPiece_of_ofPiece? {piece : Text} {s : Step} (hp : '/' ∉ piece)
    (h : ofPiece? piece = some s) : s.IsPiece := by
  have h' := h
  simp only [ofPiece?] at h
  split at h
  · cases h
  · next hn =>
    split at h
    · cases h
    · split at h
      · simp only [Option.some.injEq] at h
        subst h
        exact ⟨by decide, by decide, by decide⟩
      · simp only [Option.some.injEq] at h
        subst h
        exact ⟨hp, hn, h'⟩

theorem not_mem_of_mem_splitOn {x : Char} {piece : Text} :
    ∀ {t : Text}, piece ∈ t.splitOn x → x ∉ piece
  | [], h => by
    simp only [List.splitOn_nil, List.mem_singleton] at h
    simp [h]
  | c :: t, h => by
    simp only [List.splitOn] at h
    rw [List.splitOnP_cons_eq_if_modifyHead] at h
    split at h
    · rcases List.mem_cons.mp h with rfl | h
      · simp
      · exact not_mem_of_mem_splitOn h
    · next hc =>
      obtain ⟨q, qs, hq⟩ := List.exists_cons_of_ne_nil (List.splitOn_ne_nil x t)
      have hq' : List.splitOnP (· == x) t = q :: qs := hq
      rw [hq', List.modifyHead_cons] at h
      rcases List.mem_cons.mp h with rfl | h
      · have := not_mem_of_mem_splitOn (hq ▸ List.mem_cons_self : q ∈ t.splitOn x)
        simp only [beq_iff_eq] at hc
        simp [this, Ne.symm hc]
      · exact not_mem_of_mem_splitOn (hq ▸ List.mem_cons_of_mem _ h)

theorem isPiece_of_mem {pieces : List Text} (hp : ∀ p ∈ pieces, '/' ∉ p) {s : Step}
    (h : s ∈ pieces.filterMap ofPiece?) : s.IsPiece := by
  obtain ⟨piece, hm, hs⟩ := List.mem_filterMap.mp h
  exact isPiece_of_ofPiece? (hp piece hm) hs

theorem filterMap_ofPiece?_map_text {steps : List Step} (h : ∀ s ∈ steps, s.IsPiece) :
    (steps.map Step.text).filterMap ofPiece? = steps := by
  induction steps with
  | nil => rfl
  | cons s steps ih =>
    rw [List.map_cons, List.filterMap_cons_some (h s (List.mem_cons_self ..)).2.2,
      ih fun s hs => h s (List.mem_cons_of_mem _ hs)]

theorem root_not_isPiece : ¬ IsPiece .root := fun h => h.2.1 rfl

/-- Steps that a canonical path takes: pieces, after the root or not. -/
inductive Presentable : List Step → Prop
  | absolute {steps : List Step} : (∀ s ∈ steps, s.IsPiece) → Presentable (.root :: steps)
  | relative {steps : List Step} : (∀ s ∈ steps, s.IsPiece) → Presentable steps

theorem mem_fold {kept : List Step} {s x : Step} (h : x ∈ fold kept s) :
    x ∈ kept ∨ (x = s ∧ s ≠ .here) := by
  simp only [fold] at h
  split at h
  · exact .inl h
  · exact .inl (List.mem_cons_of_mem _ h)
  · next h₁ _ =>
    rcases List.mem_cons.mp h with rfl | h
    · exact .inr ⟨rfl, h₁⟩
    · exact .inl h

theorem fold_concat_root (kept : List Step) (s : Step) :
    ∃ kept', fold (kept ++ [.root]) s = kept' ++ [.root] ∧
      ∀ x ∈ kept', x ∈ kept ∨ (x = s ∧ s ≠ .here) := by
  simp only [fold]
  split
  · exact ⟨kept, rfl, fun x h => .inl h⟩
  · next k h =>
    cases kept with
    | nil => simp at h
    | cons a kept =>
      rw [List.cons_append, List.cons.injEq] at h
      exact ⟨kept, h.2.symm, fun x hx => .inl (List.mem_cons_of_mem _ hx)⟩
  · next h _ =>
    refine ⟨_ :: kept, rfl, fun x hx => ?_⟩
    rcases List.mem_cons.mp hx with rfl | hx
    · exact .inr ⟨rfl, h⟩
    · exact .inl hx

theorem mem_foldl_fold {steps kept : List Step} {x : Step} (h : x ∈ steps.foldl fold kept) :
    x ∈ kept ∨ (x ∈ steps ∧ x ≠ .here) := by
  induction steps generalizing kept with
  | nil => exact .inl h
  | cons s steps ih =>
    rcases ih h with h | h
    · rcases mem_fold h with h | ⟨rfl, hs⟩
      · exact .inl h
      · exact .inr ⟨List.mem_cons_self .., hs⟩
    · exact .inr ⟨List.mem_cons_of_mem _ h.1, h.2⟩

theorem foldl_fold_concat_root (steps kept : List Step) :
    ∃ kept', steps.foldl fold (kept ++ [.root]) = kept' ++ [.root] ∧
      ∀ x ∈ kept', x ∈ kept ∨ (x ∈ steps ∧ x ≠ .here) := by
  induction steps generalizing kept with
  | nil => exact ⟨kept, rfl, fun x h => .inl h⟩
  | cons s steps ih =>
    obtain ⟨k, hk, hm⟩ := fold_concat_root kept s
    obtain ⟨k', hk', hm'⟩ := ih k
    refine ⟨k', by rw [List.foldl_cons, hk, hk'], fun x hx => ?_⟩
    rcases hm' x hx with h | h
    · rcases hm x h with h | ⟨rfl, hs⟩
      · exact .inl h
      · exact .inr ⟨List.mem_cons_self .., hs⟩
    · exact .inr ⟨List.mem_cons_of_mem _ h.1, h.2⟩

end Step

namespace Path

open Step

/-- A path takes the root and then pieces, or pieces and dots. -/
theorem steps_cases (p : Path) :
    (∃ steps, p.steps = .root :: steps ∧ ∀ s ∈ steps, s.IsPiece) ∨
      ∀ s ∈ p.steps, s = .here ∨ s.IsPiece := by
  simp only [steps]
  split
  · exact .inl ⟨_, rfl, fun s h => isPiece_of_mem (fun _ => not_mem_of_mem_splitOn) h⟩
  · next t _ =>
    right
    split
    · next rest hr =>
      intro s h
      rcases List.mem_cons.mp h with rfl | h
      · exact .inl rfl
      · exact .inr (isPiece_of_mem
          (fun q hq => not_mem_of_mem_splitOn (hr ▸ List.mem_cons_of_mem _ hq)) h)
    · exact fun s h => .inr (isPiece_of_mem (fun _ => not_mem_of_mem_splitOn) h)

/-- Canonical steps can be written as a path. -/
theorem presentable_canonical (p : Path) : Presentable (Step.canonical p.steps) := by
  rcases steps_cases p with ⟨steps, hs, hp⟩ | hp
  · obtain ⟨kept, hk, hm⟩ := foldl_fold_concat_root steps []
    have : Step.canonical p.steps = .root :: kept.reverse := by
      simp only [Step.canonical]
      rw [hs, List.foldl_cons, show fold [] .root = [] ++ [.root] from rfl, hk]
      simp
    rw [this]
    refine .absolute fun s h => ?_
    rcases hm s (List.mem_reverse.mp h) with h | h
    · cases h
    · exact hp s h.1
  · refine .relative fun s h => ?_
    rcases mem_foldl_fold (List.mem_reverse.mp h) with h | ⟨h, hn⟩
    · cases h
    · exact (hp s h).resolve_left hn

theorem steps_ofSteps {steps : List Step} (h : Presentable steps) :
    (ofSteps steps).steps = steps := by
  have split {steps : List Step} (h : ∀ s ∈ steps, s.IsPiece) (hn : steps ≠ []) :
      (List.intercalate ['/'] (steps.map Step.text)).splitOn '/' = steps.map Step.text :=
    List.splitOn_intercalate '/'
      (fun l hl => by
        obtain ⟨s, hs, rfl⟩ := List.mem_map.mp hl
        exact (h s hs).1)
      (by simpa using hn)
  cases h with
  | @absolute steps h =>
    show Step.root :: _ = _
    congr 1
    cases steps with
    | nil => rfl
    | cons s steps => rw [split h (by simp), filterMap_ofPiece?_map_text h]
  | relative h =>
    cases steps with
    | nil => rfl
    | cons s steps =>
      have hs := h s (List.mem_cons_self ..)
      have hsp := split h (by simp)
      rw [List.map_cons] at hsp
      have hne : s ≠ .root := fun e => root_not_isPiece (e ▸ hs)
      have hof : ofSteps (s :: steps) = ⟨List.intercalate ['/'] (s.text :: steps.map Step.text)⟩ := by
        simp only [ofSteps]
        split
        · next heq => exact absurd (List.cons.inj heq).1 hne
        · rfl
      rw [hof]
      simp only [Path.steps]
      split
      · -- no piece is empty, so the text does not begin with a slash
        next t ht =>
        rw [show List.intercalate ['/'] (s.text :: steps.map Step.text) = '/' :: t from ht] at hsp
        simp only [List.splitOn, List.splitOnP_cons_eq_if_modifyHead, beq_self_eq_true,
          ↓reduceIte, List.cons.injEq] at hsp
        exact absurd hsp.1.symm hs.2.1
      · rw [hsp]
        split
        · next heq =>
          have he := (List.cons.inj heq).1
          have := hs.2.2
          rw [he] at this
          cases this
        · exact filterMap_ofPiece?_map_text h

theorem steps_canonical (p : Path) : p.canonical.steps = Step.canonical p.steps :=
  steps_ofSteps (presentable_canonical p)

theorem canonical_canonical (p : Path) : p.canonical.canonical = p.canonical := by
  simp only [canonical]
  rw [show (ofSteps (Step.canonical p.steps)).steps = _ from steps_canonical p,
    Step.canonical_canonical]

end Path
end Compendium
