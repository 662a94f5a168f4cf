/-
# `Compendium.Proofs.Contents.Marker` — where a marker stands

A marker stands in a text where a line begins, with gaps around it, up to where a line ends.
`Stands` says so of a text without scanning it, and `isIn_iff` says that the scan finds a marker
exactly where one stands.  The scan takes the first one (`find_before`) and cuts the text around it
at breaks (`find_eq_some`).
-/
import Compendium.Contents
import Mathlib.Data.List.TakeWhile

namespace Compendium

theorem Text.after?_eq_some_iff {lead t r : Text} : after? lead t = some r ↔ t = lead ++ r := by
  simp only [after?]
  constructor
  · intro h
    split at h
    · next hp =>
      obtain ⟨u, rfl⟩ := List.isPrefixOf_iff_prefix.mp hp
      obtain rfl := Option.some.inj h
      rw [List.drop_left]
    · cases h
  · rintro rfl
    rw [if_pos (List.isPrefixOf_iff_prefix.mpr (List.prefix_append lead r)), List.drop_left]

namespace Marker

variable {t w l m before after : Text} {c : Char}

/-! ## What a marker is -/

/-- A marker without the gaps around it. -/
inductive IsMark : Text → Prop
  | word : IsMark word
  | fence {inside : Text} : (∀ c ∈ inside, isBlank c = true) →
      IsMark (fenceStart ++ inside ++ fenceEnd)

/-- A marker with the gaps around it. -/
inductive Spaced : Text → Prop
  | mk {front m back : Text} : (∀ c ∈ front, isGap c = true) → IsMark m →
      (∀ c ∈ back, isGap c = true) → Spaced (front ++ m ++ back)

/-- A line begins behind `u`. -/
def AtStart (u : Text) : Prop := u = [] ∨ ∃ v, u = v ++ ['\n']

/-- A line ends before `w`. -/
def AtEnd (w : Text) : Prop := w = [] ∨ ∃ v, w = '\n' :: v

/-- A marker stands somewhere in the text. -/
def Stands (t : Text) : Prop := ∃ u l w, t = u ++ l ++ w ∧ AtStart u ∧ Spaced l ∧ AtEnd w

theorem IsMark.head (h : IsMark m) : ∃ c u, m = c :: u ∧ (c = '[' ∨ c = '`') := by
  cases h with
  | word => exact ⟨'[', _, rfl, .inl rfl⟩
  | fence => exact ⟨'`', _, rfl, .inr rfl⟩

theorem IsMark.last (h : IsMark m) : ∃ u c, m = u ++ [c] ∧ (c = ']' ∨ c = '`') := by
  cases h with
  | word => exact ⟨"[[_TOC_]".toList, ']', rfl, .inl rfl⟩
  | @fence inside => exact ⟨fenceStart ++ inside ++ "``".toList, '`', by simp [fenceEnd], .inr rfl⟩

theorem not_isBlank_of_head (h : c = '[' ∨ c = '`') : isBlank c = false := by
  rcases h with rfl | rfl
  · decide
  · decide

theorem not_isBlank_of_last (h : c = ']' ∨ c = '`') : isBlank c = false := by
  rcases h with rfl | rfl
  · decide
  · decide

theorem ne_break_of_head (h : c = '[' ∨ c = '`') : c ≠ '\n' := fun he =>
  absurd (he ▸ not_isBlank_of_head h) (by decide)

theorem ne_break_of_last (h : c = ']' ∨ c = '`') : c ≠ '\n' := fun he =>
  absurd (he ▸ not_isBlank_of_last h) (by decide)

theorem dropWhile_blank_append {p : Char → Bool} (hp : ∀ c, p c = true → isBlank c = true)
    {front : Text} (hf : ∀ c ∈ front, p c = true) (hc : isBlank c = false) (t : Text) :
    (front ++ c :: t).dropWhile p = c :: t := by
  rw [List.dropWhile_append_of_pos hf]
  refine List.dropWhile_cons_of_neg fun h => ?_
  exact Bool.false_ne_true (hc.symm.trans (hp c h))

theorem afterMark?_eq_some_iff : afterMark? t = some w ↔ ∃ m, t = m ++ w ∧ IsMark m := by
  simp only [afterMark?]
  constructor
  · intro h
    split at h
    · next r hr =>
      obtain rfl := Option.some.inj h
      exact ⟨word, Text.after?_eq_some_iff.mp hr, .word⟩
    · split at h
      · next inside hin =>
        refine ⟨fenceStart ++ inside.takeWhile isBlank ++ fenceEnd, ?_,
          .fence fun c hc => List.mem_takeWhile_imp hc⟩
        rw [Text.after?_eq_some_iff.mp hin, List.append_assoc, List.append_assoc,
          ← Text.after?_eq_some_iff.mp h, List.takeWhile_append_dropWhile]
      · cases h
  · rintro ⟨m, rfl, hm⟩
    cases hm with
    | word => rw [Text.after?_eq_some_iff.mpr rfl]
    | @fence inside hin =>
        have hword : Text.after? word (fenceStart ++ inside ++ fenceEnd ++ w) = none := rfl
        have hstart : Text.after? fenceStart (fenceStart ++ inside ++ fenceEnd ++ w) =
            some (inside ++ fenceEnd ++ w) := by
          rw [Text.after?_eq_some_iff]
          simp only [List.append_assoc]
        have hinside : (inside ++ fenceEnd ++ w).dropWhile isBlank = fenceEnd ++ w := by
          rw [List.append_assoc]
          exact dropWhile_blank_append (fun _ => id) hin (by decide) _
        simp only [hword, hstart, hinside]
        exact Text.after?_eq_some_iff.mpr rfl

theorem dropWhile_gap_of_atEnd {back : Text} (hb : ∀ c ∈ back, isGap c = true) (hw : AtEnd w) :
    (back ++ w).dropWhile isGap = w := by
  rw [List.dropWhile_append_of_pos hb]
  rcases hw with rfl | ⟨v, rfl⟩
  · rfl
  · rfl

theorem afterLine?_eq_some_iff :
    afterLine? t = some w ↔ ∃ l, t = l ++ w ∧ Spaced l ∧ AtEnd w := by
  simp only [afterLine?]
  constructor
  · intro h
    split at h
    · cases h
    · next r hr =>
      obtain ⟨m, hm, hmark⟩ := afterMark?_eq_some_iff.mp hr
      have ht : t = t.takeWhile isGap ++ m ++ r.takeWhile isGap ++ r.dropWhile isGap := by
        rw [List.append_assoc, List.takeWhile_append_dropWhile, List.append_assoc, ← hm,
          List.takeWhile_append_dropWhile]
      have hw : w = r.dropWhile isGap ∧ AtEnd w := by
        split at h
        · next hnil =>
          obtain rfl := Option.some.inj h
          exact ⟨hnil.symm, .inl rfl⟩
        · next c rest hcons =>
          split at h
          · next hc =>
            obtain rfl := Option.some.inj h
            exact ⟨hcons.symm, .inr ⟨rest, congrArg (· :: rest) (beq_iff_eq.mp hc)⟩⟩
          · cases h
      exact ⟨_, hw.1 ▸ ht, .mk (fun c hc => List.mem_takeWhile_imp hc) hmark
        (fun c hc => List.mem_takeWhile_imp hc), hw.2⟩
  · rintro ⟨-, rfl, @⟨front, m, back, hfront, hmark, hback⟩, hw⟩
    obtain ⟨c, v, rfl, hc⟩ := hmark.head
    have hgap : (front ++ c :: v ++ back ++ w).dropWhile isGap = c :: v ++ (back ++ w) := by
      simp only [List.append_assoc, List.cons_append]
      exact dropWhile_blank_append (fun _ => isBlank_of_isGap) hfront (not_isBlank_of_head hc) _
    simp only [hgap, afterMark?_eq_some_iff.mpr ⟨_, rfl, hmark⟩, dropWhile_gap_of_atEnd hback hw]
    rcases hw with rfl | ⟨v, rfl⟩
    · rfl
    · rfl

/-! ## Finding a marker -/

theorem Spaced.head (h : Spaced l) : ∃ c u, l = c :: u ∧ c ≠ '\n' := by
  obtain @⟨front, m, back, hfront, hmark, -⟩ := h
  obtain ⟨c, v, rfl, hc⟩ := hmark.head
  cases front with
  | nil => exact ⟨c, _, rfl, by rintro rfl; exact absurd hc (by decide)⟩
  | cons d front =>
      refine ⟨d, _, rfl, ?_⟩
      rintro rfl
      exact absurd (hfront '\n' List.mem_cons_self) (by decide)

theorem Spaced.last (h : Spaced l) : ∃ u c, l = u ++ [c] ∧ c ≠ '\n' := by
  obtain @⟨front, m, back, -, hmark, hback⟩ := h
  obtain ⟨v, c, rfl, hc⟩ := hmark.last
  rcases List.eq_nil_or_concat back with rfl | ⟨back, d, rfl⟩
  · refine ⟨front ++ v, c, by simp, ?_⟩
    rintro rfl
    exact absurd hc (by decide)
  · refine ⟨front ++ (v ++ [c]) ++ back, d, by simp, ?_⟩
    rintro rfl
    exact absurd (hback '\n' (by simp)) (by decide)

theorem Spaced.not_mem (h : Spaced l) : '#' ∉ l := by
  obtain @⟨front, m, back, hfront, hmark, hback⟩ := h
  have hgap {g : Text} (hg : ∀ c ∈ g, isGap c = true) : '#' ∉ g := fun hm =>
    absurd (hg _ hm) (by decide)
  simp only [List.mem_append, not_or]
  refine ⟨⟨hgap hfront, ?_⟩, hgap hback⟩
  cases hmark with
  | word => decide
  | fence hin =>
      simp only [List.mem_append, not_or]
      exact ⟨⟨by decide, fun hm => absurd (hin _ hm) (by decide)⟩, by decide⟩

theorem not_stands_nil : ¬ Stands [] := by
  rintro ⟨u, l, w, h, -, hl, -⟩
  obtain ⟨c, v, rfl, -⟩ := hl.head
  simp at h

/-- What is found is a marker, with a line behind it and a line before it. -/
theorem find_eq_some {start : Bool} (h : find start t = some (before, after)) :
    ∃ l rest, t = before ++ l ++ rest ∧ Spaced l ∧ after = rest.dropWhile isBreak ∧ AtEnd rest ∧
      ((before = [] ∧ start = true) ∨ ∃ u, before = u ++ ['\n']) := by
  induction t generalizing start before with
  | nil => cases h
  | cons c t ih =>
      simp only [find] at h
      split at h
      · next rest hrest =>
        simp only [Option.some.injEq, Prod.mk.injEq] at h
        obtain ⟨rfl, rfl⟩ := h
        split at hrest
        · next hstart =>
          obtain ⟨l, ht, hl, hend⟩ := afterLine?_eq_some_iff.mp hrest
          exact ⟨l, rest, ht, hl, rfl, hend, .inl ⟨rfl, hstart⟩⟩
        · cases hrest
      · simp only [Option.map_eq_some_iff, Prod.exists, Prod.mk.injEq] at h
        obtain ⟨before, after, hfind, rfl, rfl⟩ := h
        obtain ⟨l, rest, ht, hl, hafter, hend, hbefore⟩ := ih hfind
        refine ⟨l, rest, congrArg (c :: ·) ht, hl, hafter, hend, .inr ?_⟩
        rcases hbefore with ⟨rfl, hc⟩ | ⟨u, rfl⟩
        · exact ⟨[], congrArg (· :: []) (beq_iff_eq.mp hc)⟩
        · exact ⟨c :: u, rfl⟩

theorem isSome_find {start : Bool} {u : Text} (ht : t = u ++ l ++ w)
    (hu : (u = [] ∧ start = true) ∨ ∃ v, u = v ++ ['\n']) (hl : Spaced l) (hw : AtEnd w) :
    (find start t).isSome = true := by
  induction t generalizing start u with
  | nil => exact absurd ⟨u, l, w, ht, hu.imp_left And.left, hl, hw⟩ not_stands_nil
  | cons c t ih =>
      simp only [find]
      split
      · rfl
      · next hnone =>
        rw [Option.isSome_map]
        cases u with
        | nil =>
            -- here the marker would have been seen at once
            have hstart : start = true := by
              rcases hu with ⟨-, hs⟩ | ⟨v, hv⟩
              · exact hs
              · exact absurd hv (by simp)
            rw [if_pos hstart, afterLine?_eq_some_iff.mpr ⟨l, ht, hl, hw⟩] at hnone
            cases hnone
        | cons d u =>
            obtain ⟨rfl, rfl⟩ := List.cons.inj ht
            refine ih rfl ?_
            rcases hu with ⟨hnil, -⟩ | ⟨v, hv⟩
            · cases hnil
            · cases v with
              | nil =>
                  obtain ⟨rfl, rfl⟩ := List.cons.inj hv
                  exact .inl ⟨rfl, rfl⟩
              | cons e v => exact .inr ⟨v, (List.cons.inj hv).2⟩

theorem isIn_iff : isIn t = true ↔ Stands t := by
  rw [isIn, first?, Option.isSome_map]
  constructor
  · intro h
    obtain ⟨⟨before, after⟩, hfind⟩ := Option.isSome_iff_exists.mp h
    obtain ⟨l, rest, ht, hl, -, hend, hbefore⟩ := find_eq_some hfind
    exact ⟨before, l, rest, ht, hbefore.imp_left And.left, hl, hend⟩
  · rintro ⟨u, l, w, ht, hu, hl, hw⟩
    exact isSome_find ht (hu.imp_left fun h => ⟨h, rfl⟩) hl hw

theorem afterLine?_append (h : afterLine? t = some w) (ht : t.getLast? = some '\n') (s : Text) :
    afterLine? (t ++ s) = some (w ++ s) := by
  obtain ⟨l, rfl, hl, hw⟩ := afterLine?_eq_some_iff.mp h
  refine afterLine?_eq_some_iff.mpr ⟨l, List.append_assoc _ _ _, hl, ?_⟩
  rcases hw with rfl | ⟨v, rfl⟩
  · obtain ⟨v, d, rfl, hd⟩ := hl.last
    rw [List.append_nil, List.getLast?_concat] at ht
    exact absurd (Option.some.inj ht) hd
  · exact .inr ⟨_, rfl⟩

theorem find_before {start : Bool} (h : find start t = some (before, after)) :
    find start before = none := by
  induction t generalizing start before with
  | nil => cases h
  | cons c t ih =>
      simp only [find] at h
      split at h
      · obtain ⟨rfl, -⟩ := Prod.mk.inj (Option.some.inj h)
        rfl
      · next hnone =>
        simp only [Option.map_eq_some_iff, Prod.exists, Prod.mk.injEq] at h
        obtain ⟨before, after, hfind, rfl, rfl⟩ := h
        obtain ⟨l, rest, ht, -, -, -, hbefore⟩ := find_eq_some hfind
        have hbreak : (c :: before).getLast? = some '\n' := by
          rcases hbefore with ⟨rfl, hc⟩ | ⟨v, rfl⟩
          · exact congrArg some (beq_iff_eq.mp hc)
          · rw [← List.cons_append, List.getLast?_concat]
        -- a marker line in what comes before is one in the whole text, and would have been found
        have hline : (if start then afterLine? (c :: before) else none) = none := by
          refine Option.eq_none_iff_forall_ne_some.mpr fun w hw => ?_
          split at hw
          · next hs =>
            have hlong := afterLine?_append hw hbreak (l ++ rest)
            rw [List.cons_append, ← List.append_assoc, ← ht] at hlong
            rw [if_pos hs, hlong] at hnone
            cases hnone
          · cases hw
        simp only [find, hline, ih hfind, Option.map_none]

end Marker
end Compendium
