/-
# `Compendium.Proofs.Heading.Printing` — which headings come back from their line

A heading is printed as its marks, its text and its anchor, and a line is read back by splitting
what follows the marks at the last group in braces.  `ofLine?_line` says that a printable heading
comes back.  Here the converse: whatever comes back is printable, for what is read is trimmed, has
no break in its text and no brace in its anchor, and a group at the end of a text without an anchor
would have been read as one (`printable_of_ofLine?_line`).

`ofLine?_line_iff` puts the two together and says what printable means in terms of characters only.

A heading that was read itself is nearly always printable.  Its level, its text and the inside of
its anchor are as they have to be, and a group at the end of the body would have been its anchor.
But blanks that are no gaps may stand behind the group, and these are trimmed off the text
afterwards (`ofLine?_line_of_ofLine?_iff`).
-/
import Compendium.Proofs.Heading.Line

namespace Compendium.Heading

/-! ## Groups in braces -/

/-- The text ends in a group in braces that has no brace inside. -/
def EndsInGroup (t : Text) : Prop :=
  ∃ front a, t = front ++ '\x7b' :: a ++ ['\x7d'] ∧ '\x7b' ∉ a ∧ '\x7d' ∉ a

theorem inner_iff_not_mem {a : Text} :
    (∀ c ∈ a, isInner c = true) ↔ '\x7b' ∉ a ∧ '\x7d' ∉ a := by
  simp only [isInner, Bool.and_eq_true, bne_iff_ne]
  constructor
  · intro h
    exact ⟨fun hm => (h _ hm).1 rfl, fun hm => (h _ hm).2 rfl⟩
  · rintro ⟨hopen, hclose⟩ c hc
    exact ⟨fun he => hopen (he ▸ hc), fun he => hclose (he ▸ hc)⟩

theorem splitAnchor_eq_none_iff {t : Text} : (splitAnchor t).2 = none ↔ ¬ EndsInGroup t := by
  constructor
  · rintro h ⟨front, a, ht, ha⟩
    have hs := splitAnchor_eq_some_iff.mpr ⟨ht, inner_iff_not_mem.mpr ha⟩
    rw [hs] at h
    cases h
  · intro h
    refine Option.eq_none_iff_forall_ne_some.mpr fun a ha => h ?_
    obtain ⟨ht, hinner⟩ := splitAnchor_eq_some_iff.mp (Prod.ext rfl ha)
    exact ⟨_, a, ht, inner_iff_not_mem.mp hinner⟩

theorem printable_iff {h : Heading} :
    h.Printable ↔ 0 < h.level ∧ h.text ≠ [] ∧ Text.trim h.text = h.text ∧ '\n' ∉ h.text ∧
      ((∃ a, h.anchor = some a ∧ '\x7b' ∉ a ∧ '\x7d' ∉ a) ∨
        (h.anchor = none ∧ ¬ EndsInGroup h.text)) := by
  constructor
  · intro hp
    refine ⟨hp.level, hp.text_ne, hp.trimmed, hp.row, ?_⟩
    cases ha : h.anchor with
    | none => exact .inr ⟨rfl, splitAnchor_eq_none_iff.mp (hp.bare ha)⟩
    | some a => exact .inl ⟨a, rfl, inner_iff_not_mem.mp (hp.anchor a ha)⟩
  · rintro ⟨hlevel, hne, htrim, hrow, hanchor⟩
    refine ⟨hlevel, hne, htrim, hrow, ?_, ?_⟩
    · intro a ha
      rcases hanchor with ⟨b, hb, hinner⟩ | ⟨hnone, -⟩
      · obtain rfl := Option.some.inj (ha.symm.trans hb)
        exact inner_iff_not_mem.mpr hinner
      · cases ha.symm.trans hnone
    · intro hnone
      rcases hanchor with ⟨b, hb, -⟩ | ⟨-, hend⟩
      · cases hb.symm.trans hnone
      · exact splitAnchor_eq_none_iff.mpr hend

/-! ## What comes back -/

theorem printable_of_ofLine?_line {h : Heading} (hl : ofLine? h.line = some h) : h.Printable := by
  obtain ⟨hne, htrim⟩ := text_of_ofLine? hl
  obtain ⟨hlevel, -, hrow, heq⟩ := (ofLine?_line_eq_some_iff hne htrim).mp hl
  have htext : h.text = Text.trim (splitAnchor (h.text ++ anchorText h.anchor)).1 :=
    congrArg Heading.text heq
  have hanchor : h.anchor = (splitAnchor (h.text ++ anchorText h.anchor)).2 :=
    congrArg Heading.anchor heq
  refine ⟨hlevel, hne, htrim, ?_, ?_, ?_⟩
  · -- gaps are not all that trimming takes off, but they have no break among them
    rw [htext, ← Text.trim_dropEndWhile fun _ => isBlank_of_isGap]
    exact fun hm => hrow (Text.mem_of_mem_trim hm)
  · intro a ha
    exact (splitAnchor_eq_some_iff.mp (Prod.ext rfl (hanchor.symm.trans ha))).2
  · intro ha
    rw [ha, anchorText, List.append_nil] at hanchor
    exact hanchor.symm

/-- A heading is read back from its line exactly if it has a level, its text is not empty, trimmed
and without a break, and its anchor has no brace inside or, if it has none, its text ends in no
group that would be taken for one. -/
theorem ofLine?_line_iff (h : Heading) :
    ofLine? h.line = some h ↔
      0 < h.level ∧ h.text ≠ [] ∧ Text.trim h.text = h.text ∧ '\n' ∉ h.text ∧
        ((∃ a, h.anchor = some a ∧ '\x7b' ∉ a ∧ '\x7d' ∉ a) ∨
          (h.anchor = none ∧ ¬ EndsInGroup h.text)) :=
  Iff.trans ⟨printable_of_ofLine?_line, ofLine?_line⟩ printable_iff

/-- A text that ends in a group with a brace inside comes back, for that group is no anchor. -/
example : ofLine? (line ⟨1, "A \x7bb\x7bc\x7d\x7d".toList, none⟩) =
    some ⟨1, "A \x7bb\x7bc\x7d\x7d".toList, none⟩ := by decide

/-! ## What is read, printed and read again -/

theorem endsInGroup_append {p t : Text} (hp : '\x7b' ∉ p) :
    EndsInGroup (p ++ t) ↔ EndsInGroup t := by
  constructor
  · rintro ⟨front, a, h, ha⟩
    rw [List.append_assoc, List.cons_append] at h
    rcases List.append_eq_append_iff.mp h with ⟨front', -, ht⟩ | ⟨mid, hmid, hgroup⟩
    · exact ⟨front', a, by rw [ht, List.append_assoc, List.cons_append], ha⟩
    · -- the group begins behind `p`, for it begins with a brace
      cases mid with
      | nil => exact ⟨[], a, hgroup.symm, ha⟩
      | cons c mid =>
          obtain ⟨rfl, -⟩ := List.cons.inj hgroup
          exact absurd (hmid ▸ List.mem_append_right _ List.mem_cons_self) hp
  · rintro ⟨front, a, rfl, ha⟩
    exact ⟨p ++ front, a, by simp only [List.append_assoc], ha⟩

theorem endsInGroup_dropEndWhile_append {q : Char → Bool} {p t : Text} (hp : '\x7b' ∉ p)
    (hne : Text.dropEndWhile q t ≠ []) :
    EndsInGroup (Text.dropEndWhile q (p ++ t)) ↔ EndsInGroup (Text.dropEndWhile q t) := by
  rw [Text.dropEndWhile_append_of_ne_nil hne]
  exact endsInGroup_append hp

/-- What stands before the body of a heading line, and the body with what follows it. -/
theorem exists_append_of_body? {line body : Text}
    (h : body? (line.dropWhile (· == '#')) = some body) :
    ∃ p u, line = p ++ u ∧ '\x7b' ∉ p ∧ body = Text.dropEndWhile isGap u := by
  obtain ⟨-, hbody⟩ := body?_eq_some_iff.mp h
  refine ⟨line.takeWhile (· == '#') ++ (line.dropWhile (· == '#')).takeWhile isGap, _, ?_, ?_,
    hbody⟩
  · rw [List.append_assoc, List.takeWhile_append_dropWhile, List.takeWhile_append_dropWhile]
  · intro hm
    rcases List.mem_append.mp hm with hm | hm
    · exact absurd (List.mem_takeWhile_imp hm) (by decide)
    · exact absurd (List.mem_takeWhile_imp hm) (by decide)

theorem endsInGroup_line_iff {line body : Text} (h : body? (line.dropWhile (· == '#')) = some body)
    (hne : Text.trim body ≠ []) :
    (EndsInGroup (Text.dropEndWhile isGap line) ↔ EndsInGroup body) ∧
      (EndsInGroup (Text.trimEnd line) ↔ EndsInGroup (Text.trim body)) := by
  obtain ⟨p, u, rfl, hp, rfl⟩ := exists_append_of_body? h
  rw [Text.trim_dropEndWhile fun _ => isBlank_of_isGap] at hne ⊢
  constructor
  · refine endsInGroup_dropEndWhile_append hp fun hnil => hne (Text.trim_eq_nil_iff.mpr ?_)
    exact fun c hc => isBlank_of_isGap (List.rdropWhile_eq_nil_iff.mp hnil c hc)
  · have hblank : '\x7b' ∉ p ++ u.takeWhile isBlank := by
      intro hm
      rcases List.mem_append.mp hm with hm | hm
      · exact hp hm
      · exact absurd (List.mem_takeWhile_imp hm) (by decide)
    have hsplit : p ++ u = p ++ u.takeWhile isBlank ++ Text.trimStart u := by
      rw [List.append_assoc, Text.trimStart, List.takeWhile_append_dropWhile]
    rw [hsplit]
    exact endsInGroup_dropEndWhile_append hblank hne

/-- A heading that is read is printable, unless it has no anchor and its text ends in a group. -/
theorem printable_iff_of_ofLine? {line : Text} {h : Heading} (hl : ofLine? line = some h) :
    h.Printable ↔ (h.anchor = none → ¬ EndsInGroup h.text) := by
  constructor
  · exact fun hp hnone => splitAnchor_eq_none_iff.mp (hp.bare hnone)
  · intro hbare
    obtain ⟨body, hm, -, htext, hrow, rfl⟩ := ofLine?_eq_some_iff.mp hl
    refine ⟨List.length_pos_of_ne_nil hm, htext, Text.trim_trim _, ?_, ?_, ?_⟩
    · dsimp only
      rw [← Text.trim_dropEndWhile fun _ => isBlank_of_isGap]
      exact fun hmem => hrow (Text.mem_of_mem_trim hmem)
    · exact fun a ha => (splitAnchor_eq_some_iff.mp (Prod.ext rfl ha)).2
    · exact fun hnone => splitAnchor_eq_none_iff.mpr (hbare hnone)

/-- A heading that is read from a line comes back from its own line, unless the line ends in a
group only when the blanks behind it that are no gaps are cut off too.  Such a group belongs to the
text the first time, and the second time it is the anchor. -/
theorem ofLine?_line_of_ofLine?_iff {line : Text} {h : Heading} (hl : ofLine? line = some h) :
    ofLine? h.line = some h ↔
      (EndsInGroup (Text.trimEnd line) → EndsInGroup (Text.dropEndWhile isGap line)) := by
  have hread : ofLine? h.line = some h ↔ h.Printable := ⟨printable_of_ofLine?_line, ofLine?_line⟩
  rw [hread, printable_iff_of_ofLine? hl]
  obtain ⟨body, -, hbody, htext, -, rfl⟩ := ofLine?_eq_some_iff.mp hl
  have hne : Text.trim body ≠ [] := by
    refine fun hnil => htext (Text.trim_eq_nil_iff.mpr fun c hc => ?_)
    exact Text.trim_eq_nil_iff.mp hnil c (mem_of_splitAnchor (.inl hc))
  obtain ⟨hgaps, hblanks⟩ := endsInGroup_line_iff hbody hne
  rw [hgaps, hblanks]
  dsimp only
  by_cases hend : EndsInGroup body
  · exact iff_of_true (fun hnone => absurd hend (splitAnchor_eq_none_iff.mp hnone)) fun _ => hend
  · -- there is no anchor, so the text is the body, trimmed
    have hnone := splitAnchor_eq_none_iff.mpr hend
    rw [splitAnchor_of_none hnone]
    exact ⟨fun h hgroup => absurd hgroup (h rfl), fun h _ hgroup => hend (h hgroup)⟩

theorem ofLine?_line_of_ofLine?_spaced :
    let line := "##  A \x7bb\x7bc\x7d  \x7bd\x7d \t".toList
    let h : Heading := ⟨2, "A \x7bb\x7bc\x7d".toList, some ['d']⟩
    ofLine? line = some h ∧
      (ofLine? h.line = some h ↔
        (EndsInGroup (Text.trimEnd line) → EndsInGroup (Text.dropEndWhile isGap line))) := by
  intro line h
  have hl : ofLine? line = some h := by decide
  exact ⟨hl, ofLine?_line_of_ofLine?_iff hl⟩

/-- A group in front of a no-break space is part of the text, and is the anchor once the heading is
printed. -/
theorem ofLine?_line_loosened :
    ofLine? "# A\x7bx\x7d\u00a0".toList = some ⟨1, "A\x7bx\x7d".toList, none⟩ ∧
      ofLine? (line ⟨1, "A\x7bx\x7d".toList, none⟩) = some ⟨1, ['A'], some ['x']⟩ := by decide

end Compendium.Heading
