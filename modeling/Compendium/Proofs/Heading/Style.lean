/-
# `Compendium.Proofs.Heading.Style` — what restyling does to the rows of a text

Restyling goes line by line: before it is trimmed, the restyled text has the restyled rows of the
text (`rows_restyled`).  The only blank it writes is the space (`mem_restyle_of_blank`), so no row
is cut in two and no carriage return comes in.

A restyled heading is read back from its line in every style (`ofLine?_restyleLine`), provided it
was printable.  A row that is no heading is left alone.
-/
import Compendium.Proofs.Heading.Line
import Compendium.Proofs.Text.Located

namespace Compendium

/-! ## Slugs -/

theorem inner_of_toNat {c : Char}
    (h : (97 ≤ c.toNat ∧ c.toNat ≤ 122) ∨ (48 ≤ c.toNat ∧ c.toNat ≤ 57) ∨ c.toNat = 45) :
    Heading.isInner c = true ∧ isBlank c = false := by
  have hne {d : Char} (hd : 122 < d.toNat) : (c != d) = true := by
    refine bne_iff_ne.mpr fun he => ?_
    subst he
    omega
  constructor
  · simp only [Heading.isInner, Bool.and_eq_true]
    exact ⟨hne (by decide), hne (by decide)⟩
  · simp only [isBlank, Bool.or_eq_false_iff, Bool.and_eq_false_iff, decide_eq_false_iff_not,
      beq_eq_false_iff_ne]
    omega

theorem toNat_toLower {c : Char} (h : 65 ≤ c.toNat ∧ c.toNat ≤ 90) :
    c.toLower.toNat = c.toNat + 32 := by
  have hall : ∀ n, n < 91 → 65 ≤ n → (Char.ofNat n).toLower.toNat = n + 32 := by decide
  have := hall c.toNat (by omega) h.1
  rwa [Char.ofNat_toNat] at this

theorem Text.inner_of_slugChar? {c d : Char} (h : Text.slugChar? c = some d) :
    Heading.isInner d = true ∧ isBlank d = false := by
  refine inner_of_toNat ?_
  simp only [slugChar?] at h
  split at h
  · next hu =>
    obtain rfl := Option.some.inj h
    have hupper : 65 ≤ c.toNat ∧ c.toNat ≤ 90 := of_decide_eq_true hu
    have hlower := toNat_toLower hupper
    omega
  · split at h
    · next hl =>
      obtain rfl := Option.some.inj h
      simp only [Bool.or_eq_true, beq_iff_eq] at hl
      rcases hl with (hl | hl) | rfl
      · obtain ⟨hle, hge⟩ := Bool.and_eq_true_iff.mp hl
        exact .inl ⟨of_decide_eq_true hle, of_decide_eq_true hge⟩
      · obtain ⟨hle, hge⟩ := Bool.and_eq_true_iff.mp hl
        exact .inr (.inl ⟨of_decide_eq_true hle, of_decide_eq_true hge⟩)
      · decide
    · split at h
      · obtain rfl := Option.some.inj h
        decide
      · split at h
        · obtain rfl := Option.some.inj h
          decide
        · split at h
          · obtain rfl := Option.some.inj h
            decide
          · cases h

theorem inner_of_mem_slugAnchor? {text a : Text} (h : slugAnchor? text = some a) {c : Char}
    (hc : c ∈ a) : Heading.isInner c = true ∧ isBlank c = false := by
  simp only [slugAnchor?] at h
  split at h
  · cases h
  · obtain rfl := Option.some.inj h
    rcases List.mem_cons.mp hc with rfl | hc
    · decide
    · obtain ⟨d, -, hd⟩ := List.mem_filterMap.mp hc
      exact Text.inner_of_slugChar? hd

namespace HeadingStyle

variable {style : HeadingStyle} {h : Heading} {r t : Text}

/-! ## Restyled headings -/

theorem anchor_apply {a : Text} (ha : (style.apply h).anchor = some a) :
    h.anchor = some a ∨ h.anchor = none ∧ slugAnchor? h.text = some a := by
  simp only [apply] at ha
  split at ha
  · exact Option.or_eq_some_iff.mp ha
  · exact .inl ha

theorem anchor_eq_none_of_apply (ha : (style.apply h).anchor = none) : h.anchor = none := by
  simp only [apply] at ha
  split at ha
  · exact (Option.or_eq_none_iff.mp ha).1
  · exact ha

theorem printable_apply (hp : h.Printable) (style : HeadingStyle) : (style.apply h).Printable where
  level := by
    have := hp.level
    simp only [apply]
    split
    · exact Nat.succ_pos _
    · exact this
  text_ne := hp.text_ne
  trimmed := hp.trimmed
  row := hp.row
  anchor := fun a ha c hc => by
    rcases anchor_apply ha with ha | ⟨-, ha⟩
    · exact hp.anchor a ha c hc
    · exact (inner_of_mem_slugAnchor? ha hc).1
  bare := fun ha => hp.bare (anchor_eq_none_of_apply ha)

/-! ## Restyled lines -/

theorem restyleLine_of_none (hr : Heading.ofLine? r = none) : style.restyleLine r = r := by
  simp only [restyleLine, hr]

theorem restyleLine_of_some (hr : Heading.ofLine? r = some h) :
    style.restyleLine r = (style.apply h).line := by
  simp only [restyleLine, hr]

@[simp] theorem restyleLine_nil (style : HeadingStyle) : style.restyleLine [] = [] := rfl

theorem level_apply_pos (hr : Heading.ofLine? r = some h) : 0 < (style.apply h).level := by
  obtain ⟨-, hm, -, -, -, rfl⟩ := Heading.ofLine?_eq_some_iff.mp hr
  have hlevel := List.length_pos_of_ne_nil hm
  simp only [apply]
  split
  · exact Nat.succ_pos _
  · exact hlevel

theorem head?_restyleLine_of_some (hr : Heading.ofLine? r = some h) :
    (style.restyleLine r).head? = some '#' := by
  have hlevel : 0 < (style.apply h).level := level_apply_pos hr
  obtain ⟨n, hn⟩ := Nat.exists_eq_succ_of_ne_zero hlevel.ne'
  rw [restyleLine_of_some hr, Heading.line, hn]
  rfl

theorem trimEnd_line_apply (hr : Heading.ofLine? r = some h) :
    Text.trimEnd (style.apply h).line = (style.apply h).line := by
  obtain ⟨hne, htrim⟩ := Heading.text_of_ofLine? hr
  exact Heading.trimEnd_line hne htrim

theorem trim_restyleLine_of_some (hr : Heading.ofLine? r = some h) :
    Text.trim (style.restyleLine r) = style.restyleLine r := by
  rw [Text.trim, Heading.trimStart_of_mark (head?_restyleLine_of_some hr), restyleLine_of_some hr]
  exact trimEnd_line_apply hr

/-- The only blank that restyling writes is the space. -/
theorem mem_restyleLine_of_blank {c : Char} (hb : isBlank c = true)
    (hc : c ∈ style.restyleLine r) : c ∈ r ∨ c = ' ' := by
  cases hr : Heading.ofLine? r with
  | none =>
      rw [restyleLine_of_none hr] at hc
      exact .inl hc
  | some h =>
      rw [restyleLine_of_some hr] at hc
      rcases Heading.mem_line_of_blank hb hc with hc | hc | ⟨a, ha, hc⟩
      · exact .inr hc
      · exact .inl (Heading.mem_of_ofLine? hr (.inl hc))
      · rcases anchor_apply ha with ha | ⟨-, ha⟩
        · exact .inl (Heading.mem_of_ofLine? hr (.inr ⟨a, ha, hc⟩))
        · exact absurd hb (Bool.eq_false_iff.mp (inner_of_mem_slugAnchor? ha hc).2)

theorem ofLine?_restyleLine (hg : ∀ c ∈ r, isBlank c = true → isGap c = true) :
    Heading.ofLine? (style.restyleLine r) = (Heading.ofLine? r).map style.apply := by
  cases hr : Heading.ofLine? r with
  | none => rw [restyleLine_of_none hr, hr, Option.map_none]
  | some h =>
      rw [restyleLine_of_some hr, Option.map_some]
      exact Heading.ofLine?_line (printable_apply (Heading.printable_of_ofLine? hr hg) style)

/-! ## Restyled texts -/

theorem not_mem_restyleLine (hr : '\n' ∉ r) : '\n' ∉ style.restyleLine r := by
  intro hm
  rcases mem_restyleLine_of_blank (by decide) hm with hm | hm
  · exact hr hm
  · exact absurd hm (by decide)

theorem rows_restyled (style : HeadingStyle) (ht : '\r' ∉ t) :
    Text.rows ((lines t).flatMap fun l => style.restyleLine l.body ++ l.ending.text) =
      t.rows.map style.restyleLine :=
  Text.rows_flatMap_lines (restyleLine_nil style) (fun _ => not_mem_restyleLine) ht

theorem mem_restyle_of_blank {c : Char} (hb : isBlank c = true) (hc : c ∈ style.restyle t) :
    c ∈ t ∨ c = ' ' := by
  have hline {l : Line} (hl : l ∈ lines t) (hm : c ∈ l.text) : c ∈ t := by
    rw [← flatMap_text_lines t]
    exact List.mem_flatMap.mpr ⟨l, hl, hm⟩
  obtain ⟨l, hl, hm⟩ := List.mem_flatMap.mp (Text.mem_of_mem_trim hc)
  rcases List.mem_append.mp hm with hm | hm
  · exact (mem_restyleLine_of_blank hb hm).imp_left
      fun hm => hline hl (List.mem_append_left _ hm)
  · exact .inl (hline hl (List.mem_append_right _ hm))

/-! ## Headings overwritten where they stand

A text is restyled line by line.  It can also be restyled in one go over its headings: they are
known with the bytes of their lines, and each is overwritten with the line that it is in the new
style (`HeadingStyle.overwrite?`).  All that is between them is copied without being looked at, line
endings and lines that are no headings alike.

Both ways lead to the same text (`overwrite?_eq_restyle`).  Since slices are refused that leave the
text or cut a character, this also says that the bytes of the headings are right, and that they come
in order. -/

/-- A text with each heading overwritten in this style, trimmed. -/
def overwrite? (style : HeadingStyle) (t : Text) : Option Text :=
  (t.overwriteFrom? 0 [] ((locatedHeadings t).map fun x => (x.1, (style.apply x.2).line))).map
    Text.trim

/-- What a line is overwritten with, if it is a heading. -/
def renew? (style : HeadingStyle) (line : Text) : Option Text :=
  (Heading.ofLine? line).map fun h => (style.apply h).line

theorem restyleLine_eq_getD (style : HeadingStyle) (line : Text) :
    style.restyleLine line = (style.renew? line).getD line := by
  rw [restyleLine, renew?]
  cases Heading.ofLine? line with
  | none => rfl
  | some h => rfl

theorem map_locatedHeadings (style : HeadingStyle) (t : Text) :
    (locatedHeadings t).map (fun x => (x.1, (style.apply x.2).line)) =
      Text.renewed style.renew? (located t) := by
  rw [locatedHeadings, List.map_filterMap, Text.renewed]
  refine List.filterMap_congr fun x _ => ?_
  rw [renew?, Option.map_map, Option.map_map]
  rfl

theorem apply_eq (style : HeadingStyle) (h : Heading) :
    style.apply h = ⟨h.level + style.deeper.toNat, h.text,
      h.anchor.or (if style.anchored then slugAnchor? h.text else none)⟩ := by
  obtain ⟨deeper, anchored⟩ := style
  cases deeper <;> cases anchored <;> simp [apply]

/-- Overwriting the headings of a text where they stand never asks for a slice that there is none
of, and comes to the same as going through the lines: each heading is printed anew, one level deeper
or not, with its own anchor, one made of its text, or none; any other line stays, and so does every
ending. -/
theorem overwrite?_eq_restyle (style : HeadingStyle) (t : Text) :
    style.overwrite? t = some (style.restyle t) ∧
    (lines t).flatMap (fun l => l.body ++ l.ending.text) = t ∧
    style.restyle t = Text.trim ((lines t).flatMap fun l =>
      (match Heading.ofLine? l.body with
        | some h => Heading.line ⟨h.level + style.deeper.toNat, h.text,
            h.anchor.or (if style.anchored then slugAnchor? h.text else none)⟩
        | none => l.body) ++ l.ending.text) := by
  refine ⟨?_, flatMap_text_lines t, ?_⟩
  · have hlines : Text.mapLines (fun line => (style.renew? line).getD line) t =
        Text.mapLines style.restyleLine t :=
      congrArg (Text.mapLines · t) (funext fun line => (style.restyleLine_eq_getD line).symm)
    rw [overwrite?, map_locatedHeadings, Text.overwriteFrom?_located, hlines]
    rfl
  · rw [restyle]
    refine congrArg Text.trim (List.flatMap_congr fun l _ => congrArg (· ++ l.ending.text) ?_)
    rw [restyleLine]
    cases Heading.ofLine? l.body with
    | none => rfl
    | some h => exact congrArg Heading.line (style.apply_eq h)

/-- Lines with every kind of ending, two of them alike, and characters of several bytes. -/
example : overwrite? ⟨true, true⟩ "\u00e9\r\n# \u212A  \n\n# \u212A  \r\n##\tB \x7b \x7d\r".toList =
    some "\u00e9\r\n## \u212A \x7b#k\x7d\n\n## \u212A \x7b#k\x7d\r\n### B \x7b \x7d".toList := by
  decide +kernel

end HeadingStyle

end Compendium
