/-
# `Compendium.Proofs.Heading.Line` — which headings a line is read as, and printed from

`Heading.ofLine?` is taken apart once, in `ofLine?_eq_some_iff`; the anchor once, in
`splitAnchor_eq_some_iff`.  From these: a heading line begins with its marks, all that is read comes
from the line, gaps at the end of the line make no difference, and with any other blank there it is
still a heading, if maybe another one.

`Heading.Printable` says which headings are read back from their line (`ofLine?_line`).  It is not
true that every heading that is read is printable: in a line with a blank that is no gap, say a
no-break space behind a closing brace, the brace ends no anchor, but it does once the text is
trimmed and printed.  Where all blanks are gaps there is no such line (`printable_of_ofLine?`).
-/
import Compendium.Heading
import Compendium.Proofs.Text.Row
import Compendium.Proofs.Text.Trim

namespace Compendium.Heading

/-! ## Reading the parts of a line -/

theorem splitAnchor_eq_some_iff {body front a : Text} :
    splitAnchor body = (front, some a) ↔
      body = front ++ '\x7b' :: a ++ ['\x7d'] ∧ ∀ c ∈ a, isInner c = true := by
  constructor
  · intro h
    simp only [splitAnchor] at h
    split at h
    · next back hback =>
      split at h
      · next front' hfront =>
        simp only [Prod.mk.injEq, Option.some.injEq] at h
        obtain ⟨rfl, rfl⟩ := h
        have hsplit : back = back.takeWhile isInner ++ '\x7b' :: front' := by
          rw [← hfront, List.takeWhile_append_dropWhile]
        refine ⟨?_, fun c hc => List.mem_takeWhile_imp (List.mem_reverse.mp hc)⟩
        have hbody : body = ('\x7d' :: back).reverse := by rw [← hback, List.reverse_reverse]
        rw [hbody, List.reverse_cons]
        conv_lhs => rw [hsplit]
        simp
      · cases h
    · cases h
  · rintro ⟨rfl, ha⟩
    have hrev : ∀ c ∈ a.reverse, isInner c = true := fun c hc => ha c (List.mem_reverse.mp hc)
    have hdrop : (a.reverse ++ '\x7b' :: front.reverse).dropWhile isInner =
        '\x7b' :: front.reverse := by
      rw [List.dropWhile_append_of_pos hrev]
      rfl
    have htake : (a.reverse ++ '\x7b' :: front.reverse).takeWhile isInner = a.reverse := by
      rw [List.takeWhile_append_of_pos hrev]
      simp [isInner]
    have hback : (front ++ '\x7b' :: a ++ ['\x7d']).reverse =
        '\x7d' :: (a.reverse ++ '\x7b' :: front.reverse) := by simp
    simp only [splitAnchor, hback, hdrop, htake, List.reverse_reverse]

theorem splitAnchor_of_none {body : Text} (h : (splitAnchor body).2 = none) :
    splitAnchor body = (body, none) := by
  rcases hs : splitAnchor body with ⟨front, anchor⟩
  rw [hs] at h
  obtain rfl : anchor = none := h
  simp only [splitAnchor] at hs
  split at hs
  · split at hs
    · cases hs
    · exact hs.symm
  · exact hs.symm

theorem body?_eq_some_iff {rest body : Text} :
    body? rest = some body ↔
      (∃ c u, rest = c :: u ∧ isGap c = true) ∧
        body = Text.dropEndWhile isGap (rest.dropWhile isGap) := by
  cases rest with
  | nil => simp [body?]
  | cons c u =>
      simp only [body?]
      cases hc : isGap c with
      | false => simp [hc]
      | true =>
          constructor
          · intro h
            exact ⟨⟨c, u, rfl, hc⟩, (Option.some.inj h).symm⟩
          · rintro ⟨-, rfl⟩
            rfl

theorem ofLine?_eq_some_iff {line : Text} {h : Heading} :
    ofLine? line = some h ↔
      ∃ body, line.takeWhile (· == '#') ≠ [] ∧ body? (line.dropWhile (· == '#')) = some body ∧
        Text.trim (splitAnchor body).1 ≠ [] ∧
        '\n' ∉ Text.dropEndWhile isGap (splitAnchor body).1 ∧
        h = ⟨(line.takeWhile (· == '#')).length, Text.trim (splitAnchor body).1,
          (splitAnchor body).2⟩ := by
  simp only [ofLine?]
  by_cases hm : line.takeWhile (· == '#') = []
  · simp [hm]
  · cases hb : body? (line.dropWhile (· == '#')) with
    | none => simp
    | some body =>
        rw [if_neg (by simpa using hm)]
        dsimp only
        by_cases ht : Text.trim (splitAnchor body).1 = []
        · simp [ht]
        · by_cases hn : '\n' ∈ Text.dropEndWhile isGap (splitAnchor body).1
          · simp [hn]
          · rw [if_neg (by simp [ht, hn])]
            constructor
            · intro h
              exact ⟨body, hm, rfl, ht, hn, (Option.some.inj h).symm⟩
            · rintro ⟨body', -, hbody, -, -, rfl⟩
              obtain rfl := Option.some.inj hbody
              rfl

/-! ## What a heading line is made of -/

theorem mem_of_body? {rest body : Text} (h : body? rest = some body) {c : Char} (hc : c ∈ body) :
    c ∈ rest := by
  obtain ⟨-, rfl⟩ := body?_eq_some_iff.mp h
  exact Text.mem_of_mem_dropWhile (Text.mem_of_mem_dropEndWhile hc)

theorem mem_of_splitAnchor {body : Text} {c : Char}
    (hc : c ∈ (splitAnchor body).1 ∨ ∃ a, (splitAnchor body).2 = some a ∧ c ∈ a) : c ∈ body := by
  rcases hs : splitAnchor body with ⟨front, _ | a⟩
  · have hfront := splitAnchor_of_none (congrArg Prod.snd hs)
    simpa [hfront] using hc
  · rw [hs] at hc
    obtain ⟨hbody, -⟩ := splitAnchor_eq_some_iff.mp hs
    rw [hbody]
    simp only [Option.some.injEq, exists_eq_left'] at hc
    simp only [List.mem_append, List.mem_cons]
    rcases hc with hc | hc
    · exact .inl (.inl hc)
    · exact .inl (.inr (.inr hc))

theorem mem_of_ofLine? {line : Text} {h : Heading} (hl : ofLine? line = some h) {c : Char}
    (hc : c ∈ h.text ∨ ∃ a, h.anchor = some a ∧ c ∈ a) : c ∈ line := by
  obtain ⟨body, -, hbody, -, -, rfl⟩ := ofLine?_eq_some_iff.mp hl
  refine Text.mem_of_mem_dropWhile (mem_of_body? hbody (mem_of_splitAnchor ?_))
  exact hc.imp_left Text.mem_of_mem_trim

theorem text_of_ofLine? {line : Text} {h : Heading} (hl : ofLine? line = some h) :
    h.text ≠ [] ∧ Text.trim h.text = h.text := by
  obtain ⟨body, -, -, ht, -, rfl⟩ := ofLine?_eq_some_iff.mp hl
  exact ⟨ht, Text.trim_trim _⟩

/-- The only blanks of a printed heading are spaces and those of its text and its anchor. -/
theorem mem_line_of_blank {h : Heading} {c : Char} (hb : isBlank c = true) (hc : c ∈ h.line) :
    c = ' ' ∨ c ∈ h.text ∨ ∃ a, h.anchor = some a ∧ c ∈ a := by
  rw [line] at hc
  simp only [List.mem_append, List.mem_replicate, List.mem_cons] at hc
  rcases hc with (⟨-, hc⟩ | hc | hc) | hc
  · exact absurd hc (Text.ne_of_isBlank hb (by decide))
  · exact .inl hc
  · exact .inr (.inl hc)
  · cases ha : h.anchor with
    | none =>
        rw [ha] at hc
        exact absurd hc List.not_mem_nil
    | some a =>
        rw [ha] at hc
        simp only [anchorText, List.mem_append, List.mem_cons, List.not_mem_nil, or_false] at hc
        rcases hc with (hc | hc | hc) | hc
        · exact .inl hc
        · exact absurd hc (Text.ne_of_isBlank hb (by decide))
        · exact .inr (.inr ⟨a, rfl, hc⟩)
        · exact absurd hc (Text.ne_of_isBlank hb (by decide))

theorem head?_of_ofLine? {line : Text} {h : Heading} (hl : ofLine? line = some h) :
    line.head? = some '#' := by
  obtain ⟨-, hm, -⟩ := ofLine?_eq_some_iff.mp hl
  cases line with
  | nil => exact absurd rfl hm
  | cons c line =>
      by_cases hc : (c == '#') = true
      · exact congrArg some (beq_iff_eq.mp hc)
      · exact absurd (List.takeWhile_cons_of_neg (p := (· == '#')) hc) hm

theorem ofLine?_eq_none {line : Text} (h : line.head? ≠ some '#') : ofLine? line = none :=
  Option.eq_none_iff_forall_ne_some.mpr fun _ hl => h (head?_of_ofLine? hl)

theorem ofLine?_of_not_mem {line : Text} (h : '#' ∉ line) : ofLine? line = none :=
  ofLine?_eq_none fun hh => h (List.mem_of_mem_head? hh)

theorem trimStart_of_mark {r : Text} (h : r.head? = some '#') : Text.trimStart r = r := by
  refine Text.trimStart_eq_self fun c hc => ?_
  obtain rfl := Option.some.inj (h.symm.trans hc)
  decide

/-! ## Blanks at the end of a line -/

theorem not_mark_of_blank {c : Char} (hc : isBlank c = true) : ¬ (c == '#') = true := fun he =>
  Text.ne_of_isBlank hc (by decide) (beq_iff_eq.mp he)

theorem body?_concat_of_gap {c : Char} (hc : isGap c = true) {rest : Text} (hne : rest ≠ []) :
    body? (rest ++ [c]) = body? rest := by
  obtain ⟨d, u, rfl⟩ := List.exists_cons_of_ne_nil hne
  simp only [List.cons_append, body?]
  have htrim : Text.dropEndWhile isGap ((d :: (u ++ [c])).dropWhile isGap) =
      Text.dropEndWhile isGap ((d :: u).dropWhile isGap) := by
    rw [← List.cons_append, List.dropWhile_append]
    split
    · next he =>
      rw [List.isEmpty_iff.mp he, List.dropWhile_cons_of_pos hc]
      rfl
    · exact Text.dropEndWhile_concat_of_pos _ hc
  rw [htrim]

theorem ofLine?_concat_of_gap {c : Char} (hc : isGap c = true) (line : Text) :
    ofLine? (line ++ [c]) = ofLine? line := by
  have hmark : ¬ (c == '#') = true := not_mark_of_blank (isBlank_of_isGap hc)
  have htake := Text.takeWhile_concat_of_neg (p := (· == '#')) line hmark
  have hdrop := Text.dropWhile_concat_of_neg (p := (· == '#')) line hmark
  by_cases hr : line.dropWhile (· == '#') = []
  · -- only marks: then there is no body, or an empty one
    have hempty : body? [c] = some [] := by
      simp only [body?, hc, if_pos, List.dropWhile_cons, List.dropWhile_nil]
      rfl
    simp only [ofLine?, htake, hdrop, hr, List.nil_append, hempty]
    rfl
  · simp only [ofLine?, htake, hdrop, body?_concat_of_gap hc hr]

theorem body?_concat_of_not_gap {c : Char} (hc : ¬ isGap c = true) {rest body : Text}
    (h : body? rest = some body) : body? (rest ++ [c]) = some (rest.dropWhile isGap ++ [c]) := by
  obtain ⟨⟨d, u, rfl, hd⟩, -⟩ := body?_eq_some_iff.mp h
  refine body?_eq_some_iff.mpr ⟨⟨d, u ++ [c], rfl, hd⟩, ?_⟩
  rw [Text.dropWhile_concat_of_neg _ hc, Text.dropEndWhile_concat, if_neg hc]

theorem splitAnchor_concat {c : Char} (hc : c ≠ '\x7d') (t : Text) :
    splitAnchor (t ++ [c]) = (t ++ [c], none) := by
  refine splitAnchor_of_none ?_
  simp only [splitAnchor, List.reverse_append, List.reverse_cons, List.reverse_nil,
    List.nil_append, List.singleton_append]
  split
  · next back he => exact absurd (List.cons.inj he).1 hc
  · rfl

/-- A blank at the end of a heading leaves it a heading.  Where it is no gap it may change the
heading: it is part of the body then, so there is no anchor before it. -/
theorem ofLine?_concat_ne_none {c : Char} (hb : isBlank c = true) (hn : c ≠ '\n') {line : Text}
    (hrow : '\n' ∉ line) (h : ofLine? line ≠ none) : ofLine? (line ++ [c]) ≠ none := by
  by_cases hg : isGap c = true
  · rwa [ofLine?_concat_of_gap hg]
  obtain ⟨g, hl⟩ := Option.ne_none_iff_exists'.mp h
  obtain ⟨body, hm, hbody, htext, -, -⟩ := ofLine?_eq_some_iff.mp hl
  have hmark := not_mark_of_blank hb
  have hsplit (t : Text) := splitAnchor_concat (Text.ne_of_isBlank hb (by decide)) t
  refine Option.ne_none_iff_exists'.mpr ⟨_, ofLine?_eq_some_iff.mpr
    ⟨(line.dropWhile (· == '#')).dropWhile isGap ++ [c], ?_, ?_, ?_, ?_, rfl⟩⟩
  · rw [Text.takeWhile_concat_of_neg (p := (· == '#')) line hmark]
    exact hm
  · rw [Text.dropWhile_concat_of_neg (p := (· == '#')) line hmark]
    exact body?_concat_of_not_gap hg hbody
  · -- what the heading's text was made of is still there
    rw [hsplit, Text.trim_concat_of_blank hb]
    refine fun hblank => htext (Text.trim_eq_nil_iff.mpr fun d hd => ?_)
    obtain ⟨-, rfl⟩ := body?_eq_some_iff.mp hbody
    refine Text.trim_eq_nil_iff.mp hblank d ?_
    exact Text.mem_of_mem_dropEndWhile (mem_of_splitAnchor (.inl hd))
  · rw [hsplit, Text.dropEndWhile_concat, if_neg hg]
    refine Text.not_mem_concat (fun hmem => hrow ?_) hn
    exact Text.mem_of_mem_dropWhile (Text.mem_of_mem_dropWhile hmem)

theorem ofLine?_trimEnd_eq_none {line : Text} (hrow : '\n' ∉ line) (h : ofLine? line = none) :
    ofLine? (Text.trimEnd line) = none := by
  induction line using List.reverseRecOn with
  | nil => exact h
  | append_singleton line c ih =>
      rw [Text.trimEnd, Text.dropEndWhile_concat]
      split
      · next hb =>
        have hline : '\n' ∉ line := fun hm => hrow (List.mem_append_left _ hm)
        have hc : c ≠ '\n' := fun he => hrow (he ▸ List.mem_append_right _ List.mem_cons_self)
        refine ih hline (by_contra fun hne => ?_)
        exact ofLine?_concat_ne_none hb hc hline hne h
      · exact h

/-! ## Reading a printed heading -/

/-- A heading whose line is read as the heading itself. -/
structure Printable (h : Heading) : Prop where
  level : 0 < h.level
  text_ne : h.text ≠ []
  trimmed : Text.trim h.text = h.text
  row : '\n' ∉ h.text
  anchor : ∀ a, h.anchor = some a → ∀ c ∈ a, isInner c = true
  bare : h.anchor = none → (splitAnchor h.text).2 = none

theorem trim_text_anchorText {h : Heading} (hne : h.text ≠ []) (htrim : Text.trim h.text = h.text) :
    Text.trim (h.text ++ anchorText h.anchor) = h.text ++ anchorText h.anchor := by
  cases ha : h.anchor with
  | none =>
      rw [anchorText, List.append_nil]
      exact htrim
  | some a =>
      refine Text.trim_eq_self_iff.mpr ⟨fun c hc => ?_, fun c hc => ?_⟩
      · refine (Text.trim_eq_self_iff.mp htrim).1 c ?_
        obtain ⟨d, t, ht⟩ := List.exists_cons_of_ne_nil hne
        rw [ht] at hc ⊢
        exact hc
      · rw [anchorText, ← List.append_assoc, List.getLast?_concat] at hc
        rw [← Option.some.inj hc]
        decide

theorem trimEnd_line {h : Heading} (hne : h.text ≠ []) (htrim : Text.trim h.text = h.text) :
    Text.trimEnd h.line = h.line := by
  refine Text.trimEnd_eq_self fun c hc => ?_
  refine (Text.trim_eq_self_iff.mp (trim_text_anchorText hne htrim)).2 c ?_
  obtain ⟨d, t, ht⟩ := List.exists_cons_of_ne_nil hne
  rw [line, List.append_assoc, List.cons_append, List.getLast?_append, List.getLast?_cons] at hc
  simp only [Option.some_or, Option.some.injEq] at hc
  rw [← hc, ht, List.cons_append, List.getLast?_cons, Option.getD_some]

theorem splitAnchor_text_anchorText {h : Heading} (hp : h.Printable) :
    Text.trim (splitAnchor (h.text ++ anchorText h.anchor)).1 = h.text ∧
      '\n' ∉ (splitAnchor (h.text ++ anchorText h.anchor)).1 ∧
      (splitAnchor (h.text ++ anchorText h.anchor)).2 = h.anchor := by
  cases ha : h.anchor with
  | none =>
      rw [anchorText, List.append_nil, splitAnchor_of_none (hp.bare ha)]
      exact ⟨hp.trimmed, hp.row, rfl⟩
  | some a =>
      have hs : splitAnchor (h.text ++ anchorText (some a)) = (h.text ++ [' '], some a) := by
        refine splitAnchor_eq_some_iff.mpr ⟨?_, hp.anchor a ha⟩
        simp [anchorText]
      rw [hs]
      refine ⟨(Text.trim_concat_of_blank (by decide) _).trans hp.trimmed, ?_, rfl⟩
      exact Text.not_mem_concat hp.row (by decide)

theorem mark_of_mem_replicate {n : Nat} : ∀ c ∈ List.replicate n '#', (c == '#') = true := by
  intro c hc
  rw [List.eq_of_mem_replicate hc]
  rfl

theorem takeWhile_line (h : Heading) :
    h.line.takeWhile (· == '#') = List.replicate h.level '#' := by
  rw [line, List.append_assoc, List.cons_append, List.takeWhile_append_of_pos mark_of_mem_replicate,
    List.takeWhile_cons_of_neg (by decide), List.append_nil]

theorem dropWhile_line (h : Heading) :
    h.line.dropWhile (· == '#') = ' ' :: (h.text ++ anchorText h.anchor) := by
  rw [line, List.append_assoc, List.cons_append, List.dropWhile_append_of_pos mark_of_mem_replicate,
    List.dropWhile_cons_of_neg (by decide)]

/-- What the line of a heading is read as: its text and its anchor together, split anew. -/
theorem ofLine?_line_eq_some_iff {h g : Heading} (hne : h.text ≠ [])
    (htrim : Text.trim h.text = h.text) :
    ofLine? h.line = some g ↔
      0 < h.level ∧ Text.trim (splitAnchor (h.text ++ anchorText h.anchor)).1 ≠ [] ∧
        '\n' ∉ Text.dropEndWhile isGap (splitAnchor (h.text ++ anchorText h.anchor)).1 ∧
        g = ⟨h.level, Text.trim (splitAnchor (h.text ++ anchorText h.anchor)).1,
          (splitAnchor (h.text ++ anchorText h.anchor)).2⟩ := by
  have hbody : body? (h.line.dropWhile (· == '#')) = some (h.text ++ anchorText h.anchor) := by
    rw [dropWhile_line]
    refine body?_eq_some_iff.mpr ⟨⟨_, _, rfl, rfl⟩, ?_⟩
    rw [List.dropWhile_cons_of_pos rfl, Text.dropGaps_of_trim (trim_text_anchorText hne htrim)]
  rw [ofLine?_eq_some_iff, takeWhile_line, hbody, List.length_replicate]
  constructor
  · rintro ⟨body, hlevel, hb, htext, hrow, rfl⟩
    obtain rfl := Option.some.inj hb
    exact ⟨Nat.pos_of_ne_zero fun h0 => hlevel (List.replicate_eq_nil_iff '#' |>.mpr h0),
      htext, hrow, rfl⟩
  · rintro ⟨hlevel, htext, hrow, rfl⟩
    exact ⟨_, fun he => hlevel.ne' (List.replicate_eq_nil_iff '#' |>.mp he), rfl, htext, hrow, rfl⟩

theorem ofLine?_line {h : Heading} (hp : h.Printable) : ofLine? h.line = some h := by
  obtain ⟨htext, hrow, hanchor⟩ := splitAnchor_text_anchorText hp
  refine (ofLine?_line_eq_some_iff hp.text_ne hp.trimmed).mpr ⟨hp.level, ?_, ?_, ?_⟩
  · rw [htext]
    exact hp.text_ne
  · exact fun hm => hrow (Text.mem_of_mem_dropEndWhile hm)
  · rw [htext, hanchor]

/-- Where all blanks are gaps, what is read from a line is printable. -/
theorem printable_of_ofLine? {line : Text} {h : Heading} (hl : ofLine? line = some h)
    (hg : ∀ c ∈ line, isBlank c = true → isGap c = true) : h.Printable := by
  obtain ⟨body, hm, hbody, ht, hn, rfl⟩ := ofLine?_eq_some_iff.mp hl
  have hbody' : Text.trim body = body := by
    obtain ⟨-, he⟩ := body?_eq_some_iff.mp hbody
    rw [Text.dropGaps_eq_trim fun c hc => hg c (Text.mem_of_mem_dropWhile hc)] at he
    rw [he, Text.trim_trim]
  refine ⟨List.length_pos_of_ne_nil hm, ht, Text.trim_trim _, ?_, ?_, ?_⟩
  · intro hmem
    exact absurd (hg _ (mem_of_ofLine? hl (.inl hmem)) (by decide)) (by decide)
  · intro a ha
    exact (splitAnchor_eq_some_iff.mp (Prod.ext rfl ha)).2
  · intro ha
    have hs := splitAnchor_of_none ha
    simp only [hs, hbody']

end Compendium.Heading
