/-
# `Compendium.Proofs.Heading.Grammar` — heading lines, and the pattern that finds them

A heading line is made of parts, and `Parts.Of` says which: marks, gaps, a body that begins with no
gap, and of the body without the gaps at its end the group in braces that it ends in, if it ends in
one.  Heading lines are also what a pattern finds, `(#+)[ \t]+(.*?)(?:[ \t]*\{([^{}]*)\})?[ \t]*`,
which tries a short text before a longer one.  There may be many ways to lay it over a line: the
gaps may be split, blanks may be counted to the text or not, and a group may be the anchor or part
of the text.

The parts of a line are determined by the line, for each run is told from what follows it by the
first character behind it (`Parts.of_iff`).  The pattern takes the marks and the gaps whole.  Then
it takes the shortest text behind which the line can be closed (`Closes`), and this is what stands
in front of the anchor: there the line can be closed (`exists_closes`), and wherever it can be
closed that text has been taken already (`isPrefix_of_closes`).  So the three ways to say what a
heading is are one (`ofLine?_grammar`).
-/
import Compendium.Proofs.Heading.Printing
import Compendium.Proofs.Text.Pattern

namespace Compendium.Heading

open Pattern

/-- The pattern of a group in braces, with gaps before it. -/
def group : Pattern Text := do
  let _ ← most isGap
  let _ ← one (· == '\x7b')
  let inner ← most isInner
  let _ ← one (· == '\x7d')
  return inner

/-- The pattern of a heading line, `(#+)[ \t]+(.*?)(?:[ \t]*\{([^{}]*)\})?[ \t]*`: marks, gaps, as
little text as possible, a group if there is one, and gaps. -/
def pattern : Pattern (Text × Text × Option Text) := do
  let marks ← most1 (· == '#')
  let _ ← most1 isGap
  let text ← fewest (!isBreak ·)
  let anchor ← maybe group
  let _ ← most isGap
  return (marks, text, anchor)

/-- What may stand behind the text of a heading line: gaps, and the anchor among them. -/
inductive Closes : Text → Option Text → Prop
  | bare {gaps : Text} : (∀ c ∈ gaps, isGap c = true) → Closes gaps none
  | anchored {gaps a gaps' : Text} : (∀ c ∈ gaps, isGap c = true) → (∀ c ∈ a, isInner c = true) →
      (∀ c ∈ gaps', isGap c = true) → Closes (gaps ++ '\x7b' :: (a ++ '\x7d' :: gaps')) (some a)

theorem span_append {p : Char → Bool} {s u : Text} (hs : ∀ c ∈ s, p c = true)
    (hu : ∀ c, u.head? = some c → p c = false) :
    (s ++ u).takeWhile p = s ∧ (s ++ u).dropWhile p = u := by
  rw [List.takeWhile_append_of_pos hs, List.dropWhile_append_of_pos hs]
  cases u with
  | nil => exact ⟨List.append_nil s, rfl⟩
  | cons c u =>
      have hc := Bool.eq_false_iff.mp (hu c rfl)
      rw [List.takeWhile_cons_of_neg hc, List.dropWhile_cons_of_neg hc]
      exact ⟨List.append_nil s, rfl⟩

section Group

variable {β : Type} {r : Text}

/-- A character behind a run is not in the class of the run, so there is one way to read both. -/
theorem first_most_one_iff {p : Char → Bool} {d : Char} (hd : p d = false)
    {k : Text → Text → Option β} {b : β} :
    (most p).first (fun s => (one (· == d)).first fun _ u => k s u) r = some b ↔
      ∃ s u, r = s ++ d :: u ∧ (∀ c ∈ s, p c = true) ∧ k s u = some b := by
  have hstop : ∀ s c u, p c = true →
      (one (· == d)).first (fun _ u => k s u) (c :: u) = none := by
    intro s c u hc
    rw [first_one_cons]
    refine if_neg fun he => ?_
    rw [beq_iff_eq.mp he, hd] at hc
    cases hc
  rw [first_most_of_stop hstop]
  constructor
  · intro h
    have hsplit := (List.takeWhile_append_dropWhile (p := p) (l := r)).symm
    cases hr : r.dropWhile p with
    | nil =>
        rw [hr, first_one_nil] at h
        cases h
    | cons c u =>
        rw [hr, first_one_cons] at h
        rw [hr] at hsplit
        split at h
        · next hc =>
          rw [beq_iff_eq.mp hc] at hsplit
          exact ⟨_, u, hsplit, fun c => List.mem_takeWhile_imp, h⟩
        · cases h
  · rintro ⟨s, u, rfl, hs, h⟩
    obtain ⟨htake, hdrop⟩ := span_append (u := d :: u) hs fun c hc => Option.some.inj hc ▸ hd
    rw [htake, hdrop, first_one_cons, if_pos (beq_self_eq_true d)]
    exact h

theorem first_group_iff {k : Text → Text → Option β} {b : β} :
    group.first k r = some b ↔
      ∃ gaps a u, r = gaps ++ '\x7b' :: (a ++ '\x7d' :: u) ∧ (∀ c ∈ gaps, isGap c = true) ∧
        (∀ c ∈ a, isInner c = true) ∧ k a u = some b := by
  simp only [group, first_bind, first_pure]
  rw [first_most_one_iff (by decide)]
  constructor
  · rintro ⟨gaps, v, rfl, hgaps, h⟩
    obtain ⟨a, u, rfl, ha, h⟩ := (first_most_one_iff (by decide)).mp h
    exact ⟨gaps, a, u, rfl, hgaps, ha, h⟩
  · rintro ⟨gaps, a, u, rfl, hgaps, ha, h⟩
    exact ⟨gaps, _, rfl, hgaps, (first_most_one_iff (by decide)).mpr ⟨a, u, rfl, ha, h⟩⟩

theorem first_gaps_iff {a b : β} :
    (most isGap).first (fun _ u => if u.isEmpty then some a else none) r = some b ↔
      (∀ c ∈ r, isGap c = true) ∧ a = b := by
  rw [first_most_of_stop fun _ _ _ _ => rfl, ← List.dropWhile_eq_nil_iff, ← List.isEmpty_iff]
  split
  · next h => exact ⟨fun he => ⟨h, Option.some.inj he⟩, fun he => congrArg some he.2⟩
  · next h => exact ⟨nofun, fun he => absurd he.1 h⟩

theorem first_closing_iff {f : Option Text → β} {b : β} :
    (maybe group).first (fun a u =>
        (most isGap).first (fun _ v => if v.isEmpty then some (f a) else none) u) r = some b ↔
      ∃ a, Closes r a ∧ f a = b := by
  rw [first_maybe, Option.or_eq_some_iff, first_group_iff, first_gaps_iff]
  constructor
  · rintro (⟨gaps, a, u, rfl, hgaps, ha, h⟩ | ⟨-, hgaps, h⟩)
    · obtain ⟨hu, h⟩ := first_gaps_iff.mp h
      exact ⟨some a, .anchored hgaps ha hu, h⟩
    · exact ⟨none, .bare hgaps, h⟩
  · rintro ⟨_, ⟨hgaps⟩ | ⟨hgaps, ha, hgaps'⟩, h⟩
    · -- there is no brace among gaps
      refine .inr ⟨Option.eq_none_iff_forall_ne_some.mpr fun b hb => ?_, hgaps, h⟩
      obtain ⟨gaps, a, u, rfl, -⟩ := first_group_iff.mp hb
      exact absurd (hgaps '\x7b' (by simp)) (by decide)
    · exact .inl ⟨_, _, _, rfl, hgaps, ha, first_gaps_iff.mpr ⟨hgaps', h⟩⟩

end Group

/-! ## Where the text of a heading line ends -/

/-- How a body is split: at the group that it ends in, if it ends in one. -/
theorem splitAnchor_eq_iff {b front : Text} {anchor : Option Text} :
    splitAnchor b = (front, anchor) ↔
      (∃ a, anchor = some a ∧ '\x7b' ∉ a ∧ '\x7d' ∉ a ∧ b = front ++ '\x7b' :: a ++ ['\x7d']) ∨
        (anchor = none ∧ ¬ EndsInGroup b ∧ b = front) := by
  cases anchor with
  | some a =>
      rw [splitAnchor_eq_some_iff, inner_iff_not_mem]
      constructor
      · rintro ⟨hb, ha⟩
        exact .inl ⟨a, rfl, ha.1, ha.2, hb⟩
      · rintro (⟨a', ha', hopen, hclose, hb⟩ | ⟨hnone, -⟩)
        · obtain rfl := Option.some.inj ha'
          exact ⟨hb, hopen, hclose⟩
        · cases hnone
  | none =>
      constructor
      · intro hs
        have hnone : (splitAnchor b).2 = none := congrArg Prod.snd hs
        have hb := (splitAnchor_of_none hnone).symm.trans hs
        exact .inr ⟨rfl, splitAnchor_eq_none_iff.mp hnone, congrArg Prod.fst hb⟩
      · rintro (⟨a, ha, -⟩ | ⟨-, hend, rfl⟩)
        · cases ha
        · exact splitAnchor_of_none (splitAnchor_eq_none_iff.mpr hend)

/-- The text and the anchor of what follows the marks of a heading line and the gaps behind them,
where blanks of the text that are no gaps are not trimmed yet. -/
def closing (u : Text) : Text × Option Text :=
  let split := splitAnchor (Text.dropEndWhile isGap u)
  (Text.dropEndWhile isGap split.1, split.2)

theorem exists_closes (u : Text) : ∃ r, u = (closing u).1 ++ r ∧ Closes r (closing u).2 := by
  obtain ⟨g, hu, hg⟩ := Text.exists_dropEndWhile_append isGap u
  rcases hs : splitAnchor (Text.dropEndWhile isGap u) with ⟨front, anchor⟩
  obtain ⟨g', hfront, hg'⟩ := Text.exists_dropEndWhile_append isGap front
  rw [closing, hs]
  rcases splitAnchor_eq_iff.mp hs with ⟨a, rfl, hopen, hclose, hb⟩ | ⟨rfl, -, hb⟩
  · refine ⟨g' ++ '\x7b' :: (a ++ '\x7d' :: g), ?_,
      .anchored hg' (inner_iff_not_mem.mpr ⟨hopen, hclose⟩) hg⟩
    calc u = front ++ '\x7b' :: a ++ ['\x7d'] ++ g := hb ▸ hu
      _ = Text.dropEndWhile isGap front ++ g' ++ '\x7b' :: a ++ ['\x7d'] ++ g := by rw [← hfront]
      _ = _ := by simp
  · -- without a group nothing but gaps stands behind the text
    refine ⟨g' ++ g, ?_, .bare fun c hc => (List.mem_append.mp hc).elim (hg' c) (hg c)⟩
    rw [← List.append_assoc, ← hfront, ← hb]
    exact hu

/-- No way to close a heading line leaves a shorter text than the one that is split off. -/
theorem isPrefix_of_closes {s r : Text} {a : Option Text} (h : Closes r a) :
    (closing (s ++ r)).1 <+: s := by
  have hcut (t : Text) : Text.dropEndWhile isGap t <+: t := List.rdropWhile_prefix isGap t
  cases h with
  | bare hg =>
      rw [closing, Text.dropEndWhile_append_of_pos hg]
      rcases hs : splitAnchor (Text.dropEndWhile isGap s) with ⟨front, anchor⟩
      have hfront : front <+: Text.dropEndWhile isGap s := by
        rcases splitAnchor_eq_iff.mp hs with ⟨a, -, -, -, hb⟩ | ⟨-, -, hb⟩
        · exact ⟨_, (List.append_assoc _ _ _).symm.trans hb.symm⟩
        · exact ⟨[], (List.append_nil _).trans hb.symm⟩
      exact ((hcut front).trans hfront).trans (hcut s)
  | @anchored g a g' hg ha hg' =>
      have hgroup : s ++ (g ++ '\x7b' :: (a ++ '\x7d' :: g')) =
          s ++ g ++ '\x7b' :: a ++ ['\x7d'] ++ g' := by simp
      have hsplit : splitAnchor (s ++ g ++ '\x7b' :: a ++ ['\x7d']) = (s ++ g, some a) :=
        splitAnchor_eq_some_iff.mpr ⟨rfl, ha⟩
      have hend : Text.dropEndWhile isGap (s ++ g ++ '\x7b' :: a ++ ['\x7d']) =
          s ++ g ++ '\x7b' :: a ++ ['\x7d'] :=
        (Text.dropEndWhile_concat isGap _ _).trans (if_neg (by decide))
      rw [closing, hgroup, Text.dropEndWhile_append_of_pos hg', hend, hsplit]
      exact Text.dropEndWhile_append_of_pos hg s ▸ hcut s

/-- The shortest text with which the line can be closed is the one that is split off. -/
theorem first_text_eq {β : Type} {u : Text} (hrow : '\n' ∉ u) (f : Text → Option Text → β) :
    (fewest (!isBreak ·)).first (fun s r => (maybe group).first (fun a r =>
        (most isGap).first (fun _ v => if v.isEmpty then some (f s a) else none) r) r) u =
      some (f (closing u).1 (closing u).2) := by
  obtain ⟨r, hu, hr⟩ := exists_closes u
  have hchars : ∀ c ∈ (closing u).1, (!isBreak c) = true := by
    intro c hc
    rw [Bool.not_eq_true', isBreak, beq_eq_false_iff_ne]
    exact fun he => hrow (hu ▸ List.mem_append_left _ (he ▸ hc))
  conv_lhs => rw [hu]
  refine first_fewest_eq_some hchars (first_closing_iff.mpr ⟨_, hr, rfl⟩) fun s' r' heq hlt => ?_
  refine Option.eq_none_iff_forall_ne_some.mpr fun b hb => ?_
  obtain ⟨a', hr', -⟩ := first_closing_iff.mp hb
  have hle := (isPrefix_of_closes (s := s') hr').length_le
  rw [heq, ← hu] at hle
  exact absurd hlt (Nat.not_lt.mpr hle)

/-! ## The way that the pattern takes -/

/-- The marks and the gaps are taken whole, the text as far as the line cannot be closed. -/
theorem whole?_pattern {line : Text} (hrow : '\n' ∉ line) :
    pattern.whole? line =
      if line.takeWhile (· == '#') = [] then none
      else if (line.dropWhile (· == '#')).takeWhile isGap = [] then none
      else some (line.takeWhile (· == '#'),
        closing ((line.dropWhile (· == '#')).dropWhile isGap)) := by
  simp only [pattern, whole?, first_bind, first_pure]
  rw [first_most1_of_stop, first_most1_of_some]
  · refine first_text_eq (fun hm => hrow ?_) fun text anchor => (_, text, anchor)
    exact Text.mem_of_mem_dropWhile (Text.mem_of_mem_dropWhile hm)
  · -- a mark is no gap
    intro s d r hd
    rw [first_most1_cons, beq_iff_eq.mp hd]
    rfl

/-! ## The grammar -/

/-- The parts of a heading line: the number of its marks, the gaps behind them, its body, and of
the body what stands before the anchor, and the anchor. -/
structure Parts where
  level : Nat
  gaps : Text
  body : Text
  front : Text
  anchor : Option Text

namespace Parts

/-- The line is made of these parts.  Gaps at the end of the body do not count when it comes to
the anchor. -/
structure Of (q : Parts) (line : Text) : Prop where
  line_eq : line = List.replicate q.level '#' ++ q.gaps ++ q.body
  level : 0 < q.level
  gaps_ne : q.gaps ≠ []
  gaps : ∀ c ∈ q.gaps, isGap c = true
  body : ∀ c, q.body.head? = some c → isGap c = false
  anchor :
    (∃ a, q.anchor = some a ∧ '\x7b' ∉ a ∧ '\x7d' ∉ a ∧
        Text.dropEndWhile isGap q.body = q.front ++ '\x7b' :: a ++ ['\x7d']) ∨
      (q.anchor = none ∧ ¬ EndsInGroup (Text.dropEndWhile isGap q.body) ∧
        Text.dropEndWhile isGap q.body = q.front)

/-- The parts that a line is cut into, from its start. -/
def cut (line : Text) : Parts :=
  let rest := line.dropWhile (· == '#')
  let body := rest.dropWhile isGap
  let split := splitAnchor (Text.dropEndWhile isGap body)
  ⟨(line.takeWhile (· == '#')).length, rest.takeWhile isGap, body, split.1, split.2⟩

theorem of_cut {line : Text} (hmarks : line.takeWhile (· == '#') ≠ [])
    (hgaps : (line.dropWhile (· == '#')).takeWhile isGap ≠ []) : (cut line).Of line where
  line_eq := by
    have hm : List.replicate (cut line).level '#' = line.takeWhile (· == '#') := by
      refine (List.eq_replicate_iff.mpr ⟨rfl, fun c hc => ?_⟩).symm
      exact beq_iff_eq.mp (List.mem_takeWhile_imp (p := (· == '#')) hc)
    rw [hm, cut, List.append_assoc, List.takeWhile_append_dropWhile,
      List.takeWhile_append_dropWhile]
  level := List.length_pos_of_ne_nil hmarks
  gaps_ne := hgaps
  gaps _ := List.mem_takeWhile_imp
  body c hc := by
    have hstop := List.head?_dropWhile_not isGap (line.dropWhile (· == '#'))
    rw [show ((line.dropWhile (· == '#')).dropWhile isGap).head? = some c from hc] at hstop
    exact hstop
  anchor := splitAnchor_eq_iff.mp rfl

theorem Of.eq_cut {q : Parts} {line : Text} (hq : q.Of line) :
    line.takeWhile (· == '#') = List.replicate q.level '#' ∧
      (line.dropWhile (· == '#')).takeWhile isGap = q.gaps ∧ q = cut line := by
  obtain ⟨g, gs, hg⟩ := List.exists_cons_of_ne_nil hq.gaps_ne
  have hstop : ∀ c, (q.gaps ++ q.body).head? = some c → (c == '#') = false := by
    intro c hc
    rw [hg, List.cons_append, List.head?_cons, Option.some.injEq] at hc
    subst hc
    refine Bool.eq_false_iff.mpr fun he => ?_
    have hgap := hq.gaps g (hg ▸ List.mem_cons_self)
    exact not_mark_of_blank (isBlank_of_isGap hgap) he
  obtain ⟨htake, hdrop⟩ := span_append (p := (· == '#')) (mark_of_mem_replicate (n := q.level)) hstop
  rw [← List.append_assoc, ← hq.line_eq] at htake hdrop
  obtain ⟨hgaps, hbody⟩ := span_append hq.gaps hq.body
  have hsplit := splitAnchor_eq_iff.mpr hq.anchor
  rw [cut, htake, hdrop, hgaps, hbody, hsplit, List.length_replicate]
  exact ⟨rfl, rfl, rfl⟩

theorem of_iff {q : Parts} {line : Text} :
    q.Of line ↔ line.takeWhile (· == '#') ≠ [] ∧
      (line.dropWhile (· == '#')).takeWhile isGap ≠ [] ∧ q = cut line := by
  constructor
  · intro hq
    obtain ⟨hmarks, hgaps, hcut⟩ := hq.eq_cut
    refine ⟨fun hnil => hq.level.ne' ?_, fun hnil => hq.gaps_ne (hgaps.symm.trans hnil), hcut⟩
    exact (List.replicate_eq_nil_iff '#').mp (hmarks.symm.trans hnil)
  · rintro ⟨hmarks, hgaps, rfl⟩
    exact of_cut hmarks hgaps

end Parts

theorem body?_eq_some_iff_takeWhile {rest b : Text} :
    body? rest = some b ↔
      rest.takeWhile isGap ≠ [] ∧ Text.dropEndWhile isGap (rest.dropWhile isGap) = b := by
  rw [body?_eq_some_iff, eq_comm (a := b)]
  refine and_congr_left fun _ => ?_
  cases rest with
  | nil => exact ⟨nofun, fun h => absurd rfl h⟩
  | cons c u =>
      cases hc : isGap c with
      | true =>
          rw [List.takeWhile_cons_of_pos hc]
          exact iff_of_true ⟨c, u, rfl, hc⟩ (List.cons_ne_nil _ _)
      | false =>
          rw [List.takeWhile_cons_of_neg (by simp [hc])]
          refine iff_of_false ?_ fun h => h rfl
          rintro ⟨d, v, h, hd⟩
          obtain ⟨rfl, -⟩ := List.cons.inj h
          cases hc.symm.trans hd

section Read

variable {line : Text}

/-- A line of these parts is a heading unless there is nothing but blanks before the anchor. -/
theorem ofLine?_eq_some_iff_parts (hrow : '\n' ∉ line) {h : Heading} :
    ofLine? line = some h ↔
      ∃ q : Parts, q.Of line ∧ Text.trim q.front ≠ [] ∧
        h = ⟨q.level, Text.trim q.front, q.anchor⟩ := by
  rw [ofLine?_eq_some_iff]
  constructor
  · rintro ⟨b, hmarks, hb, htext, -, rfl⟩
    obtain ⟨hgaps, rfl⟩ := body?_eq_some_iff_takeWhile.mp hb
    exact ⟨Parts.cut line, Parts.of_cut hmarks hgaps, htext, rfl⟩
  · rintro ⟨q, hq, htext, rfl⟩
    obtain ⟨hmarks, hgaps, rfl⟩ := Parts.of_iff.mp hq
    refine ⟨_, hmarks, body?_eq_some_iff_takeWhile.mpr ⟨hgaps, rfl⟩, htext, fun hm => hrow ?_, rfl⟩
    -- the text is a part of the line
    have hb := mem_of_splitAnchor (.inl (Text.mem_of_mem_dropEndWhile hm))
    exact Text.mem_of_mem_dropWhile (Text.mem_of_mem_dropWhile (Text.mem_of_mem_dropEndWhile hb))

theorem whole?_pattern_eq_some_iff_parts (hrow : '\n' ∉ line) {marks text : Text}
    {anchor : Option Text} :
    pattern.whole? line = some (marks, text, anchor) ↔
      ∃ q : Parts, q.Of line ∧ marks = List.replicate q.level '#' ∧
        text = Text.dropEndWhile isGap q.front ∧ anchor = q.anchor := by
  rw [whole?_pattern hrow]
  constructor
  · intro h
    split at h
    · cases h
    next hmarks =>
    split at h
    · cases h
    next hgaps =>
    obtain ⟨rfl, hclosing⟩ := Prod.mk.inj (Option.some.inj h)
    obtain ⟨rfl, rfl⟩ := Prod.mk.inj hclosing
    have hq := Parts.of_cut hmarks hgaps
    exact ⟨_, hq, hq.eq_cut.1, rfl, rfl⟩
  · rintro ⟨q, hq, rfl, rfl, rfl⟩
    obtain ⟨hmarks, hgaps, hcut⟩ := Parts.of_iff.mp hq
    rw [if_neg hmarks, if_neg hgaps, hq.eq_cut.1, hcut]
    rfl

/-- A heading is what the pattern finds, with the text trimmed, if something is left of it. -/
theorem ofLine?_eq_some_iff_pattern (hrow : '\n' ∉ line) {h : Heading} :
    ofLine? line = some h ↔
      ∃ marks text anchor, pattern.whole? line = some (marks, text, anchor) ∧
        Text.trim text ≠ [] ∧ h = ⟨marks.length, Text.trim text, anchor⟩ := by
  have htrim (t : Text) : Text.trim (Text.dropEndWhile isGap t) = Text.trim t :=
    Text.trim_dropEndWhile (fun _ => isBlank_of_isGap) t
  rw [ofLine?_eq_some_iff_parts hrow]
  constructor
  · rintro ⟨q, hq, htext, rfl⟩
    refine ⟨_, _, _, (whole?_pattern_eq_some_iff_parts hrow).mpr ⟨q, hq, rfl, rfl, rfl⟩, ?_, ?_⟩
    · rwa [htrim]
    · rw [htrim, List.length_replicate]
  · rintro ⟨marks, text, anchor, hp, htext, rfl⟩
    obtain ⟨q, hq, rfl, rfl, rfl⟩ := (whole?_pattern_eq_some_iff_parts hrow).mp hp
    rw [htrim] at htext ⊢
    exact ⟨q, hq, htext, by rw [List.length_replicate]⟩

/-- The headings are the lines that are made of parts with something in front of the anchor, there
is one way at most to make a line of parts, and this is the way that the pattern takes: the text
that it finds is what stands in front of the anchor, without gaps at its end.  The heading is what
the pattern finds, with the text trimmed. -/
theorem ofLine?_grammar (hrow : '\n' ∉ line) :
    (∀ h, ofLine? line = some h ↔
      ∃ q : Parts, q.Of line ∧ Text.trim q.front ≠ [] ∧
        h = ⟨q.level, Text.trim q.front, q.anchor⟩) ∧
    (∀ q q' : Parts, q.Of line → q'.Of line → q = q') ∧
    (∀ marks text anchor, pattern.whole? line = some (marks, text, anchor) ↔
      ∃ q : Parts, q.Of line ∧ marks = List.replicate q.level '#' ∧
        text = Text.dropEndWhile isGap q.front ∧ anchor = q.anchor) ∧
    ∀ h, ofLine? line = some h ↔
      ∃ marks text anchor, pattern.whole? line = some (marks, text, anchor) ∧
        Text.trim text ≠ [] ∧ h = ⟨marks.length, Text.trim text, anchor⟩ := by
  refine ⟨fun h => ofLine?_eq_some_iff_parts hrow, fun q q' hq hq' => ?_,
    fun marks text anchor => whole?_pattern_eq_some_iff_parts hrow,
    fun h => ofLine?_eq_some_iff_pattern hrow⟩
  exact hq.eq_cut.2.2.trans hq'.eq_cut.2.2.symm

/-- Of several groups the last one is the anchor, and the text may have braces that are not
closed. -/
theorem ofLine?_grammar_groups :
    let line := "## \tA \x7bb\x7d \x7bc\x7bd\x7d  \t".toList
    let h : Heading := ⟨2, "A \x7bb\x7d \x7bc".toList, some ['d']⟩
    '\n' ∉ line ∧ ofLine? line = some h ∧
      (∃ q : Parts, q.Of line ∧ Text.trim q.front ≠ [] ∧
        h = ⟨q.level, Text.trim q.front, q.anchor⟩) ∧
      (∀ q q' : Parts, q.Of line → q'.Of line → q = q') ∧
      ∃ marks text anchor, pattern.whole? line = some (marks, text, anchor) ∧
        Text.trim text ≠ [] ∧ h = ⟨marks.length, Text.trim text, anchor⟩ := by
  intro line h
  have hrow : '\n' ∉ line := by decide
  have hl : ofLine? line = some h := by decide
  obtain ⟨hparts, hunique, -, hpattern⟩ := ofLine?_grammar hrow
  exact ⟨hrow, hl, (hparts h).mp hl, hunique, (hpattern h).mp hl⟩

end Read

end Compendium.Heading
