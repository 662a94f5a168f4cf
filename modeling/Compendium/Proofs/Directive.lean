/-
# `Compendium.Proofs.Directive` — directives read from a line, and found in a text

A line is a directive exactly if it is the directive's own line with gaps behind it, where the parts
of the directive are what they may be (`ofLine?_eq_some_iff`).  In particular a directive is read
back from its line, and its line is what is left of it when it is trimmed (`trim_of_ofLine?`).

What the parts may be can be said in terms of characters only: no closing bracket in the label, no
closing parenthesis and no blank in the target, and something in both (`Written`).  All other
brackets and parentheses may stand anywhere.  Still a line is a directive in one way only.

The directives of a text are the lines of that kind that stand in it, each once, in order and with
the bytes of the line (`locatedDirectives_written`).  So the text can be cut at these bytes, from one
directive to the next, and the parts are its sections (`sectionsFrom?_locatedDirectives`).
-/
import Compendium.Embedding
import Compendium.Proofs.Text.Located
import Compendium.Proofs.Text.Trim
import Mathlib.Data.List.TakeWhile

namespace Compendium

namespace Directive

variable {d d' : Directive} {r gaps gaps' line : Text}

/-- A directive with parts that can be read. -/
structure Printable (d : Directive) : Prop where
  label_ne : d.label ≠ []
  target_ne : d.target ≠ []
  label : ∀ c ∈ d.label, isLabelChar c = true
  target : ∀ c ∈ d.target, isTargetChar c = true

/-- What a line is read as: its label, its target, and gaps. -/
theorem ofLine?_eq_some_iff :
    ofLine? r = some d ↔ d.Printable ∧ ∃ gaps, r = d.line ++ gaps ∧ ∀ c ∈ gaps, isGap c = true := by
  constructor
  · intro h
    simp only [ofLine?] at h
    split at h
    · next t =>
      split at h
      · next u hu =>
        split at h
        · next gaps hgaps =>
          split at h
          · cases h
          · next hparts =>
            simp only [Bool.or_eq_true, List.isEmpty_iff, Bool.not_eq_true', not_or,
              Bool.not_eq_false, List.all_eq_true] at hparts
            obtain rfl := Option.some.inj h
            refine ⟨⟨hparts.1.1, hparts.1.2, fun c => List.mem_takeWhile_imp,
              fun c => List.mem_takeWhile_imp⟩, gaps, ?_, hparts.2⟩
            have ht : t = t.takeWhile isLabelChar ++ ']' :: '(' :: u := by
              rw [← hu, List.takeWhile_append_dropWhile]
            have hu' : u = u.takeWhile isTargetChar ++ ')' :: gaps := by
              rw [← hgaps, List.takeWhile_append_dropWhile]
            conv_lhs => rw [ht, hu']
            simp only [line, List.append_assoc, List.cons_append, List.nil_append]
        · cases h
      · cases h
    · cases h
  · rintro ⟨hd, gaps, rfl, hgaps⟩
    have hlabel : ¬ isLabelChar ']' = true := by decide
    have htarget : ¬ isTargetChar ')' = true := by decide
    have hshape : d.line ++ gaps = ':' :: '[' :: (d.label ++ ']' :: '(' :: (d.target ++ ')' :: gaps)) := by
      simp only [line, List.append_assoc, List.cons_append, List.nil_append]
    rw [hshape]
    simp only [ofLine?, List.dropWhile_append_of_pos hd.label, List.takeWhile_append_of_pos hd.label,
      List.dropWhile_cons_of_neg hlabel, List.takeWhile_cons_of_neg hlabel,
      List.dropWhile_append_of_pos hd.target, List.takeWhile_append_of_pos hd.target,
      List.dropWhile_cons_of_neg htarget, List.takeWhile_cons_of_neg htarget, List.append_nil]
    refine if_neg ?_
    simp only [Bool.or_eq_true, List.isEmpty_iff, Bool.not_eq_true', not_or, Bool.not_eq_false,
      List.all_eq_true]
    exact ⟨⟨hd.label_ne, hd.target_ne⟩, hgaps⟩

theorem Printable.ofLine?_line (hd : d.Printable) : ofLine? d.line = some d :=
  ofLine?_eq_some_iff.mpr
    ⟨hd, [], (List.append_nil _).symm, fun _ hc => absurd hc List.not_mem_nil⟩

theorem trim_of_ofLine? (h : ofLine? r = some d) : Text.trim r = d.line := by
  obtain ⟨-, gaps, rfl, hgaps⟩ := ofLine?_eq_some_iff.mp h
  rw [Text.trim_append_blanks fun c hc => isBlank_of_isGap (hgaps c hc)]
  refine Text.trim_eq_self_iff.mpr ⟨fun c hc => ?_, fun c hc => ?_⟩
  · obtain rfl : ':' = c := Option.some.inj hc
    decide
  · rw [line, List.getLast?_concat] at hc
    obtain rfl := Option.some.inj hc
    decide

theorem head?_of_ofLine? (h : ofLine? r = some d) : r.head? = some ':' := by
  obtain ⟨-, gaps, rfl, -⟩ := ofLine?_eq_some_iff.mp h
  rfl

theorem ofLine?_eq_none (h : r.head? ≠ some ':') : ofLine? r = none :=
  Option.eq_none_iff_forall_ne_some.mpr fun _ hd => h (head?_of_ofLine? hd)

theorem trimStart_of_ofLine? (h : ofLine? r = some d) : Text.trimStart r = r := by
  refine Text.trimStart_eq_self fun c hc => ?_
  obtain rfl := Option.some.inj ((head?_of_ofLine? h).symm.trans hc)
  decide

theorem ofLine?_trimEnd (h : ofLine? r = some d) : ofLine? (Text.trimEnd r) = some d := by
  have htrim : Text.trimEnd r = d.line := by
    rw [← trim_of_ofLine? h, Text.trim, trimStart_of_ofLine? h]
  rw [htrim]
  exact (ofLine?_eq_some_iff.mp h).1.ofLine?_line

/-! ## The parts of a directive -/

/-- The line is what the directive is printed as, and the gaps. -/
structure Written (d : Directive) (gaps line : Text) : Prop where
  line_eq : line = d.line ++ gaps
  label_ne : d.label ≠ []
  label : ']' ∉ d.label
  target_ne : d.target ≠ []
  target : ')' ∉ d.target
  solid : ∀ c ∈ d.target, isBlank c = false
  gaps : ∀ c ∈ gaps, c = ' ' ∨ c = '\t'

theorem isGap_iff {c : Char} : isGap c = true ↔ c = ' ' ∨ c = '\t' := by
  rw [isGap, Bool.or_eq_true, beq_iff_eq, beq_iff_eq]

theorem label_iff {s : Text} : (∀ c ∈ s, isLabelChar c = true) ↔ ']' ∉ s := by
  simp only [isLabelChar, bne_iff_ne]
  exact ⟨fun h hm => h _ hm rfl, fun h c hc he => h (he ▸ hc)⟩

theorem target_iff {s : Text} :
    (∀ c ∈ s, isTargetChar c = true) ↔ ')' ∉ s ∧ ∀ c ∈ s, isBlank c = false := by
  simp only [isTargetChar, Bool.and_eq_true, bne_iff_ne, Bool.not_eq_true']
  constructor
  · exact fun h => ⟨fun hm => (h _ hm).1 rfl, fun c hc => (h c hc).2⟩
  · exact fun h c hc => ⟨fun he => h.1 (he ▸ hc), h.2 c hc⟩

theorem ofLine?_eq_some_iff_written : ofLine? line = some d ↔ ∃ gaps, d.Written gaps line := by
  rw [ofLine?_eq_some_iff]
  constructor
  · rintro ⟨hd, gaps, hline, hgaps⟩
    obtain ⟨htarget, hsolid⟩ := target_iff.mp hd.target
    exact ⟨gaps, hline, hd.label_ne, label_iff.mp hd.label, hd.target_ne, htarget, hsolid,
      fun c hc => isGap_iff.mp (hgaps c hc)⟩
  · rintro ⟨gaps, h⟩
    exact ⟨⟨h.label_ne, h.target_ne, label_iff.mpr h.label, target_iff.mpr ⟨h.target, h.solid⟩⟩,
      gaps, h.line_eq, fun c hc => isGap_iff.mpr (h.gaps c hc)⟩

theorem Written.unique (h : d.Written gaps line) (h' : d'.Written gaps' line) :
    d = d' ∧ gaps = gaps' := by
  have hd := ofLine?_eq_some_iff_written.mpr ⟨_, h⟩
  have hd' := ofLine?_eq_some_iff_written.mpr ⟨_, h'⟩
  obtain rfl := Option.some.inj (hd.symm.trans hd')
  exact ⟨rfl, List.append_cancel_left (h.line_eq.symm.trans h'.line_eq)⟩

end Directive

/-! ## The directives of a text -/

variable {t : Text} {x : Span × Line × Directive}

theorem mem_locatedDirectives :
    x ∈ locatedDirectives t ↔
      (x.1, x.2.1) ∈ located t ∧ Directive.ofLine? x.2.1.body = some x.2.2 := by
  obtain ⟨span, l, d⟩ := x
  rw [locatedDirectives, List.mem_filterMap]
  constructor
  · rintro ⟨⟨span', l'⟩, hl, hd⟩
    obtain ⟨d', hd', he⟩ := Option.map_eq_some_iff.mp hd
    obtain ⟨rfl, rfl, rfl⟩ : span' = span ∧ l' = l ∧ d' = d := by simpa using he
    exact ⟨hl, hd'⟩
  · rintro ⟨hl, hd⟩
    exact ⟨_, hl, Option.map_eq_some_iff.mpr ⟨d, hd, rfl⟩⟩

theorem selects_of_mem_locatedDirectives (hx : x ∈ locatedDirectives t) (s : Text) :
    x.1.Selects t s ↔ s = x.2.1.body := by
  have hbody := selects_of_mem_located (mem_locatedDirectives.mp hx).1
  exact ⟨fun hs => hs.unique hbody, fun hs => hs ▸ hbody⟩

theorem pairwise_locatedDirectives (t : Text) :
    (locatedDirectives t).Pairwise fun x y => x.1.stop < y.1.start := by
  refine List.pairwise_filterMap.mpr ((pairwise_located t).imp fun {k k'} hlt y hy y' hy' => ?_)
  obtain ⟨d, -, rfl⟩ := Option.map_eq_some_iff.mp hy
  obtain ⟨d', -, rfl⟩ := Option.map_eq_some_iff.mp hy'
  exact hlt

/-- A line is read as a directive exactly if it is what the directive is printed as with gaps
behind it, in one way only.  The directives found in a text are the lines of this kind that stand
in it, in order, and their bytes are those of the line and of nothing else. -/
theorem locatedDirectives_written :
    (∀ line d, Directive.ofLine? line = some d ↔ ∃ gaps, d.Written gaps line) ∧
    (∀ line (d d' : Directive) gaps gaps', d.Written gaps line → d'.Written gaps' line →
      d = d' ∧ gaps = gaps') ∧
    (∀ t span l d, (span, l, d) ∈ locatedDirectives t ↔
      (∃ before after, t = before ++ l.text ++ after ∧ l.Between before after ∧
        span = ⟨Text.size before, Text.size (before ++ l.body)⟩) ∧
      ∃ gaps, d.Written gaps l.body) ∧
    (∀ t x, x ∈ locatedDirectives t → ∀ s, x.1.Selects t s ↔ s = x.2.1.body) ∧
    ∀ t, (locatedDirectives t).Pairwise fun x y => x.1.stop < y.1.start := by
  refine ⟨fun line d => Directive.ofLine?_eq_some_iff_written,
    fun line d d' gaps gaps' h h' => h.unique h', fun t span l d => ?_,
    fun t x hx => selects_of_mem_locatedDirectives hx, pairwise_locatedDirectives⟩
  rw [mem_locatedDirectives, mem_located_iff, Directive.ofLine?_eq_some_iff_written]

/-- Brackets and parentheses in the parts of a directive, and lines that are nearly one. -/
example : locatedDirectives "\u00e9\r\n:[a](b[c](d[](\t\n:[a](b c)\n:[a(b)[c](d[]() \t\r\n".toList =
    [(⟨30, 47⟩, ⟨":[a(b)[c](d[]() \t".toList, .crlf⟩, ⟨"a(b)[c".toList, "d[](".toList⟩)] := by
  decide

/-! ## Cutting a text at its directives -/

/-- The sections of what stands in a text from the byte `cursor` on: a slice up to the line of the
next directive, and what stands from the end of that line on. -/
def sectionsFrom? (t : Text) (cursor : Nat) : List (Span × Line × Directive) → Option Sections
  | [] => (t.slice? ⟨cursor, Text.size t⟩).map (⟨·, []⟩)
  | (span, _, d) :: found => do
    let lead ← t.slice? ⟨cursor, span.start⟩
    let following ← sectionsFrom? t span.stop found
    return ⟨lead, (d, following.lead) :: following.rest⟩

/-- What is `pending` comes before the lines, and goes to the section that they begin with. -/
theorem sectionsFrom?_locate (ls : List Line) (before pending : Text) :
    sectionsFrom? (before ++ pending ++ ls.flatMap Line.text) (Text.size before)
        ((locate (Text.size (before ++ pending)) ls).filterMap fun (span, l) =>
          (Directive.ofLine? l.body).map (span, l, ·)) =
      some { ls.foldr Sections.push ⟨[], []⟩ with
        lead := pending ++ (ls.foldr Sections.push ⟨[], []⟩).lead } := by
  induction ls generalizing before pending with
  | nil =>
      have hslice := Text.slice?_between before pending []
      rw [List.append_nil] at hslice
      rw [List.flatMap_nil, List.append_nil, locate, List.filterMap_nil, sectionsFrom?, hslice]
      simp only [Option.map_some, List.foldr_nil, List.append_nil]
  | cons l ls ih =>
      rw [locate_size_cons, List.flatMap_cons, List.foldr_cons, Sections.push]
      cases hd : Directive.ofLine? l.body with
      | none =>
          -- the line goes to what is pending
          have h := ih before (pending ++ l.text)
          rw [← List.append_assoc before] at h
          rw [List.filterMap_cons_none (by simp only [hd, Option.map_none]), ← List.append_assoc, h]
          simp only [List.append_assoc]
      | some d =>
          -- what is pending is cut off, and the ending of the line is pending now
          have hslice := Text.slice?_between before pending (l.text ++ ls.flatMap Line.text)
          have h := ih (before ++ pending ++ l.body) l.ending.text
          rw [List.append_assoc _ l.body, ← Line.text, List.append_assoc _ l.text] at h
          rw [List.filterMap_cons_some (by simp only [hd, Option.map_some]; rfl), sectionsFrom?,
            hslice, Option.bind_eq_bind, Option.bind_some, h]
          simp only [Option.bind_eq_bind, Option.bind_some, Option.pure_def, List.append_nil]

/-- Cutting a text at the bytes of its directives never asks for a slice that there is none of, and
the parts are the sections of the text. -/
theorem sectionsFrom?_locatedDirectives (t : Text) :
    sectionsFrom? t 0 (locatedDirectives t) = some (sections t) := by
  have h := sectionsFrom?_locate (lines t) [] []
  rw [List.append_nil, List.nil_append, flatMap_text_lines] at h
  exact h

end Compendium
