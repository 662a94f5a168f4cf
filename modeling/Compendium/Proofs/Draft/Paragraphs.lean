/-
# `Compendium.Proofs.Draft.Paragraphs` — which lines are still apart when directives are gone

Two lines of a document that are not blank, with nothing but blank lines and directives between
them, are found again where the document is embedded.  A line that is read ends the page, up to its
break (`Page.Sound.step_line`, `Page.Sound.read_line`), so what comes between them is known
(`Page.add_idle`), and trimming the result leaves it alone (`Written.exists_rows_trim`).

That a line is found *again* is told by the content lines that come before it: they are those of
what was read before it.
-/
import Compendium.Proofs.Draft.Between
import Compendium.Proofs.Text.Alike

namespace Compendium

open Text (Edged Gapped)

/-! ## Two lines on a page -/

/-- A row of a text that a line has come to, apart from blanks at its ends. -/
def Line.Row (l : Line) (r : Text) : Prop := '\n' ∉ r ∧ Text.trim r = Text.trim l.body

theorem Line.Row.ne_nil {l : Line} {r : Text} (h : l.Row r) (hl : Text.trim l.body ≠ []) :
    r ≠ [] := by
  rintro rfl
  exact hl h.2.symm

theorem Line.Row.getLast?_ne {l : Line} {r : Text} (h : l.Row r) (hl : Text.trim l.body ≠ [])
    (v : Text) : (v ++ r).getLast? ≠ some '\n' := by
  rw [List.getLast?_append_of_ne_nil _ (h.ne_nil hl)]
  exact fun hc => h.1 (List.mem_of_getLast? hc)

namespace Page

variable {p : Page} {l : Line} {t r : Text}

theorem same_below (htext : l.text = r ++ ['\n'])
    (hadd : ∀ w, p.draft.add (p.pending ++ (r ++ w)) = ⟨t ++ (r ++ w), .plain⟩) :
    (p.step (.line l)).Same (below (t ++ r)) := by
  intro w
  have hread := hadd ('\n' :: w)
  simp only [Page.step, htext, List.append_assoc, List.singleton_append]
  rw [hread, ← List.append_assoc]
  rfl

theorem Sound.contentLines_row (h : p.Sound)
    (hadd : ∀ w, p.draft.add (p.pending ++ (r ++ w)) = ⟨t ++ (r ++ w), .plain⟩) :
    Text.contentLines (t ++ r) = Text.contentLines p.whole.text ++ Text.contentLines r := by
  have hwhole : (p.step (.line ⟨r, .none⟩)).whole.text = t ++ (r ++ []) :=
    congrArg Draft.text (hadd [])
  rw [List.append_nil] at hwhole
  rw [← hwhole]
  exact h.contentLines_step (.line ⟨r, .none⟩)

/-- A line that is not blank ends a page as its last row, and what the page said before is said by
what stands before that row. -/
theorem Sound.step_line (h : p.Sound) (hbreaks : (Piece.line l).Breaks) (hl : '\n' ∉ l.body)
    (hne : Text.trim l.body ≠ []) :
    ∃ v r, (v = [] ∨ ∃ u, v = u ++ ['\n']) ∧ l.Row r ∧ (p.step (.line l)).Same (below (v ++ r)) ∧
      Text.contentLines v = Text.contentLines p.whole.text := by
  obtain ⟨r, z, htext, hr, htrim, -, hz⟩ := exists_row_text hl
  obtain rfl := hz hbreaks
  have hrow : l.Row r := ⟨hr, htrim⟩
  obtain ⟨v, hv, hadd⟩ := h.add_row hr (hrow.ne_nil hne)
  have hsaid := h.contentLines_row hadd
  rw [Text.rowwise_contentLines.append_of_last hv] at hsaid
  exact ⟨v, r, hv, hrow, same_below htext hadd, List.append_cancel_right hsaid⟩

/-- A line that is not blank is written behind what comes before it, and stays when more is read. -/
theorem Sound.read_line (h : p.Sound) {after : List Piece}
    (hbreaks : after ≠ [] → (Piece.line l).Breaks) (hl : '\n' ∉ l.body)
    (hne : Text.trim l.body ≠ [])
    (hadd : ∀ r, r.head? ≠ some '\n' → r ≠ [] → p.draft.add (p.pending ++ r) = ⟨t ++ r, .plain⟩) :
    ∃ r rest, l.Row r ∧ (∀ c ∈ rest.head?, c = '\n') ∧
      (p.read (.line l :: after)).whole.text = t ++ (r ++ rest) ∧
      Text.contentLines (t ++ r) = Text.contentLines p.whole.text ++ Text.contentLines r := by
  obtain ⟨r, z, htext, hr, htrim, hz, hzbreak⟩ := exists_row_text hl
  have hrow : l.Row r := ⟨hr, htrim⟩
  have hadd_row (w : Text) : p.draft.add (p.pending ++ (r ++ w)) = ⟨t ++ (r ++ w), .plain⟩ := by
    refine hadd (r ++ w) ?_ (List.append_ne_nil_of_left_ne_nil (hrow.ne_nil hne) w)
    rw [List.head?_append_of_ne_nil _ (hrow.ne_nil hne)]
    exact fun hc => hr (List.mem_of_mem_head? hc)
  have hsaid := h.contentLines_row hadd_row
  rcases hz with rfl | rfl
  · -- no break comes behind the line, so nothing follows it
    obtain rfl : after = [] := by
      by_contra hafter
      cases hzbreak (hbreaks hafter)
    refine ⟨r, [], hrow, nofun, ?_, hsaid⟩
    have hwhole : (p.step (.line l)).whole = ⟨t ++ (r ++ []), .plain⟩ := by
      simp only [Page.step, Page.whole, htext]
      exact hadd_row []
    exact congrArg Draft.text hwhole
  · have hsame := same_below htext hadd_row
    have hbehind : Behind (t ++ r) (below (t ++ r)) :=
      ⟨⟨[], (List.append_nil _).symm, nofun⟩, fun _ => ⟨rfl, [], rfl⟩⟩
    obtain ⟨rest, hrest, hstop⟩ := (hbehind.read
      (List.append_ne_nil_of_right_ne_nil _ (hrow.ne_nil hne)) (hrow.getLast?_ne hne t) after).whole
    refine ⟨r, rest, hrow, hstop, ?_, hsaid⟩
    rw [← List.append_assoc, ← hrest, ← (hsame.read after).whole_eq]
    rfl

end Page

/-! ## Two lines in a text -/

/-- Two lines of text stand in the rows `r` and `r'` of a text, and between them, from break to
break, is what pieces come to. -/
structure Written (before : List Piece) (a : Line) (mid : List Piece) (b : Line)
    (t v r g r' rest : Text) : Prop where
  text : t = v ++ (r ++ (g ++ (r' ++ rest)))
  start : v = [] ∨ ∃ u, v = u ++ ['\n']
  stop : ∀ c ∈ rest.head?, c = '\n'
  row : a.Row r
  row' : b.Row r'
  edged : Edged g
  parted : Gapped g ↔ Parted mid
  said : Text.contentLines v = before.flatMap Piece.shown
  between : Text.contentLines g = mid.flatMap Piece.shown

/-- Two lines of text with nothing but blank lines and directives between them stand so on a page
that is read to its end. -/
theorem exists_written {before mid after : List Piece} {a b : Line}
    (hbreaks : ∀ x ∈ (before ++ .line a :: (mid ++ .line b :: after)).dropLast, x.Breaks)
    (ha : '\n' ∉ a.body) (hb : '\n' ∉ b.body) (hane : Text.trim a.body ≠ [])
    (hbne : Text.trim b.body ≠ []) (hmid : ∀ l, .line l ∈ mid → Text.trim l.body = []) :
    ∃ v r g r' rest, Written before a mid b
      (Page.blank.read (before ++ .line a :: (mid ++ .line b :: after))).whole.text
      v r g r' rest := by
  have hsplit : before ++ .line a :: (mid ++ .line b :: after) =
      (before ++ .line a :: mid) ++ .line b :: after := by
    rw [List.append_assoc, List.cons_append]
  rw [hsplit] at hbreaks ⊢
  rw [List.dropLast_append_of_ne_nil (List.cons_ne_nil _ _), List.forall_mem_append,
    List.forall_mem_append, List.forall_mem_cons] at hbreaks
  obtain ⟨⟨hbefore, habreaks, hmidbreaks⟩, hafter⟩ := hbreaks
  have hbbreaks (hne : after ≠ []) : (Piece.line b).Breaks := by
    rw [List.dropLast_cons_of_ne_nil hne] at hafter
    exact hafter _ List.mem_cons_self
  -- the page is followed up to the first line, from there up to the second, and over it
  have hsound : (Page.blank.read before).Sound := Page.sound_blank.read hbefore
  obtain ⟨v, r, hv, hr, hsame, hsaid⟩ := hsound.step_line habreaks ha hane
  obtain ⟨g, hg, hparted, hadd⟩ := Page.add_idle
    (List.append_ne_nil_of_right_ne_nil v (hr.ne_nil hane)) (hr.getLast?_ne hane v)
    fun x hx => ⟨hmidbreaks x hx, fun l hl => hmid l (hl ▸ hx)⟩
  have hsound' : (((Page.blank.read before).step (.line a)).read mid).Sound :=
    (hsound.step habreaks).read hmidbreaks
  obtain ⟨r', rest, hr', hstop, hwhole, hlines⟩ := hsound'.read_line (t := v ++ r ++ g) hbbreaks
    hb hbne fun w hhead hne => (hsame.read mid w).trans (by rw [hadd w hhead hne]; simp)
  refine ⟨v, r, g, r', rest, ?_, hv, hstop, hr, hr', hg, hparted, ?_, ?_⟩
  · rw [Page.read_append, Page.read_append]
    refine hwhole.trans ?_
    simp only [List.append_assoc]
  · rw [hsaid, Page.sound_blank.contentLines_read hbefore]
    rfl
  · have hr_eq : Text.contentLines r = Text.contentLines a.body :=
      Text.contentLines_eq_of_trim hr.1 ha hr.2
    obtain ⟨hstart, u, hu⟩ := Text.edged_iff.mp hg
    have hend : v ++ r ++ g = v ++ r ++ u ++ ['\n'] := by rw [hu, ← List.append_assoc]
    rw [Text.rowwise_contentLines.append_of_last (.inr ⟨_, hend⟩),
      Text.rowwise_contentLines.append_of_head (.inr hstart),
      Text.rowwise_contentLines.append_of_last hv, hsaid, hr_eq,
      (hsound.step habreaks).contentLines_read hmidbreaks, hsound.contentLines_step] at hlines
    exact List.append_cancel_left (List.append_cancel_right hlines)

theorem Written.exists_rows_trim {before mid : List Piece} {a b : Line} {t v r g r' rest : Text}
    (h : Written before a mid b t v r g r' rest) (hane : Text.trim a.body ≠ [])
    (hbne : Text.trim b.body ≠ []) :
    ∃ rs q gap q' rs', Text.rows (Text.trim t) = rs ++ q :: (gap ++ q' :: rs') ∧
      Text.trim q = Text.trim a.body ∧ Text.trim q' = Text.trim b.body ∧
      rs.flatMap Text.contentLines = before.flatMap Piece.shown ∧
      gap.flatMap Text.contentLines = mid.flatMap Piece.shown ∧
      ((∃ x ∈ gap, Text.trim x = []) ↔ Parted mid) := by
  -- the two rows are not blank, so trimming stops at them
  have htrim : Text.trim t = Text.trimStart (v ++ r) ++ g ++ Text.trimEnd (r' ++ rest) := by
    have hsplit : t = v ++ r ++ g ++ (r' ++ rest) := by
      rw [h.text]
      simp only [List.append_assoc]
    rw [hsplit, Text.trim_append_of_ne_nil]
    · exact fun he => hane (h.row.2.symm.trans (Text.trim_append_eq_nil_iff.mp he).2)
    · exact fun he => hbne (h.row'.2.symm.trans (Text.trim_append_eq_nil_iff.mp he).1)
  obtain ⟨rs, q, hstart, hq⟩ := Text.exists_rows_trimStart h.start h.row.1
  obtain ⟨q', rs', hend, hq'⟩ := Text.exists_rows_trimEnd h.row'.1 h.stop
  have hbefore : rs.flatMap Text.contentLines = before.flatMap Piece.shown := by
    have hsaid : Text.contentLines (Text.trimStart (v ++ r)) = Text.contentLines (v ++ r) :=
      Text.contentLines_dropWhile (fun _ => id) _
    have hqrow : '\n' ∉ q :=
      Text.not_mem_of_mem_rows (hstart ▸ List.mem_append_right _ (List.mem_singleton_self q))
    rw [Text.contentLines_eq_flatMap_rows, hstart, List.flatMap_append, List.flatMap_singleton,
      Text.rowwise_contentLines.append_of_last h.start,
      Text.contentLines_eq_of_trim hqrow h.row.1 hq, h.said] at hsaid
    exact List.append_cancel_right hsaid
  rcases h.edged with hg | ⟨m, hg⟩
  · refine ⟨rs, q, [], q', rs', ?_, hq.trans h.row.2, hq'.trans h.row'.2, hbefore, ?_, ?_⟩
    · rw [htrim, hg, List.append_assoc, List.singleton_append, Text.rows_append_break, hstart, hend,
        List.append_assoc]
      rfl
    · rw [← h.between, hg]
      rfl
    · rw [← h.parted, hg]
      exact iff_of_false (fun ⟨_, hx, _⟩ => List.not_mem_nil hx) Text.not_gapped_break
  · refine ⟨rs, q, Text.rows m, q', rs', ?_, hq.trans h.row.2, hq'.trans h.row'.2, hbefore, ?_, ?_⟩
    · rw [htrim, hg, List.append_assoc, List.cons_append, Text.rows_append_break, List.append_assoc,
        List.singleton_append, Text.rows_append_break, hstart, hend, List.append_assoc]
      rfl
    · rw [← Text.contentLines_eq_flatMap_rows, ← h.between, hg,
        Text.rowwise_contentLines.break_cons, Text.rowwise_contentLines.concat_break]
    · rw [← h.parted, hg, Text.gapped_iff_rows]

/-! ## Embedding -/

section Embed

variable {ε σ : Type} {expand : Directive → Walk ε σ (Option Text)} {current : Path} {t out : Text}
  {c : Chain} {s : σ}

/-- Where a document is embedded, two of its lines that are not blank, with nothing but blank lines
and directives between them, stand in the result, apart from blanks at their ends, and with the
content lines of what is before them and between them.  A blank line stands between them there
exactly if a directive between them is expanded, or a blank line is the last of what is between
them, or there is white space that is no line feed to a blank line or a directive between them. -/
theorem embed_paragraphs (h : (embed expand current t c s).1 = .ok out) :
    ∃ contents, Gives expand (c.opened current) s (directives t) contents ∧
      ∀ (before mid after : List Piece) (a b : Line),
        pieces (lines t) contents = before ++ .line a :: (mid ++ .line b :: after) →
        Text.trim a.body ≠ [] → Text.trim b.body ≠ [] →
        (∀ l, .line l ∈ mid → Text.trim l.body = []) →
        ∃ rs q gap q' rs', out.rows = rs ++ q :: (gap ++ q' :: rs') ∧
          Text.trim q = Text.trim a.body ∧ Text.trim q' = Text.trim b.body ∧
          rs.flatMap Text.contentLines = before.flatMap Piece.shown ∧
          gap.flatMap Text.contentLines = mid.flatMap Piece.shown ∧
          ((∃ x ∈ gap, Text.trim x = []) ↔ Parted mid) := by
  obtain ⟨contents, hgives, rfl⟩ := embed_pieces h
  refine ⟨contents, hgives, fun before mid after a b hpieces hane hbne hmid => ?_⟩
  have hbreaks : ∀ x ∈ (before ++ .line a :: (mid ++ .line b :: after)).dropLast, x.Breaks :=
    fun x hx => breaks_of_mem_dropLast (hpieces ▸ hx)
  have hbody : ∀ l, .line l ∈ before ++ .line a :: (mid ++ .line b :: after) → '\n' ∉ l.body :=
    fun l hl => not_mem_body (mem_of_line_mem_pieces (hpieces ▸ hl))
  obtain ⟨v, r, g, r', rest, hwritten⟩ :=
    exists_written hbreaks (hbody a (by simp)) (hbody b (by simp)) hane hbne hmid
  rw [hpieces]
  exact hwritten.exists_rows_trim hane hbne

end Embed

/-- Work that drops every directive. -/
def dropAll (_ : Directive) : Walk Text Unit (Option Text) := pure none

/-- Two directives are dropped, and the blank line behind them keeps the lines apart. -/
theorem embed_paragraphs_dropped :
    let t : Text := "A\n:[x](x.md)\n:[y](y.md)\n\nB".toList
    let out : Text := "A\n\nB".toList
    (embed dropAll ⟨"r.md".toList⟩ t .empty ()).1 = .ok out ∧
      ∃ rs q gap q' rs', out.rows = rs ++ q :: (gap ++ q' :: rs') ∧ Text.trim q = ['A'] ∧
        Text.trim q' = ['B'] ∧ ∃ x ∈ gap, Text.trim x = [] := by
  intro t out
  have h : (embed dropAll ⟨"r.md".toList⟩ t .empty ()).1 = .ok out := by decide +kernel
  obtain ⟨contents, hgives, hlines⟩ := embed_paragraphs h
  have hds : directives t = [⟨['x'], "x.md".toList⟩, ⟨['y'], "y.md".toList⟩] := by decide +kernel
  rw [hds] at hgives
  obtain rfl := hgives.unique (.next rfl (.next rfl (.done _ _)))
  let mid : List Piece := [.filled none .lf, .filled none .lf, .line ⟨[], .lf⟩]
  have hblank : ∀ l, .line l ∈ mid → Text.trim l.body = [] := by
    intro l hl
    obtain rfl : l = ⟨[], .lf⟩ := by simpa [mid] using hl
    rfl
  obtain ⟨rs, q, gap, q', rs', hrows, hq, hq', -, -, hparted⟩ := hlines [] mid [] ⟨['A'], .lf⟩
    ⟨['B'], .none⟩ (by decide +kernel) (by decide) (by decide) hblank
  exact ⟨h, rs, q, gap, q', rs', hrows, hq, hq', hparted.mpr (.inr ⟨_, rfl⟩)⟩

/-- A blank line before a directive that is dropped goes with it, and the lines are next to each
other. -/
theorem embed_paragraphs_merged :
    let t : Text := "A\n\n:[x](x.md)\nB".toList
    lines t = [⟨['A'], .lf⟩, ⟨[], .lf⟩, ⟨":[x](x.md)".toList, .lf⟩, ⟨['B'], .none⟩] ∧
      Directive.ofLine? ":[x](x.md)".toList = some ⟨['x'], "x.md".toList⟩ ∧
      (embed dropAll ⟨"r.md".toList⟩ t .empty ()).1 = .ok "A\nB".toList ∧
      Text.rows "A\nB".toList = [['A'], ['B']] := by
  decide +kernel

end Compendium
