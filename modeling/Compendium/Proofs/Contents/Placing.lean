/-
# `Compendium.Proofs.Contents.Placing` — what placing a list of contents leaves as it was

The list of contents of a text goes where its first marker is, or else below its first heading
(`Spot`).  Its lines all begin with a dash (`dashed_ofText`), so there is no heading among them, no
marker stands in the list, and no fenced block can be opened before it and closed behind it or
within.  Hence all markers of the new text stand behind the list (`prefix_lead`), and with a text
cut at breaks its content lines fall into place.

Headings need more care, for nothing is said here of carriage returns.  Only a line feed, with a
carriage return before it or not, ends a line, but below a title both are cut off, and so a line can
lose a carriage return that kept it from being a heading (`headings_dropWhile`), and the title may
be read anew.  `PlacedAt.headings_iff` says that in no other way can a heading come or go.
-/
import Compendium.Proofs.Contents.Clearing
import Compendium.Proofs.Contents.Parts

namespace Compendium

variable {t s u q list : Text} {c : Char}

/-! ## Lists of contents -/

/-- Every line that is not blank begins with a dash, indented or not. -/
def Dashed (t : Text) : Prop := ∀ r ∈ t.rows, ∀ c, (Text.trim r).head? = some c → c = '-'

theorem kept_dashed : Kept fun r => ∀ c, (Text.trim r).head? = some c → c = '-' :=
  kept_trim (P := fun r => ∀ c, r.head? = some c → c = '-') nofun

theorem Contents.dashed_ofText (t : Text) : Dashed (ofText t) := by
  refine (Reading.shows_ofText (R := Reading.ofKept kept_dashed) fun e he => ?_).fit
  refine (Reading.ofKept kept_dashed).shows_row (not_mem_line he) fun c hc => ?_
  exact (Option.some.inj (e.head?_trim_line.symm.trans hc)).symm

namespace Dashed

theorem right (h : Dashed (s ++ '\n' :: t)) : Dashed t := (kept_dashed.shows h).right.fit

theorem trimStart (h : Dashed t) : Dashed (Text.trimStart t) :=
  ((kept_dashed.shows h).dropWhile fun _ => id).fit

theorem head_eq (h : Dashed (c :: t)) (hc : isBlank c = false) : c = '-' := by
  have hrow : '\n' ∉ [c] := by
    rw [List.mem_singleton]
    rintro rfl
    exact absurd hc (by decide)
  obtain ⟨r, hr⟩ := Text.exists_row_append hrow t
  have hstart : Text.trimStart (c :: r) = c :: r :=
    Text.trimStart_eq_self fun d hd => Option.some.inj hd ▸ hc
  refine h _ hr c ?_
  rw [List.singleton_append, Text.trim, hstart]
  exact Text.head?_trimEnd hc r

theorem headings_eq (h : Dashed t) : headings t = [] := by
  rw [headings, filterMap_lines_rows rfl, List.flatMap_eq_nil_iff]
  intro r hr
  rw [Option.toList_eq_nil_iff]
  refine Heading.ofLine?_eq_none fun hmark => ?_
  have hhead := Text.head?_of_head?_dropReturn hmark
  have htrim : (Text.trim r).head? = some '#' := by
    rw [Text.trim, Heading.trimStart_of_mark hhead]
    obtain ⟨v, rfl⟩ := List.head?_eq_some_iff.mp hhead
    exact Text.head?_trimEnd (by decide) v
  exact absurd (h r hr '#' htrim) (by decide)

theorem not_stands (h : Dashed t) : ¬ Marker.Stands t := by
  rintro ⟨u, l, w, rfl, hu, @⟨front, m, back, hfront, hmark, hback⟩, -⟩
  have hline : Dashed (front ++ m ++ back ++ w) := by
    rcases hu with rfl | ⟨v, rfl⟩
    · exact h
    · have hbreak : Dashed (v ++ '\n' :: (front ++ m ++ back ++ w)) := by
        simpa only [List.append_assoc, List.cons_append, List.nil_append] using h
      exact hbreak.right
  obtain ⟨c, v, rfl, hc⟩ := hmark.head
  have hcut : Text.trimStart (front ++ c :: v ++ back ++ w) = c :: v ++ back ++ w := by
    simp only [List.append_assoc, List.cons_append]
    exact Marker.dropWhile_blank_append (fun _ => id)
      (fun d hd => isBlank_of_isGap (hfront d hd)) (Marker.not_isBlank_of_head hc) _
  obtain rfl := (hcut ▸ hline.trimStart).head_eq (Marker.not_isBlank_of_head hc)
  exact absurd hc (by decide)

/-- No dashed text ends with the opening line of a block or begins with the closing line of one. -/
theorem not_opens (h : Dashed t) : ¬ Marker.Opens t := by
  refine Marker.not_opens fun r hr he => ?_
  exact absurd (h r hr '`' (he ▸ rfl)) (by decide)

theorem not_closes (h : Dashed t) : ¬ Marker.Closes t := by
  rintro ⟨b, g, w, rfl, hb, -, -⟩
  have hcut : Text.trimStart (b ++ Marker.fenceEnd ++ g ++ w) = Marker.fenceEnd ++ g ++ w := by
    simp only [List.append_assoc]
    exact Marker.dropWhile_blank_append (fun _ => id) hb (by decide) _
  exact absurd ((hcut ▸ h.trimStart).head_eq (by decide)) (by decide)

end Dashed

/-! ## Headings, row by row -/

theorem rowwise_headings : Rowwise headings := by
  have h := rowwise_flatMap (g := fun r => (Heading.ofLine? r.dropReturn).toList) rfl
  have heq : (fun t => t.rows.flatMap fun r => (Heading.ofLine? r.dropReturn).toList) = headings :=
    funext fun t => (filterMap_lines_rows rfl t).symm
  rwa [heq] at h

theorem headings_row {r : Text} (hr : '\n' ∉ r) :
    headings r = (Heading.ofLine? r.dropReturn).toList := by
  rw [headings, filterMap_lines_rows rfl, Text.rows_of_row hr, List.flatMap_singleton]

theorem headings_row_of_head {r : Text} (hr : '\n' ∉ r) (h : r.head? ≠ some '#') :
    headings r = [] := by
  rw [headings_row hr, Heading.ofLine?_eq_none fun hm => h (Text.head?_of_head?_dropReturn hm)]
  rfl

theorem headings_of_not_mem (ht : '#' ∉ t) : headings t = [] := by
  rw [headings, filterMap_lines_rows rfl, List.flatMap_eq_nil_iff]
  intro r hr
  have hmark : '#' ∉ r.dropReturn := fun hm =>
    (Text.not_mem_iff (by decide)).mp ht r hr (Text.mem_of_mem_dropReturn hm)
  rw [Heading.ofLine?_of_not_mem hmark, Option.toList_none]

theorem headings_first_row (t : Text) :
    headings t = headings (t.takeWhile (!isBreak ·)) ++ headings (t.dropWhile (!isBreak ·)) := by
  have hrest : t.dropWhile (!isBreak ·) = [] ∨ ∃ u, t.dropWhile (!isBreak ·) = '\n' :: u := by
    cases hd : t.dropWhile (!isBreak ·) with
    | nil => exact .inl rfl
    | cons c u =>
        have hc := List.head?_dropWhile_not (!isBreak ·) t
        rw [hd, List.head?_cons] at hc
        have hbreak : isBreak c = true := by simpa using hc
        exact .inr ⟨u, congrArg (· :: u) (beq_iff_eq.mp hbreak)⟩
  rw [← rowwise_headings.append_of_head hrest, List.takeWhile_append_dropWhile]

/-- A carriage return before the first row takes its heading away. -/
theorem headings_return_cons (t : Text) :
    headings ('\r' :: t) = headings (t.dropWhile (!isBreak ·)) := by
  have hrow : '\n' ∉ '\r' :: t.takeWhile (!isBreak ·) := fun hm => by
    rcases List.mem_cons.mp hm with he | hm
    · cases he
    · exact absurd (List.mem_takeWhile_imp hm) (by decide)
  rw [headings_first_row, List.takeWhile_cons_of_pos (by decide),
    List.dropWhile_cons_of_pos (by decide), headings_row_of_head hrow (by simp), List.nil_append]

namespace Contents

/-! ## Below the title -/

/-- The heading that comes next behind the line ends that a text begins with, if the last of these
is a carriage return: with it before it, the line is no heading. -/
def uncovered (t : Text) : List Heading :=
  if (t.takeWhile isLineEnd).getLast? = some '\r' then
    headings ((t.dropWhile isLineEnd).takeWhile (!isBreak ·))
  else []

theorem isLineEnd_iff : isLineEnd c = true ↔ c = '\r' ∨ c = '\n' := by
  simp only [isLineEnd, Bool.or_eq_true, beq_iff_eq]

theorem uncovered_of_neg (hc : isLineEnd c ≠ true) (t : Text) : uncovered (c :: t) = [] := by
  rw [uncovered, List.takeWhile_cons_of_neg hc]
  rfl

/-- A line end before others does not change what they uncover. -/
theorem uncovered_cons {d : Char} (hc : isLineEnd c = true) (hd : isLineEnd d = true) (t : Text) :
    uncovered (c :: d :: t) = uncovered (d :: t) := by
  rw [uncovered, uncovered, List.takeWhile_cons_of_pos hc, List.takeWhile_cons_of_pos hd,
    List.getLast?_cons_cons, List.dropWhile_cons_of_pos hc]

theorem headings_cons {d : Char} (hc : isLineEnd c = true) (hd : isLineEnd d = true) (t : Text) :
    headings (c :: d :: t) = headings (d :: t) := by
  rcases isLineEnd_iff.mp hc with rfl | rfl
  · rw [headings_return_cons]
    rcases isLineEnd_iff.mp hd with rfl | rfl
    · rw [headings_return_cons, List.dropWhile_cons_of_pos (by decide)]
    · rw [List.dropWhile_cons_of_neg (by decide)]
  · exact rowwise_headings.break_cons _

/-- Cutting line ends off at the start of a text brings in what they uncover, and nothing else. -/
theorem headings_dropWhile (t : Text) :
    headings (t.dropWhile isLineEnd) = uncovered t ++ headings t := by
  induction t with
  | nil => rfl
  | cons c t ih =>
      by_cases hc : isLineEnd c = true
      · rw [List.dropWhile_cons_of_pos hc, ih]
        cases t with
        | nil =>
            rcases isLineEnd_iff.mp hc with rfl | rfl
            · rfl
            · rfl
        | cons d t =>
            by_cases hd : isLineEnd d = true
            · rw [uncovered_cons hc hd, headings_cons hc hd]
            · rw [uncovered_of_neg hd, List.nil_append]
              have hrest : (c :: d :: t).dropWhile isLineEnd = d :: t := by
                rw [List.dropWhile_cons_of_pos hc, List.dropWhile_cons_of_neg hd]
              rw [uncovered, hrest, List.takeWhile_cons_of_pos hc, List.takeWhile_cons_of_neg hd]
              -- the line ends are just `c` now
              rcases isLineEnd_iff.mp hc with rfl | rfl
              · rw [if_pos (List.getLast?_singleton), headings_return_cons, ← headings_first_row]
              · rw [if_neg (by decide), rowwise_headings.break_cons, List.nil_append]
      · rw [List.dropWhile_cons_of_neg hc, uncovered_of_neg hc, List.nil_append]

/-- A text up to its first heading, the line of the heading, and what follows: `s` ends where the
line begins, and `w` begins where it ends, with a carriage return or without. -/
structure Titled (t s b w : Text) (g : Heading) : Prop where
  text : t = s ++ b ++ w
  start : Marker.AtStart s
  row : '\n' ∉ b
  stop : Marker.AtEnd w ∧ b.getLast? ≠ some '\r' ∨ ∃ v, w = '\r' :: v ∧ Marker.AtEnd v
  before : headings s = []
  title : Heading.ofLine? b = some g

theorem titled_row {r v w : Text} {g : Heading} (hr : '\n' ∉ r)
    (hg : Heading.ofLine? r.dropReturn = some g) (hv : Marker.AtEnd v)
    (hw : r.dropReturn ++ w = r ++ v) : Titled (r ++ v) [] r.dropReturn w g where
  text := hw.symm
  start := .inl rfl
  row := fun hm => hr (Text.mem_of_mem_dropReturn hm)
  stop := by
    rcases Text.return_cases r with ⟨b, rfl⟩ | hne
    · rw [Text.dropReturn_concat, List.append_assoc] at hw
      exact .inr ⟨v, List.append_cancel_left hw, hv⟩
    · rw [Text.dropReturn_of_ne hne] at hw ⊢
      obtain rfl := List.append_cancel_left hw
      exact .inl ⟨hv, hne⟩
  before := rfl
  title := hg

theorem Titled.row_append_break {r s b w : Text} {g : Heading} (hr : '\n' ∉ r)
    (hnone : Heading.ofLine? r.dropReturn = none) (h : Titled t s b w g) :
    Titled (r ++ '\n' :: t) (r ++ '\n' :: s) b w g where
  text := by simp only [h.text, List.append_assoc, List.cons_append]
  start := h.start.append r
  row := h.row
  stop := h.stop
  before := by
    rw [rowwise_headings.append_break, h.before, headings_row hr, hnone]
    rfl
  title := h.title

/-- The split below the title is made where the title's line ends. -/
theorem titled_of_splitBelowTitle? {above below : Text}
    (h : splitBelowTitle? (lines t) = some (above, below)) :
    ∃ s b g, above = s ++ b ∧ Titled t s b below g := by
  induction t using Text.rowInduction generalizing above with
  | last r hr =>
      by_cases hne : r = []
      · subst hne
        cases h
      · have htext := flatMap_text_lines r
        rw [lines_row hr hne] at h htext
        rw [splitBelowTitle?] at h
        split at h
        · next g hg =>
          obtain ⟨rfl, rfl⟩ := Prod.mk.inj (Option.some.inj h)
          have hw : r.dropReturn ++ ((Line.ofRow false r).ending.text ++ []) = r ++ [] := by
            simpa only [List.flatMap_singleton, Line.text, Line.body_ofRow, List.append_nil]
              using htext
          have htitled := titled_row hr hg (.inl rfl) hw
          rw [List.append_nil r] at htitled
          exact ⟨[], r.dropReturn, g, rfl, htitled⟩
        · cases h
  | cut r t hr ih =>
      have htext : (Line.ofRow true r).text ++ t = r ++ '\n' :: t := by
        have hlines := flatMap_text_lines (r ++ '\n' :: t)
        rwa [lines_row_append_break hr, List.flatMap_cons, flatMap_text_lines] at hlines
      rw [lines_row_append_break hr, splitBelowTitle?] at h
      split at h
      · next g hg =>
        obtain ⟨rfl, rfl⟩ := Prod.mk.inj (Option.some.inj h)
        refine ⟨[], r.dropReturn, g, rfl, titled_row hr hg (.inr ⟨t, rfl⟩) ?_⟩
        rw [flatMap_text_lines, ← htext]
        exact (List.append_assoc _ _ _).symm
      · next hnone =>
        obtain ⟨⟨above', below'⟩, hsplit, he⟩ := Option.map_eq_some_iff.mp h
        obtain ⟨rfl, rfl⟩ := Prod.mk.inj he
        obtain ⟨s, b, g, rfl, htitled⟩ := ih hsplit
        have hrow : (Line.ofRow true r).text = r ++ ['\n'] :=
          List.append_cancel_right (htext.trans (by simp))
        refine ⟨r ++ '\n' :: s, b, g, ?_, htitled.row_append_break hr hnone⟩
        simp only [hrow, List.append_assoc, List.cons_append, List.nil_append]

theorem headings_of_splitBelowTitle?_none {ls : List Line} (h : splitBelowTitle? ls = none) :
    ls.filterMap (fun l => Heading.ofLine? l.body) = [] := by
  induction ls with
  | nil => rfl
  | cons l ls ih =>
      rw [splitBelowTitle?] at h
      split at h
      · cases h
      · next hl =>
        rw [List.filterMap_cons, hl]
        exact ih (Option.map_eq_none_iff.mp h)

namespace Titled

variable {b w : Text} {g : Heading}

theorem headings_eq (h : Titled t s b w g) : headings t = g :: headings w := by
  rw [h.text, List.append_assoc, rowwise_headings.append_of_last h.start, h.before, List.nil_append]
  rcases h.stop with ⟨hw, hb⟩ | ⟨v, rfl, hv⟩
  · rw [rowwise_headings.append_of_head hw, headings_row h.row, Text.dropReturn_of_ne hb, h.title]
    rfl
  · -- the carriage return belongs to the title's line
    have hrow : '\n' ∉ b ++ ['\r'] := Text.not_mem_concat h.row (by decide)
    have hreturn : headings ('\r' :: v) = headings v :=
      rowwise_headings.append_of_head (s := ['\r']) hv
    rw [List.append_cons, rowwise_headings.append_of_head hv, hreturn, headings_row hrow,
      Text.dropReturn_concat, h.title]
    rfl

theorem contentLines_eq (h : Titled t s b w g) :
    t.contentLines = (s ++ b).contentLines ++ w.contentLines := by
  rw [h.text]
  rcases h.stop with ⟨hw, -⟩ | ⟨v, rfl, hv⟩
  · exact Text.rowwise_contentLines.append_of_head hw
  · rw [List.append_cons, Text.rowwise_contentLines.append_of_head hv,
      Text.contentLines_concat_of_blank (by decide), Text.contentLines_cons_of_blank (by decide)]

theorem not_stands_line (h : Titled t s b w g) : ¬ Marker.Stands b := by
  rintro ⟨u, l, v, rfl, hu, hl, -⟩
  have hhead := Heading.head?_of_ofLine? h.title
  rcases hu with rfl | ⟨u, rfl⟩
  · obtain ⟨c, l, rfl, -⟩ := hl.head
    obtain rfl : c = '#' := Option.some.inj hhead
    exact hl.not_mem List.mem_cons_self
  · refine h.row ?_
    simp

theorem not_closes_line (h : Titled t s b w g) : ¬ Marker.Closes b := by
  rintro ⟨c, e, v, rfl, hc, -, -⟩
  have hhead := Heading.head?_of_ofLine? h.title
  cases c with
  | nil => exact absurd (Option.some.inj hhead) (by decide)
  | cons d c =>
      obtain rfl : d = '#' := Option.some.inj hhead
      exact absurd (hc '#' List.mem_cons_self) (by decide)

theorem not_stands (h : Titled t s b w g) (ht : ¬ Marker.Stands t) : ¬ Marker.Stands (s ++ b) := by
  rcases h.start with hs | ⟨u, hs⟩
  · rw [hs]
    exact h.not_stands_line
  · rw [hs, List.append_assoc, List.singleton_append, Marker.stands_append_break]
    rintro (hu | hb | ⟨-, hb⟩)
    · refine ht ?_
      rw [h.text, hs, List.append_assoc, List.append_assoc]
      exact hu.append (b ++ w)
    · exact h.not_stands_line hb
    · exact h.not_closes_line hb

end Titled

/-! ## The list in its place -/

theorem rowwise_block {β : Type} {f : Text → List β} (hf : Rowwise f) (s list t : Text) :
    f (s ++ block list ++ t) = f s ++ f list ++ f t := by
  rw [block]
  split
  · next hl =>
    rw [List.isEmpty_iff.mp hl, hf.nil, List.append_nil, List.append_assoc]
    exact (hf.append_break _ _).trans (congrArg (f s ++ ·) (hf.break_cons t))
  · simp only [List.append_assoc, List.cons_append, List.nil_append, hf.append_break,
      hf.break_cons]

/-- A list that is set into a text stands before all markers that are left. -/
theorem prefix_lead (hs : ¬ Marker.Stands s) (hl : Dashed list)
    (hlast : ∃ l c, list = l ++ [c] ∧ isBlank c = false) (t : Text) :
    s ++ ['\n', '\n'] ++ list <+: (Marker.parts (s ++ block list ++ t)).lead := by
  obtain ⟨l, c, hlist, hc⟩ := hlast
  have hz : s ++ ['\n', '\n'] ++ list = s ++ ['\n'] ++ '\n' :: list := by simp
  have hplaced : s ++ block list ++ t = s ++ ['\n', '\n'] ++ list ++ '\n' :: ('\n' :: t) := by
    rw [block, if_neg (by simp [hlist])]
    simp only [List.append_assoc, List.cons_append, List.nil_append]
  -- no marker stands up to the list, and none reaches over its end
  have hstands : ¬ Marker.Stands (s ++ ['\n', '\n'] ++ list) := by
    rw [hz, Marker.stands_append_break, Marker.stands_concat_break]
    rintro (h | h | ⟨-, h⟩)
    · exact hs h
    · exact hl.not_stands h
    · exact hl.not_closes h
  have hopens : ¬ Marker.Opens (s ++ ['\n', '\n'] ++ list) := fun h => by
    rcases (hz ▸ h).right with h | h
    · exact hl.not_opens h
    · exact Bool.false_ne_true (hc.symm.trans (h c (hlist ▸ List.mem_concat_self)))
  have hend : (s ++ ['\n', '\n'] ++ list).getLast? ≠ some '\n' := by
    rw [hlist, ← List.append_assoc, List.getLast?_concat]
    exact fun he => Text.ne_of_isBlank (by decide) hc (Option.some.inj he).symm
  rw [hplaced]
  cases hf : Marker.first? (s ++ ['\n', '\n'] ++ list ++ '\n' :: ('\n' :: t)) with
  | none =>
      rw [Marker.parts_of_none hf]
      exact List.prefix_append _ _
  | some cut =>
      obtain ⟨before, after⟩ := cut
      rw [Marker.parts_of_some hf]
      simp only [Marker.first?, Option.map_eq_some_iff, Prod.exists, Prod.mk.injEq] at hf
      obtain ⟨before, after, hfind, rfl, rfl⟩ := hf
      obtain ⟨m, rest, heq, hm, -, hrest, hbefore⟩ := Marker.find_eq_some hfind
      rcases Marker.stands_cases heq (hbefore.imp_left And.left) hm hrest with ⟨x, rfl, -⟩ | h | h
      · exact Text.prefix_dropBreaks hend _
      · exact absurd h hstands
      · exact absurd h.1 hopens

theorem exists_concat_ofText (h : ofText t ≠ []) :
    ∃ l c, ofText t = l ++ [c] ∧ isBlank c = false := by
  obtain ⟨l, c, hl⟩ := (List.eq_nil_or_concat' (ofText t)).resolve_left h
  have hlast : ¬ isBlank ((ofText t).getLast h) = true := List.rdropWhile_last_not isBlank _ h
  have hc : (ofText t).getLast h = c := by
    rw [List.getLast_congr h (by simp) hl, List.getLast_concat]
  exact ⟨l, c, hl, Bool.eq_false_iff.mpr (hc ▸ hlast)⟩

theorem ofText_of_headings (h : headings t = []) : ofText t = [] := by
  rw [ofText, entries, h]
  rfl

/-- Where a list of contents goes in a text: what comes before its place, what it takes the place
of, and what comes behind. -/
inductive Spot (t : Text) : Text → Text → Text → Prop
  /-- At the first marker, with the breaks around it. -/
  | marker {before m after : Text} : Marker.first? t = some (before, after) →
      t = before ++ m ++ after → Marker.Widened m → Spot t before m after
  /-- Without a marker, behind the line of the first heading. -/
  | title {s b w : Text} {g : Heading} : Marker.first? t = none → Titled t s b w g →
      Spot t (s ++ b) [] w
  /-- Without a marker and a heading there is nothing to be placed. -/
  | nowhere : Marker.first? t = none → headings t = [] → Spot t t [] []

open Text (contentLines)

def inserted (t : Text) : Text := place (ofText t) t

theorem inserted_of_empty (hf : Marker.first? t = none) (hl : ofText t = []) : inserted t = t := by
  rw [inserted, place, hf, hl]
  rfl

/-- What a list of contents leaves as it was that is placed between `front` and `back`, where `hole`
stood. -/
structure PlacedAt (t front hole back : Text) : Prop where
  /-- The content lines of the text, of which those of `hole` are taken out. -/
  lines : contentLines t = contentLines front ++ contentLines hole ++ contentLines back
  /-- No other line is lost, and the lines of the list stand in their place. -/
  lines_inserted : contentLines (inserted t) =
    contentLines front ++ contentLines (ofText t) ++ contentLines back
  /-- The list stands before all markers that are left. -/
  list_before : ofText t ≠ [] →
    front ++ ['\n', '\n'] ++ ofText t <+: (Marker.parts (inserted t)).lead
  /-- The headings stay, unless carriage returns that are cut off around the list take one away or
  uncover one. -/
  headings_iff : headings (inserted t) = headings t ↔
    (Marker.first? t = none → ofText t ≠ [] →
      headings front ++ uncovered back = (headings t).take 1)

theorem placedAt_marker {before m after : Text} (hf : Marker.first? t = some (before, after))
    (ht : t = before ++ m ++ after) (hm : Marker.Widened m) : PlacedAt t before m after := by
  have hinserted : inserted t = before ++ block (ofText t) ++ after := by rw [inserted, place, hf]
  constructor
  case lines =>
    rw [← Marker.between_eq ht]
    exact Marker.rowwise_first? Text.rowwise_contentLines hf
  case lines_inserted => rw [hinserted, rowwise_block Text.rowwise_contentLines]
  case list_before =>
    intro hl
    rw [hinserted]
    exact prefix_lead (Marker.not_stands_before hf) (dashed_ofText t)
      (exists_concat_ofText hl) after
  case headings_iff =>
    refine iff_of_true ?_ fun hnone => absurd (hf.symm.trans hnone) (Option.some_ne_none _)
    rw [Marker.rowwise_first? rowwise_headings hf, Marker.between_eq ht,
      headings_of_not_mem hm.not_mem, hinserted, rowwise_block rowwise_headings,
      (dashed_ofText t).headings_eq]

theorem placedAt_title {s b w : Text} {g : Heading} (hf : Marker.first? t = none)
    (hsplit : splitBelowTitle? (lines t) = some (s ++ b, w)) (h : Titled t s b w g) :
    PlacedAt t (s ++ b) [] w := by
  by_cases hl : ofText t = []
  · have hinserted := inserted_of_empty hf hl
    constructor
    case lines => rw [h.contentLines_eq, Text.rowwise_contentLines.nil, List.append_nil]
    case lines_inserted =>
      rw [hinserted, hl, h.contentLines_eq, Text.rowwise_contentLines.nil, List.append_nil]
    case list_before => exact fun hne => absurd hl hne
    case headings_iff => exact iff_of_true (congrArg headings hinserted) fun _ hne => absurd hl hne
  · have hinserted : inserted t = s ++ b ++ block (ofText t) ++ w.dropWhile isLineEnd := by
      rw [inserted, place, hf]
      simp only [List.isEmpty_iff, hl, if_false, hsplit]
    have hnone : ¬ Marker.Stands t := by
      rw [← Marker.isIn_iff, Marker.isIn, hf]
      exact Bool.false_ne_true
    constructor
    case lines => rw [h.contentLines_eq, Text.rowwise_contentLines.nil, List.append_nil]
    case lines_inserted =>
      rw [hinserted, rowwise_block Text.rowwise_contentLines,
        Text.contentLines_dropWhile fun _ => isBlank_of_isLineEnd]
    case list_before =>
      intro hne
      rw [hinserted]
      exact prefix_lead (h.not_stands hnone) (dashed_ofText t) (exists_concat_ofText hne) _
    case headings_iff =>
      have hcut : headings (inserted t) =
          headings (s ++ b) ++ uncovered w ++ headings w := by
        rw [hinserted, rowwise_block rowwise_headings, (dashed_ofText t).headings_eq,
          headings_dropWhile, List.append_nil, List.append_assoc]
      rw [hcut, h.headings_eq, ← List.singleton_append, List.append_cancel_right_eq]
      exact ⟨fun heq _ _ => heq, fun heq => heq hf hl⟩

theorem placedAt_nowhere (hf : Marker.first? t = none) (ht : headings t = []) :
    PlacedAt t t [] [] := by
  have hl := ofText_of_headings ht
  have hinserted := inserted_of_empty hf hl
  have hnil := Text.rowwise_contentLines.nil
  constructor
  case lines => rw [hnil, List.append_nil, List.append_nil]
  case lines_inserted => rw [hinserted, hl, hnil, List.append_nil, List.append_nil]
  case list_before => exact fun hne => absurd hl hne
  case headings_iff => exact iff_of_true (congrArg headings hinserted) fun _ hne => absurd hl hne

/-- Placing a list of contents takes the lines of the first marker away and nothing else, and taking
out the markers that are left takes no line of the list. -/
theorem exists_spot_inserted (t : Text) :
    (∃ front hole back, Spot t front hole back ∧ PlacedAt t front hole back) ∧
    (∀ m ∈ (Marker.parts (inserted t)).markers, Marker.Widened m) ∧
    contentLines (inserted t) = contentLines (Marker.parts (inserted t)).lead ++
      (Marker.parts (inserted t)).rest.flatMap (fun (m, s) => contentLines m ++ contentLines s) ∧
    contentLines (Marker.clear (inserted t)) = contentLines (Marker.parts (inserted t)).lead ++
      (Marker.parts (inserted t)).rest.flatMap (fun (_, s) => contentLines s) := by
  refine ⟨?_, fun m => Marker.widened_of_mem_markers,
    Marker.rowwise_parts Text.rowwise_contentLines _, ?_⟩
  · cases hf : Marker.first? t with
    | some cut =>
        obtain ⟨before, after⟩ := cut
        obtain ⟨m, ht, hm, -⟩ := Marker.first?_eq_some hf
        exact ⟨before, m, after, .marker hf ht hm, placedAt_marker hf ht hm⟩
    | none =>
        cases hsplit : splitBelowTitle? (lines t) with
        | some cut =>
            obtain ⟨above, below⟩ := cut
            obtain ⟨s, b, g, rfl, h⟩ := titled_of_splitBelowTitle? hsplit
            exact ⟨s ++ b, [], below, .title hf h, placedAt_title hf hsplit h⟩
        | none =>
            have ht : headings t = [] := headings_of_splitBelowTitle?_none hsplit
            exact ⟨t, [], [], .nowhere hf ht, placedAt_nowhere hf ht⟩
  · rw [Marker.clear, Text.contentLines_trim, Marker.blankOut_eq_setApart,
      Marker.rowwise_setApart Text.rowwise_contentLines, Marker.Parts.stretches, List.flatMap_cons,
      List.flatMap_map]

/-- A carriage return in front of a line that would be a heading without it. -/
theorem headings_inserted_uncovered :
    headings "# A\n\r# B\n# C".toList = [⟨1, ['A'], none⟩, ⟨1, ['C'], none⟩] ∧
    inserted "# A\n\r# B\n# C".toList = "# A\n\n- C\n\n# B\n# C".toList ∧
    headings (inserted "# A\n\r# B\n# C".toList) =
      [⟨1, ['A'], none⟩, ⟨1, ['B'], none⟩, ⟨1, ['C'], none⟩] := by
  refine ⟨by decide +kernel, by decide +kernel, by decide +kernel⟩

end Contents
end Compendium
