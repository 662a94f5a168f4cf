/-
# `Compendium.Proofs.Heading.Restyling` — when restyling a text twice is restyling it once

A heading line is printed in one form, so one would expect a style that moves nothing down to leave
a restyled text alone.  It does not always, for a restyled text is trimmed after its lines have
been read, in two ways:

* Blanks before the first line go.  A line that was indented, and no heading for that reason, may
  be one then, and the second time it is printed in another form.
* The text of a heading is trimmed of every blank, but only gaps are cut off a line before its
  anchor is looked for.  In a line with a brace and, say, a no-break space at its end, the brace
  ends no anchor the first time and ends one the second time.

`restyle_restyle_iff` says that nothing else goes wrong.  A row that stays as it is (`Stays`) is all
there is to look at: a trimmed text stays the same if all its rows stay (`restyle_eq_self_iff`), the
rows of a restyled text come row by row from those of the text (`forall_rows_restyle`), and a
restyled heading stays unless its text ends in a loose group (`restyleLine_line_apply_iff`).
-/
import Compendium.Proofs.Heading.Style
import Compendium.Proofs.Text.Alike

namespace Compendium

/-! ## Indented texts -/

namespace Text

/-- The first line of the text that is not blank begins with a blank. -/
def Indented (t : Text) : Prop := ∃ c, (t.takeWhile isBlank).getLast? = some c ∧ c ≠ '\n'

theorem indented_of_row {s : Text} (hs : '\n' ∉ s) :
    Indented s ↔ ∃ c, s.head? = some c ∧ isBlank c = true := by
  constructor
  · rintro ⟨c, hc, -⟩
    cases s with
    | nil => cases hc
    | cons d u =>
        refine ⟨d, rfl, ?_⟩
        by_contra hd
        rw [List.takeWhile_cons_of_neg hd] at hc
        cases hc
  · rintro ⟨c, hc, hb⟩
    have hne : s.takeWhile isBlank ≠ [] := by
      obtain ⟨u, rfl⟩ := List.head?_eq_some_iff.mp hc
      rw [List.takeWhile_cons_of_pos hb]
      exact List.cons_ne_nil _ _
    refine ⟨_, List.getLast?_eq_some_getLast hne, fun he => hs ?_⟩
    exact he ▸ (List.takeWhile_sublist _).subset (List.getLast_mem hne)

theorem not_indented_of_trimStart {t : Text} (ht : trimStart t = t) : ¬ Indented t := by
  rintro ⟨c, hc, -⟩
  have hlen := congrArg List.length (List.takeWhile_append_dropWhile (p := isBlank) (l := t))
  rw [← trimStart, ht, List.length_append] at hlen
  rw [List.length_eq_zero_iff.mp (Nat.add_eq_right.mp hlen)] at hc
  cases hc

theorem indented_append_break (s t : Text) :
    Indented (s ++ '\n' :: t) ↔ if trimStart s = [] then Indented t else Indented s := by
  by_cases hs : trimStart s = []
  · have hblank : ∀ c ∈ s, isBlank c = true := List.dropWhile_eq_nil_iff.mp hs
    have htake : (s ++ '\n' :: t).takeWhile isBlank = s ++ '\n' :: t.takeWhile isBlank := by
      rw [List.takeWhile_append_of_pos hblank, List.takeWhile_cons_of_pos (by decide)]
    rw [if_pos hs, Indented, htake, Indented]
    cases ht : t.takeWhile isBlank with
    | nil => simp
    | cons c u => rw [List.getLast?_append, List.getLast?_cons_cons, List.getLast?_cons]; rfl
  · rw [if_neg hs, Indented, Indented, List.takeWhile_append, if_neg]
    intro hlen
    refine hs (List.dropWhile_eq_nil_iff.mpr fun c hc => ?_)
    rw [← (List.takeWhile_prefix isBlank).eq_of_length hlen] at hc
    exact List.mem_takeWhile_imp hc

/-! ## Rows and their carriage returns, trimmed -/

theorem dropReturn_trimEnd (r : Text) : (trimEnd r).dropReturn = trimEnd r := by
  induction r using List.reverseRecOn with
  | nil => rfl
  | append_singleton r c ih =>
      rw [trimEnd, dropEndWhile_concat]
      split
      · exact ih
      · next hb =>
        refine dropReturn_of_ne fun hc => hb ?_
        rw [List.getLast?_concat] at hc
        exact Option.some.inj hc ▸ rfl

theorem trimEnd_dropReturn (r : Text) : trimEnd r.dropReturn = trimEnd r := by
  rcases return_cases r with ⟨b, rfl⟩ | hr
  · rw [dropReturn_concat, trimEnd, trimEnd, dropEndWhile_concat_of_pos b (by decide)]
  · rw [dropReturn_of_ne hr]

end Text

/-! ## Loose groups -/

namespace Heading

/-- The text ends in a group in braces that does not stand one space behind what comes before it,
so that it is printed in another place once it is read as an anchor. -/
def LooseGroup (text : Text) : Prop :=
  ∃ front a, splitAnchor text = (front, some a) ∧ Text.trim front ≠ [] ∧
    front ≠ Text.trim front ++ [' ']

theorem looseGroup_iff {text front a : Text} (hs : splitAnchor text = (front, some a)) :
    LooseGroup text ↔ Text.trim front ≠ [] ∧ front ≠ Text.trim front ++ [' '] := by
  constructor
  · rintro ⟨front', a', hs', h⟩
    obtain ⟨rfl, -⟩ := Prod.mk.inj (hs.symm.trans hs')
    exact h
  · intro h
    exact ⟨front, a, hs, h⟩

theorem not_looseGroup_of_none {text : Text} (hs : (splitAnchor text).2 = none) :
    ¬ LooseGroup text := by
  rintro ⟨front, a, hs', -⟩
  rw [hs'] at hs
  cases hs

/-- To read a group as an anchor leaves the line as it is only if the group stands one space behind
the text. -/
theorem line_group_iff {text front a : Text} (hs : splitAnchor text = (front, some a))
    (level : Nat) :
    line ⟨level, Text.trim front, some a⟩ = line ⟨level, text, none⟩ ↔
      front = Text.trim front ++ [' '] := by
  obtain ⟨rfl, -⟩ := splitAnchor_eq_some_iff.mp hs
  have hread : line ⟨level, Text.trim front, some a⟩ = (List.replicate level '#' ++ [' ']) ++
      ((Text.trim front ++ [' ']) ++ ('\x7b' :: a ++ ['\x7d'])) := by simp [line, anchorText]
  have hbare : line ⟨level, front ++ '\x7b' :: a ++ ['\x7d'], none⟩ =
      (List.replicate level '#' ++ [' ']) ++ (front ++ ('\x7b' :: a ++ ['\x7d'])) := by
    simp [line, anchorText]
  rw [hread, hbare, List.append_cancel_left_eq, List.append_cancel_right_eq]
  exact eq_comm

theorem ofLine?_line_group {level : Nat} {text front a : Text} (hlevel : 0 < level)
    (hne : text ≠ []) (htrim : Text.trim text = text) (hrow : '\n' ∉ text)
    (hs : splitAnchor text = (front, some a)) :
    ofLine? (line ⟨level, text, none⟩) =
      if Text.trim front = [] then none else some ⟨level, Text.trim front, some a⟩ := by
  have hread (g : Heading) := ofLine?_line_eq_some_iff (h := ⟨level, text, none⟩) (g := g) hne htrim
  simp only [anchorText, List.append_nil, hs] at hread
  split
  · next hfront =>
    exact Option.eq_none_iff_forall_ne_some.mpr fun g hg => ((hread g).mp hg).2.1 hfront
  · next hfront =>
    refine (hread _).mpr ⟨hlevel, hfront, fun hm => hrow ?_, rfl⟩
    exact mem_of_splitAnchor (.inl (hs.symm ▸ Text.mem_of_mem_dropEndWhile hm))

end Heading

namespace HeadingStyle

variable {style : HeadingStyle} {r s t : Text}

/-! ## Rows that stay as they are -/

/-- The row of a restyled text, before it is trimmed. -/
abbrev row (style : HeadingStyle) (r : Text) : Text := Text.onLine style.restyleLine r

/-- The row is in the style already. -/
def Stays (style : HeadingStyle) (r : Text) : Prop := style.row r = r

theorem stays_iff : style.Stays r ↔ style.restyleLine r.dropReturn = r.dropReturn := by
  rcases Text.return_cases r with ⟨b, rfl⟩ | hr
  · rw [Stays, row, Text.onLine_concat, Text.dropReturn_concat, List.append_cancel_right_eq]
  · rw [Stays, row, Text.onLine_of_ne hr, Text.dropReturn_of_ne hr]

theorem stays_nil (style : HeadingStyle) : style.Stays [] := rfl

theorem row_of_none (hr : Heading.ofLine? r.dropReturn = none) : style.row r = r :=
  stays_iff.mpr (restyleLine_of_none hr)

theorem dropReturn_row_of_some {h : Heading} (hr : Heading.ofLine? r.dropReturn = some h) :
    (style.row r).dropReturn = (style.apply h).line := by
  rcases Text.return_cases r with ⟨b, rfl⟩ | hne
  · rw [Text.dropReturn_concat] at hr
    rw [row, Text.onLine_concat, Text.dropReturn_concat, restyleLine_of_some hr]
  · rw [Text.dropReturn_of_ne hne] at hr
    rw [row, Text.onLine_of_ne hne, restyleLine_of_some hr, ← trimEnd_line_apply hr,
      Text.dropReturn_trimEnd]

theorem stays_row_iff :
    style.Stays (style.row r) ↔ ∀ h, Heading.ofLine? r.dropReturn = some h →
      style.restyleLine (style.apply h).line = (style.apply h).line := by
  cases hr : Heading.ofLine? r.dropReturn with
  | none =>
      rw [row_of_none hr]
      exact iff_of_true (row_of_none hr) nofun
  | some h =>
      rw [stays_iff, dropReturn_row_of_some hr]
      constructor
      · intro hline g hg
        exact Option.some.inj hg ▸ hline
      · intro hline
        exact hline h rfl

/-! ## Rows, trimmed -/

theorem row_of_blank {c : Char} (hc : r.head? = some c) (hb : isBlank c = true) :
    style.row r = r := by
  refine row_of_none (Heading.ofLine?_eq_none fun hm => ?_)
  have hmark := hc.symm.trans (Text.head?_of_head?_dropReturn hm)
  exact absurd (Option.some.inj hmark) (Text.ne_of_isBlank hb (by decide))

theorem row_of_indented (hr : '\n' ∉ r) (hi : Text.Indented r) : style.row r = r := by
  obtain ⟨c, hc, hb⟩ := (Text.indented_of_row hr).mp hi
  exact row_of_blank hc hb

theorem row_of_trimStart_eq_nil (hr : Text.trimStart r = []) : style.row r = r := by
  cases r with
  | nil => rfl
  | cons c u => exact row_of_blank rfl (Text.trimStart_eq_nil_iff.mp hr c List.mem_cons_self)

theorem stays_trimEnd_row_iff (hr : '\n' ∉ r) :
    style.Stays (Text.trimEnd (style.row r)) ↔ style.Stays (style.row r) := by
  rw [stays_iff, stays_iff, Text.dropReturn_trimEnd, ← Text.trimEnd_dropReturn]
  cases hh : Heading.ofLine? r.dropReturn with
  | none =>
      have hdrop : '\n' ∉ r.dropReturn := fun hm => hr (Text.mem_of_mem_dropReturn hm)
      rw [row_of_none hh]
      have htrim := Heading.ofLine?_trimEnd_eq_none hdrop hh
      exact iff_of_true (restyleLine_of_none htrim) (restyleLine_of_none hh)
  | some h => rw [dropReturn_row_of_some hh, trimEnd_line_apply hh]

theorem head?_row_of_some {h : Heading} (hr : Heading.ofLine? r.dropReturn = some h) :
    (style.row r).head? = some '#' := by
  have hline : (style.restyleLine r.dropReturn).head? = some '#' := head?_restyleLine_of_some hr
  rw [restyleLine_of_some hr, ← dropReturn_row_of_some hr] at hline
  exact Text.head?_of_head?_dropReturn hline

theorem trimStart_row (hr : '\n' ∉ r) (hb : ¬ Text.Indented r) :
    Text.trimStart (style.row r) = style.row r := by
  cases hh : Heading.ofLine? r.dropReturn with
  | none =>
      rw [row_of_none hh]
      refine Text.trimStart_eq_self fun c hc => Bool.eq_false_iff.mpr fun hblank => hb ?_
      exact (Text.indented_of_row hr).mpr ⟨c, hc, hblank⟩
  | some h => exact Heading.trimStart_of_mark (head?_row_of_some hh)

theorem trimStart_row_eq_nil_iff : Text.trimStart (style.row r) = [] ↔ Text.trimStart r = [] := by
  cases hh : Heading.ofLine? r.dropReturn with
  | none => rw [row_of_none hh]
  | some h =>
      have hrow : (style.row r).head? = some '#' := head?_row_of_some hh
      have hr := Text.head?_of_head?_dropReturn (Heading.head?_of_ofLine? hh)
      rw [Heading.trimStart_of_mark hrow, Heading.trimStart_of_mark hr]
      refine iff_of_false (fun he => ?_) (fun he => ?_)
      · exact absurd (he ▸ hrow) nofun
      · exact absurd (he ▸ hr) nofun

/-- What a restyled row is without the blanks at its start stays if the row stays and, where it
begins with a blank and so was not read without it, if the row without its blanks does. -/
theorem stays_trimStart_row_iff (hr : '\n' ∉ r) :
    style.Stays (Text.trimStart (style.row r)) ↔
      style.Stays (style.row r) ∧ (Text.Indented r → style.Stays (Text.trimStart r)) := by
  by_cases hi : Text.Indented r
  · have hrow : style.row r = r := row_of_indented hr hi
    rw [hrow]
    exact ⟨fun h => ⟨hrow, fun _ => h⟩, fun h => h.2 hi⟩
  · rw [trimStart_row hr hi]
    exact ⟨fun h => ⟨h, fun h' => absurd h' hi⟩, fun h => h.1⟩

theorem stays_trim_row_iff (hr : '\n' ∉ r) :
    style.Stays (Text.trim (style.row r)) ↔
      style.Stays (style.row r) ∧ (Text.Indented r → style.Stays (Text.trim r)) := by
  by_cases hi : Text.Indented r
  · have hrow : style.row r = r := row_of_indented hr hi
    rw [hrow]
    exact ⟨fun h => ⟨hrow, fun _ => h⟩, fun h => h.2 hi⟩
  · rw [Text.trim, trimStart_row hr hi, stays_trimEnd_row_iff hr]
    exact ⟨fun h => ⟨h, fun h' => absurd h' hi⟩, fun h => h.1⟩

/-! ## The rows of a restyled text -/

theorem not_mem_row (hr : '\n' ∉ r) : '\n' ∉ style.row r :=
  Text.not_mem_onLine (fun _ => not_mem_restyleLine) hr

theorem mapLines_row (hs : '\n' ∉ s) : Text.mapLines style.restyleLine s = style.row s :=
  Text.mapLines_row (restyleLine_nil style) hs

theorem mapLines_append_break (hs : '\n' ∉ s) (t : Text) :
    Text.mapLines style.restyleLine (s ++ '\n' :: t) =
      style.row s ++ '\n' :: Text.mapLines style.restyleLine t :=
  Text.mapLines_append_break hs t

theorem trimEnd_mapLines_eq_nil_iff (t : Text) :
    Text.trimEnd (Text.mapLines style.restyleLine t) = [] ↔ Text.trimEnd t = [] := by
  have hrow {s : Text} : Text.trimEnd (style.row s) = [] ↔ Text.trimEnd s = [] := by
    rw [Text.trimEnd_eq_nil_iff, Text.trimEnd_eq_nil_iff]
    exact trimStart_row_eq_nil_iff
  induction t using Text.rowInduction with
  | last s hs => rw [mapLines_row hs, hrow]
  | cut s t hs ih =>
      rw [mapLines_append_break hs, Text.trimEnd_append_break, Text.trimEnd_append_break]
      by_cases ht : Text.trimEnd t = []
      · rw [if_pos ht, if_pos (ih.mpr ht), hrow]
      · rw [if_neg ht, if_neg fun h => ht (ih.mp h)]
        exact iff_of_false (by simp) (by simp)

theorem forall_rows_trimEnd (t : Text) :
    (∀ r ∈ Text.rows (Text.trimEnd (Text.mapLines style.restyleLine t)), style.Stays r) ↔
      ∀ r ∈ t.rows, style.Stays (style.row r) := by
  induction t using Text.rowInduction with
  | last s hs =>
      rw [mapLines_row hs, Text.rows_of_row hs, Text.rows_trimEnd_of_row (not_mem_row hs),
        List.forall_mem_singleton, List.forall_mem_singleton]
      exact stays_trimEnd_row_iff hs
  | cut s t hs ih =>
      rw [mapLines_append_break hs, Text.trimEnd_append_break, Text.rows_append_break,
        Text.rows_of_row hs, List.singleton_append, List.forall_mem_cons, ← ih]
      split
      · next ht =>
        rw [ht, Text.rows_nil, List.forall_mem_singleton, Text.rows_trimEnd_of_row (not_mem_row hs),
          List.forall_mem_singleton, and_iff_left (stays_nil style)]
        exact stays_trimEnd_row_iff hs
      · rw [Text.rows_append_break, Text.rows_of_row (not_mem_row hs), List.singleton_append,
          List.forall_mem_cons]

/-- The rows of a restyled text stay if the restyled rows of the text do, and the first line too
where it was indented: that line was not read as it stands now. -/
theorem forall_rows_restyle (t : Text) :
    (∀ r ∈ Text.rows (style.restyle t), style.Stays r) ↔
      (∀ r ∈ t.rows, style.Stays (style.row r)) ∧
        (t.Indented → ∀ r ∈ (Text.rows (Text.trim t)).head?, style.Stays r) := by
  show (∀ r ∈ Text.rows (Text.trim (Text.mapLines style.restyleLine t)), style.Stays r) ↔ _
  induction t using Text.rowInduction with
  | last s hs =>
      rw [mapLines_row hs, Text.rows_of_row hs, Text.rows_trim_of_row (not_mem_row hs),
        Text.rows_trim_of_row hs, List.forall_mem_singleton, List.forall_mem_singleton]
      simp only [List.head?_cons, Option.mem_some, forall_eq']
      exact stays_trim_row_iff hs
  | cut s t hs ih =>
      have hcut : (∀ r ∈ Text.rows (s ++ '\n' :: t), style.Stays (style.row r)) ↔
          style.Stays (style.row s) ∧ ∀ r ∈ t.rows, style.Stays (style.row r) := by
        rw [Text.rows_append_break, Text.rows_of_row hs, List.singleton_append,
          List.forall_mem_cons]
      rw [mapLines_append_break hs, Text.trim_append_break, Text.trim_append_break, hcut,
        Text.indented_append_break]
      by_cases hblank : Text.trimStart s = []
      · -- the first row is blank, and goes
        have hrow : Text.trimStart (style.row s) = [] := trimStart_row_eq_nil_iff.mpr hblank
        have hstays : style.Stays (style.row s) := by
          rw [row_of_trimStart_eq_nil hblank]
          exact row_of_trimStart_eq_nil hblank
        rw [if_pos hblank, if_pos hblank, if_pos hrow, ih, and_iff_right hstays]
      have hrow : Text.trimStart (style.row s) ≠ [] :=
        fun he => hblank (trimStart_row_eq_nil_iff.mp he)
      rw [if_neg hblank, if_neg hblank, if_neg hrow, ← forall_rows_trimEnd]
      by_cases hend : Text.trimEnd t = []
      · -- all but the first row is blank, and goes
        have hmap : Text.trimEnd (Text.mapLines style.restyleLine t) = [] :=
          (trimEnd_mapLines_eq_nil_iff t).mpr hend
        rw [if_pos hend, if_pos hmap, hmap, Text.rows_nil, List.forall_mem_singleton,
          Text.rows_trim_of_row (not_mem_row hs), Text.rows_trim_of_row hs,
          List.forall_mem_singleton]
        simp only [List.head?_cons, Option.mem_some, forall_eq', stays_nil, and_true]
        exact stays_trim_row_iff hs
      · have hmap : Text.trimEnd (Text.mapLines style.restyleLine t) ≠ [] :=
          fun he => hend ((trimEnd_mapLines_eq_nil_iff t).mp he)
        rw [if_neg hend, if_neg hmap, Text.rows_append_break, Text.rows_append_break,
          Text.rows_of_row (Text.not_mem_trimStart (not_mem_row hs)),
          Text.rows_of_row (Text.not_mem_trimStart hs), List.singleton_append,
          List.forall_mem_cons, stays_trimStart_row_iff hs]
        simp only [List.singleton_append, List.head?_cons, Option.mem_some, forall_eq']
        exact and_right_comm

/-! ## Restyling a trimmed text -/

theorem trimStart_mapLines (ht : Text.trimStart t = t) :
    Text.trimStart (Text.mapLines style.restyleLine t) = Text.mapLines style.restyleLine t := by
  have hrow {s : Text} (hs : '\n' ∉ s) (h : Text.trimStart s = s) :
      Text.trimStart (style.row s) = style.row s :=
    trimStart_row hs (Text.not_indented_of_trimStart h)
  induction t using Text.rowInduction with
  | last s hs => rw [mapLines_row hs, hrow hs ht]
  | cut s t hs _ =>
      rw [Text.trimStart_append_break] at ht
      split at ht
      · -- a text without its first row is too short
        have hle : (Text.trimStart t).length ≤ t.length := (List.dropWhile_sublist _).length_le
        rw [ht, List.length_append, List.length_cons] at hle
        omega
      · next hne =>
        have hfirst : Text.trimStart s = s := List.append_cancel_right ht
        rw [mapLines_append_break hs, Text.trimStart_append_break,
          if_neg fun he => hne (trimStart_row_eq_nil_iff.mp he), hrow hs hfirst]

theorem trimEnd_row (ht : Text.trimEnd s = s) : Text.trimEnd (style.row s) = style.row s := by
  cases hh : Heading.ofLine? s.dropReturn with
  | none => rw [row_of_none hh, ht]
  | some h =>
      rcases Text.return_cases s with ⟨b, rfl⟩ | hne
      · have hdrop := Text.dropReturn_trimEnd (b ++ ['\r'])
        rw [ht, Text.dropReturn_concat] at hdrop
        exact absurd hdrop (by simp)
      · rw [Text.dropReturn_of_ne hne] at hh
        rw [row, Text.onLine_of_ne hne, restyleLine_of_some hh, trimEnd_line_apply hh]

theorem trimEnd_mapLines (ht : Text.trimEnd t = t) :
    Text.trimEnd (Text.mapLines style.restyleLine t) = Text.mapLines style.restyleLine t := by
  induction t using Text.rowInduction with
  | last s hs => rw [mapLines_row hs, trimEnd_row ht]
  | cut s t hs ih =>
      rw [Text.trimEnd_append_break] at ht
      split at ht
      · have hm : '\n' ∈ Text.trimEnd s := ht ▸ List.mem_append_right s List.mem_cons_self
        exact absurd (Text.mem_of_mem_dropEndWhile hm) hs
      · next hne =>
        have hrest : Text.trimEnd t = t := (List.cons.inj (List.append_cancel_left ht)).2
        rw [mapLines_append_break hs, Text.trimEnd_append_break,
          if_neg fun he => hne ((trimEnd_mapLines_eq_nil_iff t).mp he), ih hrest]

theorem restyle_eq_self_iff (ht : Text.trim t = t) :
    style.restyle t = t ↔ ∀ r ∈ t.rows, style.Stays r := by
  obtain ⟨hhead, hlast⟩ := Text.trim_eq_self_iff.mp ht
  have hrestyle : style.restyle t = Text.mapLines style.restyleLine t := by
    show Text.trimEnd (Text.trimStart (Text.mapLines style.restyleLine t)) = _
    rw [trimStart_mapLines (Text.trimStart_eq_self hhead),
      trimEnd_mapLines (Text.trimEnd_eq_self hlast)]
  rw [hrestyle, ← Text.rows_injective.eq_iff,
    Text.rows_mapLines (restyleLine_nil style) fun _ => not_mem_restyleLine]
  constructor
  · intro h
    exact List.map_inj_left.mp (h.trans (List.map_id _).symm)
  · intro h
    exact (List.map_inj_left.mpr h).trans (List.map_id _)

/-! ## Headings that stay -/

/-- The style that leaves headings at their level. -/
abbrev inPlace (anchored : Bool) : HeadingStyle := ⟨false, anchored⟩

theorem apply_apply (anchored : Bool) (h : Heading) :
    (inPlace anchored).apply ((inPlace anchored).apply h) = (inPlace anchored).apply h := by
  cases anchored with
  | false => rfl
  | true => simp [apply, Option.or_assoc]

theorem printable_apply_of_ofLine? {h : Heading} (hr : '\n' ∉ r) (hh : Heading.ofLine? r = some h)
    (hbare : (style.apply h).anchor = none → (Heading.splitAnchor h.text).2 = none) :
    (style.apply h).Printable where
  level := level_apply_pos hh
  text_ne := (Heading.text_of_ofLine? hh).1
  trimmed := (Heading.text_of_ofLine? hh).2
  row := fun hm => hr (Heading.mem_of_ofLine? hh (.inl hm))
  anchor := by
    intro a ha
    rcases anchor_apply ha with ha | ⟨-, ha⟩
    · obtain ⟨body, -, -, -, -, rfl⟩ := Heading.ofLine?_eq_some_iff.mp hh
      exact (Heading.splitAnchor_eq_some_iff.mp (Prod.ext rfl ha)).2
    · exact fun c hc => (inner_of_mem_slugAnchor? ha hc).1
  bare := hbare

/-- The line of a restyled heading stays unless the heading has no anchor and its text ends in a
loose group. -/
theorem restyleLine_line_apply_iff (anchored : Bool) {h : Heading} (hr : '\n' ∉ r)
    (hh : Heading.ofLine? r = some h) :
    (inPlace anchored).restyleLine ((inPlace anchored).apply h).line =
        ((inPlace anchored).apply h).line ↔
      (((inPlace anchored).apply h).anchor = none → ¬ Heading.LooseGroup h.text) := by
  by_cases hbare : ((inPlace anchored).apply h).anchor = none → (Heading.splitAnchor h.text).2 = none
  · -- the heading comes back from its line
    have hp := printable_apply_of_ofLine? hr hh hbare
    refine iff_of_true ?_ fun ha => Heading.not_looseGroup_of_none (hbare ha)
    rw [restyleLine_of_some (Heading.ofLine?_line hp), apply_apply]
  · -- the text ends in a group, which is an anchor the second time
    obtain ⟨hnone, hgroup⟩ := Classical.not_imp.mp hbare
    obtain ⟨a, ha⟩ := Option.ne_none_iff_exists'.mp hgroup
    generalize hf : (Heading.splitAnchor h.text).1 = front
    have hs : Heading.splitAnchor h.text = (front, some a) := Prod.ext hf ha
    have happly : (inPlace anchored).apply h = ⟨h.level, h.text, none⟩ := by
      rw [← hnone]
      rfl
    have hlevel : 0 < ((inPlace anchored).apply h).level := level_apply_pos hh
    rw [happly] at hlevel
    obtain ⟨hne, htrim⟩ := Heading.text_of_ofLine? hh
    have hread := Heading.ofLine?_line_group hlevel hne htrim
      (fun hm => hr (Heading.mem_of_ofLine? hh (.inl hm))) hs
    rw [happly, Heading.looseGroup_iff hs]
    split at hread
    · -- nothing comes before the group, so the line is no heading
      next hfront => exact iff_of_true (restyleLine_of_none hread) fun _ h => h.1 hfront
    · next hfront =>
      have hkeep : (inPlace anchored).apply ⟨h.level, Text.trim front, some a⟩ =
          ⟨h.level, Text.trim front, some a⟩ := by
        cases anchored with
        | false => rfl
        | true => rfl
      rw [restyleLine_of_some hread, hkeep, Heading.line_group_iff hs]
      constructor
      · intro hspace _ hloose
        exact hloose.2 hspace
      · intro hloose
        by_contra hspace
        exact hloose rfl ⟨hfront, hspace⟩

/-! ## Restyling twice -/

theorem forall_headings_iff {P : Heading → Prop} :
    (∀ h ∈ headings t, P h) ↔ ∀ r ∈ t.rows, ∀ h, Heading.ofLine? r.dropReturn = some h → P h := by
  rw [headings, filterMap_lines_rows rfl]
  simp only [List.mem_flatMap, Option.mem_toList, forall_exists_index, and_imp]
  exact ⟨fun hall r hr h hh => hall h r hr hh, fun hall h r hr hh => hall r hr h hh⟩

theorem forall_head?_lines_iff (t : Text) :
    (∀ l ∈ (lines t).head?, style.restyleLine l.body = l.body) ↔
      ∀ r ∈ t.rows.head?, style.Stays r := by
  induction t using Text.rowInduction with
  | last s hs =>
      rw [Text.rows_of_row hs]
      by_cases hne : s = []
      · subst hne
        simp [lines, stays_nil]
      · simp [lines_row hs hne, stays_iff]
  | cut s t hs _ =>
      rw [lines_row_append_break hs, Text.rows_append_break, Text.rows_of_row hs]
      simp [stays_iff]

/-- Restyling twice, without moving headings down, is restyling once exactly if no heading that is
left without an anchor ends in a loose group, and, where blanks are trimmed off the first line, what
is left of it is no heading or is a heading in the style already. -/
theorem restyle_restyle_iff (anchored : Bool) (t : Text) :
    (inPlace anchored).restyle ((inPlace anchored).restyle t) = (inPlace anchored).restyle t ↔
      (∀ h ∈ headings t, ((inPlace anchored).apply h).anchor = none →
        ¬ Heading.LooseGroup h.text) ∧
      (t.Indented → ∀ l ∈ (lines (Text.trim t)).head?,
        (inPlace anchored).restyleLine l.body = l.body) := by
  have htrim : Text.trim ((inPlace anchored).restyle t) = (inPlace anchored).restyle t :=
    Text.trim_trim _
  rw [restyle_eq_self_iff htrim, forall_rows_restyle, forall_head?_lines_iff, forall_headings_iff]
  refine and_congr_left fun _ => forall₂_congr fun r hr => ?_
  rw [stays_row_iff]
  have hrow : '\n' ∉ r.dropReturn :=
    fun hm => Text.not_mem_of_mem_rows hr (Text.mem_of_mem_dropReturn hm)
  exact forall₂_congr fun h hh => restyleLine_line_apply_iff anchored hrow hh

/-- An indented line is no heading at first, and one in another form when its blanks are gone. -/
theorem restyle_restyle_indented :
    (inPlace false).restyle ((inPlace false).restyle "  #  A".toList) ≠
      (inPlace false).restyle "  #  A".toList := by decide

/-- A no-break space behind a group keeps it from being read as an anchor once. -/
example : (inPlace false).restyle "# A\x7bx\x7d\u00a0".toList = "# A\x7bx\x7d".toList ∧
    (inPlace false).restyle "# A\x7bx\x7d".toList = "# A \x7bx\x7d".toList := by decide

end HeadingStyle
end Compendium
