/-
# `Compendium.Proofs.Contents.Reading` — markers and lists of contents, seen by a reading

A marker holds no `#`, and it is cut out at breaks.  So for a reading that finds nothing where there
is no `#`, taking out markers takes nothing away (`Shows.clear`), and putting in a list of contents
adds nothing but what the list shows (`Shows.place`).

Nothing is said here about what a list shows.  Its lines have to be looked at for each reading, and
`shows_ofText` is how they are put together.
-/
import Compendium.Proofs.Contents.Entry
import Compendium.Proofs.Contents.Marker
import Compendium.Proofs.Heading.Reading

namespace Compendium

variable {β : Type} {R : Reading β} {s t list : Text} {a b out : List β}

theorem Contents.splitBelowTitle?_cons {l : Line} {ls : List Line} {above below : Text}
    (h : splitBelowTitle? (l :: ls) = some (above, below)) :
    (above = l.body ∧ below = l.ending.text ++ ls.flatMap Line.text) ∨
      ∃ above', splitBelowTitle? ls = some (above', below) ∧ above = l.text ++ above' := by
  simp only [splitBelowTitle?] at h
  split at h
  · obtain ⟨rfl, rfl⟩ := Prod.mk.inj (Option.some.inj h)
    exact .inl ⟨rfl, rfl⟩
  · obtain ⟨⟨above', below'⟩, hsplit, he⟩ := Option.map_eq_some_iff.mp h
    obtain ⟨rfl, rfl⟩ := Prod.mk.inj he
    exact .inr ⟨above', hsplit, rfl⟩

/-- A text is split below its first heading at a break, or at its end. -/
theorem Contents.splitBelowTitle?_eq_some (ht : '\r' ∉ t) {above below : Text}
    (h : splitBelowTitle? (lines t) = some (above, below)) :
    t = above ++ below ∧ (below = [] ∨ ∃ u, below = '\n' :: u) := by
  induction t using Text.rowInduction generalizing above with
  | last r hr =>
      by_cases hne : r = []
      · subst hne
        cases h
      · rw [lines_of_row hr ht hne] at h
        rcases splitBelowTitle?_cons h with ⟨rfl, rfl⟩ | ⟨above', hsplit, -⟩
        · exact ⟨(List.append_nil _).symm, .inl rfl⟩
        · cases hsplit
  | cut r t hr ih =>
      simp only [List.mem_append, List.mem_cons, not_or] at ht
      rw [lines_append_break hr ht.1] at h
      rcases splitBelowTitle?_cons h with ⟨rfl, rfl⟩ | ⟨above', hsplit, rfl⟩
      · rw [flatMap_text_lines]
        exact ⟨rfl, .inr ⟨t, rfl⟩⟩
      · obtain ⟨ht', hbelow⟩ := ih ht.2.2 hsplit
        refine ⟨?_, hbelow⟩
        rw [ht']
        simp only [Line.text, Ending.text, List.append_assoc, List.cons_append, List.nil_append]

theorem Contents.isBlank_of_isLineEnd {c : Char} (h : isLineEnd c = true) : isBlank c = true := by
  simp only [isLineEnd, Bool.or_eq_true, beq_iff_eq] at h
  rcases h with rfl | rfl
  · decide
  · decide

namespace Reading

/-- Nothing is found in a row without `#`. -/
def NeedsMark (R : Reading β) : Prop := ∀ r : Text, '#' ∉ r → R.find r = []

theorem needsMark_ofKept {P : Text → Prop} (hP : Kept P) : (ofKept hP).NeedsMark := fun _ _ => rfl

theorem NeedsMark.across (hR : R.NeedsMark) (ht : '#' ∉ t) : R.across t = [] :=
  List.flatMap_eq_nil_iff.mpr fun r hr => hR r ((Text.not_mem_iff (by decide)).mp ht r hr)

/-! ## Taking out markers -/

theorem Shows.around (hR : R.NeedsMark) (h : R.Shows t out) {before after : Text}
    (hf : Marker.first? t = some (before, after)) :
    ∃ a b, R.Shows before a ∧ R.Shows after b ∧ a ++ b = out := by
  simp only [Marker.first?, Option.map_eq_some_iff, Prod.exists, Prod.mk.injEq] at hf
  obtain ⟨before, after, hfind, rfl, rfl⟩ := hf
  obtain ⟨l, rest, rfl, hl, rfl, hend, hbefore⟩ := Marker.find_eq_some hfind
  -- first the text is cut behind the marker, then before it
  have hfront : ∃ a b, R.Shows (before ++ l) a ∧ R.Shows (rest.dropWhile isBreak) b ∧
      a ++ b = out := by
    rcases hend with rfl | ⟨u, rfl⟩
    · rw [List.append_nil] at h
      exact ⟨out, [], h, shows_nil, List.append_nil out⟩
    · refine ⟨_, _, h.left, h.right.break_cons.dropWhile fun _ => isBlank_of_isBreak, ?_⟩
      rw [← across_append_break, h.found]
  obtain ⟨a, b, ha, hb, hab⟩ := hfront
  refine ⟨a, b, ?_, hb, hab⟩
  rcases hbefore with ⟨rfl, -⟩ | ⟨u, rfl⟩
  · rw [← ha.found, List.nil_append, hR.across hl.not_mem]
    exact shows_nil
  · rw [List.append_assoc, List.singleton_append] at ha
    have hfound := ha.found
    rw [across_append_break, hR.across hl.not_mem, List.append_nil] at hfound
    rw [Text.dropBreaks, Text.dropEndWhile_concat_of_pos _ rfl, ← hfound]
    exact ha.left.dropBreaks

theorem Shows.blankOut (hR : R.NeedsMark) (h : R.Shows t out) :
    R.Shows (Marker.blankOut t) out := by
  fun_induction Marker.blankOut t generalizing out with
  | case1 t hf => exact h
  | case2 t before after hf ih =>
      obtain ⟨a, b, ha, hb, rfl⟩ := h.around hR hf
      rw [List.append_assoc]
      exact ha.append (ih hb).break_cons

theorem Shows.clear (hR : R.NeedsMark) (h : R.Shows t out) : R.Shows (Marker.clear t) out :=
  (h.blankOut hR).trim

/-! ## Putting in a list of contents -/

theorem Shows.block (hs : R.Shows s a) (hl : R.Shows list []) (ht : R.Shows t b) :
    R.Shows (s ++ Contents.block list ++ t) (a ++ b) := by
  simp only [Contents.block]
  split
  · rw [List.append_assoc]
    exact hs.append ht.break_cons
  · simp only [List.append_assoc]
    exact hs.append (hl.append ht.break_cons).break_cons

/-- Putting in a list in which nothing is found changes nothing that is found. -/
theorem Shows.place (hR : R.NeedsMark) (h : R.Shows t out) (hl : R.Shows list [])
    (ht : '\r' ∉ t) : R.Shows (Contents.place list t) out := by
  simp only [Contents.place]
  split
  · next before after hf =>
    obtain ⟨a, b, ha, hb, rfl⟩ := h.around hR hf
    exact ha.block hl hb
  · split
    · exact h
    · split
      · next above below hsplit =>
        obtain ⟨rfl, rfl | ⟨u, rfl⟩⟩ := Contents.splitBelowTitle?_eq_some ht hsplit
        · rw [List.append_nil] at h
          rw [← List.append_nil out]
          exact h.block hl shows_nil
        · rw [← h.found, across_append_break]
          exact h.left.block hl
            (h.right.break_cons.dropWhile fun _ => Contents.isBlank_of_isLineEnd)
      · exact h

theorem shows_lines {es : List Entry} (he : ∀ e ∈ es, R.Shows e.line []) :
    R.Shows (es.flatMap fun e => e.line ++ ['\n']) [] := by
  induction es with
  | nil => exact shows_nil
  | cons e es ih =>
      rw [List.flatMap_cons, List.append_assoc]
      exact (he e List.mem_cons_self).append (ih fun e' he' => he e' (List.mem_cons_of_mem _ he'))

theorem shows_ofText (he : ∀ e ∈ entries (headings t), R.Shows e.line []) :
    R.Shows (Contents.ofText t) [] :=
  (shows_lines he).trimEnd

end Reading

/-! ## The headings around a list of contents

Headings need a `#`, and the lines of a list begin with a dash, indented or not.  So neither taking
out markers (`shows_clear`) nor putting in the list (`shows_place`) changes what headings a text
with plain rows shows. -/

variable {hs : List Heading}

theorem Heading.needsMark : Reading.heading.NeedsMark := fun r hr => by
  simp only [Reading.heading, ofLine?_of_not_mem hr, Option.toList_none]

theorem Marker.shows_clear (h : Reading.heading.Shows t hs) :
    Reading.heading.Shows (clear t) hs :=
  h.clear Heading.needsMark

theorem Entry.plain_line {e : Entry} (he : ∀ c ∈ e.line, isBlank c = true → c = ' ') :
    Heading.Plain e.line := by
  refine ⟨he, fun _ => ?_⟩
  rw [dropWhile_line rfl rfl]
  exact Heading.ofLine?_eq_none (by simp)

namespace Contents

theorem shows_ofText (h : Reading.heading.Shows t hs) : Reading.heading.Shows (ofText t) [] := by
  refine Reading.shows_ofText fun e he => ?_
  have hplain : Heading.Plain e.line := by
    refine Entry.plain_line fun c hc hb => ?_
    obtain ⟨r, hr, g, hg, htext, hanchor⟩ := exists_row_of_mem_entries he
    have hmem := Entry.mem_line_of_blank hb hc
    rw [htext, hanchor] at hmem
    rcases hmem with hspace | hmem
    · exact hspace
    · exact (h.fit r hr).1 c (Text.mem_of_mem_dropReturn (Heading.mem_of_ofLine? hg hmem)) hb
  have hrow := Reading.shows_row (R := Reading.heading) hplain.not_mem hplain
  simpa only [Reading.heading, Entry.ofLine?_line, Option.toList_none] using hrow

theorem shows_place (hl : Reading.heading.Shows list []) (h : Reading.heading.Shows t hs) :
    Reading.heading.Shows (place list t) hs :=
  h.place Heading.needsMark hl h.not_mem

end Contents

end Compendium
