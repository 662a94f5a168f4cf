/-
# `Compendium.Proofs.Draft.Reading` — what is found in a spliced text

Splicing puts texts together at breaks, and cuts nothing but breaks and the blanks at the ends.  So
what a reading finds in the result is what it finds in the rows of the text, with what it finds in
the content of a directive in the place of that directive (`shows_splice`).

The draft is the reason why this needs an argument.  How a section joins it depends on the joint,
and a section is written behind the draft without a break only where the joint is plain.  After a
directive has been dealt with, that is so only if nothing has been written (`place_text_eq_nil`);
in every other case a break is put in between.
-/
import Compendium.Proofs.Text.Reading
import Compendium.Proofs.Walk.Steady

namespace Compendium

variable {β : Type} {R : Reading β} {content : Directive → Option Text} {inner : Directive → List β}

namespace Draft

/-- After a directive the next section is written as it stands only if nothing is written yet. -/
theorem place_text_eq_nil {d : Draft} {content : Option Text}
    (h : (d.place content).joint = .plain) : (d.place content).text = [] := by
  cases content with
  | some x => cases h
  | none =>
      simp only [place] at h ⊢
      by_cases hd : d.joint = .plain ∧ d.text ≠ []
      · rw [if_pos hd] at h
        cases h
      · rw [if_neg hd] at h ⊢
        by_contra hne
        exact hd ⟨h, hne⟩

theorem shows_place {d : Draft} {content : Option Text} {a b : List β} (hd : R.Shows d.text a)
    (hc : ∀ x, content = some x → R.Shows x b) (hn : content = none → b = []) :
    R.Shows (d.place content).text (a ++ b) := by
  cases content with
  | none =>
      rw [hn rfl, List.append_nil]
      simp only [place]
      split
      · exact hd
      · exact hd
  | some x =>
      have hx := (hc x rfl).trim
      simp only [place]
      by_cases he : (Text.trim x).isEmpty = true
      · rw [if_pos he]
        rw [List.isEmpty_iff.mp he] at hx
        rw [← hx.found, R.across_nil, List.append_nil]
        exact hd
      · rw [if_neg he, List.append_assoc]
        exact hd.append hx.break_cons

theorem add_of_ne_plain {d : Draft} (hj : d.joint ≠ .plain) (s : Text) :
    d.add s =
      if (s.dropWhile isBreak).isEmpty then d
      else ⟨d.text ++ (if d.joint = .apart ∨ (s.dropWhile isBreak).length + 1 < s.length
        then ['\n', '\n'] else ['\n']) ++ s.dropWhile isBreak, .plain⟩ := by
  cases hd : d.joint with
  | plain => exact absurd hd hj
  | apart => simp only [add, hd]
  | close => simp only [add, hd]

theorem shows_add {d : Draft} {s : Text} {a b : List β} (hp : d.joint = .plain → d.text = [])
    (hd : R.Shows d.text a) (hs : R.Shows s b) : R.Shows (d.add s).text (a ++ b) := by
  -- behind a directive a section adds its text without the breaks in front of it
  have hjoin (hj : d.joint ≠ .plain) : R.Shows (d.add s).text (a ++ b) := by
    have hrest := hs.dropWhile fun _ => isBlank_of_isBreak
    rw [add_of_ne_plain hj]
    by_cases he : (s.dropWhile isBreak).isEmpty = true
    · rw [if_pos he]
      rw [List.isEmpty_iff.mp he] at hrest
      rw [← hrest.found, R.across_nil, List.append_nil]
      exact hd
    · rw [if_neg he, List.append_assoc]
      split
      · exact hd.append hrest.break_cons
      · exact hd.append hrest
  cases hj : d.joint with
  | plain =>
      have ha := hd.found
      rw [hp hj, R.across_nil] at ha
      rw [← ha, List.nil_append]
      simp only [add, hj, hp hj, List.nil_append]
      exact hs
  | apart => exact hjoin (hj ▸ nofun)
  | close => exact hjoin (hj ▸ nofun)

/-- What is found in a draft that is carried on: what was found before, then what is found in each
content and in the section behind it. -/
theorem shows_splice {draft : Draft} {rest : List (Directive × Text)} {a : List β}
    (hd : R.Shows draft.text a)
    (hc : ∀ x ∈ rest, ∀ t, content x.1 = some t → R.Shows t (inner x.1))
    (hn : ∀ x ∈ rest, content x.1 = none → inner x.1 = [])
    (hg : ∀ x ∈ rest, R.Shows x.2 (R.across x.2)) :
    R.Shows (draft.splice content rest).text
      (a ++ rest.flatMap fun x => inner x.1 ++ R.across x.2) := by
  induction rest generalizing draft a with
  | nil =>
      rw [List.flatMap_nil, List.append_nil]
      exact hd
  | cons x rest ih =>
      have hplace : R.Shows (draft.cut.place (content x.1)).text (a ++ inner x.1) :=
        shows_place hd.dropBreaks (hc x List.mem_cons_self) (hn x List.mem_cons_self)
      have hadd := shows_add place_text_eq_nil hplace (hg x List.mem_cons_self)
      have := ih hadd (fun y hy => hc y (List.mem_cons_of_mem _ hy))
        (fun y hy => hn y (List.mem_cons_of_mem _ hy)) fun y hy => hg y (List.mem_cons_of_mem _ hy)
      simp only [List.flatMap_cons, List.append_assoc] at this ⊢
      exact this

end Draft

/-! ## The sections of a text -/

theorem Directive.ofLine?_of_head? {r : Text} (h : r.head? = some '#') :
    Directive.ofLine? r = none := by
  obtain ⟨u, rfl⟩ := List.head?_eq_some_iff.mp h
  rfl

namespace Reading

/-- What is found in a row, where `inner` says what is found in the place of a directive. -/
def atRow (R : Reading β) (inner : Directive → List β) (r : Text) : List β :=
  match Directive.ofLine? r with
  | some d => inner d
  | none => R.find r

def FitsBeside (R : Reading β) (t : Text) : Prop :=
  ∀ r ∈ t.rows, Directive.ofLine? r = none → R.Fit r

end Reading

/-- What the sections of a text show: what is found in its rows. -/
structure SectionsShow (R : Reading β) (inner : Directive → List β) (s : Sections) (out : List β) :
    Prop where
  lead : R.Shows s.lead (R.across s.lead)
  rest : ∀ x ∈ s.rest, R.Shows x.2 (R.across x.2)
  found : R.across s.lead ++ (s.rest.flatMap fun x => inner x.1 ++ R.across x.2) = out

theorem sectionsShow_nil : SectionsShow R inner ⟨[], []⟩ [] where
  lead := R.across_nil ▸ R.shows_nil
  rest := fun _ hx => absurd hx List.not_mem_nil
  found := by rw [List.flatMap_nil, List.append_nil, R.across_nil]

theorem SectionsShow.push {s : Sections} {out : List β} (h : SectionsShow R inner s out) {r : Text}
    (hr : '\n' ∉ r) (hfit : Directive.ofLine? r = none → R.Fit r) :
    SectionsShow R inner (s.push ⟨r, .lf⟩) (R.atRow inner r ++ out) := by
  simp only [Sections.push, Reading.atRow]
  cases hd : Directive.ofLine? r with
  | some d =>
      have hacross : R.across ('\n' :: s.lead) = R.across s.lead := h.lead.break_cons.found
      refine ⟨R.across_nil ▸ R.shows_nil, ?_, ?_⟩
      · exact List.forall_mem_cons.mpr ⟨hacross ▸ h.lead.break_cons, h.rest⟩
      · simp only [R.across_nil, List.nil_append, List.flatMap_cons, Ending.text,
          List.singleton_append, hacross, List.append_assoc, h.found]
  | none =>
      have hrow : R.Shows (r ++ '\n' :: s.lead) (R.find r ++ R.across s.lead) :=
        (R.shows_row hr (hfit hd)).append h.lead
      simp only [Line.text, Ending.text, List.append_assoc, List.singleton_append]
      refine ⟨hrow.found.symm ▸ hrow, h.rest, ?_⟩
      rw [hrow.found, List.append_assoc, h.found]

theorem sectionsShow_last {r : Text} (hr : '\n' ∉ r) (hfit : Directive.ofLine? r = none → R.Fit r) :
    SectionsShow R inner (Sections.push ⟨r, .none⟩ ⟨[], []⟩) (R.atRow inner r) := by
  simp only [Sections.push, Reading.atRow]
  cases hd : Directive.ofLine? r with
  | some d =>
      refine ⟨R.across_nil ▸ R.shows_nil, ?_, ?_⟩
      · exact List.forall_mem_cons.mpr
          ⟨R.across_nil ▸ R.shows_nil, fun _ hx => absurd hx List.not_mem_nil⟩
      · simp only [R.across_nil, List.nil_append, List.flatMap_cons, List.flatMap_nil,
          List.append_nil, Ending.text]
  | none =>
      have hrow := R.shows_row hr (hfit hd)
      simp only [Line.text, Ending.text, List.append_nil]
      refine ⟨hrow.found.symm ▸ hrow, fun _ hx => absurd hx List.not_mem_nil, ?_⟩
      rw [hrow.found, List.flatMap_nil, List.append_nil]

theorem sectionsShow_sections {t : Text} (ht : '\r' ∉ t) (hfit : R.FitsBeside t) :
    SectionsShow R inner (sections t) (t.rows.flatMap (R.atRow inner)) := by
  induction t using Text.rowInduction with
  | last r hr =>
      have hf := hfit r (by rw [Text.rows_of_row hr]; exact List.mem_singleton_self r)
      rw [Text.rows_of_row hr, List.flatMap_singleton]
      by_cases hne : r = []
      · subst hne
        rw [show R.atRow inner [] = [] from R.find_nil]
        exact sectionsShow_nil
      · rw [sections, lines_of_row hr ht hne, List.foldr_cons, List.foldr_nil]
        exact sectionsShow_last hr hf
  | cut r t hr ih =>
      simp only [List.mem_append, List.mem_cons, not_or] at ht
      simp only [Reading.FitsBeside, Text.rows_append_break, Text.rows_of_row hr,
        List.singleton_append, List.forall_mem_cons] at hfit
      have := ih ht.2.2 hfit.2
      rw [sections] at this ⊢
      rw [lines_append_break hr ht.1, List.foldr_cons, Text.rows_append_break, Text.rows_of_row hr,
        List.singleton_append, List.flatMap_cons]
      exact this.push hr hfit.1

/-- What is found in a spliced text is what is found in its rows, with what is found in the content
of each directive in the place of the directive. -/
theorem Text.shows_splice {t : Text} (ht : '\r' ∉ t) (hfit : R.FitsBeside t)
    (hc : ∀ d ∈ directives t, ∀ x, content d = some x → R.Shows x (inner d))
    (hn : ∀ d ∈ directives t, content d = none → inner d = []) :
    R.Shows (t.splice content) (t.rows.flatMap (R.atRow inner)) := by
  have hs : SectionsShow R inner (sections t) (t.rows.flatMap (R.atRow inner)) :=
    sectionsShow_sections ht hfit
  have hlead : R.Shows (Draft.empty.add (sections t).lead).text (R.across (sections t).lead) :=
    Draft.shows_add (a := []) (fun _ => rfl) R.shows_nil hs.lead
  rw [← hs.found]
  exact (Draft.shows_splice hlead (fun x hx => hc x.1 (mem_directives_of_mem_rest hx))
    (fun x hx => hn x.1 (mem_directives_of_mem_rest hx)) hs.rest).trim

end Compendium
