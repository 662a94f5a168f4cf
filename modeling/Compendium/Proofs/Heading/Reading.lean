/-
# `Compendium.Proofs.Heading.Reading` — headings as a reading, and rows that show them

The heading of a row does not depend on spaces at the ends of the row, as long as no other blanks
are there and no heading comes to light when the row loses its indent.  Rows like that are `Plain`;
the headings of plain rows are a reading, so whatever is done to texts by joining and trimming
keeps them.

Restyling and trimming can be done in either order on plain rows (`alike_restyled`), so a prepared
text shows the headings of the trimmed text, each in its style, and the same directives in between
(`flatMap_rows_restyle`).
-/
import Compendium.Proofs.Draft.Reading
import Compendium.Proofs.Heading.Style
import Compendium.Proofs.Text.Alike

namespace Compendium

/-- A row whose only blanks are spaces, and which is no indented heading. -/
def Heading.Plain (r : Text) : Prop :=
  (∀ c ∈ r, isBlank c = true → c = ' ') ∧
    (r.head? = some ' ' → Heading.ofLine? (r.dropWhile (· == ' ')) = none)

namespace Heading

variable {r : Text} {c : Char}

theorem Plain.eq_space (h : Plain (c :: r)) (hc : isBlank c = true) : c = ' ' :=
  h.1 c List.mem_cons_self hc

theorem Plain.eq_space_concat (h : Plain (r ++ [c])) (hc : isBlank c = true) : c = ' ' :=
  h.1 c (List.mem_append_right _ List.mem_cons_self) hc

theorem Plain.isGap (h : Plain r) : ∀ c ∈ r, isBlank c = true → isGap c = true := by
  intro c hc hb
  rw [h.1 c hc hb]
  rfl

theorem Plain.tail (h : Plain (' ' :: r)) : Plain r := by
  refine ⟨fun c hc => h.1 c (List.mem_cons_of_mem _ hc), fun _ => ?_⟩
  have hindent := h.2 rfl
  rw [List.dropWhile_cons_of_pos rfl] at hindent
  exact hindent

theorem Plain.ofLine?_tail (h : Plain (' ' :: r)) : ofLine? r = none := by
  cases r with
  | nil => rfl
  | cons c u =>
      by_cases hc : c = ' '
      · subst hc
        exact ofLine?_eq_none (by simp)
      · have hindent := h.2 rfl
        have hne : ¬ (c == ' ') = true := fun he => hc (beq_iff_eq.mp he)
        rw [List.dropWhile_cons_of_pos rfl, List.dropWhile_cons_of_neg (p := (· == ' ')) hne]
          at hindent
        exact hindent

theorem Plain.init (h : Plain (r ++ [' '])) : Plain r := by
  refine ⟨fun c hc => h.1 c (List.mem_append_left _ hc), fun hhead => ?_⟩
  obtain ⟨u, rfl⟩ := List.head?_eq_some_iff.mp hhead
  have hindent := h.2 rfl
  rw [List.dropWhile_append] at hindent
  split at hindent
  · next he =>
    rw [List.isEmpty_iff.mp he]
    rfl
  · rwa [ofLine?_concat_of_gap rfl] at hindent

end Heading

/-- The heading of a row, if it is one. -/
def Reading.heading : Reading Heading where
  find r := (Heading.ofLine? r).toList
  Fit := Heading.Plain
  find_nil := rfl
  fit_nil := ⟨fun _ hc => absurd hc List.not_mem_nil, nofun⟩
  fit_tail := fun hc h => by
    obtain rfl := h.eq_space hc
    exact h.tail
  fit_init := fun hc h => by
    obtain rfl := h.eq_space_concat hc
    exact h.init
  find_tail := fun hc h => by
    obtain rfl := h.eq_space hc
    rw [h.ofLine?_tail, Heading.ofLine?_eq_none (by simp)]
  find_init := fun hc h => by
    obtain rfl := h.eq_space_concat hc
    rw [Heading.ofLine?_concat_of_gap rfl]

theorem Reading.Shows.not_mem {t : Text} {out : List Heading} (h : Reading.heading.Shows t out) :
    '\r' ∉ t := by
  intro hm
  obtain ⟨r, hr, hc⟩ := (Text.exists_mem_rows_iff (by decide)).mpr hm
  exact absurd ((h.fit r hr).1 _ hc (by decide)) (by decide)

theorem Reading.Shows.headings_eq {t : Text} {out : List Heading}
    (h : Reading.heading.Shows t out) : headings t = out := by
  rw [← h.found]
  exact filterMap_lines rfl h.not_mem

/-! ## Plain rows, trimmed -/

namespace Heading

variable {r : Text}

theorem Plain.not_mem (hr : Plain r) : '\n' ∉ r := fun hm =>
  absurd (hr.1 _ hm (by decide)) (by decide)

theorem plain_of_shows {o : Option Heading} (hr : '\n' ∉ r)
    (h : Reading.heading.Shows r o.toList) : Plain r ∧ ofLine? r = o := by
  have hfit := h.fit
  have hfound := h.found
  rw [Text.rows_of_row hr] at hfit
  rw [Reading.across_row hr] at hfound
  refine ⟨hfit r (List.mem_singleton_self r), ?_⟩
  have hhead := congrArg List.head? hfound
  simpa only [Reading.heading, Option.head?_toList] using hhead

theorem Plain.trimStart (hr : Plain r) :
    Plain (Text.trimStart r) ∧ ofLine? (Text.trimStart r) = ofLine? r := by
  have hshows := (Reading.shows_row (R := Reading.heading) hr.not_mem hr).dropWhile fun _ => id
  exact plain_of_shows (fun hm => hr.not_mem (Text.mem_of_mem_dropWhile hm)) hshows

theorem Plain.trimEnd (hr : Plain r) :
    Plain (Text.trimEnd r) ∧ ofLine? (Text.trimEnd r) = ofLine? r := by
  have hshows := (Reading.shows_row (R := Reading.heading) hr.not_mem hr).trimEnd
  exact plain_of_shows (fun hm => hr.not_mem (Text.mem_of_mem_dropEndWhile hm)) hshows

end Heading

/-! ## Plain rows, restyled -/

namespace HeadingStyle

variable {style : HeadingStyle} {r s t : Text}

/-- A plain row, and the row in the style. -/
def Restyles (style : HeadingStyle) (r s : Text) : Prop :=
  Heading.Plain r ∧ s = style.restyleLine r

theorem plain_restyleLine (hr : Heading.Plain r) : Heading.Plain (style.restyleLine r) := by
  cases hh : Heading.ofLine? r with
  | none => rwa [restyleLine_of_none hh]
  | some h =>
      refine ⟨fun c hc hb => ?_, fun hhead => ?_⟩
      · exact (mem_restyleLine_of_blank hb hc).elim (fun hc => hr.1 c hc hb) id
      · rw [head?_restyleLine_of_some hh] at hhead
        exact absurd hhead (by decide)

theorem trimStart_restyleLine (hr : Heading.Plain r) :
    Text.trimStart (style.restyleLine r) = style.restyleLine (Text.trimStart r) := by
  cases hh : Heading.ofLine? r with
  | none => rw [restyleLine_of_none hh, restyleLine_of_none (hr.trimStart.2.trans hh)]
  | some h =>
      rw [Heading.trimStart_of_mark (head?_restyleLine_of_some hh),
        Heading.trimStart_of_mark (Heading.head?_of_ofLine? hh)]

theorem trimEnd_restyleLine (hr : Heading.Plain r) :
    Text.trimEnd (style.restyleLine r) = style.restyleLine (Text.trimEnd r) := by
  cases hh : Heading.ofLine? r with
  | none => rw [restyleLine_of_none hh, restyleLine_of_none (hr.trimEnd.2.trans hh)]
  | some h =>
      rw [restyleLine_of_some hh, restyleLine_of_some (hr.trimEnd.2.trans hh)]
      exact trimEnd_line_apply hh

theorem alike_restyles (style : HeadingStyle) : Text.Alike style.Restyles where
  start := by
    rintro r s ⟨hr, rfl⟩
    exact ⟨hr.trimStart.1, trimStart_restyleLine hr⟩
  stop := by
    rintro r s ⟨hr, rfl⟩
    exact ⟨hr.trimEnd.1, trimEnd_restyleLine hr⟩
  blank := by
    rintro r s ⟨hr, rfl⟩
    cases hh : Heading.ofLine? r with
    | none => rw [restyleLine_of_none hh]
    | some h =>
        rw [Heading.trimStart_of_mark (head?_restyleLine_of_some hh),
          Heading.trimStart_of_mark (Heading.head?_of_ofLine? hh)]
        refine iff_of_false (fun he => ?_) (fun he => ?_)
        · exact absurd (he ▸ Heading.head?_of_ofLine? hh) nofun
        · exact absurd (he ▸ head?_restyleLine_of_some hh) nofun

theorem forall₂_restyles (ht : '\r' ∉ t) (hp : ∀ r ∈ t.rows, Heading.Plain r) :
    List.Forall₂ style.Restyles (Text.rows (Text.trim t)) (Text.rows (style.restyle t)) := by
  refine Text.forall₂_rows_trim (alike_restyles style) ?_
  rw [rows_restyled style ht, List.forall₂_map_right_iff, List.forall₂_same]
  exact fun r hr => ⟨hp r hr, rfl⟩

theorem plain_rows_restyle (ht : '\r' ∉ t) (hp : ∀ r ∈ t.rows, Heading.Plain r) :
    ∀ r ∈ Text.rows (style.restyle t), Heading.Plain r := by
  refine (Reading.Shows.trim (R := Reading.heading) ⟨fun r hr => ?_, rfl⟩).fit
  rw [rows_restyled style ht] at hr
  obtain ⟨q, hq, rfl⟩ := List.mem_map.mp hr
  exact plain_restyleLine (hp q hq)

/-- In the restyled text one finds the headings of the trimmed text, in the style, and the same
directives in between. -/
theorem flatMap_rows_restyle (style : HeadingStyle) (ht : '\r' ∉ t)
    (hp : ∀ r ∈ t.rows, Heading.Plain r) (inner : Directive → List Heading) :
    (Text.rows (style.restyle t)).flatMap (Reading.heading.atRow inner) =
      (Text.rows (Text.trim t)).flatMap fun r =>
        match Directive.ofLine? r with
        | some d => inner d
        | none => ((Heading.ofLine? r).map style.apply).toList := by
  refine (Text.flatMap_rows_eq ?_ (forall₂_restyles ht hp)).symm
  rintro r s ⟨hr, rfl⟩
  simp only [Reading.atRow, Reading.heading, ofLine?_restyleLine hr.isGap]
  cases hh : Heading.ofLine? r with
  | none =>
      have hline : style.restyleLine r = r := restyleLine_of_none hh
      cases hd : Directive.ofLine? r with
      | some d => simp only [hline, hd]
      | none => simp only [hline, hd]
  | some h =>
      rw [Directive.ofLine?_of_head? (head?_restyleLine_of_some hh),
        Directive.ofLine?_of_head? (Heading.head?_of_ofLine? hh)]

end HeadingStyle
end Compendium
