/-
# `Compendium.Proofs.Text.Reading` — finding things in the rows of a text

Assembling cuts texts at breaks, joins them at breaks, and trims them again and again.  What one
wants to know of the result is of one kind: going through its rows in order, which non-blank lines,
which headings are there?  A `Reading` is such a question.  It finds things in a row, and it may be
meant for some rows only, the ones that `Fit`; but a fit row can lose blanks at either end, stays
fit, and the same is found in it.

`R.Shows t out` says that all rows of `t` are fit and that `out` is found in them.  It is kept by
trimming, by cutting off breaks and by joining at breaks, and these are all the moves there are.

Trimming is where the laws are needed.  It takes whole rows away, in which nothing is found since
`find [] = []`, and it shortens the first and the last row that are left.

Where one only wants to know what rows there are, not what is in them, a class of rows will do that
is `Kept` by losing blanks: it is a reading that finds nothing (`Reading.ofKept`).
-/
import Compendium.Proofs.Text.Row
import Compendium.Proofs.Text.Trim

namespace Compendium

/-- What is found in a row of a text, for rows whose blanks at the ends make no difference. -/
structure Reading (β : Type) where
  find : Text → List β
  Fit : Text → Prop
  find_nil : find [] = []
  fit_nil : Fit []
  fit_tail : ∀ {c : Char} {r : Text}, isBlank c = true → Fit (c :: r) → Fit r
  fit_init : ∀ {c : Char} {r : Text}, isBlank c = true → Fit (r ++ [c]) → Fit r
  find_tail : ∀ {c : Char} {r : Text}, isBlank c = true → Fit (c :: r) → find (c :: r) = find r
  find_init : ∀ {c : Char} {r : Text}, isBlank c = true → Fit (r ++ [c]) →
    find (r ++ [c]) = find r

namespace Reading

variable {β : Type} {R : Reading β}

/-- What is found in the rows of a text, in order. -/
def across (R : Reading β) (t : Text) : List β := t.rows.flatMap R.find

/-- All rows of the text are fit, and `out` is found in them. -/
structure Shows (R : Reading β) (t : Text) (out : List β) : Prop where
  fit : ∀ r ∈ t.rows, R.Fit r
  found : R.across t = out

@[simp] theorem across_nil (R : Reading β) : R.across [] = [] := by
  simp only [across, Text.rows_nil, List.flatMap_singleton, R.find_nil]

theorem across_row {r : Text} (hr : '\n' ∉ r) : R.across r = R.find r := by
  rw [across, Text.rows_of_row hr, List.flatMap_singleton]

theorem across_append_break (s t : Text) :
    R.across (s ++ '\n' :: t) = R.across s ++ R.across t := by
  rw [across, Text.rows_append_break, List.flatMap_append]
  rfl

theorem shows_nil : R.Shows [] [] where
  fit := fun _ hr => List.mem_singleton.mp hr ▸ R.fit_nil
  found := R.across_nil

theorem shows_row {r : Text} (hr : '\n' ∉ r) (h : R.Fit r) : R.Shows r (R.find r) where
  fit := fun q hq => by
    rw [Text.rows_of_row hr] at hq
    exact List.mem_singleton.mp hq ▸ h
  found := across_row hr

/-! ## Joining and cutting at a break -/

theorem Shows.append {s t : Text} {a b : List β} (hs : R.Shows s a) (ht : R.Shows t b) :
    R.Shows (s ++ '\n' :: t) (a ++ b) where
  fit := fun r hr => by
    rw [Text.rows_append_break] at hr
    rcases List.mem_append.mp hr with hr | hr
    · exact hs.fit r hr
    · exact ht.fit r hr
  found := by rw [across_append_break, hs.found, ht.found]

theorem Shows.left {s t : Text} {out : List β} (h : R.Shows (s ++ '\n' :: t) out) :
    R.Shows s (R.across s) where
  fit := fun r hr => h.fit r (Text.rows_append_break s t ▸ List.mem_append_left _ hr)
  found := rfl

theorem Shows.right {s t : Text} {out : List β} (h : R.Shows (s ++ '\n' :: t) out) :
    R.Shows t (R.across t) where
  fit := fun r hr => h.fit r (Text.rows_append_break s t ▸ List.mem_append_right _ hr)
  found := rfl

theorem Shows.break_cons {t : Text} {out : List β} (h : R.Shows t out) :
    R.Shows ('\n' :: t) out :=
  shows_nil.append h

/-! ## Losing blanks at the ends -/

theorem Shows.tail {c : Char} {t : Text} {out : List β} (h : R.Shows (c :: t) out)
    (hc : isBlank c = true) : R.Shows t out := by
  by_cases hn : c = '\n'
  · subst hn
    have hfound := h.found
    rw [← List.nil_append ('\n' :: t), across_append_break, across_nil, List.nil_append] at hfound
    exact ⟨(h.right (s := [])).fit, hfound⟩
  · have hfit := h.fit
    have hfound := h.found
    obtain ⟨r, rs, hr⟩ := List.exists_cons_of_ne_nil (Text.rows_ne_nil t)
    rw [across, Text.rows_cons hn hr] at hfound
    rw [Text.rows_cons hn hr] at hfit
    obtain ⟨hfirst, hrest⟩ := List.forall_mem_cons.mp hfit
    rw [List.flatMap_cons, R.find_tail hc hfirst] at hfound
    refine ⟨hr ▸ List.forall_mem_cons.mpr ⟨R.fit_tail hc hfirst, hrest⟩, ?_⟩
    rw [across, hr]
    exact hfound

theorem Shows.init {c : Char} {t : Text} {out : List β} (h : R.Shows (t ++ [c]) out)
    (hc : isBlank c = true) : R.Shows t out := by
  by_cases hn : c = '\n'
  · subst hn
    have hfound := h.found
    rw [across_append_break, across_nil, List.append_nil] at hfound
    exact ⟨h.left.fit, hfound⟩
  · obtain ⟨rs, r, h₁, h₂⟩ := Text.rows_concat hn t
    have hfit := h.fit
    have hfound := h.found
    rw [across, h₂] at hfound
    rw [h₂] at hfit
    have hlast : R.Fit (r ++ [c]) := hfit _ (List.mem_append_right _ List.mem_cons_self)
    rw [List.flatMap_append, List.flatMap_singleton, R.find_init hc hlast] at hfound
    refine ⟨fun q hq => ?_, ?_⟩
    · rw [h₁] at hq
      rcases List.mem_append.mp hq with hq | hq
      · exact hfit q (List.mem_append_left _ hq)
      · exact List.mem_singleton.mp hq ▸ R.fit_init hc hlast
    · rw [across, h₁, List.flatMap_append, List.flatMap_singleton, hfound]

theorem Shows.dropWhile {p : Char → Bool} (hp : ∀ c, p c = true → isBlank c = true) {t : Text}
    {out : List β} (h : R.Shows t out) : R.Shows (t.dropWhile p) out := by
  induction t with
  | nil => exact h
  | cons c t ih =>
      rw [List.dropWhile_cons]
      cases hc : p c with
      | true => exact ih (h.tail (hp c hc))
      | false => exact h

theorem Shows.dropEndWhile {p : Char → Bool} (hp : ∀ c, p c = true → isBlank c = true)
    {t : Text} {out : List β} (h : R.Shows t out) : R.Shows (Text.dropEndWhile p t) out := by
  induction t using List.reverseRecOn with
  | nil => exact h
  | append_singleton t c ih =>
      rw [Text.dropEndWhile_concat]
      cases hc : p c with
      | true => exact ih (h.init (hp c hc))
      | false => exact h

theorem Shows.dropBreaks {t : Text} {out : List β} (h : R.Shows t out) :
    R.Shows (Text.dropBreaks t) out :=
  h.dropEndWhile fun _ => isBlank_of_isBreak

theorem Shows.trimEnd {t : Text} {out : List β} (h : R.Shows t out) :
    R.Shows (Text.trimEnd t) out :=
  h.dropEndWhile fun _ => id

theorem Shows.trim {t : Text} {out : List β} (h : R.Shows t out) : R.Shows (Text.trim t) out :=
  (h.dropWhile fun _ => id).trimEnd

end Reading

/-! ## Classes of rows -/

/-- A class of rows in which a row stays that loses a blank at either end. -/
structure Kept (P : Text → Prop) : Prop where
  nil : P []
  tail : ∀ {c : Char} {r : Text}, isBlank c = true → P (c :: r) → P r
  init : ∀ {c : Char} {r : Text}, isBlank c = true → P (r ++ [c]) → P r

variable {P : Text → Prop}

/-- What is said of a trimmed row is said of the row, whatever blanks it has at its ends. -/
theorem kept_trim (h : P []) : Kept fun r => P (Text.trim r) where
  nil := h
  tail := fun hc h => Text.trim_cons_of_blank hc _ ▸ h
  init := fun hc h => Text.trim_concat_of_blank hc _ ▸ h

/-- The rows of a class, in which nothing is to be found. -/
def Reading.ofKept (h : Kept P) : Reading Empty where
  find _ := []
  Fit := P
  find_nil := rfl
  fit_nil := h.nil
  fit_tail := h.tail
  fit_init := h.init
  find_tail := fun _ _ => rfl
  find_init := fun _ _ => rfl

theorem Kept.shows (h : Kept P) {t : Text} (ht : ∀ r ∈ t.rows, P r) :
    (Reading.ofKept h).Shows t [] where
  fit := ht
  found := List.flatMap_eq_nil_iff.mpr fun _ _ => rfl

/-! ## Content lines

The content lines of a text are its rows that are not blank, trimmed.  They are a reading for which
every row is fit, so blank lines and blanks at the ends of a line make no difference to them. -/

namespace Text

/-- The rows of a text that are not blank, trimmed. -/
def contentLines (t : Text) : List Text := (t.rows.map trim).filter (· ≠ [])

theorem contentLines_of_row {r : Text} (hr : '\n' ∉ r) :
    contentLines r = if trim r = [] then [] else [trim r] := by
  simp only [contentLines, rows_of_row hr, List.map_cons, List.map_nil]
  by_cases he : trim r = []
  · simp [he]
  · simp [he]

theorem contentLines_eq_of_trim {r s : Text} (hr : '\n' ∉ r) (hs : '\n' ∉ s)
    (h : trim r = trim s) : contentLines r = contentLines s := by
  rw [contentLines_of_row hr, contentLines_of_row hs, h]

end Text

def Reading.contentLines : Reading Text where
  find r := if Text.trim r = [] then [] else [Text.trim r]
  Fit _ := True
  find_nil := rfl
  fit_nil := trivial
  fit_tail := fun _ _ => trivial
  fit_init := fun _ _ => trivial
  find_tail := fun hc _ => by rw [Text.trim_cons_of_blank hc]
  find_init := fun hc _ => by rw [Text.trim_concat_of_blank hc]

theorem Reading.across_contentLines (t : Text) :
    Reading.contentLines.across t = t.contentLines := by
  simp only [across, Text.contentLines]
  induction t.rows with
  | nil => rfl
  | cons r rs ih =>
      rw [List.flatMap_cons, ih, List.map_cons, List.filter_cons]
      by_cases he : Text.trim r = []
      · simp [contentLines, he]
      · simp [contentLines, he]

theorem Reading.shows_contentLines (t : Text) : Reading.contentLines.Shows t t.contentLines where
  fit := fun _ _ => trivial
  found := across_contentLines t

namespace Text

theorem rowwise_contentLines : Rowwise contentLines := by
  have h := rowwise_flatMap Reading.contentLines.find_nil
  have heq : (fun t => t.rows.flatMap Reading.contentLines.find) = contentLines :=
    funext Reading.across_contentLines
  rwa [heq] at h

theorem contentLines_eq_flatMap_rows (t : Text) : contentLines t = t.rows.flatMap contentLines := by
  rw [← Reading.across_contentLines, Reading.across]
  refine List.flatMap_congr fun r hr => ?_
  rw [contentLines_of_row (not_mem_of_mem_rows hr)]
  rfl

theorem contentLines_eq_of_shows {s t : Text} (h : Reading.contentLines.Shows s t.contentLines) :
    contentLines s = contentLines t :=
  (Reading.across_contentLines s).symm.trans h.found

theorem contentLines_cons_of_blank {c : Char} (hc : isBlank c = true) (t : Text) :
    contentLines (c :: t) = contentLines t :=
  (contentLines_eq_of_shows ((Reading.shows_contentLines (c :: t)).tail hc)).symm

theorem contentLines_concat_of_blank {c : Char} (hc : isBlank c = true) (t : Text) :
    contentLines (t ++ [c]) = contentLines t :=
  (contentLines_eq_of_shows ((Reading.shows_contentLines (t ++ [c])).init hc)).symm

theorem contentLines_trim (t : Text) : contentLines (trim t) = contentLines t :=
  contentLines_eq_of_shows (Reading.shows_contentLines t).trim

theorem contentLines_dropWhile {p : Char → Bool} (hp : ∀ c, p c = true → isBlank c = true)
    (t : Text) : contentLines (t.dropWhile p) = contentLines t :=
  contentLines_eq_of_shows ((Reading.shows_contentLines t).dropWhile hp)

end Text

end Compendium
