/-
# `Compendium.Proofs.Text.Tiling` — lines and what is between them make up the text

The lines of a text come with the bytes that they cover, and everything that goes through a text by
these bytes relies on them: what is between two lines, and behind the last one, has to be the ending
of a line and nothing else.  `Tiling` says all of this of a list of lines with their bytes, in terms
of slices of the text only, and `tiling_located` says that the lines of a text are a tiling.

The slices between the lines are the endings (`map_slice?_gaps`).  Which endings there are is known
from what follows each of them (`Line.Between`): only where the text is over can a line end without
a line feed.
-/
import Compendium.Proofs.Text.Located

namespace Compendium

/-- What is behind each stretch of a list, up to the next one, and behind the last one up to
`stop`. -/
def Span.gaps (stop : Nat) : List Span → List Span
  | [] => []
  | a :: rest => ⟨a.stop, rest.head?.elim stop Span.start⟩ :: gaps stop rest

/-- Lines with the bytes that they cover, and what follows each of them, make up a text. -/
structure Tiling (t : Text) (ls : List (Span × Text)) (endings : List Text) : Prop where
  /-- Only in the empty text there is no line. -/
  nil_iff : ls = [] ↔ t = []
  /-- The bytes of a line lie in the text and are those of the line. -/
  slice : ∀ x ∈ ls, x.1.start ≤ x.1.stop ∧ x.1.stop ≤ t.size ∧ t.slice? x.1 = some x.2
  row : ∀ x ∈ ls, '\n' ∉ x.2
  /-- Each line ends before the next one begins. -/
  order : ls.Pairwise fun x y => x.1.stop < y.1.start
  /-- The first line begins where the text begins. -/
  start : ∀ x, ls.head? = some x → x.1.start = 0
  /-- What follows a line, up to the next one or the end of the text. -/
  gaps : (Span.gaps t.size (ls.map Prod.fst)).map t.slice? = endings.map some
  between : ∀ e ∈ endings.dropLast, e = ['\n'] ∨ e = ['\r', '\n']
  last : ∀ e, endings.getLast? = some e → e = [] ∨ e = ['\n'] ∨ e = ['\r', '\n'] ∨ e = ['\r']
  /-- Lines and what follows them are the text. -/
  whole : (List.zipWith (· ++ ·) (ls.map Prod.snd) endings).flatten = t

/-! ## Endings -/

theorem Ending.text_cases (e : Ending) :
    e.text = [] ∨ e.text = ['\n'] ∨ e.text = ['\r', '\n'] ∨ e.text = ['\r'] := by
  cases e with
  | none => exact .inl rfl
  | lf => exact .inr (.inl rfl)
  | crlf => exact .inr (.inr (.inl rfl))
  | cr => exact .inr (.inr (.inr rfl))

namespace Line

variable {l : Line} {before after : Text}

theorem Between.ending_text (h : l.Between before after) (hne : after ≠ []) :
    l.ending.text = ['\n'] ∨ l.ending.text = ['\r', '\n'] := by
  have hends := h.ends
  obtain ⟨body, ending⟩ := l
  cases ending with
  | none => exact absurd hends.2.2 hne
  | lf => exact .inl rfl
  | crlf => exact .inr rfl
  | cr => exact absurd hends hne

theorem Between.text_ne (h : l.Between before after) : l.text ≠ [] := by
  have hends := h.ends
  obtain ⟨body, ending⟩ := l
  cases ending with
  | none => exact fun he => hends.1 (List.append_eq_nil_iff.mp he).1
  | lf => exact List.append_ne_nil_of_right_ne_nil _ (List.cons_ne_nil _ _)
  | crlf => exact List.append_ne_nil_of_right_ne_nil _ (List.cons_ne_nil _ _)
  | cr => exact List.append_ne_nil_of_right_ne_nil _ (List.cons_ne_nil _ _)

end Line

section Lines

variable {t : Text}

theorem lines_eq_nil_iff : lines t = [] ↔ t = [] := by
  constructor
  · intro h
    rw [← flatMap_text_lines t, h, List.flatMap_nil]
  · rintro rfl
    rfl

theorem ending_of_mem_dropLast {e : Text}
    (h : e ∈ ((lines t).map fun l => l.ending.text).dropLast) : e = ['\n'] ∨ e = ['\r', '\n'] := by
  rw [← List.map_dropLast] at h
  obtain ⟨l, hl, rfl⟩ := List.mem_map.mp h
  -- the line has lines before it, and at least one behind it
  obtain ⟨pre, post, hpost⟩ := List.append_of_mem hl
  have hne : lines t ≠ [] := fun he => absurd (he ▸ hl) List.not_mem_nil
  have hlines : lines t = pre ++ l :: (post ++ [(lines t).getLast hne]) := by
    rw [← List.cons_append, ← List.append_assoc, ← hpost, List.dropLast_append_getLast]
  refine (between_of_lines hlines).ending_text fun hnil => ?_
  rw [List.flatMap_append, List.append_eq_nil_iff, List.flatMap_singleton] at hnil
  have hlast : lines t = (lines t).dropLast ++ [(lines t).getLast hne] :=
    (List.dropLast_append_getLast hne).symm
  exact (between_of_lines hlast).text_ne hnil.2

end Lines

/-! ## The lines of a text with their bytes -/

theorem map_snd_locate (offset : Nat) (ls : List Line) :
    (locate offset ls).map Prod.snd = ls := by
  induction ls generalizing offset with
  | nil => rfl
  | cons l ls ih => rw [locate, List.map_cons, ih]

theorem elim_head?_locate (offset : Nat) (ls : List Line) :
    ((locate offset ls).map Prod.fst).head?.elim (offset + Text.size (ls.flatMap Line.text))
      Span.start = offset := by
  cases ls with
  | nil => rfl
  | cons l ls => rfl

/-- The slices behind the lines are their endings. -/
theorem map_slice?_gaps (before : Text) (ls : List Line) :
    (Span.gaps (Text.size (before ++ ls.flatMap Line.text))
        ((locate (Text.size before) ls).map Prod.fst)).map
      (before ++ ls.flatMap Line.text).slice? = ls.map fun l => some l.ending.text := by
  induction ls generalizing before with
  | nil => rfl
  | cons l ls ih =>
      have hslice := Text.slice?_between (before ++ l.body) l.ending.text (ls.flatMap Line.text)
      have hnext := elim_head?_locate (Text.size (before ++ l.text)) ls
      have hrest := ih (before ++ l.text)
      rw [List.append_assoc before, ← Line.text] at hslice
      rw [← Text.size_append] at hnext
      rw [List.flatMap_cons, locate_size_cons, List.map_cons, Span.gaps, List.map_cons,
        List.map_cons, ← List.append_assoc, hnext, hrest]
      exact congrArg (· :: _) hslice

theorem slice?_of_mem_located {t : Text} {x : Span × Line} (hx : x ∈ located t) :
    t.slice? x.1 = some x.2.body :=
  Text.slice?_eq_some_iff.mpr (selects_of_mem_located hx)

/-- The lines of a text, with the bytes that they cover, and their endings make up the text. -/
theorem tiling_located (t : Text) :
    Tiling t ((located t).map fun x => (x.1, x.2.body)) ((lines t).map fun l => l.ending.text) := by
  constructor
  case nil_iff =>
    rw [List.map_eq_nil_iff, ← lines_eq_nil_iff, ← map_snd_locate 0 (lines t), List.map_eq_nil_iff]
    rfl
  case slice =>
    intro y hy
    obtain ⟨x, hx, rfl⟩ := List.mem_map.mp hy
    have hslice := slice?_of_mem_located hx
    exact ⟨(Text.le_of_slice? hslice).1, (Text.le_of_slice? hslice).2, hslice⟩
  case row =>
    intro y hy
    obtain ⟨x, hx, rfl⟩ := List.mem_map.mp hy
    obtain ⟨before, after, -, hbetween, -⟩ := mem_located_iff.mp hx
    exact hbetween.row
  case order => exact List.pairwise_map.mpr (pairwise_located t)
  case start =>
    intro y hy
    rw [located] at hy
    cases hls : lines t with
    | nil =>
        rw [hls] at hy
        cases hy
    | cons l ls =>
        rw [hls] at hy
        obtain rfl := Option.some.inj hy
        rfl
  case gaps =>
    have hspans : ((located t).map fun x => (x.1, x.2.body)).map Prod.fst =
        (located t).map Prod.fst := List.map_map
    have hgaps := map_slice?_gaps [] (lines t)
    rw [List.nil_append, flatMap_text_lines] at hgaps
    rw [hspans, List.map_map]
    exact hgaps
  case between => exact fun e => ending_of_mem_dropLast
  case last =>
    intro e he
    obtain ⟨l, -, rfl⟩ := List.mem_map.mp (List.mem_of_getLast? he)
    exact l.ending.text_cases
  case whole =>
    have hbodies : ((located t).map fun x => (x.1, x.2.body)).map Prod.snd =
        (lines t).map Line.body := by
      rw [← map_snd_locate 0 (lines t), List.map_map, List.map_map]
      rfl
    rw [hbodies, List.zipWith_map, List.zipWith_self]
    exact flatMap_text_lines t

/-- Every kind of ending, and a character of two bytes. -/
example : Span.gaps 12 ((located "\u00e9\r\r\nb\n\nc d\r".toList).map Prod.fst) =
    [⟨3, 5⟩, ⟨6, 7⟩, ⟨7, 8⟩, ⟨11, 12⟩] := by
  decide

end Compendium
