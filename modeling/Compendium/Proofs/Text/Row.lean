/-
# `Compendium.Proofs.Text.Row` — a text as what stands between its breaks

The rows of a text are its pieces between line feeds, of which there is always at least one.
`lines` keeps endings and knows carriage returns; rows know neither, and so they can be cut and
joined at every break (`rows_append_break`).  The lines of a text are its rows, up to an empty row
at the end, where a carriage return at the end of a row counts to the ending of the line
(`lines_row_append_break`, `lines_row`).  So to change each line is to change each row in front of
such a carriage return (`rows_mapLines`), and where there is none the two agree.

`Text.rowInduction` is how nearly everything about a whole text is proved here.
-/
import Compendium.Path.Canonical
import Mathlib.Data.List.Basic

namespace Compendium

namespace Text

/-- What stands between the breaks of a text. -/
def rows (t : Text) : List Text := t.splitOn '\n'

@[simp] theorem rows_nil : rows [] = [[]] := rfl

theorem rows_append_break (s t : Text) : rows (s ++ '\n' :: t) = rows s ++ rows t :=
  List.splitOn_append_cons_self s t

theorem rows_of_row {s : Text} (h : '\n' ∉ s) : rows s = [s] :=
  List.splitOn_eq_singleton h

theorem rows_ne_nil (t : Text) : rows t ≠ [] :=
  List.splitOn_ne_nil '\n' t

theorem rows_injective : Function.Injective rows :=
  Function.LeftInverse.injective fun _ => List.intercalate_splitOn '\n'

theorem not_mem_of_mem_rows {t r : Text} (h : r ∈ rows t) : '\n' ∉ r :=
  Step.not_mem_of_mem_splitOn h

theorem not_mem_concat {s : Text} (hs : '\n' ∉ s) {c : Char} (hc : c ≠ '\n') :
    '\n' ∉ s ++ [c] := by
  intro hm
  rcases List.mem_append.mp hm with hm | hm
  · exact hs hm
  · exact hc (List.mem_singleton.mp hm).symm

/-- Induction over the rows of a text. -/
@[elab_as_elim]
theorem rowInduction {motive : Text → Prop} (last : ∀ s, '\n' ∉ s → motive s)
    (cut : ∀ s t, '\n' ∉ s → motive t → motive (s ++ '\n' :: t)) (t : Text) : motive t := by
  -- the first row is grown from its last character to its first
  have grow : ∀ u s : Text, '\n' ∉ s → motive (s ++ u) := by
    intro u
    induction u with
    | nil =>
        intro s hs
        exact (List.append_nil s).symm ▸ last s hs
    | cons c u ih =>
        intro s hs
        by_cases hc : c = '\n'
        · subst hc
          exact cut s u hs (ih [] List.not_mem_nil)
        · have := ih (s ++ [c]) (not_mem_concat hs hc)
          rwa [List.append_assoc] at this
  exact grow t [] List.not_mem_nil

theorem exists_mem_rows_iff {t : Text} {c : Char} (hc : c ≠ '\n') :
    (∃ r ∈ rows t, c ∈ r) ↔ c ∈ t := by
  induction t using rowInduction with
  | last s hs => simp [rows_of_row hs]
  | cut s t hs ih => simp [rows_append_break, rows_of_row hs, ih, hc]

theorem not_mem_iff {t : Text} {c : Char} (hc : c ≠ '\n') : c ∉ t ↔ ∀ r ∈ rows t, c ∉ r := by
  rw [← exists_mem_rows_iff hc]
  exact ⟨fun h r hr hm => h ⟨r, hr, hm⟩, fun h ⟨r, hr, hm⟩ => h r hr hm⟩

theorem exists_row_append {s : Text} (hs : '\n' ∉ s) (t : Text) :
    ∃ u, s ++ u ∈ rows (s ++ t) := by
  induction t using rowInduction with
  | last t ht =>
      refine ⟨t, ?_⟩
      rw [rows_of_row fun hm => (List.mem_append.mp hm).elim hs ht]
      exact List.mem_singleton_self _
  | cut r t hr _ =>
      refine ⟨r, ?_⟩
      rw [← List.append_assoc, rows_append_break,
        rows_of_row fun hm => (List.mem_append.mp hm).elim hs hr]
      exact List.mem_append_left _ (List.mem_singleton_self _)

theorem exists_append_row {s : Text} (hs : '\n' ∉ s) (t : Text) :
    ∃ u, u ++ s ∈ rows (t ++ s) := by
  induction t using rowInduction with
  | last t ht =>
      refine ⟨t, ?_⟩
      rw [rows_of_row fun hm => (List.mem_append.mp hm).elim ht hs]
      exact List.mem_singleton_self _
  | cut r t _ ih =>
      obtain ⟨u, hu⟩ := ih
      refine ⟨u, ?_⟩
      rw [List.append_assoc, List.cons_append, rows_append_break]
      exact List.mem_append_right _ hu

theorem rows_cons {c : Char} (hc : c ≠ '\n') {t r : Text} {rs : List Text}
    (h : rows t = r :: rs) : rows (c :: t) = (c :: r) :: rs := by
  have hb : (c == '\n') = false := beq_eq_false_iff_ne.mpr hc
  simp only [rows] at h ⊢
  rw [List.splitOn_cons_eq_if_modifyHead, hb, h]
  rfl

theorem rows_concat {c : Char} (hc : c ≠ '\n') (t : Text) :
    ∃ init r, rows t = init ++ [r] ∧ rows (t ++ [c]) = init ++ [r ++ [c]] := by
  induction t using rowInduction with
  | last s hs => exact ⟨[], s, rows_of_row hs, rows_of_row (not_mem_concat hs hc)⟩
  | cut s t hs ih =>
      obtain ⟨init, r, h₁, h₂⟩ := ih
      refine ⟨s :: init, r, ?_, ?_⟩
      · rw [rows_append_break, rows_of_row hs, h₁]
        rfl
      · rw [List.append_assoc, List.cons_append, rows_append_break, rows_of_row hs, h₂]
        rfl

end Text

/-! ## The lines of a text -/

def Text.dropReturn (r : Text) : Text := if r.getLast? = some '\r' then r.dropLast else r

/-- The line that a row is, where `broken` says whether a break follows it. -/
def Line.ofRow (broken : Bool) (r : Text) : Line where
  body := r.dropReturn
  ending :=
    if r.getLast? = some '\r' then if broken then .crlf else .cr
    else if broken then .lf else .none

@[simp] theorem Line.body_ofRow (broken : Bool) (r : Text) : (ofRow broken r).body = r.dropReturn :=
  rfl

/-- What is done to a line, done to a row: a carriage return at its end stays. -/
def Text.onLine (f : Text → Text) (r : Text) : Text :=
  if r.getLast? = some '\r' then f r.dropLast ++ ['\r'] else f r

theorem Text.dropReturn_concat (b : Text) : dropReturn (b ++ ['\r']) = b := by
  simp [dropReturn]

theorem Text.dropReturn_of_ne {r : Text} (h : r.getLast? ≠ some '\r') : dropReturn r = r := by
  rw [dropReturn, if_neg h]

theorem Text.onLine_concat (f : Text → Text) (b : Text) : onLine f (b ++ ['\r']) = f b ++ ['\r'] := by
  simp [onLine]

theorem Text.onLine_of_ne {f : Text → Text} {r : Text} (h : r.getLast? ≠ some '\r') :
    onLine f r = f r := by
  rw [onLine, if_neg h]

/-- A row ends with a carriage return, or it is a line as it stands. -/
theorem Text.return_cases (r : Text) : (∃ b, r = b ++ ['\r']) ∨ r.getLast? ≠ some '\r' := by
  by_cases h : r.getLast? = some '\r'
  · obtain ⟨b, hb⟩ := List.getLast?_eq_some_iff.mp h
    exact .inl ⟨b, hb⟩
  · exact .inr h

theorem Text.getLast?_ne_of_not_mem {r : Text} (h : '\r' ∉ r) : r.getLast? ≠ some '\r' :=
  fun hl => h (List.mem_of_getLast? hl)

theorem Text.mem_of_mem_dropReturn {r : Text} {c : Char} (hc : c ∈ r.dropReturn) : c ∈ r := by
  rcases return_cases r with ⟨b, rfl⟩ | hr
  · rw [dropReturn_concat] at hc
    exact List.mem_append_left _ hc
  · rwa [dropReturn_of_ne hr] at hc

theorem Text.head?_of_head?_dropReturn {r : Text} {c : Char} (hc : r.dropReturn.head? = some c) :
    r.head? = some c := by
  rcases return_cases r with ⟨b, rfl⟩ | hr
  · rw [dropReturn_concat] at hc
    rw [List.head?_append, hc]
    rfl
  · rwa [dropReturn_of_ne hr] at hc

theorem Line.ofRow_of_not_mem {r : Text} (h : '\r' ∉ r) (broken : Bool) :
    ofRow broken r = ⟨r, if broken then .lf else .none⟩ := by
  rw [ofRow, Text.dropReturn_of_ne (Text.getLast?_ne_of_not_mem h),
    if_neg (Text.getLast?_ne_of_not_mem h)]

theorem Line.push_ofRow (broken : Bool) (c : Char) {r : Text} (hr : r ≠ []) :
    (ofRow broken r).push c = ofRow broken (c :: r) := by
  obtain ⟨d, u, rfl⟩ := List.exists_cons_of_ne_nil hr
  simp only [ofRow, push, Text.dropReturn, List.getLast?_cons_cons, List.dropLast_cons_cons]
  split <;> rfl

theorem lines_cons {c : Char} (hn : c ≠ '\n') {t : Text}
    (hr : c = '\r' → t ≠ [] ∧ t.head? ≠ some '\n') :
    lines (c :: t) = match lines t with
      | [] => [⟨[c], .none⟩]
      | l :: ls => l.push c :: ls := by
  rw [lines.eq_def]
  split
  · next h => cases h
  · next h => exact absurd (List.cons.inj h).1 hn
  · next h =>
    obtain ⟨rfl, rfl⟩ := List.cons.inj h
    exact absurd rfl (hr rfl).1
  · next h =>
    obtain ⟨rfl, rfl⟩ := List.cons.inj h
    exact absurd rfl (hr rfl).2
  · next h =>
    obtain ⟨rfl, rfl⟩ := List.cons.inj h
    rfl

theorem lines_row_append_break {s : Text} (hs : '\n' ∉ s) (t : Text) :
    lines (s ++ '\n' :: t) = .ofRow true s :: lines t := by
  induction s with
  | nil => rfl
  | cons c s ih =>
      obtain ⟨hc, hs⟩ := List.ne_and_not_mem_of_not_mem_cons hs
      cases s with
      | nil =>
          by_cases hr : c = '\r'
          · subst hr
            rfl
          · rw [List.cons_append, lines_cons (Ne.symm hc) fun h => absurd h hr, ih hs]
            simp [Line.ofRow, Line.push, Text.dropReturn, hr]
      | cons d s =>
          obtain ⟨hd, -⟩ := List.ne_and_not_mem_of_not_mem_cons hs
          rw [List.cons_append, lines_cons (Ne.symm hc) fun _ => ⟨by simp, by simpa using Ne.symm hd⟩,
            ih hs]
          exact congrArg (· :: lines t) (Line.push_ofRow true c (List.cons_ne_nil d s))

/-- The last row is the last line, unless it is empty. -/
theorem lines_row {s : Text} (hs : '\n' ∉ s) (hne : s ≠ []) : lines s = [.ofRow false s] := by
  induction s with
  | nil => exact absurd rfl hne
  | cons c s ih =>
      obtain ⟨hc, hs⟩ := List.ne_and_not_mem_of_not_mem_cons hs
      cases s with
      | nil =>
          by_cases hr : c = '\r'
          · subst hr
            rfl
          · rw [lines_cons (Ne.symm hc) fun h => absurd h hr]
            simp [lines, Line.ofRow, Text.dropReturn, hr]
      | cons d s =>
          obtain ⟨hd, -⟩ := List.ne_and_not_mem_of_not_mem_cons hs
          rw [lines_cons (Ne.symm hc) fun _ => ⟨by simp, by simpa using Ne.symm hd⟩,
            ih hs (List.cons_ne_nil d s)]
          exact congrArg (· :: []) (Line.push_ofRow false c (List.cons_ne_nil d s))

/-- Going through the lines is going through the rows, where nothing is made of an empty row. -/
theorem flatMap_lines_rows {β : Type} {f : Text → List β} (hf : f [] = []) (t : Text) :
    ((lines t).flatMap fun l => f l.body) = t.rows.flatMap fun r => f r.dropReturn := by
  induction t using Text.rowInduction with
  | last s hs =>
      rw [Text.rows_of_row hs, List.flatMap_singleton]
      by_cases hne : s = []
      · subst hne
        exact hf.symm
      · rw [lines_row hs hne, List.flatMap_singleton, Line.body_ofRow]
  | cut s t hs ih =>
      rw [lines_row_append_break hs, Text.rows_append_break, Text.rows_of_row hs, List.flatMap_cons,
        ih, Line.body_ofRow, List.singleton_append, List.flatMap_cons]

theorem filterMap_lines_rows {β : Type} {f : Text → Option β} (hf : f [] = none) (t : Text) :
    ((lines t).filterMap fun l => f l.body) =
      t.rows.flatMap fun r => (f r.dropReturn).toList := by
  rw [List.filterMap_eq_flatMap_toList]
  exact flatMap_lines_rows (f := fun r => (f r).toList) (congrArg Option.toList hf) t

/-! ## What is made of a text row by row -/

/-- What is made of a text is put together from what is made of its rows, and nothing is made of an
empty row. -/
structure Rowwise {β : Type} (f : Text → List β) : Prop where
  nil : f [] = []
  append_break : ∀ s t, f (s ++ '\n' :: t) = f s ++ f t

theorem rowwise_flatMap {β : Type} {g : Text → List β} (hg : g [] = []) :
    Rowwise fun t => t.rows.flatMap g where
  nil := by rw [Text.rows_nil, List.flatMap_singleton, hg]
  append_break := fun s t => by rw [Text.rows_append_break, List.flatMap_append]

namespace Rowwise

variable {β : Type} {f : Text → List β} {s t : Text}

theorem break_cons (hf : Rowwise f) (t : Text) : f ('\n' :: t) = f t := by
  have h := hf.append_break [] t
  rwa [List.nil_append, hf.nil, List.nil_append] at h

theorem concat_break (hf : Rowwise f) (s : Text) : f (s ++ ['\n']) = f s := by
  rw [hf.append_break, hf.nil, List.append_nil]

theorem append_of_head (hf : Rowwise f) (h : t = [] ∨ ∃ u, t = '\n' :: u) :
    f (s ++ t) = f s ++ f t := by
  rcases h with rfl | ⟨u, rfl⟩
  · rw [List.append_nil, hf.nil, List.append_nil]
  · rw [hf.append_break, hf.break_cons]

theorem append_of_last (hf : Rowwise f) (h : s = [] ∨ ∃ u, s = u ++ ['\n']) :
    f (s ++ t) = f s ++ f t := by
  rcases h with rfl | ⟨u, rfl⟩
  · rw [List.nil_append, hf.nil, List.nil_append]
  · rw [List.append_assoc, List.singleton_append, hf.append_break, hf.concat_break]

end Rowwise

namespace Text

def mapLines (f : Text → Text) (t : Text) : Text :=
  (lines t).flatMap fun l => f l.body ++ l.ending.text

theorem text_ofRow_false (f : Text → Text) (s : Text) :
    f (Line.ofRow false s).body ++ (Line.ofRow false s).ending.text = onLine f s := by
  rcases return_cases s with ⟨b, rfl⟩ | hs
  · simp [Line.ofRow, onLine_concat, dropReturn_concat, Ending.text]
  · simp [Line.ofRow, onLine_of_ne hs, dropReturn_of_ne hs, hs, Ending.text]

theorem text_ofRow_true (f : Text → Text) (s : Text) :
    f (Line.ofRow true s).body ++ (Line.ofRow true s).ending.text = onLine f s ++ ['\n'] := by
  rcases return_cases s with ⟨b, rfl⟩ | hs
  · simp [Line.ofRow, onLine_concat, dropReturn_concat, Ending.text]
  · simp [Line.ofRow, onLine_of_ne hs, dropReturn_of_ne hs, hs, Ending.text]

variable {f : Text → Text}

theorem onLine_nil (hf : f [] = []) : onLine f [] = [] := hf

theorem mapLines_row (hf : f [] = []) {s : Text} (hs : '\n' ∉ s) : mapLines f s = onLine f s := by
  by_cases hne : s = []
  · subst hne
    exact (onLine_nil hf).symm
  · rw [mapLines, lines_row hs hne, List.flatMap_singleton, text_ofRow_false]

theorem mapLines_append_break {s : Text} (hs : '\n' ∉ s) (t : Text) :
    mapLines f (s ++ '\n' :: t) = onLine f s ++ '\n' :: mapLines f t := by
  rw [mapLines, lines_row_append_break hs, List.flatMap_cons, text_ofRow_true, List.append_assoc]
  rfl

theorem not_mem_onLine (hn : ∀ r, '\n' ∉ r → '\n' ∉ f r) {s : Text} (hs : '\n' ∉ s) :
    '\n' ∉ onLine f s := by
  rcases return_cases s with ⟨b, rfl⟩ | hr
  · rw [onLine_concat]
    exact not_mem_concat (hn b fun hm => hs (List.mem_append_left _ hm)) (by decide)
  · rw [onLine_of_ne hr]
    exact hn s hs

theorem rows_mapLines (hf : f [] = []) (hn : ∀ r, '\n' ∉ r → '\n' ∉ f r) (t : Text) :
    rows (mapLines f t) = t.rows.map (onLine f) := by
  induction t using rowInduction with
  | last s hs =>
      rw [mapLines_row hf hs, rows_of_row hs, rows_of_row (not_mem_onLine hn hs)]
      rfl
  | cut s t hs ih =>
      rw [mapLines_append_break hs, rows_append_break, rows_append_break, rows_of_row hs,
        rows_of_row (not_mem_onLine hn hs), ih]
      rfl

end Text

/-! ## The lines of a text without carriage returns -/

theorem lines_of_row {s : Text} (hs : '\n' ∉ s) (hr : '\r' ∉ s) (hne : s ≠ []) :
    lines s = [⟨s, .none⟩] := by
  rw [lines_row hs hne, Line.ofRow_of_not_mem hr]
  rfl

theorem lines_append_break {s : Text} (hs : '\n' ∉ s) (hr : '\r' ∉ s) (t : Text) :
    lines (s ++ '\n' :: t) = ⟨s, .lf⟩ :: lines t := by
  rw [lines_row_append_break hs, Line.ofRow_of_not_mem hr]
  rfl

theorem Text.dropReturn_of_mem_rows {t r : Text} (ht : '\r' ∉ t) (hr : r ∈ t.rows) :
    r.dropReturn = r :=
  dropReturn_of_ne (getLast?_ne_of_not_mem ((not_mem_iff (by decide)).mp ht r hr))

theorem filterMap_lines {β : Type} {f : Text → Option β} (hf : f [] = none) {t : Text}
    (ht : '\r' ∉ t) :
    ((lines t).filterMap fun l => f l.body) = t.rows.flatMap fun r => (f r).toList := by
  rw [filterMap_lines_rows hf]
  exact List.flatMap_congr fun r hr => by rw [Text.dropReturn_of_mem_rows ht hr]

theorem Text.rows_flatMap_lines {f : Text → Text} (hf : f [] = [])
    (hn : ∀ r, '\n' ∉ r → '\n' ∉ f r) {t : Text} (ht : '\r' ∉ t) :
    Text.rows ((lines t).flatMap fun l => f l.body ++ l.ending.text) = t.rows.map f := by
  have hrows := rows_mapLines hf hn t
  rw [mapLines] at hrows
  rw [hrows]
  refine List.map_congr_left fun r hr => ?_
  exact onLine_of_ne (getLast?_ne_of_not_mem ((not_mem_iff (by decide)).mp ht r hr))

end Compendium
