/-
# `Compendium.Proofs.Text.Located` — where the lines of a text stand

The lines of a text are found by going through it once, and where a line begins is known by adding
up the bytes of the lines before it.  Here the lines are told by what is around them instead.  A
line stands between two texts (`Line.Between`) if the first one is empty or ends in a break, if there
is no break in the line, and if the line ends where it has to: the carriage return in front of a
line feed belongs to the ending, and without a line feed the text is over.

Wherever a line stands in a text, the text falls into the lines before it, the line, and the lines
after it (`lines_between`), and each of its lines stands somewhere (`between_of_lines`).  So the
lines with their bytes are those that stand in the text, each with the bytes of its body
(`mem_located_iff`), and they come in order (`pairwise_located`).
-/
import Compendium.Proofs.Text.Row

namespace Compendium

/-! ## Stretches of bytes -/

theorem Text.eq_of_size_eq {s s' r r' : Text} (h : s ++ r = s' ++ r') (hsize : size s = size s') :
    s = s' := by
  induction s generalizing s' with
  | nil =>
      cases s' with
      | nil => rfl
      | cons d s' =>
          have := Char.utf8Size_pos d
          rw [size_nil, size_cons] at hsize
          omega
  | cons c s ih =>
      cases s' with
      | nil =>
          have := Char.utf8Size_pos c
          rw [size_nil, size_cons] at hsize
          omega
      | cons d s' =>
          obtain ⟨rfl, htail⟩ := List.cons.inj h
          rw [size_cons, size_cons] at hsize
          rw [ih htail (Nat.add_left_cancel hsize)]

/-- The bytes of a stretch are those of a part of the text. -/
def Span.Selects (span : Span) (t s : Text) : Prop :=
  ∃ before after, t = before ++ s ++ after ∧ span = ⟨Text.size before, Text.size (before ++ s)⟩

theorem Span.Selects.unique {span : Span} {t s s' : Text} (h : span.Selects t s)
    (h' : span.Selects t s') : s = s' := by
  obtain ⟨before, after, rfl, rfl⟩ := h
  obtain ⟨before', after', ht, hspan⟩ := h'
  obtain ⟨hstart, hstop⟩ := Span.mk.inj hspan
  have hwhole := Text.eq_of_size_eq ht hstop
  obtain rfl : before = before' := Text.eq_of_size_eq hwhole hstart
  exact List.append_cancel_left hwhole

/-! ## Between what a line stands -/

namespace Line

/-- The line may end where this follows. -/
def Ends (l : Line) (after : Text) : Prop :=
  match l.ending with
  | .lf => l.body.getLast? ≠ some '\r'
  | .crlf => True
  | .cr => after = []
  | .none => l.body ≠ [] ∧ l.body.getLast? ≠ some '\r' ∧ after = []

/-- The line stands between two texts. -/
structure Between (l : Line) (before after : Text) : Prop where
  start : before = [] ∨ ∃ u, before = u ++ ['\n']
  row : '\n' ∉ l.body
  ends : l.Ends after

theorem text_ofRow (broken : Bool) (r : Text) :
    (ofRow broken r).text = r ++ if broken then ['\n'] else [] := by
  have hid : Text.onLine id r = r := by
    rcases Text.return_cases r with ⟨b, rfl⟩ | hr
    · exact Text.onLine_concat id b
    · exact Text.onLine_of_ne hr
  cases broken with
  | true => exact (Text.text_ofRow_true id r).trans (congrArg (· ++ ['\n']) hid)
  | false => exact (Text.text_ofRow_false id r).trans (hid.trans (List.append_nil r).symm)

/-- The line that a row is may end at a break, or at the end of the text unless it is empty. -/
theorem ends_ofRow {broken : Bool} {r after : Text}
    (h : broken = true ∨ (r ≠ [] ∧ after = [])) : (ofRow broken r).Ends after := by
  rcases h with rfl | ⟨hne, rfl⟩
  · rcases Text.return_cases r with ⟨b, rfl⟩ | hr
    · simp [ofRow, Ends]
    · simp [ofRow, Ends, hr, Text.dropReturn_of_ne hr]
  · rcases Text.return_cases r with ⟨b, rfl⟩ | hr
    · cases broken <;> simp [ofRow, Ends]
    · cases broken <;> simp [ofRow, Ends, hr, Text.dropReturn_of_ne hr, hne]

theorem exists_row_of_ends {l : Line} {after : Text} (hrow : '\n' ∉ l.body) (h : l.Ends after) :
    ∃ r, '\n' ∉ r ∧ (l = ofRow true r ∨ (l = ofRow false r ∧ r ≠ [] ∧ after = [])) := by
  obtain ⟨body, ending⟩ := l
  have hreturn : '\n' ∉ body ++ ['\r'] := Text.not_mem_concat hrow (by decide)
  cases ending with
  | lf =>
      have hlast : body.getLast? ≠ some '\r' := h
      exact ⟨body, hrow, .inl (by simp [ofRow, Text.dropReturn_of_ne hlast, hlast])⟩
  | crlf => exact ⟨_, hreturn, .inl (by simp [ofRow, Text.dropReturn_concat])⟩
  | cr => exact ⟨_, hreturn, .inr ⟨by simp [ofRow, Text.dropReturn_concat], by simp, h⟩⟩
  | none =>
      obtain ⟨hne, hlast, hafter⟩ := h
      exact ⟨body, hrow, .inr ⟨by simp [ofRow, Text.dropReturn_of_ne hlast, hlast], hne, hafter⟩⟩

end Line

/-! ## The lines of a text are what stands in it -/

section Lines

variable {t : Text} {l : Line}

theorem lines_append_of_start {before : Text} (h : before = [] ∨ ∃ u, before = u ++ ['\n'])
    (t : Text) : lines (before ++ t) = lines before ++ lines t := by
  rcases h with rfl | ⟨u, rfl⟩
  · rfl
  · induction u using Text.rowInduction with
    | last s hs =>
        rw [lines_row_append_break hs, List.append_assoc, List.singleton_append,
          lines_row_append_break hs]
        rfl
    | cut s u hs ih =>
        simp only [List.append_assoc, List.cons_append, List.nil_append] at ih ⊢
        rw [lines_row_append_break hs, lines_row_append_break hs, ih, List.cons_append]

theorem lines_between {before after : Text} (h : l.Between before after) :
    lines (before ++ l.text ++ after) = lines before ++ l :: lines after := by
  rw [List.append_assoc, lines_append_of_start h.start]
  obtain ⟨r, hr, rfl | ⟨rfl, hne, rfl⟩⟩ := Line.exists_row_of_ends h.row h.ends
  · rw [Line.text_ofRow, if_pos rfl, List.append_assoc, List.singleton_append,
      lines_row_append_break hr]
  · rw [Line.text_ofRow, if_neg Bool.false_ne_true, List.append_nil, List.append_nil,
      lines_row hr hne]
    rfl

theorem between_of_lines {pre post : List Line} (h : lines t = pre ++ l :: post) :
    l.Between (pre.flatMap Line.text) (post.flatMap Line.text) := by
  induction t using Text.rowInduction generalizing pre with
  | last s hs =>
      by_cases hne : s = []
      · subst hne
        exact absurd h (by simp [lines])
      · rw [lines_row hs hne] at h
        cases pre with
        | nil =>
            obtain ⟨rfl, rfl⟩ := List.cons.inj h
            exact ⟨.inl rfl, fun hm => hs (Text.mem_of_mem_dropReturn hm),
              Line.ends_ofRow (.inr ⟨hne, rfl⟩)⟩
        | cons p pre => exact absurd (List.cons.inj h).2 (by simp)
  | cut s t hs ih =>
      rw [lines_row_append_break hs] at h
      cases pre with
      | nil =>
          obtain ⟨rfl, rfl⟩ := List.cons.inj h
          exact ⟨.inl rfl, fun hm => hs (Text.mem_of_mem_dropReturn hm),
            Line.ends_ofRow (.inl rfl)⟩
      | cons p pre =>
          obtain ⟨rfl, hrest⟩ := List.cons.inj h
          obtain ⟨hstart, hrow, hends⟩ := ih hrest
          refine ⟨.inr ?_, hrow, hends⟩
          rw [List.flatMap_cons, Line.text_ofRow, if_pos rfl]
          rcases hstart with hnil | ⟨u, hu⟩
          · exact ⟨s, by rw [hnil, List.append_nil]⟩
          · exact ⟨s ++ '\n' :: u, by rw [hu]; simp⟩

end Lines

/-! ## The bytes of the lines -/

theorem locate_size_cons (s : Text) (l : Line) (ls : List Line) :
    locate (Text.size s) (l :: ls) =
      (⟨Text.size s, Text.size (s ++ l.body)⟩, l) :: locate (Text.size (s ++ l.text)) ls := by
  rw [locate, Text.size_append, Text.size_append]

theorem mem_locate_iff {ls : List Line} {offset : Nat} {span : Span} {l : Line} :
    (span, l) ∈ locate offset ls ↔ ∃ pre post, ls = pre ++ l :: post ∧
      span = ⟨offset + Text.size (pre.flatMap Line.text),
        offset + Text.size (pre.flatMap Line.text ++ l.body)⟩ := by
  induction ls generalizing offset with
  | nil => simp [locate]
  | cons k ls ih =>
      rw [locate, List.mem_cons, ih]
      constructor
      · rintro (h | ⟨pre, post, rfl, rfl⟩)
        · obtain ⟨rfl, rfl⟩ := Prod.mk.inj h
          exact ⟨[], ls, rfl, rfl⟩
        · exact ⟨k :: pre, post, rfl, by simp [Nat.add_assoc]⟩
      · rintro ⟨pre, post, h, rfl⟩
        cases pre with
        | nil =>
            obtain ⟨rfl, rfl⟩ := List.cons.inj h
            exact .inl rfl
        | cons p pre =>
            obtain ⟨rfl, rfl⟩ := List.cons.inj h
            exact .inr ⟨pre, post, rfl, by simp [Nat.add_assoc]⟩

/-- The lines with their bytes are those that stand in the text, with the bytes of their bodies. -/
theorem mem_located_iff {t : Text} {span : Span} {l : Line} :
    (span, l) ∈ located t ↔ ∃ before after, t = before ++ l.text ++ after ∧
      l.Between before after ∧ span = ⟨Text.size before, Text.size (before ++ l.body)⟩ := by
  rw [located, mem_locate_iff]
  constructor
  · rintro ⟨pre, post, h, rfl⟩
    refine ⟨_, _, ?_, between_of_lines h, by rw [Nat.zero_add, Nat.zero_add]⟩
    rw [← flatMap_text_lines t, h, List.flatMap_append, List.flatMap_cons, List.append_assoc]
  · rintro ⟨before, after, rfl, hl, rfl⟩
    refine ⟨_, _, lines_between hl, ?_⟩
    rw [flatMap_text_lines, Nat.zero_add, Nat.zero_add]

theorem selects_of_mem_located {t : Text} {span : Span} {l : Line} (h : (span, l) ∈ located t) :
    span.Selects t l.body := by
  obtain ⟨before, after, rfl, -, rfl⟩ := mem_located_iff.mp h
  exact ⟨before, l.ending.text ++ after, by rw [Line.text]; simp, rfl⟩

theorem le_start_of_mem_locate {ls : List Line} {offset : Nat} {x : Span × Line}
    (h : x ∈ locate offset ls) : offset ≤ x.1.start := by
  obtain ⟨pre, post, -, hx⟩ := mem_locate_iff.mp h
  exact hx ▸ Nat.le_add_right _ _

theorem pairwise_located (t : Text) : (located t).Pairwise fun x y => x.1.stop < y.1.start := by
  suffices ∀ offset, (locate offset (lines t)).Pairwise fun x y => x.1.stop < y.1.start from this 0
  induction t using Text.rowInduction with
  | last s hs =>
      intro offset
      by_cases hne : s = []
      · subst hne
        exact .nil
      · rw [lines_row hs hne]
        exact List.pairwise_singleton _ _
  | cut s t hs ih =>
      intro offset
      rw [lines_row_append_break hs, locate]
      refine List.pairwise_cons.mpr ⟨fun y hy => ?_, ih _⟩
      have hbreak : 0 < Text.size (Line.ofRow true s).ending.text := by
        simp only [Line.ofRow]
        split <;> decide
      have hnext := le_start_of_mem_locate hy
      rw [Line.text, Text.size_append] at hnext
      dsimp only
      omega

/-! ## Reading and overwriting stretches

Stretches of bytes do not always make sense: one may reach over the end of the text, end before it
begins, or cut a character in two.  `Text.slice?` is the text at a stretch, and refuses all of
these.  So the bytes of a stretch are told without reference to what is read there
(`slice?_eq_some_iff`).

Text is overwritten from left to right.  What is behind the stretch that was overwritten last, up to
the next one, is copied, and then the new text stands in the place of the old one
(`Text.overwriteFrom?`).  Nothing here makes the stretches come in order or keeps them apart; but
for the lines of a text, some of which are overwritten, all goes well, and what comes out is the
text with these lines changed (`overwriteFrom?_locate`). -/

namespace Text

/-! ### Slices -/

/-- The first `n` bytes of a text, and the rest.  The text may not be shorter, and no character may
be cut. -/
def cutAt? : Nat → Text → Option (Text × Text)
  | 0, t => some ([], t)
  | _ + 1, [] => none
  | n + 1, c :: t =>
    if c.utf8Size ≤ n + 1 then (cutAt? (n + 1 - c.utf8Size) t).map fun (s, r) => (c :: s, r)
    else none

/-- The text at a stretch of bytes, if both ends of it are places between the characters of the
text. -/
def slice? (t : Text) (span : Span) : Option Text :=
  if span.start ≤ span.stop then do
    let (_, rest) ← cutAt? span.start t
    let (s, _) ← cutAt? (span.stop - span.start) rest
    return s
  else none

variable {t s r : Text} {span : Span} {n : Nat}

theorem cutAt?_append (s r : Text) : cutAt? (size s) (s ++ r) = some (s, r) := by
  induction s with
  | nil => simp only [size_nil, List.nil_append, cutAt?]
  | cons c s ih =>
      have hpos := c.utf8Size_pos
      obtain ⟨m, hm⟩ := Nat.exists_eq_succ_of_ne_zero (Nat.ne_of_gt (Nat.add_pos_left hpos (size s)))
      have hrest : m + 1 - c.utf8Size = size s := by omega
      rw [size_cons, hm, List.cons_append, cutAt?, if_pos (by omega), hrest, ih]
      rfl

theorem cutAt?_eq_some_iff : cutAt? n t = some (s, r) ↔ t = s ++ r ∧ n = size s := by
  constructor
  · intro h
    induction t generalizing n s with
    | nil =>
        cases n with
        | zero =>
            obtain ⟨rfl, rfl⟩ := Prod.mk.inj (Option.some.inj h)
            exact ⟨rfl, rfl⟩
        | succ n => cases h
    | cons c t ih =>
        cases n with
        | zero =>
            obtain ⟨rfl, rfl⟩ := Prod.mk.inj (Option.some.inj h)
            exact ⟨rfl, rfl⟩
        | succ n =>
            rw [cutAt?] at h
            split at h
            · next hle =>
              obtain ⟨⟨s, r⟩, hcut, he⟩ := Option.map_eq_some_iff.mp h
              obtain ⟨rfl, rfl⟩ := Prod.mk.inj he
              obtain ⟨rfl, hn⟩ := ih hcut
              exact ⟨rfl, by rw [size_cons]; omega⟩
            · cases h
  · rintro ⟨rfl, rfl⟩
    exact cutAt?_append s r

/-- What is read at a stretch is the part of the text that has its bytes. -/
theorem slice?_eq_some_iff : t.slice? span = some s ↔ span.Selects t s := by
  constructor
  · intro h
    rw [slice?] at h
    split at h
    · next hle =>
      obtain ⟨⟨before, rest⟩, hbefore, h⟩ := Option.bind_eq_some_iff.mp h
      obtain ⟨⟨s', after⟩, hs, h⟩ := Option.bind_eq_some_iff.mp h
      obtain rfl : s' = s := Option.some.inj h
      obtain ⟨rfl, hstart⟩ := cutAt?_eq_some_iff.mp hbefore
      obtain ⟨rfl, hlength⟩ := cutAt?_eq_some_iff.mp hs
      refine ⟨before, after, (List.append_assoc _ _ _).symm, ?_⟩
      rw [size_append, ← hstart, ← hlength, Nat.add_sub_cancel' hle]
    · cases h
  · rintro ⟨before, after, rfl, rfl⟩
    have hle : size before ≤ size (before ++ s) := by rw [size_append]; exact Nat.le_add_right _ _
    have hlength : size (before ++ s) - size before = size s := by
      rw [size_append, Nat.add_sub_cancel_left]
    rw [slice?, if_pos hle, List.append_assoc, cutAt?_append]
    simp only [Option.bind_eq_bind, Option.bind_some, hlength, cutAt?_append, Option.pure_def]

theorem slice?_between (before s after : Text) :
    (before ++ s ++ after).slice? ⟨size before, size (before ++ s)⟩ = some s :=
  slice?_eq_some_iff.mpr ⟨before, after, rfl, rfl⟩

theorem le_of_slice? (h : t.slice? span = some s) : span.start ≤ span.stop ∧ span.stop ≤ size t := by
  obtain ⟨before, after, rfl, rfl⟩ := slice?_eq_some_iff.mp h
  simp only [size_append]
  omega

/-! ### Overwriting -/

/-- Copies a text from the byte `cursor` on behind `output`, with new text in the place of each of
the stretches. -/
def overwriteFrom? (t : Text) (cursor : Nat) (output : Text) : List (Span × Text) → Option Text
  | [] => (t.slice? ⟨cursor, size t⟩).map (output ++ ·)
  | (span, s) :: rest => do
    let kept ← t.slice? ⟨cursor, span.start⟩
    overwriteFrom? t span.stop (output ++ kept ++ s) rest

/-- The lines that `f` makes something new of, with their bytes and what is made of them. -/
def renewed (f : Text → Option Text) (ls : List (Span × Line)) : List (Span × Text) :=
  ls.filterMap fun x => (f x.2.body).map (x.1, ·)

/-- Where some lines are overwritten, all else is copied, and each line keeps its ending.  What is
`pending` is copied with the next slice. -/
theorem overwriteFrom?_locate (f : Text → Option Text) (ls : List Line)
    (before pending output : Text) :
    overwriteFrom? (before ++ pending ++ ls.flatMap Line.text) (size before) output
        (renewed f (locate (size (before ++ pending)) ls)) =
      some (output ++ pending ++
        ls.flatMap fun l => (f l.body).getD l.body ++ l.ending.text) := by
  induction ls generalizing before pending output with
  | nil =>
      have hslice := slice?_between before pending []
      rw [List.append_nil] at hslice
      rw [List.flatMap_nil, List.append_nil, List.flatMap_nil, List.append_nil, locate, renewed,
        List.filterMap_nil, overwriteFrom?, hslice]
      rfl
  | cons l ls ih =>
      rw [locate_size_cons, List.flatMap_cons, List.flatMap_cons]
      cases hf : f l.body with
      | none =>
          -- the line goes to what is pending
          have h := ih before (pending ++ l.text) output
          rw [← List.append_assoc before] at h
          rw [renewed, List.filterMap_cons_none (by rw [hf]; rfl), ← renewed,
            ← List.append_assoc (before ++ pending), h, Option.getD_none, ← Line.text]
          simp only [List.append_assoc]
      | some s =>
          -- what is pending is copied, and the ending of the line is pending now
          have hslice := slice?_between before pending (l.text ++ ls.flatMap Line.text)
          have h := ih (before ++ pending ++ l.body) l.ending.text (output ++ pending ++ s)
          rw [List.append_assoc _ l.body, ← Line.text, List.append_assoc _ l.text] at h
          rw [renewed, List.filterMap_cons_some (by rw [hf]; rfl), ← renewed, overwriteFrom?, hslice,
            Option.bind_eq_bind, Option.bind_some, h, Option.getD_some]
          simp only [List.append_assoc]

/-- To overwrite lines of a text is to change these lines and keep all endings. -/
theorem overwriteFrom?_located (f : Text → Option Text) (t : Text) :
    overwriteFrom? t 0 [] (renewed f (located t)) =
      some (mapLines (fun line => (f line).getD line) t) := by
  have h := overwriteFrom?_locate f (lines t) [] [] []
  rw [List.append_nil, List.nil_append, flatMap_text_lines] at h
  exact h

end Text

end Compendium
