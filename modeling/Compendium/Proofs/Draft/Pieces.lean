/-
# `Compendium.Proofs.Draft.Pieces` — a draft that is written line by line

Embedding goes from one directive to the next and adds what stands between them all at once.  To say
what becomes of single lines it is better to read the text line by line: a line adds to what has
been read since the last directive, and a directive, or its content, adds that to the draft and is
put behind it.  `Page` is the state of such a reader, and `embed_pieces` says that it comes to the
same.

The content lines of a page are those of what it has read (`contentLines_read`).  A line that is not
blank starts afresh: whatever was read before, the page is then a text that ends in that line, to
which the rest is added as it stands (`Page.Sound.add_row`), and what follows is only ever written
behind it, with a break in between (`Page.Behind.read`).
-/
import Compendium.Proofs.Draft.Spacing

namespace Compendium

/-! ## Lines and contents -/

/-- A line of a text, or what is put in the place of a directive, with the ending of its line. -/
inductive Piece where
  | line (l : Line)
  | filled (content : Option Text) (ending : Ending)
deriving DecidableEq

namespace Piece

def ending : Piece → Ending
  | line l => l.ending
  | filled _ e => e

/-- The content lines that come of a piece. -/
def shown : Piece → List Text
  | line l => Text.contentLines l.body
  | filled content _ => content.elim [] Text.contentLines

/-- Another line follows. -/
def Breaks (x : Piece) : Prop := x.ending = .lf ∨ x.ending = .crlf

end Piece

/-- The lines of a text with contents in the places of its directives, one after the other. -/
def pieces : List Line → List (Option Text) → List Piece
  | [], _ => []
  | l :: ls, contents =>
    match Directive.ofLine? l.body with
    | none => .line l :: pieces ls contents
    | some _ => .filled (contents.headD none) l.ending :: pieces ls contents.tail

theorem map_ending_pieces (ls : List Line) (contents : List (Option Text)) :
    (pieces ls contents).map Piece.ending = ls.map Line.ending := by
  induction ls generalizing contents with
  | nil => rfl
  | cons l ls ih =>
      rw [pieces]
      split
      · rw [List.map_cons, ih]
        rfl
      · rw [List.map_cons, ih]
        rfl

theorem Line.ending_ofRow_true (r : Text) :
    (ofRow true r).ending = .lf ∨ (ofRow true r).ending = .crlf := by
  simp only [ofRow]
  split
  · exact .inr rfl
  · exact .inl rfl

theorem breaks_of_mem_dropLast {t : Text} {contents : List (Option Text)} {x : Piece}
    (h : x ∈ (pieces (lines t) contents).dropLast) : x.Breaks := by
  have hending : x.ending ∈ ((lines t).map Line.ending).dropLast := by
    rw [← map_ending_pieces _ contents, ← List.map_dropLast]
    exact List.mem_map_of_mem h
  unfold Piece.Breaks
  generalize x.ending = e at hending
  clear h
  induction t using Text.rowInduction with
  | last r hr =>
      by_cases hne : r = []
      · subst hne
        exact absurd hending List.not_mem_nil
      · rw [lines_row hr hne] at hending
        exact absurd hending List.not_mem_nil
  | cut r t hr ih =>
      rw [lines_row_append_break hr, List.map_cons] at hending
      by_cases hls : (lines t).map Line.ending = []
      · rw [hls] at hending
        exact absurd hending List.not_mem_nil
      · rw [List.dropLast_cons_of_ne_nil hls] at hending
        rcases List.mem_cons.mp hending with rfl | hending
        · exact Line.ending_ofRow_true r
        · exact ih hending

theorem not_mem_body {t : Text} {l : Line} (h : l ∈ lines t) : '\n' ∉ l.body := by
  induction t using Text.rowInduction with
  | last r hr =>
      by_cases hne : r = []
      · subst hne
        exact absurd h List.not_mem_nil
      · rw [lines_row hr hne, List.mem_singleton] at h
        exact h ▸ fun hm => hr (Text.mem_of_mem_dropReturn hm)
  | cut r t hr ih =>
      rw [lines_row_append_break hr] at h
      rcases List.mem_cons.mp h with rfl | h
      · exact fun hm => hr (Text.mem_of_mem_dropReturn hm)
      · exact ih h

theorem mem_of_line_mem_pieces {ls : List Line} {contents : List (Option Text)} {l : Line}
    (h : .line l ∈ pieces ls contents) : l ∈ ls := by
  induction ls generalizing contents with
  | nil => exact absurd h List.not_mem_nil
  | cons m ls ih =>
      rw [pieces] at h
      split at h
      · rcases List.mem_cons.mp h with h | h
        · exact Piece.line.inj h ▸ List.mem_cons_self
        · exact List.mem_cons_of_mem m (ih h)
      · rcases List.mem_cons.mp h with h | h
        · cases h
        · exact List.mem_cons_of_mem m (ih h)

theorem exists_row_text {l : Line} (hl : '\n' ∉ l.body) :
    ∃ r z, l.text = r ++ z ∧ '\n' ∉ r ∧ Text.trim r = Text.trim l.body ∧
      (z = [] ∨ z = ['\n']) ∧ ((Piece.line l).Breaks → z = ['\n']) := by
  obtain ⟨body, ending⟩ := l
  have hreturn : '\n' ∉ body ++ ['\r'] := Text.not_mem_concat hl (by decide)
  have htrim : Text.trim (body ++ ['\r']) = Text.trim body := Text.trim_concat_of_blank rfl body
  cases ending with
  | none => exact ⟨body, [], rfl, hl, rfl, .inl rfl, fun h => by rcases h with h | h <;> cases h⟩
  | lf => exact ⟨body, ['\n'], rfl, hl, rfl, .inr rfl, fun _ => rfl⟩
  | cr =>
      refine ⟨body ++ ['\r'], [], (List.append_nil _).symm, hreturn, htrim, .inl rfl, fun h => ?_⟩
      rcases h with h | h <;> cases h
  | crlf =>
      have htext : Line.text ⟨body, .crlf⟩ = body ++ ['\r'] ++ ['\n'] := by
        rw [List.append_assoc]
        rfl
      exact ⟨body ++ ['\r'], ['\n'], htext, hreturn, htrim, .inr rfl, fun _ => rfl⟩

/-! ## Pages -/

/-- A draft, and what has been read since the last directive. -/
structure Page where
  draft : Draft
  pending : Text

namespace Page

def blank : Page := ⟨.empty, []⟩

/-- The draft with all that has been read. -/
def whole (p : Page) : Draft := p.draft.add p.pending

def step (p : Page) : Piece → Page
  | .line l => { p with pending := p.pending ++ l.text }
  | .filled content ending => ⟨p.whole.cut.place content, ending.text⟩

def read (p : Page) (xs : List Piece) : Page := xs.foldl step p

theorem read_append (p : Page) (xs ys : List Piece) : p.read (xs ++ ys) = (p.read xs).read ys :=
  List.foldl_append

theorem read_concat (p : Page) (xs : List Piece) (x : Piece) :
    p.read (xs ++ [x]) = (p.read xs).step x := by
  rw [read_append]
  rfl

/-- To fill the sections of a text is to read its lines, with the contents in their places. -/
theorem fill_sections (d : Draft) (u : Text) (ls : List Line) {contents : List (Option Text)}
    (h : contents.length = (ls.foldr Sections.push ⟨[], []⟩).rest.length) :
    (d.add (u ++ (ls.foldr Sections.push ⟨[], []⟩).lead)).fill
        (contents.zip ((ls.foldr Sections.push ⟨[], []⟩).rest.map Prod.snd)) =
      ((Page.mk d u).read (pieces ls contents)).whole := by
  induction ls generalizing d u contents with
  | nil =>
      obtain rfl := List.length_eq_zero_iff.mp h
      rw [List.foldr_nil, List.append_nil]
      rfl
  | cons l ls ih =>
      rw [List.foldr_cons, Sections.push] at h ⊢
      rw [pieces]
      cases hl : Directive.ofLine? l.body with
      | none =>
          rw [hl] at h
          simp only at h ⊢
          rw [← List.append_assoc]
          exact ih d (u ++ l.text) h
      | some e =>
          rw [hl] at h
          cases contents with
          | nil => cases h
          | cons content contents =>
              simp only [List.length_cons, Nat.add_right_cancel_iff] at h
              simp only [List.append_nil, List.map_cons, List.zip_cons_cons]
              exact ih ((d.add u).cut.place content) l.ending.text h

/-! ## What a page says -/

/-- What has been read can be cut off from what follows, and joins the draft with a break in between
unless that is empty. -/
structure Sound (p : Page) : Prop where
  plain : p.draft.joint = .plain → p.draft.text = []
  pending : p.pending = [] ∨ ∃ u, p.pending = u ++ ['\n']

theorem sound_blank : Sound blank := ⟨fun _ => rfl, .inl rfl⟩

variable {p : Page}

theorem Sound.step (h : p.Sound) {x : Piece} (hx : x.Breaks) : (p.step x).Sound := by
  have hbreak : ∃ u, x.ending.text = u ++ ['\n'] := by
    rcases hx with hx | hx
    · exact ⟨[], by rw [hx]; rfl⟩
    · exact ⟨['\r'], by rw [hx]; rfl⟩
  obtain ⟨u, hu⟩ := hbreak
  cases x with
  | line l =>
      refine ⟨h.plain, .inr ⟨p.pending ++ (l.body ++ u), ?_⟩⟩
      have htext : l.text = l.body ++ (u ++ ['\n']) := congrArg (l.body ++ ·) hu
      simp only [Page.step, htext, List.append_assoc]
  | filled content ending => exact ⟨Draft.place_text_eq_nil, .inr ⟨u, hu⟩⟩

theorem Sound.read (h : p.Sound) {xs : List Piece} (hx : ∀ x ∈ xs, x.Breaks) :
    (p.read xs).Sound := by
  induction xs generalizing p with
  | nil => exact h
  | cons x xs ih =>
      obtain ⟨hfirst, hrest⟩ := List.forall_mem_cons.mp hx
      exact ih (h.step hfirst) hrest

theorem contentLines_add {d : Draft} (h : d.joint = .plain → d.text = []) (u : Text) :
    Text.contentLines (d.add u).text = Text.contentLines d.text ++ Text.contentLines u :=
  (Reading.across_contentLines _).symm.trans
    (Draft.shows_add h (Reading.shows_contentLines _) (Reading.shows_contentLines _)).found

theorem contentLines_place (d : Draft) (content : Option Text) :
    Text.contentLines (d.place content).text =
      Text.contentLines d.text ++ content.elim [] Text.contentLines := by
  refine (Reading.across_contentLines _).symm.trans
    (Draft.shows_place (Reading.shows_contentLines _) (fun x hx => ?_) (fun hn => ?_)).found
  · rw [hx]
    exact Reading.shows_contentLines x
  · rw [hn]
    rfl

theorem contentLines_cut (d : Draft) :
    Text.contentLines d.cut.text = Text.contentLines d.text :=
  Text.contentLines_eq_of_shows (Reading.shows_contentLines d.text).dropBreaks

theorem contentLines_append_ending (t : Text) (e : Ending) :
    Text.contentLines (t ++ e.text) = Text.contentLines t := by
  cases e with
  | none => rw [Ending.text, List.append_nil]
  | lf => exact Text.contentLines_concat_of_blank rfl t
  | cr => exact Text.contentLines_concat_of_blank rfl t
  | crlf =>
      have h : t ++ Ending.crlf.text = t ++ ['\r'] ++ ['\n'] := by
        rw [List.append_assoc]
        rfl
      rw [h, Text.contentLines_concat_of_blank rfl, Text.contentLines_concat_of_blank rfl]

theorem Sound.contentLines_step (h : p.Sound) (x : Piece) :
    Text.contentLines (p.step x).whole.text = Text.contentLines p.whole.text ++ x.shown := by
  cases x with
  | line l =>
      simp only [Page.step, whole]
      rw [contentLines_add h.plain, contentLines_add h.plain,
        Text.rowwise_contentLines.append_of_last h.pending, Line.text, contentLines_append_ending,
        List.append_assoc]
      rfl
  | filled content e =>
      have hending : Text.contentLines e.text = [] := contentLines_append_ending [] e
      rw [whole, Page.step, contentLines_add Draft.place_text_eq_nil, contentLines_place,
        contentLines_cut, hending, List.append_nil]
      rfl

theorem Sound.contentLines_read (h : p.Sound) {xs : List Piece} (hx : ∀ x ∈ xs, x.Breaks) :
    Text.contentLines (p.read xs).whole.text =
      Text.contentLines p.whole.text ++ xs.flatMap Piece.shown := by
  induction xs generalizing p with
  | nil => exact (List.append_nil _).symm
  | cons x xs ih =>
      obtain ⟨hfirst, hrest⟩ := List.forall_mem_cons.mp hx
      rw [List.flatMap_cons, ← List.append_assoc, ← h.contentLines_step]
      exact ih (h.step hfirst) hrest

/-! ## Starting afresh -/

/-- Pages that come to the same, whatever is read next. -/
def Same (p q : Page) : Prop := ∀ w, p.draft.add (p.pending ++ w) = q.draft.add (q.pending ++ w)

theorem Same.whole_eq {q : Page} (h : p.Same q) : p.whole = q.whole := by
  have := h []
  rwa [List.append_nil, List.append_nil] at this

theorem Same.step {q : Page} (h : p.Same q) (x : Piece) : (p.step x).Same (q.step x) := by
  intro w
  cases x with
  | line l =>
      simp only [Page.step, List.append_assoc]
      exact h (l.text ++ w)
  | filled content e => simp only [Page.step, h.whole_eq]

theorem Same.read {q : Page} (h : p.Same q) (xs : List Piece) : (p.read xs).Same (q.read xs) := by
  induction xs generalizing p q with
  | nil => exact h
  | cons x xs ih => exact ih (h.step x)

end Page

/-- The breaks that a section is joined with behind a directive. -/
def Joint.gap (j : Joint) (u : Text) : Text :=
  if j = .apart ∨ (u.dropWhile isBreak).length + 1 < u.length then ['\n', '\n'] else ['\n']

theorem Joint.gap_cases (j : Joint) (u : Text) : j.gap u = ['\n'] ∨ j.gap u = ['\n', '\n'] := by
  unfold gap
  split
  · exact .inr rfl
  · exact .inl rfl

theorem Joint.exists_gap_concat (j : Joint) (u : Text) : ∃ g, j.gap u = g ++ ['\n'] := by
  rcases j.gap_cases u with h | h
  · exact ⟨[], h⟩
  · exact ⟨['\n'], h⟩

/-- A section that does not end in breaks joins the draft with a gap in place of the breaks that it
begins with. -/
theorem Draft.add_append {d : Draft} (hj : d.joint ≠ .plain) (u : Text) {r : Text}
    (hhead : r.head? ≠ some '\n') (hne : r ≠ []) :
    d.add (u ++ r) = ⟨d.text ++ (d.joint.gap u ++ u.dropWhile isBreak) ++ r, .plain⟩ := by
  have hdrop : (u ++ r).dropWhile isBreak = u.dropWhile isBreak ++ r := by
    rw [List.dropWhile_append]
    split
    · next he => rw [List.isEmpty_iff.mp he, Text.dropWhile_isBreak_eq_self hhead, List.nil_append]
    · rfl
  have hsome : (u.dropWhile isBreak ++ r).isEmpty = false :=
    List.isEmpty_eq_false_iff.mpr (List.append_ne_nil_of_right_ne_nil _ hne)
  have hcount : (u.dropWhile isBreak ++ r).length + 1 < (u ++ r).length ↔
      (u.dropWhile isBreak).length + 1 < u.length := by
    simp only [List.length_append]
    omega
  rw [add_of_ne_plain hj, hdrop, hsome, if_neg Bool.false_ne_true]
  simp only [hcount, Joint.gap, List.append_assoc]

namespace Page

variable {p : Page}

theorem Sound.add_row (h : p.Sound) {r : Text} (hr : '\n' ∉ r) (hne : r ≠ []) :
    ∃ v, (v = [] ∨ ∃ u, v = u ++ ['\n']) ∧
      ∀ w, p.draft.add (p.pending ++ (r ++ w)) = ⟨v ++ (r ++ w), .plain⟩ := by
  by_cases hj : p.draft.joint = .plain
  · refine ⟨p.pending, h.pending, fun w => ?_⟩
    simp only [Draft.add, hj, h.plain hj, List.nil_append]
  · refine ⟨p.draft.text ++ (p.draft.joint.gap p.pending ++ p.pending.dropWhile isBreak), .inr ?_,
      fun w => Draft.add_append hj p.pending ?_ (List.append_ne_nil_of_left_ne_nil hne w)⟩
    · obtain ⟨g, hg⟩ := p.draft.joint.exists_gap_concat p.pending
      have hdrop : p.pending.dropWhile isBreak = [] ∨
          ∃ u, p.pending.dropWhile isBreak = u ++ ['\n'] := by
        rcases h.pending with hp | ⟨u, hp⟩
        · exact .inl (by rw [hp, List.dropWhile_nil])
        · exact hp ▸ Text.dropWhile_isBreak_concat u
      rcases hdrop with hp | ⟨u, hp⟩
      · exact ⟨p.draft.text ++ g, by rw [hg, hp, List.append_nil, List.append_assoc]⟩
      · refine ⟨p.draft.text ++ (p.draft.joint.gap p.pending ++ u), ?_⟩
        rw [hp, List.append_assoc, List.append_assoc]
    · rw [List.head?_append_of_ne_nil _ hne]
      exact fun hc => hr (List.mem_of_mem_head? hc)

/-! ## What stays -/

/-- A text is written, and what is written behind it begins with a break. -/
structure Behind (t : Text) (p : Page) : Prop where
  text : ∃ v, p.draft.text = t ++ v ∧ ∀ c ∈ v.head?, c = '\n'
  plain : p.draft.joint = .plain → p.draft.text = t ∧ ∃ v, p.pending = '\n' :: v

variable {t : Text}

theorem Behind.whole (h : Behind t p) :
    ∃ v, p.whole.text = t ++ v ∧ ∀ c ∈ v.head?, c = '\n' := by
  obtain ⟨v, hv, hhead⟩ := h.text
  rcases p.draft.add_cases p.pending with ⟨hj, hadd⟩ | hadd | ⟨gap, hgap, -, hadd⟩
  · obtain ⟨htext, u, hu⟩ := h.plain hj
    refine ⟨p.pending, by rw [Page.whole, hadd, htext], fun c hc => ?_⟩
    rw [hu] at hc
    exact (Option.some.inj hc).symm
  · exact ⟨v, by rw [Page.whole, hadd, hv], hhead⟩
  · refine ⟨v ++ (gap ++ p.pending.dropWhile isBreak), ?_, fun c hc => ?_⟩
    · rw [Page.whole, hadd, hv, List.append_assoc, List.append_assoc]
    · cases v with
      | nil =>
          rcases hgap with ⟨rfl, -⟩ | rfl
          · exact (Option.some.inj hc).symm
          · exact (Option.some.inj hc).symm
      | cons d v => exact hhead c hc

theorem Behind.step (h : Behind t p) (hne : t ≠ []) (hlast : t.getLast? ≠ some '\n') (x : Piece) :
    Behind t (p.step x) := by
  cases x with
  | line l =>
      refine ⟨h.text, fun hj => ?_⟩
      obtain ⟨htext, v, hv⟩ := h.plain hj
      exact ⟨htext, v ++ l.text, congrArg (· ++ l.text) hv⟩
  | filled content e =>
      obtain ⟨v, hv, hhead⟩ := h.whole
      -- no break of the text itself is cut off, for it does not end in one
      have hcut : ∃ v, p.whole.cut.text = t ++ v ∧ ∀ c ∈ v.head?, c = '\n' := by
        obtain ⟨w, hw⟩ := Text.prefix_dropBreaks hlast v
        obtain ⟨z, hz⟩ : Text.dropBreaks (t ++ v) <+: t ++ v := List.rdropWhile_prefix isBreak _
        rw [← hw, List.append_assoc, List.append_cancel_left_eq] at hz
        refine ⟨w, by rw [Draft.cut, hv, hw], fun c hc => hhead c ?_⟩
        rw [← hz, List.head?_append, Option.mem_def.mp hc]
        rfl
      obtain ⟨w, hw, hwhead⟩ := hcut
      have hplain : (p.whole.cut.place content).joint ≠ .plain := fun hj => by
        rcases p.whole.cut.place_cases content with ⟨-, htext, -⟩ | ⟨b, -, -, -, hplace⟩
        · rw [Draft.place_text_eq_nil hj, hw] at htext
          exact hne (List.append_eq_nil_iff.mp htext.symm).1
        · rw [hplace] at hj
          cases hj
      refine ⟨?_, fun hj => absurd hj hplain⟩
      rcases p.whole.cut.place_cases content with ⟨-, htext, -⟩ | ⟨b, -, -, -, hplace⟩
      · exact ⟨w, htext.trans hw, hwhead⟩
      · refine ⟨w ++ (['\n', '\n'] ++ b), ?_, fun c hc => ?_⟩
        · simp only [Page.step, hplace, hw, List.append_assoc]
        · cases w with
          | nil => exact (Option.some.inj hc).symm
          | cons d w => exact hwhead c hc

theorem Behind.read (h : Behind t p) (hne : t ≠ []) (hlast : t.getLast? ≠ some '\n')
    (xs : List Piece) : Behind t (p.read xs) := by
  induction xs generalizing p with
  | nil => exact h
  | cons x xs ih => exact ih (h.step hne hlast x)

end Page

/-- A document that is embedded is a page on which its lines have been read, trimmed. -/
theorem embed_pieces {ε σ : Type} {expand : Directive → Walk ε σ (Option Text)} {current : Path}
    {t out : Text} {c : Chain} {s : σ} (h : (embed expand current t c s).1 = .ok out) :
    ∃ contents, Gives expand (c.opened current) s (directives t) contents ∧
      out = Text.trim (Page.blank.read (pieces (lines t) contents)).whole.text := by
  obtain ⟨contents, hgives, rfl⟩ := embed_eq_ok h
  have hlength : contents.length = (sections t).rest.length := by
    rw [hgives.length_eq, ← sections_rest_map, List.length_map]
  refine ⟨contents, hgives, ?_⟩
  rw [Page.blank, ← Page.fill_sections Draft.empty [] (lines t) hlength]
  rfl

end Compendium
