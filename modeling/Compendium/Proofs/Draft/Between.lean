/-
# `Compendium.Proofs.Draft.Between` — what comes between two lines when directives are gone

Blank lines keep paragraphs apart.  Where a directive stands between two paragraphs and is dropped,
the blank lines before it go with it, and only those behind the last directive are looked at.  So
two paragraphs can run into one.  They are still apart if a directive between them is expanded, or a
blank line comes last, or there is more than breaks to what stands between them: a space, or a
carriage return (`Parted`).

The first of the two lines ends a page (`Page.below`).  What is read below it is first added as it
stands; behind a directive it is left out or cut off, and `Draft.Left` keeps account of what there
is.  So it is known when the next line comes (`Page.add_idle`).
-/
import Compendium.Proofs.Draft.Pieces

namespace Compendium

open Text (Edged Gapped)

/-! ## What keeps lines apart -/

namespace Piece

/-- A blank line, or a directive, that another line follows. -/
def Idle (x : Piece) : Prop := x.Breaks ∧ ∀ l, x = .line l → Text.trim l.body = []

/-- More than a break comes of the piece: it is expanded, or there is other white space on its
line. -/
def Stays : Piece → Prop
  | line l => ∃ c ∈ l.text, c ≠ '\n'
  | filled content e => content ≠ none ∨ ∃ c ∈ e.text, c ≠ '\n'

end Piece

/-- The lines around are kept apart. -/
def Parted (mid : List Piece) : Prop :=
  (∃ x ∈ mid, x.Stays) ∨ ∃ l, mid.getLast? = some (.line l)

theorem parted_lines {ls : List Line} : Parted (ls.map Piece.line) ↔ ls ≠ [] := by
  constructor
  · rintro h rfl
    rcases h with ⟨x, hx, -⟩ | ⟨l, hl⟩
    · exact absurd hx List.not_mem_nil
    · cases hl
  · intro hne
    exact .inr ⟨ls.getLast hne, by rw [List.getLast?_map, List.getLast?_eq_some_getLast hne]; rfl⟩

theorem exists_stays_lines {ls : List Line} :
    (∃ x ∈ ls.map Piece.line, x.Stays) ↔ ∃ c ∈ ls.flatMap Line.text, c ≠ '\n' := by
  constructor
  · rintro ⟨x, hx, hstays⟩
    obtain ⟨l, hl, rfl⟩ := List.mem_map.mp hx
    obtain ⟨c, hc, hne⟩ := hstays
    exact ⟨c, List.mem_flatMap.mpr ⟨l, hl, hc⟩, hne⟩
  · rintro ⟨c, hc, hne⟩
    obtain ⟨l, hl, hc⟩ := List.mem_flatMap.mp hc
    exact ⟨.line l, List.mem_map_of_mem hl, c, hc, hne⟩

theorem exists_stays_filled {xs : List Piece} {content : Option Text} {e : Ending}
    {ls : List Line} :
    (∃ x ∈ xs ++ Piece.filled content e :: ls.map Piece.line, x.Stays) ↔
      ((∃ x ∈ xs, x.Stays) ∨ content ≠ none) ∨ ∃ c ∈ e.text ++ ls.flatMap Line.text, c ≠ '\n' := by
  have hfilled : (Piece.filled content e).Stays ↔ content ≠ none ∨ ∃ c ∈ e.text, c ≠ '\n' := .rfl
  have hlines : (∃ x ∈ ls.map Piece.line, x.Stays) ↔ ∃ c ∈ ls.flatMap Line.text, c ≠ '\n' :=
    exists_stays_lines
  simp only [List.mem_append, List.mem_cons, or_and_right, exists_or, exists_eq_left, hfilled,
    hlines, or_assoc]

theorem parted_filled {xs : List Piece} {content : Option Text} {e : Ending} {ls : List Line} :
    Parted (xs ++ Piece.filled content e :: ls.map Piece.line) ↔
      ((∃ x ∈ xs, x.Stays) ∨ content ≠ none) ∨
        (∃ c ∈ e.text ++ ls.flatMap Line.text, c ≠ '\n') ∨ ls ≠ [] := by
  have hlast :
      (∃ l, (xs ++ Piece.filled content e :: ls.map Piece.line).getLast? = some (.line l)) ↔
        ls ≠ [] := by
    rcases List.eq_nil_or_concat' ls with rfl | ⟨ls, l, rfl⟩
    · simp
    · have hsplit : xs ++ Piece.filled content e :: (ls ++ [l]).map Piece.line =
          xs ++ Piece.filled content e :: ls.map Piece.line ++ [.line l] := by simp
      rw [hsplit, List.getLast?_concat]
      exact iff_of_true ⟨l, rfl⟩ (List.append_ne_nil_of_right_ne_nil _ (List.cons_ne_nil _ _))
  rw [Parted, exists_stays_filled, hlast, or_assoc]

/-! ## Blank lines -/

/-- A blank line that another line follows. -/
def Line.Idle (l : Line) : Prop := (Piece.line l).Idle

theorem Ending.trim_text (e : Ending) : Text.trim e.text = [] := by
  cases e <;> decide

namespace Line

variable {l : Line} {ls : List Line}

theorem Idle.trim_text (h : l.Idle) : Text.trim l.text = [] :=
  Text.trim_append_eq_nil_iff.mpr ⟨h.2 l rfl, l.ending.trim_text⟩

theorem Idle.exists_concat (h : l.Idle) : ∃ u, l.text = u ++ ['\n'] := by
  rcases h.1 with he | he
  · exact ⟨l.body, congrArg (fun e => l.body ++ e.text) he⟩
  · refine ⟨l.body ++ ['\r'], ?_⟩
    rw [List.append_assoc]
    exact congrArg (fun e => l.body ++ e.text) he

theorem trim_flatMap_text (h : ∀ l ∈ ls, l.Idle) : Text.trim (ls.flatMap text) = [] := by
  induction ls with
  | nil => rfl
  | cons l ls ih =>
      obtain ⟨hl, hls⟩ := List.forall_mem_cons.mp h
      exact Text.trim_append_eq_nil_iff.mpr ⟨hl.trim_text, ih hls⟩

theorem flatMap_text_concat (h : ∀ l ∈ ls, l.Idle) (hne : ls ≠ []) :
    ∃ u, ls.flatMap text = u ++ ['\n'] ∧ Text.trim u = [] := by
  have hconcat : ∃ u, ls.flatMap text = u ++ ['\n'] := by
    obtain ⟨ls, l, rfl⟩ := (List.eq_nil_or_concat' ls).resolve_left hne
    obtain ⟨u, hu⟩ := (h l (by simp)).exists_concat
    refine ⟨ls.flatMap text ++ u, ?_⟩
    rw [List.flatMap_append, List.flatMap_singleton, hu, List.append_assoc]
  obtain ⟨u, hu⟩ := hconcat
  have htrim := trim_flatMap_text h
  rw [hu, Text.trim_concat_of_blank rfl] at htrim
  exact ⟨u, hu, htrim⟩

theorem ne_break_iff {e : Ending} (he : e = .lf ∨ e = .crlf) (h : ∀ l ∈ ls, l.Idle) :
    e.text ++ ls.flatMap text ≠ ['\n'] ↔
      (∃ c ∈ e.text ++ ls.flatMap text, c ≠ '\n') ∨ ls ≠ [] := by
  by_cases hls : ls = []
  · subst hls
    rcases he with rfl | rfl
    · refine iff_of_false (fun hne => hne rfl) ?_
      rintro (⟨c, hc, hne⟩ | hne)
      · exact hne (List.mem_singleton.mp hc)
      · exact hne rfl
    · exact iff_of_true (by decide) (.inl ⟨'\r', List.mem_cons_self, by decide⟩)
  · refine iff_of_true (fun hone => ?_) (.inr hls)
    obtain ⟨u, hu, -⟩ := flatMap_text_concat h hls
    have hlen := congrArg List.length hone
    rw [hu] at hlen
    rcases he with rfl | rfl
    · simp [Ending.text] at hlen
    · simp [Ending.text] at hlen

end Line

/-! ## Between two lines -/

/-- What a draft has behind a text that it begins with, where it has been cut: whether it has a gap
there, or will get one, is told by what has been read. -/
structure Draft.Left (t : Text) (parted : Prop) (d : Draft) (v : Text) : Prop where
  text : d.text = t ++ v
  head : ∀ c ∈ v.head?, c = '\n'
  last : v.getLast? ≠ some '\n'
  parted : (Gapped (v ++ ['\n']) ∨ d.joint = .apart) ↔ parted

namespace Draft.Left

variable {t u v : Text} {parted : Prop} {d : Draft}

theorem congr {parted' : Prop} (h : Left t parted d v) (hp : parted ↔ parted') :
    Left t parted' d v :=
  ⟨h.text, h.head, h.last, h.parted.trans hp⟩

theorem cut_plain (hlast : t.getLast? ≠ some '\n') (hu : Text.trim u = []) :
    ∃ v, Left t (∃ c ∈ u, c ≠ '\n') (cut ⟨t ++ '\n' :: u, .plain⟩) v := by
  by_cases hstays : ∃ c ∈ u, c ≠ '\n'
  · have hne : Text.dropBreaks u ≠ [] := fun hn => Text.dropBreaks_eq_nil_iff.mp hn hstays
    have hbreak : Text.dropBreaks ('\n' :: u) = '\n' :: Text.dropBreaks u :=
      Text.dropEndWhile_append_of_ne_nil hne ['\n']
    refine ⟨'\n' :: Text.dropBreaks u, ?_, fun c hc => (Option.some.inj hc).symm, ?_, ?_⟩
    · rw [← hbreak]
      exact Text.dropEndWhile_append_of_ne_nil
        (fun he => List.cons_ne_nil _ _ (hbreak.symm.trans he)) t
    · rw [← List.singleton_append, List.getLast?_append_of_ne_nil _ hne]
      exact Text.getLast?_dropBreaks_ne u
    · refine iff_of_true (.inl (Text.gapped_of_blank ?_)) hstays
      rw [Text.dropBreaks, Text.trim_dropEndWhile fun _ => isBlank_of_isBreak, hu]
  · have hbreaks : ¬ ∃ c ∈ '\n' :: u, c ≠ '\n' := by simpa using hstays
    refine ⟨[], ?_, fun _ hc => absurd hc (Option.not_mem_none _), (Option.some_ne_none _).symm,
      iff_of_false ?_ hstays⟩
    · rw [cut, Text.dropBreaks_append_breaks hbreaks, Text.dropBreaks_eq_self hlast,
        List.append_nil]
    · rintro (h | h)
      · exact Text.not_gapped_break h
      · cases h

/-- Blank lines behind a directive are left out, unless there is more than breaks to them. -/
theorem cut_add (h : Left t parted d v) (hj : d.joint ≠ .plain) (hlast : t.getLast? ≠ some '\n')
    (hu : Text.trim u = []) : ∃ w, Left t (parted ∨ ∃ c ∈ u, c ≠ '\n') (d.add u).cut w := by
  by_cases hstays : ∃ c ∈ u, c ≠ '\n'
  · -- the section is written behind a break, up to its last character that is none
    have hne : u.dropWhile isBreak ≠ [] := fun hn => Text.dropWhile_isBreak_eq_nil_iff.mp hn hstays
    have hcore : Text.core u ≠ [] := by
      obtain ⟨c, w, hw, -⟩ := Text.exists_cons_dropBreaks (Text.head?_dropWhile_isBreak_ne u) hne
      exact fun he => List.cons_ne_nil c w (hw.symm.trans he)
    obtain ⟨g, hg⟩ := d.joint.exists_gap_concat u
    refine ⟨v ++ (d.joint.gap u ++ Text.core u), ?_, fun c hc => ?_, ?_, ?_⟩
    · have hadd : d.add u = ⟨d.text ++ d.joint.gap u ++ u.dropWhile isBreak, .plain⟩ := by
        rw [add_of_ne_plain hj, if_neg (by simpa using hne), Joint.gap]
      rw [hadd, cut, Text.dropBreaks_append (Text.head?_dropWhile_isBreak_ne u) hne, h.text,
        List.append_assoc, List.append_assoc]
      rfl
    · cases v with
      | nil =>
          rcases d.joint.gap_cases u with hgap | hgap
          · rw [hgap] at hc
            exact (Option.some.inj hc).symm
          · rw [hgap] at hc
            exact (Option.some.inj hc).symm
      | cons b v => exact h.head c hc
    · rw [← List.append_assoc, List.getLast?_append_of_ne_nil _ hcore]
      exact Text.getLast?_dropBreaks_ne _
    · refine iff_of_true (.inl ?_) (.inr hstays)
      have hblank : Text.trim (Text.core u) = [] := by rw [Text.trim_core, hu]
      refine (Text.gapped_of_blank hblank).mono ⟨v ++ g, [], ?_⟩
      simp only [hg, List.append_assoc, List.append_nil, List.cons_append, List.nil_append]
  · -- breaks alone add nothing, and there are none to cut off
    have hadd : d.add u = d := by
      rw [add_of_ne_plain hj, Text.dropWhile_isBreak_eq_nil_iff.mpr hstays]
      rfl
    have hcut : d.text.getLast? ≠ some '\n' := by
      rw [h.text]
      rcases List.eq_nil_or_concat' v with rfl | ⟨w, c, rfl⟩
      · rwa [List.append_nil]
      · have := h.last
        rwa [← List.append_assoc, List.getLast?_concat, ← List.getLast?_concat (l := w)]
    refine ⟨v, ?_, h.head, h.last, ?_⟩
    · rw [hadd, cut, Text.dropBreaks_eq_self hcut, h.text]
    · rw [hadd, or_iff_left hstays]
      exact h.parted

theorem place (h : Left t parted d v) (ht : t ≠ []) (content : Option Text) :
    (d.place content).joint ≠ .plain ∧
      ∃ w, Left t (parted ∨ content ≠ none) (d.place content) w := by
  have hne : d.text ≠ [] := by
    rw [h.text]
    exact List.append_ne_nil_of_left_ne_nil ht v
  cases content with
  | none =>
      have hapart : (d.place none).joint = .apart ↔ d.joint = .apart := by
        simp only [Draft.place]
        split
        · next hd =>
          have hclose : Joint.close ≠ .apart := by decide
          have hplain : Joint.plain ≠ .apart := by decide
          exact iff_of_false hclose (hd.1 ▸ hplain)
        · rfl
      have htext : (d.place none).text = d.text := by
        simp only [Draft.place]
        split <;> rfl
      refine ⟨fun hj => hne (htext ▸ place_text_eq_nil hj), v, htext.trans h.text, h.head, h.last,
        ?_⟩
      rw [hapart, or_iff_left (not_not.mpr rfl)]
      exact h.parted
  | some x =>
      have hapart : (d.place (some x)).joint = .apart := rfl
      refine ⟨by rw [hapart]; decide, ?_⟩
      have hparted {w : Text} : (Gapped (w ++ ['\n']) ∨ (d.place (some x)).joint = .apart) ↔
          parted ∨ some x ≠ none := iff_of_true (.inr hapart) (.inr (Option.some_ne_none x))
      rcases d.place_cases (some x) with ⟨-, htext, -⟩ | ⟨b, -, hb, htrim, hplace⟩
      · exact ⟨v, htext.trans h.text, h.head, h.last, hparted⟩
      · refine ⟨v ++ (['\n', '\n'] ++ b), ?_, fun c hc => ?_, ?_, hparted⟩
        · rw [hplace, h.text]
          simp only [List.append_assoc]
        · cases v with
          | nil => exact (Option.some.inj hc).symm
          | cons e v => exact h.head c hc
        · rw [← List.append_assoc, List.getLast?_append_of_ne_nil _ hb]
          exact (edges_of_trim htrim).2

theorem edged (h : Left t parted d v) (hu : ∃ z, u = z ++ ['\n']) :
    Edged (v ++ (d.joint.gap u ++ u.dropWhile isBreak)) := by
  refine Text.edged_iff.mpr ⟨?_, ?_⟩
  · cases v with
    | nil => rcases d.joint.gap_cases u with hgap | hgap <;> exact ⟨_, by rw [hgap]; rfl⟩
    | cons c v => exact ⟨_, by rw [h.head c rfl]; rfl⟩
  · obtain ⟨g, hg⟩ := d.joint.exists_gap_concat u
    obtain ⟨z, hz⟩ := hu
    rcases Text.dropWhile_isBreak_concat z with hd | ⟨w, hd⟩
    · exact ⟨v ++ g, by rw [hg, hz, hd, List.append_nil, List.append_assoc]⟩
    · refine ⟨v ++ (d.joint.gap u ++ w), ?_⟩
      nth_rewrite 2 [hz]
      rw [hd, List.append_assoc, List.append_assoc]

/-- What comes between the text and the next line has a gap if something has stayed, or more than
one break was read. -/
theorem gapped_iff (h : Left t parted d v) (hu : ∃ z, u = z ++ ['\n'] ∧ Text.trim z = []) :
    Gapped (v ++ (d.joint.gap u ++ u.dropWhile isBreak)) ↔ parted ∨ u ≠ ['\n'] := by
  obtain ⟨z, rfl, hz⟩ := hu
  have hapart {w : Text} (hw : d.joint.gap (z ++ ['\n']) = ['\n', '\n']) :
      Gapped (v ++ (d.joint.gap (z ++ ['\n']) ++ w)) := by
    refine (Text.gapped_of_blank (r := []) rfl).mono ⟨v, w, ?_⟩
    rw [hw, List.append_assoc]
    rfl
  by_cases hone : z = []
  · subst hone
    by_cases hj : d.joint = .apart
    · exact iff_of_true (hapart (if_pos (.inl hj))) (.inl (h.parted.mp (.inr hj)))
    · have hgap : d.joint.gap ([] ++ ['\n']) = ['\n'] := if_neg fun hc => hc.elim hj (by decide)
      rw [hgap, ← h.parted, or_iff_left hj, List.nil_append, or_iff_left (not_not.mpr rfl)]
      rfl
  · have hmore : z ++ ['\n'] ≠ ['\n'] := fun he => hone (List.append_left_eq_self.mp he)
    refine iff_of_true ?_ (.inr hmore)
    -- several breaks make a gap, and other blanks stand between a break and the last one
    by_cases hd : (z ++ ['\n']).dropWhile isBreak = []
    · refine hapart (if_pos (.inr ?_))
      rw [hd, List.length_append]
      exact Nat.add_lt_add_right (List.length_pos_of_ne_nil hone) 1
    · obtain ⟨g, hg⟩ := d.joint.exists_gap_concat (z ++ ['\n'])
      have hrest : (z ++ ['\n']).dropWhile isBreak = z.dropWhile isBreak ++ ['\n'] := by
        rw [List.dropWhile_append] at hd ⊢
        split
        · next he =>
          rw [if_pos he] at hd
          exact absurd rfl hd
        · rfl
      have hblank : Text.trim (z.dropWhile isBreak) = [] := by
        rw [Text.trim_eq_nil_iff] at hz ⊢
        exact fun c hc => hz c (Text.mem_of_mem_dropWhile hc)
      refine (Text.gapped_of_blank hblank).mono ⟨v ++ g, [], ?_⟩
      rw [hrest, hg]
      simp only [List.append_assoc, List.append_nil, List.cons_append, List.nil_append]

end Draft.Left

namespace Page

variable {t : Text}

/-- A page with a line of text at its end. -/
def below (t : Text) : Page := ⟨⟨t, .plain⟩, ['\n']⟩

/-- Below a line of text, blank lines and directives have been read: blank lines only, or some
directives, the last of them with blank lines behind it. -/
theorem read_idle (ht : t ≠ []) (hlast : t.getLast? ≠ some '\n') {mid : List Piece}
    (hmid : ∀ x ∈ mid, x.Idle) :
    (∃ ls : List Line, mid = ls.map Piece.line ∧
      (below t).read mid = ⟨⟨t, .plain⟩, '\n' :: ls.flatMap Line.text⟩) ∨
    ∃ (xs : List Piece) (content : Option Text) (e : Ending) (ls : List Line) (d : Draft)
      (v : Text), mid = xs ++ Piece.filled content e :: ls.map Piece.line ∧
      (below t).read mid = ⟨d, e.text ++ ls.flatMap Line.text⟩ ∧ d.joint ≠ .plain ∧
      d.Left t ((∃ x ∈ xs, x.Stays) ∨ content ≠ none) v := by
  -- from the end, for a directive acts on what has been read before it
  induction mid using List.reverseRecOn with
  | nil => exact .inl ⟨[], rfl, rfl⟩
  | append_singleton mid x ih =>
      have hidle : ∀ y ∈ mid, y.Idle := fun y hy => hmid y (List.mem_append_left _ hy)
      rw [read_concat]
      cases x with
      | line l =>
          rcases ih hidle with
            ⟨ls, rfl, hread⟩ | ⟨xs, content, e, ls, d, v, rfl, hread, hj, hleft⟩
          · refine .inl ⟨ls ++ [l], by simp, ?_⟩
            rw [hread, step, List.flatMap_append, List.flatMap_singleton]
            rfl
          · refine .inr ⟨xs, content, e, ls ++ [l], d, v, by simp, ?_, hj, hleft⟩
            rw [hread, step, List.flatMap_append, List.flatMap_singleton, List.append_assoc]
      | filled content e =>
          refine .inr ?_
          rcases ih hidle with
            ⟨ls, rfl, hread⟩ | ⟨xs, content', e', ls, d, v, rfl, hread, hj, hleft⟩
          · have hls : ∀ l ∈ ls, l.Idle := fun l hl => hidle _ (List.mem_map_of_mem hl)
            obtain ⟨v, hcut⟩ := Draft.Left.cut_plain hlast (Line.trim_flatMap_text hls)
            obtain ⟨hj, w, hplace⟩ := (hcut.congr exists_stays_lines.symm).place ht content
            refine ⟨_, content, e, [], _, w, rfl, ?_, hj, hplace⟩
            rw [hread, step, List.flatMap_nil, List.append_nil]
            rfl
          · have hls : ∀ l ∈ ls, l.Idle := fun l hl =>
              hidle _ (List.mem_append_right _ (List.mem_cons_of_mem _ (List.mem_map_of_mem hl)))
            have hblank : Text.trim (e'.text ++ ls.flatMap Line.text) = [] :=
              Text.trim_append_eq_nil_iff.mpr ⟨e'.trim_text, Line.trim_flatMap_text hls⟩
            obtain ⟨w, hcut⟩ := hleft.cut_add hj hlast hblank
            obtain ⟨hj, w, hplace⟩ := (hcut.congr exists_stays_filled.symm).place ht content
            refine ⟨_, content, e, [], _, w, rfl, ?_, hj, hplace⟩
            rw [hread, step, List.flatMap_nil, List.append_nil]
            rfl

/-- What comes between a line of text and the next: a break, or two with something between them. -/
theorem add_idle (ht : t ≠ []) (hlast : t.getLast? ≠ some '\n') {mid : List Piece}
    (hmid : ∀ x ∈ mid, x.Idle) :
    ∃ g, Edged g ∧ (Gapped g ↔ Parted mid) ∧
      ∀ r, r.head? ≠ some '\n' → r ≠ [] →
        ((below t).read mid).draft.add (((below t).read mid).pending ++ r) =
          ⟨t ++ (g ++ r), .plain⟩ := by
  rcases read_idle ht hlast hmid with
    ⟨ls, rfl, hread⟩ | ⟨xs, content, e, ls, d, v, rfl, hread, hj, hleft⟩
  · have hls : ∀ l ∈ ls, l.Idle := fun l hl => hmid _ (List.mem_map_of_mem hl)
    rw [hread, parted_lines]
    refine ⟨'\n' :: ls.flatMap Line.text, ?_, ?_, fun r _ _ => rfl⟩
    · by_cases hne : ls = []
      · exact .inl (by rw [hne, List.flatMap_nil])
      · obtain ⟨u, hu, -⟩ := Line.flatMap_text_concat hls hne
        exact .inr ⟨u, by rw [hu]⟩
    · by_cases hne : ls = []
      · rw [hne, List.flatMap_nil]
        exact iff_of_false Text.not_gapped_break (not_not.mpr rfl)
      · obtain ⟨u, hu, hblank⟩ := Line.flatMap_text_concat hls hne
        rw [hu]
        exact iff_of_true (Text.gapped_of_blank hblank) hne
  · have hfilled : (Piece.filled content e).Idle :=
      hmid _ (List.mem_append_right _ List.mem_cons_self)
    -- the break of the directive is like that of a blank line before the others
    have hls : ∀ l ∈ Line.mk [] e :: ls, l.Idle := by
      refine List.forall_mem_cons.mpr ⟨⟨hfilled.1, fun l hl => Piece.line.inj hl ▸ rfl⟩, ?_⟩
      exact fun l hl =>
        hmid _ (List.mem_append_right _ (List.mem_cons_of_mem _ (List.mem_map_of_mem hl)))
    obtain ⟨u, hu, hblank⟩ := Line.flatMap_text_concat hls (List.cons_ne_nil _ _)
    replace hu : e.text ++ ls.flatMap Line.text = u ++ ['\n'] := hu
    rw [hread, parted_filled]
    refine ⟨v ++ (d.joint.gap (e.text ++ ls.flatMap Line.text) ++
      (e.text ++ ls.flatMap Line.text).dropWhile isBreak), hleft.edged ⟨u, hu⟩, ?_,
      fun r hhead hne => ?_⟩
    · rw [hleft.gapped_iff ⟨u, hu, hblank⟩]
      exact or_congr_right (Line.ne_break_iff hfilled.1 (List.forall_mem_cons.mp hls).2)
    · rw [Draft.add_append hj _ hhead hne, hleft.text]
      simp only [List.append_assoc]

end Page

end Compendium
