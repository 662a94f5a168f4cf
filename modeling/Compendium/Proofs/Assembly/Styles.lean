/-
# `Compendium.Proofs.Assembly.Styles` — how headings are styled has no bearing on what is included

Headings are restyled before directives are looked for, so two assemblies that differ in style go
through different texts.  But their rows correspond, before and after trimming: a row is the same in
both, or begins with a mark in both, and then it is no directive in either (`SameDirective`).  So
the runs are in lockstep: they fail alike and report the same (`lockstep_styles`).

What they assemble is the same as well, line by line, but for the headings.  `Options.shownRow` is
what a row of a document comes to in a result, apart from the blanks around it: the row itself, or
its heading written anew, with one more mark in front and an anchor behind as the options have it.
The content lines of two results come in pairs, each from one row of one document that is visited.
-/
import Compendium.Proofs.Assembly.Lockstep
import Compendium.Proofs.Assembly.Trace

namespace Compendium

/-! ## Rows in a style -/

namespace HeadingStyle

/-- What the style puts in front of a heading: one more mark, if it moves it down. -/
def front (style : HeadingStyle) : Text := if style.deeper then ['#'] else []

/-- What the style puts behind a heading: an anchor made of its slug, if it anchors headings and
this one has none. -/
def behind (style : HeadingStyle) (h : Heading) : Text :=
  if style.anchored && h.anchor.isNone then Heading.anchorText (slugAnchor? h.text) else []

theorem line_apply (style : HeadingStyle) (h : Heading) :
    (style.apply h).line = style.front ++ h.line ++ style.behind h := by
  have hmarks : List.replicate (style.apply h).level '#' =
      style.front ++ List.replicate h.level '#' := by
    simp only [apply, front]
    split
    · rfl
    · rfl
  have hanchor : Heading.anchorText (style.apply h).anchor =
      Heading.anchorText h.anchor ++ style.behind h := by
    simp only [apply, behind]
    cases h.anchor with
    | none => cases style.anchored <;> rfl
    | some a => cases style.anchored <;> simp
  simp only [Heading.line, hmarks, hanchor, List.append_assoc, List.cons_append]
  rfl

end HeadingStyle

/-- What a row of a document comes to, apart from the blanks around it: the row as it is, unless it
is a heading; else the heading, with what its style puts around it. -/
def Options.shownRow (opts : Options) (included : Bool) (row : Text) : Text :=
  match Heading.ofLine? row with
  | none => Text.trim row
  | some h => (opts.style included).front ++ h.line ++ (opts.style included).behind h

example : Options.shownRow ⟨true, true, .empty⟩ true "##  Set up \t".toList =
    "### Set up \x7b#set-up\x7d".toList := by decide

theorem Options.trim_restyleLine (opts : Options) (included : Bool) (row : Text) :
    Text.trim ((opts.style included).restyleLine row) = opts.shownRow included row := by
  cases hrow : Heading.ofLine? row with
  | none => simp only [HeadingStyle.restyleLine_of_none hrow, shownRow, hrow]
  | some h =>
      rw [HeadingStyle.trim_restyleLine_of_some hrow, HeadingStyle.restyleLine_of_some hrow,
        HeadingStyle.line_apply]
      simp only [shownRow, hrow]

/-! ## Content lines side by side -/

section Pairs

variable {P : Text → Text → Prop} {r s t t' : Text}

theorem trim_eq_nil_iff_of_sameDirective (h : SameDirective r s) :
    Text.trim r = [] ↔ Text.trim s = [] := by
  have hblank := alike_sameDirective.blank r s h
  rwa [Text.trimStart_eq_nil_iff, ← Text.trim_eq_nil_iff, Text.trimStart_eq_nil_iff,
    ← Text.trim_eq_nil_iff] at hblank

theorem forall₂_contentLines (hr : '\n' ∉ r) (hs : '\n' ∉ s) (h : SameDirective r s)
    (hP : P (Text.trim r) (Text.trim s)) :
    List.Forall₂ P (Text.contentLines r) (Text.contentLines s) := by
  rw [Text.contentLines_of_row hr, Text.contentLines_of_row hs]
  by_cases he : Text.trim r = []
  · rw [if_pos he, if_pos ((trim_eq_nil_iff_of_sameDirective h).mp he)]
    exact .nil
  · rw [if_neg he, if_neg fun hs => he ((trim_eq_nil_iff_of_sameDirective h).mpr hs)]
    exact .cons hP .nil

theorem forall₂_contentLines_content {a b : Option Text}
    (h : Option.Rel (fun u v => List.Forall₂ P (Text.contentLines u) (Text.contentLines v)) a b) :
    List.Forall₂ P ((a.map Text.contentLines).getD []) ((b.map Text.contentLines).getD []) := by
  cases h with
  | some h => exact h
  | none => exact .nil

/-- Where the rows of two texts correspond, and the contents of their directives line by line, so
do the spliced texts. -/
theorem forall₂_contentLines_splice (ht : '\r' ∉ t) (ht' : '\r' ∉ t')
    (hrows : List.Forall₂ (fun r s => SameDirective r s ∧ P (Text.trim r) (Text.trim s))
      t.rows t'.rows)
    {content content' : Directive → Option Text}
    (hcontent : ∀ d ∈ directives t, Option.Rel
      (fun u v => List.Forall₂ P (Text.contentLines u) (Text.contentLines v))
      (content d) (content' d)) :
    List.Forall₂ P (Text.contentLines (t.splice content))
      (Text.contentLines (t'.splice content')) := by
  rw [Text.contentLines_splice ht, Text.contentLines_splice ht']
  have hmem : List.Forall₂ (fun r s => r ∈ t.rows ∧ s ∈ t'.rows ∧
      SameDirective r s ∧ P (Text.trim r) (Text.trim s)) t.rows t'.rows := by
    refine List.forall₂_iff_zip.mpr ⟨hrows.length_eq, fun hz => ?_⟩
    exact ⟨(List.of_mem_zip hz).1, (List.of_mem_zip hz).2, List.forall₂_zip hrows hz⟩
  refine List.rel_flatMap hmem ?_
  rintro r s ⟨hr, hs, hsame, hP⟩
  simp only [← hsame.ofLine?_eq]
  cases hd : Directive.ofLine? r with
  | some d =>
      exact forall₂_contentLines_content (hcontent d ((mem_directives_iff ht).mpr ⟨r, hr, hd⟩))
  | none =>
      exact forall₂_contentLines (Text.not_mem_of_mem_rows hr) (Text.not_mem_of_mem_rows hs)
        hsame hP

end Pairs

theorem forall₂_rows_prepare {P : Text → Text → Prop} (opts opts' : Options) (included : Bool)
    {raw : Text} (hP : ∀ row ∈ Text.rows (Text.uniform raw),
      P (opts.shownRow included row) (opts'.shownRow included row)) :
    List.Forall₂ (fun r s => SameDirective r s ∧ P (Text.trim r) (Text.trim s))
      (Text.rows (opts.prepare included raw)) (Text.rows (opts'.prepare included raw)) := by
  have hraw := Text.not_mem_uniform raw
  refine Text.forall₂_rows_trim (alike_sameDirective.and_trim P) ?_
  rw [HeadingStyle.rows_restyled _ hraw, HeadingStyle.rows_restyled _ hraw,
    List.forall₂_map_left_iff, List.forall₂_map_right_iff, List.forall₂_same]
  intro row hrow
  rw [Options.trim_restyleLine, Options.trim_restyleLine]
  exact ⟨(sameDirective_restyleLine _ row).of_same (sameDirective_restyleLine _ row),
    hP row hrow⟩

/-! ## Two assemblies -/

namespace Store

variable {store : Store} {opts opts' : Options} {input : Path}

/-- Two lines that come from one row of a document that is visited. -/
def SameRow (store : Store) (opts opts' : Options) (input : Path) (l l' : Text) : Prop :=
  ∃ c p raw, store.Visits opts input c p ∧ store.read p = .ok raw ∧
    ∃ row ∈ Text.rows (Text.uniform raw),
      l = opts.shownRow (!c.isEmpty) row ∧ l' = opts'.shownRow (!c.isEmpty) row

theorem lockstep_styles (hroot : opts'.root = opts.root) :
    Lockstep store store opts opts' (baseFolder input)
      (fun c c' p => c' = c ∧ store.Visits opts input c p)
      (fun t t' => List.Forall₂ (store.SameRow opts opts' input) (Text.contentLines t)
        (Text.contentLines t')) where
  target := fun d => by simp only [Options.target, hroot]
  empty := by
    rintro c c' p ⟨rfl, -⟩
    rfl
  read := fun _ => rfl
  omission := by
    rintro c c' p q ⟨rfl, -⟩ -
    rfl
  next := by
    rintro c c' p q ⟨rfl, hvisit⟩ ⟨raw, included, hr, d, hd, rfl⟩ ho
    obtain ⟨hnew, hhas⟩ := omission?_eq_none_iff.mp ho
    rw [directives_prepare, ← directives_prepare opts (!c'.isEmpty)] at hd
    exact ⟨rfl, .nested hvisit hr hd hnew hhas⟩
  splice := by
    rintro c c' p raw content content' ⟨rfl, hvisit⟩ hr hcontent
    refine forall₂_contentLines_splice (not_mem_prepare opts _ raw) (not_mem_prepare opts' _ raw)
      (forall₂_rows_prepare opts opts' _ fun row hrow => ?_) hcontent
    exact ⟨c', p, raw, hvisit, hr, row, hrow, rfl, rfl⟩

/-- How headings are styled makes no difference to what an assembly includes, nor to whether there
is one: two assemblies with one root folder fail alike, or report the same, and the lines that are
not blank come from the same rows of the same documents in the same order.  A row that is no heading
shows the same in both, and a heading differs at most by a mark in front and its anchor behind. -/
theorem assemble_styles (store : Store) (root input : Path) (depth : Nat)
    (deeper contents deeper' contents' : Bool) :
    let opts : Options := ⟨deeper, contents, root⟩
    let opts' : Options := ⟨deeper', contents', root⟩
    (∃ e, store.assemble opts depth input = .error e ∧
      store.assemble opts' depth input = .error e) ∨
    ∃ t t' omissions,
      store.expand opts (baseFolder input) depth input.canonical .empty [] =
        (.ok t, .empty, omissions) ∧
      store.expand opts' (baseFolder input) depth input.canonical .empty [] =
        (.ok t', .empty, omissions) ∧
      store.assemble opts depth input = .ok (opts.finish t omissions) ∧
      store.assemble opts' depth input = .ok (opts'.finish t' omissions) ∧
      List.Forall₂ (store.SameRow opts opts' input) (Text.contentLines t)
        (Text.contentLines t') := by
  intro opts opts'
  have hstep : Lockstep store store opts opts' (baseFolder input) _ _ := lockstep_styles rfl
  rcases hstep.assemble depth ⟨rfl, .root⟩ with herror | ⟨t, t', x, ht, ht', hlines⟩
  · exact .inl herror
  · exact .inr ⟨t, t', x, ht [], ht' [], assemble_of_steady ht, assemble_of_steady ht', hlines⟩

end Store
end Compendium
