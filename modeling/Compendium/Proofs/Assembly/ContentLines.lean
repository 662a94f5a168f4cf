/-
# `Compendium.Proofs.Assembly.ContentLines` — no text is lost, repeated or moved

Blank lines and the blanks at the ends of a line are all that expansion may change: going through
the rows of the prepared document in order, the content lines of its expansion are those of the
nested document where a directive is expanded, none where it is dropped, and the row's own
everywhere else.

Content lines are a reading in which every row is fit, so this is `Text.shows_splice` once a call
is taken apart.  It holds on every chain and in every store, whether or not a run of an assembly
leads there.
-/
import Compendium.Proofs.Assembly.Expansion
import Compendium.Proofs.Draft.Reading
import Compendium.Proofs.Heading.Style
import Compendium.Proofs.Text.Alike
import Compendium.Proofs.Text.Uniform

namespace Compendium

/-! ## The text of a document before its directives are replaced

A prepared text has no carriage returns, so its lines are its rows (`not_mem_prepare`), and no tabs
(`tab_not_mem_prepare`).  How its headings are styled makes no difference to its directives
(`directives_prepare`): restyling changes heading lines only, which begin with `#` before and after,
and no directive does. -/

/-! ### No carriage returns, no tabs -/

/-- The only blanks of a prepared text are spaces and those of the uniform text. -/
theorem not_mem_prepare_of_blank {c : Char} (hb : isBlank c = true) (hspace : c ≠ ' ') {raw : Text}
    (hraw : c ∉ Text.uniform raw) (opts : Options) (included : Bool) :
    c ∉ opts.prepare included raw := by
  intro hm
  rcases HeadingStyle.mem_restyle_of_blank hb hm with hm | hm
  · exact hraw hm
  · exact hspace hm

theorem not_mem_prepare (opts : Options) (included : Bool) (raw : Text) :
    '\r' ∉ opts.prepare included raw :=
  not_mem_prepare_of_blank (by decide) (by decide) (Text.not_mem_uniform raw) opts included

theorem tab_not_mem_prepare (opts : Options) (included : Bool) (raw : Text) :
    '\t' ∉ opts.prepare included raw :=
  not_mem_prepare_of_blank (by decide) (by decide) (Text.tab_not_mem_uniform raw) opts included

/-! ### The directives -/

theorem directives_eq_flatMap_rows {t : Text} (ht : '\r' ∉ t) :
    directives t = t.rows.flatMap fun r => (Directive.ofLine? r).toList :=
  filterMap_lines rfl ht

theorem mem_directives_iff {t : Text} (ht : '\r' ∉ t) {d : Directive} :
    d ∈ directives t ↔ ∃ r ∈ t.rows, Directive.ofLine? r = some d := by
  simp only [directives_eq_flatMap_rows ht, List.mem_flatMap, Option.mem_toList]

/-- Rows that are the same, or of which neither is a directive since both begin with a mark. -/
def SameDirective (r s : Text) : Prop := r = s ∨ r.head? = some '#' ∧ s.head? = some '#'

theorem alike_sameDirective : Text.Alike SameDirective where
  start := by
    rintro r s (rfl | ⟨hr, hs⟩)
    · exact .inl rfl
    · obtain ⟨u, rfl⟩ := List.head?_eq_some_iff.mp hr
      obtain ⟨v, rfl⟩ := List.head?_eq_some_iff.mp hs
      exact .inr ⟨rfl, rfl⟩
  stop := by
    rintro r s (rfl | ⟨hr, hs⟩)
    · exact .inl rfl
    · obtain ⟨u, rfl⟩ := List.head?_eq_some_iff.mp hr
      obtain ⟨v, rfl⟩ := List.head?_eq_some_iff.mp hs
      exact .inr ⟨Text.head?_trimEnd (by decide) u, Text.head?_trimEnd (by decide) v⟩
  blank := by
    rintro r s (rfl | ⟨hr, hs⟩)
    · exact .rfl
    · obtain ⟨u, rfl⟩ := List.head?_eq_some_iff.mp hr
      obtain ⟨v, rfl⟩ := List.head?_eq_some_iff.mp hs
      exact iff_of_false (List.cons_ne_nil _ _) (List.cons_ne_nil _ _)

theorem sameDirective_restyleLine (style : HeadingStyle) (r : Text) :
    SameDirective r (style.restyleLine r) := by
  cases hr : Heading.ofLine? r with
  | none => exact .inl (HeadingStyle.restyleLine_of_none hr).symm
  | some h =>
      exact .inr ⟨Heading.head?_of_ofLine? hr, HeadingStyle.head?_restyleLine_of_some hr⟩

theorem SameDirective.of_same {r s t : Text} (h : SameDirective r s) (h' : SameDirective r t) :
    SameDirective s t := by
  rcases h with rfl | ⟨hr, hs⟩
  · exact h'
  · rcases h' with rfl | ⟨-, ht⟩
    · exact .inr ⟨hs, hr⟩
    · exact .inr ⟨hs, ht⟩

theorem SameDirective.ofLine?_eq {r s : Text} (h : SameDirective r s) :
    Directive.ofLine? r = Directive.ofLine? s := by
  rcases h with rfl | ⟨hr, hs⟩
  · rfl
  · rw [Directive.ofLine?_of_head? hr, Directive.ofLine?_of_head? hs]

theorem directives_prepare (opts : Options) (included : Bool) (raw : Text) :
    directives (opts.prepare included raw) = directives (Text.trim (Text.uniform raw)) := by
  have hraw := Text.not_mem_uniform raw
  have hrows : List.Forall₂ SameDirective (Text.rows (Text.trim (Text.uniform raw)))
      (Text.rows (opts.prepare included raw)) := by
    refine Text.forall₂_rows_trim alike_sameDirective ?_
    rw [HeadingStyle.rows_restyled _ hraw, List.forall₂_map_right_iff, List.forall₂_same]
    exact fun r _ => sameDirective_restyleLine _ r
  rw [directives_eq_flatMap_rows (not_mem_prepare opts included raw),
    directives_eq_flatMap_rows fun hm => hraw (Text.mem_of_mem_trim hm)]
  exact (Text.flatMap_rows_eq (fun r s h => congrArg Option.toList h.ofLine?_eq) hrows).symm

/-! ## The content lines of an expansion -/

theorem Text.contentLines_splice {t : Text} (ht : '\r' ∉ t) (content : Directive → Option Text) :
    contentLines (t.splice content) = t.rows.flatMap fun r =>
      match Directive.ofLine? r with
      | some d => ((content d).map contentLines).getD []
      | none => contentLines r := by
  have hshows : Reading.contentLines.Shows (t.splice content) (t.rows.flatMap
      (Reading.contentLines.atRow fun d => ((content d).map contentLines).getD [])) :=
    shows_splice ht (fun _ _ _ => trivial)
      (fun d _ u hu => hu ▸ Reading.shows_contentLines u) (fun d _ hd => hd ▸ rfl)
  rw [← Reading.across_contentLines, hshows.found]
  refine List.flatMap_congr fun r hr => ?_
  simp only [Reading.atRow]
  cases Directive.ofLine? r with
  | some d => rfl
  | none => exact (contentLines_of_row (not_mem_of_mem_rows hr)).symm

namespace Store

variable {store : Store} {opts : Options} {base : Path} {depth : Nat} {c c' : Chain} {path : Path}

/-- On the chain `c` the document at `path` is expanded to `t`, whatever was reported before. -/
def ComesTo (store : Store) (opts : Options) (base : Path) (depth : Nat) (c : Chain) (path : Path)
    (t : Text) : Prop :=
  ∀ omissions, ∃ omissions', store.expand opts base depth path c omissions = (.ok t, c, omissions')

/-- The content lines of an expanded document are those of its prepared rows, with the content
lines of the nested document in the place of each directive that is expanded. -/
theorem contentLines_expand {omissions omissions' : List Omission} {t : Text}
    (h : store.expand opts base (depth + 1) path c omissions = (.ok t, c', omissions')) :
    ∃ (raw : Text) (nested : Directive → List Text), store.read path = .ok raw ∧
      (∀ d ∈ directives (opts.prepare (!c.isEmpty) raw),
        match store.omission? (c.opened path) (opts.target base d) with
        | some _ => nested d = []
        | none => ∃ u, store.ComesTo opts base depth (c.opened path) (opts.target base d) u ∧
            nested d = Text.contentLines u) ∧
      Text.contentLines t = (Text.rows (opts.prepare (!c.isEmpty) raw)).flatMap fun r =>
        match Directive.ofLine? r with
        | some d => nested d
        | none => Text.contentLines r := by
  obtain ⟨x, hx, -, -⟩ := steady_of_expand_eq h
  obtain ⟨raw, content, added, hr, hf, ht, -⟩ := expand_eq_ok_iff.mp hx
  rw [ht]
  refine ⟨raw, fun d => ((content d).map Text.contentLines).getD [], hr, fun d hd => ?_,
    Text.contentLines_splice (not_mem_prepare opts _ raw) content⟩
  cases ho : store.omission? (c.opened path) (opts.target base d) with
  | some kind =>
      obtain ⟨hnone, -⟩ := (hf d hd).of_omitted ho
      simp only [hnone, Option.map_none, Option.getD_none]
  | none =>
      obtain ⟨u, hu, he⟩ := (hf d hd).of_kept ho
      simp only [hu, Option.map_some, Option.getD_some]
      exact ⟨u, fun omissions => ⟨_, he omissions⟩, rfl⟩

end Store

namespace Library

/-- Two documents that include each other, and a directive that leads nowhere. -/
def looped : Library := .ofList
  [(⟨"a.md".toList⟩, "# A\n:[b](b.md)\nmid\n:[c](c.md)\n  end".toList),
    (⟨"b.md".toList⟩, "text\n:[a](a.md)".toList)]

theorem contentLines_expand_looped :
    let opts : Options := ⟨true, false, .empty⟩
    let path : Path := ⟨"a.md".toList⟩
    let chain := Chain.empty.opened path
    let t : Text := "# A\n\ntext\n\nmid\n  end".toList
    looped.store.expand opts .empty (1 + 1) path .empty [] = (.ok t, .empty,
        [⟨.cyclic, ⟨"b.md".toList⟩, path⟩, ⟨.missing, path, ⟨"c.md".toList⟩⟩]) ∧
      ∃ (raw : Text) (nested : Directive → List Text), looped.store.read path = .ok raw ∧
        (∀ d ∈ directives (opts.prepare (!Chain.empty.isEmpty) raw),
          match looped.store.omission? chain (opts.target .empty d) with
          | some _ => nested d = []
          | none => ∃ u, looped.store.ComesTo opts .empty 1 chain (opts.target .empty d) u ∧
              nested d = Text.contentLines u) ∧
        Text.contentLines t =
          (Text.rows (opts.prepare (!Chain.empty.isEmpty) raw)).flatMap fun r =>
            match Directive.ofLine? r with
            | some d => nested d
            | none => Text.contentLines r := by
  intro opts path chain t
  have h : looped.store.expand opts .empty (1 + 1) path .empty [] = (.ok t, .empty,
      [⟨.cyclic, ⟨"b.md".toList⟩, path⟩, ⟨.missing, path, ⟨"c.md".toList⟩⟩]) := by
    decide +kernel
  exact ⟨h, Store.contentLines_expand h⟩

end Library

end Compendium
