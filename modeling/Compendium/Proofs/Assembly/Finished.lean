/-
# `Compendium.Proofs.Assembly.Finished` — what can stand in an assembly that no step would have left

An assembly is finished in one go.  The list of contents is made and put in place, the markers are
taken out, and the text is trimmed; none of the steps before looks at the result again.  So a
directive, a heading or a marker that comes about at the end stays.

For each of the three it is said here when that can be.  All comes down to the rows of the documents
that are reached.
-/
import Compendium.Proofs.Assembly.Rows
import Compendium.Proofs.Contents.Clearing

namespace Compendium

/-! ## Directives that are left

Directives are looked for in the prepared text of a document, and all that are found are replaced or
dropped.  What comes of the document is trimmed afterwards.  So a line that has blanks around a
directive, and is none for that reason, can become one: it is the first line that is left when the
directives and markers before it are gone, or the last one.  Nothing looks at it again.

This is the only way for a directive to get into an assembly.  Each one comes from a row that hides
it (`directives_assemble`), and where no document has such a row, there is none. -/

open Relation (ReflTransGen)

/-- A prepared document that `path` leads to has a row which is no directive, but which is the line
of `d` once it is trimmed. -/
def Store.Hides (store : Store) (opts : Options) (base path : Path) (d : Directive) : Prop :=
  ∃ p raw included, ReflTransGen (store.Includes opts base) path p ∧ store.read p = .ok raw ∧
    ∃ r ∈ Text.rows (opts.prepare included raw), Directive.ofLine? r = none ∧ Text.trim r = d.line

/-- A directive that the row becomes when it is trimmed is hidden in some document. -/
def Store.Accounts (store : Store) (opts : Options) (base path : Path) (r : Text) : Prop :=
  ∀ d, Directive.ofLine? (Text.trim r) = some d → store.Hides opts base path d

section Accounts

variable {store : Store} {opts : Options} {base path : Path}

theorem kept_accounts : Kept (store.Accounts opts base path) :=
  kept_trim (P := fun r => ∀ d, Directive.ofLine? r = some d → store.Hides opts base path d)
    fun _ h => absurd h nofun

theorem beside_accounts : store.Beside opts base path (store.Accounts opts base path) := by
  intro p raw included hp hr r hmem hnone d hd
  have hline := Directive.trim_of_ofLine? hd
  rw [Text.trim_trim] at hline
  exact ⟨p, raw, included, hp, hr, r, hmem, hnone, hline⟩

theorem accounts_line (e : Entry) : store.Accounts opts base path e.line := by
  intro d hd
  rw [Directive.ofLine?_eq_none (by rw [e.head?_trim_line]; decide)] at hd
  cases hd

end Accounts

namespace Library

/-- Every directive of an assembly is hidden in a document that the input leads to.  If no row of
these documents becomes a directive when it is trimmed, the assembly has no directive. -/
theorem directives_assemble {lib : Library} {opts : Options} {input : Path} {a : Assembly}
    (h : lib.assemble opts input = .ok a) :
    (∀ d ∈ directives a.content,
      lib.store.Hides opts (Store.baseFolder input) input.canonical d) ∧
    (lib.store.Beside opts (Store.baseFolder input) input.canonical
        (fun r => Directive.ofLine? (Text.trim r) = none) →
      directives a.content = []) := by
  obtain ⟨t, x, hx, rfl⟩ := expansion_of_assemble h
  have ht := Store.not_mem_expand hx
  have hrows : ∀ r ∈ Text.rows (opts.finish t x).content,
      lib.store.Accounts opts (Store.baseFolder input) input.canonical r :=
    rows_finish kept_accounts ht (Store.rows_expand kept_accounts _ beside_accounts hx)
      fun e _ => accounts_line e
  have hhides : ∀ d ∈ directives (opts.finish t x).content,
      lib.store.Hides opts (Store.baseFolder input) input.canonical d := by
    intro d hd
    obtain ⟨r, hr, hread⟩ := (mem_directives_iff (not_mem_finish ht)).mp hd
    -- the row of a directive is one that it becomes when it is trimmed
    obtain ⟨hprint, -⟩ := Directive.ofLine?_eq_some_iff.mp hread
    refine hrows r hr d ?_
    rw [Directive.trim_of_ofLine? hread]
    exact hprint.ofLine?_line
  refine ⟨hhides, fun hflush => List.eq_nil_iff_forall_not_mem.mpr fun d hd => ?_⟩
  obtain ⟨p, raw, included, hp, hr, r, hmem, hnone, hline⟩ := hhides d hd
  have hlost : Directive.ofLine? (Text.trim r) = none := hflush p raw included hp hr r hmem hnone
  obtain ⟨s, -, hread⟩ := (mem_directives_iff (not_mem_finish ht)).mp hd
  obtain ⟨hprint, -⟩ := Directive.ofLine?_eq_some_iff.mp hread
  rw [hline, hprint.ofLine?_line] at hlost
  cases hlost

/-- A directive with an indent, below one that is dropped. -/
def indented : Library := .ofList
  [(⟨"root.md".toList⟩, ":[a](gone.md)\n  :[b](b.md)".toList), (⟨"b.md".toList⟩, "B".toList)]

/-- The same two directives without the indent, and text around them. -/
def flush : Library := .ofList
  [(⟨"root.md".toList⟩, "# A\n:[a](gone.md)\n:[b](b.md) \n  end\n".toList),
    (⟨"b.md".toList⟩, "B".toList)]

theorem directives_assemble_flush :
    let opts : Options := ⟨false, false, ⟨"/r".toList⟩⟩
    let root : Path := ⟨"root.md".toList⟩
    (∃ a, indented.assemble opts root = .ok a ∧
      indented.store.Hides opts (Store.baseFolder root) root.canonical
        ⟨"b".toList, "b.md".toList⟩) ∧
    ∃ a, flush.assemble opts root = .ok a ∧ directives a.content = [] := by
  intro opts root
  have hindented : indented.assemble opts root = .ok ⟨":[b](b.md)".toList, [],
      [⟨.missing, root, ⟨"gone.md".toList⟩⟩]⟩ := by decide +kernel
  have hflush : flush.assemble opts root = .ok ⟨"# A\n\nB\n\n  end".toList, [],
      [⟨.missing, root, ⟨"gone.md".toList⟩⟩]⟩ := by decide +kernel
  refine ⟨⟨_, hindented, (directives_assemble hindented).1 _ ?_⟩,
    ⟨_, hflush, (directives_assemble hflush).2 (beside_of_entries ?_ _ _)⟩⟩
  · decide +kernel
  · decide +kernel

/-- In `indented` the second directive is neither replaced nor dropped. -/
theorem directive_uncovered :
    ∃ a, indented.assemble ⟨false, false, ⟨"/r".toList⟩⟩ ⟨"root.md".toList⟩ = .ok a ∧
      a.omissions = [⟨.missing, ⟨"root.md".toList⟩, ⟨"gone.md".toList⟩⟩] ∧
      directives a.content = [⟨"b".toList, "b.md".toList⟩] := by
  refine ⟨⟨":[b](b.md)".toList, [], [⟨.missing, ⟨"root.md".toList⟩, ⟨"gone.md".toList⟩⟩]⟩, ?_, rfl, ?_⟩
  · decide +kernel
  · decide +kernel

end Library

/-! ## The list of contents

The list is made of the headings of the expanded root document, before it is put in place itself and
before the markers are taken out and the text is trimmed.  It still is the list of contents of what
comes out, if no document has an indented heading (`contents_assemble`).

The condition is needed for one reason only.  An indented heading is none, and if all that is above
it is taken out, its indent goes with the blanks at the start of the text.  Other headings are safe:
they are restyled, so no blank stands at either end of them, and a row that has one can only become
a heading by losing its indent (`Heading.Settled`). -/

/-! ### Settled rows -/

/-- A row that is no heading with blanks before or behind it. -/
structure Heading.Settled (r : Text) : Prop where
  row : '\n' ∉ r
  trimmed : Heading.ofLine? (Text.trimStart r) ≠ none → Text.trim r = r

namespace Heading

variable {r : Text} {c : Char}

theorem Settled.ofLine?_tail (hc : isBlank c = true) (h : Settled (c :: r)) :
    ofLine? (Text.trimStart r) = none := by
  by_contra hne
  refine Text.trim_cons_ne hc _ (h.trimmed ?_)
  rwa [Text.trimStart, List.dropWhile_cons_of_pos hc]

theorem Settled.ofLine?_init (hc : isBlank c = true) (h : Settled (r ++ [c])) :
    ofLine? (Text.trimStart r) = none := by
  have hn : c ≠ '\n' := fun he => h.row (he ▸ List.mem_append_right _ List.mem_cons_self)
  by_contra hne
  refine Text.trim_concat_ne hc _ (h.trimmed ?_)
  have hstart : Text.trimStart (r ++ [c]) = Text.trimStart r ++ [c] := by
    rw [Text.trimStart, List.dropWhile_append, if_neg]
    · rfl
    · intro he
      rw [Text.trimStart, List.isEmpty_iff.mp he] at hne
      exact hne rfl
  rw [hstart]
  refine ofLine?_concat_ne_none hc hn (fun hm => h.row ?_) hne
  exact List.mem_append_left _ (Text.mem_of_mem_dropWhile hm)

/-- A heading begins where its row begins, so a row is none if it is none without its indent. -/
theorem ofLine?_of_trimStart (h : ofLine? (Text.trimStart r) = none) : ofLine? r = none := by
  refine Option.eq_none_iff_forall_ne_some.mpr fun g hg => ?_
  rw [trimStart_of_mark (head?_of_ofLine? hg), hg] at h
  cases h

theorem kept_settled : Kept Settled where
  nil := ⟨List.not_mem_nil, fun _ => rfl⟩
  tail := fun hc h =>
    ⟨fun hm => h.row (List.mem_cons_of_mem _ hm), fun hne => absurd (h.ofLine?_tail hc) hne⟩
  init := fun hc h =>
    ⟨fun hm => h.row (List.mem_append_left _ hm), fun hne => absurd (h.ofLine?_init hc) hne⟩

end Heading

theorem Heading.toList_nil : (ofLine? []).toList = [] := rfl

/-- The heading of a settled row, if it is one. -/
def Reading.settled : Reading Heading where
  find r := (Heading.ofLine? r).toList
  Fit := Heading.Settled
  find_nil := Heading.toList_nil
  fit_nil := Heading.kept_settled.nil
  fit_tail := Heading.kept_settled.tail
  fit_init := Heading.kept_settled.init
  find_tail := fun hc h => by
    have hhead := Heading.ofLine?_of_trimStart (h.ofLine?_tail hc)
    rw [hhead, Heading.ofLine?_eq_none]
    intro he
    rw [Option.some.inj he] at hc
    exact absurd hc (by decide)
  find_init := fun {c r} hc h => by
    have hhead := Heading.ofLine?_of_trimStart (h.ofLine?_init hc)
    have hnone : Heading.ofLine? (r ++ [c]) = none := by
      by_contra hne
      refine Text.trim_concat_ne hc _ (h.trimmed ?_)
      obtain ⟨g, hg⟩ := Option.ne_none_iff_exists'.mp hne
      rwa [Heading.trimStart_of_mark (Heading.head?_of_ofLine? hg)]
    rw [hhead, hnone]

theorem Heading.needsMark_settled : Reading.settled.NeedsMark := fun r hr => by
  simp only [Reading.settled, ofLine?_of_not_mem hr, Option.toList_none]

theorem headings_eq_settled {t : Text} (ht : '\r' ∉ t) : headings t = Reading.settled.across t :=
  filterMap_lines rfl ht

theorem HeadingStyle.settled_restyleLine (style : HeadingStyle) {r : Text} (hr : '\n' ∉ r)
    (h : Heading.ofLine? r = none → Heading.ofLine? (Text.trimStart r) = none) :
    Heading.Settled (style.restyleLine r) := by
  refine ⟨not_mem_restyleLine hr, fun hne => ?_⟩
  cases hh : Heading.ofLine? r with
  | none =>
      rw [restyleLine_of_none hh, h hh] at hne
      exact absurd rfl hne
  | some g => exact trim_restyleLine_of_some hh

theorem shows_settled_line {t : Text} {e : Entry} (he : e ∈ entries (headings t)) :
    Reading.settled.Shows e.line [] := by
  have hsettled : Heading.Settled e.line := by
    refine ⟨not_mem_line he, fun hne => absurd ?_ hne⟩
    rw [e.trimStart_line]
    exact Heading.ofLine?_eq_none (by simp)
  have hrow := Reading.settled.shows_row hsettled.row hsettled
  simpa only [Reading.settled, e.ofLine?_line, Option.toList_none] using hrow

/-! ### The list of an assembly -/

namespace Library

/-- Where no document that is reached has an indented heading, the list of contents of an assembly
is the list of contents of the assembled text, whether or not it is put into the text. -/
theorem contents_assemble {lib : Library} {opts : Options} {input : Path} {a : Assembly}
    (h : lib.assemble opts input = .ok a)
    (hindent : lib.Throughout opts input fun r =>
      Heading.ofLine? r = none → Heading.ofLine? (Text.trimStart r) = none) :
    Contents.ofText a.content = a.contents := by
  obtain ⟨t, x, hx, rfl⟩ := expansion_of_assemble h
  have ht := Store.not_mem_expand hx
  have hsettled : ∀ r ∈ t.rows, Heading.Settled r :=
    Store.rows_expand Heading.kept_settled _
      (hindent.beside Heading.kept_settled fun style _ hr hP => style.settled_restyleLine hr hP) hx
  have hshows : Reading.settled.Shows t (headings t) := ⟨hsettled, (headings_eq_settled ht).symm⟩
  have hcontent : Reading.settled.Shows (opts.finish t x).content (headings t) :=
    (shows_placed Heading.needsMark_settled hshows (fun _ => shows_settled_line) ht).clear
      Heading.needsMark_settled
  have hheadings : headings (opts.finish t x).content = headings t := by
    rw [headings_eq_settled (not_mem_finish ht), hcontent.found]
  simp only [Contents.ofText, hheadings]
  rfl

/-- A document with a marker and a title, and one with a heading that it includes. -/
def titled : Library := .ofList
  [(⟨"root.md".toList⟩, "[[_TOC_]]\n# A {x}\n:[b](b.md)".toList),
    (⟨"b.md".toList⟩, "  text\n## B\n".toList)]

theorem contents_assemble_titled :
    let opts : Options := ⟨false, true, ⟨"/r".toList⟩⟩
    (titled.Throughout opts ⟨"root.md".toList⟩ fun r =>
      Heading.ofLine? r = none → Heading.ofLine? (Text.trimStart r) = none) ∧
    ∃ a, titled.assemble opts ⟨"root.md".toList⟩ = .ok a ∧
      a.contents = "- [B](#b)".toList ∧ Contents.ofText a.content = a.contents := by
  intro opts
  have hindent : titled.Throughout opts ⟨"root.md".toList⟩ fun r =>
      Heading.ofLine? r = none → Heading.ofLine? (Text.trimStart r) = none :=
    throughout_of_entries (by decide +kernel)
  have ha : titled.assemble opts ⟨"root.md".toList⟩ =
      .ok ⟨"- [B](#b)\n\n# A {x}\n\ntext\n## B {#b}".toList, "- [B](#b)".toList, []⟩ := by
    decide +kernel
  exact ⟨hindent, _, ha, rfl, contents_assemble ha hindent⟩

/-- An indented heading below a marker, and a heading below it. -/
def titledBelow : Library := .ofList [(⟨"root.md".toList⟩, "[[_TOC_]]\n  # A\n## B".toList)]

/-- In `titledBelow` the list of contents does not list the one heading that it should. -/
theorem contents_uncovered :
    ∃ a, titledBelow.assemble ⟨false, false, ⟨"/r".toList⟩⟩ ⟨"root.md".toList⟩ = .ok a ∧
      a.contents = [] ∧ Contents.ofText a.content = "- B".toList := by
  refine ⟨⟨"# A\n## B".toList, [], []⟩, ?_, rfl, ?_⟩
  · decide +kernel
  · decide +kernel

end Library

/-! ## Markers that are left

The markers are taken out in one pass, and nothing looks at the result again.  So a marker is left
where taking out another one has closed a block around it, and nowhere else, as long as the blanks
next to brackets and backticks are gaps (`isIn_assemble`).  In particular none is left where no line
of a document opens a block.

Other blanks make a difference since a marker may have gaps around it only, while trimming takes any
blank away: a no-break space before a marker at the start of a text hides it until the text is
trimmed. -/

namespace Marker

variable {r t : Text} {e : Entry}

theorem tight_restyleLine (style : HeadingStyle) (h : Tight r) : Tight (style.restyleLine r) := by
  cases hh : Heading.ofLine? r with
  | none => rwa [HeadingStyle.restyleLine_of_none hh]
  | some g =>
      have hhead : (style.restyleLine r).head? = some '#' :=
        HeadingStyle.head?_restyleLine_of_some hh
      refine tight_of_ends (fun c hc => ?_) (Text.trim_eq_self_iff.mp
        (HeadingStyle.trim_restyleLine_of_some hh)).2
      rw [Heading.trimStart_of_mark hhead, hhead] at hc
      obtain rfl := Option.some.inj hc
      decide

theorem tight_line (he : e ∈ entries (headings t)) : Tight e.line := by
  refine tight_of_ends (fun c hc => ?_) fun c => getLast?_line_of_mem he
  rw [e.trimStart_line] at hc
  obtain rfl : '-' = c := Option.some.inj hc
  decide

theorem not_opening_restyleLine (style : HeadingStyle) (h : Text.trim r ≠ fenceStart) :
    Text.trim (style.restyleLine r) ≠ fenceStart := by
  cases hh : Heading.ofLine? r with
  | none => rwa [HeadingStyle.restyleLine_of_none hh]
  | some g =>
      rw [HeadingStyle.trim_restyleLine_of_some hh]
      intro hf
      have hhead : (style.restyleLine r).head? = some '#' :=
        HeadingStyle.head?_restyleLine_of_some hh
      rw [hf] at hhead
      exact absurd hhead (by decide)

theorem not_opening_line (e : Entry) : Text.trim e.line ≠ fenceStart := by
  intro hf
  have hhead := e.head?_trim_line
  rw [hf] at hhead
  exact absurd hhead (by decide)

end Marker

namespace Library

open Marker

/-- Whether a text with tight rows has a marker when its markers are taken out is whether one of
them stands in an open block.  So it is for the text of an assembly, if the rows of all documents
that are reached are tight; if none of these rows opens a block either, no marker is left. -/
theorem isIn_assemble (lib : Library) (opts : Options) (input : Path) :
    (∀ t : Text, (∀ r ∈ t.rows, Tight r) → (isIn (clear t) = true ↔ Nested t)) ∧
    ∀ a, lib.assemble opts input = .ok a → lib.Throughout opts input Tight →
      (∃ t x, Walk.Steady .empty
          (lib.store.expand opts (Store.baseFolder input) (lib.size + 1) input.canonical) (.ok t) x ∧
        a = opts.finish t x ∧ (isIn a.content = true ↔ Nested (opts.placed t))) ∧
      (lib.Throughout opts input (fun r => Text.trim r ≠ fenceStart) → isIn a.content = false) := by
  refine ⟨fun t => isIn_clear_iff, fun a h htight => ?_⟩
  obtain ⟨t, x, hx, rfl⟩ := expansion_of_assemble h
  have ht := Store.not_mem_expand hx
  have hrows : ∀ r ∈ Text.rows (opts.placed t), Tight r :=
    rows_placed kept_tight ht (Store.rows_expand kept_tight _
      (htight.beside kept_tight fun style _ _ => tight_restyleLine style) hx)
      fun _ => tight_line
  have hleft : isIn (opts.finish t x).content = true ↔ Nested (opts.placed t) :=
    isIn_clear_iff hrows
  refine ⟨⟨t, x, hx, rfl, hleft⟩, fun hopen => ?_⟩
  have hopening : ∀ r ∈ Text.rows (opts.placed t), Text.trim r ≠ fenceStart :=
    rows_placed kept_not_opening ht (Store.rows_expand kept_not_opening _
      (hopen.beside kept_not_opening fun style _ _ => not_opening_restyleLine style) hx)
      fun e _ => not_opening_line e
  exact Bool.eq_false_iff.mpr fun hin => not_nested hopening (hleft.mp hin)

/-- A marker in an open block. -/
def fenced : Library := .ofList [(⟨"root.md".toList⟩, "```toc\n[[_TOC_]]\n```".toList)]

/-- A marker and a block that is none. -/
def marked : Library := .ofList
  [(⟨"root.md".toList⟩, "# A\n  [[_TOC_]] \n## B\n```text\n[x]\n```".toList)]

theorem isIn_assemble_marked :
    let t : Text := "```toc\n[[_TOC_]]\n```".toList
    let opts : Options := ⟨false, false, ⟨"/r".toList⟩⟩
    let root : Path := ⟨"root.md".toList⟩
    (∀ r ∈ t.rows, Tight r) ∧ Nested t ∧
    marked.Throughout opts root Tight ∧
    marked.Throughout opts root (fun r => Text.trim r ≠ fenceStart) ∧
    ∃ a, marked.assemble opts root = .ok a ∧ isIn a.content = false := by
  intro t opts root
  have hgaps : ∀ r ∈ t.rows, r.all (fun c => isGap c == isBlank c) = true := by decide +kernel
  have hrows : ∀ r ∈ t.rows, Tight r := fun r hr => tight_of_gaps (hgaps r hr)
  have hspaces : ∀ e ∈ marked.entries, ∀ r ∈ Text.rows (Text.uniform e.2),
      r.all (fun c => isGap c == isBlank c) = true := by decide +kernel
  have htight : marked.Throughout opts root Tight :=
    throughout_of_entries fun e he r hr => tight_of_gaps (hspaces e he r hr)
  have hopen : marked.Throughout opts root (fun r => Text.trim r ≠ fenceStart) :=
    throughout_of_entries (by decide +kernel)
  have ha : marked.assemble opts root =
      .ok ⟨"# A\n\n## B\n```text\n[x]\n```".toList, "- B".toList, []⟩ := by decide +kernel
  obtain ⟨hclear, hassemble⟩ := isIn_assemble marked opts root
  exact ⟨hrows, (hclear t hrows).mp (by decide +kernel), htight, hopen, _, ha,
    (hassemble _ ha htight).2 hopen⟩

/-- In `fenced` a marker is left. -/
theorem marker_left :
    isIn (clear "```toc\n[[_TOC_]]\n```".toList) = true ∧
    ∃ a, fenced.assemble ⟨false, false, ⟨"/r".toList⟩⟩ ⟨"root.md".toList⟩ = .ok a ∧
      isIn a.content = true := by
  refine ⟨by decide +kernel, ⟨"```toc\n\n```".toList, [], []⟩, ?_, ?_⟩
  · decide +kernel
  · decide +kernel

end Library

end Compendium
