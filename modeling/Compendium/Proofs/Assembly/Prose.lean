/-
# `Compendium.Proofs.Assembly.Prose` — text that an assembly leaves alone

A text is prose if no line of it is a heading or a directive and no marker is in it.  Each move of
an assembly leaves prose alone, up to blanks at its ends: no heading is restyled, no directive is
replaced, there is nothing to list, so no list is put anywhere, and there is no marker to take out.
So what is assembled from a document of prose is its text, made uniform and trimmed, whatever the
options are and whatever else is in the library (`assemble_prose`).

Blanks at the ends are trimmed first when the headings are restyled, and after that a line of the
text may be a directive that was none before, for a directive begins at the start of its line.  So
the text has to be prose both before and after it is trimmed.
-/
import Compendium.Proofs.Assembly.Lockstep
import Compendium.Proofs.Contents.Placing
import Compendium.Proofs.Walk.Handling

namespace Compendium

/-- Nothing in the text means anything to an assembly. -/
structure Text.Prose (t : Text) : Prop where
  headings : ∀ l ∈ lines t, Heading.ofLine? l.body = none
  directives : ∀ l ∈ lines t, Directive.ofLine? l.body = none
  marker : Marker.isIn t = false

namespace Text.Prose

variable {t : Text} (h : t.Prose)

include h

theorem headings_eq : Compendium.headings t = [] :=
  List.filterMap_eq_nil_iff.mpr h.headings

theorem directives_eq : Compendium.directives t = [] :=
  List.filterMap_eq_nil_iff.mpr h.directives

theorem first?_eq : Marker.first? t = none :=
  Option.isNone_iff_eq_none.mp (Option.isSome_eq_false_iff.mp h.marker)

theorem restyle_eq (style : HeadingStyle) : style.restyle t = Text.trim t := by
  have hline : ∀ l ∈ lines t, style.restyleLine l.body ++ l.ending.text = l.text := fun l hl => by
    rw [HeadingStyle.restyleLine_of_none (h.headings l hl)]
    rfl
  rw [HeadingStyle.restyle, List.flatMap_congr hline, flatMap_text_lines]

theorem clear_eq : Marker.clear t = Text.trim t := by
  rw [Marker.clear, Marker.blankOut.eq_def]
  split
  · rfl
  · next hf => exact absurd (h.first?_eq.symm.trans hf) nofun

theorem finish_eq (opts : Options) (omissions : List Omission) :
    opts.finish t omissions = ⟨Text.trim t, [], omissions⟩ := by
  have hlist := Contents.ofText_of_headings h.headings_eq
  have hplaced : Contents.place (Contents.ofText t) t = t :=
    Contents.inserted_of_empty h.first?_eq hlist
  rw [Options.finish, hplaced, hlist, ite_self, h.clear_eq]

end Text.Prose

theorem Store.steady_expand_prose {store : Store} {path : Path} {raw : Text}
    (hr : store.read path = .ok raw) (h : (Text.uniform raw).Prose)
    (htrim : (Text.trim (Text.uniform raw)).Prose) (opts : Options) (base : Path) (depth : Nat)
    (c : Chain) :
    Walk.Steady c (store.expand opts base (depth + 1) path)
      (.ok (Text.trim (Text.uniform raw))) [] := by
  intro s
  rw [expand_succ_of_read hr, Options.prepare, h.restyle_eq,
    embed_of_directives_eq_nil _ _ htrim.directives_eq, Text.trim_trim]
  exact Walk.steady_pure _ s

namespace Library

/-- A document whose uniform text is prose, before and after it is trimmed, is assembled to that
text, trimmed, with an empty list of contents and without an omission. -/
theorem assemble_prose {lib : Library} {input : Path} {raw : Text} (hraw : lib.get? input = some raw)
    (h : (Text.uniform raw).Prose) (htrim : (Text.trim (Text.uniform raw)).Prose)
    (opts : Options) :
    lib.assemble opts input = .ok ⟨Text.trim (Text.uniform raw), [], []⟩ := by
  have hread : lib.store.read input.canonical = .ok raw := by
    simp only [store, get?, Path.canonical_canonical]
    rw [← get?, hraw]
  have hsteady := Store.steady_expand_prose hread h htrim opts (Store.baseFolder input) lib.size
    .empty
  have hassemble := Store.assemble_of_steady hsteady
  rw [← mapError_assemble] at hassemble
  have hfinish : opts.finish (Text.trim (Text.uniform raw)) [] =
      ⟨Text.trim (Text.uniform raw), [], []⟩ := by
    rw [htrim.finish_eq, Text.trim_trim]
  rw [← hfinish]
  exact Stop.mapError_fault_injective hassemble

theorem assemble_prose_nearly :
    let raw := "\r\n #hash\t\r\n:[x](a b)\r[[_TOC_]] x\r\r\n\u00a0\n".toList
    let lib : Library := .ofList [(⟨"root.md".toList⟩, raw), (⟨"a.md".toList⟩, "# A".toList)]
    let input : Path := ⟨"./root.md".toList⟩
    lib.get? input = some raw ∧ (Text.uniform raw).Prose ∧
      (Text.trim (Text.uniform raw)).Prose ∧
      lib.assemble ⟨true, true, ⟨"/r".toList⟩⟩ input =
        .ok ⟨"#hash    \n:[x](a b)\n[[_TOC_]] x".toList, [], []⟩ := by
  intro raw lib input
  have hraw : lib.get? input = some raw := by decide +kernel
  have h : (Text.uniform raw).Prose := ⟨by decide +kernel, by decide +kernel, by decide +kernel⟩
  have htrim : (Text.trim (Text.uniform raw)).Prose :=
    ⟨by decide +kernel, by decide +kernel, by decide +kernel⟩
  have htext : Text.trim (Text.uniform raw) = "#hash    \n:[x](a b)\n[[_TOC_]] x".toList := by
    decide +kernel
  exact ⟨hraw, h, htrim, htext ▸ assemble_prose hraw h htrim _⟩

/-- A line that is a directive only once the text is trimmed is taken for one. -/
example :
    let raw := "\t:[x](b.md)\r\nA".toList
    let input : Path := ⟨"root.md".toList⟩
    (Text.uniform raw).Prose ∧
      (Library.ofList [(input, raw)]).assemble ⟨false, false, ⟨"/r".toList⟩⟩ input =
        .ok ⟨['A'], [], [⟨.missing, input, ⟨"b.md".toList⟩⟩]⟩ :=
  ⟨⟨by decide +kernel, by decide +kernel, by decide +kernel⟩, by decide +kernel⟩

end Library
end Compendium
