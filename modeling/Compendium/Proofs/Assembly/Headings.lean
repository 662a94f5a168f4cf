/-
# `Compendium.Proofs.Assembly.Headings` — included headings are moved once, and none is lost

`Store.outline` goes through a document and what it includes, depth first, and lists the headings
as they should appear: those of the root document at their own level, those of an included one moved
at most once, however deep it is included, and all of them with their anchors.  It looks at the
documents alone; nothing is spliced, printed or read again.

An assembly has exactly these headings, with or without a list of contents in it, provided the
documents are plain (`headings_assemble`).  In other documents trimming can bring a heading to light
or give one an anchor: the indent of a document's first line goes, and so does a no-break space
behind a closing brace.
-/
import Compendium.Proofs.Assembly.ContentLines
import Compendium.Proofs.Contents.Reading

namespace Compendium

/-! ## Plain documents -/

/-- A text whose only blanks are spaces and breaks, and none of whose lines is a heading once its
indent is gone. -/
def Text.Plain (t : Text) : Prop :=
  (∀ c ∈ t, isBlank c = true → c = ' ' ∨ c = '\n') ∧
    ∀ r ∈ t.rows, r.head? = some ' ' → Heading.ofLine? (r.dropWhile (· == ' ')) = none

instance (t : Text) : Decidable t.Plain :=
  -- both quantifiers run over a list, the first one not over all characters
  @instDecidableAnd _ _ (List.decidableBAll _ _) (List.decidableBAll _ _)

theorem Text.Plain.rows {t : Text} (h : t.Plain) : ∀ r ∈ t.rows, Heading.Plain r := by
  refine fun r hr => ⟨fun c hc hb => ?_, h.2 r hr⟩
  have hn : c ≠ '\n' := fun he => not_mem_of_mem_rows hr (he ▸ hc)
  exact (h.1 c ((exists_mem_rows_iff hn).mp ⟨r, hr, hc⟩) hb).resolve_right hn

/-- All documents are plain once their line endings and tabs are uniform. -/
def Library.Plain (lib : Library) : Prop := ∀ e ∈ lib.entries, (Text.uniform e.2).Plain

instance (lib : Library) : Decidable lib.Plain := inferInstanceAs (Decidable (∀ e ∈ _, _))

theorem Library.Plain.uniform {lib : Library} (h : lib.Plain) {p : Path} {raw : Text}
    (hr : lib.store.read p = .ok raw) : (Text.uniform raw).Plain :=
  h _ (mem_of_read hr)

/-! ## The headings as they should appear -/

/-- A heading of a document, included or not, as it appears in an assembly: one level down, if
that is asked for, and with an anchor from its slug, if anchors are asked for and it has none. -/
def Options.shown (opts : Options) (included : Bool) (h : Heading) : Heading where
  level := if included && opts.deeper then h.level + 1 else h.level
  text := h.text
  anchor := h.anchor.or (if opts.contents then slugAnchor? h.text else none)

theorem Options.apply_style (opts : Options) (included : Bool) :
    (opts.style included).apply = opts.shown included := by
  funext h
  have hanchor : (if opts.contents then h.anchor.or (slugAnchor? h.text) else h.anchor) =
      h.anchor.or (if opts.contents then slugAnchor? h.text else none) := by
    split
    · rfl
    · exact Option.or_none.symm
  exact congrArg (Heading.mk _ _) hanchor

namespace Store

/-- The headings of the document at `path` and of all that it includes, depth first, where
documents may be nested at most so deep.  A document is trimmed before its directives are read. -/
def outline (store : Store) (opts : Options) (base : Path) :
    Nat → Bool → Chain → Path → List Heading
  | 0, _, _, _ => []
  | depth + 1, included, chain, path =>
    match store.read path with
    | .error _ => []
    | .ok raw =>
      (Text.rows (Text.trim (Text.uniform raw))).flatMap fun r =>
        match Directive.ofLine? r with
        | some d =>
          match store.omission? (chain.opened path) (opts.target base d) with
          | some _ => []
          | none => store.outline opts base depth true (chain.opened path) (opts.target base d)
        | none => ((Heading.ofLine? r).map (opts.shown included)).toList

end Store

namespace Library

variable {lib : Library} {opts : Options} {base : Path}

theorem shows_filled {depth : Nat} {c : Chain} {file : Path} {d : Directive}
    {content : Option Text} {x : List Omission}
    (h : lib.store.Filled opts base depth c file d content x)
    (ih : ∀ t y, Walk.Steady c (lib.store.expand opts base depth (opts.target base d)) (.ok t) y →
      Reading.heading.Shows t (lib.store.outline opts base depth true c (opts.target base d))) :
    let inner := match lib.store.omission? c (opts.target base d) with
      | some _ => []
      | none => lib.store.outline opts base depth true c (opts.target base d)
    (∀ t, content = some t → Reading.heading.Shows t inner) ∧ (content = none → inner = []) := by
  cases h with
  | dropped ho =>
      refine ⟨fun t ht => absurd ht nofun, fun _ => ?_⟩
      simp only [ho]
  | expanded ho he =>
      refine ⟨fun t ht => ?_, fun hnone => absurd hnone nofun⟩
      obtain rfl := Option.some.inj ht
      simp only [ho]
      exact ih _ _ he

/-- An expanded document shows its outline. -/
theorem shows_expand (hplain : lib.Plain) (depth : Nat) {path : Path} {c : Chain} {t : Text}
    {x : List Omission} (h : Walk.Steady c (lib.store.expand opts base depth path) (.ok t) x) :
    Reading.heading.Shows t (lib.store.outline opts base depth (!c.isEmpty) c path) := by
  induction depth generalizing path c t x with
  | zero => exact absurd h Store.not_steady_expand_zero
  | succ depth ih =>
      obtain ⟨raw, content, added, hr, hf, ht, -⟩ := Store.expand_eq_ok_iff.mp h
      have hcr := Text.not_mem_uniform raw
      have hrows := (hplain.uniform hr).rows
      have hnested (d : Directive) (hd : d ∈ directives (opts.prepare (!c.isEmpty) raw)) :=
        shows_filled (hf d hd) fun t y he => by
          have hshows := ih he
          rwa [Chain.isEmpty_opened] at hshows
      have hshows := Text.shows_splice (not_mem_prepare opts _ raw)
        (fun r hr _ => HeadingStyle.plain_rows_restyle hcr hrows r hr)
        (fun d hd => (hnested d hd).1) (fun d hd => (hnested d hd).2)
      have hrestyle := HeadingStyle.flatMap_rows_restyle (opts.style (!c.isEmpty)) hcr hrows
      rw [Options.prepare, hrestyle, Options.apply_style] at hshows
      simp only [Store.outline, hr, ht]
      exact hshows

/-- The headings of an assembly are those of the outline of its root document. -/
theorem headings_assemble (hplain : lib.Plain) (opts : Options) {input : Path}
    (h : lib.store.has input = true) :
    ∃ a, lib.assemble opts input = .ok a ∧
      ∀ depth, lib.size < depth →
        headings a.content =
          lib.store.outline opts (Store.baseFolder input) depth false .empty input.canonical := by
  obtain ⟨t, x, hx, ha⟩ := assemble_of_has opts h
  refine ⟨_, ha, fun depth hd => ?_⟩
  obtain ⟨more, rfl⟩ := Nat.exists_eq_add_of_le (Nat.succ_le_of_lt hd)
  have ht := shows_expand hplain _ (Store.steady_expand_deeper hx more)
  refine Reading.Shows.headings_eq (Marker.shows_clear ?_)
  split
  · exact Contents.shows_place (Contents.shows_ofText ht) ht
  · exact ht

/-- A document in a document in a document, with a marker and an anchor of its own. -/
def nested : Library := .ofList
  [(⟨"a.md".toList⟩, "# A\n:[b](b.md)\n## End\n".toList),
    (⟨"b.md".toList⟩, "# B {x}\ntext\n\n:[c](c.md)".toList),
    (⟨"c.md".toList⟩, "[[_TOC_]]\n# C".toList)]

theorem headings_assemble_nested :
    nested.Plain ∧ nested.store.has ⟨"a.md".toList⟩ = true ∧
      ∃ a, nested.assemble ⟨true, true, .empty⟩ ⟨"a.md".toList⟩ = .ok a ∧
        headings a.content =
          [⟨1, "A".toList, some "#a".toList⟩, ⟨2, "B".toList, some "x".toList⟩,
            ⟨2, "C".toList, some "#c".toList⟩, ⟨2, "End".toList, some "#end".toList⟩] := by
  have hplain : nested.Plain := by decide +kernel
  have hhas : nested.store.has ⟨"a.md".toList⟩ = true := by decide +kernel
  obtain ⟨a, ha, hout⟩ := headings_assemble hplain ⟨true, true, .empty⟩ hhas
  refine ⟨hplain, hhas, a, ha, (hout 4 (by decide +kernel)).trans ?_⟩
  decide +kernel

end Library
end Compendium
