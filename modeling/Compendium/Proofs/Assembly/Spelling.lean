/-
# `Compendium.Proofs.Assembly.Spelling` — which document a directive names, not how it is written

Two directives whose targets lead to one document may have other labels, other gaps behind them and
other spellings of the target.  Documents that differ in no more than that, row by row, are
*respelled* (`Text.Respelled`).  Their rows are those of the uniform text: where a carriage return
ends a line, no directive goes across it.

A row that is a directive begins with `:`, and goes on to be that directive when it is trimmed
(`alike_sameLine`), and restyling leaves it alone.  So the prepared texts of respelled documents
have the same sections, with directives between them that name the same documents
(`sameSections_of_rows`), although all of it stands at other places in the two texts.  From there on
nothing looks at a directive but through its target, and the two expansions are not just alike but
the same walk (`Store.expand_eq`).
-/
import Compendium.Proofs.Assembly.Lockstep
import Compendium.Proofs.Directive
import Compendium.Proofs.Path.Joining

namespace Compendium

variable {opts : Options} {base : Path}

/-! ## Rows -/

/-- Directives that name one document. -/
def SameTarget (opts : Options) (base : Path) (d e : Directive) : Prop :=
  (opts.target base d).steps = (opts.target base e).steps

instance (opts : Options) (base : Path) (d e : Directive) : Decidable (SameTarget opts base d e) :=
  inferInstanceAs (Decidable (_ = _))

theorem SameTarget.target_eq {d e : Directive} (h : SameTarget opts base d e) :
    opts.target base d = opts.target base e :=
  Path.canonical_eq_iff_steps.mpr h

/-- Rows that are the same, or are both directives and name one document. -/
def SameLine (opts : Options) (base : Path) (r s : Text) : Prop :=
  r = s ∨ ∃ d e, Directive.ofLine? r = some d ∧ Directive.ofLine? s = some e ∧
    SameTarget opts base d e

theorem alike_sameLine : Text.Alike (SameLine opts base) where
  start := by
    rintro r s (rfl | ⟨d, e, hr, hs, hsame⟩)
    · exact .inl rfl
    · rw [Directive.trimStart_of_ofLine? hr, Directive.trimStart_of_ofLine? hs]
      exact .inr ⟨d, e, hr, hs, hsame⟩
  stop := by
    rintro r s (rfl | ⟨d, e, hr, hs, hsame⟩)
    · exact .inl rfl
    · exact .inr ⟨d, e, Directive.ofLine?_trimEnd hr, Directive.ofLine?_trimEnd hs, hsame⟩
  blank := by
    rintro r s (rfl | ⟨d, e, hr, hs, -⟩)
    · exact .rfl
    · rw [Directive.trimStart_of_ofLine? hr, Directive.trimStart_of_ofLine? hs]
      refine iff_of_false ?_ ?_
      · rintro rfl
        cases hr
      · rintro rfl
        cases hs

theorem HeadingStyle.restyleLine_of_directive (style : HeadingStyle) {r : Text} {d : Directive}
    (h : Directive.ofLine? r = some d) : style.restyleLine r = r := by
  refine restyleLine_of_none (Heading.ofLine?_eq_none fun hmark => ?_)
  exact absurd (Option.some.inj ((Directive.head?_of_ofLine? h).symm.trans hmark)) (by decide)

theorem SameLine.restyleLine {r s : Text} (h : SameLine opts base r s) (style : HeadingStyle) :
    SameLine opts base (style.restyleLine r) (style.restyleLine s) := by
  rcases h with rfl | ⟨d, e, hr, hs, hsame⟩
  · exact .inl rfl
  · rw [style.restyleLine_of_directive hr, style.restyleLine_of_directive hs]
    exact .inr ⟨d, e, hr, hs, hsame⟩

/-- Documents that differ in how directives are written, and in nothing else. -/
def Text.Respelled (opts : Options) (base : Path) (raw raw' : Text) : Prop :=
  List.Forall₂ (SameLine opts base) (rows (uniform raw)) (rows (uniform raw'))

theorem Text.Respelled.prepare {raw raw' : Text} (h : Respelled opts base raw raw')
    (included : Bool) :
    List.Forall₂ (SameLine opts base) (rows (opts.prepare included raw))
      (rows (opts.prepare included raw')) := by
  refine forall₂_rows_trim alike_sameLine ?_
  rw [HeadingStyle.rows_restyled _ (not_mem_uniform raw),
    HeadingStyle.rows_restyled _ (not_mem_uniform raw'), List.forall₂_map_left_iff,
    List.forall₂_map_right_iff]
  exact List.Forall₂.imp (fun r s hrs => hrs.restyleLine _) h

/-! ## Sections -/

/-- The same text between directives that name the same documents. -/
structure SameSections (opts : Options) (base : Path) (s s' : Sections) : Prop where
  lead : s.lead = s'.lead
  rest : List.Forall₂ (fun x y => SameTarget opts base x.1 y.1 ∧ x.2 = y.2) s.rest s'.rest

theorem SameSections.push {s s' : Sections} (h : SameSections opts base s s') {r r' : Text}
    (hr : SameLine opts base r r') (ending : Ending) :
    SameSections opts base (s.push ⟨r, ending⟩) (s'.push ⟨r', ending⟩) := by
  simp only [Sections.push, h.lead]
  rcases hr with rfl | ⟨d, e, hd, he, hsame⟩
  · cases Directive.ofLine? r with
    | none => exact ⟨rfl, h.rest⟩
    | some d => exact ⟨rfl, .cons ⟨rfl, rfl⟩ h.rest⟩
  · rw [hd, he]
    exact ⟨rfl, .cons ⟨hsame, rfl⟩ h.rest⟩

theorem sameSections_of_rows {t t' : Text} (ht : '\r' ∉ t) (ht' : '\r' ∉ t')
    (h : List.Forall₂ (SameLine opts base) t.rows t'.rows) :
    SameSections opts base (sections t) (sections t') := by
  have hnil : SameSections opts base ⟨[], []⟩ ⟨[], []⟩ := ⟨rfl, .nil⟩
  induction t using Text.rowInduction generalizing t' with
  | last r hr =>
      cases t' using Text.rowInduction with
      | last _ hr' =>
          rw [Text.rows_of_row hr, Text.rows_of_row hr'] at h
          obtain ⟨hline, -⟩ := List.forall₂_cons.mp h
          -- an empty row is no directive, so one row is empty only if both are
          have hempty : r = [] ↔ t' = [] := by
            rcases hline with rfl | ⟨d, e, hd, he, -⟩
            · exact .rfl
            · refine iff_of_false ?_ ?_
              · rintro rfl
                cases hd
              · rintro rfl
                cases he
          by_cases hne : r = []
          · rw [hne, hempty.mp hne]
            exact hnil
          · rw [sections, sections, lines_of_row hr ht hne,
              lines_of_row hr' ht' fun he => hne (hempty.mpr he)]
            exact hnil.push hline .none
      | cut r' t' hr' =>
          rw [Text.rows_of_row hr, Text.rows_append_break, Text.rows_of_row hr'] at h
          have hrest := List.forall₂_nil_left_iff.mp (List.forall₂_cons.mp h).2
          exact absurd hrest (Text.rows_ne_nil t')
  | cut r t hr ih =>
      rw [Text.rows_append_break, Text.rows_of_row hr] at h
      cases t' using Text.rowInduction with
      | last _ hr' =>
          rw [Text.rows_of_row hr'] at h
          have hrest := List.forall₂_nil_right_iff.mp (List.forall₂_cons.mp h).2
          exact absurd hrest (Text.rows_ne_nil t)
      | cut r' t' hr' =>
          rw [Text.rows_append_break, Text.rows_of_row hr'] at h
          obtain ⟨hline, hrest⟩ := List.forall₂_cons.mp h
          simp only [List.mem_append, List.mem_cons, not_or] at ht ht'
          rw [sections, sections, lines_append_break hr ht.1, lines_append_break hr' ht'.1]
          exact (ih ht.2.2 ht'.2.2 hrest).push hline .lf

/-! ## Walks -/

section Walks

variable {ε σ : Type} {expand expand' : Directive → Walk ε σ (Option Text)}

theorem extend_eq {rest rest' : List (Directive × Text)}
    (h : List.Forall₂ (fun x y => expand x.1 = expand' y.1 ∧ x.2 = y.2) rest rest')
    (draft : Draft) : Draft.extend expand draft rest = Draft.extend expand' draft rest' := by
  induction h generalizing draft with
  | nil => rfl
  | cons hxy _ ih =>
      simp only [Draft.extend, hxy.1, hxy.2]
      exact congrArg _ (funext fun content => ih _)

/-- What comes of a text depends on its sections, and on what comes of each directive. -/
theorem embed_eq (current : Path) {t t' : Text}
    (hlead : (sections t).lead = (sections t').lead)
    (hrest : List.Forall₂ (fun x y => expand x.1 = expand' y.1 ∧ x.2 = y.2)
      (sections t).rest (sections t').rest) :
    embed expand current t = embed expand' current t' := by
  have hextend := extend_eq hrest
  generalize hs : sections t = s at hlead hrest hextend
  generalize hs' : sections t' = s' at hlead hrest hextend
  obtain ⟨lead, rest⟩ := s
  obtain ⟨lead', rest'⟩ := s'
  obtain rfl : lead = lead' := hlead
  simp only [embed, hs, hs']
  cases hrest with
  | nil => rfl
  | cons hxy hrest =>
      simp only
      rw [hextend]

end Walks

/-! ## Stores -/

namespace Store

variable {store store' : Store}

/-- Stores that have documents at the same paths, each respelled. -/
structure Respelled (opts : Options) (base : Path) (store store' : Store) : Prop where
  has : ∀ p, store.has p = store'.has p
  read : ∀ p, (∃ f, store.read p = .error f ∧ store'.read p = .error f) ∨
    ∃ raw raw', store.read p = .ok raw ∧ store'.read p = .ok raw' ∧
      Text.Respelled opts base raw raw'

theorem fill_eq (h : ∀ p, store.has p = store'.has p) {σ : Type}
    (report : Omission → Walk Stop σ Unit) (expand : Path → Walk Stop σ Text) (file : Path)
    {d e : Directive} (hsame : SameTarget opts base d e) :
    store.fill opts base report expand file d = store'.fill opts base report expand file e := by
  simp only [fill, omission?, hsame.target_eq, h]

theorem Respelled.expand_eq (h : Respelled opts base store store') (depth : Nat) :
    store.expand opts base depth = store'.expand opts base depth := by
  induction depth with
  | zero => rfl
  | succ depth ih =>
      funext path
      simp only [expand]
      refine congrArg _ (funext fun chain => ?_)
      rcases h.read path with ⟨f, hr, hr'⟩ | ⟨raw, raw', hr, hr', hraw⟩
      · simp only [hr, hr']
      · simp only [hr, hr']
        have hsections := sameSections_of_rows (not_mem_prepare opts (!chain.isEmpty) raw)
          (not_mem_prepare opts (!chain.isEmpty) raw') (hraw.prepare _)
        refine embed_eq path hsections.lead ?_
        refine List.Forall₂.imp (fun x y hxy => ⟨?_, hxy.2⟩) hsections.rest
        rw [ih]
        exact fill_eq h.has _ _ path hxy.1

end Store

namespace Library

variable {lib lib' : Library}

/-- Libraries that hold documents at the same paths, each respelled. -/
def Respelled (opts : Options) (base : Path) (lib lib' : Library) : Prop :=
  ∀ p, Option.Rel (Text.Respelled opts base) (lib.get? p) (lib'.get? p)

theorem Respelled.store (h : Respelled opts base lib lib') :
    Store.Respelled opts base lib.store lib'.store where
  has := fun p => by
    have hp := h p
    simp only [Library.store]
    generalize lib.get? p = doc at hp
    generalize lib'.get? p = doc' at hp
    cases hp <;> rfl
  read := fun p => by
    have hp := h p
    simp only [Library.store]
    generalize lib.get? p = doc at hp
    generalize lib'.get? p = doc' at hp
    cases hp with
    | none => exact .inl ⟨_, rfl, rfl⟩
    | some hraw => exact .inr ⟨_, _, rfl, rfl, hraw⟩

theorem respelled_empty : empty.Respelled opts base empty := fun _ => .none

theorem Respelled.insert (h : lib.Respelled opts base lib') {p p' : Path}
    (hp : p.canonical = p'.canonical) {t t' : Text} (ht : Text.Respelled opts base t t') :
    (lib.insert p t).Respelled opts base (lib'.insert p' t') := by
  intro q
  by_cases hq : q.canonical = p.canonical
  · rw [get?_insert_of_eq hq, get?_insert_of_eq (hq.trans hp)]
    exact .some ht
  · rw [get?_insert_of_ne hq, get?_insert_of_ne (hp ▸ hq)]
    exact h q

/-- Only the document that a directive names matters, not how the directive is written: its label,
the gaps behind it, and the spelling of its target make no difference to an assembly or to how it
fails, nor does the spelling of the path of the root document. -/
theorem assemble_respelled {opts : Options} {input input' : Path}
    (hinput : input.canonical.steps = input'.canonical.steps)
    (h : lib.Respelled opts (Store.baseFolder input) lib') :
    lib.assemble opts input = lib'.assemble opts input' := by
  have hroot : input.canonical = input'.canonical := Path.canonical_eq_iff_steps.mpr hinput
  have hbase : Store.baseFolder input = Store.baseFolder input' := by
    rw [Store.baseFolder, Store.baseFolder, hroot]
  -- a bound on the nesting that suffices for both
  have hdepth : lib.size < lib.size + lib'.size + 1 := by omega
  have hdepth' : lib'.size < lib.size + lib'.size + 1 := by omega
  refine Stop.mapError_fault_injective ?_
  rw [← assemble_of_size_lt lib opts input hdepth, ← assemble_of_size_lt lib' opts input' hdepth',
    Store.assemble, Store.assemble, h.store.expand_eq, ← hroot, ← hbase]

/-- Two documents that include each other, behind a label, blanks, the root token and dots. -/
theorem assemble_respelled_cyclic :
    let opts : Options := ⟨true, true, ⟨"/docs".toList⟩⟩
    let input : Path := ⟨"/docs/a.md".toList⟩
    let input' : Path := ⟨"/docs/x/.././a.md".toList⟩
    let lib := (empty.insert ⟨"/docs/a.md".toList⟩ "# A\n:[b](parts/b.md)\t \nend".toList).insert
      ⟨"/docs/parts/b.md".toList⟩ "## B\r\n:[a](a.md)".toList
    let lib' := (empty.insert ⟨"/docs/./a.md".toList⟩
      "# A\n:[part two]($root/x/../parts/b.md)\nend".toList).insert
      ⟨"/docs//parts/b.md".toList⟩ "## B\n:[back](./a.md/)  ".toList
    input.canonical.steps = input'.canonical.steps ∧
      lib.Respelled opts (Store.baseFolder input) lib' ∧
      lib.assemble opts input = lib'.assemble opts input' := by
  intro opts input input' lib lib'
  have hinput : input.canonical.steps = input'.canonical.steps := by decide
  have ha : Text.Respelled opts (Store.baseFolder input)
      "# A\n:[b](parts/b.md)\t \nend".toList
      "# A\n:[part two]($root/x/../parts/b.md)\nend".toList :=
    .cons (.inl rfl) (.cons (.inr ⟨_, _, rfl, rfl, by decide⟩) (.cons (.inl rfl) .nil))
  have hb : Text.Respelled opts (Store.baseFolder input) "## B\r\n:[a](a.md)".toList
      "## B\n:[back](./a.md/)  ".toList :=
    .cons (.inl rfl) (.cons (.inr ⟨_, _, rfl, rfl, by decide⟩) .nil)
  have h : lib.Respelled opts (Store.baseFolder input) lib' :=
    (respelled_empty.insert (by decide) ha).insert (by decide) hb
  exact ⟨hinput, h, assemble_respelled hinput h⟩

end Library
end Compendium
