/-
# `Compendium.Proofs.Assembly.IncludeGraph` — nothing is left out exactly if the graph is sound

The include graph leads from a document to the targets of its directives.  An assembly never looks
at it: all that it knows is the chain of the documents that are open.  Still it notices every
missing document and every cycle that can be reached from the root document, and reports nothing
else, so a document that is included twice, in turn or by two others, is no omission.

`Clear` is the invariant that carries the induction, in both directions at once.  A path is clear
of a chain if whatever is reachable from it names a document, is not open, and lies on no cycle.
One step into the graph opens the document that is left (`clear_iff`), which is what the expansion
does as well.
-/
import Compendium.Proofs.Assembly.ContentLines
import Mathlib.Logic.Relation

namespace Compendium

open Relation (ReflTransGen TransGen)

/-- There is a directive in the document `p` whose target is `q`.  It makes no difference in which
style the headings of the document are. -/
def Store.Includes (store : Store) (opts : Options) (base p q : Path) : Prop :=
  ∃ raw included, store.read p = .ok raw ∧
    ∃ d ∈ directives (opts.prepare included raw), opts.target base d = q

namespace Library

variable {lib : Library} {opts : Options} {base : Path} {c : Chain} {path : Path}

/-- Whatever is reachable from the path names a document, is not open, and lies on no cycle. -/
def Clear (lib : Library) (opts : Options) (base : Path) (c : Chain) (path : Path) : Prop :=
  ∀ p, ReflTransGen (lib.store.Includes opts base) path p →
    lib.store.has p = true ∧ p.steps ∉ c.steps ∧ ¬ TransGen (lib.store.Includes opts base) p p

theorem Includes.canonical {p q : Path} (h : lib.store.Includes opts base p q) :
    q.canonical = q := by
  obtain ⟨-, -, -, d, -, rfl⟩ := h
  exact Path.canonical_canonical _

theorem canonical_of_reachable {p q : Path} (hp : p.canonical = p)
    (h : ReflTransGen (lib.store.Includes opts base) p q) : q.canonical = q := by
  cases h with
  | refl => exact hp
  | tail _ hq => exact Includes.canonical hq

theorem eq_of_steps_eq {p q : Path} (hp : p.canonical = p) (hq : q.canonical = q)
    (h : p.steps = q.steps) : p = q := by
  rw [← hp, ← hq, Path.canonical, Path.canonical, h]

/-- A path is clear exactly if all that it includes is clear of the chain with it opened. -/
theorem clear_iff (hpath : path.canonical = path) (hhas : lib.store.has path = true)
    (hnew : path.steps ∉ c.steps) :
    Clear lib opts base c path ↔
      ∀ q, lib.store.Includes opts base path q → Clear lib opts base (c.opened path) q := by
  constructor
  · intro h q hq p hp
    obtain ⟨hdoc, hopen, hcycle⟩ := h p (.head hq hp)
    refine ⟨hdoc, fun hm => ?_, hcycle⟩
    rcases Chain.mem_steps_opened.mp hm with he | hm
    · -- the path itself is reached again
      have hcanonical := canonical_of_reachable (Includes.canonical hq) hp
      rw [eq_of_steps_eq hcanonical hpath he] at hp
      exact (h path .refl).2.2 (.head' hq hp)
    · exact hopen hm
  · intro h p hp
    rcases ReflTransGen.cases_head hp with rfl | ⟨q, hq, hp⟩
    · refine ⟨hhas, hnew, fun hcycle => ?_⟩
      obtain ⟨q, hq, hback⟩ := TransGen.head'_iff.mp hcycle
      exact (h q hq _ hback).2.1 (Chain.mem_steps_opened.mpr (.inl rfl))
    · obtain ⟨hdoc, hopen, hcycle⟩ := h q hq p hp
      exact ⟨hdoc, fun hm => hopen (Chain.mem_steps_opened.mpr (.inr hm)), hcycle⟩

theorem includes_iff {raw : Text} {included : Bool} (hr : lib.store.read path = .ok raw)
    {q : Path} :
    lib.store.Includes opts base path q ↔
      ∃ d ∈ directives (opts.prepare included raw), opts.target base d = q := by
  constructor
  · rintro ⟨raw', included', hr', d, hd, hq⟩
    obtain rfl := Except.ok.inj (hr.symm.trans hr')
    rw [directives_prepare] at hd ⊢
    exact ⟨d, hd, hq⟩
  · rintro ⟨d, hd, hq⟩
    exact ⟨raw, included, hr, d, hd, hq⟩

theorem filled_eq_nil_iff {depth : Nat} {file : Path} {d : Directive} {content : Option Text}
    {x : List Omission}
    (h : lib.store.Filled opts base depth c file d content x)
    (ih : ∀ t y, (opts.target base d).steps ∉ c.steps →
      Walk.Steady c (lib.store.expand opts base depth (opts.target base d)) (.ok t) y →
      (y = [] ↔ Clear lib opts base c (opts.target base d))) :
    x = [] ↔ Clear lib opts base c (opts.target base d) := by
  cases h with
  | dropped ho =>
      refine iff_of_false (List.cons_ne_nil _ _) fun hclear => ?_
      obtain ⟨hdoc, hopen, -⟩ := hclear _ .refl
      rw [Store.omission?_eq_none_iff.mpr ⟨hopen, hdoc⟩] at ho
      exact absurd ho nofun
  | expanded ho he => exact ih _ _ (Store.omission?_eq_none_iff.mp ho).1 he

/-- An expansion reports nothing exactly if its path is clear of the chain. -/
theorem added_eq_nil_iff (depth : Nat) {path : Path} {c : Chain} {t : Text} {x : List Omission}
    (hpath : path.canonical = path) (hnew : path.steps ∉ c.steps)
    (h : Walk.Steady c (lib.store.expand opts base depth path) (.ok t) x) :
    x = [] ↔ Clear lib opts base c path := by
  induction depth generalizing path c t x with
  | zero => exact absurd h Store.not_steady_expand_zero
  | succ depth ih =>
      obtain ⟨raw, content, added, hr, hf, -, rfl⟩ := Store.expand_eq_ok_iff.mp h
      rw [clear_iff hpath (has_of_read hr) hnew, List.flatMap_eq_nil_iff]
      have hadded {d : Directive} (hd : d ∈ directives (opts.prepare (!c.isEmpty) raw)) :
          added d = [] ↔ Clear lib opts base (c.opened path) (opts.target base d) :=
        filled_eq_nil_iff (hf d hd) fun t y hopen he =>
          ih (Path.canonical_canonical _) hopen he
      constructor
      · intro hnil q hq
        obtain ⟨d, hd, rfl⟩ := (includes_iff hr).mp hq
        exact (hadded hd).mp (hnil d hd)
      · intro hclear d hd
        exact (hadded hd).mpr (hclear _ ((includes_iff hr).mpr ⟨d, hd, rfl⟩))

/-- The assembly of a document that is there leaves nothing out exactly if every path that can be
reached from it names a document and no cycle can be reached. -/
theorem omissions_eq_nil_iff (lib : Library) (opts : Options) {input : Path}
    (h : lib.store.has input = true) :
    ∃ a, lib.assemble opts input = .ok a ∧
      let includes := lib.store.Includes opts (Store.baseFolder input)
      (a.omissions = [] ↔
        (∀ p, ReflTransGen includes input.canonical p → lib.store.has p = true) ∧
        ∀ p, ReflTransGen includes input.canonical p → ¬ TransGen includes p p) := by
  obtain ⟨t, x, hx, ha⟩ := assemble_of_has opts h
  refine ⟨_, ha, ?_⟩
  have hclear := added_eq_nil_iff _ (Path.canonical_canonical input) List.not_mem_nil hx
  show x = [] ↔ _
  rw [hclear]
  constructor
  · exact fun hc => ⟨fun p hp => (hc p hp).1, fun p hp => (hc p hp).2.2⟩
  · exact fun hc p hp => ⟨hc.1 p hp, List.not_mem_nil, hc.2 p hp⟩

/-- A document that is included by two others, and a directive that leads nowhere. -/
def diamond : Library := .ofList
  [(⟨"a.md".toList⟩, ":[b](b.md)\n:[c](./c.md)".toList), (⟨"b.md".toList⟩, ":[d](d.md)".toList),
    (⟨"c.md".toList⟩, ":[d](x/../d.md)".toList), (⟨"d.md".toList⟩, ":[e](e.md)".toList)]

theorem omissions_eq_nil_iff_diamond :
    diamond.store.has ⟨"./a.md".toList⟩ = true ∧
      ∃ a, diamond.assemble ⟨true, true, .empty⟩ ⟨"./a.md".toList⟩ = .ok a ∧
        let base := Store.baseFolder ⟨"./a.md".toList⟩
        let includes := diamond.store.Includes ⟨true, true, .empty⟩ base
        let root := Path.canonical ⟨"./a.md".toList⟩
        (a.omissions = [] ↔
          (∀ p, ReflTransGen includes root p → diamond.store.has p = true) ∧
          ∀ p, ReflTransGen includes root p → ¬ TransGen includes p p) := by
  have h : diamond.store.has ⟨"./a.md".toList⟩ = true := by decide +kernel
  exact ⟨h, omissions_eq_nil_iff diamond ⟨true, true, .empty⟩ h⟩

end Library
end Compendium
