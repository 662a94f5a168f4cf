/-
# `Compendium.Proofs.Assembly.Lockstep` — two runs that go the same way

Two runs may differ in the store, in the options and in the chain, and still deal with the same
directives in the same order.  `Store.Lockstep` says when: the same is read at each path, the same
targets are left out, and what is so far true of the two chains and the path stays true on the way
into a document.  It also says in what relation the texts of the two runs are, if only splicing
keeps that relation.

Then the two runs fail with one error, or both come to a text and these are related; and they
report the same (`Lockstep.steady`).  The induction takes one call apart on one side, by
`expand_eq_ok_iff` or `expand_eq_error_iff`, and puts it together on the other.
-/
import Compendium.Proofs.Assembly.IncludeGraph

namespace Compendium

/-- Both fail with one error, or both give a value, and these are related. -/
inductive Walk.Matches {ε α β : Type} (V : α → β → Prop) : Except ε α → Except ε β → Prop
  | failed (e : ε) : Matches V (.error e) (.error e)
  | done {a : α} {b : β} : V a b → Matches V (.ok a) (.ok b)

theorem Walk.Matches.eq {ε α : Type} {r r' : Except ε α} (h : Matches Eq r r') : r' = r := by
  cases h with
  | failed e => rfl
  | done h => exact congrArg Except.ok h.symm

theorem eq_of_optionRel {α : Type} {a b : Option α} (h : Option.Rel Eq a b) : a = b := by
  cases h with
  | some h => exact congrArg some h
  | none => rfl

theorem Text.splice_eq_of_rel {t : Text} {content content' : Directive → Option Text}
    (h : ∀ d ∈ directives t, Option.Rel Eq (content d) (content' d)) :
    t.splice content = t.splice content' :=
  splice_congr fun d hd => eq_of_optionRel (h d hd)

namespace Store

variable {store store' : Store} {opts opts' : Options} {base path : Path}
  {R : Chain → Chain → Path → Prop} {V : Text → Text → Prop} {c c' : Chain} {depth : Nat}

/-- Where `R` relates two chains and a path, the document at the path is dealt with alike on both,
and `R` relates the chains with the document opened and whatever it includes; and `V` is kept when
related texts are put in the place of its directives. -/
structure Lockstep (store store' : Store) (opts opts' : Options) (base : Path)
    (R : Chain → Chain → Path → Prop) (V : Text → Text → Prop) : Prop where
  target : ∀ d, opts'.target base d = opts.target base d
  empty : ∀ {c c' p}, R c c' p → c'.isEmpty = c.isEmpty
  read : ∀ {c c' p}, R c c' p → store'.read p = store.read p
  omission : ∀ {c c' p q}, R c c' p → store.Includes opts base p q →
    store'.omission? (c'.opened p) q = store.omission? (c.opened p) q
  next : ∀ {c c' p q}, R c c' p → store.Includes opts base p q →
    store.omission? (c.opened p) q = none → R (c.opened p) (c'.opened p) q
  splice : ∀ {c c' p raw} {content content' : Directive → Option Text}, R c c' p →
    store.read p = .ok raw →
    (∀ d ∈ directives (opts.prepare (!c.isEmpty) raw), Option.Rel V (content d) (content' d)) →
    V ((opts.prepare (!c.isEmpty) raw).splice content)
      ((opts'.prepare (!c.isEmpty) raw).splice content')

namespace Lockstep

theorem exists_filled (h : Lockstep store store' opts opts' base R V) {d : Directive}
    {content : Option Text} {x : List Omission} (hR : R c c' path)
    (hd : store.Includes opts base path (opts.target base d))
    (hf : store.Filled opts base depth (c.opened path) path d content x)
    (ih : ∀ t, R (c.opened path) (c'.opened path) (opts.target base d) →
      Walk.Steady (c.opened path) (store.expand opts base depth (opts.target base d)) (.ok t) x →
      ∃ r', Walk.Steady (c'.opened path)
        (store'.expand opts' base depth (opts.target base d)) r' x ∧ Walk.Matches V (.ok t) r') :
    ∃ content', store'.Filled opts' base depth (c'.opened path) path d content' x ∧
      Option.Rel V content content' := by
  have homission := h.omission hR hd
  cases hf with
  | dropped ho =>
      rw [← h.target] at ho homission ⊢
      exact ⟨none, .dropped (homission.trans ho), .none⟩
  | expanded ho he =>
      obtain ⟨r', hr', hm⟩ := ih _ (h.next hR hd ho) he
      cases hm with
      | done hV =>
          rw [← h.target] at ho homission hr'
          exact ⟨_, .expanded (homission.trans ho) hr', .some hV⟩

/-- Two runs in lockstep come out alike and report the same. -/
theorem steady (h : Lockstep store store' opts opts' base R V) (depth : Nat)
    {r : Except Stop Text} {x : List Omission} (hR : R c c' path)
    (hr : Walk.Steady c (store.expand opts base depth path) r x) :
    ∃ r', Walk.Steady c' (store'.expand opts' base depth path) r' x ∧ Walk.Matches V r r' := by
  induction depth generalizing c c' path r x with
  | zero =>
      obtain ⟨rfl, rfl⟩ := hr.unique (Walk.steady_fail Stop.tooDeep)
      exact ⟨_, Walk.steady_fail Stop.tooDeep, .failed _⟩
  | succ depth ih =>
      have hone {raw : Text} (hread : store.read path = .ok raw) {d : Directive}
          (hd : d ∈ directives (opts.prepare (!c.isEmpty) raw)) {content : Option Text}
          {y : List Omission}
          (hf : store.Filled opts base depth (c.opened path) path d content y) :
          ∃ content', store'.Filled opts' base depth (c'.opened path) path d content' y ∧
            Option.Rel V content content' :=
        have hinc : store.Includes opts base path (opts.target base d) :=
          ⟨raw, _, hread, d, hd, rfl⟩
        h.exists_filled hR hinc hf fun t hnext he => ih hnext he
      have hds (raw : Text) : directives (opts'.prepare (!c'.isEmpty) raw) =
          directives (opts.prepare (!c.isEmpty) raw) := by
        rw [directives_prepare, directives_prepare]
      cases r with
      | ok t =>
          obtain ⟨raw, content, added, hread, hf, ht, hx⟩ := expand_eq_ok_iff.mp hr
          choose! content' hf' hV using fun d hd => hone hread hd (hf d hd)
          have hspliced := h.splice hR hread hV
          rw [← ht, ← h.empty hR] at hspliced
          rw [← hds] at hf' hx
          exact ⟨_, expand_eq_ok_iff.mpr
            ⟨raw, content', added, (h.read hR).trans hread, hf', rfl, hx⟩, .done hspliced⟩
      | error e =>
          refine ⟨_, expand_eq_error_iff.mpr ?_, .failed e⟩
          rcases expand_eq_error_iff.mp hr with
            ⟨f, hread, he, hx⟩ |
            ⟨raw, before, after, d, content, added, y, hread, hd, hf, ho, he, hx⟩
          · exact .inl ⟨f, (h.read hR).trans hread, he, hx⟩
          · have hmem {b : Directive} (hb : b ∈ before) :
                b ∈ directives (opts.prepare (!c.isEmpty) raw) := hd ▸ List.mem_append_left _ hb
            choose! content' hf' _ using fun b hb => hone hread (hmem hb) (hf b hb)
            -- the first target to fail
            have hinc : store.Includes opts base path (opts.target base d) :=
              ⟨raw, _, hread, d, hd ▸ List.mem_append_right _ List.mem_cons_self, rfl⟩
            have ho' := (h.omission hR hinc).trans ho
            obtain ⟨r', hfail, hm⟩ := ih (h.next hR hinc ho) he
            cases hm
            rw [← h.target] at ho' hfail
            exact .inr ⟨raw, before, after, d, content', added, y, (h.read hR).trans hread,
              (hds raw).trans hd, hf', ho', hfail, hx⟩

theorem assemble {input : Path} (h : Lockstep store store' opts opts' (baseFolder input) R V)
    (depth : Nat) (hR : R .empty .empty input.canonical) :
    (∃ e, store.assemble opts depth input = .error e ∧
      store'.assemble opts' depth input = .error e) ∨
    ∃ t t' x, Walk.Steady .empty (store.expand opts (baseFolder input) depth input.canonical)
        (.ok t) x ∧
      Walk.Steady .empty (store'.expand opts' (baseFolder input) depth input.canonical)
        (.ok t') x ∧ V t t' := by
  obtain ⟨r, x, hr⟩ := exists_steady_expand store opts (baseFolder input) depth input.canonical
    .empty
  obtain ⟨r', hr', hm⟩ := h.steady depth hR hr
  cases hm with
  | failed e => exact .inl ⟨e, assemble_of_steady hr, assemble_of_steady hr'⟩
  | @done t t' hV => exact .inr ⟨t, t', x, hr, hr', hV⟩

end Lockstep
end Store

/-! ## What is not reached

A run asks its store about the root document and about the targets of directives in documents that
it has read.  All of these are reachable in the include graph, so two stores that answer alike on
what is reachable in one of them run in lockstep, with the same texts (`lockstep_of_alike`), and
two libraries that hold the same there give the same assembly (`assemble_eq_of_alike`).

A library that is changed at one path holds the same at every other, however the path is written.
So nothing comes of putting in, replacing or taking out a document at a path that is not reachable.
The path of a target that leads nowhere is reachable: to put a document there makes a difference. -/

open Relation (ReflTransGen)

/-! ### Stores that answer alike -/

/-- Stores that answer alike on all that is reachable from a document run in lockstep from it. -/
theorem Store.lockstep_of_alike {store store' : Store} {opts : Options} {base root : Path}
    (h : ∀ p, ReflTransGen (store.Includes opts base) root p →
      store'.has p = store.has p ∧ store'.read p = store.read p) :
    Lockstep store store' opts opts base
      (fun c c' p => c' = c ∧ ReflTransGen (store.Includes opts base) root p) Eq where
  target := fun _ => rfl
  empty := by
    rintro c c' p ⟨rfl, -⟩
    rfl
  read := by
    rintro c c' p ⟨-, hp⟩
    exact (h p hp).2
  omission := by
    rintro c c' p q ⟨rfl, hp⟩ hq
    simp only [omission?, (h q (hp.tail hq)).1]
  next := by
    rintro c c' p q ⟨rfl, hp⟩ hq -
    exact ⟨rfl, hp.tail hq⟩
  splice := by
    rintro c c' p raw content content' - - hcontent
    exact Text.splice_eq_of_rel hcontent

namespace Library

variable {lib : Library}

/-! ### Changes to a library -/

theorem get?_erase_of_ne {p q : Path} (h : p.canonical ≠ q.canonical) :
    (lib.erase q).get? p = lib.get? p := by
  simp only [get?, erase, List.find?_filter]
  refine congrArg (fun P => Option.map Prod.snd (lib.entries.find? P)) (funext fun e => ?_)
  by_cases he : e.1 = p.canonical
  · simp [he, h]
  · simp [he]

theorem get?_insert_of_ne {p q : Path} (h : p.canonical ≠ q.canonical) (t : Text) :
    (lib.insert q t).get? p = lib.get? p := by
  refine Eq.trans ?_ (get?_erase_of_ne h)
  simp only [get?, insert]
  rw [List.find?_cons_of_neg (by simpa using Ne.symm h)]

theorem get?_insert_of_eq {p q : Path} (h : p.canonical = q.canonical) (t : Text) :
    (lib.insert q t).get? p = some t := by
  simp only [get?, insert]
  rw [List.find?_cons_of_pos (by simpa using h.symm)]
  rfl

theorem store_eq_of_get? {lib' : Library} {p : Path} (h : lib'.get? p = lib.get? p) :
    lib'.store.has p = lib.store.has p ∧ lib'.store.read p = lib.store.read p := by
  simp only [store, h, true_and]

/-! ### What can be reached -/

/-- Libraries that hold the same at all paths that are reachable in one of them, missing documents
included, give the same assembly. -/
theorem assemble_eq_of_alike {lib' : Library} {opts : Options} {input : Path}
    (h : ∀ p, ReflTransGen (lib.store.Includes opts (Store.baseFolder input)) input.canonical p →
      lib'.get? p = lib.get? p) : lib'.assemble opts input = lib.assemble opts input := by
  have hstep := Store.lockstep_of_alike fun p hp => store_eq_of_get? (h p hp)
  -- a bound on the nesting that suffices for both
  have hdepth : lib.size < lib.size + lib'.size + 1 := by omega
  have hdepth' : lib'.size < lib.size + lib'.size + 1 := by omega
  refine Stop.mapError_fault_injective ?_
  rw [← assemble_of_size_lt lib' opts input hdepth', ← assemble_of_size_lt lib opts input hdepth]
  rcases hstep.assemble _ ⟨rfl, .refl⟩ with ⟨e, he, he'⟩ | ⟨t, t', x, ht, ht', rfl⟩
  · rw [he, he']
  · rw [Store.assemble_of_steady ht, Store.assemble_of_steady ht']

/-- A document at a path that is not reachable from the root document, as a target that is there or
one that is missing, makes no difference to the assembly: not what it says, nor that it is there.
The path may be written in any way. -/
theorem assemble_unreached (lib : Library) (opts : Options) {input q : Path}
    (h : ¬ ReflTransGen (lib.store.Includes opts (Store.baseFolder input)) input.canonical
      q.canonical) :
    (∀ t, (lib.insert q t).assemble opts input = lib.assemble opts input) ∧
      (lib.erase q).assemble opts input = lib.assemble opts input := by
  have hne {p : Path} (hp : ReflTransGen (lib.store.Includes opts (Store.baseFolder input))
      input.canonical p) : p.canonical ≠ q.canonical := by
    rw [canonical_of_reachable (Path.canonical_canonical input) hp]
    rintro rfl
    exact h hp
  exact ⟨fun t => assemble_eq_of_alike fun p hp => get?_insert_of_ne (hne hp) t,
    assemble_eq_of_alike fun p hp => get?_erase_of_ne (hne hp)⟩

theorem mem_of_reachable {opts : Options} {base p q : Path} {known : List Path}
    (hclosed : ∀ k ∈ known, ∀ raw ∈ lib.get? k,
      ∀ d ∈ directives (Text.trim (Text.uniform raw)), opts.target base d ∈ known)
    (hp : p ∈ known) (h : ReflTransGen (lib.store.Includes opts base) p q) : q ∈ known := by
  induction h with
  | refl => exact hp
  | tail _ hstep ih =>
      obtain ⟨raw, included, hr, d, hd, rfl⟩ := hstep
      rw [directives_prepare] at hd
      exact hclosed _ ih raw (get?_of_read hr) d hd

theorem assemble_unreached_beside :
    let lib := diamond.insert ⟨"f.md".toList⟩ ":[d](d.md)".toList
    let opts : Options := ⟨true, true, .empty⟩
    let input : Path := ⟨"./a.md".toList⟩
    let q : Path := ⟨"x/../f.md".toList⟩
    ¬ ReflTransGen (lib.store.Includes opts (Store.baseFolder input)) input.canonical q.canonical ∧
    lib.store.has q = true ∧
    (∀ t, (lib.insert q t).assemble opts input = lib.assemble opts input) ∧
      (lib.erase q).assemble opts input = lib.assemble opts input := by
  intro lib opts input q
  have hclosed : ∀ k ∈ ["a.md", "b.md", "c.md", "d.md", "e.md"].map (Path.mk ·.toList),
      ∀ raw ∈ lib.get? k, ∀ d ∈ directives (Text.trim (Text.uniform raw)),
        opts.target (Store.baseFolder input) d ∈
          ["a.md", "b.md", "c.md", "d.md", "e.md"].map (Path.mk ·.toList) := by
    decide +kernel
  have h : ¬ ReflTransGen (lib.store.Includes opts (Store.baseFolder input)) input.canonical
      q.canonical := fun hq =>
    absurd (mem_of_reachable hclosed (by decide +kernel) hq) (by decide +kernel)
  exact ⟨h, by decide +kernel, assemble_unreached lib opts h⟩

end Library

end Compendium
