/-
# `Compendium.Proofs.Assembly.Independence` — a document comes out the same wherever it is included

All that an expansion knows of its surroundings is the chain of open documents.  It asks the chain
two things: whether it is empty, which is how the root document is told from the others, and
whether the target of a directive is open.  Only paths that the document leads to are ever asked
for, so two chains that give the same answers for these give the same expansion
(`agree_expand`).  `AlikeFor` is what keeps the two runs in step: opening the document on both
chains makes them alike for whatever it includes.

An included document that leads to no open document is the case that matters.  Its expansion, with
all that is reported on the way, is the same at every such place, so a document that is included
twice reads the same twice (`expansion_independent`).
-/
import Compendium.Proofs.Assembly.Lockstep

namespace Compendium

open Relation (ReflTransGen TransGen)

namespace Store

variable {store : Store} {opts : Options} {base path : Path} {c c' : Chain}

/-- Both chains are empty or neither is, and of the paths that `path` leads to the same are open on
both. -/
structure AlikeFor (store : Store) (opts : Options) (base path : Path) (c c' : Chain) : Prop where
  empty : c.isEmpty = c'.isEmpty
  same : ∀ q, ReflTransGen (store.Includes opts base) path q →
    (q.steps ∈ c.steps ↔ q.steps ∈ c'.steps)

/-- With the document opened on both, the chains are alike for all that it includes. -/
theorem AlikeFor.opened (h : AlikeFor store opts base path c c') {q : Path}
    (hq : store.Includes opts base path q) :
    AlikeFor store opts base q (c.opened path) (c'.opened path) where
  empty := by rw [Chain.isEmpty_opened, Chain.isEmpty_opened]
  same := fun p hp => by
    rw [Chain.mem_steps_opened, Chain.mem_steps_opened, h.same p (.head hq hp)]

theorem AlikeFor.omission?_eq (h : AlikeFor store opts base path c c') :
    store.omission? c path = store.omission? c' path := by
  have hopen : c.contains path = c'.contains path := by
    rw [Bool.eq_iff_iff, Chain.contains_iff, Chain.contains_iff]
    exact h.same path .refl
  simp only [omission?, hopen]

theorem lockstep_alikeFor (store : Store) (opts : Options) (base : Path) :
    Lockstep store store opts opts base (fun c c' p => AlikeFor store opts base p c c') Eq where
  target := fun _ => rfl
  empty := fun h => h.empty.symm
  read := fun _ => rfl
  omission := fun h hq => (h.opened hq).omission?_eq.symm
  next := fun h hq _ => h.opened hq
  splice := fun _ _ hcontent => Text.splice_eq_of_rel hcontent

theorem agree_expand (depth : Nat) (h : AlikeFor store opts base path c c') :
    ∃ r x, Walk.Steady c (store.expand opts base depth path) r x ∧
      Walk.Steady c' (store.expand opts base depth path) r x := by
  obtain ⟨r, x, hr⟩ := exists_steady_expand store opts base depth path c
  obtain ⟨r', hr', hm⟩ := (lockstep_alikeFor store opts base).steady depth h hr
  exact ⟨r, x, hr, hm.eq ▸ hr'⟩

/-- Neither `path` nor any path that it leads to is open. -/
def Apart (store : Store) (opts : Options) (base path : Path) (c : Chain) : Prop :=
  ∀ q, ReflTransGen (store.Includes opts base) path q → c.contains q = false

theorem Apart.not_mem (h : store.Apart opts base path c) {q : Path}
    (hq : ReflTransGen (store.Includes opts base) path q) : q.steps ∉ c.steps := fun hm =>
  Bool.false_ne_true ((h q hq).symm.trans (Chain.contains_iff.mpr hm))

theorem Apart.alikeFor (h : store.Apart opts base path c) (h' : store.Apart opts base path c')
    (he : c.isEmpty = c'.isEmpty) : AlikeFor store opts base path c c' where
  empty := he
  same := fun _ hq => iff_of_false (h.not_mem hq) (h'.not_mem hq)

end Store

namespace Library

variable {lib : Library} {opts : Options} {base path : Path} {c c' : Chain}

/-- No expansion of a document that is apart from the open ones stops for want of depth. -/
theorem expand_ne_tooDeep (hne : c.isEmpty = false) (h : lib.store.Apart opts base path c)
    {depth : Nat} (hd : lib.size < depth) {r : Except Stop Text} {x : List Omission}
    (hr : Walk.Steady c (lib.store.expand opts base depth path) r x) : r ≠ .error .tooDeep := by
  obtain ⟨m, hm⟩ := List.exists_mem_of_ne_nil _ (List.isEmpty_eq_false_iff.mp hne)
  -- a chain of one open document is as good as the whole chain, and it has no link twice
  have hone : lib.store.Apart opts base path ⟨[m]⟩ := by
    intro q hq
    refine Bool.eq_false_iff.mpr fun hc => h.not_mem hq ?_
    have hs := List.mem_singleton.mp (Chain.contains_iff.mp hc)
    exact hs ▸ List.mem_map_of_mem hm
  obtain ⟨r', y, hr₁, hr₂⟩ := Store.agree_expand depth (h.alikeFor hone hne)
  obtain ⟨rfl, rfl⟩ := hr.unique hr₁
  have hknown : lib.store.TargetsIn opts base
      (path.steps :: m.steps :: lib.entries.map (·.1.steps)) := by
    intro p raw included hp d hmem hhas
    refine List.mem_cons_of_mem _ (List.mem_cons_of_mem _ ?_)
    exact targetsIn lib opts base p raw included hp d hmem hhas
  have horder := Store.orderly_expand hknown depth path ⟨[m]⟩
    (List.nodup_cons.mpr ⟨hone.not_mem .refl, List.pairwise_singleton _ _⟩)
    (List.cons_subset_cons _ (List.cons_subset_cons _ (List.nil_subset _)))
    (by simp only [List.length_cons, List.length_map, Chain.depth, List.length_nil]
        simp only [size] at hd
        omega) [] trivial
  rw [hr₂ []] at horder
  exact fun he => horder.2.2 .tooDeep he rfl

theorem exists_expansion (hne : c.isEmpty = false) (h : lib.store.Apart opts base path c) :
    ∃ (r : Except Fault Text) (x : List Omission), ∀ depth, lib.size < depth →
      Walk.Steady c (lib.store.expand opts base depth path) (r.mapError Stop.fault) x := by
  obtain ⟨r, x, hr⟩ := Store.exists_steady_expand lib.store opts base (lib.size + 1) path c
  have hdeep := expand_ne_tooDeep hne h (Nat.lt_succ_self _) hr
  obtain ⟨r', rfl⟩ : ∃ r' : Except Fault Text, r = r'.mapError Stop.fault := by
    cases r with
    | ok t => exact ⟨.ok t, rfl⟩
    | error e =>
        cases e with
        | fault f => exact ⟨.error f, rfl⟩
        | tooDeep => exact absurd rfl hdeep
  refine ⟨r', x, fun depth hd => ?_⟩
  obtain ⟨more, rfl⟩ := Nat.exists_eq_add_of_le (Nat.succ_le_of_lt hd)
  exact Store.steady_expand_deeper hr more hdeep

/-- Every open document leads to `path`, as it does wherever `path` is included in a run. -/
def LeadsTo (lib : Library) (opts : Options) (base : Path) (c : Chain) (path : Path) : Prop :=
  ∀ p ∈ c.links, p.canonical = p ∧ ReflTransGen (lib.store.Includes opts base) p path

/-- Where a path is included that leads to no cycle and is not open, all that it leads to is
not open either. -/
theorem apart_of_acyclic (hpath : path.canonical = path)
    (hcycle : ∀ q, ReflTransGen (lib.store.Includes opts base) path q →
      ¬ TransGen (lib.store.Includes opts base) q q)
    (hlead : LeadsTo lib opts base c path) (hopen : c.contains path = false) :
    lib.store.Apart opts base path c := by
  intro q hq
  refine Bool.eq_false_iff.mpr fun hc => ?_
  obtain ⟨p, hp, hsteps⟩ := List.mem_map.mp (Chain.contains_iff.mp hc)
  obtain ⟨hcanonical, hback⟩ := hlead p hp
  obtain rfl := eq_of_steps_eq hcanonical (canonical_of_reachable hpath hq) hsteps
  rcases Relation.reflTransGen_iff_eq_or_transGen.mp hback with rfl | hback
  · exact Bool.false_ne_true (hopen.symm.trans hc)
  · exact hcycle p hq (hback.trans_left hq)

theorem expansion_of_has (hne : c.isEmpty = false) (h : lib.store.Apart opts base path c)
    (hhas : lib.store.has path = true) :
    ∃ (t : Text) (x : List Omission), ∀ depth, lib.size < depth →
      Walk.Steady c (lib.store.expand opts base depth path) (.ok t) x := by
  obtain ⟨r, x, hr⟩ := exists_expansion hne h
  cases r with
  | ok t => exact ⟨t, x, hr⟩
  | error f =>
      have horder := orderly_expand_of_has opts base (lib.size + 1) path c hhas [] trivial
      rw [hr _ (Nat.lt_succ_self _) []] at horder
      exact absurd (horder.2.2 _ rfl) nofun

/-- What a document comes to does not depend on which documents are open, as long as it is not
open itself and leads to none that is: the same text and the same omissions, or the same fault.
So two directives, in one document or in two, that name one document without a cycle behind it are
replaced by the same text. -/
theorem expansion_independent (lib : Library) (opts : Options) (base path : Path) {c c' : Chain}
    (hne : c.isEmpty = false) (hne' : c'.isEmpty = false) :
    (lib.store.Apart opts base path c → lib.store.Apart opts base path c' →
      ∃ (r : Except Fault Text) (x : List Omission), ∀ depth, lib.size < depth →
        Walk.Steady c (lib.store.expand opts base depth path) (r.mapError Stop.fault) x ∧
        Walk.Steady c' (lib.store.expand opts base depth path) (r.mapError Stop.fault) x) ∧
    ((∀ q, ReflTransGen (lib.store.Includes opts base) path q →
        ¬ TransGen (lib.store.Includes opts base) q q) →
      lib.store.has path = true →
      LeadsTo lib opts base c path → c.contains path = false →
      LeadsTo lib opts base c' path → c'.contains path = false →
      ∀ file file' d d', opts.target base d = path → opts.target base d' = path →
        ∃ (t : Text) (x : List Omission), ∀ depth, lib.size < depth →
          Walk.Steady c
            (lib.store.fill opts base Walk.record (lib.store.expand opts base depth) file d)
            (.ok (some t)) x ∧
          Walk.Steady c'
            (lib.store.fill opts base Walk.record (lib.store.expand opts base depth) file' d')
            (.ok (some t)) x) := by
  have hagree {r : Except Stop Text} {x : List Omission} {depth : Nat}
      (h : lib.store.Apart opts base path c) (h' : lib.store.Apart opts base path c')
      (hr : Walk.Steady c (lib.store.expand opts base depth path) r x) :
      Walk.Steady c' (lib.store.expand opts base depth path) r x := by
    obtain ⟨r', x', h₁, h₂⟩ := Store.agree_expand depth (h.alikeFor h' (hne.trans hne'.symm))
    obtain ⟨rfl, rfl⟩ := hr.unique h₁
    exact h₂
  constructor
  · intro h h'
    obtain ⟨r, x, hr⟩ := exists_expansion hne h
    exact ⟨r, x, fun depth hd => ⟨hr depth hd, hagree h h' (hr depth hd)⟩⟩
  · -- an open document that could be reached again would close a cycle
    rintro hcycle hhas hlead hopen hlead' hopen' file file' d d' rfl hd'
    have hpath := canonical_target opts base d
    have h := apart_of_acyclic hpath hcycle hlead hopen
    have h' := apart_of_acyclic hpath hcycle hlead' hopen'
    obtain ⟨t, x, ht⟩ := expansion_of_has hne h hhas
    refine ⟨t, x, fun depth hd => ⟨?_, ?_⟩⟩
    · exact Store.steady_fill_expanded
        (Store.omission?_eq_none_iff.mpr ⟨h.not_mem .refl, hhas⟩) (ht depth hd)
    · refine Store.steady_fill_expanded ?_ ?_
      · rw [hd']
        exact Store.omission?_eq_none_iff.mpr ⟨h'.not_mem .refl, hhas⟩
      · rw [hd']
        exact hagree h h' (ht depth hd)

theorem expansion_independent_diamond :
    let p (name : String) : Path := ⟨name.toList⟩
    let c : Chain := ⟨[p "b.md", p "a.md"]⟩
    let c' : Chain := ⟨[p "c.md", p "a.md"]⟩
    let opts : Options := ⟨true, false, .empty⟩
    diamond.store.Apart opts .empty (p "d.md") c ∧ diamond.store.Apart opts .empty (p "d.md") c' ∧
    LeadsTo diamond opts .empty c (p "d.md") ∧ LeadsTo diamond opts .empty c' (p "d.md") ∧
    (∃ (r : Except Fault Text) (x : List Omission), ∀ depth, diamond.size < depth →
      Walk.Steady c (diamond.store.expand opts .empty depth (p "d.md")) (r.mapError Stop.fault) x ∧
      Walk.Steady c' (diamond.store.expand opts .empty depth (p "d.md")) (r.mapError Stop.fault) x) ∧
    ∃ (t : Text) (x : List Omission), ∀ depth, diamond.size < depth →
      Walk.Steady c
        (diamond.store.fill opts .empty Walk.record (diamond.store.expand opts .empty depth)
          (p "b.md") ⟨"d".toList, "d.md".toList⟩) (.ok (some t)) x ∧
      Walk.Steady c'
        (diamond.store.fill opts .empty Walk.record (diamond.store.expand opts .empty depth)
          (p "c.md") ⟨"d".toList, "x/../d.md".toList⟩) (.ok (some t)) x := by
  intro p c c' opts
  have hread {q k : Path} {raw : Text} (h : diamond.store.read q = .ok raw) :
      diamond.store.Includes opts .empty q k ↔
        ∃ d ∈ directives (opts.prepare false raw), opts.target .empty d = k := includes_iff h
  have hra : diamond.store.read (p "a.md") = .ok ":[b](b.md)\n:[c](./c.md)".toList := by
    decide +kernel
  have hrb : diamond.store.read (p "b.md") = .ok ":[d](d.md)".toList := by decide +kernel
  have hrc : diamond.store.read (p "c.md") = .ok ":[d](x/../d.md)".toList := by decide +kernel
  have hrd : diamond.store.read (p "d.md") = .ok ":[e](e.md)".toList := by decide +kernel
  -- the graph, edge by edge
  have hab : diamond.store.Includes opts .empty (p "a.md") (p "b.md") :=
    (hread hra).mpr ⟨⟨"b".toList, "b.md".toList⟩, by decide +kernel, by decide +kernel⟩
  have hac : diamond.store.Includes opts .empty (p "a.md") (p "c.md") :=
    (hread hra).mpr ⟨⟨"c".toList, "./c.md".toList⟩, by decide +kernel, by decide +kernel⟩
  have hbd : diamond.store.Includes opts .empty (p "b.md") (p "d.md") :=
    (hread hrb).mpr ⟨⟨"d".toList, "d.md".toList⟩, by decide +kernel, by decide +kernel⟩
  have hcd : diamond.store.Includes opts .empty (p "c.md") (p "d.md") :=
    (hread hrc).mpr ⟨⟨"d".toList, "x/../d.md".toList⟩, by decide +kernel, by decide +kernel⟩
  have hd {q : Path} (h : diamond.store.Includes opts .empty (p "d.md") q) : q = p "e.md" := by
    obtain ⟨d, hmem, rfl⟩ := (hread hrd).mp h
    have hall : ∀ d ∈ directives (opts.prepare false ":[e](e.md)".toList),
        opts.target .empty d = p "e.md" := by decide +kernel
    exact hall d hmem
  have he {q : Path} (h : diamond.store.Includes opts .empty (p "e.md") q) : False := by
    obtain ⟨raw, -, hr, -⟩ := h
    exact absurd (has_of_read hr) (by decide +kernel)
  have hreach {q : Path} (h : ReflTransGen (diamond.store.Includes opts .empty) (p "d.md") q) :
      q = p "d.md" ∨ q = p "e.md" := by
    rcases ReflTransGen.cases_head h with rfl | ⟨k, hk, h⟩
    · exact .inl rfl
    · obtain rfl := hd hk
      rcases ReflTransGen.cases_head h with rfl | ⟨k, hk, -⟩
      · exact .inr rfl
      · exact (he hk).elim
  have hcycle : ∀ q, ReflTransGen (diamond.store.Includes opts .empty) (p "d.md") q →
      ¬ TransGen (diamond.store.Includes opts .empty) q q := by
    intro q hq hback
    obtain ⟨k, hk, hback⟩ := TransGen.head'_iff.mp hback
    rcases hreach hq with rfl | rfl
    · obtain rfl := hd hk
      rcases ReflTransGen.cases_head hback with h | ⟨k, hk, -⟩
      · exact absurd h (by decide +kernel)
      · exact he hk
    · exact he hk
  have hapart : diamond.store.Apart opts .empty (p "d.md") c := by
    intro q hq
    rcases hreach hq with rfl | rfl
    · decide +kernel
    · decide +kernel
  have hapart' : diamond.store.Apart opts .empty (p "d.md") c' := by
    intro q hq
    rcases hreach hq with rfl | rfl
    · decide +kernel
    · decide +kernel
  have hlead : LeadsTo diamond opts .empty c (p "d.md") :=
    List.forall_mem_cons.mpr ⟨⟨by decide +kernel, .single hbd⟩,
      List.forall_mem_singleton.mpr ⟨by decide +kernel, .head hab (.single hbd)⟩⟩
  have hlead' : LeadsTo diamond opts .empty c' (p "d.md") :=
    List.forall_mem_cons.mpr ⟨⟨by decide +kernel, .single hcd⟩,
      List.forall_mem_singleton.mpr ⟨by decide +kernel, .head hac (.single hcd)⟩⟩
  have hmain := @expansion_independent diamond opts .empty (p "d.md") c c' rfl rfl
  exact ⟨hapart, hapart', hlead, hlead', hmain.1 hapart hapart',
    hmain.2 hcycle (by decide +kernel) hlead (by decide +kernel) hlead' (by decide +kernel) _ _ _ _
      (by decide +kernel) (by decide +kernel)⟩

end Library
end Compendium
