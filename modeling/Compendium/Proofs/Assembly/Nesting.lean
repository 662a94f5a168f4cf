/-
# `Compendium.Proofs.Assembly.Nesting` — every assembly of a library ends, and how deep it goes

What a run does is seen from its record, which begins with the call for the root document and has
one more for each directive that is expanded.  A call is a visit, and in a library a document is
visited only if it is not open, on a chain of distinct documents of the library
(`sound_of_visits`).  So a chain is never longer than the library has documents, and neither is a
nest of calls: distinct paths with distinct steps are distinct entries.

The same is seen without a record.  A bound on the nesting is used up by calls that are made in one
another, and one that is as high as there are documents is never used up
(`assemble_size_of_has`).

This is about calls that stand in one another.  The number of calls in a whole run is not
bounded by the size of the library; a document that is included twice is expanded twice.
-/
import Compendium.Proofs.Assembly.Omissions

namespace Compendium.Library

variable {lib : Library} {opts : Options} {input path : Path} {c : Chain}

/-- A document can be expanded on a chain: the open documents are distinct documents of the library,
and it is not one of them. -/
structure Sound (lib : Library) (c : Chain) (path : Path) : Prop where
  distinct : (path.steps :: c.steps).Nodup
  known : ∀ p ∈ c.links, lib.store.has p = true ∧ p.canonical = p
  canonical : path.canonical = path
  found : c.links = [] ∨ lib.store.has path = true

/-- By induction on the visit: each one opens the document that the next one is made from. -/
theorem sound_of_visits (h : lib.store.Visits opts input c path) : lib.Sound c path := by
  induction h with
  | root =>
      exact {
        distinct := List.nodup_cons.mpr ⟨List.not_mem_nil, .nil⟩
        known := fun p hp => absurd hp List.not_mem_nil
        canonical := Path.canonical_canonical input
        found := .inl rfl }
  | @nested c file raw d _ hr _ hnew hhas ih =>
      rw [Chain.opened_of_not_mem (List.nodup_cons.mp ih.distinct).1] at hnew ⊢
      exact {
        distinct := List.nodup_cons.mpr ⟨hnew, ih.distinct⟩
        known := List.forall_mem_cons.mpr ⟨⟨has_of_read hr, ih.canonical⟩, ih.known⟩
        canonical := canonical_target opts _ d
        found := .inr hhas }

/-- In a library that has a document, one more document than there are open ones is no more than
there are. -/
theorem Sound.depth_lt_size (h : lib.Sound c path) (hne : 0 < lib.size) : c.depth < lib.size := by
  have hmem {p : Path} (hp : lib.store.has p = true) (hc : p.canonical = p) :
      p.steps ∈ lib.entries.map (·.1.steps) := by
    have hm : p.canonical.steps ∈ lib.entries.map (·.1.steps) :=
      steps_mem_of_has ((has_canonical lib p).trans hp)
    rwa [hc] at hm
  rcases h.found with hnil | hhas
  · rwa [Chain.depth, hnil]
  · have hchain : c.steps ⊆ lib.entries.map (·.1.steps) := by
      intro s hs
      obtain ⟨p, hp, rfl⟩ := List.mem_map.mp hs
      exact hmem (h.known p hp).1 (h.known p hp).2
    have hsub : path.steps :: c.steps ⊆ lib.entries.map (·.1.steps) :=
      List.cons_subset.mpr ⟨hmem hhas h.canonical, hchain⟩
    have hle := List.Nodup.length_le_of_subset h.distinct hsub
    rwa [List.length_cons, Chain.steps, List.length_map, List.length_map] at hle

theorem size_pos_of_has (h : lib.store.has path = true) : 0 < lib.size := by
  rw [← has_canonical] at h
  obtain ⟨e, he, -⟩ := List.mem_map.mp (steps_mem_of_has h)
  exact List.length_pos_of_mem he

/-- Once the root document exists, calls need not be nested deeper than there are documents. -/
theorem assemble_size_of_has (opts : Options) (h : lib.store.has input = true) :
    lib.store.assemble opts lib.size input = (lib.assemble opts input).mapError Stop.fault := by
  have hroot : input.canonical.steps ∈ lib.entries.map (·.1.steps) :=
    steps_mem_of_has ((has_canonical lib input).trans h)
  have hne : lib.store.assemble opts lib.size input ≠ .error .tooDeep :=
    Store.assemble_ne_tooDeep_of_mem (targetsIn lib opts _) hroot (List.length_map _).le
  rw [← Store.assemble_deeper hne 1]
  exact (mapError_assemble lib opts input).symm

/-- Every assembly of a library ends: to bound the nesting of calls by one more than the number of
documents stops none, and to bound it by their number stops none whose root document exists.  To put
the calls on record changes nothing else: the call for the root document comes first, and where the
root document is expanded, each directive that is met is on record as it is dealt with, a call if it
is expanded.  In each call the open documents are distinct documents of the library and its path is
not among them; so, once the root document exists, there are fewer of them than documents. -/
theorem assembly_ends (lib : Library) (opts : Options) (input : Path) :
    (∀ depth, lib.size < depth →
      lib.store.assemble opts depth input = (lib.assemble opts input).mapError Stop.fault) ∧
    (lib.store.has input = true →
      lib.store.assemble opts lib.size input = (lib.assemble opts input).mapError Stop.fault) ∧
    ∀ depth,
      let base := Store.baseFolder input
      let run := lib.store.expand opts base depth input.canonical .empty []
      let trace := lib.store.traced opts base depth input.canonical .empty []
      (trace.1 = run.1 ∧ trace.2.1 = run.2.1 ∧ trace.2.2.filterMap Event.omission? = run.2.2) ∧
      trace.2.2.head? = some (.call input.canonical .empty) ∧
      (∀ t, run.1 = .ok t → trace.2.2 = .call input.canonical .empty ::
        (lib.met opts base [] input.canonical).map (Meeting.event lib)) ∧
      ∀ path chain, .call path chain ∈ trace.2.2 →
        chain.steps.Nodup ∧
        (∀ p ∈ chain.links, lib.store.has p = true) ∧
        path.steps ∉ chain.steps ∧
        (lib.store.has input = true → chain.depth + 1 ≤ lib.size) := by
  refine ⟨fun depth h => assemble_of_size_lt lib opts input h, assemble_size_of_has opts,
    fun depth => ?_⟩
  intro base run trace
  obtain ⟨r, x, hx⟩ :=
    Store.exists_steady_expand lib.store opts base depth input.canonical .empty
  obtain ⟨ev, hev, hseen⟩ := Store.exists_steady_traced depth .root hx
  have hrun : run = (r, .empty, x) := hx []
  have htrace : trace = (r, .empty, .call input.canonical .empty :: ev) := hev []
  rw [hrun, htrace]
  refine ⟨⟨rfl, rfl, hseen.omissions⟩, rfl, fun t ht => ?_, fun path chain hcall => ?_⟩
  · obtain rfl : r = .ok t := ht
    have hroot : ∀ p ∈ [input.canonical], p.canonical = p :=
      List.forall_mem_singleton.mpr (Path.canonical_canonical input)
    exact (hev.unique (steady_traced_of_expand depth hroot List.not_mem_nil hx)).2
  · -- whether or not the run succeeds, each of its calls is a visit
    have hs := sound_of_visits (hseen.visits path chain hcall)
    have hd := List.nodup_cons.mp hs.distinct
    exact ⟨hd.2, fun p hp => (hs.known p hp).1, hd.1,
      fun hin => hs.depth_lt_size (size_pos_of_has hin)⟩

end Compendium.Library
