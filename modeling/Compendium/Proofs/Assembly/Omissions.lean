/-
# `Compendium.Proofs.Assembly.Omissions` — every directive that is met is accounted for

`Library.met` lists the directives that are met when a document is expanded, depth first.  It looks
at the documents alone: a directive whose target is not being expanded, and names a document, is
followed by the directives met in its target, and any other directive is a dead end.  There is no
bound on the nesting in it; each step inwards leaves fewer documents that are not being expanded.

A run deals with exactly these directives, in this order, and with each of them once: it makes one
call of the expansion for a directive that is followed and reports one omission for a dead end
(`omissions_assemble`).  The induction is about the run that is traced, where calls and omissions
are in one record, and goes over its calls; what is reported is what is left without the calls.
-/
import Compendium.Proofs.Assembly.IncludeGraph
import Compendium.Proofs.Assembly.Trace

namespace Compendium

/-! ## The directives that are met -/

/-- A directive that is met: in which document, within which documents that one is expanded, the
innermost first, and where the directive leads. -/
structure Meeting where
  file : Path
  within : List Path
  target : Path
deriving DecidableEq

namespace Meeting

/-- Why the target is not expanded, if it is not: it is the document of the directive or one that
this is expanded within, or it is no document of the library. -/
def kind? (lib : Library) (m : Meeting) : Option OmissionKind :=
  if m.target ∈ m.file :: m.within then some .cyclic
  else if lib.store.has m.target then none
  else some .missing

def omission? (lib : Library) (m : Meeting) : Option Omission :=
  (m.kind? lib).map fun kind => ⟨kind, m.file, m.target⟩

variable {lib : Library} {m : Meeting}

theorem kind?_eq_none_iff :
    m.kind? lib = none ↔ m.target ∉ m.file :: m.within ∧ lib.store.has m.target = true := by
  simp only [kind?]
  by_cases hback : m.target ∈ m.file :: m.within
  · simp [hback]
  · cases lib.store.has m.target <;> simp [hback]

theorem kind?_eq_cyclic_iff : m.kind? lib = some .cyclic ↔ m.target ∈ m.file :: m.within := by
  simp only [kind?]
  by_cases hback : m.target ∈ m.file :: m.within
  · simp [hback]
  · cases lib.store.has m.target <;> simp [hback]

/-- Documents that are being expanded are there, so a target that is missing is no way back. -/
theorem kind?_eq_missing_iff (h : ∀ p ∈ m.file :: m.within, lib.store.has p = true) :
    m.kind? lib = some .missing ↔ lib.store.has m.target = false := by
  simp only [kind?]
  by_cases hback : m.target ∈ m.file :: m.within
  · simp [hback, h _ hback]
  · cases lib.store.has m.target <;> simp [hback]

end Meeting

namespace Library

variable {lib : Library} {opts : Options} {base path : Path} {within : List Path}

/-- How many documents are not in the list. -/
def outside (lib : Library) (chain : List Path) : Nat :=
  (lib.entries.filter (·.1 ∉ chain)).length

theorem outside_lt {chain : List Path} {q : Path} (hq : q.canonical = q) (hnew : q ∉ chain)
    (hhas : lib.store.has q = true) : lib.outside (q :: chain) < lib.outside chain := by
  obtain ⟨t, ht⟩ := Option.isSome_iff_exists.mp hhas
  have hmem : (q, t) ∈ lib.entries.filter (·.1 ∉ chain) := by
    rw [List.mem_filter, decide_eq_true_eq]
    exact ⟨hq ▸ mem_of_get? ht, hnew⟩
  have hfilter : lib.entries.filter (·.1 ∉ q :: chain) =
      (lib.entries.filter (·.1 ∉ chain)).filter (·.1 ≠ q) := by
    rw [List.filter_filter]
    refine List.filter_congr fun e _ => ?_
    simp only [List.mem_cons, not_or, ne_eq, Bool.decide_and]
  simp only [outside, hfilter]
  refine List.length_filter_lt_length_iff_exists.mpr ⟨_, hmem, ?_⟩
  simp only [ne_eq, not_true_eq_false, decide_false, Bool.false_eq_true, not_false_eq_true]

theorem outside_lt_of_kept {m : Meeting} (h : m.kind? lib = none)
    (hm : m.target.canonical = m.target) :
    lib.outside (m.target :: m.file :: m.within) < lib.outside (m.file :: m.within) := by
  obtain ⟨hnew, hhas⟩ := Meeting.kind?_eq_none_iff.mp h
  exact outside_lt hm hnew hhas

/-- The directives that are met when the document at `path` is expanded within other documents,
depth first: those of the document in order, each followed by the directives that are met in its
target, where that is expanded. -/
def met (lib : Library) (opts : Options) (base : Path) (within : List Path) (path : Path) :
    List Meeting :=
  match lib.get? path with
  | none => []
  | some raw =>
    (directives (Text.trim (Text.uniform raw))).flatMap fun d =>
      ⟨path, within, opts.target base d⟩ ::
        if _h : Meeting.kind? lib ⟨path, within, opts.target base d⟩ = none then
          lib.met opts base (path :: within) (opts.target base d)
        else []
termination_by lib.outside (path :: within)
decreasing_by
  exact outside_lt_of_kept (m := ⟨path, within, opts.target base d⟩) _h
    (canonical_target opts base d)

/-- A directive that is met, and the directives that are met because of it. -/
def metFrom (lib : Library) (opts : Options) (base : Path) (m : Meeting) : List Meeting :=
  m :: if m.kind? lib = none then lib.met opts base (m.file :: m.within) m.target else []

theorem metFrom_of_kept {m : Meeting} (h : m.kind? lib = none) :
    lib.metFrom opts base m = m :: lib.met opts base (m.file :: m.within) m.target := by
  rw [metFrom, if_pos h]

theorem metFrom_of_omitted {m : Meeting} {kind : OmissionKind} (h : m.kind? lib = some kind) :
    lib.metFrom opts base m = [m] := by
  rw [metFrom, if_neg (h ▸ Option.some_ne_none kind)]

theorem met_of_read {raw : Text} (hr : lib.store.read path = .ok raw) :
    lib.met opts base within path = (directives (Text.trim (Text.uniform raw))).flatMap fun d =>
      lib.metFrom opts base ⟨path, within, opts.target base d⟩ := by
  rw [met, get?_of_read hr]
  refine List.flatMap_congr fun d _ => ?_
  rw [metFrom, dite_eq_ite]

theorem has_of_mem_met {m : Meeting} (hwithin : ∀ p ∈ within, lib.store.has p = true)
    (hm : m ∈ lib.met opts base within path) :
    ∀ p ∈ m.file :: m.within, lib.store.has p = true := by
  fun_induction met lib opts base within path with
  | case1 within path hnone => exact absurd hm List.not_mem_nil
  | case2 within path raw hraw ih =>
      have hpath : lib.store.has path = true := by simp only [store, hraw, Option.isSome_some]
      have hopen : ∀ p ∈ path :: within, lib.store.has p = true :=
        List.forall_mem_cons.mpr ⟨hpath, hwithin⟩
      obtain ⟨d, -, hm⟩ := List.mem_flatMap.mp hm
      rcases List.mem_cons.mp hm with rfl | hm
      · exact hopen
      · split at hm
        · next hkept => exact ih d hkept hopen hm
        · exact absurd hm List.not_mem_nil

end Library

/-! ## How a directive is dealt with -/

/-- How a directive that is met is dealt with. -/
def Meeting.event (lib : Library) (m : Meeting) : Event :=
  match m.omission? lib with
  | some o => .omission o
  | none => .call m.target ⟨m.file :: m.within⟩

namespace Meeting

variable {lib : Library} {m : Meeting}

theorem event_of_omitted {kind : OmissionKind} (h : m.kind? lib = some kind) :
    m.event lib = .omission ⟨kind, m.file, m.target⟩ := by
  rw [event, omission?, h, Option.map_some]

theorem event_of_kept (h : m.kind? lib = none) :
    m.event lib = .call m.target ⟨m.file :: m.within⟩ := by
  rw [event, omission?, h, Option.map_none]

theorem omission?_event (lib : Library) (m : Meeting) :
    (m.event lib).omission? = m.omission? lib := by
  rw [event]
  cases m.omission? lib with
  | some o => rfl
  | none => rfl

end Meeting

/-! ## Every directive that is met -/

namespace Library

variable {lib : Library} {opts : Options} {base path : Path} {within : List Path}

theorem omission?_eq_kind? (hopen : ∀ p ∈ path :: within, p.canonical = p) {q : Path}
    (hq : q.canonical = q) :
    lib.store.omission? ⟨path :: within⟩ q = Meeting.kind? lib ⟨path, within, q⟩ := by
  have hmem : (Chain.mk (path :: within)).contains q = true ↔ q ∈ path :: within := by
    rw [Chain.contains_iff, Chain.steps, List.mem_map]
    constructor
    · rintro ⟨p, hp, hsteps⟩
      exact eq_of_steps_eq (hopen p hp) hq hsteps ▸ hp
    · exact fun h => ⟨q, h, rfl⟩
  simp only [Store.omission?, Meeting.kind?, hmem]

theorem steady_tracedFill_of_filled {depth : Nat} {d : Directive} {content : Option Text}
    {x : List Omission} (hopen : ∀ p ∈ path :: within, p.canonical = p)
    (hf : lib.store.Filled opts base depth ⟨path :: within⟩ path d content x)
    (ih : ∀ t, (opts.target base d).steps ∉ (Chain.mk (path :: within)).steps →
      Walk.Steady ⟨path :: within⟩ (lib.store.expand opts base depth (opts.target base d))
        (.ok t) x →
      Walk.Steady ⟨path :: within⟩ (lib.store.traced opts base depth (opts.target base d)) (.ok t)
        (.call (opts.target base d) ⟨path :: within⟩ ::
          (lib.met opts base (path :: within) (opts.target base d)).map (Meeting.event lib))) :
    Walk.Steady ⟨path :: within⟩ (lib.store.tracedFill opts base depth path d) (.ok content)
      ((lib.metFrom opts base ⟨path, within, opts.target base d⟩).map (Meeting.event lib)) := by
  have hkind : lib.store.omission? ⟨path :: within⟩ (opts.target base d) =
      Meeting.kind? lib ⟨path, within, opts.target base d⟩ :=
    omission?_eq_kind? hopen (canonical_target opts base d)
  cases hf with
  | dropped ho =>
      have hm := hkind.symm.trans ho
      rw [metFrom_of_omitted hm, List.map_singleton, Meeting.event_of_omitted hm]
      exact Store.steady_fill_omitted ho (Walk.steady_record _)
  | expanded ho he =>
      have hm := hkind.symm.trans ho
      rw [metFrom_of_kept hm, List.map_cons, Meeting.event_of_kept hm]
      exact Store.steady_fill_kept ho (ih _ (Store.omission?_eq_none_iff.mp ho).1 he)

/-- What is seen of a document that is expanded is the call, and then how each directive that is
met in it is dealt with. -/
theorem steady_traced_of_expand (depth : Nat) {t : Text} {x : List Omission}
    (hopen : ∀ p ∈ path :: within, p.canonical = p) (hnew : path.steps ∉ (Chain.mk within).steps)
    (h : Walk.Steady ⟨within⟩ (lib.store.expand opts base depth path) (.ok t) x) :
    Walk.Steady ⟨within⟩ (lib.store.traced opts base depth path) (.ok t)
      (.call path ⟨within⟩ :: (lib.met opts base within path).map (Meeting.event lib)) := by
  induction depth generalizing path within t x with
  | zero => exact absurd h Store.not_steady_expand_zero
  | succ depth ih =>
      obtain ⟨raw, content, added, hr, hf, ht, -⟩ := Store.expand_eq_ok_iff.mp h
      rw [Chain.opened_of_not_mem hnew] at hf
      have hone (d : Directive)
          (hd : d ∈ directives (opts.prepare (!(Chain.mk within).isEmpty) raw)) :=
        steady_tracedFill_of_filled hopen (hf d hd) fun t hnew he =>
          ih (List.forall_mem_cons.mpr ⟨canonical_target opts base d, hopen⟩) hnew he
      rw [ht, met_of_read hr, ← directives_prepare opts (!(Chain.mk within).isEmpty) raw,
        List.map_flatMap]
      refine Store.steady_traced_of_embed hr (steady_embed fun d hd => ?_)
      rw [Chain.opened_of_not_mem hnew]
      exact hone d hd

/-- Every directive that is met is accounted for once, in order.  It is called cyclic exactly if it
leads back to its document or to one that this is expanded within, and missing exactly if it leads
to no document; it is then reported so and not expanded.  Any other is not reported, and the
expansion is called for it once, with its document and those around it open.  No other omission is
reported, and besides the root document nothing else is expanded. -/
theorem omissions_assemble (lib : Library) (opts : Options) {input : Path}
    (h : lib.store.has input = true) :
    let base := Store.baseFolder input
    let met := lib.met opts base [] input.canonical
    (∃ a, lib.assemble opts input = .ok a ∧
      a.omissions = met.filterMap (Meeting.omission? lib)) ∧
    (∀ m ∈ met,
      (m.kind? lib = some .cyclic ↔ m.target ∈ m.file :: m.within) ∧
      (m.kind? lib = some .missing ↔ lib.store.has m.target = false)) ∧
    ∀ depth, lib.size < depth → ∃ t,
      lib.store.expand opts base depth input.canonical .empty [] =
        (.ok t, .empty, met.filterMap (Meeting.omission? lib)) ∧
      lib.store.traced opts base depth input.canonical .empty [] =
        (.ok t, .empty, .call input.canonical .empty :: met.map (Meeting.event lib)) := by
  intro base met
  obtain ⟨t, x, hx, ha⟩ := assemble_of_has opts h
  have hroot : ∀ p ∈ [input.canonical], p.canonical = p :=
    List.forall_mem_singleton.mpr (Path.canonical_canonical input)
  have htraced {depth : Nat} (hd : Walk.Steady .empty
      (lib.store.expand opts base depth input.canonical) (.ok t) x) :=
    steady_traced_of_expand depth hroot List.not_mem_nil hd
  -- without the calls the record is that of the expansion
  have hmet : x = met.filterMap (Meeting.omission? lib) := by
    obtain ⟨ev, hev, hseen⟩ := Store.exists_steady_traced _ .root hx
    have homissions := hseen.omissions
    rw [(hev.unique (htraced hx)).2, List.filterMap_cons, List.filterMap_map] at homissions
    exact homissions.symm.trans (List.filterMap_congr fun m _ => m.omission?_event lib)
  refine ⟨⟨_, ha, hmet⟩, fun m hm => ?_, fun depth hd => ⟨t, ?_⟩⟩
  · have hhas := has_of_mem_met (fun p hp => absurd hp List.not_mem_nil) hm
    exact ⟨Meeting.kind?_eq_cyclic_iff, Meeting.kind?_eq_missing_iff hhas⟩
  · obtain ⟨more, rfl⟩ := Nat.exists_eq_add_of_le (Nat.succ_le_of_lt hd)
    have hdeep := Store.steady_expand_deeper hx more
    rw [← hmet]
    exact ⟨hdeep [], htraced hdeep []⟩

/-- Two documents that include each other and are included twice, between directives that lead
nowhere. -/
def tangled : Library := .ofList
  [(⟨"a.md".toList⟩, ":[b](b.md)\n:[x](x.md)\n:[b](./b.md)".toList),
    (⟨"b.md".toList⟩, ":[a](a.md)\n:[c](c.md)\n:[b](b.md)".toList),
    (⟨"c.md".toList⟩, ":[y](y.md)".toList)]

theorem omissions_assemble_tangled :
    let opts : Options := ⟨true, false, .empty⟩
    let a : Path := ⟨"a.md".toList⟩
    let b : Path := ⟨"b.md".toList⟩
    let c : Path := ⟨"c.md".toList⟩
    let x : Path := ⟨"x.md".toList⟩
    let y : Path := ⟨"y.md".toList⟩
    tangled.store.has ⟨"./a.md".toList⟩ = true ∧
    (∃ r, tangled.assemble opts ⟨"./a.md".toList⟩ = .ok r ∧
      r.omissions = [⟨.cyclic, b, a⟩, ⟨.missing, c, y⟩, ⟨.cyclic, b, b⟩, ⟨.missing, a, x⟩,
        ⟨.cyclic, b, a⟩, ⟨.missing, c, y⟩, ⟨.cyclic, b, b⟩]) ∧
    ∀ depth, 3 < depth → ∃ t, tangled.store.traced opts .empty depth a .empty [] = (.ok t, .empty,
      [.call a ⟨[]⟩,
        .call b ⟨[a]⟩, .omission ⟨.cyclic, b, a⟩,
          .call c ⟨[b, a]⟩, .omission ⟨.missing, c, y⟩, .omission ⟨.cyclic, b, b⟩,
        .omission ⟨.missing, a, x⟩,
        .call b ⟨[a]⟩, .omission ⟨.cyclic, b, a⟩,
          .call c ⟨[b, a]⟩, .omission ⟨.missing, c, y⟩, .omission ⟨.cyclic, b, b⟩]) := by
  intro opts a b c x y
  have h : tangled.store.has ⟨"./a.md".toList⟩ = true := by decide +kernel
  have hbase : Store.baseFolder ⟨"./a.md".toList⟩ = .empty := by decide +kernel
  have hroot : Path.canonical ⟨"./a.md".toList⟩ = a := by decide +kernel
  have hmain := omissions_assemble tangled opts h
  rw [hbase, hroot] at hmain
  obtain ⟨⟨r, hr, ho⟩, -, hrun⟩ := hmain
  refine ⟨h, ⟨r, hr, ho.trans (by decide +kernel)⟩, fun depth hd => ?_⟩
  have hsize : tangled.size = 3 := by decide +kernel
  obtain ⟨t, -, ht⟩ := hrun depth (hsize.symm ▸ hd)
  exact ⟨t, ht.trans (congrArg (Except.ok t, Chain.empty, ·) (by decide +kernel))⟩

end Library
end Compendium
