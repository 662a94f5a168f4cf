/-
# `Compendium.Proofs.Assembly.Expansion` — what one call of the expansion does

`Store.expand` is steady on every chain (`exists_steady_expand`): what a document comes to, and
what is reported on the way, do not depend on what has been reported before.  So one call can be
taken apart once and for all.

`expand_eq_ok_iff` is that one place.  A call succeeds exactly if the document can be read and each
of its directives is `Filled` — dropped and reported, or expanded by a successful call on the chain
with the document opened — and then its text is the prepared text, spliced.  `expand_eq_error_iff`
says the same of a call that fails: it is the first target to fail that makes it fail.  Everything
about whole assemblies is proved from these two equivalences by induction on the bound on the
nesting; nothing else unfolds `expand`.

In a library a document that is there is read, and so are the documents that it includes; only a
bound on the nesting that is too small can stop it.  Hence it is assembled (`assemble_of_has`).
-/
import Compendium.Proofs.Walk.Steady
import Mathlib.Tactic.Choose

namespace Compendium

namespace Store

variable {store : Store} {opts : Options} {base : Path} {depth : Nat} {c : Chain} {path file : Path}
  {d : Directive}

/-- What comes of a directive of the document `file` on the chain `c`: what stands in its place,
and what is reported. -/
inductive Filled (store : Store) (opts : Options) (base : Path) (depth : Nat) (c : Chain)
    (file : Path) (d : Directive) : Option Text → List Omission → Prop
  | dropped {kind : OmissionKind} :
      store.omission? c (opts.target base d) = some kind →
      Filled store opts base depth c file d none [⟨kind, file, opts.target base d⟩]
  | expanded {t : Text} {x : List Omission} :
      store.omission? c (opts.target base d) = none →
      Walk.Steady c (store.expand opts base depth (opts.target base d)) (.ok t) x →
      Filled store opts base depth c file d (some t) x

theorem omission?_eq_none_iff {p : Path} :
    store.omission? c p = none ↔ p.steps ∉ c.steps ∧ store.has p = true := by
  simp only [omission?]
  rw [← Chain.contains_iff]
  cases c.contains p <;> cases store.has p <;> simp

theorem Filled.of_omitted {content : Option Text} {x : List Omission}
    (h : Filled store opts base depth c file d content x) {kind : OmissionKind}
    (ho : store.omission? c (opts.target base d) = some kind) :
    content = none ∧ x = [⟨kind, file, opts.target base d⟩] := by
  cases h with
  | dropped hd =>
      obtain rfl := Option.some.inj (hd.symm.trans ho)
      exact ⟨rfl, rfl⟩
  | expanded hd _ => exact absurd (hd.symm.trans ho) nofun

theorem Filled.of_kept {content : Option Text} {x : List Omission}
    (h : Filled store opts base depth c file d content x)
    (ho : store.omission? c (opts.target base d) = none) :
    ∃ t, content = some t ∧
      Walk.Steady c (store.expand opts base depth (opts.target base d)) (.ok t) x := by
  cases h with
  | dropped hd => exact absurd (ho.symm.trans hd) nofun
  | expanded _ he => exact ⟨_, rfl, he⟩

/-! ## Filling -/

section Fill

variable {ω : Type} {report : Omission → Walk Stop (List ω) Unit}
  {expand : Path → Walk Stop (List ω) Text}

/-- A directive that is left out is reported, and nothing stands in its place. -/
theorem steady_fill_omitted {kind : OmissionKind} {x : List ω}
    (h : store.omission? c (opts.target base d) = some kind)
    (hr : Walk.Steady c (report ⟨kind, file, opts.target base d⟩) (.ok ()) x) :
    Walk.Steady c (store.fill opts base report expand file d) (.ok none) x := by
  refine Walk.steady_chain_bind ?_
  simp only [h]
  rw [← List.append_nil x]
  exact Walk.steady_bind hr (Walk.steady_pure _)

theorem steady_fill_kept {r : Except Stop Text} {x : List ω}
    (h : store.omission? c (opts.target base d) = none)
    (he : Walk.Steady c (expand (opts.target base d)) r x) :
    Walk.Steady c (store.fill opts base report expand file d) (r.map some) x := by
  refine Walk.steady_chain_bind ?_
  simp only [h]
  cases r with
  | error e => exact Walk.steady_bind_error he
  | ok t =>
      rw [← List.append_nil x]
      exact Walk.steady_bind he (Walk.steady_pure _)

theorem exists_steady_fill (hr : ∀ o, ∃ x, Walk.Steady c (report o) (.ok ()) x)
    (he : ∀ p, ∃ r y, Walk.Steady c (expand p) r y) (file : Path) (d : Directive) :
    ∃ r y, Walk.Steady c (store.fill opts base report expand file d) r y := by
  cases ho : store.omission? c (opts.target base d) with
  | some kind =>
      obtain ⟨x, hx⟩ := hr ⟨kind, file, opts.target base d⟩
      exact ⟨_, _, steady_fill_omitted ho hx⟩
  | none =>
      obtain ⟨r, y, hy⟩ := he (opts.target base d)
      exact ⟨_, _, steady_fill_kept ho hy⟩

end Fill

theorem steady_fill_dropped {kind : OmissionKind}
    (h : store.omission? c (opts.target base d) = some kind) :
    Walk.Steady c (store.fill opts base Walk.record (store.expand opts base depth) file d)
      (.ok none) [⟨kind, file, opts.target base d⟩] :=
  steady_fill_omitted h (Walk.steady_record _)

theorem steady_fill_expanded {t : Text} {x : List Omission}
    (h : store.omission? c (opts.target base d) = none)
    (he : Walk.Steady c (store.expand opts base depth (opts.target base d)) (.ok t) x) :
    Walk.Steady c (store.fill opts base Walk.record (store.expand opts base depth) file d)
      (.ok (some t)) x :=
  steady_fill_kept h he

theorem steady_fill_failed {e : Stop} {x : List Omission}
    (h : store.omission? c (opts.target base d) = none)
    (he : Walk.Steady c (store.expand opts base depth (opts.target base d)) (.error e) x) :
    Walk.Steady c (store.fill opts base Walk.record (store.expand opts base depth) file d)
      (.error e) x :=
  steady_fill_kept h he

theorem exists_steady_fill_expand
    (hexp : ∀ p, ∃ r y, Walk.Steady c (store.expand opts base depth p) r y) (file : Path)
    (d : Directive) :
    ∃ r y, Walk.Steady c (store.fill opts base Walk.record (store.expand opts base depth) file d)
      r y :=
  exists_steady_fill (fun o => ⟨_, Walk.steady_record o⟩) hexp file d

theorem Filled.steady {content : Option Text} {x : List Omission}
    (h : Filled store opts base depth c file d content x) :
    Walk.Steady c (store.fill opts base Walk.record (store.expand opts base depth) file d)
      (.ok content) x := by
  cases h with
  | dropped h => exact steady_fill_dropped h
  | expanded h he => exact steady_fill_expanded h he

theorem filled_of_steady {content : Option Text} {x : List Omission}
    (hexp : ∀ p, ∃ r y, Walk.Steady c (store.expand opts base depth p) r y)
    (h : Walk.Steady c (store.fill opts base Walk.record (store.expand opts base depth) file d)
      (.ok content) x) : Filled store opts base depth c file d content x := by
  cases ho : store.omission? c (opts.target base d) with
  | some kind =>
      obtain ⟨hc, rfl⟩ := h.unique (steady_fill_dropped ho)
      cases hc
      exact .dropped ho
  | none =>
      obtain ⟨r, y, hr⟩ := hexp (opts.target base d)
      cases r with
      | error e => exact absurd (h.unique (steady_fill_failed ho hr)).1 nofun
      | ok t =>
          obtain ⟨hc, rfl⟩ := h.unique (steady_fill_expanded ho hr)
          cases hc
          exact .expanded ho hr

theorem failed_of_steady {e : Stop} {x : List Omission}
    (hexp : ∀ p, ∃ r y, Walk.Steady c (store.expand opts base depth p) r y)
    (h : Walk.Steady c (store.fill opts base Walk.record (store.expand opts base depth) file d)
      (.error e) x) :
    store.omission? c (opts.target base d) = none ∧
      Walk.Steady c (store.expand opts base depth (opts.target base d)) (.error e) x := by
  cases ho : store.omission? c (opts.target base d) with
  | some kind => exact absurd (h.unique (steady_fill_dropped ho)).1 nofun
  | none =>
      obtain ⟨r, y, hr⟩ := hexp (opts.target base d)
      cases r with
      | ok t => exact absurd (h.unique (steady_fill_expanded ho hr)).1 nofun
      | error e' =>
          obtain ⟨he, rfl⟩ := h.unique (steady_fill_failed ho hr)
          obtain rfl := Except.error.inj he
          exact ⟨rfl, hr⟩

/-! ## Expanding -/

theorem expand_succ_of_read {raw : Text} (hr : store.read path = .ok raw) (s : List Omission) :
    store.expand opts base (depth + 1) path c s =
      embed (store.fill opts base Walk.record (store.expand opts base depth) path) path
        (opts.prepare (!c.isEmpty) raw) c s := by
  rw [expand]
  show Walk.bind Walk.chain _ c s = _
  simp only [Walk.bind, Walk.chain, hr]

theorem steady_expand_of_fault {f : Fault} (hr : store.read path = .error f) :
    Walk.Steady c (store.expand opts base (depth + 1) path) (.error (.fault f)) [] := by
  refine Walk.steady_chain_bind ?_
  simp only [hr]
  exact Walk.steady_fail _

theorem steady_expand_of_filled {raw : Text} {content : Directive → Option Text}
    {added : Directive → List Omission} (hr : store.read path = .ok raw)
    (hf : ∀ d ∈ directives (opts.prepare (!c.isEmpty) raw),
      Filled store opts base depth (c.opened path) path d (content d) (added d)) :
    Walk.Steady c (store.expand opts base (depth + 1) path)
      (.ok ((opts.prepare (!c.isEmpty) raw).splice content))
      ((directives (opts.prepare (!c.isEmpty) raw)).flatMap added) := by
  intro s
  rw [expand_succ_of_read hr]
  exact steady_embed (fun d hd => (hf d hd).steady) s

/-- What a document comes to does not depend on what is on record. -/
theorem exists_steady_expand (store : Store) (opts : Options) (base : Path) (depth : Nat)
    (path : Path) (c : Chain) :
    ∃ r x, Walk.Steady c (store.expand opts base depth path) r x := by
  induction depth generalizing path c with
  | zero => exact ⟨_, _, Walk.steady_fail Stop.tooDeep⟩
  | succ depth ih =>
      cases hr : store.read path with
      | error f => exact ⟨_, _, steady_expand_of_fault hr⟩
      | ok raw =>
          have hexp (p : Path) := ih p (c.opened path)
          have hembed : ∃ r y, Walk.Steady c (embed (store.fill opts base Walk.record
              (store.expand opts base depth) path) path (opts.prepare (!c.isEmpty) raw)) r y :=
            exists_steady_embed fun d _ => exists_steady_fill_expand hexp path d
          obtain ⟨r, x, hx⟩ := hembed
          exact ⟨r, x, fun s => (expand_succ_of_read hr s).trans (hx s)⟩

theorem steady_of_expand_eq {s s' : List Omission} {c' : Chain} {r : Except Stop Text}
    (h : store.expand opts base depth path c s = (r, c', s')) :
    ∃ x, Walk.Steady c (store.expand opts base depth path) r x ∧ c' = c ∧ s' = s ++ x := by
  obtain ⟨r', x, hx⟩ := exists_steady_expand store opts base depth path c
  have e := (hx s).symm.trans h
  simp only [Prod.mk.injEq] at e
  obtain ⟨rfl, rfl, rfl⟩ := e
  exact ⟨x, hx, rfl, rfl⟩

/-- What one successful call does: it reads the document, fills each directive, and splices. -/
theorem expand_eq_ok_iff {t : Text} {x : List Omission} :
    Walk.Steady c (store.expand opts base (depth + 1) path) (.ok t) x ↔
      ∃ raw content added, store.read path = .ok raw ∧
        (∀ d ∈ directives (opts.prepare (!c.isEmpty) raw),
          Filled store opts base depth (c.opened path) path d (content d) (added d)) ∧
        t = (opts.prepare (!c.isEmpty) raw).splice content ∧
        x = (directives (opts.prepare (!c.isEmpty) raw)).flatMap added := by
  constructor
  · intro h
    cases hr : store.read path with
    | error f => exact absurd (h.unique (steady_expand_of_fault hr)).1 nofun
    | ok raw =>
        have hexp (p : Path) := exists_steady_expand store opts base depth p (c.opened path)
        have hfill (d : Directive) (_ : d ∈ directives (opts.prepare (!c.isEmpty) raw)) :=
          exists_steady_fill_expand hexp path d
        rcases steady_embed_cases hfill with hok | ⟨e, y, he⟩
        · choose! content added hsteady using hok
          have hf : ∀ d ∈ directives (opts.prepare (!c.isEmpty) raw),
              Filled store opts base depth (c.opened path) path d (content d) (added d) :=
            fun d hd => filled_of_steady hexp (hsteady d hd)
          obtain ⟨ht, hx⟩ := h.unique (steady_expand_of_filled hr hf)
          exact ⟨raw, content, added, rfl, hf, Except.ok.inj ht, hx⟩
        · have he' : Walk.Steady c (store.expand opts base (depth + 1) path) (.error e) y :=
            fun s => (expand_succ_of_read hr s).trans (he s)
          exact absurd (h.unique he').1 nofun
  · rintro ⟨raw, content, added, hr, hf, ht, hx⟩
    rw [ht, hx]
    exact steady_expand_of_filled hr hf

/-- What one failing call does: it cannot read the document, or it fills the directives up to the
first one whose target fails. -/
theorem expand_eq_error_iff {e : Stop} {x : List Omission} :
    Walk.Steady c (store.expand opts base (depth + 1) path) (.error e) x ↔
      (∃ f, store.read path = .error f ∧ e = .fault f ∧ x = []) ∨
      ∃ (raw : Text) (before after : List Directive) (d : Directive)
        (content : Directive → Option Text) (added : Directive → List Omission)
        (y : List Omission), store.read path = .ok raw ∧
        directives (opts.prepare (!c.isEmpty) raw) = before ++ d :: after ∧
        (∀ b ∈ before,
          Filled store opts base depth (c.opened path) path b (content b) (added b)) ∧
        store.omission? (c.opened path) (opts.target base d) = none ∧
        Walk.Steady (c.opened path) (store.expand opts base depth (opts.target base d))
          (.error e) y ∧
        x = before.flatMap added ++ y := by
  constructor
  · intro h
    cases hr : store.read path with
    | error f =>
        obtain ⟨he, rfl⟩ := h.unique (steady_expand_of_fault hr)
        exact .inl ⟨f, rfl, Except.error.inj he, rfl⟩
    | ok raw =>
        right
        have hexp (p : Path) := exists_steady_expand store opts base depth p (c.opened path)
        have hfill (d : Directive) (_ : d ∈ directives (opts.prepare (!c.isEmpty) raw)) :=
          exists_steady_fill_expand hexp path d
        rcases steady_all_or_first hfill with hok | ⟨before, d, after, e', y, hd, hok, he⟩
        · -- no directive fails, and then the document does not
          choose! content added hsteady using hok
          have hall := steady_expand_of_filled hr fun d hd =>
            filled_of_steady hexp (hsteady d hd)
          exact absurd (h.unique hall).1 nofun
        · choose! content added hsteady using hok
          have hfirst : Walk.Steady c (store.expand opts base (depth + 1) path) (.error e')
              (before.flatMap added ++ y) := fun s =>
            (expand_succ_of_read hr s).trans (steady_embed_failed hd hsteady he s)
          obtain ⟨hee, rfl⟩ := h.unique hfirst
          obtain rfl := Except.error.inj hee
          obtain ⟨ho, hfail⟩ := failed_of_steady hexp he
          exact ⟨raw, before, after, d, content, added, y, rfl, hd,
            fun b hb => filled_of_steady hexp (hsteady b hb), ho, hfail, rfl⟩
  · rintro (⟨f, hr, rfl, rfl⟩ | ⟨raw, before, after, d, content, added, y, hr, hd, hf, ho, he, rfl⟩)
    · exact steady_expand_of_fault hr
    · intro s
      rw [expand_succ_of_read hr]
      exact steady_embed_failed hd (fun b hb => (hf b hb).steady) (steady_fill_failed ho he) s

theorem not_steady_expand_zero {t : Text} {x : List Omission} :
    ¬ Walk.Steady c (store.expand opts base 0 path) (.ok t) x :=
  fun h => absurd (h.unique (Walk.steady_fail Stop.tooDeep)).1 nofun

/-- A larger bound on the nesting does not change what a document comes to, if the bound was not
what stopped it. -/
theorem steady_expand_deeper {store : Store} {opts : Options} {base path : Path} {depth : Nat}
    {c : Chain} {r : Except Stop Text} {x : List Omission}
    (h : Walk.Steady c (store.expand opts base depth path) r x) (more : Nat)
    (hr : r ≠ .error .tooDeep := by nofun) :
    Walk.Steady c (store.expand opts base (depth + more) path) r x := by
  intro s
  have hf := expand_deeper store opts base depth more path c s s rfl
  rw [h s] at hf
  obtain ⟨e, he, rfl⟩ | ⟨he, hc, hs⟩ := hf
  · exact absurd he hr
  · exact Prod.ext he (Prod.ext hc hs.symm)

theorem assemble_of_steady {input : Path} {r : Except Stop Text} {x : List Omission}
    (h : Walk.Steady .empty (store.expand opts (baseFolder input) depth input.canonical) r x) :
    store.assemble opts depth input = r.map fun t => opts.finish t x := by
  rw [assemble, h []]
  cases r with
  | ok t => rfl
  | error e => rfl

end Store

/-! ## Documents of a library -/

theorem Stop.mapError_settle (r : Except Stop Assembly) (h : r ≠ .error .tooDeep) :
    (Stop.settle r h).mapError Stop.fault = r := by
  cases r with
  | ok a => rfl
  | error e =>
      cases e with
      | fault f => rfl
      | tooDeep => exact absurd rfl h

theorem Stop.mapError_fault_injective {α : Type} {r r' : Except Fault α}
    (h : r.mapError Stop.fault = r'.mapError Stop.fault) : r = r' := by
  cases r with
  | ok a =>
      cases r' with
      | ok a' => exact congrArg Except.ok (Except.ok.inj h)
      | error f' => exact absurd h nofun
  | error f =>
      cases r' with
      | ok a' => exact absurd h nofun
      | error f' => exact congrArg Except.error (Stop.fault.inj (Except.error.inj h))

namespace Library

variable {lib : Library}

theorem canonical_target (opts : Options) (base : Path) (d : Directive) :
    (opts.target base d).canonical = opts.target base d :=
  Path.canonical_canonical _

theorem get?_of_read {p : Path} {raw : Text} (h : lib.store.read p = .ok raw) :
    lib.get? p = some raw := by
  simp only [store] at h
  cases hg : lib.get? p with
  | none =>
      rw [hg] at h
      cases h
  | some t =>
      rw [hg] at h
      exact congrArg some (Except.ok.inj h)

theorem mem_of_read {p : Path} {raw : Text} (h : lib.store.read p = .ok raw) :
    (p.canonical, raw) ∈ lib.entries :=
  mem_of_get? (get?_of_read h)

theorem has_of_read {p : Path} {raw : Text} (h : lib.store.read p = .ok raw) :
    lib.store.has p = true := by
  simp only [store, get?_of_read h, Option.isSome_some]

theorem read_of_has {p : Path} (h : lib.store.has p = true) :
    ∃ raw, lib.store.read p = .ok raw := by
  obtain ⟨t, ht⟩ := Option.isSome_iff_exists.mp h
  exact ⟨t, by simp only [store, ht]⟩

theorem has_canonical (lib : Library) (p : Path) :
    lib.store.has p.canonical = lib.store.has p := by
  simp only [store, get?, Path.canonical_canonical]

theorem mapError_assemble (lib : Library) (opts : Options) (input : Path) :
    (lib.assemble opts input).mapError Stop.fault = lib.store.assemble opts (lib.size + 1) input :=
  Stop.mapError_settle _ _

/-- What the library assembles is what every sufficient bound on the nesting gives. -/
theorem assemble_of_size_lt (lib : Library) (opts : Options) (input : Path) {depth : Nat}
    (h : lib.size < depth) :
    lib.store.assemble opts depth input = (lib.assemble opts input).mapError Stop.fault := by
  obtain ⟨more, rfl⟩ := Nat.exists_eq_add_of_le (Nat.succ_le_of_lt h)
  rw [Store.assemble_deeper (assemble_ne_tooDeep lib opts input) more]
  exact (mapError_assemble lib opts input).symm

/-- A document that is there stops for want of depth, if at all. -/
theorem orderly_expand_of_has (opts : Options) (base : Path) (depth : Nat) :
    ∀ (path : Path) (c : Chain), lib.store.has path = true →
      Walk.Orderly (· = .tooDeep) (fun _ => True) c (lib.store.expand opts base depth path) := by
  induction depth with
  | zero => exact fun _ _ _ => Walk.orderly_fail rfl
  | succ depth ih =>
      intro path c h
      obtain ⟨raw, hr⟩ := read_of_has h
      refine Walk.orderly_chain_bind ?_
      simp only [hr]
      exact orderly_embed
        (fun _ d _ => Store.orderly_fill (fun _ => Walk.orderly_record) fun _ hhas => ih _ _ hhas)
        (fun _ d _ => Store.orderly_fill (fun _ => Walk.orderly_record) fun _ hhas => ih _ _ hhas)

theorem assemble_of_has (opts : Options) {input : Path} (h : lib.store.has input = true) :
    ∃ t x, Walk.Steady .empty
        (lib.store.expand opts (Store.baseFolder input) (lib.size + 1) input.canonical) (.ok t) x ∧
      lib.assemble opts input = .ok (opts.finish t x) := by
  obtain ⟨r, x, hx⟩ := Store.exists_steady_expand lib.store opts (Store.baseFolder input)
    (lib.size + 1) input.canonical .empty
  have hassemble := Store.assemble_of_steady hx
  cases r with
  | error e =>
      have horder := orderly_expand_of_has opts (Store.baseFolder input) (lib.size + 1)
        input.canonical .empty ((has_canonical lib input).trans h) [] trivial
      rw [hx []] at horder
      rw [horder.2.2 e rfl] at hassemble
      exact absurd hassemble (assemble_ne_tooDeep lib opts input)
  | ok t =>
      rw [← mapError_assemble] at hassemble
      exact ⟨t, x, hx, Stop.mapError_fault_injective hassemble⟩

end Library
end Compendium
