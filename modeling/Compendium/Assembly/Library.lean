/-
# `Compendium.Assembly.Library` — assembling from a library or a disk

`Walk.Orderly P I c w` says that the work `w`, started on the chain `c`, leaves
that chain as it found it, keeps the property `I` of its state and fails only
with an error for which `P` holds.  Extending a draft and embedding are orderly
when the work done for each directive is.

The open documents of an assembly all differ, and where the targets that exist
all lie in a finite list, the chain cannot grow longer than that list.
`orderly_expand` draws the conclusion: with a bound on the nesting as long as
the list, an assembly never stops for want of depth.

A library has finitely many documents and a disk finitely many files, so
assembling from either ends in an assembly or a fault.
-/
import Compendium.Assembly

namespace Compendium

namespace Chain

/-- The steps of the open documents, the innermost first. -/
def steps (c : Chain) : List (List Step) := c.links.map Path.steps

theorem contains_iff {c : Chain} {p : Path} : c.contains p = true ↔ p.steps ∈ c.steps := by
  simp only [contains, steps, List.any_eq_true, Path.same, beq_iff_eq, List.mem_map]

theorem push?_eq_some_iff {c c' : Chain} {p : Path} :
    c.push? p = some c' ↔ p.steps ∉ c.steps ∧ c' = ⟨p :: c.links⟩ := by
  simp only [push?]
  by_cases h : p.steps ∈ c.steps
  · simp [contains_iff.mpr h, h]
  · have : c.contains p = false := by
      simpa [← Bool.not_eq_true, contains_iff] using h
    simp [this, h, eq_comm]

theorem push?_eq_none_iff {c : Chain} {p : Path} :
    c.push? p = none ↔ p.steps ∈ c.steps := by
  simp only [push?]
  by_cases h : p.steps ∈ c.steps
  · simp [contains_iff.mpr h, h]
  · have : c.contains p = false := by
      simpa [← Bool.not_eq_true, contains_iff] using h
    simp [this, h]

end Chain

namespace Walk

variable {ε σ α β : Type} {P : ε → Prop} {I : σ → Prop} {c : Chain}

/-- On the chain `c`, from a state with the property `I`, the work leaves the chain alone, ends in
such a state again, and fails only as `P` allows. -/
def Orderly (P : ε → Prop) (I : σ → Prop) (c : Chain) (w : Walk ε σ α) : Prop :=
  ∀ s, I s → (w c s).2.1 = c ∧ I (w c s).2.2 ∧ ∀ e, (w c s).1 = .error e → P e

theorem orderly_pure (a : α) : Orderly P I c (pure a : Walk ε σ α) :=
  fun _ hs => ⟨rfl, hs, fun _ h => nomatch h⟩

theorem orderly_fail {e : ε} (h : P e) : Orderly P I c (fail e : Walk ε σ α) :=
  fun _ hs => ⟨rfl, hs, fun _ he => Except.error.inj he ▸ h⟩

theorem orderly_update {f : σ → σ} (h : ∀ s, I s → I (f s)) :
    Orderly P I c (update f : Walk ε σ Unit) :=
  fun s hs => ⟨rfl, h s hs, fun _ h => nomatch h⟩

theorem orderly_record {a : α} : Orderly P (fun _ => True) c (record a : Walk ε (List α) Unit) :=
  orderly_update fun _ _ => trivial

theorem orderly_bind {w : Walk ε σ α} {f : α → Walk ε σ β} (hw : Orderly P I c w)
    (hf : ∀ a, Orderly P I c (f a)) : Orderly P I c (w >>= f) := by
  intro s hs
  obtain ⟨h₁, h₂, h₃⟩ := hw s hs
  show ((bind w f) c s).2.1 = c ∧ I ((bind w f) c s).2.2 ∧
    ∀ e, ((bind w f) c s).1 = .error e → P e
  simp only [bind]
  split
  · next a c' s' h =>
    rw [h] at h₁ h₂
    obtain rfl : c' = c := h₁
    exact hf a s' h₂
  · next e c' s' h =>
    rw [h] at h₁ h₂ h₃
    exact ⟨h₁, h₂, fun e' he => h₃ e' (congrArg Except.error (Except.error.inj he))⟩

theorem orderly_chain_bind {f : Chain → Walk ε σ α} (hf : Orderly P I c (f c)) :
    Orderly P I c (chain >>= f) := fun s hs => hf s hs

theorem orderly_within {p : Path} {w : Walk ε σ α}
    (hnew : p.steps ∉ c.steps → Orderly P I ⟨p :: c.links⟩ w)
    (hold : p.steps ∈ c.steps → Orderly P I c w) : Orderly P I c (within p w) := by
  intro s hs
  simp only [within]
  split
  · next c' hc =>
    obtain ⟨hp, rfl⟩ := Chain.push?_eq_some_iff.mp hc
    obtain ⟨h₁, h₂⟩ := hnew hp s hs
    exact ⟨by simp only [h₁, Chain.pop, List.tail_cons], h₂⟩
  · next hc => exact hold (Chain.push?_eq_none_iff.mp hc) s hs

end Walk

/-! ## Extending and embedding -/

theorem sections_rest_map (t : Text) : (sections t).rest.map Prod.fst = directives t := by
  simp only [sections, directives]
  induction lines t with
  | nil => rfl
  | cons l ls ih =>
    rw [List.foldr_cons, Sections.push, List.filterMap_cons]
    split
    · next d hd => simp [hd, ih]
    · next hd => simp [hd, ih]

theorem mem_directives_of_mem_rest {t : Text} {x : Directive × Text} (h : x ∈ (sections t).rest) :
    x.1 ∈ directives t :=
  sections_rest_map t ▸ List.mem_map_of_mem h

section Embed

variable {ε σ : Type} {P : ε → Prop} {I : σ → Prop} {c : Chain}
  {expand : Directive → Walk ε σ (Option Text)}

theorem orderly_extend {draft : Draft} {rest : List (Directive × Text)}
    (h : ∀ x ∈ rest, Walk.Orderly P I c (expand x.1)) :
    Walk.Orderly P I c (Draft.extend expand draft rest) := by
  induction rest generalizing draft with
  | nil => exact Walk.orderly_pure _
  | cons x rest ih =>
    simp only [Draft.extend]
    exact Walk.orderly_bind (h x (List.mem_cons_self ..)) fun _ =>
      ih fun y hy => h y (List.mem_cons_of_mem _ hy)

theorem orderly_embed {current : Path} {t : Text}
    (h : current.steps ∉ c.steps →
      ∀ d ∈ directives t, Walk.Orderly P I ⟨current :: c.links⟩ (expand d))
    (h' : current.steps ∈ c.steps → ∀ d ∈ directives t, Walk.Orderly P I c (expand d)) :
    Walk.Orderly P I c (embed expand current t) := by
  have hrest {c' : Chain} (hd : ∀ d ∈ directives t, Walk.Orderly P I c' (expand d)) :
      ∀ x ∈ (sections t).rest, Walk.Orderly P I c' (expand x.1) :=
    fun x hx => hd x.1 (mem_directives_of_mem_rest hx)
  simp only [embed]
  split
  · exact Walk.orderly_pure _
  · next lead rest _ hs =>
    rw [hs] at hrest
    exact Walk.orderly_within
      (fun hc => Walk.orderly_bind (orderly_extend (hrest (h hc))) fun _ => Walk.orderly_pure _)
      (fun hc => Walk.orderly_bind (orderly_extend (hrest (h' hc))) fun _ => Walk.orderly_pure _)

end Embed

/-! ## Assembling -/

namespace Store

/-- Every target that exists, of a directive of a document that can be read, takes steps from the
list. -/
def TargetsIn (store : Store) (opts : Options) (base : Path) (known : List (List Step)) : Prop :=
  ∀ path raw included, store.read path = .ok raw →
    ∀ d ∈ directives (opts.prepare included raw), store.has (opts.target base d) = true →
      (opts.target base d).steps ∈ known

section Fill

variable {store : Store} {opts : Options} {base file : Path} {d : Directive} {σ : Type}
  {report : Omission → Walk Stop σ Unit} {expand : Path → Walk Stop σ Text} {P : Stop → Prop}
  {I : σ → Prop} {c : Chain}

theorem orderly_fill (hr : ∀ o, Walk.Orderly P I c (report o))
    (h : (opts.target base d).steps ∉ c.steps → store.has (opts.target base d) = true →
      Walk.Orderly P I c (expand (opts.target base d))) :
    Walk.Orderly P I c (store.fill opts base report expand file d) := by
  simp only [fill]
  refine Walk.orderly_chain_bind ?_
  simp only [omission?]
  by_cases hc : c.contains (opts.target base d) = true
  · rw [if_pos hc]
    exact Walk.orderly_bind (hr _) fun _ => Walk.orderly_pure _
  · rw [if_neg hc]
    by_cases hs : store.has (opts.target base d) = true
    · rw [if_pos hs]
      exact Walk.orderly_bind (h (fun hm => hc (Chain.contains_iff.mpr hm)) hs)
        fun _ => Walk.orderly_pure _
    · rw [if_neg hs]
      exact Walk.orderly_bind (hr _) fun _ => Walk.orderly_pure _

end Fill

/-- With all targets in a list of known paths, and as much depth left as there are known paths
that are not open, no assembly stops for want of depth. -/
theorem orderly_expand {store : Store} {opts : Options} {base : Path} {known : List (List Step)}
    (ht : store.TargetsIn opts base known) (depth : Nat) :
    ∀ (path : Path) (c : Chain), (path.steps :: c.steps).Nodup →
      (path.steps :: c.steps) ⊆ known → known.length ≤ c.depth + depth →
      Walk.Orderly (· ≠ .tooDeep) (fun _ => True) c (store.expand opts base depth path) := by
  induction depth with
  | zero =>
    intro path c hn hk hl
    -- with no depth left there are as many open documents as the list has
    have := List.Nodup.length_le_of_subset hn hk
    simp only [Chain.steps, List.length_cons, List.length_map, Chain.depth] at this hl
    omega
  | succ depth ih =>
    intro path c hn hk hl
    simp only [expand]
    refine Walk.orderly_chain_bind ?_
    split
    · exact Walk.orderly_fail nofun
    · next raw hr =>
      refine orderly_embed (fun _ d hd => orderly_fill (fun _ => Walk.orderly_record) fun hnew hhas => ?_)
        (fun hc => absurd hc (List.nodup_cons.mp hn).1)
      refine ih _ _ (List.nodup_cons.mpr ⟨hnew, hn⟩) ?_ ?_
      · intro x hx
        rcases List.mem_cons.mp hx with rfl | hx
        · exact ht _ _ _ hr d hd hhas
        · exact hk hx
      · simp only [Chain.depth, List.length_cons] at hl ⊢
        omega

/-- A bound on the nesting that is as long as a list of all targets suffices, if the root document
is in the list. -/
theorem assemble_ne_tooDeep_of_mem {store : Store} {opts : Options} {input : Path}
    {known : List (List Step)} (ht : store.TargetsIn opts (baseFolder input) known)
    (hin : input.canonical.steps ∈ known) {depth : Nat} (hd : known.length ≤ depth) :
    store.assemble opts depth input ≠ .error .tooDeep := by
  have hone : input.canonical.steps :: Chain.empty.steps ⊆ known :=
    fun x hx => List.mem_singleton.mp hx ▸ hin
  have := (orderly_expand ht depth input.canonical .empty (by simp [Chain.steps, Chain.empty])
    hone (by simp [Chain.empty, Chain.depth]; omega) [] trivial).2.2
  simp only [assemble]
  split
  · intro h
    cases h
  · next e _ _ he =>
    rw [he] at this
    intro h
    exact this e rfl (Except.error.inj h)

/-- A bound on the nesting that is longer than a list of all targets suffices. -/
theorem assemble_ne_tooDeep {store : Store} {opts : Options} {input : Path}
    {known : List (List Step)} (ht : store.TargetsIn opts (baseFolder input) known) {depth : Nat}
    (hd : known.length < depth) : store.assemble opts depth input ≠ .error .tooDeep := by
  have hin : store.TargetsIn opts (baseFolder input) (input.canonical.steps :: known) :=
    fun path raw included hr d hm hh => List.mem_cons_of_mem _ (ht path raw included hr d hm hh)
  exact assemble_ne_tooDeep_of_mem hin List.mem_cons_self hd

end Store

/-- The result of an assembly that does not stop for want of depth. -/
def Stop.settle (r : Except Stop Assembly) (h : r ≠ .error .tooDeep) : Except Fault Assembly :=
  match r, h with
  | .ok c, _ => .ok c
  | .error (.fault f), _ => .error f
  | .error .tooDeep, h => absurd rfl h

/-! ## Libraries -/

namespace Library

theorem mem_of_get? {lib : Library} {p : Path} {t : Text} (h : lib.get? p = some t) :
    (p.canonical, t) ∈ lib.entries := by
  simp only [get?, Option.map_eq_some_iff] at h
  obtain ⟨⟨k, t'⟩, hf, rfl⟩ := h
  have hk := List.find?_some hf
  simp only [decide_eq_true_eq] at hk
  subst hk
  exact List.mem_of_find?_eq_some hf

theorem steps_mem_of_has {lib : Library} {p : Path} (h : lib.store.has p.canonical = true) :
    p.canonical.steps ∈ lib.entries.map (·.1.steps) := by
  obtain ⟨t, ht⟩ := Option.isSome_iff_exists.mp h
  exact List.mem_map.mpr ⟨_, mem_of_get? ht, by rw [Path.canonical_canonical]⟩

theorem targetsIn (lib : Library) (opts : Options) (base : Path) :
    lib.store.TargetsIn opts base (lib.entries.map (·.1.steps)) :=
  fun _ _ _ _ _ _ h => steps_mem_of_has h

/-- One more level than there are documents is enough. -/
theorem assemble_ne_tooDeep (lib : Library) (opts : Options) (input : Path) :
    lib.store.assemble opts (lib.size + 1) input ≠ .error .tooDeep :=
  Store.assemble_ne_tooDeep (targetsIn lib opts _) (by simp [size])

/-- Assembles the document `input` of a library.  There is a bound on the nesting that suffices, so
none has to be given. -/
def assemble (lib : Library) (opts : Options) (input : Path) : Except Fault Assembly :=
  Stop.settle (lib.store.assemble opts (lib.size + 1) input) (assemble_ne_tooDeep lib opts input)

end Library

/-! ## Disks

A file may be named in any number of ways, so its location does not bound the
nesting of documents.  But each document that is open, the first one apart, is
the target of some directive of some file, and there are finitely many of
these. -/

namespace Disk

def texts (d : Disk) : List Text :=
  d.items.filterMap fun (_, i) =>
    match i with
    | .file (.text t) => some t
    | _ => none

def targets (d : Disk) (opts : Options) (base : Path) : List (List Step) :=
  d.texts.flatMap fun raw =>
    [true, false].flatMap fun included =>
      (directives (opts.prepare included raw)).map fun dir => (opts.target base dir).steps

theorem mem_texts_of_read {d : Disk} {p : Path} {t : Text} (h : d.read p = .ok t) :
    t ∈ d.texts := by
  have hf : d.find p = .ok (.file (.text t)) := by
    unfold read at h
    split at h
    · next t' ht => rw [ht, Except.ok.inj h]
    all_goals cases h
  simp only [find] at hf
  split at hf
  · cases hf
  · next l _ =>
    split at hf
    · next i hi =>
      cases hf
      simp only [item?] at hi
      split at hi
      · cases hi
      · obtain ⟨⟨l', i'⟩, he, hs⟩ := Option.map_eq_some_iff.mp hi
        exact List.mem_filterMap.mpr ⟨_, List.mem_of_find?_eq_some he, by simp only at hs; rw [hs]⟩
    · cases hf

theorem targetsIn (d : Disk) (opts : Options) (base : Path) :
    d.store.TargetsIn opts base (d.targets opts base) := fun path raw included hr dir hd _ =>
  List.mem_flatMap.mpr ⟨raw, mem_texts_of_read hr, List.mem_flatMap.mpr
    ⟨included, by cases included <;> simp, List.mem_map.mpr ⟨dir, hd, rfl⟩⟩⟩

/-- How deep documents on a disk can be nested. -/
def depth (d : Disk) (opts : Options) (input : Path) : Nat :=
  (d.targets opts (Store.baseFolder input)).length + 1

theorem assemble_ne_tooDeep (d : Disk) (opts : Options) (input : Path) :
    d.store.assemble opts (d.depth opts input) input ≠ .error .tooDeep :=
  Store.assemble_ne_tooDeep (targetsIn d opts _) (Nat.lt_succ_self _)

def assemble (d : Disk) (opts : Options) (input : Path) : Except Fault Assembly :=
  Stop.settle (d.store.assemble opts (d.depth opts input) input) (assemble_ne_tooDeep d opts input)

end Disk

end Compendium
