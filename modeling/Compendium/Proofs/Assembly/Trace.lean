/-
# `Compendium.Proofs.Assembly.Trace` — an expansion with its calls on record

`Store.traced` is the expansion with one thing more on record: each call of it, for which path and
with which documents open, where it is made among the omissions.

A call reads its document, so the record shows which reads a run makes and in what order, and
`Seen` says what there is to see.  Without the calls the record is that of the expansion.  Each call
is a *visit*: it is for the root document or for the target of a directive in a document that is
read, and `Store.Visits` says so without a word on runs and bounds.  A run that succeeds reads a
document in each of its calls; one that fails does so in all calls but the last, which is the reason
to fail.

One induction on the bound on the nesting proves all of it (`exists_steady_traced`).  `Seen` is what
it carries, and goes from the directives to the document as the record does, by `Seen.append`.
-/
import Compendium.Proofs.Assembly.Expansion
import Mathlib.Control.Monad.Basic

namespace Compendium

/-- What a run can be seen to do: to call the expansion for a path, with some documents open, or to
report an omission. -/
inductive Event where
  | call (path : Path) (chain : Chain)
  | omission (o : Omission)
deriving DecidableEq

def Event.omission? : Event → Option Omission
  | .call _ _ => none
  | .omission o => some o

namespace Store

/-- `Store.expand` with its calls and omissions on record as they come. -/
def traced (store : Store) (opts : Options) (base : Path) :
    Nat → Path → Walk Stop (List Event) Text
  | 0, path => do
    Walk.record (.call path (← Walk.chain))
    .fail .tooDeep
  | depth + 1, path => do
    let chain ← Walk.chain
    Walk.record (.call path chain)
    match store.read path with
    | .error f => .fail (.fault f)
    | .ok raw =>
      embed (store.fill opts base (fun o => Walk.record (.omission o))
        (store.traced opts base depth) path) path (opts.prepare (!chain.isEmpty) raw)

def tracedFill (store : Store) (opts : Options) (base : Path) (depth : Nat) (file : Path)
    (d : Directive) : Walk Stop (List Event) (Option Text) :=
  store.fill opts base (fun o => Walk.record (.omission o)) (store.traced opts base depth) file d

/-- In the assembly of `input`, the document at a path is expanded with some documents open: it is
the root document, or the target of a directive in a document that is read and then opened, which
is there and not open. -/
inductive Visits (store : Store) (opts : Options) (input : Path) : Chain → Path → Prop
  | root : Visits store opts input .empty input.canonical
  | nested {c : Chain} {file : Path} {raw : Text} {d : Directive} :
      Visits store opts input c file →
      store.read file = .ok raw →
      d ∈ directives (opts.prepare (!c.isEmpty) raw) →
      (opts.target (baseFolder input) d).steps ∉ (c.opened file).steps →
      store.has (opts.target (baseFolder input) d) = true →
      Visits store opts input (c.opened file) (opts.target (baseFolder input) d)

section Traced

variable {store : Store} {opts : Options} {base path : Path} {depth : Nat} {c : Chain}

theorem steady_traced_zero :
    Walk.Steady c (store.traced opts base 0 path) (.error .tooDeep) [.call path c] :=
  Walk.steady_chain_bind (Walk.steady_bind (Walk.steady_record _) (Walk.steady_fail _))

theorem steady_traced_of_fault {f : Fault} (hr : store.read path = .error f) :
    Walk.Steady c (store.traced opts base (depth + 1) path) (.error (.fault f)) [.call path c] := by
  refine Walk.steady_chain_bind (Walk.steady_bind (Walk.steady_record (Event.call path c)) ?_)
  simp only [hr]
  exact Walk.steady_fail _

theorem steady_traced_of_embed {raw : Text} {r : Except Stop Text} {ev : List Event}
    (hr : store.read path = .ok raw)
    (h : Walk.Steady c (embed (store.tracedFill opts base depth path) path
      (opts.prepare (!c.isEmpty) raw)) r ev) :
    Walk.Steady c (store.traced opts base (depth + 1) path) r (.call path c :: ev) := by
  refine Walk.steady_chain_bind (Walk.steady_bind (Walk.steady_record (Event.call path c)) ?_)
  simp only [hr]
  exact h

end Traced

/-! ## What there is to see -/

def Reads (store : Store) : Event → Prop
  | .call p _ => ∃ raw, store.read p = .ok raw
  | .omission _ => True

/-- How a record ends where the run comes out as `r`. -/
inductive Ends {α : Type} (store : Store) : Except Stop α → List Event → Prop
  | ok {a : α} {ev : List Event} : (∀ e ∈ ev, store.Reads e) → Ends store (.ok a) ev
  | fault {ev : List Event} {p : Path} {c : Chain} {f : Fault} :
      (∀ e ∈ ev, store.Reads e) → store.read p = .error f →
      Ends store (.error (.fault f)) (ev ++ [.call p c])
  | tooDeep {ev : List Event} {p : Path} {c : Chain} :
      (∀ e ∈ ev, store.Reads e) → Ends store (.error .tooDeep) (ev ++ [.call p c])

/-- What there is to see of a run that comes out as `r` and reports `x`: the omissions are those
reported, the calls are visits, and the record ends as the run does. -/
structure Seen {α : Type} (store : Store) (opts : Options) (input : Path) (r : Except Stop α)
    (x : List Omission) (ev : List Event) : Prop where
  omissions : ev.filterMap Event.omission? = x
  visits : ∀ p c, .call p c ∈ ev → store.Visits opts input c p
  ends : store.Ends r ev

variable {α β : Type} {store : Store} {opts : Options} {input path : Path} {depth : Nat} {c : Chain}
  {r : Except Stop β} {x y : List Omission} {ev ev' : List Event}

theorem Ends.reads {a : α} (h : store.Ends (.ok a) ev) : ∀ e ∈ ev, store.Reads e := by
  cases h with
  | ok h => exact h

theorem Ends.of_fault {f : Fault} (hr : store.read path = .error f) :
    store.Ends (.error (.fault f) : Except Stop α) [.call path c] := by
  rw [← List.nil_append [Event.call path c]]
  exact .fault (List.forall_mem_nil _) hr

theorem Ends.of_tooDeep : store.Ends (.error .tooDeep : Except Stop α) [.call path c] := by
  rw [← List.nil_append [Event.call path c]]
  exact .tooDeep (List.forall_mem_nil _)

theorem Ends.append (h : ∀ e ∈ ev, store.Reads e) (h' : store.Ends r ev') :
    store.Ends r (ev ++ ev') := by
  cases h' with
  | ok h' => exact .ok (List.forall_mem_append.mpr ⟨h, h'⟩)
  | fault h' hr =>
      rw [← List.append_assoc]
      exact .fault (List.forall_mem_append.mpr ⟨h, h'⟩) hr
  | tooDeep h' =>
      rw [← List.append_assoc]
      exact .tooDeep (List.forall_mem_append.mpr ⟨h, h'⟩)

namespace Seen

theorem append {a : α} (h : store.Seen opts input (.ok a) x ev)
    (h' : store.Seen opts input r y ev') : store.Seen opts input r (x ++ y) (ev ++ ev') where
  omissions := by rw [List.filterMap_append, h.omissions, h'.omissions]
  visits := fun p c hm => (List.mem_append.mp hm).elim (h.visits p c) (h'.visits p c)
  ends := h'.ends.append h.ends.reads

theorem call (hvisit : store.Visits opts input c path) (h : store.Ends r [.call path c]) :
    store.Seen opts input r [] [.call path c] where
  omissions := rfl
  visits := fun p c' hm => by
    obtain ⟨rfl, rfl⟩ := Event.call.inj (List.mem_singleton.mp hm)
    exact hvisit
  ends := h

theorem read {raw : Text} (hvisit : store.Visits opts input c path)
    (hr : store.read path = .ok raw) : store.Seen opts input (.ok ()) [] [.call path c] :=
  call hvisit (.ok (List.forall_mem_singleton.mpr ⟨raw, hr⟩))

theorem omission (o : Omission) (a : α) :
    store.Seen opts input (.ok a) [o] [.omission o] where
  omissions := rfl
  visits := fun _ _ hm => absurd (List.mem_singleton.mp hm) nofun
  ends := .ok (List.forall_mem_singleton.mpr trivial)

theorem nil (a : α) : store.Seen opts input (.ok a) [] [] where
  omissions := rfl
  visits := fun _ _ hm => absurd hm List.not_mem_nil
  ends := .ok fun _ hm => absurd hm List.not_mem_nil

theorem map {r : Except Stop α} (h : store.Seen opts input r x ev) (f : α → β) :
    store.Seen opts input (r.map f) x ev where
  omissions := h.omissions
  visits := h.visits
  ends := by
    cases h.ends with
    | ok hev => exact .ok hev
    | fault hev hr => exact .fault hev hr
    | tooDeep hev => exact .tooDeep hev

theorem flatMap {content : Directive → Option Text} {added : Directive → List Omission}
    {seen : Directive → List Event} {ds : List Directive}
    (h : ∀ d ∈ ds, store.Seen opts input (.ok (content d)) (added d) (seen d)) (a : α) :
    store.Seen opts input (.ok a) (ds.flatMap added) (ds.flatMap seen) := by
  induction ds with
  | nil => exact .nil a
  | cons d ds ih =>
      obtain ⟨hd, hds⟩ := List.forall_mem_cons.mp h
      exact hd.append (ih hds)

end Seen

/-! ## Every run -/

theorem exists_steady_tracedFill {d : Directive} {content : Option Text}
    (hf : store.Filled opts (baseFolder input) depth c path d content x)
    (ih : ∀ t, store.omission? c (opts.target (baseFolder input) d) = none →
      Walk.Steady c (store.expand opts (baseFolder input) depth
        (opts.target (baseFolder input) d)) (.ok t) x →
      ∃ ev, Walk.Steady c (store.traced opts (baseFolder input) depth
        (opts.target (baseFolder input) d)) (.ok t) ev ∧ store.Seen opts input (.ok t) x ev) :
    ∃ ev, Walk.Steady c (store.tracedFill opts (baseFolder input) depth path d) (.ok content) ev ∧
      store.Seen opts input (.ok content) x ev := by
  cases hf with
  | dropped ho => exact ⟨_, steady_fill_omitted ho (Walk.steady_record _), .omission _ _⟩
  | expanded ho he =>
      obtain ⟨ev, hev, hseen⟩ := ih _ ho he
      exact ⟨ev, steady_fill_kept ho hev, hseen.map some⟩

/-- A run that is traced comes out as the expansion does, the record begins with the call itself, and
there is to see of the run what there should be. -/
theorem exists_steady_traced (depth : Nat) {r : Except Stop Text}
    (hvisit : store.Visits opts input c path)
    (h : Walk.Steady c (store.expand opts (baseFolder input) depth path) r x) :
    ∃ ev, Walk.Steady c (store.traced opts (baseFolder input) depth path) r (.call path c :: ev) ∧
      store.Seen opts input r x (.call path c :: ev) := by
  induction depth generalizing c path r x with
  | zero =>
      obtain ⟨rfl, rfl⟩ := h.unique (Walk.steady_fail Stop.tooDeep)
      exact ⟨[], steady_traced_zero, .call hvisit .of_tooDeep⟩
  | succ depth ih =>
      -- the target of a directive that is not left out is visited as well
      have hnext {raw : Text} {d : Directive} (hr : store.read path = .ok raw)
          (hd : d ∈ directives (opts.prepare (!c.isEmpty) raw))
          (ho : store.omission? (c.opened path) (opts.target (baseFolder input) d) = none) :
          store.Visits opts input (c.opened path) (opts.target (baseFolder input) d) :=
        .nested hvisit hr hd (omission?_eq_none_iff.mp ho).1 (omission?_eq_none_iff.mp ho).2
      cases r with
      | ok t =>
          obtain ⟨raw, content, added, hr, hf, ht, hx⟩ := expand_eq_ok_iff.mp h
          have hone (d : Directive) (hd : d ∈ directives (opts.prepare (!c.isEmpty) raw)) :=
            exists_steady_tracedFill (hf d hd) fun t ho he => ⟨_, (ih (hnext hr hd ho) he).choose_spec⟩
          choose! seen hsteady hseen using hone
          have hrun := steady_traced_of_embed hr (steady_embed hsteady)
          have hall := (Seen.read hvisit hr).append (Seen.flatMap hseen t)
          rw [← ht] at hrun
          rw [List.nil_append, List.singleton_append, ← hx] at hall
          exact ⟨_, hrun, hall⟩
      | error e =>
          rcases expand_eq_error_iff.mp h with
            ⟨f, hr, rfl, rfl⟩ | ⟨raw, before, after, d, content, added, y, hr, hd, hf, ho, he, rfl⟩
          · exact ⟨[], steady_traced_of_fault hr, .call hvisit (.of_fault hr)⟩
          · have hone (b : Directive) (hb : b ∈ before) :=
              exists_steady_tracedFill (hf b hb) fun t ho he =>
                ⟨_, (ih (hnext hr (hd ▸ List.mem_append_left _ hb) ho) he).choose_spec⟩
            choose! seen hsteady hseen using hone
            obtain ⟨ev, hev, hlast⟩ :=
              ih (hnext hr (hd ▸ List.mem_append_right _ List.mem_cons_self) ho) he
            have hrun := steady_traced_of_embed hr
              (steady_embed_failed hd hsteady (steady_fill_kept ho hev))
            exact ⟨_, hrun, (Seen.read hvisit hr).append ((Seen.flatMap hseen ()).append hlast)⟩

end Store

/-! ## Faults

A run reads the documents that it visits, one after another.  One that fails does so with the fault
of its last read, and all reads before were good (`exists_last_call`); one that succeeds has
expanded all that there is to visit (`expanded_of_visits`).  So a target that is missing or open is
no reason to fail, whatever the store would do with such a path if it were asked.

In a library a document that is there can be read, so nothing but the root document can be at fault. -/

namespace Store

variable {store : Store} {opts : Options} {input path : Path} {c : Chain} {depth : Nat}
  {t : Text} {x : List Omission}

/-- A run that fails, other than for want of depth, fails as the last document that it calls for
cannot be read. -/
theorem exists_last_call {e : Stop}
    (h : Walk.Steady .empty (store.expand opts (baseFolder input) depth input.canonical)
      (.error e) x) (he : e ≠ .tooDeep) :
    ∃ (f : Fault) (front : List Event) (p : Path) (c : Chain),
      e = .fault f ∧ store.read p = .error f ∧ store.Visits opts input c p ∧
      store.traced opts (baseFolder input) depth input.canonical .empty [] =
        (.error e, .empty, front ++ [.call p c]) ∧
      ∀ p' c', .call p' c' ∈ front →
        store.Visits opts input c' p' ∧ ∃ raw, store.read p' = .ok raw := by
  obtain ⟨ev, hev, hseen⟩ := exists_steady_traced depth .root h
  generalize Event.call input.canonical .empty :: ev = record at hev hseen
  obtain ⟨-, hvisits, hends⟩ := hseen
  cases hends with
  | tooDeep => exact absurd rfl he
  | @fault front p c f hread hr =>
      refine ⟨f, front, p, c, rfl, hr, hvisits p c ?_, hev [], fun p' c' hm => ?_⟩
      · exact List.mem_append_right _ (List.mem_singleton_self _)
      · exact ⟨hvisits p' c' (List.mem_append_left _ hm), hread _ hm⟩

/-- Where the root document is expanded, every document that is visited is expanded. -/
theorem expanded_of_visits
    (h : Walk.Steady .empty (store.expand opts (baseFolder input) depth input.canonical) (.ok t) x)
    (hvisit : store.Visits opts input c path) :
    ∃ depth t x,
      Walk.Steady c (store.expand opts (baseFolder input) (depth + 1) path) (.ok t) x := by
  induction hvisit with
  | root =>
      cases depth with
      | zero => exact absurd h not_steady_expand_zero
      | succ depth => exact ⟨depth, t, x, h⟩
  | @nested c file raw d _ hr hd hnew hhas ih =>
      obtain ⟨depth, t, x, he⟩ := ih
      obtain ⟨raw', content, added, hr', hf, -, -⟩ := expand_eq_ok_iff.mp he
      obtain rfl := Except.ok.inj (hr.symm.trans hr')
      obtain ⟨u, -, hu⟩ := (hf d hd).of_kept (omission?_eq_none_iff.mpr ⟨hnew, hhas⟩)
      cases depth with
      | zero => exact absurd hu not_steady_expand_zero
      | succ depth => exact ⟨depth, u, _, hu⟩

theorem read_of_visits
    (h : Walk.Steady .empty (store.expand opts (baseFolder input) depth input.canonical) (.ok t) x)
    (hvisit : store.Visits opts input c path) : ∃ raw, store.read path = .ok raw := by
  obtain ⟨depth, t, x, he⟩ := expanded_of_visits h hvisit
  obtain ⟨raw, -, -, hr, -⟩ := expand_eq_ok_iff.mp he
  exact ⟨raw, hr⟩

end Store

namespace Library

theorem assemble_of_not_has (lib : Library) (opts : Options) {input : Path}
    (h : lib.store.has input = false) :
    lib.assemble opts input = .error (.missing input.canonical) := by
  have hread : lib.store.read input.canonical = .error (.missing input.canonical) := by
    rw [← has_canonical] at h
    simp only [store, Option.isSome_eq_false_iff, Option.isNone_iff_eq_none] at h ⊢
    rw [h]
  have hroot : lib.store.assemble opts (lib.size + 1) input =
      .error (.fault (.missing input.canonical)) :=
    Store.assemble_of_steady (Store.steady_expand_of_fault hread)
  rw [← mapError_assemble] at hroot
  exact Stop.mapError_fault_injective hroot

end Library

/-- An assembly that does not stop for want of depth fails only with the fault of the last document
that it reads, which like all those before it is the root document or a target that is there and
not open; and it succeeds exactly if all documents that it visits can be read.  In a library these
are the assemblies of documents that are there, and any other fails for the root document. -/
theorem faults_assemble (opts : Options) (input : Path) :
    (∀ (store : Store) (depth : Nat), store.assemble opts depth input ≠ .error .tooDeep →
      (∀ e, store.assemble opts depth input = .error e →
        ∃ (f : Fault) (front : List Event) (p : Path) (c : Chain),
          e = .fault f ∧ store.read p = .error f ∧ store.Visits opts input c p ∧
          store.traced opts (Store.baseFolder input) depth input.canonical .empty [] =
            (.error e, .empty, front ++ [.call p c]) ∧
          ∀ p' c', .call p' c' ∈ front →
            store.Visits opts input c' p' ∧ ∃ raw, store.read p' = .ok raw) ∧
      ((∃ a, store.assemble opts depth input = .ok a) ↔
        ∀ c p, store.Visits opts input c p → ∃ raw, store.read p = .ok raw)) ∧
    ∀ lib : Library,
      ((∃ a, lib.assemble opts input = .ok a) ↔ lib.store.has input.canonical = true) ∧
      (lib.store.has input.canonical = false →
        lib.assemble opts input = .error (.missing input.canonical)) := by
  constructor
  · intro store depth hdeep
    obtain ⟨r, x, hx⟩ := Store.exists_steady_expand store opts (Store.baseFolder input) depth
      input.canonical .empty
    have hassemble := Store.assemble_of_steady hx
    cases r with
    | ok t =>
        rw [hassemble]
        exact ⟨fun e he => absurd he nofun,
          iff_of_true ⟨_, rfl⟩ fun c p hvisit => Store.read_of_visits hx hvisit⟩
    | error e =>
        have he : e ≠ .tooDeep := fun he => hdeep (hassemble.trans (he ▸ rfl))
        have hlast := Store.exists_last_call hx he
        rw [hassemble]
        constructor
        · intro e' he'
          obtain rfl := Except.error.inj he'
          exact hlast
        · -- the last document is visited, and cannot be read
          obtain ⟨f, -, p, c, -, hr, hvisit, -⟩ := hlast
          refine iff_of_false (fun ⟨a, ha⟩ => absurd ha nofun) fun hall => ?_
          obtain ⟨raw, hraw⟩ := hall c p hvisit
          exact absurd (hr.symm.trans hraw) nofun
  · intro lib
    rw [Library.has_canonical]
    cases h : lib.store.has input with
    | true =>
        obtain ⟨t, x, -, ha⟩ := Library.assemble_of_has opts h
        exact ⟨iff_of_true ⟨_, ha⟩ rfl, fun hf => absurd hf nofun⟩
    | false =>
        have hmissing := Library.assemble_of_not_has lib opts h
        refine ⟨iff_of_false (fun ⟨a, ha⟩ => ?_) nofun, fun _ => hmissing⟩
        exact absurd (hmissing.symm.trans ha) nofun

/-- A document with directives that lead nowhere, back, and to a document that cannot be read. -/
def locked : Store where
  has p := p.canonical = ⟨"a.md".toList⟩ ∨ p.canonical = ⟨"b.md".toList⟩
  read p :=
    if p.canonical = ⟨"a.md".toList⟩ then
      .ok ":[gone](gone.md)\n:[a](./a.md)\n:[b](x/../b.md)".toList
    else .error (.unreadable p)

theorem faults_assemble_locked :
    let opts : Options := ⟨true, true, .empty⟩
    let input : Path := ⟨"./a.md".toList⟩
    let fault : Fault := .unreadable ⟨"b.md".toList⟩
    locked.assemble opts 2 input = .error (.fault fault) ∧
    (∃ front p c, locked.read p = .error fault ∧ locked.Visits opts input c p ∧
      locked.traced opts (Store.baseFolder input) 2 input.canonical .empty [] =
        (.error (.fault fault), .empty, front ++ [.call p c])) ∧
    ¬ ∀ c p, locked.Visits opts input c p → ∃ raw, locked.read p = .ok raw := by
  intro opts input fault
  have h : locked.assemble opts 2 input = .error (.fault fault) := by decide +kernel
  have hdeep : locked.assemble opts 2 input ≠ .error .tooDeep := by
    rw [h]
    nofun
  obtain ⟨herror, hok⟩ := (faults_assemble opts input).1 locked 2 hdeep
  obtain ⟨f, front, p, c, hf, hr, hvisit, hrun, -⟩ := herror _ h
  obtain rfl := Stop.fault.inj hf
  refine ⟨h, ⟨front, p, c, hr, hvisit, hrun⟩, fun hall => ?_⟩
  obtain ⟨a, ha⟩ := hok.mpr hall
  exact absurd (h.symm.trans ha) nofun

end Compendium
