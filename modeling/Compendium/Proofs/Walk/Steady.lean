/-
# `Compendium.Proofs.Walk.Steady` — how pieces of work come out

`Walk.Follows Q S w w'` says that `w'` comes out like `w` wherever both start on the same chain,
from states that `S` relates: with the same value or the same error, the same chain, and states
that `S` relates again.  Where `w` fails with an error that `Q` allows, `w'` is free.  With `S`
equality and `Q` the want of depth, it says that a larger bound on the nesting changes nothing that
a smaller one got done (`expand_deeper`).  The shape of the work is all that matters, so each rule
is one equation of `Walk`, and the rules for drafts and documents follow by going through them.

A walk that only adds to its record can be described without it: `Walk.Steady c w r x` says that on
the chain `c` the work `w` comes out as `r`, leaves the chain as it was, and adds `x` behind
whatever is on record.  Such an outcome is unique (`Steady.unique`).

Embedding a document is steady where the work for each of its directives is.  Where all of these
succeed, the text is `Text.splice`, which knows nothing of chains and records
(`steady_embed`); where one fails, the embedding fails with the first that does
(`steady_embed_failed`), and there is no third case (`steady_all_or_first`).
-/
import Compendium.Assembly.Library
import Mathlib.Data.List.Basic
import Mathlib.Tactic.Choose

namespace Compendium

/-! ## Work that comes out like other work -/

namespace Walk

variable {ε σ τ α β : Type}

/-- `w'` comes out like `w` from related states, unless `w` fails as `Q` allows. -/
def Follows (Q : ε → Prop) (S : σ → τ → Prop) (w : Walk ε σ α) (w' : Walk ε τ α) : Prop :=
  ∀ c s s', S s s' →
    (∃ e, (w c s).1 = .error e ∧ Q e) ∨
      ((w' c s').1 = (w c s).1 ∧ (w' c s').2.1 = (w c s).2.1 ∧ S (w c s).2.2 (w' c s').2.2)

section Rules

variable {Q : ε → Prop} {S : σ → τ → Prop}

theorem follows_pure (a : α) : Follows Q S (pure a) (pure a) :=
  fun _ _ _ hs => .inr ⟨rfl, rfl, hs⟩

theorem follows_fail (e : ε) : Follows Q S (fail e : Walk ε σ α) (fail e) :=
  fun _ _ _ hs => .inr ⟨rfl, rfl, hs⟩

theorem follows_of_fail {e : ε} (h : Q e) (w' : Walk ε τ α) : Follows Q S (fail e) w' :=
  fun _ _ _ _ => .inl ⟨e, rfl, h⟩

theorem follows_update {f : σ → σ} {g : τ → τ} (h : ∀ s s', S s s' → S (f s) (g s')) :
    Follows Q S (update f) (update g) :=
  fun _ s s' hs => .inr ⟨rfl, rfl, h s s' hs⟩

theorem follows_bind {w : Walk ε σ α} {w' : Walk ε τ α} {f : α → Walk ε σ β}
    {f' : α → Walk ε τ β} (hw : Follows Q S w w') (hf : ∀ a, Follows Q S (f a) (f' a)) :
    Follows Q S (w >>= f) (w' >>= f') := by
  intro c s s' hs
  show (∃ e, (bind w f c s).1 = .error e ∧ Q e) ∨
    ((bind w' f' c s').1 = (bind w f c s).1 ∧ (bind w' f' c s').2.1 = (bind w f c s).2.1 ∧
      S (bind w f c s).2.2 (bind w' f' c s').2.2)
  have h := hw c s s' hs
  simp only [bind]
  -- both runs are taken apart at once: where `w` is done, `w'` is done with the same value
  rcases hr : w c s with ⟨r, c₁, s₁⟩
  rcases hr' : w' c s' with ⟨r', c₁', s₁'⟩
  rw [hr, hr'] at h
  obtain ⟨e, he, hq⟩ | ⟨he, hc, hs₁⟩ := h
  · obtain rfl : r = .error e := he
    exact .inl ⟨e, rfl, hq⟩
  · obtain rfl : r' = r := he
    obtain rfl : c₁' = c₁ := hc
    cases r' with
    | ok a => exact hf a c₁' s₁ s₁' hs₁
    | error e => exact .inr ⟨rfl, rfl, hs₁⟩

theorem follows_chain_bind {f : Chain → Walk ε σ α} {f' : Chain → Walk ε τ α}
    (hf : ∀ c, Follows Q S (f c) (f' c)) : Follows Q S (chain >>= f) (chain >>= f') :=
  fun c s s' hs => hf c c s s' hs

theorem follows_within {p : Path} {w : Walk ε σ α} {w' : Walk ε τ α} (h : Follows Q S w w') :
    Follows Q S (within p w) (within p w') := by
  intro c s s' hs
  simp only [within]
  cases c.push? p with
  | none => exact h c s s' hs
  | some c₁ =>
      obtain ⟨e, he, hq⟩ | ⟨he, hc, hs₁⟩ := h c₁ s s' hs
      · exact .inl ⟨e, he, hq⟩
      · exact .inr ⟨he, congrArg Chain.pop hc, hs₁⟩

theorem follows_extend {f : Directive → Walk ε σ (Option Text)}
    {f' : Directive → Walk ε τ (Option Text)} (h : ∀ d, Follows Q S (f d) (f' d))
    (draft : Draft) (rest : List (Directive × Text)) :
    Follows Q S (Draft.extend f draft rest) (Draft.extend f' draft rest) := by
  induction rest generalizing draft with
  | nil => exact follows_pure draft
  | cons x rest ih =>
      simp only [Draft.extend]
      exact follows_bind (h x.1) fun content => ih _

theorem follows_embed {f : Directive → Walk ε σ (Option Text)}
    {f' : Directive → Walk ε τ (Option Text)} (h : ∀ d, Follows Q S (f d) (f' d))
    (current : Path) (t : Text) : Follows Q S (embed f current t) (embed f' current t) := by
  rcases hs : sections t with ⟨lead, _ | ⟨x, rest⟩⟩
  · simp only [embed, hs]
    exact follows_pure _
  · simp only [embed, hs]
    exact follows_within (follows_bind (follows_extend h _ _) fun _ => follows_pure _)

end Rules

end Walk

/-! ## Filling and expanding -/

namespace Store

variable {store : Store} {opts : Options} {base : Path} {σ τ : Type} {Q : Stop → Prop}
  {S : σ → τ → Prop}

theorem follows_fill {report : Omission → Walk Stop σ Unit} {report' : Omission → Walk Stop τ Unit}
    {expand : Path → Walk Stop σ Text} {expand' : Path → Walk Stop τ Text}
    (hr : ∀ o, Walk.Follows Q S (report o) (report' o))
    (he : ∀ p, Walk.Follows Q S (expand p) (expand' p)) (file : Path) (d : Directive) :
    Walk.Follows Q S (store.fill opts base report expand file d)
      (store.fill opts base report' expand' file d) := by
  refine Walk.follows_chain_bind fun c => ?_
  cases store.omission? c (opts.target base d) with
  | none => exact Walk.follows_bind (he _) fun _ => Walk.follows_pure _
  | some kind => exact Walk.follows_bind (hr _) fun _ => Walk.follows_pure _

/-- A larger bound on the nesting changes nothing that a smaller one got done. -/
theorem expand_deeper (store : Store) (opts : Options) (base : Path) (depth more : Nat)
    (path : Path) :
    Walk.Follows (· = .tooDeep) Eq (store.expand opts base depth path)
      (store.expand opts base (depth + more) path) := by
  induction depth generalizing path with
  | zero => exact Walk.follows_of_fail (Q := (· = Stop.tooDeep)) rfl _
  | succ depth ih =>
      rw [Nat.add_right_comm]
      refine Walk.follows_chain_bind fun c => ?_
      cases store.read path with
      | error f => exact Walk.follows_fail _
      | ok raw =>
          refine Walk.follows_embed (fun d => follows_fill (fun o => ?_) ih path d) path _
          exact Walk.follows_update fun s s' h => congrArg (· ++ [o]) h

/-- What an assembly comes to does not depend on the bound on the nesting, where that suffices. -/
theorem assemble_deeper {depth : Nat} {input : Path}
    (h : store.assemble opts depth input ≠ .error .tooDeep) (more : Nat) :
    store.assemble opts (depth + more) input = store.assemble opts depth input := by
  have hf := expand_deeper store opts (baseFolder input) depth more input.canonical .empty [] [] rfl
  simp only [assemble] at h ⊢
  rcases hr : store.expand opts (baseFolder input) depth input.canonical .empty [] with ⟨r, c, s⟩
  rcases hr' : store.expand opts (baseFolder input) (depth + more) input.canonical .empty []
    with ⟨r', c', s'⟩
  rw [hr, hr'] at hf
  rw [hr] at h
  obtain ⟨e, he, rfl⟩ | ⟨he, -, hs⟩ := hf
  · obtain rfl : r = .error .tooDeep := he
    exact absurd rfl h
  · obtain rfl : r' = r := he
    obtain rfl : s = s' := hs
    cases r' with
    | ok t => rfl
    | error e => rfl

end Store

/-! ## The chain while a document is open -/

namespace Chain

/-- The chain on which the directives of the document at `p` are worked off. -/
def opened (c : Chain) (p : Path) : Chain := (c.push? p).getD c

theorem opened_of_mem {c : Chain} {p : Path} (h : p.steps ∈ c.steps) : c.opened p = c := by
  simp only [opened, push?_eq_none_iff.mpr h, Option.getD_none]

theorem opened_of_not_mem {c : Chain} {p : Path} (h : p.steps ∉ c.steps) :
    c.opened p = ⟨p :: c.links⟩ := by
  simp only [opened, push?_eq_some_iff.mpr ⟨h, rfl⟩, Option.getD_some]

theorem mem_steps_opened {c : Chain} {p : Path} {s : List Step} :
    s ∈ (c.opened p).steps ↔ s = p.steps ∨ s ∈ c.steps := by
  by_cases h : p.steps ∈ c.steps
  · rw [opened_of_mem h]
    exact ⟨.inr, fun hs => hs.elim (fun e => e ▸ h) id⟩
  · rw [opened_of_not_mem h]
    exact List.mem_cons

theorem isEmpty_opened (c : Chain) (p : Path) : (c.opened p).isEmpty = false := by
  have h : p.steps ∈ (c.opened p).steps := mem_steps_opened.mpr (.inl rfl)
  obtain ⟨q, hq, -⟩ := List.mem_map.mp h
  simp only [isEmpty, List.isEmpty_eq_false_iff]
  exact List.ne_nil_of_mem hq

end Chain

/-! ## Splicing -/

/-- A draft carried through directives and the sections behind them, where `content` says what
stands in the place of each. -/
def Draft.splice (content : Directive → Option Text) (draft : Draft)
    (rest : List (Directive × Text)) : Draft :=
  rest.foldl (fun draft x => (draft.cut.place (content x.1)).add x.2) draft

/-- The text with each directive replaced by its content, or dropped where it has none. -/
def Text.splice (content : Directive → Option Text) (t : Text) : Text :=
  Text.trim (Draft.splice content (Draft.empty.add (sections t).lead) (sections t).rest).text

theorem Text.splice_congr {t : Text} {content content' : Directive → Option Text}
    (h : ∀ d ∈ directives t, content d = content' d) : t.splice content = t.splice content' := by
  simp only [splice, Draft.splice]
  rw [List.foldl_ext _ _ _ fun draft x hx => by rw [h x.1 (mem_directives_of_mem_rest hx)]]

namespace Walk

variable {ε σ ω α β : Type} {c : Chain}

theorem within_eq {p : Path} {w : Walk ε σ α} {r : Except ε α} {s s' : σ}
    (h : w (c.opened p) s = (r, c.opened p, s')) : within p w c s = (r, c, s') := by
  by_cases hp : p.steps ∈ c.steps
  · rw [Chain.opened_of_mem hp] at h
    simp only [within, Chain.push?_eq_none_iff.mpr hp, h]
  · rw [Chain.opened_of_not_mem hp] at h
    simp only [within, Chain.push?_eq_some_iff.mpr ⟨hp, rfl⟩, h, Chain.pop, List.tail_cons]

/-- On the chain `c` the work comes out as `r` and adds `x` to the record, whatever is on record
before; the chain is left as it was. -/
def Steady (c : Chain) (w : Walk ε (List ω) α) (r : Except ε α) (x : List ω) : Prop :=
  ∀ s, w c s = (r, c, s ++ x)

theorem Steady.unique {w : Walk ε (List ω) α} {r r' : Except ε α} {x x' : List ω}
    (h : Steady c w r x) (h' : Steady c w r' x') : r = r' ∧ x = x' := by
  have e := (h []).symm.trans (h' [])
  simp only [List.nil_append, Prod.mk.injEq, true_and] at e
  exact e

theorem steady_pure (a : α) : Steady c (pure a : Walk ε (List ω) α) (.ok a) [] :=
  fun s => congrArg (Except.ok a, c, ·) (List.append_nil s).symm

theorem steady_fail (e : ε) : Steady c (fail e : Walk ε (List ω) α) (.error e) [] :=
  fun s => congrArg (Except.error e, c, ·) (List.append_nil s).symm

theorem steady_record (a : ω) : Steady c (record a : Walk ε (List ω) Unit) (.ok ()) [a] :=
  fun _ => rfl

theorem steady_bind {w : Walk ε (List ω) α} {f : α → Walk ε (List ω) β} {a : α}
    {r : Except ε β} {x y : List ω} (hw : Steady c w (.ok a) x) (hf : Steady c (f a) r y) :
    Steady c (w >>= f) r (x ++ y) := by
  intro s
  show bind w f c s = (r, c, s ++ (x ++ y))
  simp only [bind, hw s, hf (s ++ x), List.append_assoc]

theorem steady_bind_error {w : Walk ε (List ω) α} {f : α → Walk ε (List ω) β} {e : ε}
    {x : List ω} (hw : Steady c w (.error e) x) : Steady c (w >>= f) (.error e) x := by
  intro s
  show bind w f c s = (.error e, c, s ++ x)
  simp only [bind, hw s]

theorem steady_chain_bind {f : Chain → Walk ε (List ω) α} {r : Except ε α} {x : List ω}
    (hf : Steady c (f c) r x) : Steady c (chain >>= f) r x :=
  fun s => hf s

theorem steady_within {p : Path} {w : Walk ε (List ω) α} {r : Except ε α} {x : List ω}
    (h : Steady (c.opened p) w r x) : Steady c (within p w) r x :=
  fun s => within_eq (h s)

end Walk

/-! ## Embedding -/

section Embed

variable {ε ω : Type} {c : Chain} {expand : Directive → Walk ε (List ω) (Option Text)}
  {content : Directive → Option Text} {added : Directive → List ω}

theorem steady_extend {rest : List (Directive × Text)} (draft : Draft)
    (h : ∀ x ∈ rest, Walk.Steady c (expand x.1) (.ok (content x.1)) (added x.1)) :
    Walk.Steady c (Draft.extend expand draft rest) (.ok (draft.splice content rest))
      (rest.flatMap fun x => added x.1) := by
  induction rest generalizing draft with
  | nil => exact Walk.steady_pure draft
  | cons x rest ih =>
      simp only [Draft.extend, List.flatMap_cons]
      exact Walk.steady_bind (h x List.mem_cons_self)
        (ih _ fun y hy => h y (List.mem_cons_of_mem _ hy))

theorem steady_extend_failed {before after : List (Directive × Text)} {x : Directive × Text} {e : ε}
    {y : List ω} (draft : Draft)
    (hok : ∀ z ∈ before, Walk.Steady c (expand z.1) (.ok (content z.1)) (added z.1))
    (he : Walk.Steady c (expand x.1) (.error e) y) :
    Walk.Steady c (Draft.extend expand draft (before ++ x :: after)) (.error e)
      ((before.flatMap fun z => added z.1) ++ y) := by
  induction before generalizing draft with
  | nil =>
      simp only [List.nil_append, List.flatMap_nil, Draft.extend]
      exact Walk.steady_bind_error he
  | cons z before ih =>
      simp only [List.cons_append, List.flatMap_cons, List.append_assoc, Draft.extend]
      exact Walk.steady_bind (hok z List.mem_cons_self)
        (ih _ fun w hw => hok w (List.mem_cons_of_mem _ hw))

/-- Work that is steady for each directive succeeds for all of them, or there is a first one for
which it fails. -/
theorem steady_all_or_first {ds : List Directive}
    (h : ∀ d ∈ ds, ∃ r y, Walk.Steady c (expand d) r y) :
    (∀ d ∈ ds, ∃ a y, Walk.Steady c (expand d) (.ok a) y) ∨
      ∃ before d after e y, ds = before ++ d :: after ∧
        (∀ b ∈ before, ∃ a y, Walk.Steady c (expand b) (.ok a) y) ∧
        Walk.Steady c (expand d) (.error e) y := by
  induction ds with
  | nil => exact .inl fun d hd => absurd hd List.not_mem_nil
  | cons d ds ih =>
      obtain ⟨hd, hds⟩ := List.forall_mem_cons.mp h
      obtain ⟨r, y, hr⟩ := hd
      cases r with
      | error e => exact .inr ⟨[], d, ds, e, y, rfl, fun b hb => absurd hb List.not_mem_nil, hr⟩
      | ok a =>
          rcases ih hds with hok | ⟨before, d', after, e, z, rfl, hok, he⟩
          · exact .inl (List.forall_mem_cons.mpr ⟨⟨a, y, hr⟩, hok⟩)
          · exact .inr ⟨d :: before, d', after, e, z, rfl,
              List.forall_mem_cons.mpr ⟨⟨a, y, hr⟩, hok⟩, he⟩

theorem flatMap_rest (t : Text) (f : Directive → List ω) :
    ((sections t).rest.flatMap fun x => f x.1) = (directives t).flatMap f := by
  rw [← sections_rest_map, List.flatMap_map]

theorem steady_embed {current : Path} {t : Text}
    (h : ∀ d ∈ directives t,
      Walk.Steady (c.opened current) (expand d) (.ok (content d)) (added d)) :
    Walk.Steady c (embed expand current t) (.ok (t.splice content))
      ((directives t).flatMap added) := by
  have hrest : ∀ x ∈ (sections t).rest,
      Walk.Steady (c.opened current) (expand x.1) (.ok (content x.1)) (added x.1) :=
    fun x hx => h x.1 (mem_directives_of_mem_rest hx)
  rw [← flatMap_rest]
  rcases hs : sections t with ⟨lead, _ | ⟨x, rest⟩⟩
  · simp only [embed, hs, Text.splice]
    exact Walk.steady_pure _
  · simp only [embed, hs, Text.splice] at hrest ⊢
    refine Walk.steady_within ?_
    rw [← List.append_nil (List.flatMap _ _)]
    exact Walk.steady_bind (steady_extend _ hrest) (Walk.steady_pure _)

/-- The document fails with the first directive for which the work fails, and the work for those
before it stays on record. -/
theorem steady_embed_failed {current : Path} {t : Text} {before after : List Directive}
    {d : Directive} {e : ε} {y : List ω} (hd : directives t = before ++ d :: after)
    (hok : ∀ b ∈ before,
      Walk.Steady (c.opened current) (expand b) (.ok (content b)) (added b))
    (he : Walk.Steady (c.opened current) (expand d) (.error e) y) :
    Walk.Steady c (embed expand current t) (.error e) (before.flatMap added ++ y) := by
  rw [← sections_rest_map] at hd
  obtain ⟨front, back, hrest, rfl, hback⟩ := List.map_eq_append_iff.mp hd
  obtain ⟨x, back, rfl, rfl, -⟩ := List.map_eq_cons_iff.mp hback
  have hfront : ∀ z ∈ front,
      Walk.Steady (c.opened current) (expand z.1) (.ok (content z.1)) (added z.1) :=
    fun z hz => hok z.1 (List.mem_map_of_mem hz)
  rcases hs : sections t with ⟨lead, _ | ⟨z, rest⟩⟩
  · rw [hs] at hrest
    exact absurd hrest.symm (List.append_ne_nil_of_right_ne_nil _ (List.cons_ne_nil _ _))
  · have hsplit : z :: rest = front ++ x :: back := by rwa [hs] at hrest
    simp only [embed, hs, List.flatMap_map]
    refine Walk.steady_within (Walk.steady_bind_error ?_)
    rw [hsplit]
    exact steady_extend_failed _ hfront he

theorem steady_embed_cases {current : Path} {t : Text}
    (h : ∀ d ∈ directives t, ∃ r y, Walk.Steady (c.opened current) (expand d) r y) :
    (∀ d ∈ directives t, ∃ a y, Walk.Steady (c.opened current) (expand d) (.ok a) y) ∨
      ∃ e y, Walk.Steady c (embed expand current t) (.error e) y := by
  rcases steady_all_or_first h with hok | ⟨before, d, after, e, y, hd, hok, he⟩
  · exact .inl hok
  · choose! content added hsteady using hok
    exact .inr ⟨e, _, steady_embed_failed hd hsteady he⟩

theorem exists_steady_embed {current : Path} {t : Text}
    (h : ∀ d ∈ directives t, ∃ r y, Walk.Steady (c.opened current) (expand d) r y) :
    ∃ r y, Walk.Steady c (embed expand current t) r y := by
  rcases steady_embed_cases h with hok | ⟨e, y, he⟩
  · choose! content added hsteady using hok
    exact ⟨_, _, steady_embed hsteady⟩
  · exact ⟨_, _, he⟩

end Embed

end Compendium
