/-
# `Compendium.Proofs.Walk.Handling` — how the directives of a document are handled, one by one

`embed` is given work to do for a directive, and nothing is known of this work but that it leaves
the chain as it was (`Walk.Restores`).  What is said here is what becomes of it: it is done once for
each directive, in the order of the text, with the document open; the first one that fails is the
last one that is done, and the document fails with it; and the chain is as it was in the end, also
where something failed.

`noted` puts every piece of work on record as it is done, and `InTurn` says what the record of a
document looks like.  To keep the record changes nothing else, so what it shows is what happens in
every run (`embed_inTurn`).

A document is expanded with the expansion of the documents it includes as the work, so the chain is
left as it was there too, whatever cannot be read and however deep (`restores_expand`).
-/
import Compendium.Proofs.Assembly.Expansion

namespace Compendium

/-- Work that was done for a directive: with which documents open, and how it came out. -/
structure Handling (ε : Type) where
  directive : Directive
  chain : Chain
  result : Except ε (Option Text)

/-- The record of directives that are handled one after the other on the chain `c`, up to the first
one that fails, where the whole comes out as the result says. -/
inductive InTurn {ε α : Type} (c : Chain) :
    List Directive → Except ε α → List (Handling ε) → Prop
  | done (a : α) : InTurn c [] (.ok a) []
  | next {d : Directive} {ds : List Directive} {content : Option Text} {r : Except ε α}
      {record : List (Handling ε)} :
      InTurn c ds r record → InTurn c (d :: ds) r (⟨d, c, .ok content⟩ :: record)
  | failed (d : Directive) (ds : List Directive) (e : ε) :
      InTurn c (d :: ds) (.error e) [⟨d, c, .error e⟩]

section Record

variable {ε σ α β : Type}

/-- The work leaves the chain as it was, whether it fails or not. -/
def Walk.Restores (w : Walk ε σ α) : Prop := ∀ c s, (w c s).2.1 = c

/-- The work for each directive, put on record as it is done. -/
def noted (expand : Directive → Walk ε σ (Option Text)) (d : Directive) :
    Walk ε (σ × List (Handling ε)) (Option Text) := fun c s =>
  let (r, c', s') := expand d c s.1
  (r, c', s', s.2 ++ [⟨d, c, r⟩])

variable {expand : Directive → Walk ε σ (Option Text)} {c : Chain}

theorem InTurn.map {ds : List Directive} {r : Except ε α} {record : List (Handling ε)}
    (h : InTurn c ds r record) (f : α → β) : InTurn c ds (r.map f) record := by
  induction h with
  | done a => exact .done (f a)
  | next _ ih => exact .next ih
  | failed d ds e => exact .failed d ds e

theorem noted_follows (expand : Directive → Walk ε σ (Option Text)) (d : Directive) :
    Walk.Follows (fun _ => False) (fun s s' => s'.1 = s) (expand d) (noted expand d) := by
  intro c s s' hs
  subst hs
  exact .inr ⟨rfl, rfl, rfl⟩

theorem inTurn_extend (h : ∀ d, (expand d).Restores) (rest : List (Directive × Text))
    (draft : Draft) (s : σ) (before : List (Handling ε)) :
    ∃ r s' record, Draft.extend (noted expand) draft rest c (s, before) =
        (r, c, s', before ++ record) ∧
      InTurn c (rest.map Prod.fst) r record := by
  induction rest generalizing draft s before with
  | nil =>
      refine ⟨.ok draft, s, [], ?_, .done draft⟩
      rw [List.append_nil]
      rfl
  | cons x rest ih =>
      have hchain : (expand x.1 c s).2.1 = c := h x.1 c s
      simp only [Draft.extend]
      show ∃ r s' record, Walk.bind (noted expand x.1) _ c (s, before) = _ ∧ _
      simp only [Walk.bind, noted]
      rcases hx : expand x.1 c s with ⟨result, c', s₁⟩
      rw [hx] at hchain
      obtain rfl : c' = c := hchain
      cases result with
      | error e =>
          -- nothing is done for the directives behind it
          exact ⟨.error e, s₁, _, rfl, .failed x.1 (rest.map Prod.fst) e⟩
      | ok content =>
          obtain ⟨r, s', record, hrun, hturn⟩ :=
            ih ((draft.cut.place content).add x.2) s₁ (before ++ [⟨x.1, c', .ok content⟩])
          refine ⟨r, s', ⟨x.1, c', .ok content⟩ :: record, ?_, .next hturn⟩
          rw [List.append_assoc] at hrun
          exact hrun

theorem sections_of_directives_eq_nil {t : Text} (h : directives t = []) : sections t = ⟨t, []⟩ := by
  have hlines (ls : List Line) (hls : ls.filterMap (fun l => Directive.ofLine? l.body) = []) :
      ls.foldr Sections.push ⟨[], []⟩ = ⟨ls.flatMap Line.text, []⟩ := by
    induction ls with
    | nil => rfl
    | cons l ls ih =>
        rw [List.filterMap_eq_nil_iff] at hls ih
        obtain ⟨hl, hls⟩ := List.forall_mem_cons.mp hls
        rw [List.foldr_cons, ih hls, Sections.push, hl]
        rfl
  rw [sections, hlines (lines t) h, flatMap_text_lines]

theorem embed_of_directives_eq_nil (expand : Directive → Walk ε σ (Option Text)) (current : Path)
    {t : Text} (h : directives t = []) : embed expand current t = pure (Text.trim t) := by
  simp only [embed, sections_of_directives_eq_nil h]

/-- A document is embedded by handling its directives in turn, with the document open. -/
theorem inTurn_embed (h : ∀ d, (expand d).Restores) (current : Path) (t : Text) (s : σ) :
    ∃ r s' record, embed (noted expand) current t c (s, []) = (r, c, s', record) ∧
      InTurn (c.opened current) (directives t) r record := by
  by_cases hd : directives t = []
  · rw [embed_of_directives_eq_nil _ current hd, hd]
    exact ⟨_, s, [], rfl, .done _⟩
  · rw [← sections_rest_map] at hd ⊢
    rcases hs : sections t with ⟨lead, _ | ⟨x, rest⟩⟩
    · rw [hs] at hd
      exact absurd rfl hd
    · obtain ⟨r, s', record, hrun, hturn⟩ :=
        inTurn_extend (c := c.opened current) h (x :: rest) (Draft.empty.add lead) s []
      refine ⟨r.map fun draft => Text.trim draft.text, s', record, ?_, hturn.map _⟩
      have hopen : (Draft.extend (noted expand) (Draft.empty.add lead) (x :: rest) >>=
          fun draft => pure (Text.trim draft.text) : Walk ε _ Text) (c.opened current) (s, []) =
            (r.map fun draft => Text.trim draft.text, c.opened current, s', record) := by
        show Walk.bind _ _ (c.opened current) (s, []) = _
        simp only [Walk.bind, hrun]
        cases r with
        | ok draft => rfl
        | error e => rfl
      simp only [embed, hs]
      exact Walk.within_eq hopen

end Record

/-! ## Every run -/

theorem Store.restores_expand (store : Store) (opts : Options) (base : Path) (depth : Nat)
    (path : Path) : (store.expand opts base depth path).Restores := by
  intro c s
  obtain ⟨r, x, hx⟩ := exists_steady_expand store opts base depth path c
  rw [hx s]

/-- Where the work for each directive leaves the chain as it was, it is done once for each directive
of the text, in order, up to the first one that fails, on the chain with the document open, and the
chain is as it was in the end.  For a text without directives nothing is done and nothing is
opened.  So the expansion of a document leaves the chain as it was, whatever fails. -/
theorem embed_inTurn {ε σ : Type} :
    (∀ expand : Directive → Walk ε σ (Option Text), (∀ d, (expand d).Restores) →
      ∀ (current : Path) (t : Text) (c : Chain) (s : σ),
        let run := embed expand current t c s
        let seen := embed (noted expand) current t c (s, [])
        run.2.1 = c ∧ seen.1 = run.1 ∧ seen.2.1 = run.2.1 ∧ seen.2.2.1 = run.2.2 ∧
          InTurn (if c.contains current then c else ⟨current :: c.links⟩) (directives t) run.1
            seen.2.2.2) ∧
    (∀ (expand : Directive → Walk ε σ (Option Text)) (current : Path) (t : Text),
      directives t = [] → embed expand current t = pure (Text.trim t)) ∧
    ∀ (store : Store) (opts : Options) (base : Path) (depth : Nat) (path : Path),
      (store.expand opts base depth path).Restores := by
  refine ⟨fun expand h current t c s => ?_,
    fun expand current t => embed_of_directives_eq_nil expand current, Store.restores_expand⟩
  intro run seen
  obtain ⟨r, s', record, hseen, hturn⟩ := inTurn_embed (c := c) h current t s
  have hsame := (Walk.follows_embed (noted_follows expand) current t c s (s, []) rfl).resolve_left
    fun ⟨_, _, hfalse⟩ => hfalse
  obtain ⟨hresult, hchain, hstate⟩ := hsame
  have hrun : r = run.1 := (congrArg Prod.fst hseen).symm.trans hresult
  have hopened : c.opened current = if c.contains current then c else ⟨current :: c.links⟩ := by
    simp only [Chain.opened, Chain.push?]
    split <;> rfl
  refine ⟨?_, hresult, hchain, hstate, ?_⟩
  · exact hchain.symm.trans (congrArg (·.2.1) hseen)
  · rw [← hopened, ← hrun, show seen.2.2.2 = record from congrArg (·.2.2.2) hseen]
    exact hturn

def threefold : Text := ":[a](a.md)\n:[b](b.md)\n:[c](c.md)".toList

/-- Work that counts the directives, drops the first and fails at the second. -/
def failAtSecond (_ : Directive) : Walk Text Nat (Option Text) := fun c n =>
  (if n = 0 then .ok none else .error "second".toList, c, n + 1)

theorem embed_inTurn_failed :
    (∀ d, (failAtSecond d).Restores) ∧
      (embed failAtSecond ⟨['r']⟩ threefold .empty 0).2.1 = .empty ∧
      (embed (noted failAtSecond) ⟨['r']⟩ threefold .empty (0, [])).1 = .error "second".toList ∧
      InTurn ⟨[⟨['r']⟩]⟩ (directives threefold)
        (embed (noted failAtSecond) ⟨['r']⟩ threefold .empty (0, [])).1
        (embed (noted failAtSecond) ⟨['r']⟩ threefold .empty (0, [])).2.2.2 ∧
      (embed (noted failAtSecond) ⟨['r']⟩ threefold .empty (0, [])).2.2.2.length = 2 := by
  have h : ∀ d, (failAtSecond d).Restores := fun _ _ _ => rfl
  obtain ⟨hchain, hresult, -, -, hturn⟩ := embed_inTurn.1 failAtSecond h ⟨['r']⟩ threefold .empty 0
  rw [← hresult] at hturn
  exact ⟨h, hchain, by decide +kernel, hturn, by decide +kernel⟩

end Compendium
