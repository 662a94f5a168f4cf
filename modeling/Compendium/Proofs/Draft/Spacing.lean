/-
# `Compendium.Proofs.Draft.Spacing` — the blank lines around what is put into a text

A document is embedded by filling the contents of its directives into a draft, one after the other
(`extend_eq_ok`).  What is filled in is the *body* of a content, the content trimmed, unless that is
empty.  Two things are said of the result, whatever the directives stand between.

Each body stands at the start of the result or behind one blank line, and at its end or before one
blank line.  `Stood` keeps this up for a draft: behind a body the draft ends, or a blank line and
something else follow, and the joint `apart` is what tells that it ends there.

Blank lines pile up nowhere if they pile up neither in a body nor within what stands between two
directives.  For whenever something is added, the draft ends with no break, and one blank line or
less is put in between (`piled_core_append`).
-/
import Compendium.Proofs.Draft.Reading
import Compendium.Proofs.Text.Piled

namespace Compendium

open Text (Piled core)

/-! ## The contents of the directives -/

/-- What the work gives for each of the directives in turn, where it fails for none. -/
inductive Gives {ε σ : Type} (expand : Directive → Walk ε σ (Option Text)) :
    Chain → σ → List Directive → List (Option Text) → Prop
  | done (c : Chain) (s : σ) : Gives expand c s [] []
  | next {c c' : Chain} {s s' : σ} {d : Directive} {ds : List Directive} {content : Option Text}
      {contents : List (Option Text)} : expand d c s = (.ok content, c', s') →
      Gives expand c' s' ds contents → Gives expand c s (d :: ds) (content :: contents)

/-- What is put into the text: the contents, trimmed, as far as they are not blank. -/
def bodies (contents : List (Option Text)) : List Text :=
  (contents.filterMap (·.map Text.trim)).filter (· ≠ [])

theorem bodies_cons (content : Option Text) (contents : List (Option Text)) :
    bodies (content :: contents) = bodies [content] ++ bodies contents := by
  rw [← List.singleton_append, bodies, List.filterMap_append, List.filter_append, bodies, bodies]

namespace Draft

/-- A draft carried on through contents and the sections behind them. -/
def fill (d : Draft) (xs : List (Option Text × Text)) : Draft :=
  xs.foldl (fun d x => (d.cut.place x.1).add x.2) d

variable {ε σ : Type} {expand : Directive → Walk ε σ (Option Text)} {c c' : Chain} {s s' : σ}

theorem extend_eq_ok {rest : List (Directive × Text)} {d d' : Draft}
    (h : extend expand d rest c s = (.ok d', c', s')) :
    ∃ contents, Gives expand c s (rest.map Prod.fst) contents ∧
      d' = d.fill (contents.zip (rest.map Prod.snd)) := by
  induction rest generalizing d c s with
  | nil =>
      obtain rfl : d = d' := Except.ok.inj (congrArg Prod.fst h)
      exact ⟨[], .done c s, rfl⟩
  | cons x rest ih =>
      replace h : Walk.bind (expand x.1) (fun content =>
        extend expand ((d.cut.place content).add x.2) rest) c s = (.ok d', c', s') := h
      rw [Walk.bind] at h
      split at h
      · next content c₁ s₁ hx =>
        obtain ⟨contents, hgives, hfill⟩ := ih h
        exact ⟨content :: contents, .next hx hgives, hfill⟩
      · cases congrArg Prod.fst h

/-! ## One directive -/

/-- A content that is blank, or none, leaves the text as it is; any other adds its body behind a
blank line. -/
theorem place_cases (d : Draft) (content : Option Text) :
    (bodies [content] = [] ∧ (d.place content).text = d.text ∧
      (d.joint = .apart → (d.place content).joint = .apart)) ∨
    ∃ b, bodies [content] = [b] ∧ b ≠ [] ∧ Text.trim b = b ∧
      d.place content = ⟨d.text ++ ['\n', '\n'] ++ b, .apart⟩ := by
  cases content with
  | none =>
      refine .inl ⟨rfl, ?_⟩
      simp only [place]
      split
      · next h => exact ⟨rfl, fun hj => by cases h.1.symm.trans hj⟩
      · exact ⟨rfl, id⟩
  | some x =>
      by_cases hx : Text.trim x = []
      · refine .inl ⟨by simp [bodies, hx], ?_, fun _ => rfl⟩
        simp only [place, hx, List.isEmpty_nil, if_true]
      · refine .inr ⟨Text.trim x, by simp [bodies, hx], hx, Text.trim_trim x, ?_⟩
        simp only [place, List.isEmpty_iff, hx, if_false]

/-- A section joins a draft as it stands, or adds nothing, or adds its text without the breaks in
front of it behind a break or two, two where content was put in before. -/
theorem add_cases (d : Draft) (u : Text) :
    (d.joint = .plain ∧ d.add u = ⟨d.text ++ u, .plain⟩) ∨ d.add u = d ∨
    ∃ gap, (gap = ['\n'] ∧ d.joint ≠ .apart ∨ gap = ['\n', '\n']) ∧ u.dropWhile isBreak ≠ [] ∧
      d.add u = ⟨d.text ++ gap ++ u.dropWhile isBreak, .plain⟩ := by
  by_cases hj : d.joint = .plain
  · refine .inl ⟨hj, ?_⟩
    simp only [add, hj]
  · rw [add_of_ne_plain hj]
    split
    · exact .inr (.inl rfl)
    · next he =>
      refine .inr (.inr ⟨_, ?_, fun hu => he (List.isEmpty_iff.mpr hu), rfl⟩)
      split
      · exact .inr rfl
      · next h => exact .inl ⟨rfl, fun ha => h (.inl ha)⟩

end Draft

/-! ## Where the bodies stand -/

/-- One blank line, and then something else. -/
def Trails (v : Text) : Prop := ∃ r, v = ['\n', '\n'] ++ r ∧ r.head? ≠ some '\n' ∧ r ≠ []

theorem Trails.append {v : Text} (h : Trails v) (w : Text) : Trails (v ++ w) := by
  obtain ⟨r, rfl, hhead, hne⟩ := h
  refine ⟨r ++ w, List.append_assoc _ _ _, ?_, List.append_ne_nil_of_left_ne_nil hne w⟩
  rwa [List.head?_append_of_ne_nil _ hne]

theorem Trails.dropBreaks {v : Text} (h : Trails v) (u : Text) :
    ∃ w, Text.dropBreaks (u ++ v) = u ++ w ∧ Trails w := by
  obtain ⟨r, rfl, hhead, hne⟩ := h
  refine ⟨['\n', '\n'] ++ Text.dropBreaks r, ?_, _, rfl, Text.head?_dropBreaks_ne hhead, ?_⟩
  · rw [← List.append_assoc, Text.dropBreaks_append hhead hne, List.append_assoc]
  · obtain ⟨c, w, hr, -⟩ := Text.exists_cons_dropBreaks hhead hne
    exact hr ▸ List.cons_ne_nil c w

theorem edges_of_trim {b : Text} (h : Text.trim b = b) :
    b.head? ≠ some '\n' ∧ b.getLast? ≠ some '\n' := by
  obtain ⟨hhead, hlast⟩ := Text.trim_eq_self_iff.mp h
  exact ⟨fun hc => absurd (hhead '\n' hc) (by decide), fun hc => absurd (hlast '\n' hc) (by decide)⟩

/-- The bodies in a draft, each with what stands before it: a blank line stands before each of them,
and behind each of them one and something else, but for the last one, where the joint says that the
draft ends there. -/
structure Stood (d : Draft) (spots : List (Text × Text)) : Prop where
  body : ∀ x ∈ spots, x.2 ≠ [] ∧ Text.trim x.2 = x.2
  before : ∀ x ∈ spots, ∃ q, x.1 = q ++ ['\n', '\n'] ∧ q.getLast? ≠ some '\n'
  behind : ∀ x ∈ spots, ∃ v, d.text = x.1 ++ x.2 ++ v ∧ (v = [] ∧ d.joint = .apart ∨ Trails v)
  order : spots.Pairwise fun x y => x.1 ++ x.2 <+: y.1

namespace Stood

variable {d : Draft} {spots : List (Text × Text)}

theorem nil (d : Draft) : Stood d [] := ⟨nofun, nofun, nofun, .nil⟩

theorem cut (h : Stood d spots) : Stood d.cut spots where
  body := h.body
  before := h.before
  behind := by
    intro x hx
    obtain ⟨v, hv, htrail⟩ := h.behind x hx
    rcases htrail with ⟨rfl, hj⟩ | htrail
    · refine ⟨[], ?_, .inl ⟨rfl, hj⟩⟩
      obtain ⟨hne, htrim⟩ := h.body x hx
      have hlast : (x.1 ++ x.2).getLast? ≠ some '\n' := by
        rw [List.getLast?_append_of_ne_nil _ hne]
        exact (edges_of_trim htrim).2
      rw [List.append_nil] at hv ⊢
      rw [Draft.cut, hv, Text.dropBreaks_eq_self hlast]
    · obtain ⟨w, hw, htrail⟩ := htrail.dropBreaks (x.1 ++ x.2)
      exact ⟨w, by rw [Draft.cut, hv, hw], .inr htrail⟩
  order := h.order

/-- Text may be added, if it does not join the draft at the end of a body, or comes there behind a
blank line. -/
theorem grow (h : Stood d spots) {w : Text} {j : Joint}
    (hw : d.joint = .apart → w = [] ∧ j = .apart ∨ Trails w) : Stood ⟨d.text ++ w, j⟩ spots where
  body := h.body
  before := h.before
  behind := by
    intro x hx
    obtain ⟨v, hv, htrail⟩ := h.behind x hx
    refine ⟨v ++ w, by rw [hv, List.append_assoc], ?_⟩
    rcases htrail with ⟨rfl, hj⟩ | htrail
    · exact hw hj
    · exact .inr (htrail.append w)
  order := h.order

theorem push (h : Stood d spots) (hd : d.text.getLast? ≠ some '\n') {b : Text} (hne : b ≠ [])
    (htrim : Text.trim b = b) :
    Stood ⟨d.text ++ ['\n', '\n'] ++ b, .apart⟩ (spots ++ [(d.text ++ ['\n', '\n'], b)]) := by
  have hgrown : Stood ⟨d.text ++ (['\n', '\n'] ++ b), .apart⟩ spots :=
    h.grow fun _ => .inr ⟨b, rfl, (edges_of_trim htrim).1, hne⟩
  rw [← List.append_assoc] at hgrown
  constructor
  case body =>
    refine List.forall_mem_append.mpr ⟨h.body, ?_⟩
    exact List.forall_mem_singleton.mpr ⟨hne, htrim⟩
  case before =>
    refine List.forall_mem_append.mpr ⟨h.before, ?_⟩
    exact List.forall_mem_singleton.mpr ⟨d.text, rfl, hd⟩
  case behind =>
    refine List.forall_mem_append.mpr ⟨hgrown.behind, ?_⟩
    exact List.forall_mem_singleton.mpr ⟨[], (List.append_nil _).symm, .inl ⟨rfl, rfl⟩⟩
  case order =>
    refine List.pairwise_append.mpr ⟨h.order, List.pairwise_singleton _ _, fun x hx y hy => ?_⟩
    obtain ⟨v, hv, -⟩ := h.behind x hx
    rw [List.mem_singleton.mp hy, hv, List.append_assoc]
    exact List.prefix_append _ _

theorem place (h : Stood d spots) (hd : d.text.getLast? ≠ some '\n') (content : Option Text) :
    ∃ new, Stood (d.place content) (spots ++ new) ∧ new.map Prod.snd = bodies [content] := by
  rcases d.place_cases content with ⟨hnone, htext, hj⟩ | ⟨b, hb, hne, htrim, hplace⟩
  · have hgrown : Stood ⟨d.text ++ [], (d.place content).joint⟩ spots :=
      h.grow fun ha => .inl ⟨rfl, hj ha⟩
    rw [List.append_nil, ← htext] at hgrown
    exact ⟨[], by rwa [List.append_nil], hnone.symm⟩
  · exact ⟨[(d.text ++ ['\n', '\n'], b)], hplace ▸ h.push hd hne htrim, hb.symm⟩

theorem add (h : Stood d spots) (u : Text) : Stood (d.add u) spots := by
  rcases d.add_cases u with ⟨hj, hadd⟩ | hadd | ⟨gap, hgap, hne, hadd⟩
  · rw [hadd]
    exact h.grow fun ha => by cases hj.symm.trans ha
  · rwa [hadd]
  · rw [hadd, List.append_assoc]
    refine h.grow fun ha => .inr ?_
    rcases hgap with ⟨-, hj⟩ | rfl
    · exact absurd ha hj
    · exact ⟨_, rfl, Text.head?_dropWhile_isBreak_ne u, hne⟩

theorem fill (h : Stood d spots) (xs : List (Option Text × Text)) :
    ∃ new, Stood (d.fill xs) (spots ++ new) ∧ new.map Prod.snd = bodies (xs.map Prod.fst) := by
  induction xs generalizing d spots with
  | nil => exact ⟨[], by rwa [List.append_nil], rfl⟩
  | cons x xs ih =>
      obtain ⟨first, hplace, hfirst⟩ := h.cut.place (Text.getLast?_dropBreaks_ne d.text) x.1
      obtain ⟨rest, hfill, hrest⟩ := ih (hplace.add x.2)
      refine ⟨first ++ rest, by rwa [← List.append_assoc], ?_⟩
      rw [List.map_append, hfirst, hrest, List.map_cons]
      exact (bodies_cons x.1 _).symm

end Stood

/-- A text that ends with just one blank line, or an empty one. -/
def EndsApart (u : Text) : Prop := u = [] ∨ ∃ q, u = q ++ ['\n', '\n'] ∧ q.getLast? ≠ some '\n'

/-- A text that begins with just one blank line, or an empty one. -/
def BeginsApart (v : Text) : Prop := v = [] ∨ ∃ r, v = ['\n', '\n'] ++ r ∧ r.head? ≠ some '\n'

/-- The bodies stand in the text one behind the other, each at the start or behind two breaks and no
more, and at the end or before two breaks and no more. -/
def SetApart (out : Text) (bs : List Text) : Prop :=
  ∃ spots : List (Text × Text), spots.map Prod.snd = bs ∧
    (∀ x ∈ spots, EndsApart x.1 ∧ ∃ v, out = x.1 ++ x.2 ++ v ∧ BeginsApart v) ∧
    spots.Pairwise fun x y => x.1 ++ x.2 <+: y.1

theorem endsApart_trimStart {q : Text} (hq : q.getLast? ≠ some '\n') :
    EndsApart (Text.trimStart (q ++ ['\n', '\n'])) := by
  rw [Text.trimStart, List.dropWhile_append]
  split
  · exact .inl rfl
  · exact .inr ⟨_, rfl, fun hlast => hq (Text.getLast?_of_getLast?_dropWhile hlast)⟩

theorem Trails.beginsApart_trimEnd {v : Text} (h : Trails v) : BeginsApart (Text.trimEnd v) := by
  obtain ⟨r, rfl, hhead, -⟩ := h
  by_cases hr : Text.trimEnd r = []
  · have hgap : ∀ c ∈ ['\n', '\n'], isBlank c = true :=
      List.forall_mem_cons.mpr ⟨rfl, List.forall_mem_singleton.mpr rfl⟩
    refine .inl (List.rdropWhile_eq_nil_iff.mpr (List.forall_mem_append.mpr ⟨hgap, ?_⟩))
    exact List.rdropWhile_eq_nil_iff.mp hr
  · refine .inr ⟨Text.trimEnd r, Text.dropEndWhile_append_of_ne_nil hr _, fun hc => hhead ?_⟩
    obtain ⟨w, hw⟩ : Text.trimEnd r <+: r := List.rdropWhile_prefix isBlank r
    rw [← hw, List.head?_append_of_ne_nil _ hr, hc]

/-- Once the draft is trimmed, the first body may stand at the start and the last one at the end. -/
theorem Stood.setApart {d : Draft} {spots : List (Text × Text)} (h : Stood d spots) :
    SetApart (Text.trim d.text) (spots.map Prod.snd) := by
  have hstart : ∀ x ∈ spots, ∀ w, Text.trimStart (x.1 ++ (x.2 ++ w)) =
      Text.trimStart x.1 ++ (x.2 ++ w) := by
    intro x hx w
    obtain ⟨hne, htrim⟩ := h.body x hx
    refine Text.trimStart_append (fun c hc => ?_) x.1
    rw [List.head?_append_of_ne_nil _ hne] at hc
    exact (Text.trim_eq_self_iff.mp htrim).1 c hc
  refine ⟨spots.map fun x => (Text.trimStart x.1, x.2), by rw [List.map_map]; rfl, ?_, ?_⟩
  · rw [List.forall_mem_map]
    intro x hx
    obtain ⟨hne, htrim⟩ := h.body x hx
    obtain ⟨q, hq, hlast⟩ := h.before x hx
    obtain ⟨v, hv, htrail⟩ := h.behind x hx
    -- the body ends with no blank, so trimming goes no further than what stands behind it
    have hend : ∀ c, (Text.trimStart x.1 ++ x.2).getLast? = some c → isBlank c = false := by
      intro c hc
      rw [List.getLast?_append_of_ne_nil _ hne] at hc
      exact (Text.trim_eq_self_iff.mp htrim).2 c hc
    refine ⟨hq ▸ endsApart_trimStart hlast, Text.trimEnd v, ?_, ?_⟩
    · rw [hv, Text.trim, List.append_assoc, hstart x hx, ← List.append_assoc,
        Text.trimEnd_append hend]
    · rcases htrail with ⟨rfl, -⟩ | htrail
      · exact .inl rfl
      · exact htrail.beginsApart_trimEnd
  · rw [List.pairwise_map]
    refine h.order.imp_of_mem fun {x y} hx _ hxy => ?_
    obtain ⟨w, hw⟩ := hxy
    rw [← hw, List.append_assoc, hstart x hx, ← List.append_assoc]
    exact List.prefix_append _ _

/-! ## Blank lines on top of each other -/

/-- What stands before, between and behind the directives of a text. -/
def Sections.stretches (s : Sections) : List Text := s.lead :: s.rest.map Prod.snd

namespace Draft

variable {d : Draft}

theorem getLast?_place_ne (hd : d.text.getLast? ≠ some '\n') (content : Option Text) :
    (d.place content).text.getLast? ≠ some '\n' := by
  rcases d.place_cases content with ⟨-, htext, -⟩ | ⟨b, -, hne, htrim, hplace⟩
  · rwa [htext]
  · rw [hplace, List.getLast?_append_of_ne_nil _ hne]
    exact (edges_of_trim htrim).2

theorem piled_place (hd : d.text.getLast? ≠ some '\n') {content : Option Text}
    (h : Piled (core (d.place content).text)) :
    Piled (core d.text) ∨ ∃ b ∈ bodies [content], Piled b := by
  rcases d.place_cases content with ⟨-, htext, -⟩ | ⟨b, hb, hne, htrim, hplace⟩
  · exact .inl (htext ▸ h)
  · obtain ⟨hhead, hlast⟩ := edges_of_trim htrim
    rw [hplace] at h
    refine (Text.piled_core_append (.inr rfl) hd hhead hne h).imp_right fun hpile => ?_
    exact ⟨b, hb ▸ List.mem_singleton_self b, Text.core_eq_self hhead hlast ▸ hpile⟩

theorem piled_add (hp : d.joint = .plain → d.text = []) (hd : d.text.getLast? ≠ some '\n')
    {u : Text} (h : Piled (core (d.add u).text)) : Piled (core d.text) ∨ Piled (core u) := by
  rcases d.add_cases u with ⟨hj, hadd⟩ | hadd | ⟨gap, hgap, hne, hadd⟩
  · rw [hadd, hp hj] at h
    exact .inr h
  · exact .inl (hadd ▸ h)
  · rw [hadd] at h
    have hcases := Text.piled_core_append (hgap.imp_left And.left) hd
      (Text.head?_dropWhile_isBreak_ne u) hne h
    rwa [Text.core_dropWhile] at hcases

theorem piled_fill {xs : List (Option Text × Text)} (h : Piled (core (d.fill xs).text)) :
    Piled (core d.text) ∨ (∃ x ∈ xs, Piled (core x.2)) ∨
      ∃ b ∈ bodies (xs.map Prod.fst), Piled b := by
  induction xs generalizing d with
  | nil => exact .inl h
  | cons x xs ih =>
      have hcut : d.cut.text.getLast? ≠ some '\n' := Text.getLast?_dropBreaks_ne d.text
      rw [List.exists_mem_cons_iff, List.map_cons, bodies_cons]
      simp only [List.mem_append, or_and_right, exists_or]
      rcases ih h with hadd | hsection | hbody
      · rcases piled_add place_text_eq_nil (getLast?_place_ne hcut x.1) hadd with hplace | hsection
        · rcases piled_place hcut hplace with hd | hbody
          · rw [cut, Text.core_dropBreaks] at hd
            exact .inl hd
          · exact .inr (.inr (.inl hbody))
        · exact .inr (.inl (.inl hsection))
      · exact .inr (.inl (.inr hsection))
      · exact .inr (.inr (.inr hbody))

end Draft

/-! ## Embedding -/

section Embed

variable {ε σ : Type} {expand : Directive → Walk ε σ (Option Text)} {current : Path} {t out : Text}
  {c : Chain} {s : σ}

theorem Walk.fst_within {α : Type} (p : Path) (w : Walk ε σ α) (c : Chain) (s : σ) :
    (within p w c s).1 = (w (c.opened p) s).1 := by
  rw [within, Chain.opened]
  split
  · next h => rw [h, Option.getD_some]
  · next h => rw [h, Option.getD_none]

theorem embed_eq_ok (h : (embed expand current t c s).1 = .ok out) :
    ∃ contents, Gives expand (c.opened current) s (directives t) contents ∧
      out = Text.trim ((Draft.empty.add (sections t).lead).fill
        (contents.zip ((sections t).rest.map Prod.snd))).text := by
  rw [← sections_rest_map]
  rcases hs : sections t with ⟨lead, _ | ⟨x, rest⟩⟩
  · simp only [embed, hs] at h
    exact ⟨[], .done _ s, (Except.ok.inj h).symm⟩
  · simp only [embed, hs, Walk.fst_within] at h
    replace h : (Walk.bind (Draft.extend expand (Draft.empty.add lead) (x :: rest))
      (fun draft => Walk.pure (Text.trim draft.text)) (c.opened current) s).1 = .ok out := h
    rw [Walk.bind] at h
    split at h
    · next draft c' s' hrun =>
      obtain ⟨contents, hgives, rfl⟩ := Draft.extend_eq_ok hrun
      exact ⟨contents, hgives, (Except.ok.inj h).symm⟩
    · cases h

theorem Gives.length_eq {ds : List Directive} {contents : List (Option Text)}
    (h : Gives expand c s ds contents) : contents.length = ds.length := by
  induction h with
  | done => rfl
  | next _ _ ih => rw [List.length_cons, List.length_cons, ih]

theorem Gives.unique {ds : List Directive} {contents contents' : List (Option Text)}
    (h : Gives expand c s ds contents) (h' : Gives expand c s ds contents') :
    contents = contents' := by
  induction h generalizing contents' with
  | done => cases h' with | done => rfl
  | next hx _ ih =>
      cases h' with
      | next hy h' =>
          obtain ⟨hcontent, hrest⟩ := Prod.mk.inj (hx.symm.trans hy)
          obtain ⟨rfl, rfl⟩ := Prod.mk.inj hrest
          rw [Except.ok.inj hcontent, ih h']

/-- Where a document is embedded, the content of each directive that is not blank stands, trimmed,
between single blank lines, and blank lines pile up nowhere else than where they do in these
contents or between two directives. -/
theorem embed_spacing (h : (embed expand current t c s).1 = .ok out) :
    ∃ contents, Gives expand (c.opened current) s (directives t) contents ∧
      SetApart out (bodies contents) ∧
      ((∀ u ∈ (sections t).stretches, ¬ Piled (core u)) → (∀ b ∈ bodies contents, ¬ Piled b) →
        ¬ Piled out) := by
  obtain ⟨contents, hgives, rfl⟩ := embed_eq_ok h
  have hlength : contents.length = ((sections t).rest.map Prod.snd).length := by
    rw [hgives.length_eq, ← sections_rest_map, List.length_map, List.length_map]
  have hfst : (contents.zip ((sections t).rest.map Prod.snd)).map Prod.fst = contents :=
    List.map_fst_zip hlength.le
  refine ⟨contents, hgives, ?_, fun hplain hbodies hpiled => ?_⟩
  · obtain ⟨spots, hstood, hspots⟩ := (Stood.nil (Draft.empty.add (sections t).lead)).fill
      (contents.zip ((sections t).rest.map Prod.snd))
    rw [hfst] at hspots
    rw [← hspots]
    exact hstood.setApart
  · rw [Sections.stretches, List.forall_mem_cons] at hplain
    rcases Draft.piled_fill hpiled.core_of_trim with hlead | ⟨x, hx, hsection⟩ | ⟨b, hb, hbody⟩
    · exact hplain.1 hlead
    · exact hplain.2 x.2 (List.of_mem_zip hx).2 hsection
    · exact hbodies b (hfst ▸ hb) hbody

end Embed

/-- A document with a line of text between four directives. -/
def scattered : Text := "Top\n:[a](a)\n\n\n:[b](b)\nmid\n:[c](c)\n:[d](d)\n\n\n\n".toList

/-- Work that gives one content after the other: two lines, nothing, blanks, one line. -/
def dealOut (_ : Directive) : Walk Text Nat (Option Text) := fun c n =>
  (.ok ([some ['\n', 'A', '\n', 'A', '\n'], none, some [' ', '\n'], some ['D', '\n']].getD n none),
    c, n + 1)

theorem embed_spacing_scattered :
    (embed dealOut ⟨['r']⟩ scattered .empty 0).1 = .ok "Top\n\nA\nA\n\nmid\n\nD".toList ∧
    SetApart "Top\n\nA\nA\n\nmid\n\nD".toList [['A', '\n', 'A'], ['D']] ∧
    ¬ Piled "Top\n\nA\nA\n\nmid\n\nD".toList := by
  have h : (embed dealOut ⟨['r']⟩ scattered .empty 0).1 =
      .ok "Top\n\nA\nA\n\nmid\n\nD".toList := by decide +kernel
  obtain ⟨contents, hgives, hapart, hplain⟩ := embed_spacing h
  have hds : directives scattered =
      [⟨['a'], ['a']⟩, ⟨['b'], ['b']⟩, ⟨['c'], ['c']⟩, ⟨['d'], ['d']⟩] := by decide +kernel
  rw [hds] at hgives
  have hdealt : Gives dealOut (Chain.empty.opened ⟨['r']⟩) 0
      [⟨['a'], ['a']⟩, ⟨['b'], ['b']⟩, ⟨['c'], ['c']⟩, ⟨['d'], ['d']⟩]
      [some ['\n', 'A', '\n', 'A', '\n'], none, some [' ', '\n'], some ['D', '\n']] :=
    .next rfl (.next rfl (.next rfl (.next rfl (.done _ _))))
  obtain rfl := hgives.unique hdealt
  exact ⟨h, hapart, hplain (by decide +kernel) (by decide)⟩

end Compendium
