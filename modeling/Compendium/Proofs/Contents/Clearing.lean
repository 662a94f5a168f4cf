/-
# `Compendium.Proofs.Contents.Clearing` — what is left when the markers are taken out

Only a fenced block can reach over a break.  So a text that is joined at a break has the markers of
its two parts and at most one more, a block that the first part opens and the second one closes
(`stands_append_break`).  All of what follows comes from this law.

Taking out a marker joins what comes before it to what comes behind it.  Neither has that marker any
more, but an opening line before it may now meet a closing line behind it.  `Nested` says that this
happens somewhere, and then, and only then, a marker is left (`stands_blankOut`).  Trimming what is
left makes no difference where the blanks around brackets and backticks are gaps (`stands_trim`),
and so `isIn_clear_iff` says when the text without its markers has a marker.
-/
import Compendium.Proofs.Contents.Reading

namespace Compendium.Marker

variable {t w u p q l before after : Text} {c : Char}

/-! ## Markers in a text that is joined at a break -/

/-- A text that ends with the opening line of a fenced block, and blanks. -/
def Opens (p : Text) : Prop :=
  ∃ u g b, p = u ++ g ++ fenceStart ++ b ∧ AtStart u ∧ (∀ c ∈ g, isGap c = true) ∧
    ∀ c ∈ b, isBlank c = true

/-- A text that begins with blanks, and then the closing line of a fenced block. -/
def Closes (q : Text) : Prop :=
  ∃ b g w, q = b ++ fenceEnd ++ g ++ w ∧ (∀ c ∈ b, isBlank c = true) ∧
    (∀ c ∈ g, isGap c = true) ∧ AtEnd w

theorem cut_behind {s t x y : Text} (h : s ++ t = x ++ c :: y) (hs : c ∉ s) :
    ∃ x', x = s ++ x' ∧ t = x' ++ c :: y := by
  rcases List.append_eq_append_iff.mp h with ⟨x', hx, ht⟩ | ⟨z, hs', hy⟩
  · exact ⟨x', hx, ht⟩
  · cases z with
    | nil =>
        rw [List.append_nil] at hs'
        exact ⟨[], by rw [List.append_nil, hs'], hy.symm⟩
    | cons d z =>
        obtain rfl := (List.cons.inj hy).1
        exact absurd (hs' ▸ List.mem_append_right _ List.mem_cons_self) hs

theorem cut_before {s t x y : Text} (h : s ++ t = x ++ c :: y) (ht : c ∉ t) :
    ∃ y', s = x ++ c :: y' ∧ y = y' ++ t := by
  rcases List.append_eq_append_iff.mp h with ⟨x', -, ht'⟩ | ⟨z, hs, hy⟩
  · exact absurd (ht' ▸ List.mem_append_right _ List.mem_cons_self) ht
  · cases z with
    | nil =>
        rw [List.nil_append] at hy
        exact absurd (hy ▸ List.mem_cons_self) ht
    | cons d z =>
        rw [List.cons_append] at hy
        obtain ⟨rfl, he⟩ := List.cons.inj hy
        exact ⟨z, hs, he⟩

theorem not_mem_gaps {g : Text} (hg : ∀ c ∈ g, isGap c = true) : '\n' ∉ g :=
  fun hm => absurd (hg _ hm) (by decide)

/-- A break in a marker stands between the lines of a fenced block. -/
theorem Spaced.cut (h : Spaced l) {x y : Text} (hl : l = x ++ '\n' :: y) :
    ∃ g b b' g', x = g ++ fenceStart ++ b ∧ y = b' ++ fenceEnd ++ g' ∧
      (∀ c ∈ g, isGap c = true) ∧ (∀ c ∈ b, isBlank c = true) ∧
      (∀ c ∈ b', isBlank c = true) ∧ ∀ c ∈ g', isGap c = true := by
  obtain @⟨front, m, back, hfront, hmark, hback⟩ := h
  rw [List.append_assoc] at hl
  obtain ⟨x, rfl, hcut⟩ := cut_behind hl (not_mem_gaps hfront)
  obtain ⟨y, hm, rfl⟩ := cut_before hcut (not_mem_gaps hback)
  cases hmark with
  | word =>
      have hbreak : '\n' ∈ word := hm ▸ List.mem_append_right _ List.mem_cons_self
      exact absurd hbreak (by decide)
  | @fence inside hin =>
      rw [List.append_assoc] at hm
      obtain ⟨x, rfl, hinside⟩ := cut_behind hm (by decide)
      obtain ⟨y, rfl, rfl⟩ := cut_before hinside (by decide)
      refine ⟨front, x, y, back, (List.append_assoc _ _ _).symm, rfl, hfront, fun c hc => ?_,
        fun c hc => ?_, hback⟩
      · exact hin c (List.mem_append_left _ hc)
      · exact hin c (List.mem_append_right _ (List.mem_cons_of_mem _ hc))

theorem AtEnd.append (h : AtEnd w) (q : Text) : AtEnd (w ++ '\n' :: q) := by
  rcases h with rfl | ⟨v, rfl⟩
  · exact .inr ⟨q, rfl⟩
  · exact .inr ⟨_, rfl⟩

theorem AtEnd.left {v : Text} (h : AtEnd (w ++ v)) : AtEnd w := by
  cases w with
  | nil => exact .inl rfl
  | cons c w =>
      rcases h with h | ⟨v, h⟩
      · exact absurd h (List.cons_ne_nil _ _)
      · exact .inr ⟨w, congrArg (· :: w) (List.cons.inj h).1⟩

theorem AtStart.append (h : AtStart u) (p : Text) : AtStart (p ++ '\n' :: u) := by
  rcases h with rfl | ⟨v, rfl⟩
  · exact .inr ⟨p, rfl⟩
  · exact .inr ⟨p ++ '\n' :: v, by simp only [List.append_assoc, List.cons_append]⟩

theorem AtStart.right {v : Text} (h : AtStart (v ++ u)) : AtStart u := by
  rcases List.eq_nil_or_concat u with rfl | ⟨u, c, rfl⟩
  · exact .inl rfl
  · rcases h with h | ⟨x, h⟩
    · simp at h
    · rw [List.concat_eq_append, ← List.append_assoc] at h
      obtain ⟨-, hc⟩ := List.append_inj' h rfl
      exact .inr ⟨u, by rw [List.concat_eq_append, hc]⟩

theorem Stands.append (h : Stands p) (q : Text) : Stands (p ++ '\n' :: q) := by
  obtain ⟨u, l, w, rfl, hu, hl, hw⟩ := h
  exact ⟨u, l, w ++ '\n' :: q, by simp only [List.append_assoc], hu, hl, hw.append q⟩

theorem Stands.prepend (h : Stands q) (p : Text) : Stands (p ++ '\n' :: q) := by
  obtain ⟨u, l, w, rfl, hu, hl, hw⟩ := h
  exact ⟨p ++ '\n' :: u, l, w, by simp only [List.append_assoc, List.cons_append], hu.append p,
    hl, hw⟩

theorem Opens.stands (ho : Opens p) (hc : Closes q) : Stands (p ++ '\n' :: q) := by
  obtain ⟨u, g, b, rfl, hu, hg, hb⟩ := ho
  obtain ⟨b', g', w, rfl, hb', hg', hw⟩ := hc
  have hinside : ∀ c ∈ b ++ '\n' :: b', isBlank c = true := by
    intro c hc
    rcases List.mem_append.mp hc with hc | hc
    · exact hb c hc
    · rcases List.mem_cons.mp hc with rfl | hc
      · decide
      · exact hb' c hc
  refine ⟨u, g ++ (fenceStart ++ (b ++ '\n' :: b') ++ fenceEnd) ++ g', w, ?_, hu,
    .mk hg (.fence hinside) hg', hw⟩
  simp only [List.append_assoc, List.cons_append]

/-- Where a marker can stand in a text that is joined at a break: behind it, before it, or around
it. -/
theorem stands_cases (h : p ++ '\n' :: q = u ++ l ++ w) (hu : AtStart u) (hl : Spaced l)
    (hw : AtEnd w) : (∃ x, u = p ++ '\n' :: x ∧ Stands q) ∨ Stands p ∨ Opens p ∧ Closes q := by
  rw [List.append_assoc] at h
  rcases List.append_eq_append_iff.mp h with ⟨x, rfl, hq⟩ | ⟨x, rfl, hlw⟩
  · -- the break comes before the marker
    obtain ⟨c, v, hcv, hc⟩ := hl.head
    cases x with
    | nil =>
        rw [hcv] at hq
        exact absurd (List.cons.inj hq).1.symm hc
    | cons d x =>
        obtain ⟨rfl, rfl⟩ := List.cons.inj hq
        refine .inl ⟨x, rfl, x, l, w, (List.append_assoc _ _ _).symm, ?_, hl, hw⟩
        exact AtStart.right (v := p ++ ['\n']) (by rwa [List.append_assoc])
  · rcases List.append_eq_append_iff.mp hlw with ⟨y, rfl, hw'⟩ | ⟨y, hl', hq⟩
    · -- the break comes behind the marker
      refine .inr (.inl ⟨u, l, y, (List.append_assoc _ _ _).symm, hu, hl, ?_⟩)
      exact AtEnd.left (hw' ▸ hw)
    · cases y with
      | nil =>
          rw [List.append_nil] at hl'
          exact .inr (.inl ⟨u, l, [], by rw [hl', List.append_nil], hu, hl, .inl rfl⟩)
      | cons d y =>
          obtain ⟨rfl, rfl⟩ := List.cons.inj hq
          obtain ⟨g, b, b', g', rfl, rfl, hg, hb, hb', hg'⟩ := hl.cut hl'
          refine .inr (.inr ⟨⟨u, g, b, ?_, hu, hg, hb⟩, ⟨b', g', w, rfl, hb', hg', hw⟩⟩)
          simp only [List.append_assoc]

/-- A text that is joined at a break has the markers of its parts, and a block around the break. -/
theorem stands_append_break :
    Stands (p ++ '\n' :: q) ↔ Stands p ∨ Stands q ∨ Opens p ∧ Closes q := by
  constructor
  · rintro ⟨u, l, w, h, hu, hl, hw⟩
    rcases stands_cases h hu hl hw with ⟨-, -, hq⟩ | hp | hpq
    · exact .inr (.inl hq)
    · exact .inl hp
    · exact .inr (.inr hpq)
  · rintro (hp | hq | ⟨hp, hq⟩)
    · exact hp.append q
    · exact hq.prepend p
    · exact hp.stands hq

theorem Opens.right (h : Opens (p ++ '\n' :: q)) : Opens q ∨ ∀ c ∈ q, isBlank c = true := by
  obtain ⟨u, g, b, h, hu, hg, hb⟩ := h
  rcases List.append_eq_append_iff.mp h with ⟨x, hp, hq⟩ | ⟨x, hp, hq⟩
  · -- the break comes before the blanks at the end, so before the opening line
    cases x with
    | nil =>
        refine .inr fun c hc => hb c ?_
        rw [List.nil_append] at hq
        exact hq ▸ List.mem_cons_of_mem _ hc
    | cons d x =>
        obtain ⟨rfl, rfl⟩ := List.cons.inj hq
        rw [List.append_assoc] at hp
        have hline : '\n' ∉ g ++ fenceStart := fun hm =>
          (List.mem_append.mp hm).elim (not_mem_gaps hg) (by decide)
        obtain ⟨v, rfl, rfl⟩ := cut_before hp hline
        refine .inl ⟨v, g, b, congrArg (· ++ b) (List.append_assoc _ _ _).symm, ?_, hg, hb⟩
        exact AtStart.right (v := p ++ ['\n']) (by rwa [List.append_assoc])
  · exact .inr fun c hc => hb c (hq ▸ List.mem_append_right _ (List.mem_cons_of_mem _ hc))

/-! ## Taking out markers -/

theorem not_opens_nil : ¬ Opens [] := by
  rintro ⟨u, g, b, h, -⟩
  simp only [List.nil_eq, List.append_eq_nil_iff] at h
  exact absurd h.1.2 (by decide)

theorem not_closes_nil : ¬ Closes [] := by
  rintro ⟨b, g, w, h, -⟩
  simp only [List.nil_eq, List.append_eq_nil_iff] at h
  exact absurd h.1.1.2 (by decide)

theorem stands_break_cons : Stands ('\n' :: q) ↔ Stands q := by
  have h := stands_append_break (p := []) (q := q)
  simpa only [List.nil_append, not_stands_nil, not_opens_nil, false_and, false_or, or_false] using h

theorem stands_concat_break : Stands (p ++ ['\n']) ↔ Stands p := by
  have h := stands_append_break (p := p) (q := [])
  simpa only [not_stands_nil, not_closes_nil, and_false, or_false] using h

theorem closes_break_cons : Closes ('\n' :: q) ↔ Closes q := by
  constructor
  · rintro ⟨b, g, w, h, hb, hg, hw⟩
    cases b with
    | nil => exact absurd (List.cons.inj h).1 (by decide)
    | cons c b =>
        exact ⟨b, g, w, (List.cons.inj h).2, fun d hd => hb d (List.mem_cons_of_mem _ hd), hg, hw⟩
  · rintro ⟨b, g, w, rfl, hb, hg, hw⟩
    exact ⟨'\n' :: b, g, w, rfl, List.forall_mem_cons.mpr ⟨by decide, hb⟩, hg, hw⟩

theorem stands_dropBreaks : Stands (Text.dropBreaks t) ↔ Stands t := by
  induction t using List.reverseRecOn with
  | nil => exact Iff.rfl
  | append_singleton t c ih =>
      rw [Text.dropBreaks, Text.dropEndWhile_concat]
      split
      · next hc =>
        rw [isBreak, beq_iff_eq] at hc
        rw [hc, stands_concat_break]
        exact ih
      · exact Iff.rfl

theorem not_stands_before (h : first? t = some (before, after)) : ¬ Stands before := by
  simp only [first?, Option.map_eq_some_iff, Prod.exists, Prod.mk.injEq] at h
  obtain ⟨before, after, hfind, rfl, rfl⟩ := h
  rw [stands_dropBreaks, ← isIn_iff, isIn, first?, find_before hfind]
  exact Bool.false_ne_true

/-- Somewhere a marker to be taken out stands between the opening and the closing line of a block,
once the markers behind it are taken out. -/
inductive Nested : Text → Prop
  | between {t before after : Text} : first? t = some (before, after) → Opens before →
      Closes (blankOut after) → Nested t
  | behind {t before after : Text} : first? t = some (before, after) → Nested after → Nested t

theorem nested_iff (h : first? t = some (before, after)) :
    Nested t ↔ Opens before ∧ Closes (blankOut after) ∨ Nested after := by
  constructor
  · intro hn
    cases hn with
    | between hf ho hc =>
        obtain ⟨rfl, rfl⟩ := Prod.mk.inj (Option.some.inj (h.symm.trans hf))
        exact .inl ⟨ho, hc⟩
    | behind hf hn =>
        obtain ⟨rfl, rfl⟩ := Prod.mk.inj (Option.some.inj (h.symm.trans hf))
        exact .inr hn
  · rintro (⟨ho, hc⟩ | hn)
    · exact .between h ho hc
    · exact .behind h hn

/-- A marker is left exactly where taking one out has closed a block. -/
theorem stands_blankOut : Stands (blankOut t) ↔ Nested t := by
  fun_induction blankOut t with
  | case1 t hf =>
      refine iff_of_false (fun hs => ?_) (fun hn => ?_)
      · rw [← isIn_iff, isIn, hf] at hs
        cases hs
      · cases hn with
        | between h _ _ =>
            rw [hf] at h
            cases h
        | behind h _ =>
            rw [hf] at h
            cases h
  | case2 t before after hf ih =>
      rw [List.append_assoc]
      show Stands (before ++ '\n' :: '\n' :: blankOut after) ↔ _
      rw [stands_append_break, stands_break_cons, closes_break_cons, ih, nested_iff hf]
      have := not_stands_before hf
      tauto

/-! ## Trimming -/

/-- A row whose blanks before a first bracket or backtick and behind a last one are gaps. -/
structure Tight (r : Text) : Prop where
  front : ∀ b c s, r = b ++ c :: s → (c = '[' ∨ c = '`') → (∀ d ∈ b, isBlank d = true) →
    ∀ d ∈ b, isGap d = true
  back : ∀ s c b, r = s ++ c :: b → (c = ']' ∨ c = '`') → (∀ d ∈ b, isBlank d = true) →
    ∀ d ∈ b, isGap d = true

theorem kept_tight : Kept Tight where
  nil := by
    refine ⟨fun b c s h => absurd h ?_, fun s c b h => absurd h ?_⟩
    · simp
    · simp
  tail := fun {d r} hd h => by
    refine ⟨fun b c s hr hc hb => ?_, fun s c b hr hc hb => ?_⟩
    · have := h.front (d :: b) c s (congrArg (d :: ·) hr) hc (List.forall_mem_cons.mpr ⟨hd, hb⟩)
      exact (List.forall_mem_cons.mp this).2
    · exact h.back (d :: s) c b (congrArg (d :: ·) hr) hc hb
  init := fun {d r} hd h => by
    refine ⟨fun b c s hr hc hb => ?_, fun s c b hr hc hb => ?_⟩
    · exact h.front b c (s ++ [d]) (by rw [hr, List.append_assoc]; rfl) hc hb
    · have hblank : ∀ e ∈ b ++ [d], isBlank e = true := fun e he =>
        (List.mem_append.mp he).elim (hb e) fun he => List.mem_singleton.mp he ▸ hd
      have := h.back s c (b ++ [d]) (by rw [hr, List.append_assoc]; rfl) hc hblank
      exact fun e he => this e (List.mem_append_left _ he)

theorem tight_of_gaps {r : Text} (h : r.all (fun c => isGap c == isBlank c) = true) : Tight r where
  front := fun _ _ _ hr _ hb d hd => by
    have hgap := List.all_eq_true.mp h d (hr ▸ List.mem_append_left _ hd)
    rw [beq_iff_eq.mp hgap, hb d hd]
  back := fun _ _ _ hr _ hb d hd => by
    have hgap := List.all_eq_true.mp h d
      (hr ▸ List.mem_append_right _ (List.mem_cons_of_mem _ hd))
    rw [beq_iff_eq.mp hgap, hb d hd]

theorem tight_of_ends {r : Text}
    (hfront : ∀ c, (Text.trimStart r).head? = some c → c ≠ '[' ∧ c ≠ '`')
    (hback : ∀ c, r.getLast? = some c → isBlank c = false) : Tight r where
  front := fun b c s hr hc hb => by
    have hs : Text.trimStart r = c :: s :=
      hr ▸ dropWhile_blank_append (fun _ => id) hb (not_isBlank_of_head hc) s
    exact absurd hc (not_or.mpr (hfront c (congrArg List.head? hs)))
  back := fun s c b hr hc hb => by
    rcases List.eq_nil_or_concat' b with rfl | ⟨b, d, rfl⟩
    · exact fun _ hd => absurd hd List.not_mem_nil
    · have hlast : r.getLast? = some d := by
        rw [hr, ← List.cons_append, ← List.append_assoc, List.getLast?_concat]
      have hblank := hb d (List.mem_append_right _ (List.mem_singleton_self d))
      exact absurd hblank (Bool.eq_false_iff.mp (hback d hlast))

theorem Spaced.tail (h : Spaced (c :: l)) (hc : isBlank c = true) : Spaced l := by
  generalize hl : c :: l = k at h
  obtain @⟨front, m, back, hfront, hmark, hback⟩ := h
  cases front with
  | nil =>
      obtain ⟨d, v, rfl, hd⟩ := hmark.head
      obtain rfl := (List.cons.inj hl).1
      exact absurd hc (Bool.eq_false_iff.mp (not_isBlank_of_head hd))
  | cons d front =>
      obtain ⟨-, rfl⟩ := List.cons.inj hl
      exact .mk (fun e he => hfront e (List.mem_cons_of_mem _ he)) hmark hback

theorem Spaced.init (h : Spaced (l ++ [c])) (hc : isBlank c = true) : Spaced l := by
  generalize hl : l ++ [c] = k at h
  obtain @⟨front, m, back, hfront, hmark, hback⟩ := h
  rcases List.eq_nil_or_concat' back with rfl | ⟨back, d, rfl⟩
  · obtain ⟨v, d, rfl, hd⟩ := hmark.last
    rw [List.append_nil, ← List.append_assoc] at hl
    obtain rfl := List.singleton_inj.mp (List.append_inj' hl rfl).2
    exact absurd hc (Bool.eq_false_iff.mp (not_isBlank_of_last hd))
  · rw [← List.append_assoc] at hl
    obtain ⟨rfl, -⟩ := List.append_inj' hl rfl
    exact .mk hfront hmark fun e he => hback e (List.mem_append_left _ he)

theorem Spaced.cons (h : Spaced l) (hc : isGap c = true) : Spaced (c :: l) := by
  obtain @⟨front, m, back, hfront, hmark, hback⟩ := h
  exact .mk (List.forall_mem_cons.mpr ⟨hc, hfront⟩) hmark hback

theorem Spaced.concat (h : Spaced l) (hc : isGap c = true) : Spaced (l ++ [c]) := by
  obtain @⟨front, m, back, hfront, hmark, hback⟩ := h
  rw [List.append_assoc]
  refine .mk hfront hmark fun e he => ?_
  rcases List.mem_append.mp he with he | he
  · exact hback e he
  · exact List.mem_singleton.mp he ▸ hc

theorem Spaced.gap_before (hl : Spaced l) (hc : isBlank c = true) (hn : c ≠ '\n')
    (h : ∀ r ∈ Text.rows (c :: (l ++ w)), Tight r) : isGap c = true := by
  obtain @⟨front, m, back, hfront, hmark, hback⟩ := hl
  obtain ⟨d, v, rfl, hd⟩ := hmark.head
  have hrow : '\n' ∉ c :: (front ++ [d]) := by
    intro hm
    rcases List.mem_cons.mp hm with he | hm
    · exact hn he.symm
    · exact Text.not_mem_concat (not_mem_gaps hfront) (ne_break_of_head hd) hm
  obtain ⟨s, hs⟩ := Text.exists_row_append hrow (v ++ back ++ w)
  have hmem : c :: front ++ d :: s ∈ Text.rows (c :: (front ++ d :: v ++ back ++ w)) := by
    simpa only [List.append_assoc, List.cons_append, List.nil_append] using hs
  have hblank : ∀ e ∈ c :: front, isBlank e = true :=
    List.forall_mem_cons.mpr ⟨hc, fun e he => isBlank_of_isGap (hfront e he)⟩
  exact (h _ hmem).front (c :: front) d s rfl hd hblank c List.mem_cons_self

theorem Spaced.gap_behind (hl : Spaced l) (hc : isBlank c = true) (hn : c ≠ '\n')
    (h : ∀ r ∈ Text.rows (u ++ l ++ [c]), Tight r) : isGap c = true := by
  obtain @⟨front, m, back, hfront, hmark, hback⟩ := hl
  obtain ⟨v, d, rfl, hd⟩ := hmark.last
  have hrow : '\n' ∉ d :: (back ++ [c]) := by
    intro hm
    rcases List.mem_cons.mp hm with he | hm
    · exact ne_break_of_last hd he.symm
    · exact Text.not_mem_concat (not_mem_gaps hback) hn hm
  obtain ⟨s, hs⟩ := Text.exists_append_row hrow (u ++ (front ++ v))
  have hmem : s ++ d :: (back ++ [c]) ∈ Text.rows (u ++ (front ++ (v ++ [d]) ++ back) ++ [c]) := by
    simpa only [List.append_assoc, List.cons_append, List.nil_append] using hs
  have hblank : ∀ e ∈ back ++ [c], isBlank e = true := by
    intro e he
    rcases List.mem_append.mp he with he | he
    · exact isBlank_of_isGap (hback e he)
    · exact List.mem_singleton.mp he ▸ hc
  exact (h _ hmem).back s d (back ++ [c]) rfl hd hblank c
    (List.mem_append_right _ (List.mem_singleton_self c))

theorem stands_cons (hc : isBlank c = true) (h : ∀ r ∈ Text.rows (c :: t), Tight r) :
    Stands (c :: t) ↔ Stands t := by
  by_cases hn : c = '\n'
  · rw [hn, stands_break_cons]
  constructor
  · rintro ⟨u, l, w, ht, hu, hl, hw⟩
    cases u with
    | nil =>
        obtain ⟨d, l, rfl, -⟩ := hl.head
        obtain ⟨rfl, rfl⟩ := List.cons.inj ht
        exact ⟨[], l, w, rfl, .inl rfl, hl.tail hc, hw⟩
    | cons d u => exact ⟨u, l, w, (List.cons.inj ht).2, AtStart.right (v := [d]) hu, hl, hw⟩
  · rintro ⟨u, l, w, rfl, hu, hl, hw⟩
    cases u with
    | nil => exact ⟨[], c :: l, w, rfl, .inl rfl, hl.cons (hl.gap_before hc hn h), hw⟩
    | cons d u =>
        refine ⟨c :: d :: u, l, w, rfl, .inr ?_, hl, hw⟩
        rcases hu with hu | ⟨v, hv⟩
        · exact absurd hu (List.cons_ne_nil _ _)
        · exact ⟨c :: v, congrArg (c :: ·) hv⟩

theorem stands_concat (hc : isBlank c = true) (h : ∀ r ∈ Text.rows (t ++ [c]), Tight r) :
    Stands (t ++ [c]) ↔ Stands t := by
  by_cases hn : c = '\n'
  · rw [hn, stands_concat_break]
  constructor
  · rintro ⟨u, l, w, ht, hu, hl, hw⟩
    rcases List.eq_nil_or_concat' w with rfl | ⟨w, d, rfl⟩
    · obtain ⟨l, d, rfl, -⟩ := hl.last
      rw [List.append_nil, ← List.append_assoc] at ht
      obtain ⟨rfl, hd⟩ := List.append_inj' ht rfl
      obtain rfl := List.singleton_inj.mp hd
      exact ⟨u, l, [], (List.append_nil _).symm, hu, hl.init hc, .inl rfl⟩
    · rw [← List.append_assoc] at ht
      exact ⟨u, l, w, (List.append_inj' ht rfl).1, hu, hl, hw.left⟩
  · rintro ⟨u, l, w, rfl, hu, hl, hw⟩
    rcases hw with rfl | ⟨w, rfl⟩
    · rw [List.append_nil] at h ⊢
      refine ⟨u, l ++ [c], [], ?_, hu, hl.concat (hl.gap_behind hc hn h), .inl rfl⟩
      rw [List.append_nil, List.append_assoc]
    · exact ⟨u, l, '\n' :: (w ++ [c]), by simp only [List.append_assoc, List.cons_append], hu, hl,
        .inr ⟨_, rfl⟩⟩

theorem stands_trimStart (h : ∀ r ∈ Text.rows t, Tight r) :
    Stands (Text.trimStart t) ↔ Stands t := by
  induction t with
  | nil => exact Iff.rfl
  | cons c t ih =>
      rw [Text.trimStart, List.dropWhile_cons]
      split
      · next hc =>
        rw [stands_cons hc h]
        exact ih ((kept_tight.shows h).tail hc).fit
      · exact Iff.rfl

theorem stands_trimEnd (h : ∀ r ∈ Text.rows t, Tight r) : Stands (Text.trimEnd t) ↔ Stands t := by
  induction t using List.reverseRecOn with
  | nil => exact Iff.rfl
  | append_singleton t c ih =>
      rw [Text.trimEnd, Text.dropEndWhile_concat]
      split
      · next hc =>
        rw [stands_concat hc h]
        exact ih ((kept_tight.shows h).init hc).fit
      · exact Iff.rfl

theorem stands_trim (h : ∀ r ∈ Text.rows t, Tight r) : Stands (Text.trim t) ↔ Stands t := by
  have hrest : ∀ r ∈ Text.rows (Text.trimStart t), Tight r :=
    ((kept_tight.shows h).dropWhile fun _ => id).fit
  rw [Text.trim, stands_trimEnd hrest, stands_trimStart h]

/-- In a text with tight rows, a marker is left exactly where taking one out has closed a block. -/
theorem isIn_clear_iff (h : ∀ r ∈ Text.rows t, Tight r) : isIn (clear t) = true ↔ Nested t := by
  have hrows : ∀ r ∈ Text.rows (blankOut t), Tight r :=
    ((kept_tight.shows h).blankOut (Reading.needsMark_ofKept kept_tight)).fit
  rw [isIn_iff, clear, stands_trim hrows, stands_blankOut]

/-! ## Texts without the opening line of a block -/

theorem kept_not_opening : Kept fun r => Text.trim r ≠ fenceStart :=
  kept_trim (P := (· ≠ fenceStart)) (by decide)

theorem not_opens (h : ∀ r ∈ Text.rows p, Text.trim r ≠ fenceStart) : ¬ Opens p := by
  rintro ⟨u, g, b, rfl, hu, hg, hb⟩
  have hline : ∀ r ∈ Text.rows (g ++ fenceStart ++ b), Text.trim r ≠ fenceStart := by
    rcases hu with rfl | ⟨v, rfl⟩
    · exact h
    · simp only [List.append_assoc, List.singleton_append] at h
      rw [List.append_assoc]
      exact (kept_not_opening.shows h).right.fit
  -- trimmed, what the line is in is nothing but the line
  have htrim : Text.trim (g ++ fenceStart ++ b) = fenceStart := by
    rw [Text.trim_append_blanks hb, Text.trim_blanks_append fun c hc => isBlank_of_isGap (hg c hc)]
    decide
  have hfence := (kept_not_opening.shows hline).trim.fit
  rw [htrim, Text.rows_of_row (by decide)] at hfence
  exact hfence fenceStart (List.mem_singleton_self _) (by decide)

theorem not_nested (h : ∀ r ∈ Text.rows t, Text.trim r ≠ fenceStart) : ¬ Nested t := by
  intro hn
  induction hn with
  | between hf ho _ =>
      obtain ⟨_, _, hbefore, -, -⟩ :=
        (kept_not_opening.shows h).around (Reading.needsMark_ofKept _) hf
      exact not_opens hbefore.fit ho
  | behind hf _ ih =>
      obtain ⟨_, _, -, hafter, -⟩ :=
        (kept_not_opening.shows h).around (Reading.needsMark_ofKept _) hf
      exact ih hafter.fit

end Compendium.Marker
