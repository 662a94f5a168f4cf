/-
# `Compendium.Proofs.Text.Piled` — blank lines between lines, one or several

What stands between two lines of a text begins with the break behind the one and ends with the break
before the other (`Edged`).  The lines are apart if a blank line stands between them, and that is so
if two breaks stand there with nothing but blanks from the one to the other (`Gapped`).  This is
kept by all that is written around it (`Gapped.mono`).  What is between two breaks is gapped exactly
if one of its rows is blank (`gapped_iff_rows`).

Two breaks in a row leave one blank line between two lines of text; three in a row pile up blank
lines.  Breaks are in a row where two texts are joined only if the one ends with a break and the
other begins with one, so a text that is put together from others is seldom piled up if they are not
(`piled_append_iff`, `piled_core_append`).  Trimming takes away what is piled up at the ends, and
what stands between characters that are not blank stays (`piled_trim_iff`).  A blank line between
each two of many texts piles up nothing either, unless one of them is empty
(`piled_trim_setApart_iff`).
-/
import Compendium.Proofs.Text.Row
import Compendium.Proofs.Text.Trim

namespace Compendium.Text

/-! ## A blank line between two breaks -/

/-- The text is a break, or something between two breaks. -/
def Edged (t : Text) : Prop := t = ['\n'] ∨ ∃ u, t = '\n' :: (u ++ ['\n'])

theorem edged_iff {t : Text} : Edged t ↔ (∃ u, t = '\n' :: u) ∧ ∃ u, t = u ++ ['\n'] := by
  constructor
  · rintro (rfl | ⟨u, rfl⟩)
    · exact ⟨⟨[], rfl⟩, [], rfl⟩
    · exact ⟨⟨_, rfl⟩, '\n' :: u, rfl⟩
  · rintro ⟨⟨s, rfl⟩, u, hu⟩
    cases u with
    | nil => exact .inl hu
    | cons c u =>
        obtain rfl : '\n' = c := (List.cons.inj hu).1
        exact .inr ⟨u, hu⟩

/-- Between two breaks of the text is nothing that is not blank. -/
def Gapped (t : Text) : Prop :=
  ∃ s r u, t = s ++ '\n' :: (r ++ '\n' :: u) ∧ trim r = []

theorem Gapped.mono {s t : Text} (h : Gapped s) (hst : s <:+: t) : Gapped t := by
  obtain ⟨a, b, rfl⟩ := hst
  obtain ⟨s, r, u, rfl, hr⟩ := h
  exact ⟨a ++ s, r, u ++ b, by simp only [List.append_assoc, List.cons_append], hr⟩

theorem not_gapped_break : ¬ Gapped ['\n'] := by
  rintro ⟨s, r, u, h, -⟩
  have hlen := congrArg List.length h
  simp only [List.length_append, List.length_cons, List.length_nil] at hlen
  omega

theorem gapped_of_blank {r : Text} (h : trim r = []) : Gapped ('\n' :: (r ++ ['\n'])) :=
  ⟨[], r, [], rfl, h⟩

theorem trim_eq_nil_of_mem_rows {t r : Text} (h : trim t = []) (hr : r ∈ rows t) : trim r = [] := by
  rw [trim_eq_nil_iff] at h ⊢
  intro c hc
  by_cases hn : c = '\n'
  · exact absurd (hn ▸ hc) (not_mem_of_mem_rows hr)
  · exact h c ((exists_mem_rows_iff hn).mp ⟨r, hr, hc⟩)

theorem gapped_iff_rows {t : Text} :
    Gapped ('\n' :: (t ++ ['\n'])) ↔ ∃ r ∈ rows t, trim r = [] := by
  constructor
  · rintro ⟨s, r, u, h, hr⟩
    -- the break behind the blank row is the last one, or stands in the text
    obtain ⟨v, hv, hrows⟩ : ∃ v, r ++ '\n' :: u = v ++ ['\n'] ∧ ∀ q ∈ rows r, q ∈ rows v := by
      rcases List.eq_nil_or_concat' u with rfl | ⟨u, c, rfl⟩
      · exact ⟨r, rfl, fun q hq => hq⟩
      · have htext : '\n' :: t ++ ['\n'] = s ++ '\n' :: (r ++ '\n' :: u) ++ [c] := by
          simpa only [List.append_assoc, List.cons_append] using h
        obtain rfl : '\n' = c := List.head_eq_of_cons_eq (List.append_inj' htext rfl).2
        refine ⟨r ++ '\n' :: u, by simp only [List.append_assoc, List.cons_append], fun q hq => ?_⟩
        rw [rows_append_break]
        exact List.mem_append_left _ hq
    obtain ⟨q, hq⟩ := List.exists_mem_of_ne_nil _ (rows_ne_nil r)
    refine ⟨q, ?_, trim_eq_nil_of_mem_rows hr hq⟩
    rw [hv] at h
    cases s with
    | nil =>
        obtain rfl := List.append_cancel_right (List.cons.inj h).2
        exact hrows q hq
    | cons c s =>
        have htext : t ++ ['\n'] = s ++ '\n' :: v ++ ['\n'] := by
          rw [List.append_assoc]
          exact (List.cons.inj h).2
        rw [List.append_cancel_right htext, rows_append_break]
        exact List.mem_append_right _ (hrows q hq)
  · rintro ⟨r, hr, hblank⟩
    induction t using rowInduction with
    | last s hs =>
        rw [rows_of_row hs, List.mem_singleton] at hr
        exact gapped_of_blank (hr ▸ hblank)
    | cut s t hs ih =>
        rw [rows_append_break, rows_of_row hs, List.singleton_append, List.mem_cons] at hr
        rcases hr with rfl | hr
        · exact ⟨[], r, t ++ ['\n'], by simp, hblank⟩
        · exact (ih hr).mono ⟨'\n' :: s, [], by simp⟩

/-! ## Blank lines on top of each other -/

/-- Three breaks. -/
def pile : Text := ['\n', '\n', '\n']

/-- Three breaks in a row stand somewhere in the text. -/
def Piled (t : Text) : Prop := pile <:+: t

instance (t : Text) : Decidable (Piled t) := inferInstanceAs (Decidable (pile <:+: t))

variable {s t u a b : Text}

theorem Piled.mono (h : Piled s) (hs : s <:+: t) : Piled t := List.IsInfix.trans h hs

/-- Where the one text ends with no break, or the other begins with none, joining piles up
nothing. -/
theorem piled_append_iff (h : s.getLast? ≠ some '\n' ∨ t.head? ≠ some '\n') :
    Piled (s ++ t) ↔ Piled s ∨ Piled t := by
  constructor
  · rintro ⟨a, b, hst⟩
    rw [List.append_assoc] at hst
    rcases List.append_eq_append_iff.mp hst with ⟨x, rfl, hx⟩ | ⟨x, -, ht⟩
    · -- the three breaks begin in `s`; they end there, or both sides have one of them
      match x, hx with
      | [], hx => exact .inr ⟨[], b, hx⟩
      | [c], hx =>
          obtain ⟨rfl, rfl⟩ := List.cons.inj hx
          exact h.elim (fun h => absurd List.getLast?_concat h) fun h => absurd rfl h
      | [c, d], hx =>
          simp only [pile, List.cons_append, List.nil_append, List.cons.injEq] at hx
          obtain ⟨rfl, rfl, rfl⟩ := hx
          exact h.elim (fun h => absurd (by simp) h) fun h => absurd rfl h
      | c :: d :: e :: x, hx =>
          simp only [pile, List.cons_append, List.nil_append, List.cons.injEq] at hx
          obtain ⟨rfl, rfl, rfl, -⟩ := hx
          exact .inl ⟨a, x, by simp [pile]⟩
    · exact .inr ⟨x, b, by rw [List.append_assoc]; exact ht.symm⟩
  · rintro (hs | ht)
    · exact hs.mono (List.prefix_append s t).isInfix
    · exact ht.mono (List.suffix_append s t).isInfix

/-- A blank line between two texts piles up nothing if it does not stand next to a break. -/
theorem piled_apart_iff (hs : s.getLast? ≠ some '\n') (ht : t.head? ≠ some '\n') :
    Piled (s ++ ['\n', '\n'] ++ t) ↔ Piled s ∨ Piled t := by
  have hgap : ¬ Piled ['\n', '\n'] := by decide
  rw [piled_append_iff (.inr ht), piled_append_iff (.inl hs), or_iff_left hgap]

/-- Where three breaks in a row can be around a blank line that does not stand behind a break:
before it, behind it, or with a third break behind it. -/
theorem pile_cases (hs : s.getLast? ≠ some '\n') (h : s ++ ['\n', '\n'] ++ t = a ++ pile ++ b) :
    Piled s ∨ (∃ a', a = s ++ ['\n', '\n'] ++ a' ∧ t = a' ++ pile ++ b) ∨
      ∃ u, t = '\n' :: u ∧ (a = s ∧ b = u ∨ a = s ++ ['\n'] ∧ u = '\n' :: b) := by
  rw [List.append_assoc, List.append_assoc] at h
  rcases List.append_eq_append_iff.mp h with ⟨x, rfl, hx⟩ | ⟨x, rfl, hx⟩
  · match x, hx with
    | [], hx =>
        simp only [pile, List.cons_append, List.nil_append, List.cons.injEq, true_and] at hx
        exact .inr (.inr ⟨b, hx, .inl ⟨List.append_nil s, rfl⟩⟩)
    | [c], hx =>
        simp only [pile, List.cons_append, List.nil_append, List.cons.injEq, true_and] at hx
        obtain ⟨rfl, rfl⟩ := hx
        exact .inr (.inr ⟨_, rfl, .inr ⟨rfl, rfl⟩⟩)
    | c :: d :: x, hx =>
        simp only [List.cons_append, List.nil_append, List.cons.injEq] at hx
        obtain ⟨rfl, rfl, rfl⟩ := hx
        exact .inr (.inl ⟨x, by simp, (List.append_assoc _ _ _).symm⟩)
  · match x, hx with
    | [], hx =>
        simp only [pile, List.cons_append, List.nil_append, List.cons.injEq, true_and] at hx
        exact .inr (.inr ⟨b, hx.symm, .inl ⟨(List.append_nil a).symm, rfl⟩⟩)
    | [c], hx =>
        obtain ⟨rfl, -⟩ := List.cons.inj hx
        exact absurd List.getLast?_concat hs
    | [c, d], hx =>
        simp only [pile, List.cons_append, List.nil_append, List.cons.injEq] at hx
        obtain ⟨rfl, rfl, -⟩ := hx
        exact absurd (by simp) hs
    | c :: d :: e :: x, hx =>
        simp only [pile, List.cons_append, List.nil_append, List.cons.injEq] at hx
        obtain ⟨rfl, rfl, rfl, -⟩ := hx
        exact .inl ⟨a, x, by simp [pile]⟩

/-! ### Breaks at the ends -/

theorem Piled.core_of_trim (h : Piled (trim t)) : Piled (core t) := by
  rw [← trim_core] at h
  exact h.mono (isInfix_trim _)

/-- One break or two, where none stands before them or behind them, pile up nothing. -/
theorem piled_core_append {gap : Text} (hgap : gap = ['\n'] ∨ gap = ['\n', '\n'])
    (hs : s.getLast? ≠ some '\n') (ht : t.head? ≠ some '\n') (hne : t ≠ [])
    (h : Piled (core (s ++ gap ++ t))) : Piled (core s) ∨ Piled (core t) := by
  have htcore : core t = dropBreaks t := by rw [core, dropWhile_isBreak_eq_self ht]
  rw [core, List.append_assoc, List.dropWhile_append] at h
  split at h
  · -- nothing but breaks before `t`
    have hbreaks : ∀ c ∈ gap, isBreak c = true := by
      rcases hgap with rfl | rfl
      · exact List.forall_mem_singleton.mpr rfl
      · exact List.forall_mem_cons.mpr ⟨rfl, List.forall_mem_singleton.mpr rfl⟩
    rw [List.dropWhile_append_of_pos hbreaks] at h
    exact .inr h
  · next hd =>
    have hscore : core s = s.dropWhile isBreak :=
      dropBreaks_eq_self fun hlast => hs (getLast?_of_getLast?_dropWhile hlast)
    rw [← List.append_assoc, dropBreaks_append ht hne, ← hscore, ← htcore] at h
    have hslast : (core s).getLast? ≠ some '\n' := getLast?_dropBreaks_ne _
    have hthead : (core t).head? ≠ some '\n' := htcore ▸ head?_dropBreaks_ne ht
    rcases hgap with rfl | rfl
    · rw [piled_append_iff (.inr hthead), piled_append_iff (.inl hslast)] at h
      exact h.imp_left fun h => h.resolve_right (by decide)
    · exact (piled_apart_iff hslast hthead).mp h

/-! ### What is piled up in a trimmed text -/

/-- A trimmed text is piled up exactly if three breaks in a row stand between characters that are
not blank. -/
theorem piled_trim_iff :
    Piled (trim t) ↔ ∃ a b, t = a ++ pile ++ b ∧ trim a ≠ [] ∧ trim b ≠ [] := by
  constructor
  · rintro ⟨a, b, h⟩
    obtain ⟨f, g, ht, -, -⟩ := exists_blanks_append t
    obtain ⟨hhead, hlast⟩ := trim_eq_self_iff.mp (trim_trim t)
    rw [← h] at ht hhead hlast
    refine ⟨f ++ a, b ++ g, by rw [ht]; simp only [List.append_assoc], fun ha => ?_, fun hb => ?_⟩
    · -- a trimmed text begins with no blank, so not with the breaks
      cases a with
      | nil => exact absurd (hhead '\n' rfl) (by decide)
      | cons c a =>
          have hc := trim_eq_nil_iff.mp ha c (List.mem_append_right _ List.mem_cons_self)
          exact absurd hc (Bool.eq_false_iff.mp (hhead c rfl))
    · rcases List.eq_nil_or_concat' b with rfl | ⟨b, c, rfl⟩
      · rw [List.append_nil] at hlast
        exact absurd (hlast '\n' (by simp [pile])) (by decide)
      · have hc := trim_eq_nil_iff.mp hb c (by simp)
        exact absurd hc (Bool.eq_false_iff.mp (hlast c (by rw [← List.append_assoc]; simp)))
  · rintro ⟨a, b, rfl, ha, hb⟩
    rw [trim_append_of_ne_nil ha hb]
    exact ⟨_, _, rfl⟩

/-! ### Texts with a blank line between each two -/

/-- The texts in a row, with a blank line between each two. -/
def setApart (ts : List Text) : Text := List.intercalate ['\n', '\n'] ts

/-- Of two texts with a blank line between them, the one ends with no break and the other begins
with none. -/
def Flush (s t : Text) : Prop := s.getLast? ≠ some '\n' ∧ t.head? ≠ some '\n'

variable {ts l r : List Text}

theorem setApart_singleton (t : Text) : setApart [t] = t := List.intercalate_singleton

theorem setApart_cons_cons (s t : Text) (ts : List Text) :
    setApart (s :: t :: ts) = s ++ ['\n', '\n'] ++ setApart (t :: ts) :=
  List.intercalate_cons_cons

theorem setApart_append (hl : l ≠ []) (t : Text) (r : List Text) :
    setApart (l ++ t :: r) = setApart l ++ ['\n', '\n'] ++ setApart (t :: r) := by
  induction l with
  | nil => exact absurd rfl hl
  | cons s l ih =>
      cases l with
      | nil => rw [List.singleton_append, setApart_cons_cons, setApart_singleton]
      | cons q l =>
          rw [List.cons_append, List.cons_append, setApart_cons_cons, ← List.cons_append,
            ih (List.cons_ne_nil q l), setApart_cons_cons]
          simp only [List.append_assoc]

theorem trim_apart_eq_nil_iff : trim (s ++ ['\n', '\n'] ++ t) = [] ↔ trim s = [] ∧ trim t = [] := by
  have hgap : trim ['\n', '\n'] = [] := by decide
  rw [trim_append_eq_nil_iff, trim_append_eq_nil_iff, and_iff_left hgap]

theorem trim_setApart_eq_nil_iff : trim (setApart ts) = [] ↔ ∀ t ∈ ts, trim t = [] := by
  induction ts with
  | nil => exact iff_of_true rfl fun _ h => absurd h List.not_mem_nil
  | cons s ts ih =>
      cases ts with
      | nil => rw [setApart_singleton, List.forall_mem_singleton]
      | cons q ts =>
          rw [setApart_cons_cons, trim_apart_eq_nil_iff, ih, List.forall_mem_cons (a := s)]

theorem setApart_eq_break_cons (hs : s.head? ≠ some '\n') (h : setApart (s :: ts) = '\n' :: u) :
    s = [] ∧ ∃ t r, ts = t :: r ∧ u = '\n' :: setApart (t :: r) := by
  cases ts with
  | nil =>
      rw [setApart_singleton] at h
      exact absurd (congrArg List.head? h) hs
  | cons t r =>
      rw [setApart_cons_cons] at h
      cases s with
      | nil => exact ⟨rfl, t, r, rfl, (List.cons.inj h).2.symm⟩
      | cons c s => exact absurd (congrArg some (List.cons.inj h).1) hs

/-- Three breaks in a row come from an empty text between two others.  `before` says that something
stands in front of the texts that is not blank. -/
theorem exists_empty_of_pile (before : Prop) (hts : ts.IsChain Flush) (hp : ∀ t ∈ ts, ¬ Piled t)
    (h : setApart ts = a ++ pile ++ b) (ha : before ∨ trim a ≠ []) (hb : trim b ≠ []) :
    ∃ l r, ts = l ++ [] :: r ∧ (before ∨ ∃ t ∈ l, trim t ≠ []) ∧ ∃ t ∈ r, trim t ≠ [] := by
  induction ts generalizing a before with
  | nil => simp [setApart, pile, List.intercalate] at h
  | cons s ts ih =>
      cases ts with
      | nil =>
          rw [setApart_singleton] at h
          exact absurd ⟨a, b, h.symm⟩ (hp s List.mem_cons_self)
      | cons q ts =>
          obtain ⟨⟨hs, hq⟩, hts⟩ := List.isChain_cons_cons.mp hts
          obtain ⟨hps, hp⟩ := List.forall_mem_cons.mp hp
          rw [setApart_cons_cons] at h
          rcases pile_cases hs h with hpile | ⟨a', rfl, h'⟩ | ⟨u, hu, hab⟩
          · exact absurd hpile hps
          · -- behind the first text
            have ha' : (before ∨ trim s ≠ []) ∨ trim a' ≠ [] := by
              rwa [Ne, trim_apart_eq_nil_iff, not_and_or, ← or_assoc] at ha
            obtain ⟨l, r, hlr, hl, hr⟩ := ih _ hts hp h' ha'
            refine ⟨s :: l, r, by rw [hlr, List.cons_append], ?_, hr⟩
            rw [List.exists_mem_cons_iff, ← or_assoc]
            exact hl
          · -- right behind the first text, so the second one is empty
            obtain ⟨rfl, t, r, rfl, rfl⟩ := setApart_eq_break_cons hq hu
            have hbreak : isBlank '\n' = true := by decide
            obtain ⟨has, hbr⟩ : trim a = trim s ∧ trim b = trim (setApart (t :: r)) := by
              rcases hab with ⟨rfl, rfl⟩ | ⟨rfl, hub⟩
              · exact ⟨rfl, trim_cons_of_blank hbreak _⟩
              · rw [(List.cons.inj hub).2]
                exact ⟨trim_concat_of_blank hbreak s, rfl⟩
            rw [has] at ha
            rw [hbr, Ne, trim_setApart_eq_nil_iff] at hb
            push Not at hb
            exact ⟨[s], t :: r, rfl, ha.imp_right fun hs => ⟨s, List.mem_singleton_self s, hs⟩, hb⟩

/-- Texts with a blank line between each two, none of which is piled up, are piled up once they are
trimmed exactly if there is an empty one between two that are not blank. -/
theorem piled_trim_setApart_iff (hts : ts.IsChain Flush) (hp : ∀ t ∈ ts, ¬ Piled t) :
    Piled (trim (setApart ts)) ↔
      ∃ l r, ts = l ++ [] :: r ∧ (∃ t ∈ l, trim t ≠ []) ∧ ∃ t ∈ r, trim t ≠ [] := by
  rw [piled_trim_iff]
  constructor
  · rintro ⟨a, b, h, ha, hb⟩
    obtain ⟨l, r, hlr, hl, hr⟩ := exists_empty_of_pile False hts hp h (.inr ha) hb
    exact ⟨l, r, hlr, hl.resolve_left id, hr⟩
  · rintro ⟨l, r, rfl, ⟨s, hs, hsne⟩, ⟨t, ht, htne⟩⟩
    obtain ⟨q, r, rfl⟩ := List.exists_cons_of_ne_nil (List.ne_nil_of_mem ht)
    refine ⟨setApart l, '\n' :: setApart (q :: r), ?_, ?_, ?_⟩
    · rw [setApart_append (List.ne_nil_of_mem hs), setApart_cons_cons]
      simp [pile]
    · exact fun h => hsne (trim_setApart_eq_nil_iff.mp h s hs)
    · rw [trim_cons_of_blank (by decide)]
      exact fun h => htne (trim_setApart_eq_nil_iff.mp h t ht)

end Compendium.Text
