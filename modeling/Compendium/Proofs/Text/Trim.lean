/-
# `Compendium.Proofs.Text.Trim` — what trimming leaves

`dropEndWhile` is the library's `List.rdropWhile`, so its laws are at hand.  A blank at either end
of a text makes no difference to `trim` (`trim_cons_of_blank`, `trim_concat_of_blank`), and a text
is left alone exactly if no blank stands at an end (`trim_eq_self_iff`).

Headings are read with gaps cut off instead of blanks.  Where all blanks are gaps, or where there is
nothing to trim, that is the same (`dropGaps_eq_trim`, `dropGaps_of_trim`).
-/
import Compendium.Text.Basic
import Mathlib.Data.List.DropRight

namespace Compendium.Text

variable {α : Type} {p : α → Bool}

theorem ne_of_isBlank {c d : Char} (hc : isBlank c = true) (hd : isBlank d = false) : c ≠ d :=
  fun h => Bool.false_ne_true (hd.symm.trans (h ▸ hc))

theorem dropEndWhile_concat (p : α → Bool) (l : List α) (a : α) :
    dropEndWhile p (l ++ [a]) = if p a then dropEndWhile p l else l ++ [a] :=
  List.rdropWhile_concat p l a

theorem dropEndWhile_concat_of_pos (l : List α) {a : α} (h : p a = true) :
    dropEndWhile p (l ++ [a]) = dropEndWhile p l :=
  List.rdropWhile_concat_pos p l a h

theorem takeWhile_concat_of_neg (l : List α) {a : α} (h : ¬ p a = true) :
    (l ++ [a]).takeWhile p = l.takeWhile p := by
  rw [List.takeWhile_append, List.takeWhile_cons_of_neg h, List.append_nil]
  split
  · next he => exact ((List.takeWhile_prefix _).eq_of_length he).symm
  · rfl

theorem dropWhile_concat_of_neg (l : List α) {a : α} (h : ¬ p a = true) :
    (l ++ [a]).dropWhile p = l.dropWhile p ++ [a] := by
  rw [List.dropWhile_append, List.dropWhile_cons_of_neg h]
  split
  · next he => rw [List.isEmpty_iff.mp he, List.nil_append]
  · rfl

theorem dropEndWhile_append_of_ne_nil {m : List α} (h : dropEndWhile p m ≠ []) (l : List α) :
    dropEndWhile p (l ++ m) = l ++ dropEndWhile p m := by
  have hne : (m.reverse.dropWhile p).isEmpty ≠ true := fun he =>
    h (List.reverse_eq_nil_iff.mpr (List.isEmpty_iff.mp he))
  rw [dropEndWhile, List.reverse_append, List.dropWhile_append, if_neg hne, List.reverse_append,
    List.reverse_reverse]
  rfl

theorem dropEndWhile_append_of_pos {m : List α} (h : ∀ a ∈ m, p a = true) (l : List α) :
    dropEndWhile p (l ++ m) = dropEndWhile p l := by
  rw [dropEndWhile, List.reverse_append,
    List.dropWhile_append_of_pos fun a ha => h a (List.mem_reverse.mp ha)]
  rfl

theorem exists_dropEndWhile_append (p : α → Bool) (l : List α) :
    ∃ m, l = dropEndWhile p l ++ m ∧ ∀ a ∈ m, p a = true :=
  ⟨l.rtakeWhile p, List.rdropWhile_append_rtakeWhile.symm, fun _ => List.mem_rtakeWhile_imp⟩

theorem mem_of_mem_dropEndWhile {l : List α} {a : α} (h : a ∈ dropEndWhile p l) : a ∈ l :=
  (List.rdropWhile_prefix p l).subset h

theorem mem_of_mem_dropWhile {l : List α} {a : α} (h : a ∈ l.dropWhile p) : a ∈ l :=
  (List.dropWhile_sublist p).subset h

theorem getLast?_of_getLast?_dropWhile {l : List α} {a : α}
    (h : (l.dropWhile p).getLast? = some a) : l.getLast? = some a := by
  rw [← List.takeWhile_append_dropWhile (p := p) (l := l), List.getLast?_append, h, Option.some_or]

theorem mem_of_mem_trim {t : Text} {c : Char} (h : c ∈ trim t) : c ∈ t :=
  mem_of_mem_dropWhile (mem_of_mem_dropEndWhile h)

theorem trim_cons_of_blank {c : Char} (h : isBlank c = true) (t : Text) :
    trim (c :: t) = trim t := by
  simp only [trim, trimStart, List.dropWhile_cons, h, if_pos]

theorem trim_concat_of_blank {c : Char} (h : isBlank c = true) (t : Text) :
    trim (t ++ [c]) = trim t := by
  induction t with
  | nil => exact trim_cons_of_blank h []
  | cons d t ih =>
      cases hd : isBlank d with
      | true => rw [List.cons_append, trim_cons_of_blank hd, trim_cons_of_blank hd, ih]
      | false =>
          simp only [trim, trimStart, List.cons_append, List.dropWhile_cons, hd,
            if_neg Bool.false_ne_true]
          exact dropEndWhile_concat_of_pos (d :: t) h

theorem trim_blanks_append {b : Text} (hb : ∀ c ∈ b, isBlank c = true) (t : Text) :
    trim (b ++ t) = trim t := by
  induction b with
  | nil => rfl
  | cons c b ih =>
      obtain ⟨hc, hb⟩ := List.forall_mem_cons.mp hb
      rw [List.cons_append, trim_cons_of_blank hc, ih hb]

theorem trim_append_blanks {b : Text} (hb : ∀ c ∈ b, isBlank c = true) (t : Text) :
    trim (t ++ b) = trim t := by
  induction b using List.reverseRecOn with
  | nil => rw [List.append_nil]
  | append_singleton b c ih =>
      rw [← List.append_assoc, trim_concat_of_blank (hb c (by simp)),
        ih fun d hd => hb d (List.mem_append_left _ hd)]

theorem trimStart_eq_self {t : Text} (h : ∀ c, t.head? = some c → isBlank c = false) :
    trimStart t = t := by
  cases t with
  | nil => rfl
  | cons c t => simp only [trimStart, List.dropWhile_cons, h c rfl, if_neg Bool.false_ne_true]

theorem trimEnd_eq_self {t : Text} (h : ∀ c, t.getLast? = some c → isBlank c = false) :
    trimEnd t = t := by
  refine List.rdropWhile_eq_self_iff.mpr fun hne => ?_
  have := h _ (List.getLast?_eq_some_getLast hne)
  simpa using this

theorem head?_trimEnd {c : Char} (hc : isBlank c = false) (u : Text) :
    (trimEnd (c :: u)).head? = some c := by
  obtain ⟨v, hv⟩ := List.rdropWhile_prefix isBlank (c :: u)
  change trimEnd (c :: u) ++ v = c :: u at hv
  cases ht : trimEnd (c :: u) with
  | nil =>
      have hblank := List.rdropWhile_eq_nil_iff.mp ht c List.mem_cons_self
      exact absurd hblank (Bool.eq_false_iff.mp hc)
  | cons d w =>
      rw [ht] at hv
      exact congrArg some (List.cons.inj hv).1

theorem trimStart_append {t : Text} (h : ∀ c, t.head? = some c → isBlank c = false) (s : Text) :
    trimStart (s ++ t) = trimStart s ++ t := by
  rw [trimStart, List.dropWhile_append]
  split
  · next hs =>
    rw [trimStart, List.isEmpty_iff.mp hs, List.nil_append]
    exact trimStart_eq_self h
  · rfl

theorem trimEnd_append {s : Text} (h : ∀ c, s.getLast? = some c → isBlank c = false) (t : Text) :
    trimEnd (s ++ t) = s ++ trimEnd t := by
  induction t using List.reverseRecOn with
  | nil =>
      rw [List.append_nil, trimEnd_eq_self h]
      exact (List.append_nil s).symm
  | append_singleton t c ih =>
      simp only [trimEnd] at ih ⊢
      rw [← List.append_assoc, dropEndWhile_concat, dropEndWhile_concat]
      split
      · exact ih
      · exact List.append_assoc _ _ _

theorem trim_trimStart (t : Text) : trim (trimStart t) = trim t := by
  induction t with
  | nil => rfl
  | cons c t ih =>
      cases hc : isBlank c with
      | true =>
          rw [trimStart, List.dropWhile_cons_of_pos hc, ← trimStart, ih, trim_cons_of_blank hc]
      | false =>
          refine congrArg trim (trimStart_eq_self fun d hd => ?_)
          exact Option.some.inj hd ▸ hc

/-- To cut off blanks at the end first, all or some kinds of them, makes no difference. -/
theorem trim_dropEndWhile {q : Char → Bool} (hq : ∀ c, q c = true → isBlank c = true) (t : Text) :
    trim (dropEndWhile q t) = trim t := by
  induction t using List.reverseRecOn with
  | nil => rfl
  | append_singleton t c ih =>
      cases hc : q c with
      | true => rw [dropEndWhile_concat_of_pos t hc, ih, trim_concat_of_blank (hq c hc)]
      | false => rw [dropEndWhile_concat, hc, if_neg Bool.false_ne_true]

theorem trim_trimEnd (t : Text) : trim (trimEnd t) = trim t :=
  trim_dropEndWhile (fun _ => id) t

theorem trim_eq_self_iff {t : Text} :
    trim t = t ↔ (∀ c, t.head? = some c → isBlank c = false) ∧
      ∀ c, t.getLast? = some c → isBlank c = false := by
  constructor
  · intro h
    -- each end of a trimmed text comes from a drop that would have gone on
    have hstart : trimStart t = t := by
      have hle : (trim t).length ≤ (trimStart t).length :=
        (List.rdropWhile_prefix isBlank (trimStart t)).length_le
      rw [h] at hle
      exact (List.dropWhile_sublist _).eq_of_length_le hle
    have hend : trimEnd t = t := by
      rw [trim, hstart] at h
      exact h
    constructor
    · intro c hc
      obtain ⟨u, rfl⟩ := List.head?_eq_some_iff.mp hc
      have := List.dropWhile_eq_self_iff.mp hstart (Nat.zero_lt_succ _)
      simpa using this
    · intro c hc
      obtain ⟨u, rfl⟩ := List.getLast?_eq_some_iff.mp hc
      have := List.rdropWhile_eq_self_iff.mp hend (by simp)
      simpa using this
  · rintro ⟨hhead, hlast⟩
    rw [trim, trimStart_eq_self hhead, trimEnd_eq_self hlast]

theorem trim_cons_ne {c : Char} (hc : isBlank c = true) (t : Text) : trim (c :: t) ≠ c :: t :=
  fun h => absurd hc (Bool.eq_false_iff.mp ((trim_eq_self_iff.mp h).1 c rfl))

theorem trim_concat_ne {c : Char} (hc : isBlank c = true) (t : Text) :
    trim (t ++ [c]) ≠ t ++ [c] :=
  fun h => absurd hc (Bool.eq_false_iff.mp ((trim_eq_self_iff.mp h).2 c List.getLast?_concat))

theorem trim_eq_nil_iff {t : Text} : trim t = [] ↔ ∀ c ∈ t, isBlank c = true := by
  constructor
  · intro h c hc
    by_contra hb
    -- nothing is left, so all that is behind the blanks at the start is blank, and that is nothing
    have hstart : ∀ d ∈ trimStart t, isBlank d = true := List.rdropWhile_eq_nil_iff.mp h
    obtain ⟨d, u, hd⟩ : ∃ d u, trimStart t = d :: u := by
      refine List.exists_cons_of_ne_nil fun hnil => hb ?_
      exact List.dropWhile_eq_nil_iff.mp hnil c hc
    have hfirst := List.head?_dropWhile_not isBlank t
    rw [show t.dropWhile isBlank = d :: u from hd] at hfirst
    exact absurd (hstart d (hd ▸ List.mem_cons_self)) (Bool.eq_false_iff.mp hfirst)
  · intro h
    rw [trim, trimStart, List.dropWhile_eq_nil_iff.mpr h]
    rfl

theorem trim_trim (t : Text) : trim (trim t) = trim t := by
  refine trim_eq_self_iff.mpr ⟨fun c hc => ?_, fun c hc => ?_⟩
  · -- what is cut off at the end leaves the first character where it is
    obtain ⟨u, hu⟩ := List.head?_eq_some_iff.mp hc
    obtain ⟨v, hv⟩ := List.rdropWhile_prefix isBlank (trimStart t)
    have hs : (t.dropWhile isBlank).head? = some c := by
      rw [show t.dropWhile isBlank = trim t ++ v from hv.symm, hu]
      rfl
    have := List.head?_dropWhile_not isBlank t
    rw [hs] at this
    exact this
  · obtain ⟨u, hu⟩ := List.getLast?_eq_some_iff.mp hc
    have hne : (trimStart t).rdropWhile isBlank ≠ [] := by
      rw [show (trimStart t).rdropWhile isBlank = u ++ [c] from hu]
      simp
    have := List.rdropWhile_last_not isBlank (trimStart t) hne
    simpa [show (trimStart t).rdropWhile isBlank = u ++ [c] from hu] using this

/-! ## What trimming takes off -/

theorem exists_blanks_append (t : Text) :
    ∃ f g, t = f ++ trim t ++ g ∧ (∀ c ∈ f, isBlank c = true) ∧ ∀ c ∈ g, isBlank c = true := by
  refine ⟨t.takeWhile isBlank, (trimStart t).rtakeWhile isBlank, ?_,
    fun c hc => List.mem_takeWhile_imp hc, fun c hc => List.mem_rtakeWhile_imp hc⟩
  have hend : trim t ++ (trimStart t).rtakeWhile isBlank = trimStart t :=
    List.rdropWhile_append_rtakeWhile
  rw [List.append_assoc, hend, trimStart, List.takeWhile_append_dropWhile]

theorem isInfix_trim (t : Text) : trim t <:+: t := by
  obtain ⟨f, g, ht, -, -⟩ := exists_blanks_append t
  exact ⟨f, g, ht.symm⟩

theorem trim_append_eq_nil_iff {s t : Text} : trim (s ++ t) = [] ↔ trim s = [] ∧ trim t = [] := by
  simp only [trim_eq_nil_iff, List.forall_mem_append]

theorem trim_append_of_ne_nil {a b s : Text} (ha : trim a ≠ []) (hb : trim b ≠ []) :
    trim (a ++ s ++ b) = trimStart a ++ s ++ trimEnd b := by
  have hstart : (a.dropWhile isBlank).isEmpty ≠ true := fun he =>
    ha (trim_eq_nil_iff.mpr (List.dropWhile_eq_nil_iff.mp (List.isEmpty_iff.mp he)))
  have hend : trimEnd b ≠ [] := fun he =>
    hb (trim_eq_nil_iff.mpr (List.rdropWhile_eq_nil_iff.mp he))
  rw [trim, trimStart, List.append_assoc, List.dropWhile_append, if_neg hstart, ← List.append_assoc]
  exact dropEndWhile_append_of_ne_nil hend _

/-! ## Gaps instead of blanks -/

theorem dropWhile_congr {q : α → Bool} {l : List α} (h : ∀ a ∈ l, p a = q a) :
    l.dropWhile p = l.dropWhile q := by
  induction l with
  | nil => rfl
  | cons a l ih =>
      rw [List.dropWhile_cons, List.dropWhile_cons, h a List.mem_cons_self,
        ih fun b hb => h b (List.mem_cons_of_mem a hb)]

theorem dropEndWhile_congr {q : α → Bool} {l : List α} (h : ∀ a ∈ l, p a = q a) :
    dropEndWhile p l = dropEndWhile q l :=
  congrArg List.reverse (dropWhile_congr fun a ha => h a (List.mem_reverse.mp ha))

theorem isGap_eq_isBlank {c : Char} (h : isBlank c = true → isGap c = true) :
    isGap c = isBlank c :=
  Bool.eq_iff_iff.mpr ⟨isBlank_of_isGap, h⟩

theorem dropGaps_eq_trim {t : Text} (h : ∀ c ∈ t, isBlank c = true → isGap c = true) :
    dropEndWhile isGap (t.dropWhile isGap) = trim t := by
  have heq : ∀ c ∈ t, isGap c = isBlank c := fun c hc => isGap_eq_isBlank (h c hc)
  rw [dropWhile_congr heq, dropEndWhile_congr fun c hc => heq c (mem_of_mem_dropWhile hc)]
  rfl

theorem dropGaps_of_trim {t : Text} (h : trim t = t) :
    dropEndWhile isGap (t.dropWhile isGap) = t := by
  obtain ⟨hhead, hlast⟩ := trim_eq_self_iff.mp h
  have hgap {c : Char} (hc : isBlank c = false) : isGap c = false :=
    Bool.eq_false_iff.mpr fun hg => Bool.false_ne_true (hc.symm.trans (isBlank_of_isGap hg))
  have hstart : t.dropWhile isGap = t := by
    cases t with
    | nil => rfl
    | cons c t => rw [List.dropWhile_cons, hgap (hhead c rfl), if_neg Bool.false_ne_true]
  rw [hstart]
  refine List.rdropWhile_eq_self_iff.mpr fun hne => ?_
  rw [hgap (hlast _ (List.getLast?_eq_some_getLast hne))]
  exact Bool.false_ne_true

/-! ## Breaks cut off at the ends

Breaks are cut off up to the first character that is none, at the end of a text (`dropBreaks`), at
its start, or at both (`core`).  What stands before the last such character is kept
(`prefix_dropBreaks`), and so a text can be cut in front of one and each part looked at alone
(`dropBreaks_append`). -/

variable {s t : Text}

/-! ### At one end -/

theorem getLast?_dropBreaks_ne (t : Text) : (dropBreaks t).getLast? ≠ some '\n' := by
  induction t using List.reverseRecOn with
  | nil => exact Option.some_ne_none _ ∘ Eq.symm
  | append_singleton t c ih =>
      rw [dropBreaks, dropEndWhile_concat]
      split
      · exact ih
      · next hc =>
        rw [List.getLast?_concat]
        exact fun he => hc (beq_iff_eq.mpr (Option.some.inj he))

theorem head?_dropWhile_isBreak_ne (t : Text) : (t.dropWhile isBreak).head? ≠ some '\n' := by
  induction t with
  | nil => exact Option.some_ne_none _ ∘ Eq.symm
  | cons c t ih =>
      rw [List.dropWhile_cons]
      split
      · exact ih
      · next hc => exact fun he => hc (beq_iff_eq.mpr (Option.some.inj he))

theorem dropBreaks_eq_self (h : t.getLast? ≠ some '\n') : dropBreaks t = t := by
  refine List.rdropWhile_eq_self_iff.mpr fun hne hbreak => h ?_
  rw [List.getLast?_eq_some_getLast hne, beq_iff_eq.mp hbreak]

theorem dropWhile_isBreak_eq_self (h : t.head? ≠ some '\n') : t.dropWhile isBreak = t := by
  cases t with
  | nil => rfl
  | cons c t =>
      refine List.dropWhile_cons_of_neg fun hbreak => h ?_
      rw [List.head?_cons, beq_iff_eq.mp hbreak]

theorem prefix_dropBreaks (hs : s.getLast? ≠ some '\n') (t : Text) :
    s <+: dropBreaks (s ++ t) := by
  induction t using List.reverseRecOn with
  | nil =>
      have hself : dropBreaks (s ++ []) = s := by rw [List.append_nil, dropBreaks_eq_self hs]
      exact ⟨[], (List.append_nil s).trans hself.symm⟩
  | append_singleton t c ih =>
      rw [← List.append_assoc, dropBreaks, dropEndWhile_concat]
      split
      · exact ih
      · rw [List.append_assoc]
        exact List.prefix_append s _

theorem exists_cons_dropBreaks (h : t.head? ≠ some '\n') (hne : t ≠ []) :
    ∃ c u, dropBreaks t = c :: u ∧ c ≠ '\n' := by
  obtain ⟨c, t, rfl⟩ := List.exists_cons_of_ne_nil hne
  have hc : c ≠ '\n' := fun he => h (congrArg some he)
  have hlast : [c].getLast? ≠ some '\n' := fun he => hc (Option.some.inj he)
  obtain ⟨u, hu⟩ := prefix_dropBreaks hlast t
  exact ⟨c, u, hu.symm, hc⟩

theorem head?_dropBreaks_ne (h : t.head? ≠ some '\n') : (dropBreaks t).head? ≠ some '\n' := by
  by_cases hne : t = []
  · rw [hne]
    exact Option.some_ne_none _ ∘ Eq.symm
  · obtain ⟨c, u, hu, hc⟩ := exists_cons_dropBreaks h hne
    rw [hu]
    exact fun he => hc (Option.some.inj he)

theorem dropBreaks_append (h : t.head? ≠ some '\n') (hne : t ≠ []) (s : Text) :
    dropBreaks (s ++ t) = s ++ dropBreaks t := by
  refine dropEndWhile_append_of_ne_nil ?_ s
  obtain ⟨c, u, hu, -⟩ := exists_cons_dropBreaks h hne
  exact fun he => List.cons_ne_nil c u (hu.symm.trans he)

theorem dropWhile_isBreak_eq_nil_iff : t.dropWhile isBreak = [] ↔ ¬ ∃ c ∈ t, c ≠ '\n' := by
  simp only [List.dropWhile_eq_nil_iff, isBreak, beq_iff_eq, not_exists, not_and, ne_eq, not_not]

theorem dropBreaks_eq_nil_iff : dropBreaks t = [] ↔ ¬ ∃ c ∈ t, c ≠ '\n' := by
  rw [← dropWhile_isBreak_eq_nil_iff, List.dropWhile_eq_nil_iff]
  exact List.rdropWhile_eq_nil_iff

theorem dropBreaks_append_breaks (h : ¬ ∃ c ∈ t, c ≠ '\n') (s : Text) :
    dropBreaks (s ++ t) = dropBreaks s := by
  have hall : ∀ c ∈ t, isBreak c = true :=
    List.dropWhile_eq_nil_iff.mp (dropWhile_isBreak_eq_nil_iff.mpr h)
  exact dropEndWhile_append_of_pos hall s

/-- A text that ends with a break goes on to end with one where breaks before it are cut off, as
long as there is something left. -/
theorem dropWhile_isBreak_concat (t : Text) :
    (t ++ ['\n']).dropWhile isBreak = [] ∨ ∃ s, (t ++ ['\n']).dropWhile isBreak = s ++ ['\n'] := by
  rw [List.dropWhile_append]
  split
  · exact .inl rfl
  · exact .inr ⟨_, rfl⟩

/-! ### At both ends -/

/-- Without the breaks at either end. -/
def core (t : Text) : Text := dropBreaks (t.dropWhile isBreak)

theorem dropWhile_dropBreaks (t : Text) :
    (dropBreaks t).dropWhile isBreak = dropBreaks (t.dropWhile isBreak) := by
  have hsplit : t = t.takeWhile isBreak ++ t.dropWhile isBreak :=
    List.takeWhile_append_dropWhile.symm
  have htake : ∀ c ∈ t.takeWhile isBreak, isBreak c = true := fun c hc => List.mem_takeWhile_imp hc
  by_cases hd : t.dropWhile isBreak = []
  · have hbreaks : dropBreaks t = [] := by
      rw [hsplit, hd, List.append_nil]
      exact List.rdropWhile_eq_nil_iff.mpr htake
    rw [hbreaks, hd]
    rfl
  · have hhead := head?_dropWhile_isBreak_ne t
    have hcut : dropBreaks t = t.takeWhile isBreak ++ dropBreaks (t.dropWhile isBreak) := by
      nth_rewrite 1 [hsplit]
      exact dropBreaks_append hhead hd _
    rw [hcut, List.dropWhile_append_of_pos htake]
    exact dropWhile_isBreak_eq_self (head?_dropBreaks_ne hhead)

theorem core_dropBreaks (t : Text) : core (dropBreaks t) = core t := by
  rw [core, dropWhile_dropBreaks]
  exact List.rdropWhile_idempotent isBreak _

theorem core_dropWhile (t : Text) : core (t.dropWhile isBreak) = core t := by
  rw [core, dropWhile_isBreak_eq_self (head?_dropWhile_isBreak_ne t), core]

theorem core_eq_self (hhead : t.head? ≠ some '\n') (hlast : t.getLast? ≠ some '\n') :
    core t = t := by
  rw [core, dropWhile_isBreak_eq_self hhead, dropBreaks_eq_self hlast]

theorem trim_core (t : Text) : trim (core t) = trim t := by
  have htake : ∀ c ∈ t.takeWhile isBreak, isBlank c = true := fun c hc =>
    isBlank_of_isBreak (List.mem_takeWhile_imp hc)
  rw [core, dropBreaks, trim_dropEndWhile fun _ => isBlank_of_isBreak]
  conv_rhs => rw [← List.takeWhile_append_dropWhile (p := isBreak) (l := t)]
  rw [trim_blanks_append htake]

end Compendium.Text
