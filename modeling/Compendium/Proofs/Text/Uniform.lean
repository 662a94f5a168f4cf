/-
# `Compendium.Proofs.Text.Uniform` — which texts are uniform, and how a text becomes so

Each of the three passes that make a text uniform takes one kind of character out, and leaves a text
alone that has none of it.  What the passes write is line feeds and spaces, so no pass brings back
what the one before it took out.  Hence a text is left alone exactly if it has no carriage returns
and no tabs (`uniform_eq_self_iff`).

Of the passes only the first looks further than one character, and it looks for a pair.  So a text
can be cut anywhere but within a pair and its parts made uniform one by one (`uniform_append`);
where a pair is cut, each part keeps a line feed of it (`uniform_append_of_pairAcross`).  Cutting
off the piece at the start again and again shows that the three passes do what a single one does
(`uniform_eq_sweep`): no break that one pass writes is taken by another for part of a pair.
-/
import Compendium.Text.Basic
import Mathlib.Data.List.Basic

namespace Compendium.Text

variable {s t : Text} {c : Char}

/-! ## What is taken out -/

theorem not_mem_breakReturns (t : Text) : '\r' ∉ breakReturns t := by
  intro hm
  obtain ⟨c, -, hc⟩ := List.mem_map.mp hm
  split at hc
  · exact absurd hc (by decide)
  · next hne => exact hne hc

theorem mem_expandTabs (hm : c ∈ expandTabs t) : c = ' ' ∨ c ∈ t ∧ c ≠ '\t' := by
  obtain ⟨d, hd, hm⟩ := List.mem_flatMap.mp hm
  split at hm
  · exact .inl (List.eq_of_mem_replicate hm)
  · next hne =>
    obtain rfl := List.mem_singleton.mp hm
    exact .inr ⟨hd, hne⟩

theorem not_mem_uniform (t : Text) : '\r' ∉ uniform t := by
  intro hm
  rcases mem_expandTabs hm with he | ⟨hm, -⟩
  · exact absurd he (by decide)
  · exact not_mem_breakReturns _ hm

theorem tab_not_mem_uniform (t : Text) : '\t' ∉ uniform t := by
  intro hm
  rcases mem_expandTabs hm with he | ⟨-, hne⟩
  · exact absurd he (by decide)
  · exact hne rfl

/-! ## What is left alone -/

theorem joinPairs_eq_self (h : '\r' ∉ t) : joinPairs t = t := by
  fun_induction joinPairs t with
  | case1 => rfl
  | case2 t _ => exact absurd List.mem_cons_self h
  | case3 c t _ ih => rw [ih (List.not_mem_of_not_mem_cons h)]

theorem breakReturns_eq_self (h : '\r' ∉ t) : breakReturns t = t := by
  refine (List.map_congr_left fun c hc => if_neg ?_).trans (List.map_id t)
  rintro rfl
  exact h hc

theorem expandTabs_eq_self (h : '\t' ∉ t) : expandTabs t = t := by
  refine (List.flatMap_congr fun c hc => if_neg ?_).trans (List.flatMap_singleton' t)
  rintro rfl
  exact h hc

theorem uniform_eq_self_iff : uniform t = t ↔ '\r' ∉ t ∧ '\t' ∉ t := by
  constructor
  · intro h
    rw [← h]
    exact ⟨not_mem_uniform t, tab_not_mem_uniform t⟩
  · rintro ⟨hreturn, htab⟩
    rw [uniform, joinPairs_eq_self hreturn, breakReturns_eq_self hreturn, expandTabs_eq_self htab]

theorem uniform_uniform (t : Text) : uniform (uniform t) = uniform t :=
  uniform_eq_self_iff.mpr ⟨not_mem_uniform t, tab_not_mem_uniform t⟩

/-! ## Texts joined -/

/-- A pair stands across two texts: the one ends with its carriage return, and the other begins with
its line feed. -/
def PairAcross (s t : Text) : Prop := s.getLast? = some '\r' ∧ t.head? = some '\n'

theorem PairAcross.cons (h : PairAcross s t) (c : Char) : PairAcross (c :: s) t := by
  obtain ⟨hlast, hhead⟩ := h
  exact ⟨by rw [List.getLast?_cons, hlast]; rfl, hhead⟩

theorem joinPairs_cons (h : ¬ PairAcross [c] t) : joinPairs (c :: t) = c :: joinPairs t := by
  rw [joinPairs]
  rintro u rfl rfl
  exact h ⟨rfl, rfl⟩

theorem joinPairs_append (h : ¬ PairAcross s t) :
    joinPairs (s ++ t) = joinPairs s ++ joinPairs t := by
  fun_induction joinPairs s with
  | case1 => rfl
  | case2 s ih =>
      have hs : ¬ PairAcross s t := fun hp => h ((hp.cons '\n').cons '\r')
      rw [List.cons_append, List.cons_append, joinPairs, ih hs, List.cons_append]
  | case3 c s hpair ih =>
      have hs : ¬ PairAcross s t := fun hp => h (hp.cons c)
      -- a pair that `c` begins ends in `s`, or is the one across the texts
      have hc : ¬ PairAcross [c] (s ++ t) := by
        rintro ⟨hlast, hhead⟩
        obtain rfl : c = '\r' := Option.some.inj hlast
        cases s with
        | nil => exact h ⟨rfl, hhead⟩
        | cons d s =>
            obtain rfl : d = '\n' := Option.some.inj hhead
            exact hpair s rfl rfl
      rw [List.cons_append, joinPairs_cons hc, ih hs, List.cons_append]

/-- The parts of a text can be made uniform one by one, unless a pair is cut. -/
theorem uniform_append (h : ¬ PairAcross s t) : uniform (s ++ t) = uniform s ++ uniform t := by
  simp only [uniform, breakReturns, expandTabs, joinPairs_append h, List.map_append,
    List.flatMap_append]

/-- Where a pair is cut, the parts have two line feeds, and the whole has one. -/
theorem uniform_append_of_pairAcross (h : PairAcross s t) :
    ∃ u v, uniform s = u ++ ['\n'] ∧ uniform t = '\n' :: v ∧ uniform (s ++ t) = u ++ '\n' :: v := by
  obtain ⟨hlast, hhead⟩ := h
  obtain ⟨s, rfl⟩ := List.getLast?_eq_some_iff.mp hlast
  obtain ⟨t, rfl⟩ := List.head?_eq_some_iff.mp hhead
  have hbefore (u : Text) : ¬ PairAcross s ('\r' :: u) := by simp [PairAcross]
  have hpair : ¬ PairAcross ['\r', '\n'] t := by simp [PairAcross]
  have hbehind : ¬ PairAcross ['\n'] t := by simp [PairAcross]
  refine ⟨uniform s, uniform t, uniform_append (hbefore []), uniform_append hbehind, ?_⟩
  calc uniform (s ++ ['\r'] ++ '\n' :: t)
      = uniform (s ++ '\r' :: '\n' :: t) := by rw [List.append_assoc, List.singleton_append]
    _ = uniform s ++ uniform (['\r', '\n'] ++ t) := uniform_append (hbefore ('\n' :: t))
    _ = uniform s ++ '\n' :: uniform t := by rw [uniform_append hpair]; rfl

theorem uniform_append_iff : uniform (s ++ t) = uniform s ++ uniform t ↔ ¬ PairAcross s t := by
  refine ⟨fun h hp => ?_, uniform_append⟩
  obtain ⟨u, v, hs, ht, hst⟩ := uniform_append_of_pairAcross hp
  have hlen := congrArg List.length h
  simp only [hs, ht, hst, List.length_append, List.length_cons, List.length_nil] at hlen
  omega

/-! ## In a single pass -/

/-- One pass from left to right.  A pair is one line feed, a carriage return that is in no pair is a
line feed as well, a tab is four spaces, and all else stays. -/
def sweep : Text → Text
  | [] => []
  | '\r' :: '\n' :: t => '\n' :: sweep t
  | '\r' :: t => '\n' :: sweep t
  | '\t' :: t => ' ' :: ' ' :: ' ' :: ' ' :: sweep t
  | c :: t => c :: sweep t

theorem uniform_singleton (hreturn : c ≠ '\r') (htab : c ≠ '\t') : uniform [c] = [c] :=
  uniform_eq_self_iff.mpr
    ⟨mt List.mem_singleton.mp hreturn.symm, mt List.mem_singleton.mp htab.symm⟩

/-- By induction along the single pass: what it takes in one step is a part that can be made uniform
on its own. -/
theorem uniform_eq_sweep (t : Text) : uniform t = sweep t := by
  fun_induction sweep t with
  | case1 => rfl
  | case2 t ih =>
      have hcut : ¬ PairAcross ['\r', '\n'] t := by simp [PairAcross]
      rw [← ih]
      exact uniform_append hcut
  | case3 t hpair ih =>
      have hcut : ¬ PairAcross ['\r'] t := by
        rintro ⟨-, hhead⟩
        obtain ⟨u, rfl⟩ := List.head?_eq_some_iff.mp hhead
        exact hpair u rfl
      rw [← ih]
      exact uniform_append hcut
  | case4 t ih =>
      have hcut : ¬ PairAcross ['\t'] t := by simp [PairAcross]
      rw [← ih]
      exact uniform_append hcut
  | case5 c t _ hreturn htab ih =>
      have hcut : ¬ PairAcross [c] t := fun hp => hreturn (Option.some.inj hp.1)
      rw [← ih, ← List.singleton_append, uniform_append hcut, uniform_singleton hreturn htab]
      rfl

example : uniform "\r\r\n\n\ra\tb".toList = "\n\n\n\na    b".toList := by decide

/-- The three passes are one pass from left to right.  To run them again changes nothing, and they
can be run on the parts of a text exactly if no pair is cut. -/
theorem uniform_single_pass (s t : Text) :
    uniform t = sweep t ∧ uniform (uniform t) = uniform t ∧
      (uniform (s ++ t) = uniform s ++ uniform t ↔
        ¬ (s.getLast? = some '\r' ∧ t.head? = some '\n')) :=
  ⟨uniform_eq_sweep t, uniform_uniform t, uniform_append_iff⟩

end Compendium.Text
