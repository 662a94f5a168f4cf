/-
# `Compendium.Proofs.Text.Pattern` — patterns, and which of their ways through a text is chosen

A pattern may be able to take something off the start of a text in many ways.  It lists them in the
order in which they are tried: a run of characters the longest way first (`most`) or the shortest
way first (`fewest`), and a part that may be missing first with the part (`maybe`).  One pattern
after another goes through all ways of the second for the first way of the first one, then for the
next.  The way that is chosen is the first one with which all that follows succeeds (`first`), and
where the whole text is to be taken, the first one that leaves nothing (`whole?`).

The laws of `first` take a pattern apart from its start.  Where what follows a run cannot begin
inside the run, there is nothing to choose (`first_most_of_stop`).  Otherwise the longest way is
chosen if anything comes of it (`first_most_of_some`), or the shortest one of which something does
(`first_fewest_eq_some`).
-/
import Compendium.Text.Basic

namespace Compendium

/-- The ways to take an `α` off the start of a text, the preferred ones first, each with what is
left. -/
def Pattern (α : Type) : Type := Text → List (α × Text)

namespace Pattern

variable {α β : Type}

instance : Monad Pattern where
  pure a := fun t => [(a, t)]
  bind q f := fun t => (q t).flatMap fun x => f x.1 x.2

/-- One character. -/
def one (p : Char → Bool) : Pattern Char
  | [] => []
  | c :: t => if p c then [(c, t)] else []

/-- Any number of characters, many rather than few. -/
def most (p : Char → Bool) : Pattern Text
  | [] => [([], [])]
  | c :: t => (if p c then (most p t).map fun x => (c :: x.1, x.2) else []) ++ [([], c :: t)]

/-- Any number of characters, few rather than many. -/
def fewest (p : Char → Bool) : Pattern Text
  | [] => [([], [])]
  | c :: t => ([], c :: t) :: if p c then (fewest p t).map fun x => (c :: x.1, x.2) else []

/-- One character or more, many rather than few. -/
def most1 (p : Char → Bool) : Pattern Text := do
  let c ← one p
  let s ← most p
  return c :: s

/-- What a pattern takes, or nothing if that fails. -/
def maybe (q : Pattern α) : Pattern (Option α) := fun t =>
  (q t).map (fun x => (some x.1, x.2)) ++ [(none, t)]

/-- What comes of the first way of which anything comes. -/
def first (q : Pattern α) (k : α → Text → Option β) (t : Text) : Option β :=
  (q t).findSome? fun x => k x.1 x.2

/-- What is taken in the first way that leaves nothing. -/
def whole? (q : Pattern α) (t : Text) : Option α :=
  q.first (fun a r => if r.isEmpty then some a else none) t

/-! ## One pattern after another -/

variable {p : Char → Bool} {q : Pattern α} {k : α → Text → Option β} {t : Text}

theorem first_pure (a : α) : (pure a : Pattern α).first k t = k a t :=
  List.findSome?_singleton

theorem first_bind {γ : Type} (q : Pattern γ) (f : γ → Pattern α) :
    (q >>= f).first k t = q.first (fun a r => (f a).first k r) t := by
  have hall (ways : List (γ × Text)) : (ways.flatMap fun x => f x.1 x.2).findSome?
      (fun x => k x.1 x.2) = ways.findSome? fun x => (f x.1).first k x.2 := by
    induction ways with
    | nil => rfl
    | cons x ways ih =>
        rw [List.flatMap_cons, List.findSome?_append, ih, List.findSome?_cons]
        show ((f x.1).first k x.2).or _ = _
        cases (f x.1).first k x.2 <;> rfl
  exact hall (q t)

theorem first_maybe {k : Option α → Text → Option β} :
    (maybe q).first k t = (q.first (fun a => k (some a)) t).or (k none t) := by
  rw [first, maybe, List.findSome?_append, List.findSome?_map, List.findSome?_singleton]
  rfl

theorem first_one_nil {k : Char → Text → Option β} : (one p).first k [] = none := rfl

theorem first_one_cons {k : Char → Text → Option β} (c : Char) (t : Text) :
    (one p).first k (c :: t) = if p c then k c t else none := by
  rw [first, one]
  split
  · exact List.findSome?_singleton
  · rfl

/-! ## Runs of characters -/

section Run

variable {k : Text → Text → Option β}

theorem first_most_nil : (most p).first k [] = k [] [] := List.findSome?_singleton

theorem first_fewest_nil : (fewest p).first k [] = k [] [] := List.findSome?_singleton

theorem first_most_cons (c : Char) (t : Text) :
    (most p).first k (c :: t) =
      (if p c then (most p).first (fun s => k (c :: s)) t else none).or (k [] (c :: t)) := by
  rw [first, most, List.findSome?_append, List.findSome?_singleton]
  split
  · rw [List.findSome?_map]
    rfl
  · rfl

theorem first_fewest_cons (c : Char) (t : Text) :
    (fewest p).first k (c :: t) =
      (k [] (c :: t)).or (if p c then (fewest p).first (fun s => k (c :: s)) t else none) := by
  rw [first, fewest, List.findSome?_cons]
  cases hk : k [] (c :: t) with
  | some b => rfl
  | none =>
      dsimp only
      rw [Option.none_or]
      split
      · rw [List.findSome?_map]
        rfl
      · rfl

theorem first_most1_nil : (most1 p).first k [] = none := rfl

theorem first_most1_cons (c : Char) (t : Text) :
    (most1 p).first k (c :: t) =
      if p c then (most p).first (fun s => k (c :: s)) t else none := by
  rw [most1, first_bind, first_one_cons]
  simp only [first_bind, first_pure]

/-- Where nothing comes of what follows unless the run is over, the whole run is taken. -/
theorem first_most_of_stop (h : ∀ s c r, p c = true → k s (c :: r) = none) :
    (most p).first k t = k (t.takeWhile p) (t.dropWhile p) := by
  induction t generalizing k with
  | nil => exact first_most_nil
  | cons c t ih =>
      rw [first_most_cons]
      cases hc : p c with
      | false =>
          rw [List.takeWhile_cons_of_neg (by simp [hc]), List.dropWhile_cons_of_neg (by simp [hc])]
          rfl
      | true =>
          rw [if_pos rfl, ih fun s d r => h (c :: s) d r, h [] c t hc, Option.or_none,
            List.takeWhile_cons_of_pos hc, List.dropWhile_cons_of_pos hc]

theorem first_most_of_some {b : β} (h : k (t.takeWhile p) (t.dropWhile p) = some b) :
    (most p).first k t = some b := by
  induction t generalizing k with
  | nil => exact first_most_nil.trans h
  | cons c t ih =>
      rw [first_most_cons]
      cases hc : p c with
      | false =>
          rw [List.takeWhile_cons_of_neg (by simp [hc]), List.dropWhile_cons_of_neg (by simp [hc])]
            at h
          exact h
      | true =>
          rw [List.takeWhile_cons_of_pos hc, List.dropWhile_cons_of_pos hc] at h
          rw [if_pos rfl, ih h, Option.some_or]

theorem first_most1_of_stop (h : ∀ s c r, p c = true → k s (c :: r) = none) :
    (most1 p).first k t =
      if t.takeWhile p = [] then none else k (t.takeWhile p) (t.dropWhile p) := by
  cases t with
  | nil => exact first_most1_nil
  | cons c t =>
      rw [first_most1_cons]
      cases hc : p c with
      | false => rw [List.takeWhile_cons_of_neg (by simp [hc]), if_neg nofun, if_pos rfl]
      | true =>
          rw [List.takeWhile_cons_of_pos hc, List.dropWhile_cons_of_pos hc, if_pos rfl,
            if_neg (List.cons_ne_nil _ _)]
          exact first_most_of_stop fun s => h (c :: s)

theorem first_most1_of_some {b : β} (h : k (t.takeWhile p) (t.dropWhile p) = some b) :
    (most1 p).first k t = if t.takeWhile p = [] then none else some b := by
  cases t with
  | nil => exact first_most1_nil
  | cons c t =>
      rw [first_most1_cons]
      cases hc : p c with
      | false => rw [List.takeWhile_cons_of_neg (by simp [hc]), if_neg nofun, if_pos rfl]
      | true =>
          rw [List.takeWhile_cons_of_pos hc, List.dropWhile_cons_of_pos hc] at h
          rw [List.takeWhile_cons_of_pos hc, if_pos rfl, if_neg (List.cons_ne_nil _ _)]
          exact first_most_of_some h

theorem first_fewest_eq_some {s r : Text} {b : β} (hs : ∀ c ∈ s, p c = true) (h : k s r = some b)
    (hfirst : ∀ s' r', s' ++ r' = s ++ r → s'.length < s.length → k s' r' = none) :
    (fewest p).first k (s ++ r) = some b := by
  induction s generalizing k with
  | nil =>
      cases r with
      | nil => exact first_fewest_nil.trans h
      | cons c r => rw [List.nil_append, first_fewest_cons, h, Option.some_or]
  | cons c s ih =>
      obtain ⟨hc, hs⟩ := List.forall_mem_cons.mp hs
      have hnone : k [] (c :: (s ++ r)) = none := hfirst [] _ rfl (Nat.zero_lt_succ _)
      rw [List.cons_append, first_fewest_cons, hnone, Option.none_or, if_pos hc]
      refine ih hs h fun s' r' heq hlt => hfirst (c :: s') r' (congrArg (c :: ·) heq) ?_
      exact Nat.succ_lt_succ hlt

end Run

end Pattern
end Compendium
