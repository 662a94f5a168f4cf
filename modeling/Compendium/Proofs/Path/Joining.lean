/-
# `Compendium.Proofs.Path.Joining` — a path seen from a folder, and by itself

Apart from a root at the start, the steps of a path that count are its *moves*: names, and moves up.
To see a relative path from a folder is to fold its moves onto the steps of the folder
(`steps_canonical_join`).  Moves come down to some moves up and then some names, whatever they are
folded onto (`exists_ups_names`), and a move up takes back the name before it if there is one
(`foldl_fold_ups`).

So it is plain when a path takes the same steps from a folder as by itself: the folder goes up some
times and then down as often, and the path goes up that often (`steps_join_eq_iff`).  Most often
that is no time at all, where the folder is the one that the path is seen from anyway.
-/
import Compendium.Path.Canonical
import Mathlib.Data.List.Basic
import Mathlib.Data.List.Induction

namespace Compendium

namespace Step

/-- A step that leads from one folder to another: a move up or a name. -/
def IsMove (s : Step) : Prop := s = .up ∨ s.isName = true

theorem isMove_of_ofPiece? {piece : Text} {s : Step} (h : ofPiece? piece = some s) : s.IsMove := by
  simp only [ofPiece?] at h
  split at h
  · cases h
  · split at h
    · cases h
    · split at h
      · exact .inl (Option.some.inj h).symm
      · exact .inr (Option.some.inj h ▸ rfl)

theorem fold_name {s : Step} (h : s.isName = true) (kept : List Step) :
    fold kept s = s :: kept := by
  cases s with
  | name t => cases kept <;> rfl
  | _ => cases h

theorem fold_up_of_name {s : Step} (h : s.isName = true) (kept : List Step) :
    fold (s :: kept) .up = kept := by
  cases s with
  | name t => rfl
  | _ => cases h

theorem fold_up {kept : List Step} (h : ∀ s ∈ kept.head?, s.isName = false) :
    fold kept .up = .up :: kept := by
  cases kept with
  | nil => rfl
  | cons s kept =>
      cases s with
      | name t => exact absurd (h _ rfl) nofun
      | _ => rfl

theorem foldl_fold_ups {names kept : List Step} (hn : ∀ s ∈ names, s.isName = true)
    (hk : ∀ s ∈ kept.head?, s.isName = false) (k : Nat) :
    (List.replicate k .up).foldl fold (names ++ kept) =
      names.drop k ++ (List.replicate (k - names.length) .up ++ kept) := by
  induction k generalizing names kept with
  | zero => simp
  | succ k ih =>
      cases names with
      | nil =>
          rw [List.replicate_succ, List.foldl_cons, List.nil_append, fold_up hk]
          have hup : ∀ s ∈ (Step.up :: kept).head?, s.isName = false :=
            fun s hs => Option.some.inj hs ▸ rfl
          simpa [List.replicate_succ', Nat.sub_zero] using ih hn hup
      | cons s names =>
          obtain ⟨hs, hn⟩ := List.forall_mem_cons.mp hn
          rw [List.replicate_succ, List.foldl_cons, List.cons_append, fold_up_of_name hs, ih hn hk]
          simp

theorem append_names_inj {l l' names names' : List Step} (hl : ∀ s ∈ l, s.isName = false)
    (hl' : ∀ s ∈ l', s.isName = false) (hn : ∀ s ∈ names, s.isName = true)
    (hn' : ∀ s ∈ names', s.isName = true) (h : l ++ names = l' ++ names') :
    l = l' ∧ names = names' := by
  have hnil {m : List Step} (hm : ∀ s ∈ m, s.isName = false)
      (hm' : ∀ s ∈ m, s.isName = true) : m = [] :=
    List.eq_nil_iff_forall_not_mem.mpr fun s hs =>
      Bool.false_ne_true ((hm s hs).symm.trans (hm' s hs))
  rcases List.append_eq_append_iff.mp h with ⟨m, rfl, rfl⟩ | ⟨m, rfl, rfl⟩
  · obtain rfl := hnil (fun s hs => hl' s (List.mem_append_right _ hs))
      fun s hs => hn s (List.mem_append_left _ hs)
    exact ⟨(List.append_nil l).symm, rfl⟩
  · obtain rfl := hnil (fun s hs => hl s (List.mem_append_right _ hs))
      fun s hs => hn' s (List.mem_append_left _ hs)
    exact ⟨List.append_nil l', rfl⟩

/-- Nothing comes of moves up on what is kept exactly if they take back all names and what is kept
before these goes up as often as there are names. -/
theorem foldl_fold_ups_eq_iff {names kept : List Step} (hn : ∀ s ∈ names, s.isName = true)
    (hk : ∀ s ∈ kept.head?, s.isName = false) (k : Nat) :
    (List.replicate k .up).foldl fold (names ++ kept) = List.replicate k .up ↔
      kept = List.replicate names.length .up ∧ names.length ≤ k := by
  rw [foldl_fold_ups hn hk]
  constructor
  · intro h
    obtain ⟨hlen, hall⟩ := List.eq_replicate_iff.mp h
    have hdrop : names.drop k = [] := by
      refine List.eq_nil_iff_forall_not_mem.mpr fun s hs => ?_
      have hup := hall s (List.mem_append_left _ hs)
      have hname := hn s (List.mem_of_mem_drop hs)
      rw [hup] at hname
      cases hname
    have hle : names.length ≤ k := List.drop_eq_nil_iff.mp hdrop
    refine ⟨List.eq_replicate_iff.mpr ⟨?_, fun s hs => hall s (by simp [hs])⟩, hle⟩
    simp only [hdrop, List.nil_append, List.length_append, List.length_replicate] at hlen
    omega
  · rintro ⟨rfl, hle⟩
    rw [List.drop_eq_nil_iff.mpr hle, List.nil_append, List.replicate_append_replicate,
      Nat.sub_add_cancel hle]

theorem exists_ups_names {moves : List Step} (h : ∀ s ∈ moves, s.IsMove) :
    ∃ (k : Nat) (names : List Step), (∀ s ∈ names, s.isName = true) ∧
      ∀ kept,
        moves.foldl fold kept = names.reverse ++ (List.replicate k .up).foldl fold kept := by
  induction moves using List.reverseRecOn with
  | nil => exact ⟨0, [], nofun, fun kept => rfl⟩
  | append_singleton moves s ih =>
      obtain ⟨k, names, hn, hf⟩ := ih fun s hs => h s (List.mem_append_left _ hs)
      have hs : s.IsMove := h s (by simp)
      rcases hs with rfl | hs
      · rcases List.eq_nil_or_concat' names with rfl | ⟨names, n, rfl⟩
        · refine ⟨k + 1, [], nofun, fun kept => ?_⟩
          rw [List.foldl_append, hf, List.replicate_succ', List.foldl_append]
          rfl
        · refine ⟨k, names, fun s hs => hn s (by simp [hs]), fun kept => ?_⟩
          rw [List.foldl_append, hf, List.reverse_concat, List.cons_append, List.foldl_cons,
            fold_up_of_name (hn n (by simp)), List.foldl_nil]
      · refine ⟨k, names ++ [s], fun x hx => ?_, fun kept => ?_⟩
        · rcases List.mem_append.mp hx with hx | hx
          · exact hn x hx
          · rwa [List.mem_singleton.mp hx]
        · rw [List.foldl_append, hf, List.foldl_cons, List.foldl_nil, fold_name hs,
            List.reverse_concat, List.cons_append]

end Step

namespace Path

open Step

theorem splitOn_append_slash (s t : Text) :
    (s ++ '/' :: t).splitOn '/' = s.splitOn '/' ++ t.splitOn '/' :=
  List.splitOnP_append_cons s t (beq_self_eq_true _)

/-- The moves of a path: its names and moves up. -/
def moves (p : Path) : List Step := (p.text.splitOn '/').filterMap ofPiece?

theorem isMove_of_mem_moves {p : Path} {s : Step} (h : s ∈ p.moves) : s.IsMove := by
  obtain ⟨piece, -, hs⟩ := List.mem_filterMap.mp h
  exact isMove_of_ofPiece? hs

/-- What a path begins with: the root or nothing. -/
def origin (p : Path) : List Step := if p.isAbsolute then [.root] else []

theorem isName_of_mem_origin {p : Path} {s : Step} (h : s ∈ p.origin) : s.isName = false := by
  unfold origin at h
  split at h
  · rw [List.mem_singleton.mp h]
    rfl
  · cases h

/-- The steps of a path are what it begins with and its moves; a dot may come before these where it
is relative. -/
theorem steps_eq (p : Path) :
    p.steps = p.origin ++ p.moves ∨ p.isAbsolute = false ∧ p.steps = .here :: p.moves := by
  cases habs : p.isAbsolute with
  | true =>
      obtain ⟨t, ht⟩ := List.head?_eq_some_iff.mp (beq_iff_eq.mp habs)
      have hsplit : ('/' :: t).splitOn '/' = [] :: t.splitOn '/' := splitOn_append_slash [] t
      left
      simp only [steps, moves, origin, habs, ht, hsplit, if_pos]
      rfl
  | false =>
      rw [origin, habs, if_neg Bool.false_ne_true]
      simp only [steps]
      split
      · next t ht => simp [isAbsolute, ht] at habs
      · split
        · next rest hr =>
          refine .inr ⟨trivial, ?_⟩
          simp only [moves, hr]
          rfl
        · exact .inl rfl

theorem steps_canonical_eq (p : Path) :
    p.canonical.steps = (p.moves.foldl fold p.origin).reverse := by
  rw [steps_canonical, Step.canonical]
  refine congrArg List.reverse ?_
  rcases p.steps_eq with h | ⟨habs, h⟩
  · rw [h, List.foldl_append]
    refine congrArg (p.moves.foldl fold) ?_
    unfold origin
    split <;> rfl
  · -- a dot at the start is a step, but not one that is kept
    rw [h, List.foldl_cons, origin, habs, if_neg Bool.false_ne_true]
    rfl

theorem canonical_eq_iff_steps {p q : Path} :
    p.canonical = q.canonical ↔ p.canonical.steps = q.canonical.steps := by
  refine ⟨congrArg steps, fun h => ?_⟩
  rw [steps_canonical, steps_canonical] at h
  rw [canonical, canonical, h]

/-- Seen from a folder, the moves of a path come behind those of the folder. -/
theorem moves_join {p : Path} (h : p.isAbsolute = false) (dir : Path) :
    (dir.join p).moves = dir.moves ++ p.moves := by
  obtain ⟨d⟩ := dir
  simp only [join, h, if_neg Bool.false_ne_true, moves]
  rcases List.eq_nil_or_concat' d with rfl | ⟨d, c, rfl⟩
  · simp [ofPiece?]
  · split
    · next hc =>
      simp only [List.getLast?_concat, Option.all_some, beq_iff_eq] at hc
      subst hc
      simp [splitOn_append_slash, ofPiece?]
    · rw [splitOn_append_slash, List.filterMap_append]

theorem isAbsolute_join {p : Path} (h : p.isAbsolute = false) (dir : Path) :
    (dir.join p).isAbsolute = dir.isAbsolute := by
  obtain ⟨d⟩ := dir
  cases d with
  | nil => simpa [join, isAbsolute] using h
  | cons c d =>
      simp only [join, h, if_neg Bool.false_ne_true]
      split <;> rfl

theorem steps_canonical_join {p : Path} (h : p.isAbsolute = false) (dir : Path) :
    (dir.join p).canonical.steps = (p.moves.foldl fold dir.canonical.steps.reverse).reverse := by
  rw [steps_canonical_eq, steps_canonical_eq dir, origin, isAbsolute_join h, moves_join h,
    List.foldl_append, List.reverse_reverse, origin]

theorem exists_steps_canonical (p : Path) :
    ∃ (k : Nat) (names : List Step), (∀ s ∈ names, s.isName = true) ∧
      p.canonical.steps = p.origin ++ (List.replicate k .up ++ names) ∧
      ∀ kept,
        p.moves.foldl fold kept = names.reverse ++ (List.replicate k .up).foldl fold kept := by
  obtain ⟨k, names, hn, hf⟩ := exists_ups_names fun s hs => isMove_of_mem_moves (p := p) hs
  refine ⟨k, names, hn, ?_, hf⟩
  have hnone : ∀ s ∈ ([] : List Step), s.isName = true := nofun
  have hups := foldl_fold_ups hnone
    (fun s hs => isName_of_mem_origin (p := p) (List.mem_of_mem_head? hs)) k
  rw [List.nil_append] at hups
  have hrev : p.origin.reverse = p.origin := by
    unfold origin
    split <;> rfl
  rw [steps_canonical_eq, hf, hups]
  simp [hrev]

/-- A path takes the same steps from a folder as by itself exactly if the folder goes up some times
and then down as often, and the path itself goes up that often. -/
theorem steps_join_eq_iff {p : Path} (h : p.isAbsolute = false) (dir : Path) :
    (dir.join p).canonical.steps = p.canonical.steps ↔
      ∃ names, (∀ s ∈ names, s.isName = true) ∧
        dir.canonical.steps = List.replicate names.length .up ++ names ∧
        List.replicate names.length .up <+: p.canonical.steps := by
  obtain ⟨k, names, hn, hp, hf⟩ := exists_steps_canonical p
  obtain ⟨a, folders, hd, hdir, -⟩ := exists_steps_canonical dir
  have horigin : p.origin = [] := by simp [origin, h]
  rw [horigin, List.nil_append] at hp
  rw [steps_canonical_join h, hp, hf, List.reverse_append, List.reverse_reverse,
    List.append_left_inj, hdir]
  have hbefore : ∀ s ∈ dir.origin ++ List.replicate a Step.up, s.isName = false := by
    intro s hs
    rcases List.mem_append.mp hs with hs | hs
    · exact isName_of_mem_origin hs
    · rw [List.eq_of_mem_replicate hs]
      rfl
  rw [List.reverse_eq_iff, List.reverse_replicate, ← List.append_assoc, List.reverse_append,
    foldl_fold_ups_eq_iff (fun s hs => hd s (List.mem_reverse.mp hs))
      (fun s hs => hbefore s (List.mem_reverse.mp (List.mem_of_mem_head? hs))),
    List.reverse_eq_iff, List.reverse_replicate, List.length_reverse]
  constructor
  · rintro ⟨hup, hle⟩
    refine ⟨folders, hd, by rw [hup], ?_⟩
    rw [← Nat.add_sub_cancel' hle, List.replicate_add, List.append_assoc]
    exact List.prefix_append _ _
  · rintro ⟨names', hn', heq, hprefix⟩
    obtain ⟨hup, rfl⟩ := append_names_inj hbefore
      (fun s hs => List.eq_of_mem_replicate hs ▸ rfl) hd hn' heq
    refine ⟨hup, ?_⟩
    have hcount := hprefix.sublist.count_le Step.up
    have hnone : names.count Step.up = 0 := List.count_eq_zero.mpr fun h => nomatch hn _ h
    rwa [List.count_append, List.count_replicate_self, List.count_replicate_self, hnone,
      Nat.add_zero] at hcount

end Path
end Compendium
