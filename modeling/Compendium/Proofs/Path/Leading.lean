/-
# `Compendium.Proofs.Path.Leading` — where a path leads, and which canonical path leads there

In a tree of folders without links a step leads from one location to another: a name goes down, a
move up goes to the folder above, and the root has none above it but itself.  `Path.lead` follows
the steps of a path in this way, and it agrees with a disk wherever a path leads somewhere on it
(`lead_of_locate`).  It is not asked here whether the folders exist.

To drop a dot, or to take back a name before a move up, changes nothing about that
(`foldl_lead_fold`), so a path and its canonical path lead to one place from anywhere.

The converse is about two paths that lead to one place from anywhere.  Where both are relative, they
are told apart by a folder that lies deep enough, among names that neither of them has
(`eq_of_forall_lead`).  Where both are absolute, it makes no difference what they are seen from, and
moves up at the root are lost; without such moves a canonical path has nothing but names behind its
root (`exists_steps_canonical_of_grounded`).
-/
import Compendium.Proofs.Path.Joining
import Compendium.Store
import Mathlib.Data.Fintype.EquivFin
import Mathlib.Data.List.DropRight

namespace Compendium

/-! ## Following steps -/

namespace Step

/-- The location that a step leads to from another one. -/
def lead (l : Location) : Step → Location
  | .root => []
  | .here => l
  | .up => l.dropLast
  | .name t => l ++ [t]

/-- Whether the steps, taken from a location, make no move up at the root. -/
def staysBelow : Location → List Step → Bool
  | _, [] => true
  | l, s :: rest => (s != .up || !l.isEmpty) && staysBelow (lead l s) rest

/-- There is no dot, and no move up behind a name. -/
def Reduced (steps : List Step) : Prop :=
  .here ∉ steps ∧ steps.Pairwise fun s s' => s.isName = true → s' ≠ .up

/-- To add a step to canonical steps is to take it behind them. -/
theorem foldl_lead_fold (l : Location) (kept : List Step) (s : Step) :
    (fold kept s).reverse.foldl lead l = lead (kept.reverse.foldl lead l) s := by
  simp only [fold]
  split
  · rfl
  · simp only [List.reverse_cons, List.foldl_append, List.foldl_cons, List.foldl_nil, lead,
      List.dropLast_concat]
  · rw [List.reverse_cons, List.foldl_append]
    rfl

theorem foldl_lead_foldl_fold (l : Location) (kept steps : List Step) :
    (steps.foldl fold kept).reverse.foldl lead l =
      steps.foldl lead (kept.reverse.foldl lead l) := by
  induction steps generalizing kept with
  | nil => rfl
  | cons s steps ih => rw [List.foldl_cons, ih, foldl_lead_fold, List.foldl_cons]

theorem foldl_lead_ups (l : Location) (k : Nat) :
    (List.replicate k .up).foldl lead l = l.rdrop k := by
  induction k generalizing l with
  | zero => exact (List.rdrop_zero l).symm
  | succ k ih =>
      rw [List.replicate_succ, List.foldl_cons, ih, lead]
      rcases List.eq_nil_or_concat' l with rfl | ⟨l, t, rfl⟩
      · rw [List.dropLast_nil, List.rdrop_nil, List.rdrop_nil]
      · rw [List.dropLast_concat, List.rdrop_concat_succ]

theorem foldl_lead_names (l : Location) (ts : List Text) :
    (ts.map Step.name).foldl lead l = l ++ ts := by
  induction ts generalizing l with
  | nil => exact (List.append_nil l).symm
  | cons t ts ih => rw [List.map_cons, List.foldl_cons, ih, lead, List.append_assoc]; rfl

theorem exists_map_name {names : List Step} (h : ∀ s ∈ names, s.isName = true) :
    ∃ ts : List Text, names = ts.map Step.name := by
  induction names with
  | nil => exact ⟨[], rfl⟩
  | cons s names ih =>
      obtain ⟨hs, hn⟩ := List.forall_mem_cons.mp h
      obtain ⟨ts, rfl⟩ := ih hn
      cases s with
      | name t => exact ⟨t :: ts, rfl⟩
      | _ => cases hs

theorem exists_new_name (ts : List Text) : ∃ t, (name t).IsPiece ∧ t ∉ ts := by
  obtain ⟨n, hn⟩ := Infinite.exists_notMem_finset (ts.map fun t => t.length - 1).toFinset
  refine ⟨List.replicate (n + 1) 'a', ⟨?_, ?_, ?_⟩, fun hm => hn ?_⟩
  · intro hm
    exact absurd (List.eq_of_mem_replicate hm) (by decide)
  · exact List.cons_ne_nil _ _
  · rw [List.replicate_succ]
    rfl
  · rw [List.mem_toFinset, List.mem_map]
    exact ⟨_, hm, by rw [List.length_replicate, Nat.add_sub_cancel]⟩

/-- Moves up, and then names, are determined by where they lead from every folder. -/
theorem eq_of_forall_lead {k k' : Nat} {ts ts' : List Text}
    (h : ∀ start : Location, (∀ t ∈ start, (name t).IsPiece) →
      start.rdrop k ++ ts = start.rdrop k' ++ ts') : k = k' ∧ ts = ts' := by
  obtain ⟨t, hpiece, hnew⟩ := exists_new_name (ts ++ ts')
  rw [List.mem_append, not_or] at hnew
  have hstart := h (List.replicate (k + k') t) fun u hu => List.eq_of_mem_replicate hu ▸ hpiece
  have hrest : (List.replicate (k + k') t).rdrop k = List.replicate k' t ∧
      (List.replicate (k + k') t).rdrop k' = List.replicate k t := by
    simp [List.rdrop]
  rw [hrest.1, hrest.2] at hstart
  -- the new name stands where the path has left the folder as it was
  have hcount := congrArg (List.count t) hstart
  rw [List.count_append, List.count_append, List.count_replicate_self, List.count_replicate_self,
    List.count_eq_zero.mpr hnew.1, List.count_eq_zero.mpr hnew.2] at hcount
  obtain rfl : k = k' := hcount.symm
  exact ⟨rfl, List.append_cancel_left hstart⟩

theorem exists_foldl_fold_of_staysBelow {moves : List Step} (hm : ∀ s ∈ moves, s.IsMove)
    {ts : List Text} (h : staysBelow ts moves = true) :
    ∃ ts' : List Text, moves.foldl fold ((ts.map Step.name).reverse ++ [.root]) =
      (ts'.map Step.name).reverse ++ [.root] := by
  induction moves generalizing ts with
  | nil => exact ⟨ts, rfl⟩
  | cons s moves ih =>
      obtain ⟨hs, hmoves⟩ := List.forall_mem_cons.mp hm
      simp only [staysBelow, Bool.and_eq_true] at h
      obtain ⟨hroot, hrest⟩ := h
      rw [List.foldl_cons]
      cases s with
      | up =>
          -- the last name is taken back
          have hne : ts ≠ [] := by simpa using hroot
          obtain ⟨ts, t, rfl⟩ := (List.eq_nil_or_concat' ts).resolve_left hne
          rw [lead, List.dropLast_concat] at hrest
          rw [List.map_append, List.map_singleton, List.reverse_concat, List.cons_append,
            fold_up_of_name rfl]
          exact ih hmoves hrest
      | name t =>
          rw [fold_name rfl]
          rw [lead] at hrest
          have := ih hmoves hrest
          rwa [List.map_append, List.map_singleton, List.reverse_concat] at this
      | root => rcases hs with hs | hs <;> cases hs
      | here => rcases hs with hs | hs <;> cases hs

end Step

namespace Path

open Step

/-! ## Where a path leads -/

/-- The location that a path leads to from a folder. -/
def lead (p : Path) (start : Location) : Location := p.steps.foldl Step.lead start

/-- The path begins at the root, and does not go up there. -/
def Grounded (p : Path) : Prop := p.isAbsolute = true ∧ staysBelow [] p.steps = true

/-- A path leads to where its moves lead, from the root or from the folder that it is seen from. -/
theorem lead_eq (p : Path) (start : Location) :
    p.lead start = p.moves.foldl Step.lead (if p.isAbsolute then [] else start) := by
  rcases p.steps_eq with h | ⟨habs, h⟩
  · rw [lead, h, List.foldl_append, origin]
    split <;> rfl
  · rw [lead, h, habs, if_neg Bool.false_ne_true]
    rfl

theorem lead_canonical (p : Path) (start : Location) : p.canonical.lead start = p.lead start := by
  rw [lead, steps_canonical, Step.canonical, foldl_lead_foldl_fold]
  rfl

/-! ## Where a path leads on a disk -/

theorem foldl_lead_of_follow {d : Disk} {pieces : List Text} {l l' : Location}
    (h : d.follow l pieces = .ok l') : (pieces.filterMap ofPiece?).foldl Step.lead l = l' := by
  induction pieces generalizing l with
  | nil => exact Except.ok.inj h
  | cons piece pieces ih =>
      simp only [Disk.follow] at h
      split at h
      · cases h
      · cases h
      · split at h
        · next hidle =>
          have hnone : ofPiece? piece = none := by
            simp only [isIdle, Bool.or_eq_true, beq_iff_eq] at hidle
            rcases hidle with rfl | rfl
            · rfl
            · rfl
          rw [List.filterMap_cons_none hnone]
          exact ih h
        · next hidle =>
          simp only [isIdle, Bool.or_eq_true, beq_iff_eq, not_or] at hidle
          split at h
          · next hup =>
            subst hup
            exact ih h
          · next hup =>
            have hname : ofPiece? piece = some (.name piece) := by
              simp only [ofPiece?, if_neg hidle.1, if_neg hidle.2, if_neg hup]
            rw [List.filterMap_cons_some hname]
            split at h
            · cases h
            · exact ih h

theorem lead_eq_start (d : Disk) (p : Path) :
    p.lead d.workingFolder = ((d.start p).2.filterMap ofPiece?).foldl Step.lead (d.start p).1 := by
  rw [lead_eq, moves]
  cases habs : p.isAbsolute with
  | true =>
      rw [if_pos rfl]
      obtain ⟨t, ht⟩ := List.head?_eq_some_iff.mp (beq_iff_eq.mp habs)
      have hsplit : ('/' :: t).splitOn '/' = [] :: t.splitOn '/' := splitOn_append_slash [] t
      simp only [Disk.start, ht, hsplit]
      rfl
  | false =>
      rw [if_neg Bool.false_ne_true]
      simp only [Disk.start]
      split
      · next t ht => simp [isAbsolute, ht] at habs
      · rfl

/-- A path that leads somewhere on a disk leads where its steps lead. -/
theorem lead_of_locate {d : Disk} {p : Path} {l : Location} (h : d.locate p = .ok l) :
    p.lead d.workingFolder = l := by
  simp only [Disk.locate] at h
  split at h
  · cases h
  · split at h
    · rw [lead_eq_start, foldl_lead_of_follow h]
    · cases h

/-! ## The canonical form -/

theorem reduced_steps_canonical (p : Path) : Reduced p.canonical.steps := by
  obtain ⟨k, names, hn, hsteps, -⟩ := exists_steps_canonical p
  have hbefore : ∀ s ∈ p.origin ++ List.replicate k .up, s = .root ∨ s = .up := by
    intro s hs
    rcases List.mem_append.mp hs with hs | hs
    · unfold origin at hs
      split at hs
      · exact .inl (List.mem_singleton.mp hs)
      · cases hs
    · exact .inr (List.eq_of_mem_replicate hs)
  rw [hsteps, ← List.append_assoc]
  constructor
  · intro hs
    rcases List.mem_append.mp hs with hs | hs
    · rcases hbefore _ hs with h | h <;> cases h
    · cases hn _ hs
  · refine List.pairwise_append.mpr ⟨?_, ?_, fun s hs s' _ hname => ?_⟩
    · refine List.pairwise_of_forall_mem_list fun s hs s' _ hname => ?_
      rcases hbefore s hs with rfl | rfl <;> cases hname
    · refine List.pairwise_of_forall_mem_list fun s _ s' hs' _ hup => ?_
      rw [hup] at hs'
      cases hn _ hs'
    · rcases hbefore s hs with rfl | rfl <;> cases hname

theorem exists_steps_canonical_of_relative {p : Path} (h : p.isAbsolute = false) :
    ∃ (k : Nat) (ts : List Text),
      p.canonical.steps = List.replicate k .up ++ ts.map Step.name ∧
      ∀ start, p.lead start = start.rdrop k ++ ts := by
  obtain ⟨k, names, hn, hsteps, -⟩ := exists_steps_canonical p
  obtain ⟨ts, rfl⟩ := exists_map_name hn
  rw [origin, h, if_neg Bool.false_ne_true, List.nil_append] at hsteps
  refine ⟨k, ts, hsteps, fun start => ?_⟩
  rw [← lead_canonical, lead, hsteps, List.foldl_append, foldl_lead_ups, foldl_lead_names]

theorem exists_steps_canonical_of_grounded {p : Path} (h : p.Grounded) :
    ∃ ts : List Text, p.canonical.steps = .root :: ts.map Step.name ∧
      ∀ start, p.lead start = ts := by
  obtain ⟨habs, hbelow⟩ := h
  have hsteps : p.steps = .root :: p.moves := by
    rcases p.steps_eq with h | ⟨h, -⟩
    · rw [h, origin, habs, if_pos rfl, List.singleton_append]
    · rw [habs] at h
      cases h
  rw [hsteps] at hbelow
  have hmoves : staysBelow [] p.moves = true := hbelow
  obtain ⟨ts, hts⟩ := exists_foldl_fold_of_staysBelow
    (fun s hs => isMove_of_mem_moves (p := p) hs) hmoves
  have hcanonical : p.canonical.steps = .root :: ts.map Step.name := by
    rw [steps_canonical_eq, origin, habs, if_pos rfl]
    rw [List.map_nil, List.reverse_nil, List.nil_append] at hts
    rw [hts, List.reverse_append, List.reverse_reverse, List.reverse_singleton,
      List.singleton_append]
  refine ⟨ts, hcanonical, fun start => ?_⟩
  rw [← lead_canonical, lead, hcanonical, List.foldl_cons, foldl_lead_names]
  rfl

/-- The canonical path has no dot and no move up behind a name, is its own canonical path, and leads
where the path leads, from every folder.  Two relative paths, and two that begin at the root and do
not go up there, have one canonical path exactly if they lead to one place from every folder. -/
theorem canonical_form (p : Path) :
    Reduced p.canonical.steps ∧ p.canonical.canonical = p.canonical ∧
    (∀ start, p.canonical.lead start = p.lead start) ∧
    ∀ q : Path, (p.isAbsolute = false ∧ q.isAbsolute = false ∨ p.Grounded ∧ q.Grounded) →
      (p.canonical = q.canonical ↔
        ∀ start : Location, (∀ t ∈ start, (Step.name t).IsPiece) →
          p.lead start = q.lead start) := by
  refine ⟨p.reduced_steps_canonical, p.canonical_canonical, p.lead_canonical, fun q h => ?_⟩
  constructor
  · intro heq start _
    rw [← lead_canonical, heq, lead_canonical]
  · intro hlead
    rw [canonical_eq_iff_steps]
    rcases h with ⟨hp, hq⟩ | ⟨hp, hq⟩
    · obtain ⟨k, ts, hsteps, hstart⟩ := exists_steps_canonical_of_relative hp
      obtain ⟨k', ts', hsteps', hstart'⟩ := exists_steps_canonical_of_relative hq
      have hsame : ∀ start : Location, (∀ t ∈ start, (Step.name t).IsPiece) →
          start.rdrop k ++ ts = start.rdrop k' ++ ts' := fun start hs => by
        rw [← hstart, ← hstart', hlead start hs]
      obtain ⟨hk, hts⟩ := eq_of_forall_lead hsame
      rw [hsteps, hsteps', hk, hts]
    · obtain ⟨ts, hsteps, hstart⟩ := exists_steps_canonical_of_grounded hp
      obtain ⟨ts', hsteps', hstart'⟩ := exists_steps_canonical_of_grounded hq
      have hts : ts = ts' := by
        rw [← hstart [], ← hstart' [], hlead [] fun t ht => absurd ht List.not_mem_nil]
      rw [hsteps, hsteps', hts]

theorem canonical_form_two_spellings :
    let p : Path := ⟨"./a/../../docs//b/.".toList⟩
    let q : Path := ⟨"../docs/x/../b/".toList⟩
    let p' : Path := ⟨"//srv/./a/../b".toList⟩
    let q' : Path := ⟨"/c/../srv/b/".toList⟩
    (p.isAbsolute = false ∧ q.isAbsolute = false) ∧ (p'.Grounded ∧ q'.Grounded) ∧
    (p.canonical = q.canonical ↔
      ∀ start : Location, (∀ t ∈ start, (Step.name t).IsPiece) → p.lead start = q.lead start) ∧
    (p'.canonical = q'.canonical ↔
      ∀ start : Location, (∀ t ∈ start, (Step.name t).IsPiece) →
        p'.lead start = q'.lead start) := by
  intro p q p' q'
  have hrelative : p.isAbsolute = false ∧ q.isAbsolute = false := ⟨rfl, rfl⟩
  have hgrounded : p'.Grounded ∧ q'.Grounded :=
    ⟨⟨rfl, by decide +kernel⟩, ⟨rfl, by decide +kernel⟩⟩
  exact ⟨hrelative, hgrounded, (canonical_form p).2.2.2 q (.inl hrelative),
    (canonical_form p').2.2.2 q' (.inr hgrounded)⟩

end Path
end Compendium
