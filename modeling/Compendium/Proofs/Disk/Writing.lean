/-
# `Compendium.Proofs.Disk.Writing` — what remains and what is new after writing

To make folders adds folders where there was nothing, and that is all, also where not all of them
can be made (`OnlyFolders`).  To write a
file changes the file that the path leads to, and that is all (`Wrote`).  Neither takes a folder
away, so a path that led somewhere leads there still (`Keeps.locate`).

A path may come to lead somewhere only because folders were made.  What it leads to then is new,
since what exists lies in folders that exist, unless the path goes up
(`OnlyFolders.item?_eq_none`): it may then have been barred by a missing folder that it only passes
through.
-/
import Compendium.Store
import Mathlib.Data.List.Induction
import Mathlib.Tactic.SplitIfs

namespace Compendium.Disk

variable {d d' d'' : Disk} {p : Path} {l l' : Location}

def fileAt? (d : Disk) (l : Location) : Option Content :=
  match d.item? l with
  | some (.file c) => some c
  | _ => none

/-! ## Following a path -/

theorem item?_of_follow_cons {piece : Text} {rest : List Text}
    (h : d.follow l (piece :: rest) = .ok l') : d.item? l = some .folder := by
  simp only [follow] at h
  split at h
  · cases h
  · cases h
  · assumption

/-- A piece is taken at a folder: it stays there, goes up, or goes down. -/
theorem follow_cons (h : d.item? l = some .folder) (piece : Text) (rest : List Text) :
    d.follow l (piece :: rest) =
      if Path.isIdle piece then d.follow l rest
      else if piece = ['.', '.'] then d.follow l.dropLast rest
      else if maxName < Text.size piece then .error .barred
      else d.follow (l ++ [piece]) rest := by
  simp only [follow, h]

theorem follow_append (d : Disk) (l : Location) (ps qs : List Text) :
    d.follow l (ps ++ qs) = (d.follow l ps).bind (d.follow · qs) := by
  induction ps generalizing l with
  | nil => rfl
  | cons piece ps ih =>
      simp only [List.cons_append, follow]
      split
      · rfl
      · rfl
      · split_ifs
        · exact ih l
        · exact ih l.dropLast
        · rfl
        · exact ih (l ++ [piece])

/-- All folders are there still, and paths are seen from the same one. -/
structure Keeps (d d' : Disk) : Prop where
  workingFolder : d'.workingFolder = d.workingFolder
  folder : ∀ l, d.item? l = some .folder → d'.item? l = some .folder

theorem Keeps.follow (h : Keeps d d') {ps : List Text} (hf : d.follow l ps = .ok l') :
    d'.follow l ps = .ok l' := by
  induction ps generalizing l with
  | nil => exact hf
  | cons piece ps ih =>
      have hl := item?_of_follow_cons hf
      rw [follow_cons hl] at hf
      rw [follow_cons (h.folder l hl)]
      split_ifs at hf ⊢
      all_goals exact ih hf

theorem start_eq (h : d'.workingFolder = d.workingFolder) (p : Path) : d'.start p = d.start p := by
  simp only [start, h]

theorem Keeps.locate (h : Keeps d d') (hl : d.locate p = .ok l) : d'.locate p = .ok l := by
  simp only [Disk.locate, start_eq h.workingFolder] at hl ⊢
  split_ifs at hl ⊢
  exact h.follow hl

theorem holds_eq_true_iff : d.holds p = true ↔ ∃ l, d.locate p = .ok l ∧ (d.item? l).isSome := by
  simp only [holds, find]
  cases d.locate p with
  | error e => simp
  | ok l => cases h : d.item? l <;> simp [h]

theorem item?_eq_none_of_holds (hp : d.holds p = false) (hl : d.locate p = .ok l) :
    d.item? l = none :=
  Option.not_isSome_iff_eq_none.mp fun hs =>
    Bool.eq_false_iff.mp hp (holds_eq_true_iff.mpr ⟨l, hl, hs⟩)

theorem start_ne_nil (d : Disk) (p : Path) : (d.start p).2 ≠ [] := by
  simp only [start]
  split <;> exact List.splitOn_ne_nil _ _

theorem target_eq_ok {name : Text} (h : d.target p = .ok (l, name)) :
    (¬ p.isEmpty ∧ isUsable p) ∧ d.follow (d.start p).1 (d.start p).2.dropLast = .ok l ∧
      d.item? l = some .folder ∧ (d.start p).2 = (d.start p).2.dropLast ++ [name] ∧
      ¬ maxName < Text.size name := by
  simp only [target] at h
  split at h
  · cases h
  · next hempty =>
    split at h
    · next husable =>
      split at h
      · cases h
      · next folder hfolder =>
        split at h
        · cases h
        · cases h
        · next hitem =>
          split at h
          · cases h
          · next hsize =>
            obtain ⟨rfl, hname⟩ := Prod.mk.inj (Except.ok.inj h)
            refine ⟨⟨hempty, husable⟩, hfolder, hitem, ?_, hname ▸ hsize⟩
            rw [← hname, List.getLast?_eq_some_getLast (start_ne_nil d p)]
            exact (List.dropLast_concat_getLast _).symm
    · cases h

theorem locate_of_target {name : Text} (h : d.target p = .ok (l, name)) (hn : isName name = true) :
    d.locate p = .ok (l ++ [name]) := by
  obtain ⟨⟨hempty, husable⟩, hfolder, hitem, hpieces, hsize⟩ := target_eq_ok h
  simp only [isName, Bool.and_eq_true, Bool.not_eq_true', bne_iff_ne] at hn
  rw [locate, if_neg hempty, if_pos husable, hpieces, follow_append, hfolder]
  simp [Except.bind, follow, hitem, hn.1, hn.2, hsize]

/-! ## What changes on a disk -/

theorem item?_of_above (h : l <+: d.workingFolder) : d.item? l = some .folder := by
  rw [item?, if_pos (List.isPrefixOf_iff_prefix.mpr h)]

theorem item?_of_not_above (h : ¬ l <+: d.workingFolder) :
    d.item? l = (d.items.find? (·.1 = l)).map Prod.snd := by
  rw [item?, if_neg (List.isPrefixOf_iff_prefix.mp.mt h)]

theorem item?_set (h : d.item? l ≠ some .folder) (i : Item) (l' : Location) :
    (d.set l i).item? l' = if l' = l then some i else d.item? l' := by
  have hl : ¬ l <+: (d.set l i).workingFolder := fun hp => h (item?_of_above hp)
  split
  · next heq =>
    subst heq
    rw [item?_of_not_above hl]
    simp [set]
  · next hne =>
    -- the items are not asked about the folders above the working folder
    by_cases hp : l' <+: d.workingFolder
    · rw [item?_of_above hp]
      exact item?_of_above hp
    · have hp' : ¬ l' <+: (d.set l i).workingFolder := hp
      rw [item?_of_not_above hp', item?_of_not_above hp]
      simp only [set]
      rw [List.find?_cons_of_neg (by simpa using Ne.symm hne), List.find?_filter]
      refine congrArg (fun P => Option.map Prod.snd (d.items.find? P)) (funext fun e => ?_)
      by_cases he : e.1 = l'
      · simp [he, hne]
      · simp [he]

/-- Folders may have been added where there was nothing, and that is all. -/
structure OnlyFolders (d d' : Disk) : Prop where
  workingFolder : d'.workingFolder = d.workingFolder
  item : ∀ l, d'.item? l = d.item? l ∨ d.item? l = none ∧ d'.item? l = some .folder

namespace OnlyFolders

theorem refl (d : Disk) : OnlyFolders d d := ⟨rfl, fun _ => .inl rfl⟩

theorem trans (h : OnlyFolders d d') (h' : OnlyFolders d' d'') : OnlyFolders d d'' := by
  refine ⟨h'.workingFolder.trans h.workingFolder, fun l => ?_⟩
  rcases h'.item l with hl' | ⟨hnone, hfolder⟩
  · rw [hl']
    exact h.item l
  · refine .inr ⟨?_, hfolder⟩
    rcases h.item l with hl | ⟨hl, -⟩
    · rw [← hl, hnone]
    · exact hl

theorem item?_eq (h : OnlyFolders d d') (hl : (d.item? l).isSome) : d'.item? l = d.item? l := by
  rcases h.item l with heq | ⟨hnone, -⟩
  · exact heq
  · rw [hnone] at hl
    cases hl

theorem fileAt?_eq (h : OnlyFolders d d') (l : Location) : d'.fileAt? l = d.fileAt? l := by
  rcases h.item l with heq | ⟨hnone, hfolder⟩
  · rw [fileAt?, heq, fileAt?]
  · rw [fileAt?, hfolder, fileAt?, hnone]

theorem of_makeFolder (h : d.makeFolder p = .ok d') : OnlyFolders d d' := by
  simp only [makeFolder] at h
  split at h
  · cases h
  · split at h
    · split at h
      · cases h
      · next hnone =>
        obtain rfl := Except.ok.inj h
        refine ⟨rfl, fun l => ?_⟩
        rw [item?_set (by rw [hnone]; nofun)]
        split
        · next heq => exact .inr ⟨heq ▸ hnone, rfl⟩
        · exact .inl rfl
    · cases h

/-- An attempt to make a folder with those above it adds folders, whatever comes of it, by induction
on how often to go up. -/
theorem of_tryFolders (d : Disk) (most : Nat) (p : Path) :
    OnlyFolders d (d.tryFolders most p).2 := by
  induction most generalizing p with
  | zero => exact refl d
  | succ most ih =>
      simp only [tryFolders]
      split
      · exact refl d
      · split
        · next hmake => exact of_makeFolder hmake
        · exact refl d
        · -- a folder above is missing and is made first
          split
          · exact refl d
          · next above _ =>
            have habove := ih above
            split
            · next d₁ hfailed => rwa [hfailed] at habove
            · next d₁ hmade =>
              rw [hmade] at habove
              split
              · next hmake => exact habove.trans (of_makeFolder hmake)
              · exact habove

theorem of_withFolders (d : Disk) (p : Path) : OnlyFolders d (d.withFolders p) :=
  of_tryFolders d _ p

theorem of_makeFolders? (h : d.makeFolders? p = some d') : OnlyFolders d d' := by
  simp only [makeFolders?] at h
  split at h
  · exact Option.some.inj h ▸ of_withFolders d p
  · cases h

end OnlyFolders

/-- A text has been written to a path that leads to a location, and no other file has changed. -/
structure Wrote (d d' : Disk) (p : Path) (t : Text) (l : Location) : Prop where
  locate : d'.locate p = .ok l
  file : d'.fileAt? l = some (.text t)
  others : ∀ l', l' ≠ l → d'.fileAt? l' = d.fileAt? l'

theorem Wrote.read {t : Text} (h : Wrote d d' p t l) : d'.read p = .ok t := by
  have hitem : d'.item? l = some (.file (.text t)) := by
    have hfile := h.file
    simp only [fileAt?] at hfile
    split at hfile
    · next hl => rw [hl, Option.some.inj hfile]
    · cases hfile
  simp only [Disk.read, find, h.locate, hitem]

theorem wrote_of_write? {t : Text} (h : d.write? p t = some d') :
    ∃ l, d.locate p = .ok l ∧ Wrote d d' p t l := by
  simp only [write?] at h
  split at h
  · cases h
  · next folder name htarget =>
    split at h
    · next hname =>
      split at h
      · cases h
      · next hitem =>
        obtain rfl := Option.some.inj h
        have hlocate := locate_of_target htarget hname
        have hset := item?_set hitem (.file (.text t))
        have hkeeps : Keeps d (d.set (folder ++ [name]) (.file (.text t))) := by
          refine ⟨rfl, fun l hl => ?_⟩
          rw [hset, if_neg, hl]
          rintro rfl
          exact hitem hl
        refine ⟨folder ++ [name], hlocate, hkeeps.locate hlocate, ?_, fun l hl => ?_⟩
        · rw [fileAt?, hset, if_pos rfl]
        · rw [fileAt?, hset, if_neg hl, fileAt?]
    · cases h

/-! ## Trees -/

/-- Whatever there is lies in a folder. -/
def IsTree (d : Disk) : Prop := ∀ l name, (d.item? (l ++ [name])).isSome → d.item? l = some .folder

theorem isTree_of_items (h : ∀ e ∈ d.items, d.item? e.1.dropLast = some .folder) : d.IsTree := by
  intro l name hs
  by_cases hp : l ++ [name] <+: d.workingFolder
  · exact item?_of_above ((List.prefix_append l [name]).trans hp)
  · rw [item?_of_not_above hp, Option.isSome_map] at hs
    obtain ⟨e, he⟩ := Option.isSome_iff_exists.mp hs
    have hl := List.find?_some he
    rw [decide_eq_true_eq] at hl
    simpa [hl] using h e (List.mem_of_find?_eq_some he)

theorem IsTree.isSome_above (hd : d.IsTree) (h : l <+: l') (hs : (d.item? l').isSome) :
    (d.item? l).isSome := by
  obtain ⟨names, rfl⟩ := h
  induction names using List.reverseRecOn with
  | nil => rwa [List.append_nil] at hs
  | append_singleton names name ih =>
      rw [← List.append_assoc] at hs
      exact ih (by rw [hd _ _ hs]; rfl)

theorem prefix_of_follow {ps : List Text} (hup : ['.', '.'] ∉ ps) (h : d.follow l ps = .ok l') :
    l <+: l' := by
  induction ps generalizing l with
  | nil => exact Except.ok.inj h ▸ List.prefix_rfl
  | cons piece ps ih =>
      rw [List.mem_cons, not_or] at hup
      rw [follow_cons (item?_of_follow_cons h), if_neg (Ne.symm hup.1)] at h
      split_ifs at h
      · exact ih hup.2 h
      · exact (List.prefix_append l [piece]).trans (ih hup.2 h)

/-- A path without a move up that leads to something needs no folder that has been added. -/
theorem OnlyFolders.follow_before (h : OnlyFolders d d') (hd : d.IsTree) {ps : List Text}
    (hup : ['.', '.'] ∉ ps) (hs : (d.item? l').isSome) (hf : d'.follow l ps = .ok l') :
    d.follow l ps = .ok l' := by
  induction ps generalizing l with
  | nil => exact hf
  | cons piece ps ih =>
      have hl' := item?_of_follow_cons hf
      -- what is at `l` is on the way to `l'`, so it was there before, and it is a folder now
      have hl : d.item? l = some .folder := by
        rw [← h.item?_eq (hd.isSome_above (prefix_of_follow hup hf) hs), hl']
      rw [List.mem_cons, not_or] at hup
      rw [follow_cons hl', if_neg (Ne.symm hup.1)] at hf
      rw [follow_cons hl, if_neg (Ne.symm hup.1)]
      split_ifs at hf ⊢
      all_goals exact ih hup.2 hf

theorem up_mem_steps (d : Disk) (p : Path) (h : ['.', '.'] ∈ (d.start p).2) :
    Step.up ∈ p.steps := by
  have hpiece {ps : List Text} (hps : ['.', '.'] ∈ ps) : Step.up ∈ ps.filterMap Step.ofPiece? :=
    List.mem_filterMap.mpr ⟨_, hps, rfl⟩
  simp only [start] at h
  simp only [Path.steps]
  split
  · next t heq =>
    simp only [heq] at h
    exact List.mem_cons_of_mem _ (hpiece h)
  · next hslash =>
    have h : ['.', '.'] ∈ p.text.splitOn '/' := by
      split at h
      · next heq => exact absurd heq (hslash _)
      · exact h
    split
    · next heq =>
      rw [heq] at h
      exact List.mem_cons_of_mem _ (hpiece ((List.mem_cons.mp h).resolve_left nofun))
    · exact hpiece h

/-- Where a path leads to that led to nothing before folders were added, there is nothing, unless
the path goes up. -/
theorem OnlyFolders.item?_eq_none (h : OnlyFolders d d') (hd : d.IsTree) (hp : d.holds p = false)
    (hl : d'.locate p = .ok l) (hup : Step.up ∉ p.steps) : d.item? l = none := by
  by_contra hne
  have hs : (d.item? l).isSome := Option.isSome_iff_ne_none.mpr hne
  refine hne (item?_eq_none_of_holds hp ?_)
  simp only [locate, start_eq h.workingFolder] at hl ⊢
  split_ifs at hl ⊢
  exact h.follow_before hd (fun hmem => hup (up_mem_steps d p hmem)) hs hl

end Compendium.Disk
