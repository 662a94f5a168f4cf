/-
# `Compendium.Proofs.Path.Root` — what the root token stands for

A path that is written with the root token stands for the root folder with the rest behind it
(`ofWritten_rootToken`).  The settings take this path as it is.  A directive takes it as seen from
the folder of the root document, and that is the same only where the root folder is absolute, or
where seeing a path from that folder makes no difference to it (`target_rootToken_iff`).  So the
token can name one file in the settings and another in a document (`target_rootToken_apart`).

The path that the token stands for and the root folder agree on the moves, for slashes at the end of
a folder lead nowhere (`moves_dropSlashes`).  They agree on where a path begins unless nothing is
written for the root folder: then the slash between makes the root of it
(`steps_ofWritten_append_iff`).
-/
import Compendium.Proofs.Path.Joining
import Compendium.Proofs.Text.Trim
import Compendium.Settings.Basic

namespace Compendium

namespace Path

open Text

theorem dropSlashes_append {t : Text} (h : t.any (· != '/') = true) (s : Text) :
    dropSlashes (s ++ t) = s ++ dropSlashes t := by
  have hne : (t.reverse.dropWhile (· == '/')).isEmpty = false := by
    rw [Bool.eq_false_iff, ne_eq, List.isEmpty_iff, List.dropWhile_eq_nil_iff]
    intro hall
    obtain ⟨c, hc, hslash⟩ := List.any_eq_true.mp h
    exact absurd (hall c (List.mem_reverse.mpr hc)) (by simpa using hslash)
  simp only [dropSlashes, dropEndWhile, List.reverse_append, List.dropWhile_append, hne,
    if_neg Bool.false_ne_true, List.reverse_reverse]

theorem afterRootToken?_append {token : Text} (h : lower token = lower rootToken) (t : Text) :
    afterRootToken? (token ++ t) = some t := by
  have hlen : rootToken.length = token.length := by
    simpa only [lower, List.length_map] using (congrArg List.length h).symm
  simp only [afterRootToken?, hlen, List.take_left, List.drop_left, h, if_pos]

theorem toLower_of_isBlank {c : Char} (h : isBlank c = true) : c.toLower = c := by
  refine dif_neg fun hupper => ?_
  have hge : 65 ≤ c.toNat := hupper.1
  have hle : c.toNat ≤ 90 := hupper.2
  simp only [isBlank, Bool.or_eq_true, Bool.and_eq_true, decide_eq_true_eq, beq_iff_eq] at h
  omega

theorem isBlank_of_lower_rootToken {token : Text} (h : lower token = lower rootToken) {c : Char}
    (hc : token.head? = some c) : isBlank c = false := by
  obtain ⟨t, rfl⟩ := List.head?_eq_some_iff.mp hc
  have hlower : c.toLower = '$' := (List.cons.inj h).1
  rw [Bool.eq_false_iff]
  intro hb
  rw [toLower_of_isBlank hb] at hlower
  subst hlower
  cases hb

/-- Behind the root token, a relative path is put behind the root folder. -/
theorem ofWritten_append (root : Path) {token r : Text} (ht : lower token = lower rootToken)
    (hr : r ≠ []) (hrel : r.head? ≠ some '/') (hb : ∀ c, r.getLast? = some c → isBlank c = false) :
    ofWritten root (token ++ r) = ⟨dropSlashes root.text ++ '/' :: dropSlashes r⟩ := by
  have hne : token ≠ [] := by
    rintro rfl
    cases ht
  have htrim : trim (token ++ r) = token ++ r := by
    refine trim_eq_self_iff.mpr ⟨fun c hc => ?_, fun c hc => ?_⟩
    · rw [List.head?_append_of_ne_nil _ hne] at hc
      exact isBlank_of_lower_rootToken ht hc
    · rw [List.getLast?_append_of_ne_nil _ hr] at hc
      exact hb c hc
  have hany : r.any (· != '/') = true := by
    obtain ⟨c, r, rfl⟩ := List.exists_cons_of_ne_nil hr
    have hc : c ≠ '/' := fun h => hrel (h ▸ rfl)
    simp [hc]
  simp only [ofWritten, htrim, dropSlashes_append hany, afterRootToken?_append ht]

theorem ofWritten_rootToken (root : Path) {r : Text} (hr : r ≠ []) (hrel : r.head? ≠ some '/')
    (hb : ∀ c ∈ r, isBlank c = false) :
    ofWritten root (rootToken ++ r) = ⟨dropSlashes root.text ++ '/' :: dropSlashes r⟩ :=
  ofWritten_append root rfl hr hrel fun c hc => hb c (List.mem_of_getLast? hc)

theorem isAbsolute_behind (root : Path) (t : Text) :
    isAbsolute ⟨dropSlashes root.text ++ '/' :: t⟩ = (root.isEmpty || root.isAbsolute) := by
  obtain ⟨u⟩ := root
  obtain ⟨v, hv⟩ := List.rdropWhile_prefix (· == '/') u
  change dropSlashes u ++ v = u at hv
  cases hd : dropSlashes u with
  | nil =>
      have hall : ∀ c ∈ u, (c == '/') = true := List.rdropWhile_eq_nil_iff.mp hd
      cases u with
      | nil => rfl
      | cons c u => simp [isAbsolute, beq_iff_eq.mp (hall c List.mem_cons_self)]
  | cons c w =>
      rw [hd] at hv
      simp [isAbsolute, isEmpty, ← hv]

end Path

namespace Settings

open Compendium.Path

/-- The target of a directive behind the root token takes the same steps as the path that the
settings make of it exactly if the root folder is absolute or empty, or the folder of the root
document goes up some times and down as often, and that path goes up as often. -/
theorem target_rootToken_iff (s : Settings) (home input : Path) (label : Text) {r : Text}
    (hr : r ≠ []) (hrel : r.head? ≠ some '/') (hb : ∀ c ∈ r, isBlank c = false) :
    ∃ q, { s with input := some ⟨rootToken ++ r⟩ }.inputPath? home = some q ∧
      (((s.options home).target (Store.baseFolder input) ⟨label, rootToken ++ r⟩).steps =
          q.canonical.steps ↔
        (s.rootFolder home).isEmpty = true ∨ (s.rootFolder home).isAbsolute = true ∨
          ∃ names, (∀ step ∈ names, step.isName = true) ∧
            (Store.baseFolder input).canonical.steps =
              List.replicate names.length .up ++ names ∧
            List.replicate names.length .up <+: q.canonical.steps) := by
  have habs : (ofWritten (s.rootFolder home) (rootToken ++ r)).isAbsolute =
      ((s.rootFolder home).isEmpty || (s.rootFolder home).isAbsolute) := by
    rw [ofWritten_rootToken _ hr hrel hb, isAbsolute_behind]
  refine ⟨ofWritten (s.rootFolder home) (rootToken ++ r), rfl, ?_⟩
  change ((Store.baseFolder input).join
    (ofWritten (s.rootFolder home) (rootToken ++ r))).canonical.steps = _ ↔ _
  cases hroot : (s.rootFolder home).isEmpty || (s.rootFolder home).isAbsolute with
  | true =>
      rw [hroot] at habs
      rw [join, if_pos habs, ← or_assoc, ← Bool.or_eq_true, hroot]
      exact iff_of_true rfl (.inl rfl)
  | false =>
      rw [hroot] at habs
      rw [steps_join_eq_iff habs, ← or_assoc, ← Bool.or_eq_true, hroot]
      exact (or_iff_right Bool.false_ne_true).symm

theorem target_rootToken_beside :
    let s : Settings := { Settings.blank with root := some ⟨"../parts/".toList⟩ }
    let input : Path := ⟨"../docs/index.md".toList⟩
    let r : Text := "a.md".toList
    ∃ q, { s with input := some ⟨rootToken ++ r⟩ }.inputPath? .empty = some q ∧
      ((s.options .empty).target (Store.baseFolder input) ⟨"a".toList, rootToken ++ r⟩).steps =
        q.canonical.steps := by
  intro s input r
  have hall : r.all (!isBlank ·) = true := by decide
  have hb : ∀ c ∈ r, isBlank c = false := fun c hc => by simpa using List.all_eq_true.mp hall c hc
  obtain ⟨q, hq, hiff⟩ := target_rootToken_iff s .empty input "a".toList (r := r) (by decide)
    (by decide) hb
  refine ⟨q, hq, hiff.mpr (.inr (.inr ⟨[.name "docs".toList], ?_, ?_, ?_⟩))⟩
  · decide
  · decide
  · obtain rfl := Option.some.inj hq
    decide

/-- With a root folder that is relative, the document that is named by the settings behind the root
token looks for its own neighbour in a folder that the settings never meant. -/
theorem target_rootToken_apart :
    let s : Settings :=
      { Settings.blank with input := some ⟨"$ROOT/index.md".toList⟩, root := some ⟨"docs".toList⟩ }
    let r : Text := "a.md".toList
    ∃ input q, s.inputPath? .empty = some input ∧
      { s with input := some ⟨rootToken ++ r⟩ }.inputPath? .empty = some q ∧
      (s.options .empty).target (Store.baseFolder input) ⟨"a".toList, rootToken ++ r⟩ =
        ⟨"docs/docs/a.md".toList⟩ ∧
      q.canonical = ⟨"docs/a.md".toList⟩ ∧
      ((s.options .empty).target (Store.baseFolder input) ⟨"a".toList, rootToken ++ r⟩).steps ≠
        q.canonical.steps := by
  refine ⟨_, _, rfl, rfl, ?_⟩
  decide

end Settings

/-! ## The root token is the root folder

What is written behind the root token is put behind the text of the root folder, with one slash
between them.  To see a path from a folder is told by steps instead: the moves of the path come
behind those of the folder, and both begin where the folder begins (`moves_join`,
`isAbsolute_join`). -/

namespace Path

open Text

theorem moves_append_slash (s t : Text) :
    moves ⟨s ++ '/' :: t⟩ = moves ⟨s⟩ ++ moves ⟨t⟩ := by
  simp only [moves, splitOn_append_slash, List.filterMap_append]

theorem moves_dropSlashes (t : Text) : moves ⟨dropSlashes t⟩ = moves ⟨t⟩ := by
  induction t using List.reverseRecOn with
  | nil => rfl
  | append_singleton t c ih =>
      rw [dropSlashes, dropEndWhile_concat]
      split
      · next hc =>
        -- behind a slash at the end is one more piece, which is empty
        obtain rfl := beq_iff_eq.mp hc
        rw [moves_append_slash]
        exact ih.trans (List.append_nil _).symm
      · rfl

theorem root_mem_steps_canonical {p : Path} :
    Step.root ∈ p.canonical.steps ↔ p.isAbsolute = true := by
  obtain ⟨k, names, hn, hsteps, -⟩ := exists_steps_canonical p
  have hrest : Step.root ∉ List.replicate k Step.up ++ names := by
    intro h
    rcases List.mem_append.mp h with h | h
    · cases List.eq_of_mem_replicate h
    · cases hn _ h
  rw [hsteps, List.mem_append, or_iff_left hrest, origin]
  split
  · next h => exact iff_of_true List.mem_cons_self h
  · next h => exact iff_of_false List.not_mem_nil h

/-- What is put behind the text of a folder takes the steps of a path that is seen from there,
exactly if the folder is not the empty path. -/
theorem steps_behind_eq_iff (root : Path) {p : Path} (h : p.isAbsolute = false) :
    (canonical ⟨dropSlashes root.text ++ '/' :: p.text⟩).steps = (root.join p).canonical.steps ↔
      root.isEmpty = false := by
  have hmoves : moves ⟨dropSlashes root.text ++ '/' :: p.text⟩ = (root.join p).moves := by
    rw [moves_append_slash, moves_dropSlashes, moves_join h]
  constructor
  · intro heq
    rw [Bool.eq_false_iff]
    intro hempty
    have habs : isAbsolute ⟨dropSlashes root.text ++ '/' :: p.text⟩ = true := by
      rw [isAbsolute_behind, hempty, Bool.true_or]
    have hroot := root_mem_steps_canonical.mpr habs
    rw [heq, root_mem_steps_canonical, isAbsolute_join h] at hroot
    -- nothing is written for the folder, and it begins with a slash
    rw [isEmpty, List.isEmpty_iff] at hempty
    rw [isAbsolute, hempty] at hroot
    cases hroot
  · intro hempty
    rw [steps_canonical_eq, steps_canonical_eq, hmoves, origin, origin, isAbsolute_behind,
      isAbsolute_join h, hempty, Bool.false_or]

/-- Behind the root token, in upper or lower case, a path that is written without blanks around it
or slashes at its ends takes the steps that it takes seen from the root folder, exactly if something
is written for the root folder. -/
theorem steps_ofWritten_append_iff (root : Path) {token r : Text}
    (ht : lower token = lower rootToken) (hr : r ≠ []) (hrel : r.head? ≠ some '/')
    (htrim : trim r = r) (hslashes : dropSlashes r = r) :
    (ofWritten root (token ++ r)).canonical.steps = (root.join ⟨r⟩).canonical.steps ↔
      root.isEmpty = false := by
  have habs : isAbsolute ⟨r⟩ = false := beq_eq_false_iff_ne.mpr hrel
  rw [ofWritten_append root ht hr hrel (trim_eq_self_iff.mp htrim).2, hslashes,
    ← steps_behind_eq_iff root habs]

theorem steps_ofWritten_append_sibling :
    let root : Path := ⟨"./docs//".toList⟩
    let token : Text := "$rOoT/".toList
    let r : Text := "../a b.md".toList
    lower token = lower rootToken ∧
      (ofWritten root (token ++ r)).canonical.steps = (root.join ⟨r⟩).canonical.steps := by
  intro root token r
  have ht : lower token = lower rootToken := by decide
  exact ⟨ht, (steps_ofWritten_append_iff root ht (by decide) (by decide) (by decide)
    (by decide)).mpr rfl⟩

/-- With nothing written for the root folder, the root token leads to the root. -/
theorem steps_ofWritten_append_root :
    let r : Text := "a.md".toList
    ofWritten empty (rootToken ++ r) = ⟨"/a.md".toList⟩ ∧ empty.join ⟨r⟩ = ⟨"a.md".toList⟩ ∧
      (ofWritten empty (rootToken ++ r)).canonical.steps ≠
        (empty.join ⟨r⟩).canonical.steps := by
  decide

end Path

end Compendium
