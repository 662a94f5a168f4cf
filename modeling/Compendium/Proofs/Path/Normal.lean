/-
# `Compendium.Proofs.Path.Normal` — written paths that writing them again leaves alone

What is written for a path loses the blanks at its ends, then the slashes at its end, and then its
root token, each once.  What comes out never ends with a slash, and begins with no blank unless the
root folder does.  But the slashes may have hidden a blank, and that one stands at the end then
(`LooseEnd`, `looseEnd_iff`).

Such a blank is the only thing that is left to do when the path is written again
(`ofWritten_ofWritten_iff`).  The token is never replaced a second time: a path with the root folder
before it begins with the token only if the root folder does, or if the root folder is the token
without its slash, and then the token stands for itself (`eq_of_afterRootToken?_behind`).
-/
import Compendium.Proofs.Path.Root

namespace Compendium.Path

open Text

/-- Slashes end the text, with a blank before them and something that is not blank before that.
There may be blanks behind the slashes. -/
def LooseEnd (t : Text) : Prop :=
  ∃ front b slashes blanks, t = front ++ b :: (slashes ++ blanks) ∧ trim front ≠ [] ∧
    isBlank b = true ∧ slashes ≠ [] ∧ (∀ c ∈ slashes, c = '/') ∧ ∀ c ∈ blanks, isBlank c = true

/-! ## Without blanks and slashes at the ends -/

/-- A written path as it is looked at for the root token. -/
def bare (t : Text) : Text := dropSlashes (trim t)

theorem exists_slashes_append (t : Text) :
    ∃ slashes, t = dropSlashes t ++ slashes ∧ ∀ c ∈ slashes, c = '/' := by
  obtain ⟨slashes, ht, hslashes⟩ := exists_dropEndWhile_append (· == '/') t
  exact ⟨slashes, ht, fun c hc => beq_iff_eq.mp (hslashes c hc)⟩

theorem dropSlashes_append_slashes {slashes : Text} (h : ∀ c ∈ slashes, c = '/') (t : Text) :
    dropSlashes (t ++ slashes) = dropSlashes t :=
  dropEndWhile_append_of_pos (fun c hc => beq_iff_eq.mpr (h c hc)) t

theorem dropSlashes_eq_self_iff {t : Text} : dropSlashes t = t ↔ t.getLast? ≠ some '/' := by
  constructor
  · intro h hlast
    obtain ⟨u, rfl⟩ := List.getLast?_eq_some_iff.mp hlast
    rw [dropSlashes, dropEndWhile_concat_of_pos _ rfl] at h
    have hle := (List.rdropWhile_prefix (· == '/') u).length_le
    rw [show u.rdropWhile (· == '/') = u ++ ['/'] from h, List.length_append] at hle
    exact absurd hle (Nat.not_succ_le_self u.length)
  · intro h
    refine List.rdropWhile_eq_self_iff.mpr fun hne hslash => h ?_
    rw [List.getLast?_eq_some_getLast hne, beq_iff_eq.mp hslash]

theorem getLast?_dropSlashes_ne (t : Text) : (dropSlashes t).getLast? ≠ some '/' :=
  dropSlashes_eq_self_iff.mp (List.rdropWhile_idempotent (· == '/') t)

theorem prefix_bare (t : Text) : bare t <+: trim t := List.rdropWhile_prefix _ _

theorem isBlank_of_head?_bare {t : Text} {c : Char} (h : (bare t).head? = some c) :
    isBlank c = false := by
  obtain ⟨u, hu⟩ := List.head?_eq_some_iff.mp h
  obtain ⟨v, hv⟩ := prefix_bare t
  refine (trim_eq_self_iff.mp (trim_trim t)).1 c ?_
  rw [← hv, hu]
  rfl

theorem bare_eq_self {t : Text} (htrim : trim t = t) (hlast : t.getLast? ≠ some '/') :
    bare t = t := by
  rw [bare, htrim, dropSlashes_eq_self_iff.mpr hlast]

theorem bare_of_loose {front slashes blanks : Text} {b : Char} (hfront : trim front ≠ [])
    (hb : isBlank b = true) (hne : slashes ≠ []) (hslashes : ∀ c ∈ slashes, c = '/')
    (hblanks : ∀ c ∈ blanks, isBlank c = true) :
    bare (front ++ b :: (slashes ++ blanks)) = trimStart front ++ [b] := by
  have hend : trimEnd slashes = slashes := trimEnd_eq_self fun c hc => by
    rw [hslashes c (List.mem_of_getLast? hc)]
    decide
  have hfull : trim slashes ≠ [] := fun hnil => by
    obtain ⟨c, hc⟩ := List.exists_mem_of_ne_nil slashes hne
    have hblank := trim_eq_nil_iff.mp hnil c hc
    rw [hslashes c hc] at hblank
    cases hblank
  have htrim : trim (front ++ b :: (slashes ++ blanks)) = trimStart front ++ [b] ++ slashes := by
    have hsplit : front ++ b :: (slashes ++ blanks) = front ++ [b] ++ slashes ++ blanks := by simp
    rw [hsplit, trim_append_blanks hblanks, trim_append_of_ne_nil hfront hfull, hend]
  rw [bare, htrim, dropSlashes_append_slashes hslashes, dropSlashes_eq_self_iff,
    List.getLast?_concat]
  exact fun h => ne_of_isBlank hb (by decide) (Option.some.inj h)

theorem looseEnd_iff {t : Text} :
    LooseEnd t ↔ ∃ b, (bare t).getLast? = some b ∧ isBlank b = true := by
  constructor
  · rintro ⟨front, b, slashes, blanks, rfl, hfront, hb, hne, hslashes, hblanks⟩
    refine ⟨b, ?_, hb⟩
    rw [bare_of_loose hfront hb hne hslashes hblanks, List.getLast?_concat]
  · rintro ⟨b, hlast, hb⟩
    obtain ⟨u, hu⟩ := List.getLast?_eq_some_iff.mp hlast
    obtain ⟨f, blanks, ht, -, hblanks⟩ := exists_blanks_append t
    obtain ⟨slashes, hs, hslashes⟩ := exists_slashes_append (trim t)
    rw [show dropSlashes (trim t) = u ++ [b] from hu] at hs
    refine ⟨f ++ u, b, slashes, blanks, ?_, ?_, hb, ?_, hslashes, hblanks⟩
    · conv_lhs => rw [ht, hs]
      simp
    · -- the first character of what is left is not blank, so it is not the one at the end
      intro hnil
      have hblank : ∀ c ∈ u ++ [b], isBlank c = true := by
        refine trim_eq_nil_iff.mp ?_
        rw [trim_concat_of_blank hb]
        exact (trim_append_eq_nil_iff.mp hnil).2
      obtain ⟨c, hc⟩ : ∃ c, (u ++ [b]).head? = some c := Option.isSome_iff_exists.mp (by simp)
      have hstart := isBlank_of_head?_bare (t := t) (hu ▸ hc)
      rw [hblank c (List.mem_of_mem_head? hc)] at hstart
      cases hstart
    · rintro rfl
      rw [List.append_nil] at hs
      exact trim_concat_ne hb u (hs ▸ trim_trim t)

/-! ## The root token -/

theorem eq_slash_of_toLower {c : Char} (h : c.toLower = '/') : c = '/' := by
  have hall : ∀ n, n < 91 → 65 ≤ n → (Char.ofNat n).toLower ≠ '/' := by decide
  have hlower : c.toLower = c := dif_neg fun hupper => by
    have hge : 65 ≤ c.toNat := hupper.1
    have hle : c.toNat ≤ 90 := hupper.2
    refine hall c.toNat (by omega) hge ?_
    rwa [Char.ofNat_toNat]
  exact hlower.symm.trans h

theorem exists_concat_of_lower {token : Text} (h : lower token = lower rootToken) :
    ∃ word, token = word ++ ['/'] ∧ '/' ∉ word := by
  have hsplit : lower rootToken = "$root".toList ++ ['/'] := by decide
  obtain ⟨word, last, rfl, hword, hlast⟩ := List.map_eq_append_iff.mp (h.trans hsplit)
  obtain ⟨c, rfl, hc⟩ := List.map_eq_singleton_iff.mp hlast
  rw [eq_slash_of_toLower hc]
  refine ⟨word, rfl, fun hmem => ?_⟩
  have hslash : '/' ∈ word.map Char.toLower := List.mem_map_of_mem hmem
  rw [hword] at hslash
  exact absurd hslash (by decide)

theorem afterRootToken?_eq_some_iff {t r : Text} :
    afterRootToken? t = some r ↔ ∃ token, lower token = lower rootToken ∧ t = token ++ r := by
  constructor
  · intro h
    simp only [afterRootToken?] at h
    split at h
    · next htoken =>
      obtain rfl := Option.some.inj h
      exact ⟨_, htoken, (List.take_append_drop _ t).symm⟩
    · cases h
  · rintro ⟨token, htoken, rfl⟩
    exact afterRootToken?_append htoken r

theorem afterRootToken?_append_of_some {t r : Text} (h : afterRootToken? t = some r) (u : Text) :
    afterRootToken? (t ++ u) = some (r ++ u) := by
  obtain ⟨token, htoken, rfl⟩ := afterRootToken?_eq_some_iff.mp h
  exact afterRootToken?_eq_some_iff.mpr ⟨token, htoken, List.append_assoc _ _ _⟩

/-- If a path behind a folder begins with the token and the folder does not, the folder is the token
without its slash, and the path is what follows the token. -/
theorem eq_of_afterRootToken?_behind {d s r : Text} (hd : afterRootToken? d = none)
    (h : afterRootToken? (d ++ '/' :: s) = some r) : r = s := by
  obtain ⟨token, htoken, heq⟩ := afterRootToken?_eq_some_iff.mp h
  obtain ⟨word, rfl, hword⟩ := exists_concat_of_lower htoken
  rw [List.append_assoc, List.singleton_append] at heq
  rcases List.append_eq_append_iff.mp heq with ⟨m, hm, hs⟩ | ⟨m, rfl, hs⟩
  · -- the slash behind the folder is in the token, so it is the one at its end
    cases m with
    | nil => exact (List.cons.inj hs).2.symm
    | cons c m =>
        obtain ⟨rfl, -⟩ := List.cons.inj hs
        exact absurd (hm ▸ List.mem_append_right _ List.mem_cons_self) hword
  · cases m with
    | nil => exact (List.cons.inj hs).2
    | cons c m =>
        obtain ⟨rfl, -⟩ := List.cons.inj hs
        have hsome : afterRootToken? (word ++ '/' :: m) = some m := by
          refine afterRootToken?_eq_some_iff.mpr ⟨_, htoken, ?_⟩
          rw [List.append_assoc, List.singleton_append]
        exact nomatch hd.symm.trans hsome

/-! ## What comes out -/

theorem ofWritten_of_none (root : Path) {t : Text} (h : afterRootToken? (bare t) = none) :
    ofWritten root t = ⟨bare t⟩ := by
  simp only [bare] at h
  simp only [ofWritten, h, bare]

theorem ofWritten_of_some (root : Path) {t r : Text} (h : afterRootToken? (bare t) = some r) :
    ofWritten root t = ⟨dropSlashes root.text ++ '/' :: r⟩ := by
  simp only [bare] at h
  simp only [ofWritten, h]

theorem getLast?_ofWritten (root : Path) (t : Text) :
    (ofWritten root t).text.getLast? = (bare t).getLast? := by
  cases h : afterRootToken? (bare t) with
  | none => rw [ofWritten_of_none root h]
  | some r =>
      obtain ⟨token, htoken, heq⟩ := afterRootToken?_eq_some_iff.mp h
      obtain ⟨word, rfl, -⟩ := exists_concat_of_lower htoken
      have hr : r ≠ [] := by
        rintro rfl
        have hlast := getLast?_dropSlashes_ne (trim t)
        rw [← bare, heq, List.append_nil, List.getLast?_concat] at hlast
        exact hlast rfl
      rw [ofWritten_of_some root h, heq, List.getLast?_append_of_ne_nil _ (List.cons_ne_nil _ r),
        List.getLast?_append_of_ne_nil _ hr, List.getLast?_cons_of_ne_nil hr]

theorem dropSlashes_ofWritten (root : Path) (t : Text) :
    dropSlashes (ofWritten root t).text = (ofWritten root t).text := by
  rw [dropSlashes_eq_self_iff, getLast?_ofWritten]
  exact getLast?_dropSlashes_ne (trim t)

section Root

variable {root : Path} (hblank : trimStart root.text = root.text)
  (htoken : afterRootToken? root.text = none)

include hblank in
theorem isBlank_of_head?_ofWritten {t : Text} {c : Char}
    (hc : (ofWritten root t).text.head? = some c) : isBlank c = false := by
  cases h : afterRootToken? (bare t) with
  | none =>
      rw [ofWritten_of_none root h] at hc
      exact isBlank_of_head?_bare hc
  | some r =>
      rw [ofWritten_of_some root h] at hc
      obtain ⟨slashes, hroot, -⟩ := exists_slashes_append root.text
      cases hd : dropSlashes root.text with
      | nil =>
          rw [hd] at hc
          obtain rfl := Option.some.inj hc
          decide
      | cons d u =>
          rw [hd] at hc hroot
          obtain rfl := Option.some.inj hc
          have hstart := List.head?_dropWhile_not isBlank root.text
          rw [show root.text.dropWhile isBlank = root.text from hblank, hroot] at hstart
          exact hstart

include htoken in
theorem afterRootToken?_dropSlashes : afterRootToken? (dropSlashes root.text) = none := by
  obtain ⟨slashes, hroot, -⟩ := exists_slashes_append root.text
  refine Option.eq_none_iff_forall_ne_some.mpr fun r hr => ?_
  have hsome := afterRootToken?_append_of_some hr slashes
  rw [← hroot, htoken] at hsome
  cases hsome

include hblank in
theorem trim_ofWritten_iff (t : Text) :
    trim (ofWritten root t).text = (ofWritten root t).text ↔ ¬ LooseEnd t := by
  rw [trim_eq_self_iff, looseEnd_iff, getLast?_ofWritten]
  simp only [not_exists, not_and, Bool.not_eq_true]
  exact and_iff_right fun c => isBlank_of_head?_ofWritten hblank

include htoken in
theorem ofWritten_of_trim {t : Text} (h : trim (ofWritten root t).text = (ofWritten root t).text) :
    ofWritten root (ofWritten root t).text = ofWritten root t := by
  have hlast : (ofWritten root t).text.getLast? ≠ some '/' := by
    rw [getLast?_ofWritten]
    exact getLast?_dropSlashes_ne (trim t)
  have hbare := bare_eq_self h hlast
  cases ht : afterRootToken? (bare t) with
  | none =>
      rw [ofWritten_of_none root ht] at hbare ⊢
      rw [ofWritten_of_none root (hbare.symm ▸ ht), hbare]
  | some s =>
      rw [ofWritten_of_some root ht] at hbare ⊢
      dsimp only at hbare ⊢
      cases hq : afterRootToken? (dropSlashes root.text ++ '/' :: s) with
      | none => rw [ofWritten_of_none root (hbare.symm ▸ hq), hbare]
      | some r =>
          obtain rfl := eq_of_afterRootToken?_behind (afterRootToken?_dropSlashes htoken) hq
          exact ofWritten_of_some root (hbare.symm ▸ hq)

include htoken in
theorem trim_of_ofWritten_eq {q : Text} (hstart : trimStart q = q) (h : ofWritten root q = ⟨q⟩) :
    trim q = q := by
  have htrim : trim q <+: q := by
    rw [trim, hstart]
    exact List.rdropWhile_prefix isBlank q
  have hbare : bare q = q := by
    obtain ⟨w, hw⟩ := (prefix_bare q).trans htrim
    cases hb : afterRootToken? (bare q) with
    | none => exact congrArg Path.text ((ofWritten_of_none root hb).symm.trans h)
    | some r =>
        -- the path begins with the token and with the root folder, so nothing may be missing behind
        have hq : dropSlashes root.text ++ '/' :: r = q :=
          congrArg Path.text ((ofWritten_of_some root hb).symm.trans h)
        have hmore := afterRootToken?_append_of_some hb w
        rw [hw, ← hq] at hmore
        have hnil := eq_of_afterRootToken?_behind (afterRootToken?_dropSlashes htoken) hmore
        rwa [List.append_right_eq_self.mp hnil, List.append_nil] at hw
  have hle := (prefix_bare q).length_le
  rw [hbare] at hle
  exact htrim.eq_of_length_le hle

end Root

/-- With a root folder that begins neither with a blank nor with the root token, what a written path
comes down to has no slash at its end.  It has no blank at an end, and comes down to itself, exactly
if no blank stands before slashes at the end of the written path. -/
theorem ofWritten_ofWritten_iff {root : Path} (hblank : trimStart root.text = root.text)
    (htoken : afterRootToken? root.text = none) (t : Text) :
    dropSlashes (ofWritten root t).text = (ofWritten root t).text ∧
      (trim (ofWritten root t).text = (ofWritten root t).text ↔ ¬ LooseEnd t) ∧
      (ofWritten root (ofWritten root t).text = ofWritten root t ↔ ¬ LooseEnd t) := by
  refine ⟨dropSlashes_ofWritten root t, trim_ofWritten_iff hblank t, ?_⟩
  rw [← trim_ofWritten_iff hblank t]
  refine ⟨fun h => ?_, ofWritten_of_trim htoken⟩
  have hstart := trimStart_eq_self fun c => isBlank_of_head?_ofWritten hblank (t := t) (c := c)
  exact trim_of_ofWritten_eq htoken hstart h

/-- A root folder that is the token without its slash, and a path that has the token twice. -/
theorem ofWritten_ofWritten_token :
    let root : Path := ⟨"$root".toList⟩
    let t : Text := " $ROOT/$Root/a b.md// ".toList
    trimStart root.text = root.text ∧ afterRootToken? root.text = none ∧
      ofWritten root t = ⟨"$root/$Root/a b.md".toList⟩ ∧
      ofWritten root (ofWritten root t).text = ofWritten root t := by
  intro root t
  have hblank : trimStart root.text = root.text := by decide
  have htoken : afterRootToken? root.text = none := by decide
  obtain ⟨-, htrim, hagain⟩ := ofWritten_ofWritten_iff hblank htoken t
  exact ⟨hblank, htoken, by decide, hagain.mpr (htrim.mp (by decide))⟩

/-- A slash hides the blank before it, so the blank stays, and goes when the path is written again. -/
theorem ofWritten_ofWritten_loose :
    let root : Path := ⟨"/srv".toList⟩
    root.text ≠ [] ∧ trim root.text = root.text ∧ afterRootToken? root.text = none ∧
      ofWritten root "a /".toList = ⟨"a ".toList⟩ ∧ trim "a ".toList ≠ "a ".toList ∧
      ofWritten root "a ".toList = ⟨"a".toList⟩ := by
  decide

end Compendium.Path
