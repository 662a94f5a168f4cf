/-
# `Compendium.Proofs.Settings.Files` — what several settings files come to

The files of a run are merged from the first to the last, and the first one that is no settings file
stops the merging (`mergeFiles_eq_error_iff`).  If there is none, the value of a path is what the
last file says that sets it.  A switch is what the last file of all says, whether or not it sets it
(`value_mergeFiles`): a file that leaves a switch out turns it off, although earlier files may have
turned it on (`value_load_left_out`).
-/
import Compendium.Proofs.Settings.Value
import Mathlib.Control.Monad.Basic

namespace Compendium

section Files

variable [Formats]

namespace Disk

/-- The value that the file at a path sets a key to. -/
def settingOf? (d : Disk) (p : Path) (key : Key) : Option Setting :=
  match d.read p, p.extension?.bind Format.ofName? with
  | .ok t, some f => f.settingOf? t key
  | _, _ => none

/-- Why the file at a path is no settings file, if it is none. -/
def refusal? (d : Disk) (p : Path) : Option SettingsError :=
  match Layer.ofFile d p with
  | .ok _ => none
  | .error e => some e

/-- The files that settings are read from: those that are named, or else the one that is found. -/
def settingsFiles (d : Disk) (named : List Path) : List Path :=
  if named.isEmpty then (Settings.find? d d.workingPath).toList else named

/-- What a key comes to in some files: a path is what the last file says that sets it, and a switch
is what the last file says. -/
def merged (d : Disk) (files : List Path) (key : Key) : Setting :=
  if key.isPath then (files.filterMap (d.settingOf? · key)).getLast?.getD .unset
  else (files.getLast?.bind (d.settingOf? · key)).getD (.flag false)

theorem refusal?_eq_none_iff {d : Disk} {p : Path} :
    d.refusal? p = none ↔ ∃ l, Layer.ofFile d p = .ok l := by
  unfold refusal?
  cases Layer.ofFile d p <;> simp

theorem refusal?_eq_some_iff {d : Disk} {p : Path} {e : SettingsError} :
    d.refusal? p = some e ↔ Layer.ofFile d p = .error e := by
  unfold refusal?
  cases Layer.ofFile d p <;> simp

end Disk

theorem Layer.value?_ofFile {d : Disk} {p : Path} {l : Layer} (h : Layer.ofFile d p = .ok l)
    (key : Key) : l.value? key = d.settingOf? p key := by
  simp only [Layer.ofFile] at h
  split at h
  · cases h
  · next t ht =>
    split at h
    · cases h
    · next e he =>
      split at h
      · cases h
      · next f hf =>
        simp only [Disk.settingOf?, ht, he, Option.bind_some, hf]
        exact Layer.value?_ofText h key

namespace Settings

variable {d : Disk} {s s' : Settings} {files : List Path}

theorem mergeFiles_cons_of_ok {p : Path} {l : Layer} (h : Layer.ofFile d p = .ok l) :
    mergeFiles d s (p :: files) = mergeFiles d (s.merge l.settings) files := by
  rw [mergeFiles, ofFile, h]
  rfl

theorem mergeFiles_cons_of_error {p : Path} {e : SettingsError} (h : Layer.ofFile d p = .error e) :
    mergeFiles d s (p :: files) = .error e := by
  rw [mergeFiles, ofFile, h]
  rfl

/-- Files cannot be merged exactly if one is no settings file, and the first such one says why. -/
theorem mergeFiles_eq_error_iff {e : SettingsError} :
    mergeFiles d s files = .error e ↔ files.findSome? d.refusal? = some e := by
  induction files generalizing s with
  | nil => exact iff_of_false nofun nofun
  | cons p files ih =>
      cases h : Layer.ofFile d p with
      | ok l =>
          rw [mergeFiles_cons_of_ok h, ih,
            List.findSome?_cons_of_isNone (by rw [Disk.refusal?_eq_none_iff.mpr ⟨l, h⟩]; rfl)]
      | error e' =>
          rw [mergeFiles_cons_of_error h, List.findSome?_cons, Disk.refusal?_eq_some_iff.mpr h]
          exact ⟨fun he => congrArg some (Except.error.inj he),
            fun he => congrArg Except.error (Option.some.inj he)⟩

theorem findSome?_refusal?_of_ok (h : mergeFiles d s files = .ok s') :
    files.findSome? d.refusal? = none :=
  Option.eq_none_iff_forall_ne_some.mpr fun e he => by
    rw [mergeFiles_eq_error_iff.mpr he] at h
    cases h

/-- The value of a key with some files over the settings. -/
theorem value_mergeFiles (h : mergeFiles d s files = .ok s') (key : Key) :
    s'.value key =
      if key.isPath then (files.filterMap (d.settingOf? · key)).getLast?.getD (s.value key)
      else files.getLast?.elim (s.value key) fun p => (d.settingOf? p key).getD key.default := by
  induction files generalizing s with
  | nil =>
      obtain rfl := Except.ok.inj h
      simp
  | cons p files ih =>
      cases hl : Layer.ofFile d p with
      | error e =>
          rw [mergeFiles_cons_of_error hl] at h
          cases h
      | ok l =>
          rw [mergeFiles_cons_of_ok hl] at h
          rw [ih h, value_merge, Layer.value?_ofFile hl]
          cases key.isPath with
          | true =>
              simp only [if_pos, List.filterMap_cons]
              cases d.settingOf? p key with
              | none => rfl
              | some v => simp [List.getLast?_cons]
          | false =>
              simp only [if_neg Bool.false_ne_true, List.getLast?_cons]
              cases files.getLast? <;> rfl

theorem value_mergeFiles_blank (h : mergeFiles d blank files = .ok s) (key : Key) :
    s.value key = d.merged files key := by
  rw [value_mergeFiles h, Disk.merged, value_blank, Key.default]
  cases key.isPath with
  | true => rfl
  | false => cases files.getLast? <;> rfl

theorem fst_ofFiles (d : Disk) (named : List Path) :
    (ofFiles d named).1 = mergeFiles d blank (d.settingsFiles named) := by
  have hfirst (p : Path) (ps : List Path) :
      mergeFiles d blank (p :: ps) = (ofFile d p).bind fun s => mergeFiles d s ps := by
    rw [mergeFiles]
    cases ofFile d p with
    | error e => rfl
    | ok s => exact congrArg (mergeFiles d · ps) (merge_blank s)
  cases named with
  | nil =>
      simp only [ofFiles, Disk.settingsFiles, List.isEmpty_nil, if_pos]
      cases find? d d.workingPath with
      | none => rfl
      | some p =>
          change ofFile d p = mergeFiles d blank [p]
          rw [hfirst]
          cases ofFile d p <;> rfl
  | cons p ps =>
      simp only [ofFiles, Disk.settingsFiles, List.isEmpty_cons, if_neg Bool.false_ne_true, hfirst]
      split <;> next h => exact h.symm

theorem fst_load (d : Disk) (named : List Path) (overrides : List Text) :
    (load d named overrides).1 =
      (mergeFiles d blank (d.settingsFiles named)).bind fun s =>
        (s.overrideAll overrides).2.elim (.ok (s.overrideAll overrides).1) .error := by
  rw [← fst_ofFiles, load]
  obtain ⟨_ | s, log⟩ := ofFiles d named
  · rfl
  · simp only [Except.bind]
    obtain ⟨s', _ | e⟩ := s.overrideAll overrides <;> rfl

/-- If all files can be read as settings files, settings are loaded from them: a path is what the
last file says that sets it, and a switch is what the last file says, and off if it says nothing. -/
theorem value_load (d : Disk) {files : List Path} (hne : files ≠ [])
    (h : ∀ p ∈ files, ∃ l, Layer.ofFile d p = .ok l) :
    ∃ s, (load d files []).1 = .ok s ∧
      ∀ key, s.value key =
        if key.isPath then (files.filterMap (d.settingOf? · key)).getLast?.getD .unset
        else (d.settingOf? (files.getLast hne) key).getD (.flag false) := by
  have hgood : files.findSome? d.refusal? = none :=
    List.findSome?_eq_none_iff.mpr fun p hp => Disk.refusal?_eq_none_iff.mpr (h p hp)
  have hfiles : d.settingsFiles files = files := by
    rw [Disk.settingsFiles, List.isEmpty_eq_false_iff.mpr hne, if_neg Bool.false_ne_true]
  cases hm : mergeFiles d blank files with
  | error e =>
      rw [mergeFiles_eq_error_iff, hgood] at hm
      cases hm
  | ok s =>
      refine ⟨s, ?_, fun key => ?_⟩
      · rw [fst_load, hfiles, hm]
        rfl
      · rw [value_mergeFiles_blank hm, Disk.merged, List.getLast?_eq_some_getLast hne]
        rfl

end Settings

end Files

namespace Settings

/-- Three settings files, the second of which has a path that is null. -/
def layered : Disk where
  workingFolder := []
  items := [(["first.toml".toList], .file (.text "input = \"a.md\"\nstrict = true\n".toList)),
    (["second.json".toList],
      .file (.text "\x7b\"input\": null, \"output\": \"b.md\", \"strict\": true\x7d".toList)),
    (["third.toml".toList], .file (.text "insert_toc = true # and no more".toList))]

theorem value_load_layered :
    let files := ["first.toml", "second.json", "third.toml"].map (Path.mk ·.toList)
    (∀ p ∈ files, ∃ l, Layer.ofFile layered p = .ok l) ∧
    ∃ s, (load layered files []).1 = .ok s ∧ s.value .input = .path ⟨"a.md".toList⟩ ∧
      s.value .output = .path ⟨"b.md".toList⟩ ∧ s.value .root = .unset ∧
      s.value .contents = .flag true ∧ s.value .strict = .flag false := by
  intro files
  have h : ∀ p ∈ files, ∃ l, Layer.ofFile layered p = .ok l := by
    simp only [← Disk.refusal?_eq_none_iff]
    decide +kernel
  obtain ⟨s, hs, hvalue⟩ := value_load layered (by decide) h
  refine ⟨h, s, hs, ?_⟩
  simp only [hvalue]
  decide +kernel

/-- In `layered` the last file that sets `strict` turns it on, and it is off. -/
theorem value_load_left_out :
    let files := ["first.toml", "second.json", "third.toml"].map (Path.mk ·.toList)
    ∃ s, (load layered files []).1 = .ok s ∧
      (files.filterMap (layered.settingOf? · .strict)).getLast? = some (.flag true) ∧
      s.value .strict = .flag false := by
  refine ⟨⟨some ⟨"a.md".toList⟩, some ⟨"b.md".toList⟩, false, true, none, false⟩, ?_⟩
  decide +kernel

end Settings

/-! ## Several overrides

Whether an override is rejected, and what it sets its key to if not, is seen from its text alone
(`overrideProblem?`, `overridden?`); the settings that it is applied to play no part
(`override_of_problem`, `override_of_no_problem`).  So the first override that would be rejected by
itself is the one that stops them all (`snd_overrideAll`).  If there is none, a key has the value
from the last override that names it, and keeps the value that it had if none does
(`value_overrideAll`). -/

/-- What a key is set to by a value in words.  An empty path is none. -/
def Key.read? (key : Key) (value : Text) : Option Setting :=
  if key.isPath then some (.ofPath? (Settings.valuePath? value))
  else (Settings.switch? value).map .flag

namespace Settings

/-- What an override sets a key to, if it names the key. -/
def overridden? (key : Key) (t : Text) : Option Setting :=
  match splitOverride? t with
  | some (name, value) => if name = key.name then key.read? value else none
  | none => none

/-- Why an override is rejected, if it is. -/
def overrideProblem? (t : Text) : Option SettingsError :=
  match splitOverride? t with
  | none => some (.notAnOverride t)
  | some (name, value) =>
    match Key.ofName? name with
    | none => some (.unknownKey name)
    | some key => if (key.read? value).isNone then some (.notASwitch name value) else none

theorem set_of_unknown {name : Text} (h : Key.ofName? name = none) (s : Settings) (value : Text) :
    s.set name value = .error (.unknownKey name) := by
  simp only [set, h]

theorem set_of_unread {key : Key} {value : Text} (h : key.read? value = none) (s : Settings) :
    s.set key.name value = .error (.notASwitch key.name value) := by
  have hname : Key.ofName? key.name = some key := Key.ofName?_eq_some_iff.mpr rfl
  cases key with
  | input | output | root => cases h
  | deeper | contents | strict =>
      have hswitch : switch? value = none := Option.map_eq_none_iff.mp h
      simp only [set, hname, hswitch]

theorem set_of_read {key : Key} {value : Text} {v : Setting} (h : key.read? value = some v)
    (s : Settings) :
    ∃ s', s.set key.name value = .ok s' ∧ ∀ k, s'.value k = if k = key then v else s.value k := by
  have hname : Key.ofName? key.name = some key := Key.ofName?_eq_some_iff.mpr rfl
  cases key with
  | input | output | root =>
      obtain rfl := Option.some.inj h
      simp only [set, hname]
      exact ⟨_, rfl, fun k => by cases k <;> rfl⟩
  | deeper | contents | strict =>
      obtain ⟨b, hswitch, rfl⟩ := Option.map_eq_some_iff.mp h
      simp only [set, hname, hswitch]
      exact ⟨_, rfl, fun k => by cases k <;> rfl⟩

theorem override_of_problem {t : Text} {e : SettingsError} (h : overrideProblem? t = some e)
    (s : Settings) : s.override t = .error e := by
  simp only [overrideProblem?] at h
  split at h
  · next hsplit =>
    simp only [override, hsplit]
    exact congrArg Except.error (Option.some.inj h)
  · next name value hsplit =>
    simp only [override, hsplit]
    split at h
    · next hkey =>
      rw [set_of_unknown hkey]
      exact congrArg Except.error (Option.some.inj h)
    · next key hkey =>
      obtain rfl := Key.ofName?_eq_some_iff.mp hkey
      split at h
      · next hread =>
        rw [set_of_unread (Option.isNone_iff_eq_none.mp hread)]
        exact congrArg Except.error (Option.some.inj h)
      · cases h

theorem override_of_no_problem {t : Text} (h : overrideProblem? t = none) (s : Settings) :
    ∃ s', s.override t = .ok s' ∧ ∀ k, s'.value k = (overridden? k t).getD (s.value k) := by
  simp only [overrideProblem?] at h
  split at h
  · cases h
  · next name value hsplit =>
    split at h
    · cases h
    · next key hkey =>
      obtain rfl := Key.ofName?_eq_some_iff.mp hkey
      split at h
      · cases h
      · next hread =>
        obtain ⟨v, hv⟩ := Option.ne_none_iff_exists'.mp (by simpa using hread)
        obtain ⟨s', hs, hvalue⟩ := set_of_read hv s
        refine ⟨s', by simpa only [override, hsplit] using hs, fun k => ?_⟩
        simp only [hvalue, overridden?, hsplit]
        by_cases hk : k = key
        · subst hk
          rw [if_pos rfl, if_pos rfl, hv]
          rfl
        · have hname : key.name ≠ k.name := fun hn =>
            hk (Option.some.inj ((Key.ofName?_eq_some_iff.mpr hn).symm.trans hkey))
          rw [if_neg hk, if_neg hname]
          rfl

/-- The first override that is to be rejected stops them all. -/
theorem snd_overrideAll (s : Settings) (ts : List Text) :
    (s.overrideAll ts).2 = ts.findSome? overrideProblem? := by
  induction ts generalizing s with
  | nil => rfl
  | cons t ts ih =>
      rw [overrideAll, List.findSome?_cons]
      cases h : overrideProblem? t with
      | some e => rw [override_of_problem h]
      | none =>
          obtain ⟨s', hs, -⟩ := override_of_no_problem h s
          rw [hs]
          exact ih s'

theorem value_overrideAll {s : Settings} {ts : List Text} (h : ts.findSome? overrideProblem? = none)
    (key : Key) :
    (s.overrideAll ts).1.value key =
      (ts.filterMap (overridden? key)).getLast?.getD (s.value key) := by
  induction ts generalizing s with
  | nil => rfl
  | cons t ts ih =>
      obtain ⟨hp, hrest⟩ : overrideProblem? t = none ∧ ts.findSome? overrideProblem? = none := by
        simpa only [List.findSome?_eq_none_iff, List.forall_mem_cons] using h
      obtain ⟨s', hs, hvalue⟩ := override_of_no_problem hp s
      simp only [overrideAll, hs]
      rw [ih hrest, hvalue, List.filterMap_cons]
      cases overridden? key t with
      | none => rfl
      | some v => simp [List.getLast?_cons]

end Settings

end Compendium
