/-
# `Compendium.Proofs.Command.Settings` — the settings that a run works with

The settings of a run come from three sources: the settings files, the overrides, and the options
behind the verb.  For each key the last source that says something about it counts, whatever the
sources say about other keys (`run_settings`).  The sources differ in what they can say.  Options
set a path and turn a switch on, but only where the verb has a parameter for the key
(`Invocation.option?`); overrides also unset a path and turn a switch off; and files say something
about every switch, by leaving it out.  How files and command lines are read makes no difference.

Nothing is carried out under settings that cannot be loaded.  The first file that is no settings
file says why, or else the first override that is rejected (`Invocation.problem?`).
-/
import Compendium.Command.Run
import Compendium.Proofs.Settings.Files

namespace Compendium

/-- The parameter that a key can be given with on the command line. -/
def Key.param : Key → Param
  | .input => .input
  | .output => .output
  | .deeper => .deeper
  | .contents => .contents
  | .root => .root
  | .strict => .strict

/-- What options say about a key: a path is the one that is given, and a switch that is given is
on. -/
def Layer.given? (key : Key) (options : Layer) : Option Setting :=
  if key.isPath then options.value? key else (options.value? key).map fun _ => .flag true

/-- What an order says about a key, if its verb has a parameter for it. -/
def Order.option? (key : Key) : Order → Option Setting
  | .compile options => options.given? key
  | .contents options =>
    if key.param ∈ Param.onLevel (some .contents) then options.given? key else none
  | .init _ _ _ => none

namespace Given

variable {level : Option Verb} {verb : Verb} {g : Given} {p : Param}

theorem has_iff : g.has p = true ↔ ∃ v, (p, v) ∈ g.settled := by
  simp [has]

theorem Fits.has (hg : Fits level g) (h : g.has p = true) : p ∈ Param.onLevel level := by
  obtain ⟨v, hv⟩ := has_iff.mp h
  exact hg.settled _ hv

/-- What the options say about a key: the last path that is given for it, or on for a switch that is
given. -/
theorem value?_layer (g : Given) (key : Key) :
    g.layer.value? key =
      if key.isPath then (g.path? key.param).map .path
      else if g.has key.param then some (.flag true) else none := by
  cases key with
  | input | output | root => rfl
  | deeper | contents | strict => exact apply_ite (Option.map Setting.flag) _ _ _

theorem value?_layer_ne_off (g : Given) (key : Key) : g.layer.value? key ≠ some (.flag false) := by
  rw [value?_layer]
  split
  · cases g.path? key.param <;> simp
  · split <;> simp

theorem given?_layer (g : Given) (key : Key) : g.layer.given? key = g.layer.value? key := by
  rw [Layer.given?]
  split
  · rfl
  · next hpath =>
    rw [value?_layer, if_neg hpath]
    split <;> rfl

theorem Fits.value?_layer_eq_none (hg : Fits (some verb) g) {key : Key}
    (h : key.param ∉ Param.onLevel (some verb)) : g.layer.value? key = none := by
  have hhas : g.has key.param = false := Bool.eq_false_iff.mpr fun hp => h (hg.has hp)
  have hpath : g.path? key.param = none := by
    have hnone : g.settled.filter (·.1 = key.param) = [] :=
      List.filter_eq_nil_iff.mpr fun e he heq => h (decide_eq_true_eq.mp heq ▸ hg.settled e he)
    simp [path?, valueOf?, valuesOf, hnone]
  rw [value?_layer, hhas, hpath]
  simp

end Given

namespace Settings

/-- With options over the settings, a key that the options say something about has its value from
there, and any other one keeps its value. -/
theorem value_withOptions {l : Layer} (h : ∀ key, l.value? key ≠ some (.flag false)) (s : Settings)
    (key : Key) : (s.withOptions l).value key = (l.value? key).getD (s.value key) := by
  have hswitch {b : Option Bool} (hb : b.map Setting.flag ≠ some (.flag false)) (c : Bool) :
      Setting.flag (c || b.getD false) = (b.map Setting.flag).getD (.flag c) := by
    match b with
    | none => simp
    | some true => simp
    | some false => exact absurd rfl hb
  cases key with
  | input | output | root => exact Setting.ofPath?_or _ _
  | deeper => exact hswitch (h .deeper) _
  | contents => exact hswitch (h .contents) _
  | strict => exact hswitch (h .strict) _

theorem value_order {verb : Verb} {g : Given} (hg : g.Fits (some verb)) (s : Settings) (key : Key) :
    (Order.settings s (g.order verb)).value key =
      ((g.order verb).option? key).getD (s.value key) := by
  have hlayer := value_withOptions (g.value?_layer_ne_off ·) s key
  cases verb with
  | compile => rw [Given.order, Order.option?, Given.given?_layer, Order.settings, hlayer]
  | init => rfl
  | contents =>
      rw [Given.order, Order.option?, Given.given?_layer, Order.settings, hlayer]
      split
      · rfl
      · next hparam => rw [hg.value?_layer_eq_none hparam]

/-- Why settings cannot be loaded: the first file that is no settings file says so, or else the
first override that is rejected. -/
def problem? [Formats] (d : Disk) (named : List Path) (overrides : List Text) : Option SettingsError :=
  ((d.settingsFiles named).findSome? d.refusal?).or (overrides.findSome? overrideProblem?)

variable [Formats] {d : Disk} {named : List Path} {overrides : List Text}

theorem load_of_problem {e : SettingsError} (h : problem? d named overrides = some e) :
    (load d named overrides).1 = .error e := by
  rw [fst_load]
  cases hm : mergeFiles d blank (d.settingsFiles named) with
  | error e' =>
      rw [problem?, mergeFiles_eq_error_iff.mp hm, Option.some_or] at h
      exact congrArg Except.error (Option.some.inj h)
  | ok s =>
      rw [problem?, findSome?_refusal?_of_ok hm, Option.none_or, ← snd_overrideAll s] at h
      simp only [Except.bind, h, Option.elim_some]

/-- Settings that are loaded have the value of a key from the last override that names it, or else
from the files. -/
theorem load_of_no_problem (h : problem? d named overrides = none) :
    ∃ s, (load d named overrides).1 = .ok s ∧
      ∀ key, s.value key = (overrides.filterMap (overridden? key)).getLast?.getD
        (d.merged (d.settingsFiles named) key) := by
  obtain ⟨hfiles, hoverrides⟩ := Option.or_eq_none_iff.mp h
  rw [fst_load]
  cases hm : mergeFiles d blank (d.settingsFiles named) with
  | error e =>
      rw [mergeFiles_eq_error_iff.mp hm] at hfiles
      cases hfiles
  | ok s =>
      refine ⟨(s.overrideAll overrides).1, ?_, fun key => ?_⟩
      · simp only [Except.bind, snd_overrideAll, hoverrides, Option.elim_none]
      · rw [value_overrideAll hoverrides, value_mergeFiles_blank hm]

end Settings

namespace Invocation

variable {words : List Text} {i : Invocation}

theorem fits_of_ofWords [CommandLine] (h : ofWords words = .ok i) {o : Order} (ho : i.order = some o) :
    ∃ (verb : Verb) (behind : Given), behind.Fits (some verb) ∧ o = behind.order verb := by
  simp only [ofWords] at h
  cases hread : CommandLine.read words with
  | error e =>
      rw [hread] at h
      cases h
  | ok given =>
      rw [hread] at h
      obtain rfl := Except.ok.inj h
      match given, hread with
      | (outer, none), _ => cases ho
      | (outer, some (verb, behind)), hread =>
          exact ⟨verb, behind, CommandLine.fits hread, (Option.some.inj ho).symm⟩

/-- What the options on the command line say about a key. -/
def option? (i : Invocation) (key : Key) : Option Setting := i.order.bind (Order.option? key)

/-- Why an invocation finds no settings to work with. -/
def problem? [Formats] (i : Invocation) (d : Disk) : Option SettingsError :=
  Settings.problem? d i.files i.overrides

theorem fst_settings [Formats] (i : Invocation) (d : Disk) :
    (i.settings d).1 =
      (Settings.load d i.files i.overrides).1.map fun s => i.order.elim s (Order.settings s) := by
  rw [settings]
  obtain ⟨_ | s, log⟩ := Settings.load d i.files i.overrides <;> rfl

theorem settings_of_problem [Formats] {d : Disk} {e : SettingsError} (h : i.problem? d = some e) :
    (i.settings d).1 = .error e := by
  rw [fst_settings, Settings.load_of_problem h]
  rfl

theorem settings_of_no_problem [Formats] [CommandLine] {d : Disk} (hi : ofWords words = .ok i)
    (h : i.problem? d = none) :
    ∃ s, (i.settings d).1 = .ok s ∧
      ∀ key, s.value key =
        ((i.option? key).or (i.overrides.filterMap (Settings.overridden? key)).getLast?).getD
          (d.merged (d.settingsFiles i.files) key) := by
  obtain ⟨s, hs, hvalue⟩ := Settings.load_of_no_problem h
  refine ⟨i.order.elim s (Order.settings s), by rw [fst_settings, hs]; rfl, fun key => ?_⟩
  rw [Option.getD_or, ← hvalue, option?]
  cases ho : i.order with
  | none => rfl
  | some o =>
      obtain ⟨verb, behind, hfits, rfl⟩ := fits_of_ofWords hi ho
      exact Settings.value_order hfits s key

end Invocation

section Run

variable [Formats] [CommandLine] {words : List Text} {i : Invocation}

theorem run_eq_of_ofWords (hi : Invocation.ofWords words = .ok i)
    (hinit : ∀ output format force, i.order ≠ some (.init output format force)) (home : Path)
    (d : Disk) :
    run home words d =
      match (i.settings d).1 with
      | .error _ => ⟨.failed loadFailure, [], (i.settings d).2, d⟩
      | .ok s =>
        match i.order with
        | some (.contents _) => Invocation.printContents home s (i.settings d).2 d
        | _ => i.compile home s (i.settings d).2 d := by
  simp only [run, hi, Invocation.run]
  obtain ⟨_ | s, log⟩ := i.settings d <;>
    rcases ho : i.order with _ | (_ | _ | ⟨output, format, force⟩)
  case error.some.init | ok.some.init => exact absurd ho (hinit _ _ _)
  all_goals rfl

/-- A run other than one that makes a settings file works with settings that have each path and
each switch from the options, or else from the last override that names it, or else from the files.
If they cannot be loaded, the run fails with the first problem and nothing is carried out. -/
theorem run_settings (hi : Invocation.ofWords words = .ok i)
    (hinit : ∀ output format force, i.order ≠ some (.init output format force)) (home : Path)
    (d : Disk) :
    (∀ e, i.problem? d = some e →
      (i.settings d).1 = .error e ∧
        run home words d = ⟨.failed loadFailure, [], (i.settings d).2, d⟩) ∧
    (i.problem? d = none →
      ∃ s, (i.settings d).1 = .ok s ∧
        (∀ key, s.value key =
          ((i.option? key).or (i.overrides.filterMap (Settings.overridden? key)).getLast?).getD
            (d.merged (d.settingsFiles i.files) key)) ∧
        run home words d =
          match i.order with
          | some (.contents _) => Invocation.printContents home s (i.settings d).2 d
          | _ => i.compile home s (i.settings d).2 d) := by
  rw [run_eq_of_ofWords hi hinit]
  constructor
  · intro e he
    have hs := Invocation.settings_of_problem he
    refine ⟨hs, ?_⟩
    rw [hs]
  · intro hnone
    obtain ⟨s, hs, hvalue⟩ := Invocation.settings_of_no_problem hi hnone
    refine ⟨s, hs, hvalue, ?_⟩
    rw [hs]

end Run

/-- One settings file, an override of each kind, and an option of each kind. -/
def crowded : List Text :=
  ["-c", "first.toml", "toc", "--config", "input=", "--config", "strict = No", "--root-dir", "docs",
    "--adjust-headings"].map String.toList

theorem run_settings_crowded :
    ∃ i, Invocation.ofWords crowded = .ok i ∧
      (∀ output format force, i.order ≠ some (.init output format force)) ∧
      i.problem? Settings.layered = none ∧
      ∃ s, (i.settings Settings.layered).1 = .ok s ∧
        s.value .input = .unset ∧ s.value .strict = .flag false ∧
        s.value .root = .path ⟨"docs".toList⟩ ∧ s.value .deeper = .flag true ∧
        run .empty crowded Settings.layered =
          Invocation.printContents .empty s (i.settings Settings.layered).2 Settings.layered := by
  let options : Layer := { Layer.blank with root := some ⟨"docs".toList⟩, deeper := some true }
  let i : Invocation := ⟨false, [⟨"first.toml".toList⟩], ["input=".toList, "strict = No".toList],
    some (.contents options)⟩
  have hi : Invocation.ofWords crowded = .ok i := by decide +kernel
  have hinit : ∀ output format force, i.order ≠ some (.init output format force) := nofun
  have hproblem : i.problem? Settings.layered = none := by decide +kernel
  obtain ⟨s, hs, hvalue, hrun⟩ := (run_settings hi hinit .empty Settings.layered).2 hproblem
  refine ⟨i, hi, hinit, hproblem, s, hs, ?_, ?_, ?_, ?_, hrun⟩
  all_goals
    rw [hvalue]
    decide +kernel

end Compendium
