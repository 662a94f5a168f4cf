/-
# `Compendium.Proofs.Command.Files` — what a run does to the files

A run that fails leaves every file as it was and makes no new one, whatever it failed at.  A run
that ends well writes one file at most.  The list of contents is printed, and nothing is written.  A
document is written to the path for the result, with one line ending behind its content; if the
settings are strict, nothing was left out of it (`Settings.Compiled`).  A settings file is written
to the path that is asked for (`Initialised`).

Without force a settings file is written only where its path led to nothing before.  That is not to
say that no file was there: the folders for it are made first, and a path that goes up out of one of
them leads somewhere afterwards (`run_files_overwritten`).
-/
import Compendium.Proofs.Assembly.Expansion
import Compendium.Proofs.Command.Settings
import Compendium.Proofs.Disk.Writing
import Compendium.Proofs.Text.Trim
import Mathlib.Control.Monad.Basic

namespace Compendium

variable {d d' : Disk} {p : Path} {home : Path}

/-! ## Compiling -/

theorem Disk.trim_content {opts : Options} {input : Path} {c : Assembly}
    (h : d.assemble opts input = .ok c) : Text.trim c.content = c.content := by
  have hs : (d.assemble opts input).mapError Stop.fault = _ :=
    Stop.mapError_settle _ (d.assemble_ne_tooDeep opts input)
  rw [h, Store.assemble] at hs
  split at hs
  · obtain rfl := Except.ok.inj hs
    exact Text.trim_trim _
  · cases hs

namespace Settings

variable {s : Settings}

/-- What it means for the document of some settings to have been compiled: the file for the result
has its content and a line ending, no other file has changed, and under strict settings nothing was
left out. -/
def Compiled (s : Settings) (home : Path) (d d' : Disk) : Prop :=
  ∃ input output c l, s.inputPath? home = some input ∧ s.outputPath? home = some output ∧
    d.assemble (s.options home) input = .ok c ∧ d.locate output = .ok l ∧
    d.Wrote d' output (c.content ++ ['\n']) l ∧ (s.strict = true → c.omissions = [])

theorem paths_eq_ok {input output : Path} (h : s.paths home d = .ok (input, output)) :
    s.inputPath? home = some input ∧ s.outputPath? home = some output := by
  simp only [paths] at h
  split at h
  · next hinput houtput _ =>
    obtain ⟨rfl, rfl⟩ := Prod.mk.inj (Except.ok.inj h)
    exact ⟨hinput, houtput⟩
  · cases h

theorem save_eq_ok {content : Text} (ht : Text.trim content = content)
    (h : d.save p content = .ok d') :
    ∃ l, d.locate p = .ok l ∧ d.Wrote d' p (content ++ ['\n']) l := by
  simp only [Disk.save, fileText, ht] at h
  split at h
  · next hwrite =>
    obtain rfl := Except.ok.inj h
    obtain ⟨l, hl, hwrote⟩ := Disk.wrote_of_write? hwrite
    exact ⟨l, hl, hwrote⟩
  · cases h

theorem compile_cases (s : Settings) (home : Path) (report : Bool) (d : Disk) :
    (∃ e, (s.compile home report d).result = .error e ∧ (s.compile home report d).disk = d) ∨
      ∃ c, (s.compile home report d).result = .ok c ∧
        s.Compiled home d (s.compile home report d).disk := by
  unfold compile
  split
  · exact .inl ⟨_, rfl, rfl⟩
  · next input output hpaths =>
    obtain ⟨hinput, houtput⟩ := paths_eq_ok hpaths
    split
    · exact .inl ⟨_, rfl, rfl⟩
    · next c hc =>
      simp only
      split
      · exact .inl ⟨_, rfl, rfl⟩
      · next hallowed =>
        split
        · exact .inl ⟨_, rfl, rfl⟩
        · next d' hsave =>
          obtain ⟨l, hl, hwrote⟩ := save_eq_ok (Disk.trim_content hc) hsave
          refine .inr ⟨c, rfl, input, output, c, l, hinput, houtput, hc, hl, hwrote, ?_⟩
          intro hstrict
          simpa [hstrict] using hallowed

end Settings

/-! ## Making a settings file -/

/-- What it means for a settings file to have been made: it has the template, and no other file has
changed.  Without force its path led to nothing before; and there was nothing where it leads now,
unless a folder on the way was missing and the path goes up. -/
def Initialised (output : Path) (format : Text) (force : Bool) (d d' : Disk) : Prop :=
  ∃ t l, template format = .ok t ∧ d.Wrote d' output t l ∧
    (force = false → d.holds output = false ∧
      (d.item? l = none ∨ (missingFolder? d output).isSome ∧ Step.up ∈ output.steps))

theorem onlyFolders_makeMissingFolder (d : Disk) (p : Path) :
    d.OnlyFolders (makeMissingFolder d p).2.2 ∧
      ((missingFolder? d p).isSome ∨ (makeMissingFolder d p).2.2 = d) := by
  simp only [makeMissingFolder]
  split
  · exact ⟨.refl d, .inr rfl⟩
  · next folder hmissing =>
    have hsome : (missingFolder? d p).isSome := hmissing ▸ rfl
    split
    · exact ⟨.of_withFolders d folder, .inl hsome⟩
    · next hmake => exact ⟨.of_makeFolders? hmake, .inl hsome⟩

theorem writeTemplate_eq_ok {format : Text} {log : List LogLine}
    (h : writeTemplate format p d = (.ok d', log)) :
    ∃ t l, template format = .ok t ∧ d.locate p = .ok l ∧ d.Wrote d' p t l := by
  simp only [writeTemplate] at h
  split at h
  · cases h
  · next t ht =>
    split at h
    · cases h
    · next hwrite =>
      obtain ⟨hd, -⟩ := Prod.mk.inj h
      obtain rfl := Except.ok.inj hd
      obtain ⟨l, hl, hwrote⟩ := Disk.wrote_of_write? hwrite
      exact ⟨t, l, ht, hl, hwrote⟩

theorem initialised_of_written {d₁ : Disk} {format : Text} {force : Bool} {log log' : List LogLine}
    (hd : d.IsTree) (hfree : force = false → d.holds p = false)
    (hmake : makeMissingFolder d p = (.ok (), log, d₁))
    (hwrite : writeTemplate format p d₁ = (.ok d', log')) : Initialised p format force d d' := by
  obtain ⟨hfolders, hmissing⟩ := onlyFolders_makeMissingFolder d p
  rw [hmake] at hfolders hmissing
  obtain ⟨t, l, ht, hl, hwrote⟩ := writeTemplate_eq_ok hwrite
  have hothers : ∀ l', l' ≠ l → d'.fileAt? l' = d.fileAt? l' := fun l' hl' =>
    (hwrote.others l' hl').trans (hfolders.fileAt?_eq l')
  refine ⟨t, l, ht, ⟨hwrote.locate, hwrote.file, hothers⟩, fun hforce => ⟨hfree hforce, ?_⟩⟩
  by_cases hup : Step.up ∈ p.steps
  · rcases hmissing with hmissing | rfl
    · exact .inr ⟨hmissing, hup⟩
    · exact .inl (Disk.item?_eq_none_of_holds (hfree hforce) hl)
  · exact .inl (hfolders.item?_eq_none hd (hfree hforce) hl hup)

theorem initialise_cases (hd : d.IsTree) (output : Path) (format : Text) (force : Bool) :
    (∃ e log d', initialise output format force d = (.error e, log, d') ∧ d.OnlyFolders d') ∨
      ∃ log d', initialise output format force d = (.ok (), log, d') ∧
        Initialised output format force d d' := by
  simp only [initialise]
  split
  · exact .inl ⟨_, _, _, rfl, .refl d⟩
  · next hfree =>
    have hfolders := (onlyFolders_makeMissingFolder d output).1
    split
    · next hmake =>
      rw [hmake] at hfolders
      exact .inl ⟨_, _, _, rfl, hfolders⟩
    · next hmake =>
      rw [hmake] at hfolders
      split
      · exact .inl ⟨_, _, _, rfl, hfolders⟩
      · next hwrite =>
        refine .inr ⟨_, _, rfl, initialised_of_written hd (fun hforce => ?_) hmake hwrite⟩
        simpa [hforce] using hfree

/-! ## Running -/

variable {words : List Text} {i : Invocation}

/-- What it means for a run of an invocation to have ended well. -/
def Invocation.Done [Formats] (i : Invocation) (home : Path) (d d' : Disk) : Prop :=
  match i.order with
  | some (.init output format force) => Initialised output format force d d'
  | some (.contents _) => d' = d
  | _ => ∃ s, (i.settings d).1 = .ok s ∧ s.Compiled home d d'

/-- A compile fails with the disk as it was, or ends well with the document compiled. -/
theorem compile_report (i : Invocation) (home : Path) (s : Settings) (log : List LogLine)
    (d : Disk) :
    (∃ message, (i.compile home s log d).status = .failed message) ∧
        (i.compile home s log d).disk = d ∨
      (i.compile home s log d).status = .done ∧
        s.Compiled home d (i.compile home s log d).disk := by
  simp only [Invocation.compile]
  rcases s.compile_cases home i.verbose d with ⟨e, he, hdisk⟩ | ⟨c, hc, hcompiled⟩
  · rw [he]
    exact .inl ⟨⟨_, rfl⟩, hdisk⟩
  · rw [hc]
    exact .inr ⟨rfl, hcompiled⟩

/-- A run fails and has left every file as it was, or it ends well, has done what it was asked to,
and has changed no file besides. -/
theorem run_files [Formats] [CommandLine] (hi : Invocation.ofWords words = .ok i) (hd : d.IsTree)
    (home : Path) :
    (∃ message, (run home words d).status = .failed message) ∧
        (∀ l, (run home words d).disk.fileAt? l = d.fileAt? l) ∨
      (run home words d).status = .done ∧ i.Done home d (run home words d).disk := by
  by_cases hinit : ∃ output format force, i.order = some (.init output format force)
  · obtain ⟨output, format, force, ho⟩ := hinit
    simp only [run, hi, Invocation.run, Invocation.Done, ho]
    rcases initialise_cases hd output format force with
      ⟨e, log, d', he, hfolders⟩ | ⟨log, d', hok, hmade⟩
    · rw [he]
      exact .inl ⟨⟨_, rfl⟩, hfolders.fileAt?_eq⟩
    · rw [hok]
      exact .inr ⟨rfl, hmade⟩
  · have hinit : ∀ output format force, i.order ≠ some (.init output format force) :=
      fun output format force ho => hinit ⟨output, format, force, ho⟩
    rw [run_eq_of_ofWords hi hinit]
    cases hs : (i.settings d).1 with
    | error e => exact .inl ⟨⟨_, rfl⟩, fun l => rfl⟩
    | ok s =>
        rcases ho : i.order with _ | (options | options | ⟨output, format, force⟩)
        case some.init => exact absurd ho (hinit _ _ _)
        case some.contents =>
          simp only [Invocation.printContents, Invocation.Done, ho]
          cases s.contentsList home d with
          | error e => exact .inl ⟨⟨_, rfl⟩, fun l => rfl⟩
          | ok list => exact .inr ⟨rfl, rfl⟩
        all_goals
          simp only [Invocation.Done, ho]
          rcases compile_report i home s (i.settings d).2 d with
            ⟨hfailed, hdisk⟩ | ⟨hdone, hcompiled⟩
          · exact .inl ⟨hfailed, fun l => by rw [hdisk]⟩
          · exact .inr ⟨hdone, s, hs, hcompiled⟩

/-- A document that includes another one, with strict settings. -/
def furnished : Disk where
  workingFolder := []
  items := [(["index.md".toList], .file (.text ":[b](b.md)".toList)),
    (["b.md".toList], .file (.text "B".toList)),
    (["mdcomp.toml".toList], .file (.text "strict = true\n".toList))]

theorem run_files_furnished :
    let words := ["compile", "-i", "index.md", "-o", "out.md"].map String.toList
    ∃ i, Invocation.ofWords words = .ok i ∧ furnished.IsTree ∧
      (run .empty words furnished).status = .done ∧
      ∃ s, (i.settings furnished).1 = .ok s ∧
        s.Compiled .empty furnished (run .empty words furnished).disk := by
  intro words
  let options : Layer :=
    { Layer.blank with input := some ⟨"index.md".toList⟩, output := some ⟨"out.md".toList⟩ }
  have hi : Invocation.ofWords words = .ok ⟨false, [], [], some (.compile options)⟩ := by
    decide +kernel
  have hd : furnished.IsTree := Disk.isTree_of_items (by decide +kernel)
  have hdone : (run .empty words furnished).status = .done := by decide +kernel
  rcases run_files hi hd .empty with ⟨⟨message, hfailed⟩, -⟩ | ⟨-, hcompiled⟩
  · rw [hdone] at hfailed
    cases hfailed
  · exact ⟨_, hi, hd, hdone, hcompiled⟩

/-- A settings file is replaced without force, because its path goes up out of a folder that is made
for it. -/
theorem run_files_overwritten :
    let words := ["init", "-o", "new/../mdcomp.toml"].map String.toList
    let settingsFile : Location := ["mdcomp.toml".toList]
    Invocation.ofWords words =
        .ok ⟨false, [], [], some (.init ⟨"new/../mdcomp.toml".toList⟩ "toml".toList false)⟩ ∧
      furnished.fileAt? settingsFile = some (.text "strict = true\n".toList) ∧
      (run .empty words furnished).status = .done ∧
      (run .empty words furnished).disk.fileAt? settingsFile ≠
        some (.text "strict = true\n".toList) := by
  decide +kernel

/-! ## Loading a settings file that was made

A settings file is made with the template of the format that is asked for, and read in the format
that its extension names.  Nobody looks whether these are the same.  The template of a format is
good settings in that format, the same ones in each (`templated`), and is none in the other
(`settings_template_iff`).  So a run that makes a settings file leaves one that can be loaded
exactly if the path that it was given has the extension of the format (`ofFile_run_init_iff`).

The default path does not follow the format: `init -F json` leaves a file that is found without
being named and then cannot be read (`ofFile_run_init_unreadable`). -/

/-! ### The templates -/

/-- The settings that a template describes. -/
def Settings.templated : Settings where
  input := some ⟨"docs/index.md".toList⟩
  output := some ⟨"build/README.md".toList⟩
  deeper := false
  contents := false
  root := none
  strict := false

/-- What is wrong with a text that is none in a format. -/
def Format.misread : Format → SettingsError
  | .json => .badJson
  | .toml => .badToml

theorem Layer.settings_template (f g : Format) :
    (Layer.ofText g f.template).map Layer.settings =
      if g = f then .ok .templated else .error g.misread := by
  -- both formats at once, so that each template is written out once
  have htoml : (Layer.ofText .toml Format.toml.template).map Layer.settings = .ok .templated ∧
      (Layer.ofText .json Format.toml.template).map Layer.settings = .error .badJson := by
    decide +kernel
  have hjson : (Layer.ofText .json Format.json.template).map Layer.settings = .ok .templated ∧
      (Layer.ofText .toml Format.json.template).map Layer.settings = .error .badToml := by
    decide +kernel
  cases f with
  | toml =>
      cases g with
      | toml => exact htoml.1
      | json => exact htoml.2
  | json =>
      cases g with
      | toml => exact hjson.2
      | json => exact hjson.1

/-- Where a template was written, its settings are read if the path has the extension of its
format, and none otherwise. -/
theorem Settings.ofFile_template {f : Format} (hread : d.read p = .ok f.template) (s : Settings) :
    ofFile d p = .ok s ↔ p.extension?.bind Format.ofName? = some f ∧ s = templated := by
  simp only [ofFile, Layer.ofFile, hread]
  cases p.extension? with
  | none => simp [Except.map]
  | some e =>
      rw [Option.bind_some]
      dsimp only
      cases Format.ofName? e with
      | none => simp [Except.map]
      | some g =>
          dsimp only
          rw [Layer.settings_template, Option.some.injEq]
          by_cases hg : g = f
          · rw [if_pos hg, Except.ok.injEq, and_iff_right hg, eq_comm]
          · rw [if_neg hg]
            exact iff_of_false (by simp) fun h => hg h.1

theorem template_eq_ok {format t : Text} (h : template format = .ok t) :
    ∃ f, Format.ofName? format = some f ∧ t = f.template := by
  simp only [template] at h
  split at h
  · next f hf => exact ⟨f, hf, (Except.ok.inj h).symm⟩
  · cases h

/-! ### Making a settings file and loading it -/

theorem read_of_initialise {format : Text} {force : Bool} {log : List LogLine}
    (h : initialise p format force d = (.ok (), log, d')) :
    ∃ f, Format.ofName? format = some f ∧ d'.read p = .ok f.template := by
  simp only [initialise] at h
  split at h
  · cases h
  · split at h
    · cases h
    · split at h
      · cases h
      · next hwrite =>
        obtain ⟨-, hlast⟩ := Prod.mk.inj h
        obtain ⟨-, rfl⟩ := Prod.mk.inj hlast
        obtain ⟨t, l, ht, -, hwrote⟩ := writeTemplate_eq_ok hwrite
        obtain ⟨f, hf, rfl⟩ := template_eq_ok ht
        exact ⟨f, hf, hwrote.read⟩

/-- A run that makes a settings file leaves one that can be loaded exactly if its path has the
extension of the format, in upper or lower case, and then its settings are those of the template. -/
theorem ofFile_run_init_iff [CommandLine] {home : Path} {words : List Text} {i : Invocation}
    {output : Path} {format : Text} {force : Bool} (hi : Invocation.ofWords words = .ok i)
    (ho : i.order = some (.init output format force)) (hdone : (run home words d).status = .done) :
    ∃ f, Format.ofName? format = some f ∧ ∀ s,
      Settings.ofFile (run home words d).disk output = .ok s ↔
        output.extension?.bind Format.ofName? = some f ∧ s = .templated := by
  simp only [run, hi, Invocation.run, ho] at hdone ⊢
  split at hdone
  · cases hdone
  · next hmade =>
    obtain ⟨f, hf, hread⟩ := read_of_initialise hmade
    exact ⟨f, hf, fun s => Settings.ofFile_template hread s⟩

/-- A disk with nothing on it but the working folder. -/
def Disk.bare : Disk := ⟨[], []⟩

theorem ofFile_run_init_json :
    let words := ["init", "-o", "conf/site.JSON", "-F", "json"].map String.toList
    (run .empty words .bare).status = .done ∧
      Settings.ofFile (run .empty words .bare).disk ⟨"conf/site.JSON".toList⟩ = .ok .templated := by
  intro words
  have hi : Invocation.ofWords words =
      .ok ⟨false, [], [], some (.init ⟨"conf/site.JSON".toList⟩ "json".toList false)⟩ := by
    decide +kernel
  have hdone : (run .empty words .bare).status = .done := by decide +kernel
  obtain ⟨f, hf, hload⟩ := ofFile_run_init_iff hi rfl hdone
  refine ⟨hdone, (hload _).mpr ⟨?_, rfl⟩⟩
  rw [← hf]
  decide

/-- Without a path for it, a file in JSON is made with a name for TOML. -/
theorem ofFile_run_init_unreadable :
    let words := ["init", "-F", "json"].map String.toList
    (run .empty words .bare).status = .done ∧
      Settings.ofFile (run .empty words .bare).disk ⟨"mdcomp.toml".toList⟩ = .error .badToml ∧
      (Settings.load (run .empty words .bare).disk [] []).1 = .error .badToml := by
  decide +kernel

end Compendium
