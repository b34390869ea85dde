import Mathlib
import SchemaContract.Proofs.CommandLine.Options
import SchemaContract.Proofs.Files.Writing

/-!
Runs of the command line. What is made of a file is put out in full, in one of two places, or not at
all; a run that fails before that prints nothing and leaves the files as they were. Runs of the
engine tell of every failure and end well.
-/
namespace SchemaContract.CommandLine

variable {env : Environment} {launcher : Launcher} {fs fs' : FileSystem} {file text : String}
  {gs gs' : List Given} {rest words raised raised' : List String} {options : Options}

/-- What is made of a file that can be read and that holds a program: its tree, or its contract if
nothing in it is refused. -/
def Makes (fs : FileSystem) (file : String) (gs : List Given) (text : String) : Prop :=
  ∃ source program, fs.readText file = .ok source ∧ Program.ofSource source = .ok program ∧
    if .tree ∈ gs then text = program.toJson.pretty
    else program.contract (if .placeholder ∈ gs then .placeholder else .abort) = .ok text

theorem contractOfSource_eq_ok_iff {policy : Policy} {source : String} :
    contractOfSource policy source = .ok text ↔
      ∃ program, Program.ofSource source = .ok program ∧ program.contract policy = .ok text := by
  unfold contractOfSource
  cases Program.ofSource source with
  | error error => simp
  | ok program => cases hp : program.contract policy <;> simp [hp]

theorem product_eq_ok_iff : (Options.ofGiven gs).product file fs = .ok text ↔
    Makes fs file gs text := by
  unfold Options.product Makes
  simp only [Options.ofGiven, decide_eq_true_eq]
  split
  · cases fs.readText file with
    | error fault => simp
    | ok source => cases hs : Program.ofSource source <;> simp [hs, eq_comm]
  · unfold FileSystem.contractOf
    cases fs.readText file with
    | error fault => simp
    | ok source =>
      simp only [Except.ok.injEq, exists_and_left, exists_eq_left', ← contractOfSource_eq_ok_iff]
      cases contractOfSource _ source <;> simp

/-- Without the output that they name, options make the same of a file. -/
theorem makes_filter : Makes fs file (gs.filter (·.path? = none)) text ↔ Makes fs file gs text := by
  simp [Makes, Given.path?]

theorem filterMap_path?_filter (gs : List Given) :
    (gs.filter (·.path? = none)).filterMap Given.path? = [] := by
  simp [List.filterMap_eq_nil_iff]

/-- Everything went well, the text was printed, and nothing else was done. -/
structure Prints (text : String) (fs : FileSystem) (result : Outcome × FileSystem) : Prop where
  code : result.1.code = 0
  output : result.1.output = text
  files : result.2 = fs

/-- Everything went well, the text was put into the file at the path, and nothing was printed. -/
structure Writes (path text : String) (fs : FileSystem) (result : Outcome × FileSystem) : Prop where
  code : result.1.code = 0
  output : result.1.output = ""
  written : result.2.read path = .ok (Text.bytes text)
  others : ∃ place, result.2.placeToWrite path = .ok place ∧
    ∀ other, other ≠ place → result.2.content? other = fs.content? other

/-- The exit code tells of a failure, and nothing was done. -/
structure Fails (fs : FileSystem) (result : Outcome × FileSystem) : Prop where
  code : result.1.code = 1
  output : result.1.output = ""
  files : result.2 = fs

/-- How a command ends whose words are known to be right or wrong. -/
def conclude (env : Environment) (launcher : Launcher) (fs : FileSystem) :
    Except Fault Command → Outcome × FileSystem
  | .error fault => (.of (.error fault), fs)
  | .ok command => (.of (command.run env launcher fs).1, (command.run env launcher fs).2)

theorem fails_conclude_error (fault : Fault) : Fails fs (conclude env launcher fs (.error fault)) :=
  ⟨rfl, rfl, rfl⟩

/-- The words that are left when verbosity is taken out decide the run. -/
theorem run_of_raised (h : Raised words raised) (hwords : ∀ word ∈ words, word ∉ verbosityFlags) :
    run raised env launcher fs = conclude env launcher fs (Command.read words) := by
  have hread : Command.read raised = Command.read words := by
    unfold Command.read
    rw [h.filter_eq hwords, filter_eq_self hwords]
  rw [run, hread]
  cases Command.read words <;> rfl

theorem read_transpile (hrest : ∀ word ∈ "transpile" :: file :: rest, word ∉ verbosityFlags) :
    Command.read ("transpile" :: file :: rest) =
      (Options.initial.read rest).map (.emit file) := by
  unfold Command.read
  rw [filter_eq_self hrest]
  cases h : Options.initial.read rest <;> simp [h, Except.map, bind, Except.bind]

theorem prints_emit (h : Makes fs file gs text) (hpaths : gs.filterMap Given.path? = []) :
    Prints (text ++ "\n") fs (conclude env launcher fs (.ok (.emit file (.ofGiven gs)))) := by
  have hemit : emit file (.ofGiven gs) fs = (.ok ⟨text ++ "\n", ""⟩, fs) := by
    rw [emit, product_eq_ok_iff.2 h]
    simp [Options.deliver, Options.ofGiven, hpaths]
  constructor <;> simp [conclude, Command.run, hemit, Outcome.of]

theorem writes_emit {path : String} (h : Makes fs file gs text)
    (hpaths : gs.filterMap Given.path? = [path])
    (hwrite : fs.write path (Text.bytes (text ++ "\n")) = .ok fs') :
    Writes path (text ++ "\n") fs (conclude env launcher fs (.ok (.emit file (.ofGiven gs)))) := by
  have hemit : emit file (.ofGiven gs) fs = (.ok ⟨"", "wrote: " ++ path ++ "\n"⟩, fs') := by
    rw [emit, product_eq_ok_iff.2 h]
    simp [Options.deliver, Options.ofGiven, hpaths, hwrite]
  obtain ⟨place, hplace, hcontent, hothers, -⟩ := FileSystem.write_eq_ok hwrite
  constructor
  case written => simpa [conclude, Command.run, hemit] using
    FileSystem.read_of_placeToWrite hplace hcontent
  case others => simpa [conclude, Command.run, hemit] using ⟨place, hplace, hothers⟩
  all_goals simp [conclude, Command.run, hemit, Outcome.of]

theorem fails_of_emit {fault : Fault} (h : emit file options fs = (.error fault, fs)) :
    Fails fs (conclude env launcher fs (.ok (.emit file options))) := by
  constructor <;> simp [conclude, Command.run, h, Outcome.of]

theorem fails_emit_of_write {path : String} {fault : SystemFault} (h : Makes fs file gs text)
    (hpaths : gs.filterMap Given.path? = [path])
    (hwrite : fs.write path (Text.bytes (text ++ "\n")) = .error fault) :
    Fails fs (conclude env launcher fs (.ok (.emit file (.ofGiven gs)))) := by
  have hemit : emit file (.ofGiven gs) fs = (.error (.unwritable path fault), fs) := by
    rw [emit, product_eq_ok_iff.2 h]
    simp [Options.deliver, Options.ofGiven, hpaths, hwrite]
  exact fails_of_emit hemit

theorem fails_emit (h : ∀ text, ¬Makes fs file gs text) :
    Fails fs (conclude env launcher fs (.ok (.emit file (.ofGiven gs)))) := by
  cases hproduct : (Options.ofGiven gs).product file fs with
  | error fault =>
    have hemit : emit file (.ofGiven gs) fs = (.error fault, fs) := by rw [emit, hproduct]
    exact fails_of_emit hemit
  | ok text => exact absurd (product_eq_ok_iff.1 hproduct) (h text)

theorem not_mem_verbosityFlags_of_fits (hfile : file ∉ verbosityFlags) (hfits : ∀ g ∈ gs, g.Fits) :
    ∀ word ∈ "transpile" :: file :: gs.flatMap Given.words, word ∉ verbosityFlags := by
  intro word hword
  rcases List.mem_cons.1 hword with rfl | hword
  · decide
  rcases List.mem_cons.1 hword with rfl | hword
  · exact hfile
  obtain ⟨g, hg, hword⟩ := List.mem_flatMap.1 hword
  have hfit := hfits g hg
  cases g with
  | output path =>
    rcases List.mem_cons.1 hword with rfl | hword
    · decide
    · rwa [List.mem_singleton.1 hword]
  | tree | placeholder =>
    rw [List.mem_singleton.1 hword]
    decide
  | unknown other =>
    rw [List.mem_singleton.1 hword]
    exact hfit.1

theorem run_of_known (hfile : file ∉ verbosityFlags) (hfits : ∀ g ∈ gs, g.Fits)
    (hknown : ∀ g ∈ gs, g.isUnknown = false)
    (h : Raised ("transpile" :: file :: gs.flatMap Given.words) raised) :
    run raised env launcher fs = conclude env launcher fs (.ok (.emit file (.ofGiven gs))) := by
  have hwords := not_mem_verbosityFlags_of_fits hfile hfits
  rw [run_of_raised h hwords, read_transpile hwords, read_of_known _ hknown, foldl_apply_initial]
  rfl

theorem fails_of_unknown (hfile : file ∉ verbosityFlags) (hfits : ∀ g ∈ gs, g.Fits)
    (hunknown : ∃ g ∈ gs, g.isUnknown = true)
    (h : Raised ("transpile" :: file :: gs.flatMap Given.words) raised) :
    Fails fs (run raised env launcher fs) := by
  have hwords := not_mem_verbosityFlags_of_fits hfile hfits
  obtain ⟨fault, hfault⟩ := read_of_unknown Options.initial hfits hunknown
  rw [run_of_raised h hwords, read_transpile hwords, hfault]
  exact fails_conclude_error fault

/-- What is done does not depend on the order of options or on words of verbosity. -/
theorem run_of_perm (hfile : file ∉ verbosityFlags) (hfits : ∀ g ∈ gs, g.Fits)
    (hone : (gs.filterMap Given.path?).length ≤ 1) (hperm : gs.Perm gs')
    (h : Raised ("transpile" :: file :: gs.flatMap Given.words) raised)
    (h' : Raised ("transpile" :: file :: gs'.flatMap Given.words) raised') :
    (run raised env launcher fs).1.code = (run raised' env launcher fs).1.code ∧
      (run raised env launcher fs).1.output = (run raised' env launcher fs).1.output ∧
      (run raised env launcher fs).2 = (run raised' env launcher fs).2 := by
  have hfits' : ∀ g ∈ gs', g.Fits := fun g hg => hfits g (hperm.mem_iff.2 hg)
  by_cases hunknown : ∃ g ∈ gs, g.isUnknown = true
  · have hfails : Fails fs (run raised env launcher fs) := fails_of_unknown hfile hfits hunknown h
    have hfails' : Fails fs (run raised' env launcher fs) := by
      obtain ⟨g, hg, hu⟩ := hunknown
      exact fails_of_unknown hfile hfits' ⟨g, hperm.mem_iff.1 hg, hu⟩ h'
    exact ⟨hfails.code.trans hfails'.code.symm, hfails.output.trans hfails'.output.symm,
      hfails.files.trans hfails'.files.symm⟩
  · have hknown : ∀ g ∈ gs, g.isUnknown = false := by simpa using hunknown
    have hknown' : ∀ g ∈ gs', g.isUnknown = false := fun g hg => hknown g (hperm.mem_iff.2 hg)
    rw [run_of_known hfile hfits hknown h, run_of_known hfile hfits' hknown' h',
      ofGiven_of_perm hperm hone]
    exact ⟨rfl, rfl, rfl⟩

/-- When options cannot be read, or nothing can be made of the file, nothing is done. -/
theorem fails_of_not_makes (hfile : file ∉ verbosityFlags)
    (hrest : ∀ word ∈ rest, word ∉ verbosityFlags)
    (h : Raised ("transpile" :: file :: rest) raised)
    (hmakes : ¬∃ gs text, (∀ g ∈ gs, g.isUnknown = false) ∧ rest = gs.flatMap Given.words ∧
      Makes fs file gs text) :
    Fails fs (run raised env launcher fs) := by
  have hwords : ∀ word ∈ "transpile" :: file :: rest, word ∉ verbosityFlags := by
    simp only [List.mem_cons, forall_eq_or_imp]
    exact ⟨by decide, hfile, hrest⟩
  rw [run_of_raised h hwords, read_transpile hwords]
  cases hread : Options.initial.read rest with
  | error fault => exact fails_conclude_error fault
  | ok options =>
    obtain ⟨gs, hknown, hgs, rfl⟩ := given_of_read hread
    rw [foldl_apply_initial]
    exact fails_emit fun text hm => hmakes ⟨gs, text, hknown, hgs, hm⟩

/-- What is told of the engine: what it wrote, or the failure, which may be one of the settings. -/
def told (env : Environment) (fs : FileSystem) (work : Settings → Work String) : String :=
  match Settings.ofEnvironment? env (FileSystem.pathOf fs.home) with
  | none => Failure.rootMissing.message
  | some settings => report ((work settings).from fs).1

theorem runEngine_output (work : Settings → Work String) :
    (runEngine env (fun s fs => (report ((work s).from fs).1, ((work s).from fs).2)) fs).1.output =
      told env fs work := by
  unfold runEngine told
  cases Settings.ofEnvironment? env (FileSystem.pathOf fs.home) <;> rfl

theorem told_automock {operation arguments : String}
    (hwords : ∀ word ∈ [file, operation, arguments], word ∉ verbosityFlags)
    (h : Raised ["automock", file, operation, arguments] raised) :
    (run raised env launcher fs).1.code = 0 ∧
      (run raised env launcher fs).1.output =
        told env fs (·.runMock launcher .abort file operation arguments) := by
  have hall : ∀ word ∈ ["automock", file, operation, arguments], word ∉ verbosityFlags :=
    List.forall_mem_cons.2 ⟨by decide, hwords⟩
  have hread : Command.read ["automock", file, operation, arguments] =
      .ok (.automock file operation arguments) := by
    unfold Command.read
    rw [filter_eq_self hall]
    rfl
  rw [run_of_raised h hall, hread]
  exact ⟨rfl, runEngine_output _⟩

theorem told_fuzz {operation : String}
    (hwords : ∀ word ∈ [file, operation], word ∉ verbosityFlags)
    (h : Raised ["fuzz", file, operation] raised) :
    (run raised env launcher fs).1.code = 0 ∧
      (run raised env launcher fs).1.output =
        told env fs (·.runFuzz launcher .abort file operation) := by
  have hall : ∀ word ∈ ["fuzz", file, operation], word ∉ verbosityFlags :=
    List.forall_mem_cons.2 ⟨by decide, hwords⟩
  have hread : Command.read ["fuzz", file, operation] = .ok (.fuzz file operation) := by
    unfold Command.read
    rw [filter_eq_self hall]
    rfl
  rw [run_of_raised h hall, hread]
  exact ⟨rfl, runEngine_output _⟩

/-- Making the contract or the tree of a file is all or nothing, and does not depend on how words
are ordered. Options of which at most one names an output do the same in every order and with
verbosity put anywhere. When the options cannot be read, or nothing is made of the file, nothing is
printed and no file is touched. Else the product is printed, or with an output the same bytes are
written there and nothing is printed. Runs of the engine end well and print what is told of it. -/
theorem transpile_all_or_nothing (env : Environment) (launcher : Launcher) (fs : FileSystem)
    {file : String} (hfile : file ∉ verbosityFlags) :
    (∀ (gs gs' : List Given) (raised raised' : List String), (∀ g ∈ gs, g.Fits) →
      (gs.filterMap Given.path?).length ≤ 1 → gs.Perm gs' →
      Raised ("transpile" :: file :: gs.flatMap Given.words) raised →
      Raised ("transpile" :: file :: gs'.flatMap Given.words) raised' →
      (run raised env launcher fs).1.code = (run raised' env launcher fs).1.code ∧
        (run raised env launcher fs).1.output = (run raised' env launcher fs).1.output ∧
        (run raised env launcher fs).2 = (run raised' env launcher fs).2) ∧
    (∀ rest raised, (∀ word ∈ rest, word ∉ verbosityFlags) →
      Raised ("transpile" :: file :: rest) raised →
      (¬∃ gs text, (∀ g ∈ gs, g.isUnknown = false) ∧ rest = gs.flatMap Given.words ∧
        Makes fs file gs text) →
      Fails fs (run raised env launcher fs)) ∧
    (∀ (gs : List Given) text plain, (∀ g ∈ gs, g.Fits) → (∀ g ∈ gs, g.isUnknown = false) →
      Makes fs file gs text →
      Raised ("transpile" :: file :: (gs.filter (·.path? = none)).flatMap Given.words) plain →
      Prints (text ++ "\n") fs (run plain env launcher fs) ∧
        ∀ path raised, gs.filterMap Given.path? = [path] →
          Raised ("transpile" :: file :: gs.flatMap Given.words) raised →
          Writes path (run plain env launcher fs).1.output fs (run raised env launcher fs) ∨
            (∃ fault, fs.write path (Text.bytes (run plain env launcher fs).1.output) =
              .error fault) ∧
              Fails fs (run raised env launcher fs)) ∧
    (∀ operation arguments raised, (∀ word ∈ [operation, arguments], word ∉ verbosityFlags) →
      Raised ["automock", file, operation, arguments] raised →
      (run raised env launcher fs).1.code = 0 ∧
        (run raised env launcher fs).1.output =
          told env fs (·.runMock launcher .abort file operation arguments)) ∧
    (∀ operation raised, operation ∉ verbosityFlags → Raised ["fuzz", file, operation] raised →
      (run raised env launcher fs).1.code = 0 ∧
        (run raised env launcher fs).1.output =
          told env fs (·.runFuzz launcher .abort file operation)) := by
  refine ⟨?order, ?failure, ?success, ?automock, ?fuzz⟩
  case order =>
    intro gs gs' raised raised' hfits hone hperm h h'
    exact run_of_perm hfile hfits hone hperm h h'
  case failure =>
    intro rest raised hrest h hmakes
    exact fails_of_not_makes hfile hrest h hmakes
  case success =>
    intro gs text plain hfits hknown hmakes hplain
    have hprints : Prints (text ++ "\n") fs (run plain env launcher fs) := by
      rw [run_of_known hfile (fun g hg => hfits g (List.mem_of_mem_filter hg))
        (fun g hg => hknown g (List.mem_of_mem_filter hg)) hplain]
      exact prints_emit (makes_filter.2 hmakes) (filterMap_path?_filter gs)
    refine ⟨hprints, fun path raised hpaths h => ?_⟩
    rw [hprints.output, run_of_known hfile hfits hknown h]
    cases hwrite : fs.write path (Text.bytes (text ++ "\n")) with
    | ok fs' => exact .inl (writes_emit hmakes hpaths hwrite)
    | error fault => exact .inr ⟨⟨fault, rfl⟩, fails_emit_of_write hmakes hpaths hwrite⟩
  case automock =>
    intro operation arguments raised hwords h
    exact told_automock (List.forall_mem_cons.2 ⟨hfile, hwords⟩) h
  case fuzz =>
    intro operation raised hword h
    exact told_fuzz (List.forall_mem_cons.2 ⟨hfile, List.forall_mem_singleton.2 hword⟩) h

theorem transpile_all_or_nothing_output :
    let fs : FileSystem :=
      ⟨["h"], [(["h"], .directory), (["h", "m"], .file (Text.bytes "model A \x7b\x7d"))]⟩
    let launcher : Launcher := fun _ fs => (.error .notFound, fs)
    let text := "namespace Main;\n\nentity A \x7b\n\x7d"
    "m" ∉ verbosityFlags ∧ Makes fs "m" [.output "p"] text ∧
      Prints (text ++ "\n") fs (run ["-v", "transpile", "m"] [] launcher fs) ∧
      Writes "p" (text ++ "\n") fs
        (run ["transpile", "m", "--output", "--debug", "p"] [] launcher fs) := by
  intro fs launcher text
  have hfile : "m" ∉ verbosityFlags := by decide
  have hmakes : Makes fs "m" [.output "p"] text := by
    have hread : fs.readText "m" = .ok "model A \x7b\x7d" := by cbv
    have hsource : Program.ofSource "model A \x7b\x7d" = .ok ⟨[.model ⟨"A", [], none, []⟩]⟩ := by
      cbv
    refine ⟨_, _, hread, hsource, ?_⟩
    rw [if_neg (by decide)]
    rfl
  have hplain : Raised ["transpile", "m"] ["-v", "transpile", "m"] :=
    .flag (by decide) (.word _ (.word _ .nil))
  have hraised : Raised ["transpile", "m", "--output", "p"]
      ["transpile", "m", "--output", "--debug", "p"] :=
    .word _ (.word _ (.word _ (.flag (by decide) (.word _ .nil))))
  have hfits : ∀ g ∈ [Given.output "p"], g.Fits := by
    simp [Given.Fits, verbosityFlags]
  have hknown : ∀ g ∈ [Given.output "p"], g.isUnknown = false := by decide
  obtain ⟨-, -, hsuccess, -⟩ := transpile_all_or_nothing [] launcher fs hfile
  obtain ⟨hprints, hwrites⟩ := hsuccess _ _ _ hfits hknown hmakes hplain
  refine ⟨hfile, hmakes, hprints, ?_⟩
  have houtput := hwrites "p" _ rfl hraised
  rw [hprints.output] at houtput
  rcases houtput with hwritten | ⟨⟨fault, hfault⟩, -⟩
  · exact hwritten
  · have hwrite : ∃ fs', fs.write "p" (Text.bytes (text ++ "\n")) = .ok fs' := ⟨_, rfl⟩
    obtain ⟨fs', hwrite⟩ := hwrite
    rw [hwrite] at hfault
    cases hfault

end SchemaContract.CommandLine
