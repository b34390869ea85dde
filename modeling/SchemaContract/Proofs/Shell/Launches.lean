import SchemaContract.Proofs.Engine.Trials
import SchemaContract.Shell.Run

/-!
What launched scripts keep. Commands that run beside a session leave it as it was, but for their
status and for the world that all share; a script that is launched ends with a code of its own, and
nobody's current directory changes.
-/
namespace SchemaContract.Shell

/-- A session that has its own variables, functions, arguments and descriptors still, in the current
directory that it was in. -/
inductive Session.Kept (s : Session) : Session → Prop
  | intro (status outputStatus : Nat) (flow : Flow) (world : World)
      (home : world.files.home = s.world.files.home) :
      Kept s { s with
        status := status, outputStatus := outputStatus, flow := flow, world := world }

namespace Session.Kept

theorem refl (s : Session) : s.Kept s :=
  .intro s.status s.outputStatus s.flow s.world rfl

theorem trans {s t u : Session} (h : s.Kept t) (h' : t.Kept u) : s.Kept u := by
  cases h with
  | intro _ _ _ _ home =>
    cases h' with
    | intro status outputStatus flow world home' =>
      exact .intro status outputStatus flow world (home'.trans home)

theorem behindLoop {s t : Session} (h : Kept { s with loops := s.loops + 1 } t) :
    s.Kept { t with loops := t.loops - 1 } := by
  cases h with
  | intro status outputStatus flow world home =>
    exact .intro status outputStatus flow world home

end Session.Kept

/-- That all a command does to the session is done in subshells, pipelines and the background. -/
inductive Command.Enclosed : Command → Prop
  | nothing : Enclosed .nothing
  | pipeline (first second : Command) : Enclosed (.pipeline first second)
  | background (body : Command) : Enclosed (.background body)
  | subshell (body : Command) : Enclosed (.subshell body)
  | sequence {first second : Command} (h : Enclosed first) (h' : Enclosed second) :
      Enclosed (.sequence first second)
  | both {first second : Command} (h : Enclosed first) (h' : Enclosed second) :
      Enclosed (.both first second)
  | either {first second : Command} (h : Enclosed first) (h' : Enclosed second) :
      Enclosed (.either first second)
  | negation {body : Command} (h : Enclosed body) : Enclosed (.negation body)
  | choice {condition positive negative : Command} (h : Enclosed condition)
      (hpositive : Enclosed positive) (hnegative : Enclosed negative) :
      Enclosed (.choice condition positive negative)
  | loop {succeeding : Bool} {condition body : Command} (h : Enclosed condition)
      (hbody : Enclosed body) : Enclosed (.loop succeeding condition body)

namespace Run

/-- That work keeps every session that it is done in. -/
def Keeps {α : Type} (work : Run α) : Prop :=
  ∀ s : Session, s.Kept (work.run s).2

theorem keeps_pure {α : Type} (a : α) : Keeps (pure a : Run α) :=
  Session.Kept.refl

theorem kept_bind {α β : Type} {s : Session} {work : Run α} {next : α → Run β}
    (h : s.Kept (work.run s).2) (h' : ∀ a, Keeps (next a)) : s.Kept ((work >>= next).run s).2 :=
  h.trans (h' _ _)

theorem Keeps.bind {α β : Type} {work : Run α} {next : α → Run β} (h : Keeps work)
    (h' : ∀ a, Keeps (next a)) : Keeps (work >>= next) :=
  fun s => kept_bind (h s) h'

/-- Work that depends on the session it is done in. -/
theorem keeps_of_get {α : Type} {next : Session → Run α}
    (h : ∀ s : Session, s.Kept ((next s).run s).2) : Keeps (get >>= next) :=
  h

theorem keeps_get : Keeps (get : Run Session) :=
  Session.Kept.refl

theorem Keeps.ite {α : Type} {c : Prop} [Decidable c] {work other : Run α} (h : Keeps work)
    (h' : Keeps other) : Keeps (if c then work else other) := by
  split
  · exact h
  · exact h'

theorem keeps_setStatus (status : Nat) : Keeps (setStatus status) :=
  fun _ => .intro status _ _ _ rfl

theorem keeps_isRunning : Keeps isRunning :=
  Session.Kept.refl

theorem keeps_endOnFailure (tested : Bool) : Keeps (endOnFailure tested) := by
  refine keeps_of_get fun s => ?_
  split
  · exact .intro _ _ .ended _ rfl
  · exact .refl s

theorem keeps_goesOn : Keeps goesOn := by
  refine keeps_of_get fun s => ?_
  split
  · exact .refl s
  · exact .intro _ _ .running _ rfl
  · exact .intro _ _ .running _ rfl
  · exact .intro _ _ _ _ rfl
  · exact .intro _ _ _ _ rfl
  · exact .refl s

theorem Keeps.inLoop {work : Run Unit} (h : Keeps work) : Keeps (inLoop work) :=
  fun _ => (h _).behindLoop

theorem keeps_apart {α : Type} (work : Run α) : Keeps (apart work) :=
  fun _ => .intro _ _ _ _ rfl

theorem keeps_subshell (execute : Command → Run Unit) (work : Run Unit) :
    Keeps (subshell execute work) :=
  keeps_apart _

theorem keeps_piped (execute : Command → Run Unit) (first second : Run Unit) :
    Keeps (piped execute first second) :=
  keeps_of_get fun _ => kept_bind (.intro _ _ _ _ rfl) fun _ =>
    .bind (keeps_subshell execute _) fun _ => keeps_subshell execute _

mutual

/-- What is done beside a session leaves it as it was, however often it is repeated. -/
theorem keeps_command : ∀ (fuel : Nat) (tested : Bool) {c : Command}, c.Enclosed →
    Keeps (command fuel tested c)
  | 0, _, _, _ => fun _ => .intro _ _ _ _ rfl
  | fuel + 1, tested, c, hc => by
    unfold command
    refine .bind keeps_isRunning fun _ => .ite ?_ (keeps_pure ())
    cases hc with
    | nothing => exact keeps_setStatus 0
    | pipeline first second =>
      exact .bind (keeps_piped _ _ _) fun _ => keeps_endOnFailure tested
    | background body => exact .bind (keeps_subshell _ _) fun _ => keeps_setStatus 0
    | subshell body => exact .bind (keeps_subshell _ _) fun _ => keeps_endOnFailure tested
    | sequence h h' =>
      exact .bind (keeps_command fuel tested h) fun _ => keeps_command fuel tested h'
    | both h h' =>
      exact .bind (keeps_command fuel true h) fun _ => .bind keeps_get fun _ =>
        .ite (keeps_command fuel tested h') (keeps_pure ())
    | either h h' =>
      exact .bind (keeps_command fuel true h) fun _ => .bind keeps_get fun _ =>
        .ite (keeps_command fuel tested h') (keeps_pure ())
    | negation h =>
      exact .bind (keeps_command fuel true h) fun _ => .bind keeps_isRunning fun _ =>
        .ite (fun _ => .intro _ _ _ _ rfl) (keeps_pure ())
    | choice h hpositive hnegative =>
      refine .bind (keeps_command fuel true h) fun _ => .bind keeps_isRunning fun _ =>
        .ite (.bind keeps_get fun _ => ?_) (keeps_pure ())
      exact .ite (keeps_command fuel tested hpositive) (keeps_command fuel tested hnegative)
    | loop h hbody => exact keeps_loop fuel tested _ h hbody 0

theorem keeps_loop : ∀ (fuel : Nat) (tested succeeding : Bool) {condition body : Command},
    condition.Enclosed → body.Enclosed → ∀ status : Nat,
      Keeps (loop fuel tested succeeding condition body status)
  | 0, _, _, _, _, _, _, _ => fun _ => .intro _ _ _ _ rfl
  | fuel + 1, tested, succeeding, _, _, h, hbody, status => by
    unfold loop
    refine .bind (keeps_command fuel true h).inLoop fun _ => .bind keeps_goesOn fun _ =>
      .ite (.bind keeps_get fun _ => .ite ?_ (keeps_setStatus status)) (keeps_pure ())
    exact .bind (keeps_command fuel tested hbody).inLoop fun _ => .bind keeps_goesOn fun _ =>
      .ite (.bind keeps_get fun _ => keeps_loop fuel tested succeeding h hbody _) (keeps_pure ())

end

end Run

/-- That a program is there, and that all it is launched by can be handed to it. -/
def Launchable (files : FileSystem) (launch : Launch) : Prop :=
  wordFault? (launch.interpreter :: launch.script :: launch.arguments) = none ∧
    ∃ program, programAt files launch.interpreter = .ok program

variable {files : FileSystem} {launch : Launch}

/-- A program ends by itself, with a code of one byte, and in the directory that it began in. -/
theorem launcher_of_launchable (env : Environment) (h : Launchable files launch) :
    ∃ exit after, launcher env launch files = (.ok exit, after) ∧
      (∃ code : Nat, code < 256 ∧ exit.code? = some (code : Int)) ∧ after.home = files.home := by
  obtain ⟨hwords, program, hprogram⟩ := h
  unfold launcher
  dsimp only
  rw [hwords]
  dsimp only
  rw [hprogram]
  exact ⟨_, _, rfl, ⟨_, Nat.mod_lt _ (by decide), rfl⟩, rfl⟩

/-- What is not launched has touched nothing. -/
theorem launcher_of_not_launchable (env : Environment) (h : ¬ Launchable files launch) :
    ∃ fault, launcher env launch files = (.error fault, files) := by
  unfold launcher
  dsimp only
  cases hwords : wordFault? (launch.interpreter :: launch.script :: launch.arguments) with
  | some fault => exact ⟨fault, rfl⟩
  | none =>
    dsimp only
    cases hprogram : programAt files launch.interpreter with
    | error fault => exact ⟨fault, rfl⟩
    | ok program => exact absurd ⟨hwords, program, hprogram⟩ h

/-- What can come of the shell in the place of the engine: its output, a code that tells that it
failed, or that it was not launched, and then no file is touched. -/
theorem launch_cases (s : Settings) (env : Environment) (arguments : List String)
    (files : FileSystem) :
    ∃ result after, (s.launch (launcher env) arguments).from files = (result, after) ∧
      after.home = files.home ∧
      ((∃ output, result = .ok output) ∨
        (∃ code errors, result = .error (.engineExit (some code) errors) ∧ 0 < code ∧ code < 256) ∨
        ∃ fault, result = .error (.notLaunched s.interpreter fault) ∧ after = files) := by
  rw [Settings.from_launch]
  by_cases h : Launchable files ⟨s.interpreter, s.script, arguments⟩
  · obtain ⟨exit, after, hlaunch, ⟨code, hlt, hcode⟩, hhome⟩ := launcher_of_launchable env h
    rw [hlaunch]
    refine ⟨_, after, rfl, hhome, ?_⟩
    unfold Settings.outcome
    dsimp only
    rw [hcode]
    split
    · exact .inl ⟨_, rfl⟩
    · next hzero =>
      refine .inr (.inl ⟨code, exit.errors, rfl, ?_, by omega⟩)
      have hne : (code : Int) ≠ 0 := fun heq => hzero (congrArg some heq)
      omega
  · obtain ⟨fault, hlaunch⟩ := launcher_of_not_launchable env h
    rw [hlaunch]
    exact ⟨_, files, rfl, rfl, .inr (.inr ⟨fault, rfl, rfl⟩)⟩

end SchemaContract.Shell
