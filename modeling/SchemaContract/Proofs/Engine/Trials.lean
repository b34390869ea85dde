import SchemaContract.Proofs.Engine.Generation
import SchemaContract.Proofs.Engine.Messages

/-!
Trials of operations by the engine. If something is not in order, no file is touched and the engine
is not launched. Otherwise it is launched once, on the contract of the source as it was and the
manifest that lists it.
-/
namespace SchemaContract

/-- What comes of a launch: what the engine wrote, when it ends well. -/
def Settings.outcome (s : Settings) : Except SystemFault Exit → Except Failure String
  | .error fault => .error (.notLaunched s.interpreter fault)
  | .ok exit =>
    if exit.code? = some 0 then .ok (Text.ofBytesLossy exit.output)
    else .error (.engineExit exit.code? exit.errors)

theorem Settings.from_launch (s : Settings) (launcher : Launcher) (arguments : List String)
    (fs : FileSystem) :
    (s.launch launcher arguments).from fs =
      (s.outcome (launcher ⟨s.interpreter, s.script, arguments⟩ fs).1,
        (launcher ⟨s.interpreter, s.script, arguments⟩ fs).2) := by
  unfold Settings.launch
  rw [Work.from_bind, Work.from_get]
  dsimp only
  rcases launcher ⟨s.interpreter, s.script, arguments⟩ fs with ⟨_ | exit, fs'⟩
  · rfl
  · dsimp only [outcome]
    rw [Work.from_bind, Work.from_set]
    dsimp only
    split <;> rfl

theorem isName_iff {s : String} : isName s = true ↔ Lexeme.IsName s.toList := by
  unfold isName Lexeme.IsName
  cases s.toList with
  | nil => exact ⟨nofun, nofun⟩
  | cons c cs => simp only [Bool.and_eq_true, List.all_eq_true]

theorem entrypointName_of_isName {name : String} (h : Lexeme.IsName name.toList) :
    entrypointName name = .ok ("Main::" ++ name) :=
  if_pos (isName_iff.2 h)

theorem entrypointName_of_not_isName {name : String} (h : ¬ Lexeme.IsName name.toList) :
    entrypointName name = .error (.badOperationName name) :=
  if_neg fun hname => h (isName_iff.1 hname)

theorem argumentList_of_list {text : String} {items : List Json}
    (h : Json.read text.toList = .ok (.list items)) :
    argumentList text = .ok ("[" ++ ", ".intercalate (items.map Json.compact) ++ "]") := by
  unfold argumentList
  rw [h]

theorem argumentList_of_ne_list {text : String} {value : Json}
    (h : Json.read text.toList = .ok value) (hvalue : ∀ items, value ≠ .list items) :
    argumentList text = .error .argumentsNotList := by
  unfold argumentList
  rw [h]
  cases value with
  | list items => exact absurd rfl (hvalue items)
  | _ => rfl

theorem argumentList_of_error {text : String} {fault : Json.Fault}
    (h : Json.read text.toList = .error fault) :
    argumentList text = .error (.argumentsNotJson text fault) := by
  unfold argumentList
  rw [h]

/-- A trial of an operation: on arguments, or on arguments of the engine's choice. -/
inductive Trial where
  | mock (operation arguments : String)
  | fuzz (operation : String)

namespace Trial

def operation : Trial → String
  | mock operation _ | fuzz operation => operation

def run (s : Settings) (launcher : Launcher) (policy : Policy) (file : String) :
    Trial → FileSystem → String × FileSystem
  | mock operation arguments => s.automock launcher policy file operation arguments
  | fuzz operation => s.fuzz launcher policy file operation

def WellCalled : Trial → Prop
  | mock operation arguments =>
    Lexeme.IsName operation.toList ∧ ∃ items, Json.read arguments.toList = .ok (.list items)
  | fuzz operation => Lexeme.IsName operation.toList

inductive Fails (policy : Policy) (file : String) (fs : FileSystem) : Trial → Failure → Prop
  | name {t : Trial} (hname : ¬ Lexeme.IsName t.operation.toList) :
      Fails policy file fs t (.badOperationName t.operation)
  | json {operation arguments : String} {fault : Json.Fault}
      (hname : Lexeme.IsName operation.toList) (hread : Json.read arguments.toList = .error fault) :
      Fails policy file fs (.mock operation arguments) (.argumentsNotJson arguments fault)
  | list {operation arguments : String} {value : Json} (hname : Lexeme.IsName operation.toList)
      (hread : Json.read arguments.toList = .ok value) (hvalue : ∀ items, value ≠ .list items) :
      Fails policy file fs (.mock operation arguments) .argumentsNotList
  | reading {t : Trial} {fault : ReadFault} (hcall : t.WellCalled)
      (hread : fs.readText file = .error fault) :
      Fails policy file fs t (.unreadable file fault)
  | parsing {t : Trial} {source : String} {error : SyntaxError} (hcall : t.WellCalled)
      (hread : fs.readText file = .ok source) (hparse : Program.ofSource source = .error error) :
      Fails policy file fs t (.syntaxError error)
  | translating {t : Trial} {source : String} {program : Program} {refusal : Refusal}
      (hcall : t.WellCalled) (hread : fs.readText file = .ok source)
      (hparse : Program.ofSource source = .ok program)
      (hcontract : program.contract policy = .error refusal) :
      Fails policy file fs t (.refused refusal)

def arguments (s : Settings) : Trial → Except Failure (List String)
  | mock operation arguments => do
    let entrypoint ← entrypointName operation
    let list ← argumentList arguments
    .ok ["symrun", s.manifestFile, "--entrypoint", entrypoint, "--args", list]
  | fuzz operation => do
    let entrypoint ← entrypointName operation
    .ok ["fuzz", s.manifestFile, "--entrypoint", entrypoint]

variable {s : Settings} {policy : Policy} {file : String} {fs fs' : FileSystem} {t : Trial}

theorem exists_arguments (s : Settings) (h : t.WellCalled) :
    ∃ arguments, t.arguments s = .ok arguments := by
  cases t with
  | mock operation list =>
    obtain ⟨hname, items, hread⟩ := h
    exact ⟨_, bind_eq_ok_iff.2 ⟨_, entrypointName_of_isName hname,
      bind_eq_ok_iff.2 ⟨_, argumentList_of_list hread, rfl⟩⟩⟩
  | fuzz operation =>
    exact ⟨_, bind_eq_ok_iff.2 ⟨_, entrypointName_of_isName h, rfl⟩⟩

variable (t s policy file fs)

/-- The engine is launched once, and on these files: what is told and left is what comes of that. -/
def Launches (launch : Launch) (fs' : FileSystem) : Prop :=
  ∀ launcher, t.run s launcher policy file fs =
    (report (s.outcome (launcher launch fs').1), (launcher launch fs').2)

variable {t s policy file fs}

theorem Launches.unique {launch launch' : Launch} {fs₁ fs₂ : FileSystem}
    (h : t.Launches s policy file fs launch fs₁) (h' : t.Launches s policy file fs launch' fs₂) :
    launch' = launch ∧ fs₂ = fs₁ := by
  classical
  by_contra hne
  let launcher : Launcher := fun l f =>
    (.error .notFound, if l = launch ∧ f = fs₁ then ⟨[], []⟩ else ⟨["elsewhere"], []⟩)
  have hleft := (h launcher).symm.trans (h' launcher)
  have hfiles := congrArg Prod.snd hleft
  simp only [launcher, and_self, if_true, if_neg hne] at hfiles
  cases hfiles

end Trial

end SchemaContract
