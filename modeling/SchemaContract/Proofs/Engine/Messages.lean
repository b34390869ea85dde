import SchemaContract.Engine.Failure
import SchemaContract.Proofs.Schema.Pieces

/-!
Messages of failures end within their last line. So what is told of a failure is never what is told
of an engine that ended well, for that ends with a newline.
-/
namespace SchemaContract

theorem EndsWithin.append {b : String} (h : EndsWithin b) (a : String) : EndsWithin (a ++ b) := by
  obtain ⟨c, hc, hne⟩ := h
  refine ⟨c, ?_, hne⟩
  rw [String.toList_append, List.getLast?_append, Option.mem_def.1 hc]
  rfl

theorem endsWithin_repr (n : Nat) : EndsWithin (Nat.repr n) := by
  have hlist : (Nat.repr n).toList ≠ [] := by
    rw [Nat.toList_repr]
    exact Nat.toDigits_ne_nil
  refine ⟨_, List.getLast?_eq_some_getLast hlist, ?_⟩
  intro hnewline
  have hmem := List.getLast_mem hlist
  rw [hnewline, Nat.toList_repr] at hmem
  have hdigit := Nat.isDigit_of_mem_toDigits (by decide) (by decide) hmem
  cases hdigit

/-- A text that is cut behind its last character that is no blank adds no newline at the end. -/
theorem EndsWithin.append_trimEnd {a : String} (h : EndsWithin a) (s : String) :
    EndsWithin (a ++ Text.trimEnd s) := by
  unfold Text.trimEnd
  have hhead := @head?_dropWhile Text.isBlank s.toList.reverse
  cases hkept : s.toList.reverse.dropWhile Text.isBlank with
  | nil => simpa using h
  | cons c cs =>
    rw [hkept] at hhead
    apply EndsWithin.append
    refine ⟨c, ?_, ?_⟩
    · simp
    · rintro rfl
      have hblank := hhead '\n' rfl
      cases hblank

theorem SyntaxError.Cause.endsWithin_message (cause : SyntaxError.Cause) :
    EndsWithin cause.message := by
  cases cause with
  | strayCharacter c => exact EndsWithin.append ⟨'\'', rfl, by decide⟩ _
  | badNumber spelling => exact EndsWithin.append ⟨'l', rfl, by decide⟩ _
  | expected what =>
    apply EndsWithin.append
    cases what <;> exact ⟨_, rfl, by decide⟩
  | unexpected mark? =>
    cases mark? with
    | none => exact ⟨_, rfl, by decide⟩
    | some mark =>
      apply EndsWithin.append
      cases mark <;> exact ⟨_, rfl, by decide⟩
  | _ => exact ⟨_, rfl, by decide⟩

theorem SystemFault.endsWithin_message (fault : SystemFault) : EndsWithin fault.message := by
  cases fault with
  | zeroInPath | zeroInArgument => exact ⟨_, rfl, by decide⟩
  | unnumbered phrase => exact phrase.endsWithin
  | _ => exact EndsWithin.append ⟨')', rfl, by decide⟩ _

theorem ReadFault.endsWithin_message (fault : ReadFault) : EndsWithin fault.message := by
  cases fault with
  | system fault => exact fault.endsWithin_message
  | notText => exact ⟨_, rfl, by decide⟩

/-- No message of a failure ends with a newline. -/
theorem Failure.endsWithin_message (failure : Failure) : EndsWithin failure.message := by
  cases failure with
  | syntaxError error => exact error.cause.endsWithin_message.append _
  | refused refusal =>
    apply EndsWithin.append
    cases refusal <;> exact EndsWithin.append ⟨'\'', rfl, by decide⟩ _
  | unreadable path fault =>
    apply EndsWithin.append
    exact fault.endsWithin_message.append _
  | unwritable fault => exact fault.endsWithin_message.append _
  | badOperationName name => exact EndsWithin.append ⟨'e', rfl, by decide⟩ _
  | argumentsNotList | rootMissing => exact ⟨_, rfl, by decide⟩
  | argumentsNotJson text fault => exact (endsWithin_repr _).append _
  | notLaunched interpreter fault => exact fault.endsWithin_message.append _
  | engineExit code? errors =>
    apply EndsWithin.append_trimEnd
    exact EndsWithin.append ⟨' ', rfl, by decide⟩ _

end SchemaContract
