import SchemaContract.Proofs.Walk.Statements

/-!
Walks over the tokens of a text as a whole. Every walk ends, and where the grammar does. Nothing on
record is outside the cells, and the walk never halts for another reason than a fault of the text.
-/
namespace SchemaContract
namespace Walk

variable {text : List Char} {tokens : Tokens}

theorem follows_program :
    Follows text tokens ⟨.program, 0⟩ program tokens.list
      ((Grammar.statements tokens.list).map fun ss => Found.before ⟨ss⟩ []) := by
  have hstart : (⟨.program, 0⟩ : Entry).MayEnter tokens .statements tokens.list :=
    .inr ⟨Nat.zero_add _, by decide⟩
  have hobeys : Obeys text tokens .statements _ _ _ := obeys_statements tokens.list
  have hw := (hobeys.follows hstart).map (f := Program.mk)
    (g := fun found => found.map Program.mk) fun _ => ⟨rfl, rfl⟩
  rw [map_eq_pure_bind] at hw
  cases hs : Grammar.statements tokens.list <;> rw [hs] at hw <;> exact hw

theorem walk_eq (text : List Char) (tokens : Tokens) :
    ∃ final,
      tokens.walk text = some ((Program.ofTokens text tokens).mapError Halt.fault, final) ∧
        (∀ e ∈ final.record, e.Sound tokens ⟨.program, 0⟩) ∧
          ∀ p, Program.ofTokens text tokens = .ok p → final.index = tokens.list.length := by
  have hprogram : Follows text tokens _ _ _ _ := follows_program
  obtain ⟨-, events, hsound, hw⟩ := hprogram List.suffix_rfl
  have hw := hw [.stands 0]
  rw [Nat.sub_self] at hw
  have hrecord : ∀ e ∈ [.stands 0] ++ events, e.Sound tokens ⟨.program, 0⟩ := by
    intro e he
    rcases List.mem_cons.1 he with rfl | he
    · rw [Event.Sound, cells_length]
      exact Nat.zero_lt_succ _
    · exact hsound e he
  unfold Program.ofTokens
  cases hs : Grammar.statements tokens.list with
  | error fault =>
    rw [hs] at hw
    exact ⟨_, hw, hrecord, fun p hp => by cases hp⟩
  | ok ss =>
    rw [hs] at hw
    exact ⟨_, hw, hrecord, fun p _ => rfl⟩

end Walk

/-- Over any tokens the walk ends at the program of the text or at its first fault. Up to there it
never looks up what is not there, nor counts below zero, nor goes over the end: each index that it
comes to is that of a token or of the end. -/
theorem Tokens.walk_inside (text : List Char) (tokens : Tokens) :
    ∃ final,
      tokens.walk text =
          some ((Program.ofTokens text tokens).mapError Walk.Halt.fault, final) ∧
        ∀ index, .stands index ∈ final.record → index < tokens.cells.length := by
  obtain ⟨final, hw, hsound, -⟩ := Walk.walk_eq text tokens
  exact ⟨final, hw, fun index h => hsound _ h⟩

end SchemaContract
