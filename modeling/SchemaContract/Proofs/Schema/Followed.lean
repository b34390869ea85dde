import Mathlib
import SchemaContract.Proofs.Grammar.Following
import SchemaContract.Proofs.Schema.Joined

/-!
A source with a model behind it: whether the model is still there when the two are read as one.
-/
namespace SchemaContract

open Grammar

/-- A model that is read behind a source whose braces are in pairs and whose last token ends a
statement is the last statement of the program, exactly if reading the source comes to no projection
that is left open. Such a projection takes the first block of the model for its own. -/
theorem Program.ofSource_followed_iff {s d : String} {tokens : Tokens} {m : Model} {p : Program}
    (ht : Tokens.ofText s.toList = .ok tokens) (hp : Paired tokens.list)
    (he : EndsStatement tokens.list) (hd : Program.ofSource d = .ok ⟨[.model m]⟩)
    (h : Program.ofSource (s ++ "\n" ++ d) = .ok p) :
    p.statements.getLast? = some (.model m) ↔ ¬ OpenProjection tokens.list := by
  have htext : (s ++ "\n" ++ d).toList = s.toList ++ '\n' :: d.toList := by simp
  unfold Program.ofSource at h hd
  obtain ⟨ts, hts, hss⟩ := Program.ofText_eq_ok_iff.1 (htext ▸ h)
  obtain ⟨us, hus, hmodel⟩ := Program.ofText_eq_ok_iff.1 hd
  rw [Tokens.ofText_eq] at ht
  cases hs : Token.listOf 0 s.toList with
  | error fault =>
    rw [hs] at ht
    cases ht
  | ok first =>
    rw [hs] at ht
    cases ht
    have hlist := Token.listOf_append_newline hs d.toList
    rw [Nat.add_comm 0, Nat.add_comm _ 0, Token.listOf_add, hus, hts] at hlist
    cases hlist
    have hlater :
        Grammar.statements (later (Text.byteLength s.toList + 1) us) = .ok [.model m] := by
      rw [statements_later, hmodel]
      rfl
    exact statements_model_behind (.inr ⟨hp, he⟩) hlater hss

theorem Program.ofSource_followed_iff_skipped :
    Tokens.ofText "a;".toList = .ok ⟨[⟨.name "a", 0⟩, ⟨.mark .semicolon, 1⟩], 2⟩ ∧
      Program.ofSource "model A {}" = .ok ⟨[.model ⟨"A", [], none, []⟩]⟩ ∧
      Program.ofSource ("a;" ++ "\n" ++ "model A {}") =
        .ok ⟨[.invalid, .model ⟨"A", [], none, []⟩]⟩ ∧
      ¬ OpenProjection [⟨.name "a", 0⟩, ⟨.mark .semicolon, 1⟩] := by
  have ht : Tokens.ofText "a;".toList = .ok ⟨[⟨.name "a", 0⟩, ⟨.mark .semicolon, 1⟩], 2⟩ := by cbv
  have hd : Program.ofSource "model A {}" = .ok ⟨[.model ⟨"A", [], none, []⟩]⟩ := by cbv
  have h : Program.ofSource ("a;" ++ "\n" ++ "model A {}") =
      .ok ⟨[.invalid, .model ⟨"A", [], none, []⟩]⟩ := by cbv
  have hp : Paired [⟨.name "a", 0⟩, ⟨.mark .semicolon, 1⟩] :=
    (balanced_of_forall_ne (by decide) (by decide)).paired
  have he : EndsStatement [⟨.name "a", 0⟩, ⟨.mark .semicolon, 1⟩] :=
    endsStatement_append (.inl rfl) [⟨.name "a", 0⟩]
  exact ⟨ht, hd, h, (Program.ofSource_followed_iff ht hp he hd h).1 rfl⟩

theorem Program.ofSource_not_always_followed :
    ¬ ∀ (s d : String) (tokens : Tokens) (m : Model) (p : Program),
      Tokens.ofText s.toList = .ok tokens → Paired tokens.list → EndsStatement tokens.list →
      Program.ofSource d = .ok ⟨[.model m]⟩ → Program.ofSource (s ++ "\n" ++ d) = .ok p →
      p.statements.getLast? = some (.model m) := by
  intro hall
  have ht : Tokens.ofText "projection x;".toList =
      .ok ⟨[⟨.name "projection", 0⟩, ⟨.name "x", 11⟩, ⟨.mark .semicolon, 12⟩], 13⟩ := by cbv
  have hd : Program.ofSource "model A { x: int32 }" = .ok ⟨[.model ⟨"A", [], none,
      [.property ⟨.identifier "x", .reference "int32", false, none, []⟩]⟩]⟩ := by cbv
  have h : Program.ofSource ("projection x;" ++ "\n" ++ "model A { x: int32 }") =
      .ok ⟨[.projection]⟩ := by cbv
  have hp : Paired [⟨.name "projection", 0⟩, ⟨.name "x", 11⟩, ⟨.mark .semicolon, 12⟩] :=
    (balanced_of_forall_ne (by decide) (by decide)).paired
  have he : EndsStatement [⟨.name "projection", 0⟩, ⟨.name "x", 11⟩, ⟨.mark .semicolon, 12⟩] :=
    endsStatement_append (.inl rfl) [⟨.name "projection", 0⟩, ⟨.name "x", 11⟩]
  have hlast := hall _ _ _ _ _ ht hp he hd h
  cases hlast

end SchemaContract
