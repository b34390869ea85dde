import SchemaContract.Proofs.Contract.Lines
import SchemaContract.Proofs.Engine.Trials
import SchemaContract.Proofs.Schema.Lossless
import SchemaContract.Proofs.Schema.Spelling

/-!
Names of entrypoints. The names that can be called, which a pattern anchored at both ends tells, are
exactly the texts that are cut into one token for a name or a truth value and nothing around it. The
operations of a source are among them.
-/
namespace SchemaContract

def InRanges (ranges : List (Char × Char)) (c : Char) : Prop :=
  ∃ range ∈ ranges, range.1.toNat ≤ c.toNat ∧ c.toNat ≤ range.2.toNat

def firstRanges : List (Char × Char) := [('A', 'Z'), ('a', 'z'), ('_', '_'), ('$', '$')]

def laterRanges : List (Char × Char) :=
  [('A', 'Z'), ('a', 'z'), ('0', '9'), ('_', '_'), ('$', '$')]

/-- The pattern `^[A-Za-z_$][A-Za-z0-9_$]*$`. -/
def MatchesName (cs : List Char) : Prop :=
  ∃ c later, cs = c :: later ∧ InRanges firstRanges c ∧ ∀ d ∈ later, InRanges laterRanges d

/-- Texts of one token at their start, a name or a truth value as it is spelled. -/
def IsSingleName (s : String) : Prop :=
  ∃ kind stop, Tokens.ofText s.toList = .ok ⟨[⟨kind, 0⟩], stop⟩ ∧
    (kind = .name s ∨ kind = .truth true ∧ s = "true" ∨ kind = .truth false ∧ s = "false")

theorem eq_iff_toNat_between {c d : Char} : c = d ↔ d.toNat ≤ c.toNat ∧ c.toNat ≤ d.toNat := by
  rw [← Char.toNat_inj, and_comm, ← Nat.le_antisymm_iff]

theorem inRanges_first_iff {c : Char} : InRanges firstRanges c ↔ isNameStart c = true := by
  simp only [InRanges, firstRanges, List.exists_mem_cons_iff, List.not_mem_nil, false_and,
    exists_false, or_false, ← eq_iff_toNat_between, isNameStart_iff, or_assoc]
  rfl

theorem inRanges_later_iff {c : Char} : InRanges laterRanges c ↔ isNameRest c = true := by
  have hsplit : InRanges laterRanges c ↔ InRanges firstRanges c ∨ InRanges [('0', '9')] c := by
    simp only [InRanges, firstRanges, laterRanges, List.exists_mem_cons_iff, List.not_mem_nil,
      false_and, exists_false, or_false]
    tauto
  have hdigit : InRanges [('0', '9')] c ↔ c.isDigit = true := by
    simp only [InRanges, List.exists_mem_cons_iff, List.not_mem_nil, false_and, exists_false,
      or_false, isDigit_iff]
    rfl
  rw [hsplit, inRanges_first_iff, hdigit, isNameRest_iff]

theorem matchesName_iff {cs : List Char} : MatchesName cs ↔ Lexeme.IsName cs := by
  simp only [MatchesName, inRanges_first_iff, inRanges_later_iff]
  cases cs with
  | nil => exact iff_of_false (by rintro ⟨c, later, he, _⟩; cases he) id
  | cons c later =>
    constructor
    · rintro ⟨c, later, he, h⟩
      cases he
      exact h
    · intro h
      exact ⟨c, later, rfl, h⟩

theorem isName_of_isIdentifier {s : String} (h : isIdentifier s = true) :
    Lexeme.IsName s.toList := by
  unfold isIdentifier at h
  cases hs : s.toList with
  | nil =>
    rw [hs] at h
    cases h
  | cons c cs =>
    simp only [hs, Bool.and_eq_true, List.all_eq_true] at h
    exact h.1.1

theorem Tokens.ofText_of_isName {cs : List Char} (h : Lexeme.IsName cs) :
    Tokens.ofText cs = .ok ⟨[⟨Lexeme.ofName cs, 0⟩], Text.byteLength cs⟩ := by
  apply Tokens.ofText_eq_ok_iff.2
  refine ⟨[⟨cs, some (Lexeme.ofName cs)⟩], List.append_nil cs, ⟨.name h nofun, trivial⟩, ?_⟩
  rw [Lexeme.spellings_cons, Lexeme.spellings_nil, List.append_nil]
  rfl

theorem isSingleName_iff {s : String} : IsSingleName s ↔ Lexeme.IsName s.toList := by
  constructor
  · rintro ⟨kind, stop, htokens, rfl | ⟨rfl, rfl⟩ | ⟨rfl, rfl⟩⟩
    · have hnames := Tokens.wellNamed_of_ofText htokens
      exact isName_of_isIdentifier (hnames _ List.mem_cons_self s rfl)
    · exact isName_iff.1 rfl
    · exact isName_iff.1 rfl
  · intro h
    refine ⟨Lexeme.ofName s.toList, _, Tokens.ofText_of_isName h, ?_⟩
    -- the scanner knows two words that are no names
    by_cases htrue : s = "true"
    · subst htrue
      exact .inr (.inl ⟨by cbv, rfl⟩)
    · by_cases hfalse : s = "false"
      · subst hfalse
        exact .inr (.inr ⟨by cbv, rfl⟩)
      · exact .inl (Lexeme.ofName_toList htrue hfalse)

theorem Program.HoldsOperation.isIdentifier_name {p : Program} {o : Operation}
    (h : p.HoldsOperation o) (hp : p.WellFormed) : isIdentifier o.name = true := by
  obtain ho | ⟨i, hi, ho⟩ := h
  · have hw : o.WellFormed := ho.wellFormed hp
    exact hw.1
  · have hw : i.WellFormed := hi.wellFormed hp
    exact (hw.2.2 o ho).1

/-- The name of every operation of a source can be called. The names that can be called are the
texts that are one token, a name or a truth value as it is spelled, and these are the texts that
match the pattern of names. For any other text, such as one with a character outside the pattern,
the failure tells that it is no name of an operation. -/
theorem entrypointName_agrees :
    (∀ source p o, Program.ofSource source = .ok p → p.HoldsOperation o →
      entrypointName o.name = .ok ("Main::" ++ o.name)) ∧
    (∀ s, (∃ qualified, entrypointName s = .ok qualified) ↔ IsSingleName s) ∧
    (∀ s, IsSingleName s → entrypointName s = .ok ("Main::" ++ s)) ∧
    (∀ s, ¬ IsSingleName s → entrypointName s = .error (.badOperationName s)) ∧
    (∀ s, IsSingleName s ↔ MatchesName s.toList) ∧
    ∀ s, ∀ c ∈ s.toList, ¬ InRanges laterRanges c →
      entrypointName s = .error (.badOperationName s) := by
  have hok {s : String} (h : IsSingleName s) : entrypointName s = .ok ("Main::" ++ s) :=
    entrypointName_of_isName (isSingleName_iff.1 h)
  have herror {s : String} (h : ¬ IsSingleName s) :
      entrypointName s = .error (.badOperationName s) :=
    entrypointName_of_not_isName fun hname => h (isSingleName_iff.2 hname)
  have hpattern (s : String) : IsSingleName s ↔ MatchesName s.toList :=
    isSingleName_iff.trans matchesName_iff.symm
  refine ⟨fun source p o hp ho => ?_, fun s => ⟨?_, fun h => ⟨_, hok h⟩⟩, fun s => hok,
    fun s => herror, hpattern, fun s c hc hout => herror fun h => ?_⟩
  · have hname := ho.isIdentifier_name (Program.wellFormed_of_ofSource hp)
    exact hok (isSingleName_iff.2 (isName_of_isIdentifier hname))
  · rintro ⟨qualified, hq⟩
    by_contra h
    rw [herror h] at hq
    cases hq
  · -- every character of a name, the first one too, is in the class of the later ones
    have hname := isSingleName_iff.1 h
    exact hout (inRanges_later_iff.2 (hname.forall_isNameRest c hc))

/-- An operation two namespaces deep can be called; its name with a newline behind it cannot. -/
theorem entrypointName_agrees_nested :
    Program.ofSource "namespace a.b \x7b namespace c \x7b op $get(): void; \x7d \x7d" =
        .ok ⟨[.scope "a.b" [] [.scope "c" [] [.operation ⟨"$get", [], [], .void⟩]]]⟩ ∧
      entrypointName "$get" = .ok "Main::$get" ∧
      entrypointName "$get\n" = .error (.badOperationName "$get\n") := by
  have hp : Program.ofSource "namespace a.b \x7b namespace c \x7b op $get(): void; \x7d \x7d" =
      .ok ⟨[.scope "a.b" [] [.scope "c" [] [.operation ⟨"$get", [], [], .void⟩]]]⟩ := by cbv
  refine ⟨hp, ?_, ?_⟩
  · exact entrypointName_agrees.1 _ _ _ hp
      (.inl (.inside List.mem_cons_self (.inside List.mem_cons_self (.here List.mem_cons_self))))
  · refine entrypointName_agrees.2.2.2.2.2 "$get\n" '\n' (by decide) ?_
    rw [inRanges_later_iff]
    decide

end SchemaContract
