import SchemaContract.Proofs.Grammar.Derivation
import SchemaContract.Proofs.Grammar.Names

/-!
The shape of what is read. Tokens cut from a text have identifiers for names, and what is derived
from such tokens is well-formed. The induction carries both: a phrase is well-formed, and the tokens
behind it are still well named.
-/
namespace SchemaContract

/-- Names among the tokens are identifiers. -/
def Token.WellNamed (ts : List Token) : Prop :=
  ∀ t ∈ ts, ∀ n, t.kind = .name n → isIdentifier n = true

namespace Token.WellNamed

variable {t : Token} {ts : List Token}

theorem head (h : WellNamed (t :: ts)) {n : String} (hn : t.kind = .name n) :
    isIdentifier n = true :=
  h t List.mem_cons_self n hn

theorem tail (h : WellNamed (t :: ts)) : WellNamed ts :=
  fun u hu => h u (List.mem_cons_of_mem t hu)

theorem of_suffix {us : List Token} (h : WellNamed ts) (hs : us <:+ ts) : WellNamed us :=
  fun u hu => h u (hs.subset hu)

end Token.WellNamed

theorem isIdentifier_of_ofName {spelling : List Char} {c : Char} {cs : List Char} {n : String}
    (hs : spelling = c :: cs) (hc : isNameStart c = true) (hcs : cs.all isNameRest = true)
    (h : Lexeme.ofName spelling = .name n) : isIdentifier n = true := by
  unfold Lexeme.ofName at h
  split at h
  · cases h
  · cases h
  · next ht hf =>
    cases h
    unfold isIdentifier
    rw [String.toList_ofList, hs]
    simp only [hc, hcs, Bool.true_and, Bool.and_eq_true, bne_iff_ne]
    rw [← hs]
    exact ⟨ht, hf⟩

theorem Lexeme.isIdentifier_of_first {c : Char} {cs : List Char} {piece : Lexeme}
    {rest : List Char} {n : String} (h : first c cs = .ok (piece, rest))
    (hn : piece.kind? = some (.name n)) : isIdentifier n = true := by
  unfold first at h
  dsimp only at h
  repeat' split at h
  all_goals cases h
  all_goals simp only [Option.some.injEq, reduceCtorEq] at hn
  next hc =>
    exact isIdentifier_of_ofName rfl hc (by simp [List.all_takeWhile]) hn

/-- The tokens of a text are well named. -/
theorem Token.wellNamed_of_listOf {offset : Nat} {cs : List Char} {ts : List Token}
    (h : Token.listOf offset cs = .ok ts) : WellNamed ts := by
  fun_induction Token.listOf offset cs generalizing ts with
  | case1 =>
    cases h
    intro t ht
    cases ht
  | case2 => cases h
  | case3 offset c cs piece rest hp ih =>
    cases hl : Token.listOf (offset + Text.byteLength piece.spelling) rest with
    | error fault => simp [hl, bind, Except.bind] at h
    | ok later =>
      have hlater := ih hl
      cases hk : piece.kind? with
      | none =>
        simp only [hl, hk, bind, Except.bind, Except.ok.injEq] at h
        rw [← h]
        exact hlater
      | some kind =>
        simp only [hl, hk, bind, Except.bind, Except.ok.injEq] at h
        rw [← h]
        intro t ht n hn
        rcases List.mem_cons.1 ht with rfl | ht
        · exact Lexeme.isIdentifier_of_first hp (hk.trans (congrArg some hn))
        · exact hlater t ht n hn

theorem Tokens.wellNamed_of_ofText {cs : List Char} {tokens : Tokens}
    (h : Tokens.ofText cs = .ok tokens) : Token.WellNamed tokens.list := by
  unfold Tokens.ofText at h
  cases hl : Token.listOf 0 cs with
  | error fault => simp [hl, bind, Except.bind] at h
  | ok ts =>
    simp only [hl, bind, Except.bind, Except.ok.injEq] at h
    rw [← h]
    exact Token.wellNamed_of_listOf hl

namespace Grammar

open Token (WellNamed)

theorem wellNamed_arrayBrackets {e : Expression} {ts : List Token} (h : WellNamed ts)
    (he : e.WellFormed) :
    WellNamed (arrayBrackets e ts).rest ∧ (arrayBrackets e ts).value.WellFormed := by
  fun_induction arrayBrackets e ts with
  | case1 e t u ts hm ih => exact ih h.tail.tail (by rwa [Expression.WellFormed])
  | case2 => exact ⟨h, he⟩
  | case3 => exact ⟨h, he⟩

theorem wellNamed_optionalMark {m : Mark} {ts : List Token} (h : WellNamed ts) :
    WellNamed (optionalMark m ts).rest := by
  rcases mark?_cases m ts with hm | ⟨t, us, rfl, ht⟩
  · rwa [(optionalMark_of_none hm).2]
  · rw [(optionalMark_of_eq ht).2]
    exact h.tail

theorem wellNamed_dottedRest {start n : String} {ts rest : List Token}
    (h : Gives (dottedRest start ts) n rest) (hts : WellNamed ts) (hs : IsDottedName start) :
    WellNamed rest ∧ IsDottedName n := by
  induction hl : ts.length using Nat.strongRecOn generalizing ts start with
  | _ l ih =>
    rcases mark?_cases .dot ts with hd | ⟨t, us, rfl, ht⟩
    · obtain ⟨rfl, rfl⟩ := (gives_dottedRest_of_none hd).1 h
      exact ⟨hts, hs⟩
    · obtain ⟨u, us, part, rfl, hu, hr⟩ := (gives_dottedRest_cons ht).1 h
      simp only [List.length_cons] at hl
      exact ih _ (by omega) hr hts.tail.tail (hs.snoc (hts.tail.head hu)) rfl

theorem wellNamed_dottedName {n : String} {ts rest : List Token}
    (h : Gives (dottedName ts) n rest) (hts : WellNamed ts) :
    WellNamed rest ∧ IsDottedName n := by
  obtain ⟨t, us, start, rfl, ht, hr⟩ := gives_dottedName_iff.1 h
  exact wellNamed_dottedRest hr hts.tail (.of_isIdentifier (hts.head ht))

theorem wellNamed_memberChain {base e : Expression} {ts rest : List Token}
    (h : Gives (memberChain base ts) e rest) (hts : WellNamed ts) (hp : base.IsPath)
    (hb : base.WellFormed) : WellNamed rest ∧ e.WellFormed := by
  induction hl : ts.length using Nat.strongRecOn generalizing ts base with
  | _ l ih =>
    rcases mark?_cases .dot ts with hd | ⟨t, us, rfl, ht⟩
    · obtain ⟨rfl, rfl⟩ := (gives_memberChain_of_none hd).1 h
      exact ⟨hts, hb⟩
    · obtain ⟨u, us, part, rfl, hu, hr⟩ := (gives_memberChain_cons ht).1 h
      simp only [List.length_cons] at hl
      refine ih _ (by omega) hr hts.tail.tail trivial ?_ rfl
      rw [Expression.WellFormed]
      exact ⟨hp, hb, hts.tail.head hu⟩

theorem wellNamed_named {n : String} {e : Expression} {ts rest : List Token}
    (h : Gives (named n ts) e rest) (hts : WellNamed ts) (hn : isIdentifier n = true) :
    WellNamed rest ∧ e.WellFormed := by
  cases hk : keywordType? n with
  | some keyword =>
    obtain ⟨rfl, rfl⟩ := (gives_named_of_some hk).1 h
    refine ⟨hts, ?_⟩
    unfold keywordType? at hk
    split at hk <;> cases hk <;> simp only [Expression.WellFormed]
  | none =>
    have hm := (gives_reference_iff.1 ((gives_named_of_none hk).1 h)).1
    refine wellNamed_memberChain hm hts trivial ?_
    rw [Expression.WellFormed]
    exact ⟨hn, keywordType?_eq_none_iff.1 hk⟩

theorem wellFormed_unionOf {first : Expression} {others : List Expression}
    (h₁ : first.WellFormed) (h₂ : Expression.AllWellFormed others) :
    (unionOf first others).WellFormed := by
  cases others with
  | nil => exact h₁
  | cons e es =>
    simp only [unionOf, Expression.WellFormed, Expression.AllWellFormed, List.length_cons]
    exact ⟨by omega, h₁, h₂⟩

theorem wellFormed_intersectionOf {first : Expression} {others : List Expression}
    (h₁ : first.WellFormed) (h₂ : Expression.AllWellFormed others) :
    (intersectionOf first others).WellFormed := by
  cases others with
  | nil => exact h₁
  | cons e es =>
    simp only [intersectionOf, Expression.WellFormed, Expression.AllWellFormed, List.length_cons]
    exact ⟨by omega, h₁, h₂⟩

theorem wellFormed_of_token {t : Token} {k : Key} (h : t.kind = k.token)
    (ht : ∀ n, t.kind = .name n → isIdentifier n = true) : k.WellFormed := by
  cases k with
  | identifier n => exact ht n h
  | quoted text => trivial

theorem wellNamed_separator {close : Mark} {what : Expectation} {ts rest : List Token}
    (h : Gives (separator close what ts) () rest) (hts : WellNamed ts) : WellNamed rest := by
  obtain ⟨t, us, rfl, ⟨_, rfl⟩ | ⟨_, _, rfl⟩⟩ := gives_separator_iff.1 h
  · exact hts.tail
  · exact hts

/-- The parts of a phrase are well-formed, provided the decorators given to it are. -/
def Phrase.WellFormed : Phrase → Prop
  | expression e | intersection e | operand e | primary e => e.WellFormed
  | unionOptions es | intersectionOptions es | listing _ es | items _ es | arguments es =>
    Expression.AllWellFormed es
  | members _ ms => Member.AllWellFormed ms
  | member ds m => Decorator.AllWellFormed ds → m.WellFormed
  | default default? => Expression.OptionWellFormed default?
  | decorators ds => Decorator.AllWellFormed ds

/-- What is derived from well named tokens is well-formed. -/
theorem Derives.wellFormed {φ : Phrase} {ts rest : List Token} (h : Derives φ ts rest)
    (hts : WellNamed ts) : WellNamed rest ∧ φ.WellFormed := by
  induction h with
  | expression _ _ ih₁ ih₂ =>
    obtain ⟨hm, h₁⟩ := ih₁ (wellNamed_optionalMark hts)
    obtain ⟨hr, h₂⟩ := ih₂ hm
    exact ⟨hr, wellFormed_unionOf h₁ h₂⟩
  | noUnionOption _ | noIntersectionOption _ | noDecorator _ | noArguments _ | noDefault _ =>
    exact ⟨hts, trivial⟩
  | unionOption _ _ _ ih₁ ih₂ =>
    obtain ⟨hm, h₁⟩ := ih₁ hts.tail
    obtain ⟨hr, h₂⟩ := ih₂ hm
    exact ⟨hr, h₁, h₂⟩
  | intersection _ _ ih₁ ih₂ =>
    obtain ⟨hm, h₁⟩ := ih₁ hts
    obtain ⟨hr, h₂⟩ := ih₂ hm
    exact ⟨hr, wellFormed_intersectionOf h₁ h₂⟩
  | intersectionOption _ _ _ ih₁ ih₂ =>
    obtain ⟨hm, h₁⟩ := ih₁ hts.tail
    obtain ⟨hr, h₂⟩ := ih₂ hm
    exact ⟨hr, h₁, h₂⟩
  | operand _ ih =>
    obtain ⟨hm, h₁⟩ := ih hts
    exact wellNamed_arrayBrackets hm h₁
  | number _ | text _ | truth _ =>
    refine ⟨hts.tail, ?_⟩
    simp only [Phrase.WellFormed, Expression.WellFormed]
  | named h hn => exact wellNamed_named hn hts.tail (hts.head h)
  | tuple _ _ ih =>
    obtain ⟨hr, h₁⟩ := ih hts.tail
    refine ⟨hr, ?_⟩
    rwa [Phrase.WellFormed, Expression.WellFormed]
  | model _ _ ih =>
    obtain ⟨hr, h₁⟩ := ih hts.tail
    refine ⟨hr, ?_⟩
    rwa [Phrase.WellFormed, Expression.WellFormed]
  | group _ _ _ ih =>
    obtain ⟨hr, h₁⟩ := ih hts.tail
    exact ⟨hr.tail, h₁⟩
  | noListing _ | noMembers _ => exact ⟨hts.tail, trivial⟩
  | listing _ _ ih => exact ih hts
  | lastItem _ _ _ ih =>
    obtain ⟨hr, h₁⟩ := ih hts
    exact ⟨hr.tail, h₁, trivial⟩
  | item _ _ _ ih₁ ih₂ =>
    obtain ⟨hm, h₁⟩ := ih₁ hts
    obtain ⟨hr, h₂⟩ := ih₂ hm.tail
    exact ⟨hr, h₁, h₂⟩
  | members _ _ _ hs _ ih₁ ih₂ ih₃ =>
    obtain ⟨hm₁, h₁⟩ := ih₁ hts
    obtain ⟨hm₂, h₂⟩ := ih₂ hm₁
    obtain ⟨hr, h₃⟩ := ih₃ (wellNamed_separator hs hm₂)
    exact ⟨hr, h₂ h₁, h₃⟩
  | spread _ _ ih =>
    obtain ⟨hr, h₁⟩ := ih hts.tail
    refine ⟨hr, fun _ => ?_⟩
    rwa [Member.WellFormed]
  | property ht hu _ _ _ ih₁ ih₂ =>
    have hq := wellNamed_optionalMark (m := .question) hts.tail
    rw [hu] at hq
    obtain ⟨hm, h₁⟩ := ih₁ hq.tail
    obtain ⟨hr, h₂⟩ := ih₂ hm
    refine ⟨hr, fun hds => ?_⟩
    rw [Member.WellFormed, Property.WellFormed]
    exact ⟨wellFormed_of_token ht fun _ => hts.head, h₁, h₂, hds⟩
  | default _ _ ih => exact ih hts.tail
  | decorator _ hd _ _ ih₁ ih₂ =>
    obtain ⟨hm, hn⟩ := wellNamed_dottedName hd hts.tail
    obtain ⟨hm₁, h₁⟩ := ih₁ hm
    obtain ⟨hr, h₂⟩ := ih₂ hm₁
    refine ⟨hr, ?_, h₂⟩
    rw [Decorator.WellFormed]
    exact ⟨hn, h₁⟩
  | arguments _ _ ih => exact ih hts.tail

end Grammar

/-- An expression that is read somewhere in a source text. -/
def Expression.Parsed (e : Expression) : Prop :=
  ∃ text tokens ts rest, Tokens.ofText text = .ok tokens ∧ ts <:+ tokens.list ∧
    Grammar.Gives (Grammar.expression ts) e rest

/-- The expression that a text begins with is read in it. -/
theorem Expression.Parsed.of_text {e : Expression} (text : String)
    (h : (Tokens.ofText text.toList).toOption.bind (fun tokens =>
      (Grammar.expression tokens.list).toOption.map (·.value)) = some e) : e.Parsed := by
  cases ht : Tokens.ofText text.toList with
  | error fault => simp [ht, Except.toOption] at h
  | ok tokens =>
    cases hg : Grammar.expression tokens.list with
    | error fault => simp [ht, hg, Except.toOption] at h
    | ok found =>
      simp only [ht, hg, Except.toOption, Option.bind_some, Option.map_some,
        Option.some.injEq] at h
      refine ⟨_, tokens, tokens.list, found.rest, ht, List.suffix_rfl, found.within, ?_⟩
      rw [hg, ← h]

theorem Expression.Parsed.wellFormed {e : Expression} (h : e.Parsed) : e.WellFormed := by
  obtain ⟨text, tokens, ts, rest, ht, hs, hg⟩ := h
  have hn := (Tokens.wellNamed_of_ofText ht).of_suffix hs
  have hd : Grammar.Derives (.expression e) ts rest := Grammar.Phrase.Given.derives hg
  exact (hd.wellFormed hn).2

end SchemaContract
