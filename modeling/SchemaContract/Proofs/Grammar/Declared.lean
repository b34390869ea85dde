import SchemaContract.Grammar.Statement
import SchemaContract.Proofs.Grammar.Names

/-!
What the rules of declarations and statements find, as for expressions: one equivalence for each
rule, or one for each way that a rule goes.
-/
namespace SchemaContract.Grammar

variable {ts rest : List Token}

theorem optionalWord_of_eq {word : String} {t : Token} (h : t.kind = .name word) :
    (optionalWord word (t :: ts)).value = true ∧ (optionalWord word (t :: ts)).rest = ts := by
  rw [optionalWord, if_pos h]
  exact ⟨rfl, rfl⟩

theorem optionalWord_of_ne {word : String} {t : Token} (h : t.kind ≠ .name word) :
    (optionalWord word (t :: ts)).value = false ∧
      (optionalWord word (t :: ts)).rest = t :: ts := by
  rw [optionalWord, if_neg h]
  exact ⟨rfl, rfl⟩

theorem gives_modelTarget_iff {target? : Option Expression} :
    Gives (modelTarget ts) target? rest ↔
      (optionalWord "is" ts).value = true ∧
          (∃ e, Gives (expression (optionalWord "is" ts).rest) e rest ∧ some e = target?) ∨
        (optionalWord "is" ts).value = false ∧ none = target? ∧
          (optionalWord "is" ts).rest = rest := by
  unfold modelTarget
  cases hw : optionalWord "is" ts with
  | mk given ts₁ h₁ =>
    cases given with
    | true =>
      simp only [if_true, gives_bind_iff, gives_ok_iff, Found.after, Found.map, exists_and_right,
        ← gives_def]
      grind
    | false =>
      simp only [Bool.false_eq_true, if_false, gives_ok_iff]
      grind

theorem gives_modelBody_cons {target? : Option Expression} {ms : List Member} {t : Token}
    (h : t.kind = .mark .leftBrace) :
    Gives (modelBody target? (t :: ts)) ms rest ↔ Gives (members .body ts) ms rest := by
  unfold modelBody
  rw [mark?_cons_of_eq h]
  simp only [gives_bind_iff, gives_ok_iff, Found.before, Found.after, exists_and_right,
    ← gives_def]
  grind

theorem gives_modelBody_of_none {target? : Option Expression} {ms : List Member}
    (h : mark? .leftBrace ts = none) :
    Gives (modelBody target? ts) ms rest ↔
      target?.isSome ∧ [] = ms ∧ ∃ t, ts = t :: rest ∧ t.kind = .mark .semicolon := by
  unfold modelBody
  rw [h]
  cases target? with
  | none => simp [gives_error_iff]
  | some e =>
    simp only [gives_bind_iff, gives_ok_iff, Found.map, exists_and_right, ← gives_def,
      gives_mark_iff]
    grind

theorem gives_model_iff {ds : List Decorator} {m : Model} :
    Gives (model ds ts) m rest ↔
      ∃ t us n, ts = t :: us ∧ t.kind = .name n ∧ mark? .less us = none ∧
        ∃ target? vs, Gives (modelTarget us) target? vs ∧
          ∃ ms, Gives (modelBody target? vs) ms rest ∧ ⟨n, ds, target?, ms⟩ = m := by
  unfold model
  rw [gives_bind_iff]
  constructor
  · rintro ⟨n, us, hlt, hn, h⟩
    obtain ⟨t, rfl, ht⟩ := gives_name_iff.1 ⟨hlt, hn⟩
    dsimp only at h
    cases hl : mark? .less us with
    | some found =>
      simp only [hl] at h
      exact absurd h not_gives_error
    | none =>
      simp only [hl, gives_bind_iff, gives_ok_iff, Found.widen, Found.after, exists_and_right,
        ← gives_def] at h
      grind
  · rintro ⟨t, us, n, rfl, ht, hl, h⟩
    have hn : Gives (name .modelName (t :: us)) n us := gives_name_iff.2 ⟨t, rfl, ht⟩
    obtain ⟨hlt, hn⟩ := hn
    refine ⟨n, us, hlt, hn, ?_⟩
    simp only [hl, gives_bind_iff, gives_ok_iff, Found.widen, Found.after, exists_and_right,
      ← gives_def]
    grind

theorem gives_enumerationCase_cons {ds : List Decorator} {c : Case} {t : Token}
    (h : t.kind = .mark .ellipsis) :
    Gives (enumerationCase ds (t :: ts)) c rest ↔
      ∃ e, Gives (primary ts) e rest ∧ .spread e = c := by
  rw [enumerationCase, mark?_cons_of_eq h]
  simp only [gives_bind_iff, gives_ok_iff, Found.before, Found.map, Found.after,
    exists_and_right, ← gives_def]
  grind

theorem gives_enumerationCase_of_key {ds : List Decorator} {c : Case} {t : Token} {k : Key}
    (h : t.kind = k.token) :
    Gives (enumerationCase ds (t :: ts)) c rest ↔
      (∃ u us e, ts = u :: us ∧ u.kind = .mark .colon ∧ Gives (primary us) e rest ∧
          .plain k (some e) ds = c) ∨
        mark? .colon ts = none ∧ .plain k none ds = c ∧ ts = rest := by
  have he : mark? .ellipsis (t :: ts) = none := by
    apply mark?_cons_of_ne
    rw [h]
    exact k.token_ne_mark _
  have hk : Gives (key .caseName (t :: ts)) k ts := gives_key_iff.2 ⟨t, rfl, h⟩
  obtain ⟨hlt, hk⟩ := hk
  rw [enumerationCase, he]
  simp only [hk, bind, Except.bind]
  rcases mark?_cases .colon ts with hc | ⟨u, us, rfl, hu⟩
  · simp only [hc, gives_ok_iff]
    grind [mark?_cons_of_eq]
  · simp only [mark?_cons_of_eq hu]
    change Gives (primary us >>= _) _ _ ↔ _
    simp only [gives_bind_iff, gives_ok_iff, Found.before, Found.after, exists_and_right,
      ← gives_def]
    grind

theorem gives_enumerationCases_cons {cs : List Case} {t : Token}
    (h : t.kind = .mark .rightBrace) :
    Gives (enumerationCases (t :: ts)) cs rest ↔ [] = cs ∧ ts = rest := by
  rw [enumerationCases, mark?_cons_of_eq h]
  exact gives_ok_iff

theorem gives_enumerationCases_of_none {cs : List Case} (h : mark? .rightBrace ts = none) :
    Gives (enumerationCases ts) cs rest ↔
      ∃ ds ts₁, Gives (decorators ts) ds ts₁ ∧
        ∃ first ts₂, Gives (enumerationCase ds ts₁) first ts₂ ∧
          ∃ ts₃, Gives (separator .rightBrace .caseSeparator ts₂) () ts₃ ∧
            ∃ others, Gives (enumerationCases ts₃) others rest ∧ first :: others = cs := by
  rw [enumerationCases, h]
  simp only [gives_bind_iff, gives_ok_iff, Found.behind, Found.after, Found.widen,
    exists_and_right, ← gives_def]
  grind

theorem gives_enumeration_iff {ds : List Decorator} {e : Enumeration} :
    Gives (enumeration ds ts) e rest ↔
      ∃ t u us n, ts = t :: u :: us ∧ t.kind = .name n ∧ u.kind = .mark .leftBrace ∧
        ∃ cs, Gives (enumerationCases us) cs rest ∧ ⟨n, ds, cs⟩ = e := by
  unfold enumeration
  simp only [gives_bind_iff, gives_ok_iff, Found.after, exists_and_right, ← gives_def,
    gives_name_iff, gives_mark_iff]
  grind

theorem gives_operation_iff {ds : List Decorator} {o : Operation} :
    Gives (operation ds ts) o rest ↔
      ∃ t u us n, ts = t :: u :: us ∧ t.kind = .name n ∧ u.kind = .mark .leftParen ∧
        ∃ ps v vs, Gives (members .parameters us) ps (v :: vs) ∧ v.kind = .mark .colon ∧
          ∃ e, Gives (expression vs) e rest ∧ ⟨n, ds, ps, e⟩ = o := by
  unfold operation
  simp only [gives_bind_iff, gives_ok_iff, Found.after, exists_and_right, ← gives_def,
    gives_name_iff, gives_mark_iff]
  grind

theorem gives_bareOperation_iff {ds : List Decorator} {o : Operation} :
    Gives (bareOperation ds ts) o rest ↔
      ∃ t, Gives (operation ds ts) o (t :: rest) ∧ t.kind = .mark .semicolon := by
  unfold bareOperation
  simp only [gives_bind_iff, gives_ok_iff, Found.after, exists_and_right, ← gives_def,
    gives_mark_iff]
  grind

theorem gives_interfaceOperations_cons {os : List Operation} {t : Token}
    (h : t.kind = .mark .rightBrace) :
    Gives (interfaceOperations (t :: ts)) os rest ↔ [] = os ∧ ts = rest := by
  rw [interfaceOperations, mark?_cons_of_eq h]
  exact gives_ok_iff

theorem gives_interfaceOperations_of_none {os : List Operation}
    (h : mark? .rightBrace ts = none) :
    Gives (interfaceOperations ts) os rest ↔
      ∃ ds ts₁, Gives (decorators ts) ds ts₁ ∧
        ∃ first ts₂, Gives (operation ds (optionalWord "op" ts₁).rest) first ts₂ ∧
          ∃ ts₃, Gives (separator .rightBrace .operationSeparator ts₂) () ts₃ ∧
            ∃ others, Gives (interfaceOperations ts₃) others rest ∧ first :: others = os := by
  rw [interfaceOperations, h]
  simp only [gives_bind_iff, gives_ok_iff, Found.behind, Found.after, Found.widen,
    exists_and_right, ← gives_def]
  grind

theorem gives_interface_iff {ds : List Decorator} {i : Interface} :
    Gives (interface ds ts) i rest ↔
      ∃ t u us n, ts = t :: u :: us ∧ t.kind = .name n ∧ u.kind = .mark .leftBrace ∧
        ∃ os, Gives (interfaceOperations us) os rest ∧ ⟨n, ds, os⟩ = i := by
  unfold interface
  simp only [gives_bind_iff, gives_ok_iff, Found.after, exists_and_right, ← gives_def,
    gives_name_iff, gives_mark_iff]
  grind

theorem gives_unionVariants_cons {vs : List Variant} {t : Token}
    (h : t.kind = .mark .rightBrace) :
    Gives (unionVariants (t :: ts)) vs rest ↔ [] = vs ∧ ts = rest := by
  rw [unionVariants, mark?_cons_of_eq h]
  exact gives_ok_iff

theorem gives_unionVariants_of_none {vs : List Variant} (h : mark? .rightBrace ts = none) :
    Gives (unionVariants ts) vs rest ↔
      ∃ ds t u us k, Gives (decorators ts) ds (t :: u :: us) ∧ t.kind = k.token ∧
        u.kind = .mark .colon ∧ ∃ e ts₂, Gives (expression us) e ts₂ ∧
          ∃ ts₃, Gives (separator .rightBrace .variantSeparator ts₂) () ts₃ ∧
            ∃ others, Gives (unionVariants ts₃) others rest ∧ ⟨k, e⟩ :: others = vs := by
  rw [unionVariants, h]
  simp only [gives_bind_iff, gives_ok_iff, Found.behind, Found.after, Found.widen,
    exists_and_right, ← gives_def, gives_mark_iff, gives_key_iff]
  grind

theorem gives_union_iff {ds : List Decorator} {s : Statement} :
    Gives (union ds ts) s rest ↔
      ∃ t u us n, ts = t :: u :: us ∧ t.kind = .name n ∧ u.kind = .mark .leftBrace ∧
        ∃ vs, Gives (unionVariants us) vs rest ∧ .union n ds vs = s := by
  unfold union
  simp only [gives_bind_iff, gives_ok_iff, Found.after, exists_and_right, ← gives_def,
    gives_name_iff, gives_mark_iff]
  grind

theorem gives_typeAlias_iff {s : Statement} :
    Gives (typeAlias ts) s rest ↔
      ∃ t u us n, ts = t :: u :: us ∧ t.kind = .name n ∧ u.kind = .mark .equals ∧
        ∃ e v, Gives (expression us) e (v :: rest) ∧ v.kind = .mark .semicolon ∧
          .typeAlias n e = s := by
  unfold typeAlias
  simp only [gives_bind_iff, gives_ok_iff, Found.after, exists_and_right, ← gives_def,
    gives_name_iff, gives_mark_iff]
  grind

theorem gives_importPath_iff {s : Statement} :
    Gives (importPath ts) s rest ↔
      ∃ t u path, ts = t :: u :: rest ∧ t.kind = .text path ∧ u.kind = .mark .semicolon ∧
        .importPath path = s := by
  unfold importPath
  simp only [gives_bind_iff, gives_ok_iff, Found.after, exists_and_right, ← gives_def,
    gives_quoted_iff, gives_mark_iff]
  grind

theorem gives_usingName_iff {s : Statement} :
    Gives (usingName ts) s rest ↔
      ∃ n t, Gives (dottedName ts) n (t :: rest) ∧ t.kind = .mark .semicolon ∧
        .usingName n = s := by
  unfold usingName
  simp only [gives_bind_iff, gives_ok_iff, Found.after, exists_and_right, ← gives_def,
    gives_mark_iff]
  grind

theorem gives_projection_of_eq {u : Unit} {t : Token} (h : t.kind = .mark .leftBrace) :
    Gives (projection (t :: ts)) u rest ↔ behindBlock 0 ts = some rest := by
  rw [projection, if_pos h]
  split
  · next rest' hb =>
    rw [gives_ok_iff]
    simp [Found.lax, hb]
  · next hb =>
    rw [gives_error_iff, hb]
    simp

theorem gives_projection_of_ne {u : Unit} {t : Token} (h : t.kind ≠ .mark .leftBrace) :
    Gives (projection (t :: ts)) u rest ↔ Gives (projection ts) u rest := by
  rw [projection, if_neg h]
  simp only [gives_bind_iff, gives_ok_iff, Found.lax, exists_and_right, ← gives_def]
  grind

theorem gives_behindKeyword_iff {α : Type} {wrap : α → Statement} {t : Token}
    {declared : Except Fault (Found Token ts.length α)} {s : Statement} :
    Gives (behindKeyword (t := t) wrap declared) s rest ↔
      ∃ d, Gives declared d rest ∧ wrap d = s := by
  unfold behindKeyword
  cases declared with
  | error fault => simp [Except.map, gives_error_iff]
  | ok found =>
    simp only [Except.map, gives_ok_iff, Found.lax, Found.map]
    grind

/-- What the keyword of a statement finds behind it. -/
def Keyword.Declares (ds : List Decorator) (ts : List Token) (s : Statement)
    (rest : List Token) : Keyword → Prop
  | importPath => Gives (Grammar.importPath ts) s rest
  | usingName => Gives (Grammar.usingName ts) s rest
  | scope => Gives (Grammar.scope ds ts) s rest
  | model => ∃ m, Gives (Grammar.model ds ts) m rest ∧ .model m = s
  | enumeration => ∃ e, Gives (Grammar.enumeration ds ts) e rest ∧ .enumeration e = s
  | interface => ∃ i, Gives (Grammar.interface ds ts) i rest ∧ .interface i = s
  | operation => ∃ o, Gives (bareOperation ds ts) o rest ∧ .operation o = s
  | union => Gives (Grammar.union ds ts) s rest
  | typeAlias => Gives (Grammar.typeAlias ts) s rest
  | projection => Gives (Grammar.projection ts) () rest ∧ .projection = s

theorem gives_declaration_semicolon {ds : List Decorator} {t : Token} {s : Statement}
    (h : t.kind = .mark .semicolon) :
    Gives (declaration ds t ts) s rest ↔ .empty = s ∧ ts = rest := by
  rw [declaration, h]
  exact gives_ok_iff

theorem gives_declaration_keyword {ds : List Decorator} {t : Token} {s : Statement}
    {word : String} {k : Keyword} (h : t.kind = .name word) (hk : Keyword.ofName? word = some k) :
    Gives (declaration ds t ts) s rest ↔ k.Declares ds ts s rest := by
  rw [declaration, h]
  cases k <;> simp only [hk, gives_behindKeyword_iff, Keyword.Declares] <;> grind

theorem gives_declaration_skipped {ds : List Decorator} {t : Token} {s : Statement}
    (h : t.kind ≠ .mark .semicolon)
    (hk : ∀ word, t.kind = .name word → Keyword.ofName? word = none) :
    Gives (declaration ds t ts) s rest ↔ .invalid = s ∧ skipStatement t ts = rest := by
  rw [declaration]
  split
  · next hs => exact absurd hs h
  · next word hw =>
    simp only [hk word hw]
    exact gives_ok_iff
  · exact gives_ok_iff

theorem gives_statement_iff {t : Token} {s : Statement} :
    Gives (statement t ts) s rest ↔
      ∃ ds us, Gives (decorators (t :: ts)) ds us ∧
        (us = [] ∧ .invalid = s ∧ [] = rest ∨
          ∃ u vs, us = u :: vs ∧ Gives (declaration ds u vs) s rest) := by
  rw [statement]
  refine gives_bind_iff_of fun ds us hlt => ?_
  cases us with
  | nil =>
    simp only [gives_ok_iff]
    grind
  | cons u vs =>
    simp only [gives_bind_iff, gives_ok_iff, Found.behind, exists_and_right, ← gives_def]
    grind

theorem gives_scope_iff {ds : List Decorator} {s : Statement} :
    Gives (scope ds ts) s rest ↔
      ∃ n us, Gives (dottedName ts) n us ∧
        ((∃ t vs ss, us = t :: vs ∧ t.kind = .mark .leftBrace ∧ Gives (block vs) ss rest ∧
            .scope n ds ss = s) ∨
          mark? .leftBrace us = none ∧ ∃ t, us = t :: rest ∧ t.kind = .mark .semicolon ∧
            .scope n ds [] = s) := by
  rw [scope]
  refine gives_bind_iff_of fun n us hlt => ?_
  rcases mark?_cases .leftBrace us with hb | ⟨t, vs, rfl, ht⟩
  · simp only [hb, gives_bind_iff, gives_ok_iff, Found.after, exists_and_right, ← gives_def,
      gives_mark_iff]
    grind [mark?_cons_of_eq]
  · simp only [mark?_cons_of_eq ht, gives_bind_iff, gives_ok_iff, Found.before, Found.after,
      exists_and_right, ← gives_def]
    grind

theorem gives_block_cons {ss : List Statement} {t : Token} (h : t.kind = .mark .rightBrace) :
    Gives (block (t :: ts)) ss rest ↔ [] = ss ∧ ts = rest := by
  rw [block, if_pos h]
  exact gives_ok_iff

theorem gives_block_of_ne {ss : List Statement} {t : Token} (h : t.kind ≠ .mark .rightBrace) :
    Gives (block (t :: ts)) ss rest ↔
      ∃ first mid, Gives (statement t ts) first mid ∧
        ∃ others, Gives (block mid) others rest ∧ first :: others = ss := by
  rw [block, if_neg h]
  simp only [gives_bind_iff, gives_ok_iff, Found.after, exists_and_right, ← gives_def]
  grind

theorem statements_nil : statements [] = .ok [] := by
  rw [statements]

theorem statements_cons_iff {t : Token} {ss : List Statement} :
    statements (t :: ts) = .ok ss ↔
      ∃ first mid, Gives (statement t ts) first mid ∧
        ∃ others, statements mid = .ok others ∧ first :: others = ss := by
  rw [statements]
  cases hs : statement t ts with
  | error fault =>
    simp only [bind, Except.bind, reduceCtorEq, false_iff]
    rintro ⟨first, mid, hg, -⟩
    exact not_gives_error hg
  | ok found =>
    cases ho : statements found.rest with
    | error fault =>
      simp only [bind, Except.bind, ho, gives_ok_iff]
      grind
    | ok others =>
      simp only [bind, Except.bind, ho, gives_ok_iff]
      grind

end SchemaContract.Grammar
