import Mathlib.Data.List.Induction
import SchemaContract.Proofs.Grammar.CompleteProgram

/-!
Every well-formed program can be written, and however it is written it is read back: the grammar is
complete for well-formed programs and unambiguous.
-/
namespace SchemaContract

namespace Grammar

-- Expressions that can be written where a primary is wanted can be written anywhere.
theorem exists_intersection {e : Expression} (h : ∃ ts, Written (.operand e) ts) :
    ∃ ts, Written (.intersection e) ts := by
  obtain ⟨ts, hts⟩ := h
  exact ⟨_, .intersection hts .noIntersectionOption⟩

theorem exists_expression {e : Expression} (h : ∃ ts, Written (.intersection e) ts) :
    ∃ ts, Written (.expression e) ts := by
  obtain ⟨ts, hts⟩ := h
  exact ⟨_, .expression .absent hts .noUnionOption⟩

theorem exists_operand {e : Expression} (h : ∃ ts, Written (.primary e) ts) :
    ∃ ts, Written (.operand e) ts := by
  obtain ⟨ts, hts⟩ := h
  exact ⟨ts, .operand hts⟩

theorem exists_expression_of_primary {e : Expression} (h : ∃ ts, Written (.primary e) ts) :
    ∃ ts, Written (.expression e) ts :=
  exists_expression (exists_intersection (exists_operand h))

/-- Parentheses make a primary of every expression. -/
theorem exists_primary_of_expression {e : Expression} (h : ∃ ts, Written (.expression e) ts) :
    ∃ ts, Written (.primary e) ts := by
  obtain ⟨ts, hts⟩ := h
  exact ⟨_, @Written.group ⟨.mark .leftParen, 0⟩ ⟨.mark .rightParen, 0⟩ _ _ rfl hts rfl⟩

theorem exists_unionOptions {es : List Expression}
    (h : ∀ e ∈ es, ∃ ts, Written (.primary e) ts) : ∃ ts, Written (.unionOptions es) ts := by
  induction es with
  | nil => exact ⟨[], .noUnionOption⟩
  | cons e es ih =>
    obtain ⟨ts, hts⟩ := exists_intersection (exists_operand (h e List.mem_cons_self))
    obtain ⟨us, hus⟩ := ih fun e he => h e (List.mem_cons_of_mem _ he)
    exact ⟨_, @Written.unionOption ⟨.mark .pipe, 0⟩ _ _ _ _ rfl hts hus⟩

theorem exists_intersectionOptions {es : List Expression}
    (h : ∀ e ∈ es, ∃ ts, Written (.primary e) ts) :
    ∃ ts, Written (.intersectionOptions es) ts := by
  induction es with
  | nil => exact ⟨[], .noIntersectionOption⟩
  | cons e es ih =>
    obtain ⟨ts, hts⟩ := exists_operand (h e List.mem_cons_self)
    obtain ⟨us, hus⟩ := ih fun e he => h e (List.mem_cons_of_mem _ he)
    exact ⟨_, @Written.intersectionOption ⟨.mark .ampersand, 0⟩ _ _ _ _ rfl hts hus⟩

theorem exists_items (place : ItemList) {es : List Expression} (hne : es ≠ [])
    (h : ∀ e ∈ es, ∃ ts, Written (.primary e) ts) : ∃ ts, Written (.items place es) ts := by
  induction es with
  | nil => exact absurd rfl hne
  | cons e es ih =>
    obtain ⟨ts, hts⟩ := exists_expression_of_primary (h e List.mem_cons_self)
    by_cases hes : es = []
    · rw [hes]
      exact ⟨_, @Written.lastItem ⟨.mark place.close, 0⟩ _ _ _ hts rfl⟩
    · obtain ⟨us, hus⟩ := ih hes fun e he => h e (List.mem_cons_of_mem _ he)
      exact ⟨_, @Written.item ⟨.mark .comma, 0⟩ _ _ _ _ _ hts rfl hus⟩

theorem exists_listing (place : ItemList) {es : List Expression}
    (h : ∀ e ∈ es, ∃ ts, Written (.primary e) ts) : ∃ ts, Written (.listing place es) ts := by
  by_cases hes : es = []
  · rw [hes]
    exact ⟨_, @Written.noListing ⟨.mark place.close, 0⟩ _ rfl⟩
  · obtain ⟨ts, hts⟩ := exists_items place hes h
    exact ⟨ts, .listing hts⟩

/-- Members can be written if each of them can be, behind some decorators. -/
theorem exists_members (place : MemberList) {ms : List Member}
    (h : ∀ m ∈ ms, ∃ ds ts us, Written (.decorators ds) ts ∧ Written (.member ds m) us) :
    ∃ ts, Written (.members place ms) ts := by
  induction ms with
  | nil => exact ⟨_, @Written.noMembers ⟨.mark place.close, 0⟩ _ rfl⟩
  | cons m ms ih =>
    obtain ⟨ds, ts, us, hts, hus⟩ := h m List.mem_cons_self
    obtain ⟨vs, hvs⟩ := ih fun m hm => h m (List.mem_cons_of_mem _ hm)
    exact ⟨_, @Written.members ⟨.mark .semicolon, 0⟩ _ _ _ _ _ _ _ hts hus (.inl rfl) hvs⟩

theorem exists_writtenName {n : String} (h : IsDottedName n) : ∃ ts, WrittenName n ts := by
  obtain ⟨parts, hne, -, rfl⟩ := h
  induction parts using List.reverseRecOn with
  | nil => exact absurd rfl hne
  | append_singleton parts part ih =>
    by_cases hp : parts = []
    · rw [hp, List.nil_append, String.intercalate_singleton]
      exact ⟨_, @WrittenName.single ⟨.name part, 0⟩ _ rfl⟩
    · obtain ⟨ts, hts⟩ := ih hp
      rw [String.intercalate_append_of_ne_nil hp (by simp), String.intercalate_singleton]
      exact ⟨_, @WrittenName.dotted ⟨.mark .dot, 0⟩ ⟨.name part, 0⟩ _ _ _ hts rfl rfl⟩

theorem exists_writtenPath : (e : Expression) → e.IsPath → e.WellFormed → ∃ ts, WrittenPath e ts
  | .reference n, _, hw => by
    rw [Expression.WellFormed] at hw
    exact ⟨_, @WrittenPath.reference ⟨.name n, 0⟩ _ rfl hw.2⟩
  | .member base n, _, hw => by
    rw [Expression.WellFormed] at hw
    obtain ⟨ts, hts⟩ := exists_writtenPath base hw.1 hw.2.1
    exact ⟨_, @WrittenPath.member ⟨.mark .dot, 0⟩ ⟨.name n, 0⟩ _ _ _ hts rfl rfl⟩
  | .array _, hp, _ | .tuple _, hp, _ | .union _, hp, _ | .intersection _, hp, _
  | .identifier _, hp, _ | .model _, hp, _ | .text _, hp, _ | .number _, hp, _
  | .boolean _, hp, _ | .void, hp, _ | .never, hp, _ | .unknown, hp, _ => hp.elim

theorem exists_writtenKey (k : Key) : ∃ t : Token, t.kind = k.token := ⟨⟨k.token, 0⟩, rfl⟩

theorem exists_writtenMark (m : Mark) (b : Bool) : ∃ ts, WrittenMark m b ts := by
  cases b with
  | false => exact ⟨[], .absent⟩
  | true => exact ⟨_, @WrittenMark.present m ⟨.mark m, 0⟩ rfl⟩

mutual

theorem exists_primary : (e : Expression) → e.WellFormed → ∃ ts, Written (.primary e) ts
  | .array element, hw => by
    rw [Expression.WellFormed] at hw
    obtain ⟨ts, hts⟩ := exists_operand (exists_primary element hw)
    have ha : Written (.operand (.array element))
        (ts ++ [⟨.mark .leftBracket, 0⟩, ⟨.mark .rightBracket, 0⟩]) := .array hts rfl rfl
    exact exists_primary_of_expression (exists_expression (exists_intersection ⟨_, ha⟩))
  | .tuple elements, hw => by
    rw [Expression.WellFormed] at hw
    obtain ⟨ts, hts⟩ := exists_listing .tuple (exists_primaries elements hw)
    exact ⟨_, @Written.tuple ⟨.mark .leftBracket, 0⟩ _ _ rfl hts⟩
  | .union options, hw => by
    rw [Expression.WellFormed] at hw
    have ho := exists_primaries options hw.2
    match options, hw.1, ho with
    | first :: second :: others, _, ho =>
      obtain ⟨ts, hts⟩ := exists_intersection (exists_operand (ho first List.mem_cons_self))
      obtain ⟨us, hus⟩ := exists_unionOptions fun e he => ho e (List.mem_cons_of_mem _ he)
      exact exists_primary_of_expression ⟨_, .expression .absent hts hus⟩
  | .intersection options, hw => by
    rw [Expression.WellFormed] at hw
    have ho := exists_primaries options hw.2
    match options, hw.1, ho with
    | first :: second :: others, _, ho =>
      obtain ⟨ts, hts⟩ := exists_operand (ho first List.mem_cons_self)
      obtain ⟨us, hus⟩ := exists_intersectionOptions fun e he => ho e (List.mem_cons_of_mem _ he)
      exact exists_primary_of_expression (exists_expression ⟨_, .intersection hts hus⟩)
  | .reference n, hw => by
    obtain ⟨ts, hts⟩ := exists_writtenPath (.reference n) trivial hw
    exact ⟨ts, .path hts⟩
  | .identifier n, hw => by
    rw [Expression.WellFormed] at hw
    exact hw.elim
  | .model members, hw => by
    rw [Expression.WellFormed] at hw
    obtain ⟨ts, hts⟩ := exists_members .body (exists_eachMember members hw)
    exact ⟨_, @Written.model ⟨.mark .leftBrace, 0⟩ _ _ rfl hts⟩
  | .member base n, hw => by
    obtain ⟨ts, hts⟩ := exists_writtenPath (.member base n) trivial hw
    exact ⟨ts, .path hts⟩
  | .text value, _ => ⟨_, @Written.text ⟨.text value, 0⟩ _ rfl⟩
  | .number value, _ => ⟨_, @Written.number ⟨.number value, 0⟩ _ rfl⟩
  | .boolean value, _ => ⟨_, @Written.truth ⟨.truth value, 0⟩ _ rfl⟩
  | .void, _ => ⟨_, @Written.keyword ⟨.name "void", 0⟩ _ _ rfl rfl⟩
  | .never, _ => ⟨_, @Written.keyword ⟨.name "never", 0⟩ _ _ rfl rfl⟩
  | .unknown, _ => ⟨_, @Written.keyword ⟨.name "unknown", 0⟩ _ _ rfl rfl⟩

theorem exists_primaries : (es : List Expression) → Expression.AllWellFormed es →
    ∀ e ∈ es, ∃ ts, Written (.primary e) ts
  | [], _ => by simp
  | e :: es, hw => by
    rw [Expression.AllWellFormed] at hw
    intro e' he'
    rcases List.mem_cons.1 he' with he' | he'
    · rw [he']
      exact exists_primary e hw.1
    · exact exists_primaries es hw.2 e' he'

theorem exists_member : (m : Member) → m.WellFormed →
    ∃ ds ts us, Written (.decorators ds) ts ∧ Written (.member ds m) us
  | .property p, hw => by
    rw [Member.WellFormed] at hw
    exact exists_property p hw
  | .spread target, hw => by
    rw [Member.WellFormed] at hw
    obtain ⟨ts, hts⟩ := exists_expression_of_primary (exists_primary target hw)
    exact ⟨[], [], _, .noDecorator, @Written.spread ⟨.mark .ellipsis, 0⟩ _ _ _ rfl hts⟩

theorem exists_eachMember : (ms : List Member) → Member.AllWellFormed ms →
    ∀ m ∈ ms, ∃ ds ts us, Written (.decorators ds) ts ∧ Written (.member ds m) us
  | [], _ => by simp
  | m :: ms, hw => by
    rw [Member.AllWellFormed] at hw
    intro m' hm'
    rcases List.mem_cons.1 hm' with hm' | hm'
    · rw [hm']
      exact exists_member m hw.1
    · exact exists_eachMember ms hw.2 m' hm'

theorem exists_property : (p : Property) → p.WellFormed →
    ∃ ds ts us, Written (.decorators ds) ts ∧ Written (.member ds (.property p)) us
  | ⟨key, type, optional, default?, decorators⟩, hw => by
    rw [Property.WellFormed] at hw
    obtain ⟨-, htype, hdefault, hds⟩ := hw
    obtain ⟨t, ht⟩ := exists_writtenKey key
    obtain ⟨mark, hmark⟩ := exists_writtenMark .question optional
    obtain ⟨ts, hts⟩ := exists_expression_of_primary (exists_primary type htype)
    obtain ⟨us, hus⟩ := exists_default default? hdefault
    obtain ⟨vs, hvs⟩ := exists_decorators decorators hds
    have hp := @Written.property t ⟨.mark .colon, 0⟩ _ _ _ decorators key _ _ _ ht hmark rfl hts hus
    exact ⟨decorators, vs, _, hvs, hp⟩

theorem exists_default : (default? : Option Expression) → Expression.OptionWellFormed default? →
    ∃ ts, Written (.default default?) ts
  | none, _ => ⟨[], .noDefault⟩
  | some e, hw => by
    rw [Expression.OptionWellFormed] at hw
    obtain ⟨ts, hts⟩ := exists_expression_of_primary (exists_primary e hw)
    exact ⟨_, @Written.default ⟨.mark .equals, 0⟩ _ _ rfl hts⟩

theorem exists_arguments : (d : Decorator) → d.WellFormed →
    ∃ ns ts, WrittenName d.target ns ∧ Written (.arguments d.arguments) ts
  | ⟨target, arguments⟩, hw => by
    rw [Decorator.WellFormed] at hw
    obtain ⟨ns, hns⟩ := exists_writtenName hw.1
    obtain ⟨ts, hts⟩ := exists_listing .arguments (exists_primaries arguments hw.2)
    exact ⟨ns, _, hns, @Written.arguments ⟨.mark .leftParen, 0⟩ _ _ rfl hts⟩

theorem exists_decorators : (ds : List Decorator) → Decorator.AllWellFormed ds →
    ∃ ts, Written (.decorators ds) ts
  | [], _ => ⟨[], .noDecorator⟩
  | ⟨target, arguments⟩ :: ds, hw => by
    rw [Decorator.AllWellFormed] at hw
    obtain ⟨ns, ts, hns, hts⟩ := exists_arguments ⟨target, arguments⟩ hw.1
    obtain ⟨us, hus⟩ := exists_decorators ds hw.2
    exact ⟨_, @Written.decorator ⟨.mark .atSign, 0⟩ _ _ _ _ _ _ rfl hns hts hus⟩

end

theorem exists_writtenList {α : Type} {element : α → List Token → Prop} {as : List α}
    (h : ∀ a ∈ as, ∃ ts, element a ts) : ∃ ts, WrittenList element as ts := by
  induction as with
  | nil => exact ⟨_, @WrittenList.none _ _ ⟨.mark .rightBrace, 0⟩ rfl⟩
  | cons a as ih =>
    obtain ⟨ts, hts⟩ := h a List.mem_cons_self
    obtain ⟨us, hus⟩ := ih fun a ha => h a (List.mem_cons_of_mem _ ha)
    exact ⟨_, @WrittenList.more _ _ ⟨.mark .semicolon, 0⟩ _ _ _ _ hts (.inl rfl) hus⟩

theorem exists_writtenCase {c : Case} (hw : c.WellFormed) : ∃ ts, WrittenCase c ts := by
  cases c with
  | plain key value? decorators =>
    obtain ⟨-, hvalue, hds⟩ := hw
    obtain ⟨ts, hts⟩ := exists_decorators decorators hds
    obtain ⟨t, ht⟩ := exists_writtenKey key
    cases value? with
    | none => exact ⟨_, .plain hts ht⟩
    | some e =>
      rw [Expression.OptionWellFormed] at hvalue
      obtain ⟨us, hus⟩ := exists_primary e hvalue
      exact ⟨_, @WrittenCase.valued t ⟨.mark .colon, 0⟩ _ _ _ _ _ hts ht rfl hus⟩
  | spread target =>
    obtain ⟨us, hus⟩ := exists_primary target hw
    exact ⟨_, @WrittenCase.spread ⟨.mark .ellipsis, 0⟩ _ _ _ _ .noDecorator rfl hus⟩

theorem exists_writtenSignature {o : Operation} (hw : o.WellFormed) :
    ∃ ts, WrittenSignature o ts := by
  obtain ⟨-, -, hps, hresult⟩ := hw
  obtain ⟨ts, hts⟩ := exists_members .parameters (exists_eachMember o.parameters hps)
  obtain ⟨us, hus⟩ := exists_expression_of_primary (exists_primary o.result hresult)
  exact ⟨_, @WrittenSignature.signature ⟨.name o.name, 0⟩ ⟨.mark .leftParen, 0⟩
    ⟨.mark .colon, 0⟩ _ _ _ o.decorators _ _ rfl rfl hts rfl hus⟩

theorem exists_writtenOperation {o : Operation} (hw : o.WellFormed) :
    ∃ ts, WrittenOperation o ts := by
  obtain ⟨us, hus⟩ := exists_writtenSignature hw
  obtain ⟨ts, hts⟩ := exists_decorators o.decorators hw.2.1
  exact ⟨_, @WrittenOperation.long ⟨.name "op", 0⟩ _ _ _ hts rfl hus⟩

theorem exists_writtenVariant {v : Variant} (hw : v.WellFormed) :
    ∃ ts, WrittenVariant v ts := by
  obtain ⟨t, ht⟩ := exists_writtenKey v.key
  obtain ⟨us, hus⟩ := exists_expression_of_primary (exists_primary v.type hw.2)
  exact ⟨_, @WrittenVariant.variant t ⟨.mark .colon, 0⟩ _ _ _ _ _ .noDecorator ht rfl hus⟩

theorem exists_writtenModel {target? : Option Expression} {ms : List Member}
    (ht : Expression.OptionWellFormed target?) (hms : Member.AllWellFormed ms) :
    ∃ ts, WrittenModel target? ms ts := by
  obtain ⟨us, hus⟩ := exists_members .body (exists_eachMember ms hms)
  cases target? with
  | none => exact ⟨_, @WrittenModel.body ⟨.mark .leftBrace, 0⟩ _ _ rfl hus⟩
  | some e =>
    rw [Expression.OptionWellFormed] at ht
    obtain ⟨ts, hts⟩ := exists_expression_of_primary (exists_primary e ht)
    exact ⟨_, @WrittenModel.both ⟨.name "is", 0⟩ ⟨.mark .leftBrace, 0⟩ _ _ _ _ rfl hts rfl hus⟩

/-- A statement can be written in front of others. -/
def CanBeWritten (s : Statement) : Prop :=
  ∃ ts, ∀ ss us, WrittenStatements ss us → WrittenStatements (s :: ss) (ts ++ us)

theorem canBeWritten_declaration {ds : List Decorator} {s : Statement}
    (hds : Decorator.AllWellFormed ds) (h : ∃ us, WrittenDeclaration ds s us) :
    CanBeWritten s := by
  obtain ⟨ts, hts⟩ := exists_decorators ds hds
  obtain ⟨us, hus⟩ := h
  refine ⟨ts ++ us, fun ss vs hvs => ?_⟩
  rw [List.append_assoc]
  exact .declaration hts hus hvs

theorem canBeWritten_undecorated {s : Statement} (h : ∃ us, WrittenDeclaration [] s us) :
    CanBeWritten s :=
  @canBeWritten_declaration [] s trivial h

mutual

theorem canBeWritten : (s : Statement) → s.WellFormed → CanBeWritten s
  | .model m, hw => by
    obtain ⟨ts, hts⟩ := exists_writtenModel hw.2.2.1 hw.2.2.2
    exact canBeWritten_declaration hw.2.1
      ⟨_, @WrittenDeclaration.model _ ⟨.name "model", 0⟩ ⟨.name m.name, 0⟩ _ _ _ _ rfl rfl hts⟩
  | .enumeration e, hw => by
    obtain ⟨ts, hts⟩ := exists_writtenList fun c hc => exists_writtenCase (hw.2.2 c hc)
    exact canBeWritten_declaration hw.2.1 ⟨_, @WrittenDeclaration.enumeration _ ⟨.name "enum", 0⟩
      ⟨.name e.name, 0⟩ ⟨.mark .leftBrace, 0⟩ _ _ _ rfl rfl rfl hts⟩
  | .interface i, hw => by
    obtain ⟨ts, hts⟩ := exists_writtenList fun o ho => exists_writtenOperation (hw.2.2 o ho)
    exact canBeWritten_declaration hw.2.1 ⟨_, @WrittenDeclaration.interface _
      ⟨.name "interface", 0⟩ ⟨.name i.name, 0⟩ ⟨.mark .leftBrace, 0⟩ _ _ _ rfl rfl rfl hts⟩
  | .operation o, hw => by
    obtain ⟨ts, hts⟩ := exists_writtenSignature hw
    exact canBeWritten_declaration hw.2.1 ⟨_, @WrittenDeclaration.operation _ ⟨.name "op", 0⟩
      ⟨.mark .semicolon, 0⟩ _ _ rfl rfl hts rfl⟩
  | .scope name decorators statements, hw => by
    rw [Statement.WellFormed] at hw
    obtain ⟨hname, hds, hss⟩ := hw
    obtain ⟨ns, hns⟩ := exists_writtenName hname
    obtain ⟨ts, hts⟩ := exists_decorators decorators hds
    obtain ⟨us, hus⟩ := exists_writtenStatements statements hss
    refine ⟨ts ++ ⟨.name "namespace", 0⟩ ::
      (ns ++ ⟨.mark .leftBrace, 0⟩ :: (us ++ [⟨.mark .rightBrace, 0⟩])), fun ss vs hvs => ?_⟩
    simp only [List.append_assoc, List.cons_append, List.nil_append]
    exact .scope hts rfl hns rfl hus rfl hvs
  | .union name decorators variants, hw => by
    rw [Statement.WellFormed] at hw
    obtain ⟨ts, hts⟩ := exists_writtenList fun v hv => exists_writtenVariant (hw.2.2 v hv)
    exact canBeWritten_declaration hw.2.1 ⟨_, @WrittenDeclaration.union _ ⟨.name "union", 0⟩
      ⟨.name name, 0⟩ ⟨.mark .leftBrace, 0⟩ _ _ _ rfl rfl rfl hts⟩
  | .usingName name, hw => by
    obtain ⟨ts, hts⟩ := exists_writtenName hw
    exact canBeWritten_undecorated ⟨_, @WrittenDeclaration.usingName [] ⟨.name "using", 0⟩
      ⟨.mark .semicolon, 0⟩ _ _ rfl hts rfl⟩
  | .typeAlias name type, hw => by
    obtain ⟨ts, hts⟩ := exists_expression_of_primary (exists_primary type hw.2)
    exact canBeWritten_undecorated ⟨_, @WrittenDeclaration.typeAlias [] ⟨.name "alias", 0⟩
      ⟨.name name, 0⟩ ⟨.mark .equals, 0⟩ ⟨.mark .semicolon, 0⟩ _ _ _ rfl rfl rfl hts rfl⟩
  | .importPath path, _ =>
    canBeWritten_undecorated ⟨_, @WrittenDeclaration.importPath [] ⟨.name "import", 0⟩
      ⟨.text path, 0⟩ ⟨.mark .semicolon, 0⟩ _ rfl rfl rfl⟩
  | .projection, _ =>
    canBeWritten_undecorated ⟨_, @WrittenDeclaration.projection []
      ⟨.name "projection", 0⟩ ⟨.mark .leftBrace, 0⟩ ⟨.mark .rightBrace, 0⟩ [] [] rfl (by simp) rfl
      .nil rfl⟩
  | .empty, _ =>
    canBeWritten_undecorated
      ⟨_, @WrittenDeclaration.empty [] ⟨.mark .semicolon, 0⟩ rfl⟩
  | .invalid, _ => by
    refine ⟨[⟨.name "invalid", 0⟩, ⟨.mark .semicolon, 0⟩], fun ss us hus => ?_⟩
    refine @WrittenStatements.invalid ⟨.name "invalid", 0⟩ [⟨.mark .semicolon, 0⟩] us ss ?_ ?_ hus
    · refine ⟨by decide, ?_⟩
      intro word hword
      cases hword
      rfl
    · exact .cons (by decide) (.semicolon rfl)

theorem exists_writtenStatements : (ss : List Statement) → Statement.AllWellFormed ss →
    ∃ ts, WrittenStatements ss ts
  | [], _ => ⟨[], .nil⟩
  | s :: ss, hw => by
    rw [Statement.AllWellFormed] at hw
    obtain ⟨ts, hts⟩ := canBeWritten s hw.1
    obtain ⟨us, hus⟩ := exists_writtenStatements ss hw.2
    exact ⟨_, hts ss us hus⟩

end

end Grammar

theorem Program.ofTokens_of_written {p : Program} {ts : List Token} (h : p.Written ts)
    (text : List Char) (stop : Nat) : Program.ofTokens text ⟨ts, stop⟩ = .ok p := by
  unfold Program.ofTokens
  rw [h.reads.2]

/-- A well-formed program can be written, is read back from all tokens that it may be written as,
and is the only program that may be written so. -/
theorem Program.written_unambiguous {p : Program} (hp : p.WellFormed) :
    (∃ ts, p.Written ts) ∧ ∀ ts, p.Written ts →
      (∀ text stop, Program.ofTokens text ⟨ts, stop⟩ = .ok p) ∧
        ∀ q : Program, q.Written ts → q = p := by
  refine ⟨Grammar.exists_writtenStatements p.statements hp, ?_⟩
  intro ts hts
  refine ⟨Program.ofTokens_of_written hts, ?_⟩
  intro q hq
  have hread : Program.ofTokens [] ⟨ts, 0⟩ = .ok p := Program.ofTokens_of_written hts [] 0
  rw [Program.ofTokens_of_written hq [] 0] at hread
  exact Except.ok.inj hread

/-- The alias `alias is = (A | B)[];`, whose name is a keyword of models. -/
theorem Program.written_unambiguous_alias :
    let p : Program := ⟨[.typeAlias "is" (.array (.union [.reference "A", .reference "B"]))]⟩
    let ts : List Token := [⟨.name "alias", 0⟩, ⟨.name "is", 6⟩, ⟨.mark .equals, 9⟩,
      ⟨.mark .leftParen, 11⟩, ⟨.name "A", 12⟩, ⟨.mark .pipe, 14⟩, ⟨.name "B", 16⟩,
      ⟨.mark .rightParen, 17⟩, ⟨.mark .leftBracket, 18⟩, ⟨.mark .rightBracket, 19⟩,
      ⟨.mark .semicolon, 20⟩]
    p.WellFormed ∧ p.Written ts ∧ (∀ text stop, Program.ofTokens text ⟨ts, stop⟩ = .ok p) ∧
      ∀ q : Program, q.Written ts → q = p := by
  intro p ts
  have hp : p.WellFormed := by
    simp only [p, Program.WellFormed, Statement.AllWellFormed, Statement.WellFormed,
      Expression.WellFormed, Expression.AllWellFormed]
    decide
  have hoption (n : String) (hn : n ∉ typeKeywords) (offset : Nat) :
      Grammar.Written (.intersection (.reference n)) [⟨.name n, offset⟩] :=
    .intersection (.operand (.path (.reference rfl hn))) .noIntersectionOption
  have hunion : Grammar.Written (.expression (.union [.reference "A", .reference "B"]))
      [⟨.name "A", 12⟩, ⟨.mark .pipe, 14⟩, ⟨.name "B", 16⟩] :=
    .expression .absent (hoption "A" (by decide) 12)
      (.unionOption rfl (hoption "B" (by decide) 16) .noUnionOption)
  have hgroup := @Grammar.Written.group ⟨.mark .leftParen, 11⟩ ⟨.mark .rightParen, 17⟩ _ _ rfl
    hunion rfl
  have harray := @Grammar.Written.array ⟨.mark .leftBracket, 18⟩ ⟨.mark .rightBracket, 19⟩ _ _
    (.operand hgroup) rfl rfl
  have htype := Grammar.Written.expression .absent
    (.intersection harray .noIntersectionOption) .noUnionOption
  have hts : p.Written ts := .declaration .noDecorator
    (@Grammar.WrittenDeclaration.typeAlias _ ⟨.name "alias", 0⟩ ⟨.name "is", 6⟩
      ⟨.mark .equals, 9⟩ ⟨.mark .semicolon, 20⟩ _ _ _ rfl rfl rfl htype rfl) .nil
  obtain ⟨hread, hunique⟩ := (Program.written_unambiguous hp).2 ts hts
  exact ⟨hp, hts, hread, hunique⟩

end SchemaContract
