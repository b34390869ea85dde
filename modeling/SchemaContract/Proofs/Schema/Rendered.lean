import Mathlib
import SchemaContract.Proofs.Grammar.Paths
import SchemaContract.Proofs.Json.Pretty
import SchemaContract.Schema.Rendering

/-!
Syntax trees as JSON texts. The JSON value of a tree tells every part of it, and where all numbers
are finite the indented text tells the JSON value, so that different programs never print alike.
-/
namespace SchemaContract

@[simp] theorem Json.tagged_inj {kind kind' : String} {value value' : Json} :
    Json.tagged kind value = Json.tagged kind' value' ↔ kind = kind' ∧ value = value' := by
  simp [Json.tagged]

/-- A node with parts is never written like one without. -/
@[simp] theorem Json.tagged_ne_text {kind text : String} {value : Json} :
    Json.tagged kind value ≠ .text text := by
  simp [Json.tagged]

@[simp] theorem Json.text_ne_tagged {kind text : String} {value : Json} :
    Json.text text ≠ .tagged kind value := by
  simp [Json.tagged]

theorem Key.toJson_injective : Function.Injective Key.toJson := by
  intro key key' h
  cases key <;> cases key' <;> simp_all [Key.toJson]

/-- What is there is never written like what is absent. -/
theorem Expression.toJson_ne_null (e : Expression) : e.toJson ≠ .null := by
  cases e <;> simp [Expression.toJson, Json.tagged]

mutual

theorem Expression.toJson_inj : ∀ {e e' : Expression}, e.toJson = e'.toJson → e = e'
  | .array element, e', h => by
    cases e' with
    | array element' =>
      have hpart : element.toJson = element'.toJson := by simpa [Expression.toJson] using h
      rw [Expression.toJson_inj hpart]
    | _ => simp [Expression.toJson] at h
  | .tuple elements, e', h => by
    cases e' with
    | tuple elements' =>
      have hparts : Expression.listToJson elements = Expression.listToJson elements' := by
        simpa [Expression.toJson] using h
      rw [Expression.listToJson_inj hparts]
    | _ => simp [Expression.toJson] at h
  | .union options, e', h => by
    cases e' with
    | union options' =>
      have hparts : Expression.listToJson options = Expression.listToJson options' := by
        simpa [Expression.toJson] using h
      rw [Expression.listToJson_inj hparts]
    | _ => simp [Expression.toJson] at h
  | .intersection options, e', h => by
    cases e' with
    | intersection options' =>
      have hparts : Expression.listToJson options = Expression.listToJson options' := by
        simpa [Expression.toJson] using h
      rw [Expression.listToJson_inj hparts]
    | _ => simp [Expression.toJson] at h
  | .model members, e', h => by
    cases e' with
    | model members' =>
      have hparts : Member.listToJson members = Member.listToJson members' := by
        simpa [Expression.toJson] using h
      rw [Member.listToJson_inj hparts]
    | _ => simp [Expression.toJson] at h
  | .member base name, e', h => by
    cases e' with
    | member base' name' =>
      have hparts : base.toJson = base'.toJson ∧ name = name' := by
        simpa [Expression.toJson] using h
      rw [Expression.toJson_inj hparts.1, hparts.2]
    | _ => simp [Expression.toJson] at h
  -- what is left holds no expression, and its value holds all of it
  | .reference _, e', h | .identifier _, e', h | .text _, e', h | .number _, e', h
  | .boolean _, e', h | .void, e', h | .never, e', h | .unknown, e', h => by
    cases e' <;> simp_all [Expression.toJson]

theorem Expression.listToJson_inj : ∀ {es es' : List Expression},
    Expression.listToJson es = Expression.listToJson es' → es = es'
  | [], [], _ => rfl
  | [], _ :: _, h => absurd h (List.cons_ne_nil _ _).symm
  | _ :: _, [], h => absurd h (List.cons_ne_nil _ _)
  | e :: es, e' :: es', h => by
    obtain ⟨he, hes⟩ := List.cons.inj h
    rw [Expression.toJson_inj he, Expression.listToJson_inj hes]

theorem Expression.optionToJson_inj : ∀ {e? e'? : Option Expression},
    Expression.optionToJson e? = Expression.optionToJson e'? → e? = e'?
  | none, none, _ => rfl
  | none, some e', h => absurd h.symm e'.toJson_ne_null
  | some e, none, h => absurd h e.toJson_ne_null
  | some e, some e', h => congrArg some (Expression.toJson_inj h)

theorem Member.toJson_inj : ∀ {m m' : Member}, m.toJson = m'.toJson → m = m'
  | .property ⟨key, type, optional, default?, decorators⟩,
      .property ⟨key', type', optional', default?', decorators'⟩, h => by
    simp only [Member.toJson, Json.tagged_inj, Json.record.injEq, List.cons.injEq, Field.mk.injEq,
      Json.boolean.injEq, Json.list.injEq, true_and, and_true] at h
    obtain ⟨hkey, htype, hoptional, hdefault, hdecorators⟩ := h
    rw [Key.toJson_injective hkey, Expression.toJson_inj htype, hoptional,
      Expression.optionToJson_inj hdefault, Decorator.listToJson_inj hdecorators]
  | .property ⟨_, _, _, _, _⟩, .spread _, h => by simp [Member.toJson] at h
  | .spread _, .property ⟨_, _, _, _, _⟩, h => by simp [Member.toJson] at h
  | .spread target, .spread target', h => by
    have hpart : target.toJson = target'.toJson := by simpa [Member.toJson] using h
    rw [Expression.toJson_inj hpart]

theorem Member.listToJson_inj : ∀ {ms ms' : List Member},
    Member.listToJson ms = Member.listToJson ms' → ms = ms'
  | [], [], _ => rfl
  | [], _ :: _, h => absurd h (List.cons_ne_nil _ _).symm
  | _ :: _, [], h => absurd h (List.cons_ne_nil _ _)
  | m :: ms, m' :: ms', h => by
    obtain ⟨hm, hms⟩ := List.cons.inj h
    rw [Member.toJson_inj hm, Member.listToJson_inj hms]

theorem Decorator.toJson_inj : ∀ {d d' : Decorator}, d.toJson = d'.toJson → d = d'
  | ⟨target, arguments⟩, ⟨target', arguments'⟩, h => by
    have hparts : target = target' ∧
        Expression.listToJson arguments = Expression.listToJson arguments' := by
      simpa [Decorator.toJson] using h
    rw [hparts.1, Expression.listToJson_inj hparts.2]

theorem Decorator.listToJson_inj : ∀ {ds ds' : List Decorator},
    Decorator.listToJson ds = Decorator.listToJson ds' → ds = ds'
  | [], [], _ => rfl
  | [], _ :: _, h => absurd h (List.cons_ne_nil _ _).symm
  | _ :: _, [], h => absurd h (List.cons_ne_nil _ _)
  | d :: ds, d' :: ds', h => by
    obtain ⟨hd, hds⟩ := List.cons.inj h
    rw [Decorator.toJson_inj hd, Decorator.listToJson_inj hds]

end

theorem Model.toJson_injective : Function.Injective Model.toJson := by
  rintro ⟨name, decorators, target?, members⟩ ⟨name', decorators', target?', members'⟩ h
  simp only [Model.toJson, Json.record.injEq, List.cons.injEq, Field.mk.injEq, Json.text.injEq,
    Json.list.injEq, true_and, and_true] at h
  obtain ⟨hname, hdecorators, htarget, hmembers⟩ := h
  rw [hname, Decorator.listToJson_inj hdecorators, Expression.optionToJson_inj htarget,
    Member.listToJson_inj hmembers]

theorem Case.toJson_injective : Function.Injective Case.toJson := by
  intro c c' h
  cases c with
  | plain key value? decorators =>
    cases c' with
    | plain key' value?' decorators' =>
      simp only [Case.toJson, Json.tagged_inj, Json.record.injEq, List.cons.injEq, Field.mk.injEq,
        Json.list.injEq, true_and, and_true] at h
      obtain ⟨hkey, hvalue, hdecorators⟩ := h
      rw [Key.toJson_injective hkey, Expression.optionToJson_inj hvalue,
        Decorator.listToJson_inj hdecorators]
    | spread target' => simp [Case.toJson] at h
  | spread target =>
    cases c' with
    | plain => simp [Case.toJson] at h
    | spread target' =>
      have hpart : target.toJson = target'.toJson := by simpa [Case.toJson] using h
      rw [Expression.toJson_inj hpart]

theorem Enumeration.toJson_injective : Function.Injective Enumeration.toJson := by
  rintro ⟨name, decorators, cases⟩ ⟨name', decorators', cases'⟩ h
  simp only [Enumeration.toJson, Json.record.injEq, List.cons.injEq, Field.mk.injEq,
    Json.text.injEq, Json.list.injEq, true_and, and_true] at h
  obtain ⟨hname, hdecorators, hcases⟩ := h
  rw [hname, Decorator.listToJson_inj hdecorators, Case.toJson_injective.list_map hcases]

theorem Operation.toJson_injective : Function.Injective Operation.toJson := by
  rintro ⟨name, decorators, parameters, result⟩ ⟨name', decorators', parameters', result'⟩ h
  simp only [Operation.toJson, Json.record.injEq, List.cons.injEq, Field.mk.injEq, Json.text.injEq,
    Json.list.injEq, true_and, and_true] at h
  obtain ⟨hname, hdecorators, hparameters, hresult⟩ := h
  rw [hname, Decorator.listToJson_inj hdecorators, Member.listToJson_inj hparameters,
    Expression.toJson_inj hresult]

theorem Interface.toJson_injective : Function.Injective Interface.toJson := by
  rintro ⟨name, decorators, operations⟩ ⟨name', decorators', operations'⟩ h
  simp only [Interface.toJson, Json.record.injEq, List.cons.injEq, Field.mk.injEq, Json.text.injEq,
    Json.list.injEq, true_and, and_true] at h
  obtain ⟨hname, hdecorators, hoperations⟩ := h
  rw [hname, Decorator.listToJson_inj hdecorators,
    Operation.toJson_injective.list_map hoperations]

theorem Variant.toJson_injective : Function.Injective Variant.toJson := by
  rintro ⟨key, type⟩ ⟨key', type'⟩ h
  simp only [Variant.toJson, Json.record.injEq, List.cons.injEq, Field.mk.injEq, true_and,
    and_true] at h
  obtain ⟨hkey, htype⟩ := h
  rw [Key.toJson_injective hkey, Expression.toJson_inj htype]

mutual

theorem Statement.toJson_inj : ∀ {s s' : Statement}, s.toJson = s'.toJson → s = s'
  | .model m, s', h => by
    cases s' with
    | model m' =>
      have hpart : m.toJson = m'.toJson := by simpa [Statement.toJson] using h
      rw [Model.toJson_injective hpart]
    | _ => simp [Statement.toJson] at h
  | .enumeration e, s', h => by
    cases s' with
    | enumeration e' =>
      have hpart : e.toJson = e'.toJson := by simpa [Statement.toJson] using h
      rw [Enumeration.toJson_injective hpart]
    | _ => simp [Statement.toJson] at h
  | .interface i, s', h => by
    cases s' with
    | interface i' =>
      have hpart : i.toJson = i'.toJson := by simpa [Statement.toJson] using h
      rw [Interface.toJson_injective hpart]
    | _ => simp [Statement.toJson] at h
  | .operation o, s', h => by
    cases s' with
    | operation o' =>
      have hpart : o.toJson = o'.toJson := by simpa [Statement.toJson] using h
      rw [Operation.toJson_injective hpart]
    | _ => simp [Statement.toJson] at h
  | .scope name decorators statements, s', h => by
    cases s' with
    | scope name' decorators' statements' =>
      simp only [Statement.toJson, Json.tagged_inj, Json.record.injEq, List.cons.injEq,
        Field.mk.injEq, Json.text.injEq, Json.list.injEq, true_and, and_true] at h
      obtain ⟨hname, hdecorators, hstatements⟩ := h
      rw [hname, Decorator.listToJson_inj hdecorators, Statement.listToJson_inj hstatements]
    | _ => simp [Statement.toJson] at h
  | .union name decorators variants, s', h => by
    cases s' with
    | union name' decorators' variants' =>
      simp only [Statement.toJson, Json.tagged_inj, Json.record.injEq, List.cons.injEq,
        Field.mk.injEq, Json.text.injEq, Json.list.injEq, true_and, and_true] at h
      obtain ⟨hname, hdecorators, hvariants⟩ := h
      rw [hname, Decorator.listToJson_inj hdecorators, Variant.toJson_injective.list_map hvariants]
    | _ => simp [Statement.toJson] at h
  | .typeAlias name type, s', h => by
    cases s' with
    | typeAlias name' type' =>
      have hparts : name = name' ∧ type.toJson = type'.toJson := by
        simpa [Statement.toJson] using h
      rw [hparts.1, Expression.toJson_inj hparts.2]
    | _ => simp [Statement.toJson] at h
  | .importPath _, s', h | .usingName _, s', h | .projection, s', h | .empty, s', h
  | .invalid, s', h => by
    cases s' <;> simp_all [Statement.toJson]

theorem Statement.listToJson_inj : ∀ {ss ss' : List Statement},
    Statement.listToJson ss = Statement.listToJson ss' → ss = ss'
  | [], [], _ => rfl
  | [], _ :: _, h => absurd h (List.cons_ne_nil _ _).symm
  | _ :: _, [], h => absurd h (List.cons_ne_nil _ _)
  | s :: ss, s' :: ss', h => by
    obtain ⟨hs, hss⟩ := List.cons.inj h
    rw [Statement.toJson_inj hs, Statement.listToJson_inj hss]

end

theorem Program.toJson_injective : Function.Injective Program.toJson := by
  rintro ⟨statements⟩ ⟨statements'⟩ h
  have hparts : Statement.listToJson statements = Statement.listToJson statements' := by
    simpa [Program.toJson] using h
  rw [Statement.listToJson_inj hparts]

/-- The numbers among expressions are finite. -/
def FiniteNumbers (es : List Expression) : Prop := ∀ x, .number x ∈ es → x.isFinite = true

variable {es es' : List Expression}

@[simp] theorem finiteNumbers_nil : FiniteNumbers [] := by simp [FiniteNumbers]

@[simp] theorem finiteNumbers_cons {e : Expression} :
    FiniteNumbers (e :: es) ↔ (∀ x, .number x = e → x.isFinite = true) ∧ FiniteNumbers es := by
  simp [FiniteNumbers, or_imp, forall_and]

@[simp] theorem finiteNumbers_append :
    FiniteNumbers (es ++ es') ↔ FiniteNumbers es ∧ FiniteNumbers es' := by
  simp [FiniteNumbers, or_imp, forall_and]

@[simp] theorem finiteNumbers_flatMap {α : Type} {f : α → List Expression} {as : List α} :
    FiniteNumbers (as.flatMap f) ↔ ∀ a ∈ as, FiniteNumbers (f a) := by
  simp only [FiniteNumbers, List.mem_flatMap]
  grind

@[simp] theorem Json.allFinite_tagged {kind : String} {value : Json} :
    (Json.tagged kind value).AllFinite ↔ value.AllFinite := by
  simp [Json.tagged]

@[simp] theorem Key.allFinite_toJson (key : Key) : key.toJson.AllFinite := by
  cases key <;> simp [Key.toJson]

mutual

theorem Expression.allFinite_toJson : ∀ e : Expression,
    e.toJson.AllFinite ↔ FiniteNumbers e.subexpressions
  | .array element => by
    simp [Expression.toJson, Expression.subexpressions, Expression.allFinite_toJson element]
  | .tuple elements => by
    simp [Expression.toJson, Expression.subexpressions, Expression.allFinite_listToJson elements]
  | .union options => by
    simp [Expression.toJson, Expression.subexpressions, Expression.allFinite_listToJson options]
  | .intersection options => by
    simp [Expression.toJson, Expression.subexpressions, Expression.allFinite_listToJson options]
  | .model members => by
    simp [Expression.toJson, Expression.subexpressions, Member.allFinite_listToJson members]
  | .member base name => by
    simp [Expression.toJson, Expression.subexpressions, Expression.allFinite_toJson base]
  | .reference _ | .identifier _ | .text _ | .number _ | .boolean _ | .void | .never
  | .unknown => by
    simp [Expression.toJson, Expression.subexpressions]

theorem Expression.allFinite_listToJson : ∀ es : List Expression,
    (∀ j ∈ Expression.listToJson es, j.AllFinite) ↔
      FiniteNumbers (Expression.subexpressionsOfAll es)
  | [] => by simp [Expression.listToJson, Expression.subexpressionsOfAll]
  | e :: es => by
    simp [Expression.listToJson, Expression.subexpressionsOfAll, Expression.allFinite_toJson e,
      Expression.allFinite_listToJson es]

theorem Expression.allFinite_optionToJson : ∀ e? : Option Expression,
    (Expression.optionToJson e?).AllFinite ↔
      FiniteNumbers (Expression.subexpressionsOfOption e?)
  | none => by simp [Expression.optionToJson, Expression.subexpressionsOfOption]
  | some e => Expression.allFinite_toJson e

theorem Member.allFinite_toJson : ∀ m : Member,
    m.toJson.AllFinite ↔ FiniteNumbers m.subexpressions
  | .property ⟨key, type, optional, default?, decorators⟩ => by
    simp [Member.toJson, Member.subexpressions, Property.subexpressions,
      Expression.allFinite_toJson type, Expression.allFinite_optionToJson default?,
      Decorator.allFinite_listToJson decorators]
  | .spread target => by
    simp [Member.toJson, Member.subexpressions, Expression.allFinite_toJson target]

theorem Member.allFinite_listToJson : ∀ ms : List Member,
    (∀ j ∈ Member.listToJson ms, j.AllFinite) ↔ FiniteNumbers (Member.subexpressionsOfAll ms)
  | [] => by simp [Member.listToJson, Member.subexpressionsOfAll]
  | m :: ms => by
    simp [Member.listToJson, Member.subexpressionsOfAll, Member.allFinite_toJson m,
      Member.allFinite_listToJson ms]

theorem Decorator.allFinite_toJson : ∀ d : Decorator,
    d.toJson.AllFinite ↔ FiniteNumbers d.subexpressions
  | ⟨target, arguments⟩ => by
    simp [Decorator.toJson, Decorator.subexpressions, Expression.allFinite_listToJson arguments]

theorem Decorator.allFinite_listToJson : ∀ ds : List Decorator,
    (∀ j ∈ Decorator.listToJson ds, j.AllFinite) ↔
      FiniteNumbers (Decorator.subexpressionsOfAll ds)
  | [] => by simp [Decorator.listToJson, Decorator.subexpressionsOfAll]
  | d :: ds => by
    simp [Decorator.listToJson, Decorator.subexpressionsOfAll, Decorator.allFinite_toJson d,
      Decorator.allFinite_listToJson ds]

end

attribute [simp] Expression.allFinite_toJson Expression.allFinite_optionToJson
  Member.allFinite_listToJson Decorator.allFinite_listToJson

@[simp] theorem Model.allFinite_toJson (m : Model) :
    m.toJson.AllFinite ↔ FiniteNumbers m.subexpressions := by
  simp [Model.toJson, Model.subexpressions]

@[simp] theorem Case.allFinite_toJson (c : Case) :
    c.toJson.AllFinite ↔ FiniteNumbers c.subexpressions := by
  cases c <;> simp [Case.toJson, Case.subexpressions]

@[simp] theorem Enumeration.allFinite_toJson (e : Enumeration) :
    e.toJson.AllFinite ↔ FiniteNumbers (Decorator.subexpressionsOfAll e.decorators ++
      e.cases.flatMap Case.subexpressions) := by
  simp [Enumeration.toJson]

@[simp] theorem Operation.allFinite_toJson (o : Operation) :
    o.toJson.AllFinite ↔ FiniteNumbers o.subexpressions := by
  simp [Operation.toJson, Operation.subexpressions]

@[simp] theorem Interface.allFinite_toJson (i : Interface) :
    i.toJson.AllFinite ↔ FiniteNumbers (Decorator.subexpressionsOfAll i.decorators ++
      i.operations.flatMap Operation.subexpressions) := by
  simp [Interface.toJson]

@[simp] theorem Variant.allFinite_toJson (v : Variant) :
    v.toJson.AllFinite ↔ FiniteNumbers v.type.subexpressions := by
  simp [Variant.toJson]

mutual

theorem Statement.allFinite_toJson : ∀ s : Statement,
    s.toJson.AllFinite ↔ FiniteNumbers s.subexpressions
  | .scope name decorators statements => by
    simp [Statement.toJson, Statement.subexpressions, Statement.allFinite_listToJson statements]
  | .model _ | .enumeration _ | .interface _ | .operation _ | .union .. | .typeAlias ..
  | .importPath _ | .usingName _ | .projection | .empty | .invalid => by
    simp [Statement.toJson, Statement.subexpressions]

theorem Statement.allFinite_listToJson : ∀ ss : List Statement,
    (∀ j ∈ Statement.listToJson ss, j.AllFinite) ↔
      FiniteNumbers (Statement.subexpressionsOfAll ss)
  | [] => by simp [Statement.listToJson, Statement.subexpressionsOfAll]
  | s :: ss => by
    simp [Statement.listToJson, Statement.subexpressionsOfAll, Statement.allFinite_toJson s,
      Statement.allFinite_listToJson ss]

end

theorem Program.allFinite_toJson (p : Program) :
    p.toJson.AllFinite ↔ FiniteNumbers p.subexpressions := by
  simp [Program.toJson, Program.subexpressions, Statement.allFinite_listToJson]

/-- Programs with finite numbers that print alike are the same. -/
theorem Program.pretty_toJson_inj {p q : Program} (hp : FiniteNumbers p.subexpressions)
    (hq : FiniteNumbers q.subexpressions) : p.toJson.pretty = q.toJson.pretty ↔ p = q := by
  have hfinite := p.allFinite_toJson.2 hp
  have hfinite' := q.allFinite_toJson.2 hq
  rw [hfinite.pretty_inj hfinite', Program.toJson_injective.eq_iff]

theorem Program.pretty_toJson_inj_literals :
    let p : Program := ⟨[.typeAlias "A" (.number ⟨0x3FF8000000000000⟩)]⟩
    let q : Program := ⟨[.typeAlias "A" (.text "1.5")]⟩
    FiniteNumbers p.subexpressions ∧ FiniteNumbers q.subexpressions ∧
      p.toJson.pretty ≠ q.toJson.pretty := by
  intro p q
  have hp : FiniteNumbers p.subexpressions := by
    have hfinite : Binary64.isFinite ⟨0x3FF8000000000000⟩ = true := by decide
    simpa [p, Program.subexpressions, Statement.subexpressionsOfAll, Statement.subexpressions,
      Expression.subexpressions] using hfinite
  have hq : FiniteNumbers q.subexpressions := by
    simp [q, Program.subexpressions, Statement.subexpressionsOfAll, Statement.subexpressions,
      Expression.subexpressions]
  refine ⟨hp, hq, fun h => ?_⟩
  have heq := (Program.pretty_toJson_inj hp hq).1 h
  simp [p, q] at heq

end SchemaContract
