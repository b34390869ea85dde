import SchemaContract.Proofs.Grammar.SoundProgram
import SchemaContract.Proofs.Walk.Inside
import SchemaContract.Proofs.Walk.Rounds

/-!
Walks advance. Wherever a rule is entered it ends, and within it the same rule is entered further on
only, be it the next round of a loop or a part of a part. So a walk over a text ends, and it finds
no more statements than there are tokens.
-/
namespace SchemaContract

mutual

def Statement.count : Statement → Nat
  | .scope _ _ statements => Statement.countAll statements + 1
  | _ => 1

def Statement.countAll : List Statement → Nat
  | [] => 0
  | s :: ss => s.count + Statement.countAll ss

end

def Program.statementCount (p : Program) : Nat :=
  Statement.countAll p.statements

namespace Grammar

open Statement (countAll)

variable {ts rest : List Token}

theorem WrittenDeclaration.count_eq_one {ds : List Decorator} {s : Statement} {ts : List Token}
    (h : WrittenDeclaration ds s ts) : s.count = 1 := by
  cases h <;> rfl

/-- A statement and those in it are not more than the tokens that it is read from. -/
theorem statement_count_le
    (hblock : ∀ {us rest : List Token} {ss : List Statement}, us.length ≤ ts.length →
      Gives (block us) ss rest → countAll ss + rest.length < us.length)
    {t : Token} {s : Statement} (h : Gives (statement t ts) s rest) :
    s.count + rest.length ≤ (t :: ts).length := by
  have hlt := h.length_lt
  obtain ⟨ds, us, hds, hread⟩ := h.readAs
  have hle := hds.length_lt
  cases hread with
  | declaration hw =>
    rw [hw.count_eq_one]
    omega
  | @scope t' u ns us _ n ss _ _ _ hss =>
    simp only [List.length_cons, List.length_append] at hle hlt ⊢
    have hinner := hblock (by omega) hss
    rw [Statement.count]
    omega
  | ended | skipped =>
    rw [Statement.count]
    · omega
    · intro n ds ss hs
      cases hs

theorem block_count_lt {ss : List Statement} (h : Gives (block ts) ss rest) :
    countAll ss + rest.length < ts.length := by
  induction h using Gives.block_induct with
  | close =>
    rw [countAll, List.length_cons]
    omega
  | cons _ hfirst _ inner ih =>
    have hle := statement_count_le inner hfirst
    rw [countAll]
    omega

theorem statements_count_le {ss : List Statement} (h : statements ts = .ok ss) :
    countAll ss ≤ ts.length := by
  induction h using statements_induct with
  | nil => exact Nat.le_refl 0
  | cons hfirst _ ih =>
    have hle := statement_count_le (fun _ hss => block_count_lt hss) hfirst
    rw [countAll]
    omega

end Grammar

theorem Program.statementCount_le {text : List Char} {tokens : Tokens} {p : Program}
    (h : Program.ofTokens text tokens = .ok p) : p.statementCount ≤ tokens.list.length := by
  unfold Program.ofTokens at h
  split at h
  · next ss hs =>
    cases h
    exact Grammar.statements_count_le hs
  · cases h

namespace Walk

-- Rules lead to rules of a lower rank only, so none leads back to itself.
def Rule.rank : Rule → Nat
  | program => 5
  | statements | items => 4
  | statement | expression => 3
  | intersection => 2
  | scope | members | cases | variants | operations | operand | projection | recover => 1
  | _ => 0

theorem Rule.rank_lt_of_mem_leads (rule : Rule) : ∀ lead ∈ rule.leads, lead.rank < rule.rank := by
  cases rule <;> decide

/-- Further on, or in the same place and lower. -/
def Entry.Before (outer inner : Entry) : Prop :=
  outer.index < inner.index ∨ outer.index = inner.index ∧ inner.rule.rank < outer.rule.rank

theorem Entry.Precedes.before {caller callee : Entry} (h : caller.Precedes callee) :
    caller.Before callee := by
  rcases h with hlt | ⟨heq, hlead⟩
  · exact .inl hlt
  · exact .inr ⟨heq, Rule.rank_lt_of_mem_leads _ _ hlead⟩

theorem Entry.Before.trans {e₁ e₂ e₃ : Entry} (h : e₁.Before e₂) (h' : e₂.Before e₃) :
    e₁.Before e₃ := by
  unfold Before at *
  omega

theorem Entry.before_of_transGen {outer inner : Entry}
    (h : Relation.TransGen Precedes outer inner) : outer.Before inner := by
  induction h with
  | single h => exact h.before
  | tail _ h ih => exact ih.trans h.before

theorem Entry.Before.index_le {outer inner : Entry} (h : outer.Before inner) :
    outer.index ≤ inner.index := by
  rcases h with hlt | ⟨heq, -⟩
  · exact Nat.le_of_lt hlt
  · exact Nat.le_of_eq heq

theorem Entry.Before.index_lt {outer inner : Entry} (h : outer.Before inner)
    (hrule : outer.rule = inner.rule) : outer.index < inner.index := by
  rcases h with hlt | ⟨-, hrank⟩
  · exact hlt
  · exact absurd hrank (hrule ▸ Nat.lt_irrefl _)

open Grammar (Fault MemberList mark? behindBlock_length_lt)

/-- The rules that succeed only behind a token. -/
def Rule.consumes : Rule → Bool
  | program | statements | nameParts | memberChain | brackets | unionOptions | intersectionOptions
  | decorators | recover => false
  | _ => true

/-- The rules as walks that are entered at an index: a statement at a token, a property where no
ellipsis stands, a recovery not before its start, and braces are counted from an opening one on. -/
inductive IsRule (tokens : Tokens) (i : Nat) : Rule → {α : Type} → (Entry → Walk α) → Prop where
  | nameParts (start : String) : IsRule tokens i .nameParts fun caller => caller.nameParts start
  | dottedName : IsRule tokens i .dottedName Entry.dottedName
  | memberChain (base : Expression) :
      IsRule tokens i .memberChain fun caller => caller.memberChain base
  | brackets (element : Expression) :
      IsRule tokens i .brackets fun caller => caller.brackets element
  | expression : IsRule tokens i .expression Entry.expression
  | unionOptions : IsRule tokens i .unionOptions Entry.unionOptions
  | intersection : IsRule tokens i .intersection Entry.intersection
  | intersectionOptions : IsRule tokens i .intersectionOptions Entry.intersectionOptions
  | operand : IsRule tokens i .operand Entry.operand
  | primary : IsRule tokens i .primary Entry.primary
  | items (close : Mark) (what : Expectation) :
      IsRule tokens i .items fun caller => caller.items close what
  | members (place : MemberList) :
      IsRule tokens i .members fun caller => caller.members place
  | property (ds : List Decorator) (h : mark? .ellipsis (tokens.list.drop i) = none) :
      IsRule tokens i .property fun caller => caller.property ds
  | decorators : IsRule tokens i .decorators Entry.decorators
  | model (ds : List Decorator) : IsRule tokens i .model fun caller => caller.model ds
  | cases : IsRule tokens i .cases Entry.cases
  | enumeration (ds : List Decorator) :
      IsRule tokens i .enumeration fun caller => caller.enumeration ds
  | operation (ds : List Decorator) : IsRule tokens i .operation fun caller => caller.operation ds
  | operations : IsRule tokens i .operations Entry.operations
  | interface (ds : List Decorator) : IsRule tokens i .interface fun caller => caller.interface ds
  | variants : IsRule tokens i .variants Entry.variants
  | union (ds : List Decorator) : IsRule tokens i .union fun caller => caller.union ds
  | braces (depth : Nat) : IsRule tokens i .braces fun caller => caller.braces (depth + 1)
  | block {t : Token} (h : tokens.list[i]? = some t) (hk : t.kind = .mark .leftBrace) :
      IsRule tokens i .braces fun caller => caller.braces 0
  | projection : IsRule tokens i .projection Entry.projection
  | recover {start : Nat} (h : start ≤ i) :
      IsRule tokens i .recover fun caller => caller.recover start
  | statement (h : i < tokens.list.length) : IsRule tokens i .statement Entry.statement
  | scope (ds : List Decorator) : IsRule tokens i .scope fun caller => caller.scope ds
  | statements : IsRule tokens i .statements fun caller => caller.statements false
  | statementsInBlock : IsRule tokens i .statements Entry.block

variable {text : List Char} {tokens : Tokens} {rule : Rule} {α : Type} {w : Entry → Walk α}
  {i : Nat}

theorem exists_obeys_recover {start : Nat} {ts : List Token} (hts : ts <:+ tokens.list)
    (h : start + ts.length ≤ tokens.list.length) :
    ∃ (a : Nat) (reading : Except Fault (Found Token a Unit)),
      Obeys text tokens .recover (fun caller => caller.recover start) ts reading := by
  rcases Nat.lt_or_eq_of_le h with hlt | heq
  · exact ⟨_, _, obeys_recover start ts rfl (Nat.lt_succ_self _) (.inl hlt)⟩
  cases ts with
  | nil => exact ⟨_, _, obeys_recover start [] rfl (Nat.lt_succ_self _) (.inr ⟨heq, rfl⟩)⟩
  | cons t ts =>
    obtain rfl : start = tokens.list.length - (t :: ts).length := by omega
    exact ⟨_, _, obeys_recover_start t ts hts (Nat.lt_succ_self _)⟩

theorem drop_eq_cons {i : Nat} {t : Token} {ts : List Token} (h : ts[i]? = some t) :
    ts.drop i = t :: ts.drop (i + 1) := by
  obtain ⟨hi, rfl⟩ := List.getElem?_eq_some_iff.1 h
  exact List.drop_eq_getElem_cons hi

/-- A rule obeys a reading, and where it is one that consumes, fewer tokens are left. -/
theorem IsRule.exists_obeys (text : List Char) (h : IsRule tokens i rule w)
    (hi : i ≤ tokens.list.length) :
    ∃ (a : Nat) (reading : Except Fault (Found Token a α)),
      Obeys text tokens rule w (tokens.list.drop i) reading ∧
        (rule.consumes = true → a ≤ (tokens.list.drop i).length) := by
  cases h with
  | nameParts start => exact ⟨_, _, obeys_nameParts start _, fun h => by cases h⟩
  | memberChain base => exact ⟨_, _, obeys_memberChain base _, fun h => by cases h⟩
  | brackets element => exact ⟨_, _, obeys_brackets element _, fun h => by cases h⟩
  | unionOptions => exact ⟨_, _, obeys_unionOptions _, fun h => by cases h⟩
  | intersectionOptions => exact ⟨_, _, obeys_intersectionOptions _, fun h => by cases h⟩
  | decorators => exact ⟨_, _, obeys_decorators _, fun h => by cases h⟩
  | statements => exact ⟨_, _, obeys_statements _, fun h => by cases h⟩
  | statementsInBlock => exact ⟨_, _, obeys_block _, fun h => by cases h⟩
  | dottedName => exact ⟨_, _, obeys_dottedName _, fun _ => Nat.le_refl _⟩
  | expression => exact ⟨_, _, obeys_expression _, fun _ => Nat.le_refl _⟩
  | intersection => exact ⟨_, _, obeys_intersection _, fun _ => Nat.le_refl _⟩
  | operand => exact ⟨_, _, obeys_operand _, fun _ => Nat.le_refl _⟩
  | primary => exact ⟨_, _, obeys_primary _, fun _ => Nat.le_refl _⟩
  | items close what => exact ⟨_, _, obeys_items close what _, fun _ => Nat.le_refl _⟩
  | members place => exact ⟨_, _, obeys_members place _, fun _ => Nat.le_refl _⟩
  | property ds h => exact ⟨_, _, obeys_property ds _ h, fun _ => Nat.le_refl _⟩
  | model ds => exact ⟨_, _, obeys_model ds _, fun _ => Nat.le_refl _⟩
  | cases => exact ⟨_, _, obeys_cases _, fun _ => Nat.le_refl _⟩
  | enumeration ds => exact ⟨_, _, obeys_enumeration ds _, fun _ => Nat.le_refl _⟩
  | operation ds => exact ⟨_, _, obeys_operation ds _, fun _ => Nat.le_refl _⟩
  | operations => exact ⟨_, _, obeys_operations _, fun _ => Nat.le_refl _⟩
  | interface ds => exact ⟨_, _, obeys_interface ds _, fun _ => Nat.le_refl _⟩
  | variants => exact ⟨_, _, obeys_variants _, fun _ => Nat.le_refl _⟩
  | union ds => exact ⟨_, _, obeys_union ds _, fun _ => Nat.le_refl _⟩
  | braces depth =>
    exact ⟨_, _, obeys_braces depth _ rfl fun _ => behindBlock_length_lt, fun _ => Nat.le_refl _⟩
  | block h hk =>
    rw [drop_eq_cons h]
    exact ⟨_, _, obeys_braces_open hk rfl fun _ h => Nat.lt_succ_of_lt (behindBlock_length_lt h),
      fun _ => Nat.le_refl _⟩
  | projection => exact ⟨_, _, obeys_projection _, fun _ => Nat.le_refl _⟩
  | @recover start h =>
    have hle : start + (tokens.list.drop i).length ≤ tokens.list.length := by
      rw [List.length_drop]
      omega
    obtain ⟨a, reading, hobeys⟩ := exists_obeys_recover (List.drop_suffix i tokens.list) hle
    exact ⟨a, reading, hobeys, fun h => by cases h⟩
  | statement h =>
    rw [List.drop_eq_getElem_cons h]
    exact ⟨_, _, obeys_statement _ _, fun _ => Nat.le_refl _⟩
  | scope ds => exact ⟨_, _, obeys_scope ds _, fun _ => Nat.le_refl _⟩

/-- Whoever enters the rule at an index, and whatever is on record, the walk ends at the same index,
which is not further back. Its entry is put on record and then what is within it, all of it further
on or led to, and the same rule further on only. -/
def Advances (text : List Char) (tokens : Tokens) (rule : Rule) (w : Entry → Walk α) (i : Nat) :
    Prop :=
  ∃ ending j events,
    (∀ caller record, (w caller).outcome ⟨text, tokens.cells⟩ ⟨i, record⟩ =
      some (ending, ⟨j, record ++ .enters caller ⟨rule, i⟩ :: events⟩)) ∧
    i ≤ j ∧ j ≤ tokens.list.length ∧
    (rule.consumes = true → ∀ v, ending = .ok v → i < j) ∧
    ∀ caller callee, .enters caller callee ∈ events →
      caller.Precedes callee ∧ i ≤ callee.index ∧ (callee.rule = rule → i < callee.index)

theorem IsRule.advances (h : IsRule tokens i rule w) (hi : i ≤ tokens.list.length) :
    Advances text tokens rule w i := by
  have hlength : (tokens.list.drop i).length = tokens.list.length - i := List.length_drop
  obtain ⟨a, reading, hobeys, hconsumes⟩ := h.exists_obeys text hi
  obtain ⟨hleft, events, hsound, hw⟩ := hobeys.exists_events (List.drop_suffix i _)
  have hle := hleft.length_le
  rw [hlength, Nat.sub_sub_self hi] at hsound hw
  refine ⟨_, _, events, hw, by omega, Nat.sub_le _ _, fun hc v hv => ?_, ?_⟩
  · cases reading with
    | error fault => cases hv
    | ok found =>
      have hlt := found.within
      have ha := hconsumes hc
      simp only [left] at hle ⊢
      omega
  · intro caller callee hmem
    obtain ⟨hprecedes, hwithin⟩ := hsound _ hmem
    have hbefore := Entry.before_of_transGen hwithin
    exact ⟨hprecedes, hbefore.index_le, fun hrule => hbefore.index_lt hrule.symm⟩

/-- One rule enters another. -/
def State.Calls (s : State) (caller callee : Entry) : Prop :=
  .enters caller callee ∈ s.record

/-- The walk over a text is its statements, entered at the start. -/
theorem walk_eq_statements (text : List Char) (tokens : Tokens) :
    tokens.walk text =
      ((Entry.statements ⟨.program, 0⟩ false).outcome ⟨text, tokens.cells⟩ .start).map fun run =>
        (run.1.map Program.mk, run.2) := by
  unfold Tokens.walk program
  rw [outcome_bind]
  rcases (Entry.statements ⟨.program, 0⟩ false).outcome ⟨text, tokens.cells⟩ .start with
    _ | ⟨_ | v, s⟩ <;> rfl

end Walk

/-- The walk over any tokens ends. Each rule, wherever it is entered, ends not further back, and
further on if it succeeds and is one that consumes; and every rule within it is entered further on
than its caller, or in its place if that leads to it, so the same rule further on only. No round of
a loop goes on without a token. The walk is the statements from the first token on; where a program
is found it has come to the end of the text, and the program has no more statements, at all depths
together, than there are tokens. -/
theorem Tokens.walk_advances (text : List Char) (tokens : Tokens) :
    (∀ (rule : Walk.Rule) (α : Type) (w : Walk.Entry → Walk α) (i : Nat),
      i ≤ tokens.list.length → Walk.IsRule tokens i rule w →
        Walk.Advances text tokens rule w i) ∧
      (∀ (rule : Walk.Rule) (σ α β : Type) (loop : Walk.Loop rule σ α β),
        Walk.IsLoop loop → loop.Advances text tokens) ∧
      (tokens.walk text =
        ((Walk.Entry.statements ⟨.program, 0⟩ false).outcome ⟨text, tokens.cells⟩ .start).map
          fun run => (run.1.map Program.mk, run.2)) ∧
      ∃ final,
        tokens.walk text =
            some ((Program.ofTokens text tokens).mapError Walk.Halt.fault, final) ∧
          (∀ caller callee, final.Calls caller callee → caller.Precedes callee) ∧
          (∀ outer inner, Relation.TransGen final.Calls outer inner → outer.rule = inner.rule →
            outer.index < inner.index) ∧
          ∀ p, Program.ofTokens text tokens = .ok p →
            final.index = tokens.list.length ∧ p.statementCount ≤ tokens.list.length := by
  refine ⟨fun rule α w i hi h => h.advances hi, fun rule σ α β loop h => h.advances,
    Walk.walk_eq_statements text tokens, ?_⟩
  obtain ⟨final, hw, hsound, hend⟩ := Walk.walk_eq text tokens
  have hcalls (caller callee : Walk.Entry) (h : final.Calls caller callee) :
      caller.Precedes callee := (hsound _ h).1
  refine ⟨final, hw, hcalls, fun outer inner hc hrule => ?_, fun p hp => ?_⟩
  · have hwithin := Relation.TransGen.mono hcalls _ _ hc
    exact (Walk.Entry.before_of_transGen hwithin).index_lt hrule
  · exact ⟨hend p hp, Program.statementCount_le hp⟩

namespace Walk

variable {ground : Ground} {i offset : Nat}

theorem outcome_statement_semicolon
    (h : ground.cells[i]? = some ⟨some (.mark .semicolon), offset⟩) (caller : Entry)
    (record : List Event) :
    caller.statement.outcome ground ⟨i, record⟩ =
      some (.ok .empty, ⟨i + 1, record ++ [.enters caller ⟨.statement, i⟩,
        .enters ⟨.statement, i⟩ ⟨.decorators, i⟩, .stands (i + 1)]⟩) := by
  rw [Entry.statement, outcome_bind, outcome_enter]
  dsimp only [Option.bind_some]
  rw [Entry.decorators, bind_assoc, outcome_bind, outcome_enter]
  dsimp only [Option.bind_some]
  rw [bind_assoc, outcome_bind, outcome_take h, if_neg (by simp [isMark])]
  dsimp only [Option.bind_some]
  rw [if_neg (by decide), pure_bind, Entry.declaration, outcome_bind, outcome_take h,
    if_pos (by simp [isMark])]
  simp [outcome_pure]

theorem outcome_round_semicolon (h : ground.cells[i]? = some ⟨some (.mark .semicolon), offset⟩)
    (here : Entry) (record : List Event) :
    ((Loop.statements false).round () here).outcome ground ⟨i, record⟩ =
      some (.ok (.inr .empty), ⟨i + 1, record ++ [.enters here ⟨.statement, i⟩,
        .enters ⟨.statement, i⟩ ⟨.decorators, i⟩, .stands (i + 1)]⟩) := by
  change (statementRound false here).outcome ground ⟨i, record⟩ = _
  rw [statementRound, outcome_bind, outcome_current h]
  dsimp only [Option.bind_some]
  rw [if_neg (by simp), Bool.and_false, if_neg Bool.false_ne_true, outcome_bind,
    outcome_statement_semicolon h]
  rfl

theorem outcome_statements_semicolon
    (h : ground.cells[i]? = some ⟨some (.mark .semicolon), offset⟩) (caller : Entry)
    (record : List Event) :
    (caller.statements false).outcome ground ⟨i, record⟩ =
      ((Entry.statements ⟨.statements, i⟩ false).outcome ground
        ⟨i + 1, record ++ [.enters caller ⟨.statements, i⟩,
          .enters ⟨.statements, i⟩ ⟨.statement, i⟩, .enters ⟨.statement, i⟩ ⟨.decorators, i⟩,
          .stands (i + 1)]⟩).map fun run => (run.1.map (.cons .empty), run.2) := by
  change ((Loop.statements false).walk () caller).outcome ground ⟨i, record⟩ = _
  rw [Loop.walk_eq, outcome_bind, outcome_enter]
  dsimp only [Option.bind_some]
  rw [outcome_bind, outcome_round_semicolon h, List.append_assoc]
  dsimp only [Option.bind_some, Sum.elim_inr]
  rw [map_eq_pure_bind, outcome_bind]
  dsimp only [List.cons_append, List.nil_append]
  change ((Entry.statements ⟨.statements, i⟩ false).outcome ground _).bind _ = _
  rcases (Entry.statements ⟨.statements, i⟩ false).outcome ground _ with _ | ⟨_ | ss, s⟩ <;> rfl

theorem outcome_statements_end (h : ground.cells[i]? = some ⟨none, offset⟩) (caller : Entry)
    (record : List Event) :
    (caller.statements false).outcome ground ⟨i, record⟩ =
      some (.ok [], ⟨i, record ++ [.enters caller ⟨.statements, i⟩]⟩) := by
  rw [Entry.statements, outcome_bind, outcome_enter]
  dsimp only [Option.bind_some]
  rw [outcome_bind, outcome_current h]
  rfl

end Walk

/-- Two empty statements: each of them and each round is on record, and takes a token. -/
theorem Tokens.walk_advances_empty :
    let text := ";;".toList
    let tokens : Tokens := ⟨[⟨.mark .semicolon, 0⟩, ⟨.mark .semicolon, 1⟩], 2⟩
    let p : Program := ⟨[.empty, .empty]⟩
    (∃ final, tokens.walk text = some (.ok p, final) ∧
        final.record = [.stands 0, .enters ⟨.program, 0⟩ ⟨.statements, 0⟩,
          .enters ⟨.statements, 0⟩ ⟨.statement, 0⟩, .enters ⟨.statement, 0⟩ ⟨.decorators, 0⟩,
          .stands 1, .enters ⟨.statements, 0⟩ ⟨.statements, 1⟩,
          .enters ⟨.statements, 1⟩ ⟨.statement, 1⟩, .enters ⟨.statement, 1⟩ ⟨.decorators, 1⟩,
          .stands 2, .enters ⟨.statements, 1⟩ ⟨.statements, 2⟩] ∧
        final.index = 2 ∧ p.statementCount ≤ 2) ∧
      (∃ j, (Walk.Entry.statement ⟨.statements, 1⟩).outcome ⟨text, tokens.cells⟩ ⟨1, []⟩ =
          some (.ok .empty, ⟨j, [.enters ⟨.statements, 1⟩ ⟨.statement, 1⟩,
            .enters ⟨.statement, 1⟩ ⟨.decorators, 1⟩, .stands 2]⟩) ∧ 1 < j) ∧
        ∃ s, ((Walk.Loop.statements false).round () ⟨.statements, 1⟩).outcome
          ⟨text, tokens.cells⟩ ⟨1, []⟩ = some (.ok (.inr .empty), s) ∧ 1 < s.index := by
  intro text tokens p
  let ground : Walk.Ground := ⟨text, tokens.cells⟩
  have hfirst : ground.cells[0]? = some ⟨some (.mark .semicolon), 0⟩ := rfl
  have hsecond : ground.cells[1]? = some ⟨some (.mark .semicolon), 1⟩ := rfl
  have hstop : ground.cells[2]? = some ⟨none, 2⟩ := rfl
  obtain ⟨hrules, hloops, hwalk, final, hw, -, -, hend⟩ := Tokens.walk_advances text tokens
  refine ⟨?_, ?_, ?_⟩
  · have hrun := hw
    rw [hwalk, Walk.State.start, Walk.outcome_statements_semicolon hfirst,
      Walk.outcome_statements_semicolon hsecond, Walk.outcome_statements_end hstop] at hrun
    obtain ⟨hresult, rfl⟩ := Prod.ext_iff.1 (Option.some.inj hrun)
    have hp : Program.ofTokens text tokens = .ok p := by
      cases hread : Program.ofTokens text tokens <;> rw [hread] at hresult <;> cases hresult
      rfl
    obtain ⟨hindex, hcount⟩ := hend p hp
    rw [hp] at hw
    exact ⟨_, hw, rfl, hindex, hcount⟩
  · obtain ⟨ending, j, events, hrun, -, -, hon, -⟩ :=
      hrules .statement Statement Walk.Entry.statement 1 (by decide) (.statement (by decide))
    have hempty := Walk.outcome_statement_semicolon hsecond ⟨.statements, 1⟩ []
    obtain ⟨hending, hstate⟩ := Prod.ext_iff.1 (Option.some.inj ((hrun _ _).symm.trans hempty))
    obtain rfl : j = 2 := congrArg Walk.State.index hstate
    exact ⟨2, hempty, hon rfl _ hending⟩
  · obtain ⟨ending, s, hrun, -, -, hon⟩ :=
      hloops _ _ _ _ _ (.statements false) () 1 [] (by decide)
    have hempty := Walk.outcome_round_semicolon hsecond ⟨.statements, 1⟩ []
    obtain ⟨hending, rfl⟩ := Prod.ext_iff.1 (Option.some.inj (hrun.symm.trans hempty))
    exact ⟨_, hempty, hon _ hending⟩

end SchemaContract
