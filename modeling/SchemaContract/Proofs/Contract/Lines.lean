import Mathlib
import SchemaContract.Proofs.Contract.Outcome
import SchemaContract.Proofs.Contract.Readable
import SchemaContract.Proofs.Grammar.ShapeProgram

/-!
Lines of contracts. The layout has one line for each member and each clause. The text has one more
for each line break in a key or in a clause: these are written as they are. Nothing else that is
taken from a source holds a line break, since names are identifiers.
-/
namespace SchemaContract

def lineBreaks (text : String) : Nat := text.toList.count '\n'

/-- The lines of a text, which its line breaks part. -/
def lineCount (text : String) : Nat := lineBreaks text + 1

def lineBreaksIn : List String → Nat
  | [] => 0
  | text :: texts => lineBreaks text + lineBreaksIn texts

@[simp] theorem lineBreaks_append (a b : String) :
    lineBreaks (a ++ b) = lineBreaks a + lineBreaks b := by
  unfold lineBreaks
  rw [String.toList_append, List.count_append]

@[simp] theorem lineBreaksIn_nil : lineBreaksIn [] = 0 := rfl

@[simp] theorem lineBreaksIn_cons (text : String) (texts : List String) :
    lineBreaksIn (text :: texts) = lineBreaks text + lineBreaksIn texts := rfl

@[simp] theorem lineBreaksIn_append (as bs : List String) :
    lineBreaksIn (as ++ bs) = lineBreaksIn as + lineBreaksIn bs := by
  induction as with
  | nil => simp
  | cons text as ih => simp [ih, Nat.add_assoc]

theorem lineBreaksIn_map {f : String → String}
    (hf : ∀ text, lineBreaks (f text) = lineBreaks text) (texts : List String) :
    lineBreaksIn (texts.map f) = lineBreaksIn texts := by
  induction texts with
  | nil => rfl
  | cons text texts ih => rw [List.map_cons, lineBreaksIn_cons, lineBreaksIn_cons, hf, ih]

theorem lineBreaks_intercalate (separator : String) (texts : List String) :
    lineBreaks (separator.intercalate texts) =
      lineBreaksIn texts + (texts.length - 1) * lineBreaks separator := by
  match texts with
  | [] => simp [lineBreaks]
  | [text] => simp
  | text :: text' :: texts =>
    have hmore := lineBreaks_intercalate separator (text' :: texts)
    have hsplit : separator.intercalate (text :: text' :: texts) =
        text ++ separator ++ separator.intercalate (text' :: texts) := by
      rw [← String.toList_inj, String.toList_intercalate]
      simp [List.intercalate_cons_cons, String.toList_intercalate]
    have hlength : (text :: text' :: texts).length - 1 = texts.length + 1 := rfl
    have hlength' : (text' :: texts).length - 1 = texts.length := rfl
    rw [hsplit, lineBreaks_append, lineBreaks_append, hmore, lineBreaksIn_cons text, hlength,
      hlength', Nat.succ_mul]
    omega

theorem lineCount_joinLines {lines : List String} (h : lines ≠ []) :
    lineCount (joinLines lines) = lines.length + lineBreaksIn lines := by
  have hbreak : lineBreaks "\n" = 1 := by decide
  have hpos := List.length_pos_iff.2 h
  unfold lineCount joinLines
  rw [lineBreaks_intercalate, hbreak]
  omega

theorem lineBreaks_indented (line : String) : lineBreaks (indented line) = lineBreaks line := by
  have hmargin : lineBreaks "    " = 0 := by decide
  unfold indented
  rw [lineBreaks_append, hmargin, Nat.zero_add]

theorem commaLines_counts (lines : List String) :
    (commaLines lines).length = lines.length ∧
      lineBreaksIn (commaLines lines) = lineBreaksIn lines := by
  have hcomma : lineBreaks "," = 0 := by decide
  fun_induction commaLines lines with
  | case1 => exact ⟨rfl, rfl⟩
  | case2 line => exact ⟨rfl, rfl⟩
  | case3 line lines _ ih => simp [ih, hcomma]

/-- The lines that cases are laid out on. -/
theorem CaseBlock.lineCount_text {b : CaseBlock} (h : lineBreaks b.name = 0) :
    lineCount b.text = 2 + b.cases.length + lineBreaksIn b.cases := by
  obtain ⟨hlength, hbreaks⟩ := commaLines_counts (b.cases.map indented)
  have hhead : lineBreaks ("enum " ++ b.name ++ " \x7b") = 0 := by simp [h]; decide
  have hend : lineBreaks "\x7d" = 0 := by decide
  unfold CaseBlock.text CaseBlock.lines
  rw [lineCount_joinLines (by simp)]
  simp only [List.length_append, List.length_cons, List.length_nil, lineBreaksIn_append,
    lineBreaksIn_cons, lineBreaksIn_nil, hlength, hbreaks, hhead, hend, List.length_map,
    lineBreaksIn_map lineBreaks_indented]
  omega

/-- The lines that entries and clauses are laid out on. -/
def Entity.layoutLines (entries clauses : Nat) : Nat :=
  if clauses = 0 then 2 + entries
  else 2 + entries + clauses + if entries = 0 then 0 else 1

theorem Entity.lineCount_text {e : Entity} (h : lineBreaks e.name = 0) :
    lineCount e.text = layoutLines e.entries.length e.invariants.length +
      lineBreaksIn (e.entries ++ e.invariants) := by
  have hhead : lineBreaks ("entity " ++ e.name ++ " \x7b") = 0 := by simp [h]; decide
  have hend : lineBreaks "\x7d" = 0 := by decide
  have hblank : lineBreaks "" = 0 := rfl
  have hclause (clause : String) :
      lineBreaks (indented ("invariant " ++ clause)) = lineBreaks clause := by
    have hword : lineBreaks "invariant " = 0 := by decide
    rw [lineBreaks_indented, lineBreaks_append, hword, Nat.zero_add]
  unfold Entity.text Entity.lines layoutLines
  rw [lineCount_joinLines (by simp)]
  simp only [List.length_append, List.length_cons, List.length_nil, lineBreaksIn_append,
    lineBreaksIn_cons, lineBreaksIn_nil, hhead, hend, List.length_map,
    lineBreaksIn_map lineBreaks_indented, lineBreaksIn_map hclause]
  cases e.entries <;> cases e.invariants <;> simp [hblank] <;> omega

/-- The lines that an operation is laid out on. -/
def Entrypoint.layoutLines (preconditions postconditions : Nat) : Nat :=
  if preconditions + postconditions = 0 then 3 else 1 + preconditions + postconditions + 3

theorem Entrypoint.lineBreaks_head {e : Entrypoint} (hn : lineBreaks e.name = 0)
    (hr : lineBreaks e.result = 0) : lineBreaks e.head = lineBreaksIn e.parameters := by
  have hseparator : lineBreaks ", " = 0 := by decide
  have hword : lineBreaks "entrypoint function " = 0 := by decide
  have hopen : lineBreaks "(" = 0 := by decide
  have hclose : lineBreaks "): " = 0 := by decide
  unfold head
  simp only [lineBreaks_append, lineBreaks_intercalate, hseparator, hword, hopen, hclose, hn, hr,
    Nat.mul_zero, Nat.zero_add, Nat.add_zero]

theorem Entrypoint.lineBreaks_body {e : Entrypoint} (hn : lineBreaks e.name = 0)
    (hr : lineBreaks e.result = 0) : lineBreaks e.body = 0 := by
  have hword : lineBreaks "return s_reshavoc<" = 0 := by decide
  have hname : lineBreaks ">(\"" = 0 := by decide
  have hclose : lineBreaks "\");" = 0 := by decide
  unfold body
  simp only [lineBreaks_indented, lineBreaks_append, hword, hname, hclose, hn, hr]

theorem Entrypoint.clauseLines_counts (e : Entrypoint) :
    e.clauseLines.length = e.preconditions.length + e.postconditions.length ∧
      lineBreaksIn e.clauseLines = lineBreaksIn (e.preconditions ++ e.postconditions) := by
  have hrequires : lineBreaks "requires " = 0 := by decide
  have hensures : lineBreaks "ensures " = 0 := by decide
  have hpre (clause : String) :
      lineBreaks (indented ("requires " ++ clause)) = lineBreaks clause := by
    rw [lineBreaks_indented, lineBreaks_append, hrequires, Nat.zero_add]
  have hpost (clause : String) :
      lineBreaks (indented ("ensures " ++ clause)) = lineBreaks clause := by
    rw [lineBreaks_indented, lineBreaks_append, hensures, Nat.zero_add]
  constructor
  · simp only [clauseLines, List.length_append, List.length_map]
  · simp only [clauseLines, lineBreaksIn_append, lineBreaksIn_map hpre, lineBreaksIn_map hpost]

theorem Entrypoint.lineCount_text {e : Entrypoint} (hn : lineBreaks e.name = 0)
    (hr : lineBreaks e.result = 0) :
    lineCount e.text = layoutLines e.preconditions.length e.postconditions.length +
      lineBreaksIn (e.parameters ++ (e.preconditions ++ e.postconditions)) := by
  obtain ⟨hclauses, hbreaks⟩ := e.clauseLines_counts
  have hopen : lineBreaks " \x7b" = 0 := by decide
  have hopenAlone : lineBreaks "\x7b" = 0 := by decide
  have hend : lineBreaks "\x7d" = 0 := by decide
  have hhead := lineBreaks_head hn hr
  have hbody := lineBreaks_body hn hr
  unfold Entrypoint.text Entrypoint.lines layoutLines
  rw [lineCount_joinLines (by simp)]
  -- without clauses the body opens on the first line, else on a line of its own
  by_cases hnone : e.clauseLines = []
  · have hzero : e.preconditions.length + e.postconditions.length = 0 := by
      rw [← hclauses, hnone, List.length_nil]
    rw [hnone, lineBreaksIn_nil] at hbreaks
    simp only [if_pos hnone, if_pos hzero, List.length_append, List.length_cons, List.length_nil,
      lineBreaksIn_append, lineBreaksIn_cons, lineBreaksIn_nil, lineBreaks_append, hhead, hopen,
      hbody, hend] at hbreaks ⊢
    omega
  · have hpos := List.length_pos_iff.2 hnone
    have hsome : e.preconditions.length + e.postconditions.length ≠ 0 := by omega
    simp only [if_neg hnone, if_neg hsome, List.length_append, List.length_cons, List.length_nil,
      lineBreaksIn_append, lineBreaksIn_cons, lineBreaksIn_nil, hhead, hopenAlone, hbody, hend,
      hclauses] at hbreaks ⊢
    omega

theorem lineBreaks_of_isIdentifier {name : String} (h : isIdentifier name = true) :
    lineBreaks name = 0 := by
  unfold isIdentifier at h
  unfold lineBreaks
  rw [List.count_eq_zero]
  split at h
  · next hname => simp [hname]
  · next c cs hname =>
    have hrest : isNameRest '\n' = false := by decide
    have hstart : isNameStart '\n' = false := by decide
    simp only [Bool.and_eq_true, List.all_eq_true] at h
    rw [hname, List.mem_cons]
    rintro (rfl | hmem)
    · rw [hstart] at h
      simp at h
    · have := h.1.1.2 _ hmem
      rw [hrest] at this
      cases this

theorem Primitive.lineBreaks_typeName {name : String} (h : lineBreaks name = 0) :
    lineBreaks (typeName name) = 0 := by
  unfold typeName target?
  cases hl : table.lookup name with
  | none => exact h
  | some type =>
    obtain ⟨l₁, l₂, htable, -⟩ := List.lookup_eq_some_iff.1 hl
    have hmem : (name, type) ∈ table := htable ▸ List.mem_append_right _ List.mem_cons_self
    have hall : ∀ entry ∈ table, lineBreaks entry.2 = 0 := by decide
    exact hall _ hmem

theorem lineBreaks_placeholder (kind : String) :
    lineBreaks (placeholder kind) = lineBreaks kind := by
  have hopen : lineBreaks "[" = 0 := by decide
  have hclose : lineBreaks "]" = 0 := by decide
  unfold placeholder
  rw [lineBreaks_append, lineBreaks_append, hopen, hclose, Nat.zero_add, Nat.add_zero]

theorem Expression.lineBreaks_kindName (e : Expression) : lineBreaks e.kindName = 0 := by
  cases e <;> simp only [kindName] <;> decide

theorem Expression.count_lettersBetween {separator : String} {es : List Expression}
    (hs : lineBreaks separator = 0) (hes : lineBreaksIn (plainTypes es) = 0) :
    (lettersBetween separator es).count '\n' = 0 := by
  have h := lineBreaks_intercalate separator (plainTypes es)
  rw [hs, hes, lineBreaks, toList_intercalate_plainTypes] at h
  exact h

mutual

theorem Expression.lineBreaks_plainType : (e : Expression) → e.WellFormed →
    lineBreaks e.plainType = 0
  | .array element, h => by
    rw [WellFormed] at h
    have helement : element.letters.count '\n' = 0 := lineBreaks_plainType element h
    change (Expression.array element).letters.count '\n' = 0
    rw [letters_array, List.count_append, List.count_append, helement]
    decide
  | .tuple elements, h => by
    rw [WellFormed] at h
    have hcomma : lineBreaks ", " = 0 := by decide
    have hbetween := count_lettersBetween hcomma (lineBreaks_plainTypes elements h)
    change (Expression.tuple elements).letters.count '\n' = 0
    rw [letters_tuple, List.count_cons, List.count_append, hbetween]
    decide
  | .union options, h => by
    rw [WellFormed] at h
    change (Expression.union options).letters.count '\n' = 0
    rw [letters_union]
    exact count_lettersBetween (by decide) (lineBreaks_plainTypes options h.2)
  | .intersection options, h => by
    rw [WellFormed] at h
    change (Expression.intersection options).letters.count '\n' = 0
    rw [letters_intersection]
    exact count_lettersBetween (by decide) (lineBreaks_plainTypes options h.2)
  | .reference name, h => by
    rw [WellFormed] at h
    change (Expression.reference name).letters.count '\n' = 0
    rw [letters_reference]
    exact Primitive.lineBreaks_typeName (lineBreaks_of_isIdentifier h.1)
  | .identifier name, h => by
    rw [WellFormed] at h
    exact h.elim
  | .unknown, _ => by
    unfold plainType
    rw [typeText]
    rfl
  | .model _, _ | .member .., _ | .text _, _ | .number _, _ | .boolean _, _ | .void, _
  | .never, _ => by
    unfold plainType
    rw [typeText]
    exact (lineBreaks_placeholder _).trans (lineBreaks_kindName _)

theorem Expression.lineBreaks_plainTypes : (es : List Expression) → AllWellFormed es →
    lineBreaksIn (plainTypes es) = 0
  | [], _ => rfl
  | e :: es, h => by
    rw [AllWellFormed] at h
    rw [plainTypes_eq_map, List.map_cons, ← plainTypes_eq_map, lineBreaksIn_cons,
      lineBreaks_plainType e h.1, lineBreaks_plainTypes es h.2]

end

/-- The key of a member that is written. -/
def Member.key? : Member → Option String
  | .property p => some p.key.text
  | .spread _ => none

def Member.keys (members : List Member) : List String := members.filterMap Member.key?

/-- Entries break lines where their keys do. -/
theorem Member.lineBreaksIn_entries {write : String → String → String}
    (hw : ∀ key type, lineBreaks (write key type) = lineBreaks key + lineBreaks type)
    {members : List Member} (h : Member.AllWellFormed members) :
    lineBreaksIn (members.map (Member.entry write)) = lineBreaksIn (Member.keys members) := by
  induction members with
  | nil => rfl
  | cons m members ih =>
    rw [Member.AllWellFormed] at h
    cases m with
    | property p =>
      obtain ⟨key, type, optional, default?, decorators⟩ := p
      have hp := h.1
      rw [Member.WellFormed, Property.WellFormed] at hp
      have htype := type.lineBreaks_plainType hp.2.1
      simp only [keys, List.map_cons, entry, lineBreaksIn_cons, hw, htype, Nat.add_zero, ih h.2,
        List.filterMap_cons, key?]
    | spread target =>
      have hspread : lineBreaks spreadPlaceholder = 0 := by decide
      simp only [keys, List.map_cons, entry, lineBreaksIn_cons, hspread, Nat.zero_add, ih h.2,
        List.filterMap_cons, key?]

/-- The key of a case that is written. -/
def Case.key? : Case → Option String
  | .plain key _ _ => some key.text
  | .spread _ => none

def Case.keys (cases : List Case) : List String := cases.filterMap Case.key?

theorem Case.lineBreaksIn_entries (cases : List Case) :
    lineBreaksIn (cases.map Case.entry) = lineBreaksIn (Case.keys cases) := by
  induction cases with
  | nil => rfl
  | cons c cs ih =>
    cases c with
    | plain key value? decorators =>
      simp only [keys, List.map_cons, entry, lineBreaksIn_cons, ih, List.filterMap_cons, key?]
    | spread target =>
      have hspread : lineBreaks (placeholder "EnumSpreadMemberNode") = 0 := by decide
      simp only [keys, List.map_cons, entry, lineBreaksIn_cons, hspread, Nat.zero_add, ih,
        List.filterMap_cons, key?]

theorem Model.from_draft_ok {m : Model} {text : String} {b : ClauseBuffer}
    (hm : m.target? = none) (h : (m.draft.from b).1 = .ok text) :
    text = Entity.text ⟨m.name, m.members.map (Member.entry Entity.field), m.invariants⟩ := by
  obtain ⟨-, rfl⟩ := m.comesTo_draft.of_ok h
  rw [contractText, hm]

theorem Operation.from_draft_ok {o : Operation} {text : String} {b : ClauseBuffer}
    (h : (o.draft.from b).1 = .ok text) :
    text = Entrypoint.text ⟨o.name, o.parameters.map (Member.entry Entrypoint.parameter),
      o.result.plainType, o.preconditions, o.postconditions⟩ :=
  (o.comesTo_draft.of_ok h).2.symm

theorem Enumeration.from_draft_ok {e : Enumeration} {text : String} {b : ClauseBuffer}
    (h : (e.draft.from b).1 = .ok text) :
    text = CaseBlock.text ⟨e.name, e.cases.map Case.entry⟩ :=
  (e.comesTo_draft.of_ok h).2.symm

theorem Enumeration.lineCount_draft {e : Enumeration} {text : String} {b : ClauseBuffer}
    (hw : e.WellFormed) (h : (e.draft.from b).1 = .ok text) :
    lineCount text = 2 + e.cases.length + lineBreaksIn (Case.keys e.cases) := by
  have hname : lineBreaks e.name = 0 := lineBreaks_of_isIdentifier hw.1
  have hlines := @CaseBlock.lineCount_text ⟨e.name, e.cases.map Case.entry⟩ hname
  simp only [List.length_map, Case.lineBreaksIn_entries] at hlines
  rw [Enumeration.from_draft_ok h, hlines]

theorem Model.lineCount_draft {m : Model} {text : String} {b : ClauseBuffer}
    (hw : m.WellFormed) (hm : m.target? = none) (h : (m.draft.from b).1 = .ok text) :
    lineCount text = Entity.layoutLines m.members.length m.invariants.length +
      lineBreaksIn (Member.keys m.members ++ m.invariants) := by
  have hname : lineBreaks m.name = 0 := lineBreaks_of_isIdentifier hw.1
  have hfield (key type : String) :
      lineBreaks (Entity.field key type) = lineBreaks key + lineBreaks type := by
    have hword : lineBreaks "field " = 0 := by decide
    have hcolon : lineBreaks ": " = 0 := by decide
    have hend : lineBreaks ";" = 0 := by decide
    unfold Entity.field
    simp only [lineBreaks_append, hword, hcolon, hend, Nat.zero_add, Nat.add_zero]
  have hlines := @Entity.lineCount_text
    ⟨m.name, m.members.map (Member.entry Entity.field), m.invariants⟩ hname
  simp only [List.length_map, lineBreaksIn_append,
    Member.lineBreaksIn_entries hfield hw.2.2.2] at hlines
  rw [Model.from_draft_ok hm h, hlines, lineBreaksIn_append]

theorem Operation.lineCount_draft {o : Operation} {text : String} {b : ClauseBuffer}
    (hw : o.WellFormed) (h : (o.draft.from b).1 = .ok text) :
    lineCount text = Entrypoint.layoutLines o.preconditions.length o.postconditions.length +
      lineBreaksIn (Member.keys o.parameters ++ (o.preconditions ++ o.postconditions)) := by
  have hname : lineBreaks o.name = 0 := lineBreaks_of_isIdentifier hw.1
  have hresult := o.result.lineBreaks_plainType hw.2.2.2
  have hparameter (key type : String) :
      lineBreaks (Entrypoint.parameter key type) = lineBreaks key + lineBreaks type := by
    have hcolon : lineBreaks ": " = 0 := by decide
    unfold Entrypoint.parameter
    rw [lineBreaks_append, lineBreaks_append, hcolon, Nat.add_zero]
  have hlines := @Entrypoint.lineCount_text ⟨o.name,
    o.parameters.map (Member.entry Entrypoint.parameter), o.result.plainType, o.preconditions,
    o.postconditions⟩ hname hresult
  simp only [lineBreaksIn_append, Member.lineBreaksIn_entries hparameter hw.2.2.1] at hlines
  rw [Operation.from_draft_ok h, hlines, lineBreaksIn_append, lineBreaksIn_append]

/-- One of some statements, or of those in a namespace among them. -/
inductive Statement.Among : List Statement → Statement → Prop where
  | here {ss : List Statement} {s : Statement} : s ∈ ss → Among ss s
  | inside {ss inner : List Statement} {n : String} {ds : List Decorator} {s : Statement} :
      .scope n ds inner ∈ ss → Among inner s → Among ss s

theorem Statement.allWellFormed_iff {ss : List Statement} :
    Statement.AllWellFormed ss ↔ ∀ s ∈ ss, s.WellFormed := by
  induction ss with
  | nil => exact iff_of_true trivial nofun
  | cons s ss ih => exact (and_congr_right' ih).trans List.forall_mem_cons.symm

theorem Statement.Among.wellFormed {ss : List Statement} {s : Statement} (h : Among ss s)
    (hss : Statement.AllWellFormed ss) : s.WellFormed := by
  induction h with
  | here hs => exact Statement.allWellFormed_iff.1 hss _ hs
  | @inside ss inner n ds s hscope _ ih =>
    have hw : (Statement.scope n ds inner).WellFormed :=
      Statement.allWellFormed_iff.1 hss _ hscope
    exact ih hw.2.2

/-- An operation of a program, alone or in an interface. -/
def Program.HoldsOperation (p : Program) (o : Operation) : Prop :=
  Statement.Among p.statements (.operation o) ∨
    ∃ i, Statement.Among p.statements (.interface i) ∧ o ∈ i.operations

/-- The text of a declaration that a source holds has the lines of its layout, and one more for each
line break in the keys and clauses that are written. -/
theorem Program.lineCount_of_ofSource {source : String} {p : Program}
    (h : Program.ofSource source = .ok p) (b : ClauseBuffer) :
    (∀ e text, Statement.Among p.statements (.enumeration e) → (e.draft.from b).1 = .ok text →
      lineCount text = 2 + e.cases.length + lineBreaksIn (Case.keys e.cases)) ∧
    (∀ m text, Statement.Among p.statements (.model m) → m.target? = none →
      (m.draft.from b).1 = .ok text →
      lineCount text = Entity.layoutLines m.members.length m.invariants.length +
        lineBreaksIn (Member.keys m.members ++ m.invariants)) ∧
    ∀ o text, p.HoldsOperation o → (o.draft.from b).1 = .ok text →
      lineCount text = Entrypoint.layoutLines o.preconditions.length o.postconditions.length +
        lineBreaksIn (Member.keys o.parameters ++ (o.preconditions ++ o.postconditions)) := by
  have hp : Statement.AllWellFormed p.statements := Program.wellFormed_of_ofSource h
  refine ⟨fun e text he ht => ?_, fun m text hm htarget ht => ?_, fun o text ho ht => ?_⟩
  · have hw : e.WellFormed := he.wellFormed hp
    exact Enumeration.lineCount_draft hw ht
  · have hw : m.WellFormed := hm.wellFormed hp
    exact Model.lineCount_draft hw htarget ht
  · obtain ho | ⟨i, hi, ho⟩ := ho
    · have hw : o.WellFormed := ho.wellFormed hp
      exact Operation.lineCount_draft hw ht
    · have hw : i.WellFormed := hi.wellFormed hp
      exact Operation.lineCount_draft (hw.2.2 o ho) ht

/-- The case of `enum E { "A\nB" }` breaks a line. -/
theorem Program.lineCount_of_ofSource_quoted :
    Program.ofSource "enum E \x7b \"A\\nB\" \x7d" =
        .ok ⟨[.enumeration ⟨"E", [], [.plain (.quoted "A\nB") none []]⟩]⟩ ∧
      lineCount "enum E \x7b\n    A\nB\n\x7d" = 2 + 1 + lineBreaksIn ["A\nB"] := by
  have h : Program.ofSource "enum E \x7b \"A\\nB\" \x7d" =
      .ok ⟨[.enumeration ⟨"E", [], [.plain (.quoted "A\nB") none []]⟩]⟩ := by cbv
  have ht : ((Enumeration.draft ⟨"E", [], [.plain (.quoted "A\nB") none []]⟩).from .empty).1 =
      .ok "enum E \x7b\n    A\nB\n\x7d" := by rfl
  exact ⟨h, (Program.lineCount_of_ofSource h .empty).1 _ _ (.here List.mem_cons_self) ht⟩

/-- So the layout does not determine the lines of the text. -/
theorem Program.lineCount_not_always_layout :
    ¬ ∀ (source : String) (p : Program) (e : Enumeration) (text : String) (b : ClauseBuffer),
      Program.ofSource source = .ok p → Statement.Among p.statements (.enumeration e) →
      (e.draft.from b).1 = .ok text → lineCount text = 2 + e.cases.length := by
  intro hall
  have h : Program.ofSource "enum E \x7b \"A\\nB\" \x7d" =
      .ok ⟨[.enumeration ⟨"E", [], [.plain (.quoted "A\nB") none []]⟩]⟩ := by cbv
  have ht : ((Enumeration.draft ⟨"E", [], [.plain (.quoted "A\nB") none []]⟩).from .empty).1 =
      .ok "enum E \x7b\n    A\nB\n\x7d" := by rfl
  have hlines := hall _ _ _ _ _ h (.here List.mem_cons_self) ht
  exact absurd hlines (by decide)

end SchemaContract
