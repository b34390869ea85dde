import Mathlib
import SchemaContract.Proofs.Grammar.ShapeProgram

/-!
References with their members, as they stand in a source. The path of one, at whatever depth of a
program that is read, is spelled by tokens that are names between dots.
-/
namespace SchemaContract

mutual

def Expression.subexpressions : Expression → List Expression
  | .array element => .array element :: element.subexpressions
  | .tuple elements => .tuple elements :: Expression.subexpressionsOfAll elements
  | .union options => .union options :: Expression.subexpressionsOfAll options
  | .intersection options => .intersection options :: Expression.subexpressionsOfAll options
  | .reference name => [.reference name]
  | .identifier name => [.identifier name]
  | .model members => .model members :: Member.subexpressionsOfAll members
  | .member base name => .member base name :: base.subexpressions
  | .text value => [.text value]
  | .number value => [.number value]
  | .boolean value => [.boolean value]
  | .void => [.void]
  | .never => [.never]
  | .unknown => [.unknown]

def Expression.subexpressionsOfAll : List Expression → List Expression
  | [] => []
  | e :: es => e.subexpressions ++ Expression.subexpressionsOfAll es

def Member.subexpressions : Member → List Expression
  | .property p => p.subexpressions
  | .spread target => target.subexpressions

def Member.subexpressionsOfAll : List Member → List Expression
  | [] => []
  | m :: ms => m.subexpressions ++ Member.subexpressionsOfAll ms

def Property.subexpressions : Property → List Expression
  | ⟨_, type, _, default?, decorators⟩ =>
    type.subexpressions ++ (Expression.subexpressionsOfOption default? ++
      Decorator.subexpressionsOfAll decorators)

def Expression.subexpressionsOfOption : Option Expression → List Expression
  | none => []
  | some e => e.subexpressions

def Decorator.subexpressions : Decorator → List Expression
  | ⟨_, arguments⟩ => Expression.subexpressionsOfAll arguments

def Decorator.subexpressionsOfAll : List Decorator → List Expression
  | [] => []
  | d :: ds => d.subexpressions ++ Decorator.subexpressionsOfAll ds

end

def Case.subexpressions : Case → List Expression
  | .plain _ value? decorators =>
    Expression.subexpressionsOfOption value? ++ Decorator.subexpressionsOfAll decorators
  | .spread target => target.subexpressions

def Model.subexpressions (m : Model) : List Expression :=
  Decorator.subexpressionsOfAll m.decorators ++
    (Expression.subexpressionsOfOption m.target? ++ Member.subexpressionsOfAll m.members)

def Operation.subexpressions (o : Operation) : List Expression :=
  Decorator.subexpressionsOfAll o.decorators ++
    (Member.subexpressionsOfAll o.parameters ++ o.result.subexpressions)

mutual

def Statement.subexpressions : Statement → List Expression
  | .model m => m.subexpressions
  | .enumeration e =>
    Decorator.subexpressionsOfAll e.decorators ++ e.cases.flatMap Case.subexpressions
  | .interface i =>
    Decorator.subexpressionsOfAll i.decorators ++ i.operations.flatMap Operation.subexpressions
  | .operation o => o.subexpressions
  | .scope _ decorators statements =>
    Decorator.subexpressionsOfAll decorators ++ Statement.subexpressionsOfAll statements
  | .union _ decorators variants =>
    Decorator.subexpressionsOfAll decorators ++ variants.flatMap fun v => v.type.subexpressions
  | .typeAlias _ type => type.subexpressions
  | .importPath _ | .usingName _ | .projection | .empty | .invalid => []

def Statement.subexpressionsOfAll : List Statement → List Expression
  | [] => []
  | s :: ss => s.subexpressions ++ Statement.subexpressionsOfAll ss

end

def Program.subexpressions (p : Program) : List Expression :=
  Statement.subexpressionsOfAll p.statements

def Expression.isPath : Expression → Bool
  | .reference _ | .member .. => true
  | _ => false

/-- The names of a reference and of the members behind it. -/
def Expression.names : Expression → List String
  | .reference name => [name]
  | .member base name => base.names ++ [name]
  | _ => []

/-- A reference with its members, and where it stands: at its first token and for so many. -/
structure Mention where
  path : Expression
  start : Nat
  count : Nat

namespace Mention

def tokens (m : Mention) (ts : List Token) : List Token :=
  (ts.drop m.start).take m.count

theorem tokens_infix (m : Mention) (ts : List Token) : m.tokens ts <:+: ts :=
  (List.take_prefix _ _).isInfix.trans (List.drop_suffix _ _).isInfix

/-- One ends before the other begins, or one is the beginning of the other. -/
def Apart (m n : Mention) : Prop :=
  m.start + m.count ≤ n.start ∨ n.start + n.count ≤ m.start ∨
    m.start = n.start ∧ m.count ≠ n.count

def shift (distance : Nat) (m : Mention) : Mention :=
  { m with start := distance + m.start }

theorem tokens_shift (m : Mention) (ts us : List Token) :
    (m.shift ts.length).tokens (ts ++ us) = m.tokens us := by
  unfold tokens shift
  rw [List.drop_append, List.drop_eq_nil_of_le (Nat.le_add_right _ _), List.nil_append,
    Nat.add_sub_cancel_left]

theorem tokens_append (m : Mention) {ts : List Token} (h : m.start + m.count ≤ ts.length)
    (us : List Token) : m.tokens (ts ++ us) = m.tokens ts := by
  unfold tokens
  rw [List.drop_append_of_le_length (by omega),
    List.take_append_of_le_length (by rw [List.length_drop]; omega)]

end Mention

namespace Grammar

open Expression (subexpressionsOfAll subexpressionsOfOption)

variable {ts us rest : List Token} {es es' : List Expression}

/-- Each path among the expressions has a place of its own among the tokens and is written there. -/
def PathsIn (es : List Expression) (ts : List Token) : Prop :=
  ∃ ms : List Mention, (ms.map Mention.path).Perm (es.filter Expression.isPath) ∧
    ms.Pairwise Mention.Apart ∧
      ∀ m ∈ ms, m.start + m.count ≤ ts.length ∧ WrittenPath m.path (m.tokens ts)

namespace PathsIn

theorem nil : PathsIn [] ts :=
  ⟨[], .refl _, .nil, fun m hm => by cases hm⟩

theorem perm (h : PathsIn es ts) (hes : es.Perm es') : PathsIn es' ts := by
  obtain ⟨ms, hpaths, hms⟩ := h
  exact ⟨ms, hpaths.trans (hes.filter _), hms⟩

/-- Places among the first tokens are apart from those among the others. -/
theorem append (h : PathsIn es ts) (h' : PathsIn es' us) : PathsIn (es ++ es') (ts ++ us) := by
  obtain ⟨ms, hpaths, hapart, hms⟩ := h
  obtain ⟨ms', hpaths', hapart', hms'⟩ := h'
  refine ⟨ms ++ ms'.map (Mention.shift ts.length), ?_, ?_, ?_⟩
  · rw [List.map_append, List.map_map, List.filter_append]
    exact hpaths.append hpaths'
  · refine List.pairwise_append.2 ⟨hapart, ?_, ?_⟩
    · rw [List.pairwise_map]
      refine hapart'.imp fun {m n} hmn => ?_
      simp only [Mention.Apart, Mention.shift] at hmn ⊢
      omega
    · intro m hm n hn
      obtain ⟨n, -, rfl⟩ := List.mem_map.1 hn
      exact .inl ((hms m hm).1.trans (Nat.le_add_right _ _))
  · intro m hm
    rcases List.mem_append.1 hm with hm | hm
    · obtain ⟨hle, hw⟩ := hms m hm
      rw [m.tokens_append hle, List.length_append]
      exact ⟨by omega, hw⟩
    · obtain ⟨m, hm', rfl⟩ := List.mem_map.1 hm
      obtain ⟨hle, hw⟩ := hms' m hm'
      rw [m.tokens_shift, List.length_append]
      exact ⟨by simp only [Mention.shift]; omega, hw⟩

/-- What stands first may be listed last. -/
theorem swap (h : PathsIn es ts) (h' : PathsIn es' us) : PathsIn (es' ++ es) (ts ++ us) :=
  (h.append h').perm List.perm_append_comm

theorem left (h : PathsIn es ts) : PathsIn es (ts ++ us) := by
  have hnil : PathsIn [] us := nil
  have happend := h.append hnil
  rwa [List.append_nil] at happend

theorem right (h : PathsIn es us) : PathsIn es (ts ++ us) := by
  have hnil : PathsIn [] ts := nil
  exact hnil.append h

theorem tail {t : Token} (h : PathsIn es ts) : PathsIn es (t :: ts) :=
  List.singleton_append ▸ h.right

/-- An expression of another kind adds no path. -/
theorem cons {e : Expression} (h : PathsIn es ts) (he : e.isPath = false) :
    PathsIn (e :: es) ts := by
  obtain ⟨ms, hpaths, hms⟩ := h
  refine ⟨ms, ?_, hms⟩
  rwa [List.filter_cons_of_neg (by simp [he])]

end PathsIn

/-- A path and the paths that it goes on from all begin with its first token. -/
theorem WrittenPath.exists_mentions {e : Expression} (h : WrittenPath e ts) :
    ∃ ms : List Mention, ms.map Mention.path = e.subexpressions ∧
      ms.Pairwise (fun m n => m.count ≠ n.count) ∧
        ∀ m ∈ ms, m.start = 0 ∧ m.count ≤ ts.length ∧ m.path.isPath = true ∧
          WrittenPath m.path (ts.take m.count) := by
  induction h with
  | @reference t n ht hn =>
    refine ⟨[⟨.reference n, 0, 1⟩], rfl, List.pairwise_singleton _ _, fun m hm => ?_⟩
    rw [List.mem_singleton.1 hm]
    exact ⟨rfl, le_rfl, rfl, .reference ht hn⟩
  | @member t u ts base n hbase ht hu ih =>
    obtain ⟨ms, hpaths, hcounts, hms⟩ := ih
    refine ⟨⟨.member base n, 0, (ts ++ [t, u]).length⟩ :: ms, ?_, ?_, fun m hm => ?_⟩
    · rw [List.map_cons, hpaths, Expression.subexpressions]
    · refine List.pairwise_cons.2 ⟨fun m hm => ?_, hcounts⟩
      have hle := (hms m hm).2.1
      simp only [List.length_append, List.length_cons]
      omega
    · rcases List.mem_cons.1 hm with rfl | hm
      · rw [List.take_length]
        exact ⟨rfl, le_rfl, rfl, .member hbase ht hu⟩
      · obtain ⟨hstart, hle, hpath, hw⟩ := hms m hm
        rw [List.take_append_of_le_length hle, List.length_append]
        exact ⟨hstart, by omega, hpath, hw⟩

theorem WrittenPath.pathsIn {e : Expression} (h : WrittenPath e ts) :
    PathsIn e.subexpressions ts := by
  obtain ⟨ms, hpaths, hcounts, hms⟩ := h.exists_mentions
  refine ⟨ms, ?_, ?_, fun m hm => ?_⟩
  · rw [List.filter_eq_self.2, hpaths]
    intro e he
    rw [← hpaths] at he
    obtain ⟨m, hm, rfl⟩ := List.mem_map.1 he
    exact (hms m hm).2.2.1
  · refine hcounts.imp_of_mem fun {m n} hm hn hne => .inr (.inr ⟨?_, hne⟩)
    rw [(hms m hm).1, (hms n hn).1]
  · obtain ⟨hstart, hle, -, hw⟩ := hms m hm
    rw [Mention.tokens, hstart, List.drop_zero, Nat.zero_add]
    exact ⟨hle, hw⟩

/-- The paths of a phrase are among its tokens. A member keeps the decorators in front of it. -/
def Phrase.PathsIn (ts : List Token) : Phrase → Prop
  | expression e | intersection e | operand e | primary e => Grammar.PathsIn e.subexpressions ts
  | unionOptions es | intersectionOptions es | listing _ es | items _ es | arguments es =>
    Grammar.PathsIn (subexpressionsOfAll es) ts
  | members _ ms => Grammar.PathsIn (Member.subexpressionsOfAll ms) ts
  | member ds m => ∀ {us : List Token},
      Grammar.PathsIn (Decorator.subexpressionsOfAll ds) us →
        Grammar.PathsIn m.subexpressions (us ++ ts)
  | default default? => Grammar.PathsIn (subexpressionsOfOption default?) ts
  | decorators ds => Grammar.PathsIn (Decorator.subexpressionsOfAll ds) ts

theorem pathsIn_unionOf {first : Expression} {others : List Expression}
    (h : PathsIn (first.subexpressions ++ subexpressionsOfAll others) ts) :
    PathsIn (unionOf first others).subexpressions ts := by
  cases others with
  | nil =>
    rw [subexpressionsOfAll, List.append_nil] at h
    exact h
  | cons e es => exact h.cons rfl

theorem pathsIn_intersectionOf {first : Expression} {others : List Expression}
    (h : PathsIn (first.subexpressions ++ subexpressionsOfAll others) ts) :
    PathsIn (intersectionOf first others).subexpressions ts := by
  cases others with
  | nil =>
    rw [subexpressionsOfAll, List.append_nil] at h
    exact h
  | cons e es => exact h.cons rfl

theorem Written.pathsIn {φ : Phrase} (h : Written φ ts) : φ.PathsIn ts := by
  induction h with
  | expression _ _ _ ih₁ ih₂ => exact (pathsIn_unionOf (ih₁.append ih₂)).right
  | noUnionOption | noIntersectionOption | noListing _ | noMembers _ | noDefault | noDecorator |
    noArguments => exact .nil
  | unionOption _ _ _ ih₁ ih₂ => exact (ih₁.append ih₂).tail
  | intersection _ _ ih₁ ih₂ => exact pathsIn_intersectionOf (ih₁.append ih₂)
  | intersectionOption _ _ _ ih₁ ih₂ => exact (ih₁.append ih₂).tail
  | operand _ ih => exact ih
  | array _ _ _ ih => exact ih.left.cons rfl
  | number _ | text _ | truth _ => exact PathsIn.nil.cons rfl
  | keyword _ hk =>
    unfold keywordType? at hk
    split at hk <;> cases hk <;> exact PathsIn.nil.cons rfl
  | path h => exact h.pathsIn
  | tuple _ _ ih => exact ih.tail.cons rfl
  | model _ _ ih => exact ih.tail.cons rfl
  | group _ _ _ ih => exact ih.left.tail
  | listing _ ih => exact ih
  | lastItem _ _ ih => exact ih.append .nil
  | item _ _ _ ih₁ ih₂ => exact ih₁.append ih₂.tail
  | @lastMember t ts us _ _ _ _ _ _ ih₁ ih₂ =>
    rw [← List.append_assoc]
    exact (ih₂ ih₁).append .nil
  | @members t ts us vs _ _ _ _ _ _ _ _ ih₁ ih₂ ih₃ =>
    rw [← List.append_assoc]
    exact (ih₂ ih₁).append ih₃.tail
  | spread _ _ ih => exact fun _ => ih.tail.right
  | property _ _ _ _ _ ih₁ ih₂ =>
    -- Decorators stand first and are listed last.
    intro us hds
    rw [Member.subexpressions, Property.subexpressions, ← List.append_assoc]
    exact hds.swap (ih₁.append ih₂).tail.right.tail
  | default _ _ ih => exact ih.tail
  | decorator _ _ _ _ ih₁ ih₂ => exact (ih₁.append ih₂).right.tail
  | arguments _ _ ih => exact ih.tail

theorem WrittenList.pathsIn {α : Type} {element : α → List Token → Prop}
    {f : α → List Expression} {as : List α} (h : WrittenList element as ts)
    (helement : ∀ a ts, element a ts → PathsIn (f a) ts) : PathsIn (as.flatMap f) ts := by
  induction h with
  | none => exact .nil
  | last ha _ =>
    rw [List.flatMap_singleton]
    exact (helement _ _ ha).left
  | more ha _ _ ih =>
    rw [List.flatMap_cons]
    exact (helement _ _ ha).append ih.tail

theorem WrittenCase.pathsIn {c : Case} (h : WrittenCase c ts) : PathsIn c.subexpressions ts := by
  cases h with
  | spread _ _ he => exact he.pathsIn.tail.right
  | plain hds _ => exact hds.pathsIn.left
  | valued hds _ _ he => exact hds.pathsIn.swap he.pathsIn.tail.tail

theorem WrittenSignature.pathsIn {o : Operation} (h : WrittenSignature o ts)
    (hds : PathsIn (Decorator.subexpressionsOfAll o.decorators) us) :
    PathsIn o.subexpressions (us ++ ts) := by
  cases h with
  | signature _ _ hps _ he => exact hds.append (hps.pathsIn.append he.pathsIn.tail).tail.tail

theorem WrittenOperation.pathsIn {o : Operation} (h : WrittenOperation o ts) :
    PathsIn o.subexpressions ts := by
  cases h with
  | short hds _ hw => exact hw.pathsIn hds.pathsIn
  | @long t ts us _ hds _ hw =>
    rw [← List.singleton_append, ← List.append_assoc]
    exact hw.pathsIn (PathsIn.left hds.pathsIn)

theorem WrittenVariant.pathsIn {v : Variant} (h : WrittenVariant v ts) :
    PathsIn v.type.subexpressions ts := by
  cases h with
  | variant _ _ _ he => exact he.pathsIn.tail.tail.right

theorem WrittenModel.pathsIn {target? : Option Expression} {ms : List Member}
    (h : WrittenModel target? ms ts) :
    PathsIn (subexpressionsOfOption target? ++ Member.subexpressionsOfAll ms) ts := by
  cases h with
  | body _ hms => exact hms.pathsIn.tail
  | target _ he _ => exact (he.pathsIn.append .nil).tail
  | both _ he _ hms => exact (he.pathsIn.append hms.pathsIn.tail).tail

theorem WrittenDeclaration.pathsIn {ds : List Decorator} {s : Statement}
    (h : WrittenDeclaration ds s ts) (hds : PathsIn (Decorator.subexpressionsOfAll ds) us) :
    PathsIn s.subexpressions (us ++ ts) := by
  cases h with
  | empty | importPath | projection | usingName => exact .nil
  | emptyScope => exact hds.append .nil
  | model _ _ hm => exact hds.append hm.pathsIn.tail.tail
  | enumeration _ _ _ hcs =>
    exact hds.append (hcs.pathsIn fun _ _ => WrittenCase.pathsIn).tail.tail.tail
  | interface _ _ _ hos =>
    exact hds.append (hos.pathsIn fun _ _ => WrittenOperation.pathsIn).tail.tail.tail
  | @operation t u ts o _ ho hw _ =>
    subst ho
    have hoperation : PathsIn o.subexpressions (us ++ [t] ++ ts) := hw.pathsIn hds.left
    rw [← List.singleton_append, ← List.append_assoc, ← List.append_assoc]
    exact hoperation.left
  | union _ _ _ hvs =>
    exact hds.append (hvs.pathsIn fun _ _ => WrittenVariant.pathsIn).tail.tail.tail
  | typeAlias _ _ _ he _ => exact he.pathsIn.left.tail.tail.tail.right

theorem statement_pathsIn_of
    (hblock : ∀ {us rest : List Token} {ss : List Statement}, us.length ≤ ts.length →
      Gives (block us) ss rest → Before (PathsIn (Statement.subexpressionsOfAll ss)) us rest)
    {t : Token} {s : Statement} (h : Gives (statement t ts) s rest) :
    Before (PathsIn s.subexpressions) (t :: ts) rest := by
  obtain ⟨ds, us, hds, hread⟩ := h.readAs
  obtain ⟨vs, hvs, hwritten⟩ := before_decorators hds
  have hlt := hds.length_lt
  rw [hvs]
  cases hread with
  | @declaration us rest s hw =>
    exact ⟨vs ++ us, (List.append_assoc ..).symm, hw.pathsIn hwritten.pathsIn⟩
  | @scope t' u ns us _ n ss _ hn _ hss =>
    simp only [List.length_cons, List.length_append] at hlt
    obtain ⟨ws, rfl, hinner⟩ := hblock (by omega) hss
    refine ⟨vs ++ t' :: (ns ++ u :: ws), by simp, ?_⟩
    exact PathsIn.append hwritten.pathsIn hinner.tail.right.tail
  | ended => exact ⟨vs, rfl, .nil⟩
  | @skipped u us =>
    obtain ⟨ws, hws⟩ := skipStatement_suffix u us
    exact ⟨vs ++ ws, by rw [List.append_assoc, hws], .nil⟩

theorem block_pathsIn {ss : List Statement} (h : Gives (block ts) ss rest) :
    Before (PathsIn (Statement.subexpressionsOfAll ss)) ts rest := by
  induction h using Gives.block_induct with
  | @close t rest ht => exact ⟨[t], rfl, .nil⟩
  | cons ht hfirst hothers inner ih =>
    obtain ⟨us, hus, hpaths⟩ := statement_pathsIn_of inner hfirst
    obtain ⟨vs, rfl, hpaths'⟩ := ih
    exact ⟨us ++ vs, by rw [hus, List.append_assoc], hpaths.append hpaths'⟩

theorem statements_pathsIn {ss : List Statement} (h : statements ts = .ok ss) :
    PathsIn (Statement.subexpressionsOfAll ss) ts := by
  induction h using statements_induct with
  | nil => exact .nil
  | cons hfirst hothers ih =>
    obtain ⟨us, hus, hpaths⟩ := statement_pathsIn_of (fun _ hss => block_pathsIn hss) hfirst
    rw [hus]
    exact hpaths.append ih

/-- Some tokens are names between dots. -/
def Dotted (names : List String) (ts : List Token) : Prop :=
  ts.map Token.kind = (names.map Token.Kind.name).intersperse (.mark .dot)

instance (names : List String) (ts : List Token) : Decidable (Dotted names ts) :=
  inferInstanceAs (Decidable (_ = _))

theorem mem_intersperse {α : Type} {sep a : α} {as : List α} (h : a ∈ as) :
    a ∈ as.intersperse sep := by
  fun_induction List.intersperse sep as with
  | case1 => exact h
  | case2 => exact h
  | case3 b as hne ih =>
    rcases List.mem_cons.1 h with rfl | h
    · exact List.mem_cons_self
    · exact List.mem_cons_of_mem _ (List.mem_cons_of_mem _ (ih h))

theorem Dotted.isIdentifier {names : List String} (h : Dotted names ts)
    (hts : Token.WellNamed ts) : ∀ name ∈ names, SchemaContract.isIdentifier name = true := by
  intro name hname
  have hmem : Token.Kind.name name ∈ ts.map Token.kind := by
    rw [h]
    exact mem_intersperse (List.mem_map_of_mem hname)
  obtain ⟨t, ht, hk⟩ := List.mem_map.1 hmem
  exact hts t ht name hk

theorem intersperse_concat {α : Type} {sep a : α} {as : List α} (h : as ≠ []) :
    (as ++ [a]).intersperse sep = as.intersperse sep ++ [sep, a] := by
  induction as with
  | nil => exact absurd rfl h
  | cons b as ih =>
    cases as with
    | nil => rfl
    | cons c as => simpa using ih

theorem WrittenPath.path?_eq {e : Expression} (h : WrittenPath e ts) :
    e.names ≠ [] ∧ Dotted e.names ts ∧ e.path? = some (".".intercalate e.names) := by
  induction h with
  | @reference t n ht _ =>
    exact ⟨List.cons_ne_nil _ _, by simp [Dotted, Expression.names, ht],
      by simp [Expression.path?, Expression.names]⟩
  | @member t u ts base n _ ht hu ih =>
    obtain ⟨hne, hdotted, hpath⟩ := ih
    rw [Expression.names]
    refine ⟨by simp, ?_, ?_⟩
    · rw [Dotted] at hdotted ⊢
      rw [List.map_append, hdotted, List.map_append, List.map_singleton,
        intersperse_concat (by simpa using hne)]
      simp [ht, hu]
    · rw [Expression.path?, hpath, String.intercalate_append_of_ne_nil hne (by simp),
        String.intercalate_singleton]
      rfl

end Grammar

/-- A source that is read gives a well-formed program. Each reference with its members, at whatever
depth of it, has a place of its own in the source, where it stands as identifiers between dots, and
these are its path. Two such places overlap only where one path begins the other. -/
theorem Program.ofSource_spells_paths {source : String} {p : Program}
    (h : Program.ofSource source = .ok p) :
    p.WellFormed ∧ ∃ tokens, Tokens.ofText source.toList = .ok tokens ∧
      ∃ ms : List Mention, (ms.map Mention.path).Perm (p.subexpressions.filter Expression.isPath) ∧
        ms.Pairwise Mention.Apart ∧
          ∀ m ∈ ms, m.start + m.count ≤ tokens.list.length ∧
            Grammar.Dotted m.path.names (m.tokens tokens.list) ∧ m.path.names ≠ [] ∧
              (∀ name ∈ m.path.names, isIdentifier name = true) ∧
                m.path.path? = some (".".intercalate m.path.names) := by
  obtain ⟨tokens, ht, hs⟩ := Program.exists_tokens_of_ofSource h
  obtain ⟨ms, hpaths, hapart, hms⟩ := Grammar.statements_pathsIn hs
  refine ⟨Program.wellFormed_of_ofSource h, tokens, ht, ms, hpaths, hapart, fun m hm => ?_⟩
  obtain ⟨hle, hw⟩ := hms m hm
  obtain ⟨hne, hdotted, hpath⟩ := hw.path?_eq
  have hnamed := (Tokens.wellNamed_of_ofText ht).of_subset (m.tokens_infix tokens.list).subset
  exact ⟨hle, hdotted, hne, hdotted.isIdentifier hnamed, hpath⟩

/-- The path `b.c` in the argument of a decorator, and the `b` that it goes on from. -/
theorem Program.ofSource_spells_paths_argument :
    let e : Expression := .member (.reference "b") "c"
    let p : Program := ⟨[.scope "N" [⟨"d", [e]⟩] []]⟩
    let tokens : Tokens := ⟨[⟨.mark .atSign, 0⟩, ⟨.name "d", 1⟩, ⟨.mark .leftParen, 2⟩,
      ⟨.name "b", 3⟩, ⟨.mark .dot, 4⟩, ⟨.name "c", 5⟩, ⟨.mark .rightParen, 6⟩,
      ⟨.name "namespace", 8⟩, ⟨.name "N", 18⟩, ⟨.mark .semicolon, 19⟩], 20⟩
    Program.ofSource "@d(b.c) namespace N;" = .ok p ∧ p.WellFormed ∧
      Tokens.ofText "@d(b.c) namespace N;".toList = .ok tokens ∧
        e.path? = some "b.c" ∧ ∃ ms : List Mention,
          (ms.map Mention.path).Perm [e, .reference "b"] ∧
            ⟨e, 3, 3⟩ ∈ ms ∧ ⟨.reference "b", 3, 1⟩ ∈ ms := by
  intro e p tokens
  have h : Program.ofSource "@d(b.c) namespace N;" = .ok p := by cbv
  have ht : Tokens.ofText "@d(b.c) namespace N;".toList = .ok tokens := by cbv
  obtain ⟨hp, tokens', ht', ms, hpaths, -, hms⟩ := Program.ofSource_spells_paths h
  cases ht.symm.trans ht'
  have hlisted : p.subexpressions.filter Expression.isPath = [e, .reference "b"] := rfl
  rw [hlisted] at hpaths
  have hplace : ∀ start < 11, ∀ count < 11,
      (Grammar.Dotted e.names ((tokens.list.drop start).take count) → start = 3 ∧ count = 3) ∧
        (Grammar.Dotted ["b"] ((tokens.list.drop start).take count) →
          start = 3 ∧ count = 1) := by
    decide +kernel
  have hmem {path : Expression} (hpath : path ∈ [e, .reference "b"]) :
      ∃ start count, ⟨path, start, count⟩ ∈ ms ∧ start < 11 ∧ count < 11 ∧
        Grammar.Dotted path.names ((tokens.list.drop start).take count) := by
    obtain ⟨⟨path, start, count⟩, hm, rfl⟩ := List.mem_map.1 (hpaths.mem_iff.2 hpath)
    obtain ⟨hle, hdotted, -⟩ := hms _ hm
    have hle : start + count ≤ 10 := hle
    exact ⟨start, count, hm, by omega, by omega, hdotted⟩
  refine ⟨h, hp, ht, rfl, ms, hpaths, ?_, ?_⟩
  · obtain ⟨start, count, hm, hs, hc, hdotted⟩ := hmem List.mem_cons_self
    obtain ⟨rfl, rfl⟩ := (hplace start hs count hc).1 hdotted
    exact hm
  · obtain ⟨start, count, hm, hs, hc, hdotted⟩ := hmem (List.mem_cons_of_mem _ List.mem_cons_self)
    obtain ⟨rfl, rfl⟩ := (hplace start hs count hc).2 hdotted
    exact hm

end SchemaContract
