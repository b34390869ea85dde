import SchemaContract.Proofs.Walk.Statements

/-!
Loops by their rounds. A round either ends the loop or finds something behind which the loop enters
itself again. A round that finds something ends further on than it began.
-/
namespace SchemaContract.Walk

open Entry
open Grammar (Fault MemberList mark? mark?_cases mark?_cons_of_eq)

/-- A rule that enters itself for each round. A round ends the loop with a value, or finds something
that the loop goes on with. -/
structure Loop (rule : Rule) (σ α β : Type) where
  walk : σ → Entry → Walk α
  round : σ → Entry → Walk (α ⊕ β)
  next : σ → β → σ
  extend : β → α → α
  walk_eq : ∀ s caller, walk s caller = enter caller rule >>= fun here =>
    round s here >>= Sum.elim pure fun found => extend found <$> walk (next s found) here

section Round

variable {α β : Type}

def partRound (base : α) : Walk (α ⊕ String) := do
  if ← take (isMark .dot) then return .inr (← name .identifierAfterDot)
  else return .inl base

def bracketsRound (element : Expression) : Walk (Expression ⊕ Unit) := do
  if isMark .leftBracket (← current).kind? then
    if isMark .rightBracket (← ahead 1).kind? then
      advance 2
      return .inr ()
    else return .inl element
  else return .inl element

def optionRound (mark : Mark) (option : Walk β) : Walk (List β ⊕ β) := do
  if ← take (isMark mark) then return .inr (← option)
  else return .inl []

def elementRound (close : Mark) (what : Expectation) (element : Walk β) : Walk (List β ⊕ β) := do
  if ← take (isMark close) then return .inl []
  else
    let found ← element
    separator close what
    return .inr found

def itemRound (close : Mark) (what : Expectation) (item : Walk β) : Walk (List β ⊕ β) := do
  let found ← item
  if ← take (isMark .comma) then return .inr found
  else
    expect close what
    return .inl [found]

def statementRound (inBlock : Bool) (here : Entry) : Walk (List Statement ⊕ Statement) := do
  let kind? := (← current).kind?
  if kind? = none then
    if inBlock then fail (.expected .namespaceEnd) else return .inl []
  else
    if isMark .rightBrace kind? && inBlock then return .inl []
    else return .inr (← here |>.statement)

end Round

namespace Loop

def nameParts : Loop .nameParts String String String where
  walk start caller := caller.nameParts start
  round start _ := partRound start
  next start part := start ++ "." ++ part
  extend _ := id
  walk_eq start caller := by
    rw [Entry.nameParts]
    simp only [partRound, bind_assoc]
    refine bind_congr fun here => bind_congr fun given => ?_
    cases given <;> simp

def memberChain : Loop .memberChain Expression Expression String where
  walk base caller := caller.memberChain base
  round base _ := partRound base
  next := .member
  extend _ := id
  walk_eq base caller := by
    rw [Entry.memberChain]
    simp only [partRound, bind_assoc]
    refine bind_congr fun here => bind_congr fun given => ?_
    cases given <;> simp

def brackets : Loop .brackets Expression Expression Unit where
  walk element caller := caller.brackets element
  round element _ := bracketsRound element
  next element _ := .array element
  extend _ := id
  walk_eq element caller := by
    rw [Entry.brackets]
    simp only [bracketsRound, bind_assoc]
    refine bind_congr fun here => bind_congr fun cell => ?_
    split
    · simp only [bind_assoc]
      refine bind_congr fun further => ?_
      split <;> simp
    · simp

/-- A list of which each part stands behind its mark. -/
def ofOptions {β : Type} (rule : Rule) (mark : Mark) (list : Entry → Walk (List β))
    (option : Entry → Walk β)
    (h : ∀ caller, list caller = (do
      let here ← enter caller rule
      if ← take (isMark mark) then
        let first ← option here
        let others ← list here
        return first :: others
      else return [])) : Loop rule Unit (List β) β where
  walk _ := list
  round _ here := optionRound mark (option here)
  next _ _ := ()
  extend := .cons
  walk_eq _ caller := by
    rw [h]
    simp only [optionRound, bind_assoc]
    refine bind_congr fun here => bind_congr fun given => ?_
    cases given <;> simp

def unionOptions : Loop .unionOptions Unit (List Expression) Expression :=
  ofOptions .unionOptions .pipe Entry.unionOptions Entry.intersection Entry.unionOptions.eq_1

def intersectionOptions : Loop .intersectionOptions Unit (List Expression) Expression :=
  ofOptions .intersectionOptions .ampersand Entry.intersectionOptions Entry.operand
    Entry.intersectionOptions.eq_1

def items (close : Mark) (what : Expectation) : Loop .items Unit (List Expression) Expression where
  walk _ caller := caller.items close what
  round _ here := itemRound close what here.expression
  next _ _ := ()
  extend := .cons
  walk_eq _ caller := by
    rw [Entry.items]
    simp only [itemRound, bind_assoc]
    refine bind_congr fun here => bind_congr fun item => bind_congr fun given => ?_
    cases given <;> simp

/-- A list of elements up to its closing mark. -/
def ofElements {β : Type} (rule : Rule) (close : Mark) (what : Expectation)
    (list : Entry → Walk (List β)) (element : Entry → Walk β)
    (h : ∀ caller, list caller = (do
      let here ← enter caller rule
      if ← take (isMark close) then return []
      else
        let first ← element here
        separator close what
        let others ← list here
        return first :: others)) : Loop rule Unit (List β) β where
  walk _ := list
  round _ here := elementRound close what (element here)
  next _ _ := ()
  extend := .cons
  walk_eq _ caller := by
    rw [h]
    simp only [elementRound, bind_assoc]
    refine bind_congr fun here => bind_congr fun given => ?_
    cases given <;> simp

end Loop

def decorator (here : Entry) : Walk Decorator := do
  let target ← here |>.dottedName
  let arguments ← here |>.arguments
  return ⟨target, arguments⟩

def decorated {β : Type} (here : Entry) (element : List Decorator → Walk β) : Walk β := do
  let decorators ← here |>.decorators
  element decorators

def listedOperation (here : Entry) (decorators : List Decorator) : Walk Operation := do
  let _ ← take (isWord "op")
  here |>.operation decorators

def listedVariant (here : Entry) : Walk Variant := do
  let variantKey ← key .variantName
  expect .colon .variantColon
  let type ← here |>.expression
  return ⟨variantKey, type⟩

namespace Loop

def decorators : Loop .decorators Unit (List Decorator) Decorator :=
  ofOptions .decorators .atSign Entry.decorators decorator fun caller => by
    rw [Entry.decorators]
    simp [decorator]

def members (place : MemberList) : Loop .members Unit (List Member) Member :=
  ofElements .members place.close place.separator (fun caller => caller.members place)
    (fun here => decorated here here.member) fun caller => by
      rw [Entry.members]
      simp [decorated]

def cases : Loop .cases Unit (List Case) Case :=
  ofElements .cases .rightBrace .caseSeparator Entry.cases
    (fun here => decorated here here.enumerationCase) fun caller => by
      rw [Entry.cases]
      simp [decorated]

def operations : Loop .operations Unit (List Operation) Operation :=
  ofElements .operations .rightBrace .operationSeparator Entry.operations
    (fun here => decorated here (listedOperation here)) fun caller => by
      rw [Entry.operations]
      simp [decorated, listedOperation]

def variants : Loop .variants Unit (List Variant) Variant :=
  ofElements .variants .rightBrace .variantSeparator Entry.variants
    (fun here => decorated here fun _ => listedVariant here) fun caller => by
      rw [Entry.variants]
      simp [decorated, listedVariant]

def statements (inBlock : Bool) : Loop .statements Unit (List Statement) Statement where
  walk _ caller := caller.statements inBlock
  round _ here := statementRound inBlock here
  next _ _ := ()
  extend := .cons
  walk_eq _ caller := by
    rw [Entry.statements]
    simp only [statementRound, bind_assoc]
    refine bind_congr fun here => bind_congr fun cell => ?_
    split
    · cases inBlock
      · simp
      · simp only [if_true, fail_bind]
    · split <;> simp

end Loop

variable {text : List Char} {tokens : Tokens} {here : Entry} {α β : Type} {a : Nat}
  {ts : List Token} {P Q : α → Nat → Prop}

/-- A part of an entry follows a reading, and what is found and the number of the tokens that are
left are so. -/
def Comes (text : List Char) (tokens : Tokens) (here : Entry) (w : Walk α) (ts : List Token)
    (P : α → Nat → Prop) : Prop :=
  ∃ (a : Nat) (reading : Except Fault (Found Token a α)), Follows text tokens here w ts reading ∧
    ∀ found, reading = .ok found → P found.value found.rest.length

theorem Follows.comes {w : Walk α} {reading : Except Fault (Found Token a α)}
    (h : Follows text tokens here w ts reading) : Comes text tokens here w ts fun _ n => n < a :=
  ⟨a, reading, h, fun found _ => found.within⟩

theorem Comes.mono {w : Walk α} (h : Comes text tokens here w ts P) (hPQ : ∀ v n, P v n → Q v n) :
    Comes text tokens here w ts Q := by
  obtain ⟨a, reading, hw, hP⟩ := h
  exact ⟨a, reading, hw, fun found hfound => hPQ _ _ (hP found hfound)⟩

theorem Comes.pure {v : α} (h : P v ts.length) : Comes text tokens here (pure v) ts P := by
  refine ⟨_, .ok (.before v ts), .pure, fun found hfound => ?_⟩
  cases hfound
  exact h

theorem Comes.bind {w : Walk α} {f : α → Walk β} {Q : β → Nat → Prop}
    (h : Comes text tokens here w ts P)
    (hf : ∀ v us, P v us.length → Comes text tokens here (f v) us Q) :
    Comes text tokens here (w >>= f) ts Q := by
  obtain ⟨a, reading, hw, hP⟩ := h
  cases reading with
  | error fault =>
    refine ⟨0, .error fault, ?_, fun found h => by cases h⟩
    exact hw.bind (g := fun _ => .error fault) fun v rest h he => by cases he
  | ok found =>
    obtain ⟨v, us, hus⟩ := found
    obtain ⟨b, reading, hv, hQ⟩ := hf v us (hP _ rfl)
    exact ⟨b, reading, hw.behind hv, hQ⟩

theorem Comes.behind {w : Walk α} {f : α → Walk β} {v : α} {us : List Token}
    {h : us.length < a} {Q : β → Nat → Prop} (hw : Follows text tokens here w ts (.ok ⟨v, us, h⟩))
    (hf : Comes text tokens here (f v) us Q) : Comes text tokens here (w >>= f) ts Q := by
  obtain ⟨b, reading, hv, hQ⟩ := hf
  exact ⟨b, reading, hw.behind hv, hQ⟩

theorem Comes.fail (cause : SyntaxError.Cause) :
    Comes text tokens here (fail cause : Walk α) ts P :=
  ⟨0, .error ⟨cause, ts⟩, follows_fail cause, fun found h => by cases h⟩

theorem Comes.ite_mark {m : Mark} {yes no : Walk α}
    (hyes : ∀ t us, ts = t :: us → Comes text tokens here yes us P)
    (hno : Comes text tokens here no ts P) :
    Comes text tokens here (take (isMark m) >>= fun given => if given then yes else no) ts P := by
  rcases mark?_cases m ts with hm | ⟨t, us, rfl, ht⟩
  · exact .behind (follows_take_of_not (isMark_cellOf_of_none hm)) hno
  · exact .behind (follows_take_cons (by simp [isMark, ht])) (hyes t us rfl)

/-- Where a round goes on, fewer than so many tokens are left. -/
def GoesOn (bound : Nat) (found : α ⊕ β) (n : Nat) : Prop :=
  found.isRight = true → n < bound

theorem GoesOn.ended {v : α} {bound n : Nat} : GoesOn bound (.inl v : α ⊕ β) n :=
  fun h => by cases h

theorem comes_partRound (base : α) (ts : List Token) :
    Comes text tokens here (partRound base) ts (GoesOn ts.length) := by
  refine .ite_mark (fun t us hts => ?_) (.pure .ended)
  subst hts
  refine (follows_name _ us).comes.bind fun part vs hlt => .pure fun _ => ?_
  exact Nat.lt_succ_of_lt hlt

theorem comes_bracketsRound (element : Expression) (ts : List Token) :
    Comes text tokens here (bracketsRound element) ts (GoesOn ts.length) := by
  refine .behind follows_current ?_
  split
  · next hopen =>
    rcases ts with _ | ⟨t, _ | ⟨u, us⟩⟩
    · cases hopen
    · exact .behind (follows_ahead t []) (.pure .ended)
    · refine .behind (follows_ahead t (u :: us)) ?_
      split
      · refine .behind (follows_advance [t, u] us) (.pure fun _ => ?_)
        simp only [List.length_cons]
        omega
      · exact .pure .ended
  · exact .pure .ended

theorem comes_optionRound {mark : Mark} {option : Walk β}
    (h : ∀ us : List Token, us.length < ts.length →
      Comes text tokens here option us fun _ n => n < us.length) :
    Comes text tokens here (optionRound mark option) ts (GoesOn ts.length) := by
  refine .ite_mark (fun t us hts => ?_) (.pure .ended)
  subst hts
  refine (h us (Nat.lt_succ_self _)).bind fun found vs hlt => .pure fun _ => ?_
  exact Nat.lt_succ_of_lt hlt

theorem comes_elementRound {close : Mark} {what : Expectation} {element : Walk β}
    (h : Comes text tokens here element ts fun _ n => n < ts.length) :
    Comes text tokens here (elementRound close what element) ts (GoesOn ts.length) := by
  refine .ite_mark (fun t us hts => .pure .ended) (h.bind fun found us hlt => ?_)
  refine (follows_separator close what us).comes.bind fun _ vs hle => .pure fun _ => ?_
  omega

theorem comes_itemRound {close : Mark} {what : Expectation} {item : Walk β}
    (h : Comes text tokens here item ts fun _ n => n < ts.length) :
    Comes text tokens here (itemRound close what item) ts (GoesOn ts.length) := by
  refine h.bind fun found us hlt => .ite_mark (fun t vs hus => .pure fun _ => ?_) ?_
  · subst hus
    exact Nat.lt_of_succ_lt hlt
  · exact (follows_expect close what us).comes.bind fun _ vs _ => .pure .ended

theorem comes_statementRound (inBlock : Bool) (hh : here.At tokens .statements ts) :
    Comes text tokens here (statementRound inBlock here) ts (GoesOn ts.length) := by
  refine .behind follows_current ?_
  cases ts with
  | nil =>
    cases inBlock with
    | true => exact .fail _
    | false => exact .pure .ended
  | cons t ts =>
    dsimp only
    rw [cellOf, if_neg (by simp)]
    split
    · exact .pure .ended
    · have hfirst : here.MayEnter tokens .statement (t :: ts) := hh.mayEnter_same (by decide)
      refine ((obeys_statement t ts).follows hfirst).comes.bind fun s us hlt => ?_
      exact .pure fun _ => hlt

theorem comes_decorator {us : List Token} {rule : Rule} (hh : here.At tokens rule ts)
    (hlt : us.length < ts.length) :
    Comes text tokens here (decorator here) us fun _ n => n < us.length := by
  refine ((obeys_dottedName us).follows (hh.mayEnter hlt)).comes.bind fun target vs h => ?_
  have harguments : here.MayEnter tokens .items vs := hh.mayEnter (by omega)
  refine (follows_arguments vs harguments).comes.bind fun arguments ws h' => .pure ?_
  omega

theorem comes_decorated {element : List Decorator → Walk β} {rule : Rule}
    (hh : here.At tokens rule ts) (hlead : .decorators ∈ rule.leads)
    (h : ∀ ds us, us.length ≤ ts.length →
      Comes text tokens here (element ds) us fun _ n => n < us.length) :
    Comes text tokens here (decorated here element) ts fun _ n => n < ts.length := by
  have hobeys : Obeys text tokens .decorators _ _ _ := obeys_decorators ts
  refine (hobeys.follows (hh.mayEnter_same hlead)).comes.bind fun ds us hle => ?_
  exact (h ds us (Nat.le_of_lt_succ hle)).mono fun _ _ hlt => by omega

theorem comes_listedOperation {us : List Token} (ds : List Decorator)
    (hh : here.At tokens .operations ts) (hle : us.length ≤ ts.length) :
    Comes text tokens here (listedOperation here ds) us fun _ n => n < us.length := by
  refine (follows_optionalWord "op" us).comes.bind fun given vs h => ?_
  have hoperation : here.MayEnter tokens .operation vs := hh.mayEnter_of_le (by omega) (by decide)
  exact ((obeys_operation ds vs).follows hoperation).comes.mono fun _ _ h => by omega

theorem comes_listedVariant {us : List Token} (hh : here.At tokens .variants ts)
    (hle : us.length ≤ ts.length) :
    Comes text tokens here (listedVariant here) us fun _ n => n < us.length := by
  refine (follows_key _ us).comes.bind fun k vs h => ?_
  refine (follows_expect _ _ vs).comes.bind fun _ ws h' => ?_
  have htype : here.MayEnter tokens .expression ws := hh.mayEnter (by omega)
  refine ((obeys_expression ws).follows htype).comes.bind fun type xs h'' => .pure ?_
  omega

/-- From any index of the tokens or the end, a round comes to an end, not further back; and if it
goes on, further on. -/
def Loop.Advances {rule : Rule} {σ α β : Type} (loop : Loop rule σ α β) (text : List Char)
    (tokens : Tokens) : Prop :=
  ∀ s i record, i ≤ tokens.list.length → ∃ ending final,
    (loop.round s ⟨rule, i⟩).outcome ⟨text, tokens.cells⟩ ⟨i, record⟩ = some (ending, final) ∧
      i ≤ final.index ∧ final.index ≤ tokens.list.length ∧
        ∀ found, ending = .ok (.inr found) → i < final.index

theorem Loop.advances_of_comes {rule : Rule} {σ α β : Type} {loop : Loop rule σ α β}
    (h : ∀ s (ts : List Token) (here : Entry), here.At tokens rule ts →
      Comes text tokens here (loop.round s here) ts (GoesOn ts.length)) :
    loop.Advances text tokens := by
  intro s i record hi
  have hlength : (tokens.list.drop i).length = tokens.list.length - i := List.length_drop
  obtain ⟨a, reading, hw, hP⟩ := h s (tokens.list.drop i) ⟨rule, i⟩ ⟨rfl, by simp only; omega⟩
  obtain ⟨hleft, events, -, hw⟩ := hw (List.drop_suffix i _)
  have hle := hleft.length_le
  rw [hlength, Nat.sub_sub_self hi] at hw
  refine ⟨_, _, hw record, by simp only; omega, Nat.sub_le _ _, fun found hfound => ?_⟩
  cases reading with
  | error fault => cases hfound
  | ok v =>
    have hv : v.value = .inr found := Except.ok.inj hfound
    have hlt := hP v rfl (by rw [hv]; rfl)
    simp only [left] at hle ⊢
    omega

/-- The loops. -/
inductive IsLoop : {rule : Rule} → {σ α β : Type} → Loop rule σ α β → Prop where
  | nameParts : IsLoop .nameParts
  | memberChain : IsLoop .memberChain
  | brackets : IsLoop .brackets
  | unionOptions : IsLoop .unionOptions
  | intersectionOptions : IsLoop .intersectionOptions
  | items (close : Mark) (what : Expectation) : IsLoop (.items close what)
  | decorators : IsLoop .decorators
  | members (place : MemberList) : IsLoop (.members place)
  | cases : IsLoop .cases
  | operations : IsLoop .operations
  | variants : IsLoop .variants
  | statements (inBlock : Bool) : IsLoop (.statements inBlock)

theorem IsLoop.advances {rule : Rule} {σ α β : Type} {loop : Loop rule σ α β} (h : IsLoop loop) :
    loop.Advances text tokens := by
  refine loop.advances_of_comes fun s ts here hh => ?_
  cases h with
  | nameParts | memberChain => exact comes_partRound s ts
  | brackets => exact comes_bracketsRound s ts
  | unionOptions =>
    refine comes_optionRound fun us hlt => ?_
    exact ((obeys_intersection us).follows (hh.mayEnter hlt)).comes
  | intersectionOptions =>
    refine comes_optionRound fun us hlt => ?_
    exact ((obeys_operand us).follows (hh.mayEnter hlt)).comes
  | items close what =>
    refine comes_itemRound ?_
    exact ((obeys_expression ts).follows (hh.mayEnter_same (by decide))).comes
  | decorators => exact comes_optionRound fun us hlt => comes_decorator hh hlt
  | members place =>
    refine comes_elementRound (comes_decorated hh (by decide) fun ds us hle => ?_)
    exact (follows_member ds us (hh.mayEnter_of_le hle (by decide))).comes
  | cases =>
    refine comes_elementRound (comes_decorated hh (by decide) fun ds us hle => ?_)
    have hcase (vs : List Token) (hlt : vs.length < us.length) :
        here.MayEnter tokens .primary vs := hh.mayEnter (by omega)
    exact (follows_enumerationCase ds us hcase).comes
  | operations =>
    refine comes_elementRound (comes_decorated hh (by decide) fun ds us hle => ?_)
    exact comes_listedOperation ds hh hle
  | variants =>
    refine comes_elementRound (comes_decorated hh (by decide) fun ds us hle => ?_)
    exact comes_listedVariant hh hle
  | statements inBlock => exact comes_statementRound inBlock hh

end SchemaContract.Walk
