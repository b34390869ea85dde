import SchemaContract.Proofs.Grammar.Local

/-!
Offsets decide nothing. Tokens that have moved to other offsets are read as before: the same is
found, or the same fault, with what is left moved likewise.
-/
namespace SchemaContract

/-- The token at the offset that its own is taken to. -/
def Token.move (f : Nat → Nat) (t : Token) : Token :=
  ⟨t.kind, f t.offset⟩

@[simp] theorem Token.move_kind (f : Nat → Nat) (t : Token) : (t.move f).kind = t.kind := rfl

namespace Grammar

variable {α β : Type} {a b c d : Nat} {f : Nat → Nat} {ts : List Token}

/-- The tokens at the offsets that theirs are taken to. -/
def moved (f : Nat → Nat) (ts : List Token) : List Token :=
  ts.map (Token.move f)

@[simp] theorem moved_nil : moved f [] = [] := rfl

@[simp] theorem moved_cons (t : Token) : moved f (t :: ts) = t.move f :: moved f ts := rfl

/-- The second reading ends as the first does, in tokens that have moved. -/
inductive Shifted (f : Nat → Nat) :
    Except Fault (Found Token a α) → Except Fault (Found Token b α) → Prop where
  | ok {v : α} {rest : List Token} {h : rest.length < a}
      {h' : (moved f rest).length < b} :
      Shifted f (.ok ⟨v, rest, h⟩) (.ok ⟨v, moved f rest, h'⟩)
  | error {cause : SyntaxError.Cause} {rest : List Token} :
      Shifted f (.error ⟨cause, rest⟩) (.error ⟨cause, moved f rest⟩)

theorem Shifted.bind {x : Except Fault (Found Token a α)} {y : Except Fault (Found Token b α)}
    {g : Found Token a α → Except Fault (Found Token c β)}
    {g' : Found Token b α → Except Fault (Found Token d β)} (h : Shifted f x y)
    (hg : ∀ v rest h h', Shifted f (g ⟨v, rest, h⟩) (g' ⟨v, moved f rest, h'⟩)) :
    Shifted f (x >>= g) (y >>= g') := by
  cases h with
  | ok => exact hg _ _ _ _
  | error => exact .error

theorem Shifted.of_eq {x : Found Token a α} {y : Found Token b α} (hv : y.value = x.value)
    (hr : y.rest = moved f x.rest) : Shifted f (.ok x) (.ok y) := by
  cases x
  cases y
  cases hv
  cases hr
  exact .ok

theorem mark?_moved (f : Nat → Nat) (m : Mark) (ts : List Token) :
    mark? m ts = none ∧ mark? m (moved f ts) = none ∨
      ∃ us h h', mark? m ts = some ⟨(), us, h⟩ ∧
        mark? m (moved f ts) = some ⟨(), moved f us, h'⟩ := by
  cases ts with
  | nil => exact .inl ⟨rfl, rfl⟩
  | cons t ts =>
    by_cases ht : t.kind = .mark m
    · exact .inr ⟨ts, _, _, mark?_cons_of_eq ht, mark?_cons_of_eq (t := t.move f) ht⟩
    · exact .inl ⟨mark?_cons_of_ne ht, mark?_cons_of_ne (t := t.move f) ht⟩

theorem optionalMark_moved (f : Nat → Nat) (m : Mark) (ts : List Token) :
    ∃ given rest h h', optionalMark m ts = ⟨given, rest, h⟩ ∧
      optionalMark m (moved f ts) = ⟨given, moved f rest, h'⟩ := by
  unfold optionalMark
  obtain ⟨hm, hm'⟩ | ⟨us, h, h', hm, hm'⟩ := mark?_moved f m ts
  · rw [hm, hm']
    exact ⟨false, ts, _, _, rfl, rfl⟩
  · rw [hm, hm']
    exact ⟨true, us, _, _, rfl, rfl⟩

theorem shifted_mark (m : Mark) (what : Expectation) (ts : List Token) :
    Shifted f (mark m what ts) (mark m what (moved f ts)) := by
  unfold mark
  obtain ⟨hm, hm'⟩ | ⟨us, h, h', hm, hm'⟩ := mark?_moved f m ts
  · rw [hm, hm']
    exact .error
  · rw [hm, hm']
    exact .ok

theorem shifted_name (what : Expectation) (ts : List Token) :
    Shifted f (name what ts) (name what (moved f ts)) := by
  cases ts with
  | nil => exact .error
  | cons t ts =>
    rw [moved_cons, name, name, Token.move_kind]
    split
    · exact .ok
    · exact .error

theorem shifted_quoted (what : Expectation) (ts : List Token) :
    Shifted f (quoted what ts) (quoted what (moved f ts)) := by
  cases ts with
  | nil => exact .error
  | cons t ts =>
    rw [moved_cons, quoted, quoted, Token.move_kind]
    split
    · exact .ok
    · exact .error

theorem shifted_key (what : Expectation) (ts : List Token) :
    Shifted f (key what ts) (key what (moved f ts)) := by
  cases ts with
  | nil => exact .error
  | cons t ts =>
    rw [moved_cons, key, key, Token.move_kind]
    split
    · exact .ok
    · exact .ok
    · exact .error

theorem shifted_separator (close : Mark) (what : Expectation) (ts : List Token) :
    Shifted f (separator close what ts) (separator close what (moved f ts)) := by
  cases ts with
  | nil => exact .error
  | cons t ts =>
    rw [moved_cons, separator, separator, Token.move_kind]
    split
    · exact .ok
    · split
      · exact .ok
      · exact .error

theorem shifted_dottedRest (start : String) (ts : List Token) :
    Shifted f (dottedRest start ts) (dottedRest start (moved f ts)) := by
  fun_induction dottedRest start ts with
  | case1 => exact .ok
  | case2 start t ht =>
    rw [moved_cons, moved_nil, dottedRest, Token.move_kind, if_pos ht]
    exact .error
  | case3 start t ht =>
    rw [moved_cons, moved_nil, dottedRest, Token.move_kind, if_neg ht]
    exact .ok
  | case4 start t u ts ht part hu ih =>
    rw [moved_cons, moved_cons, dottedRest, Token.move_kind, Token.move_kind, if_pos ht, hu]
    exact ih.bind fun _ _ _ _ => .ok
  | case5 start t u ts ht hu =>
    rw [moved_cons, moved_cons, dottedRest, Token.move_kind, if_pos ht]
    split
    · next part hpart => exact absurd hpart (hu part)
    · exact .error
  | case6 start t u ts ht =>
    rw [moved_cons, moved_cons, dottedRest, Token.move_kind, if_neg ht]
    exact .ok

theorem shifted_dottedName (ts : List Token) :
    Shifted f (dottedName ts) (dottedName (moved f ts)) := by
  unfold dottedName
  refine (shifted_name _ ts).bind fun start ts₁ h₁ h₁' => ?_
  exact (shifted_dottedRest start ts₁).bind fun _ _ _ _ => .ok

theorem shifted_memberChain (base : Expression) (ts : List Token) :
    Shifted f (memberChain base ts) (memberChain base (moved f ts)) := by
  fun_induction memberChain base ts with
  | case1 => exact .ok
  | case2 base t ht =>
    rw [moved_cons, moved_nil, memberChain, Token.move_kind, if_pos ht]
    exact .error
  | case3 base t ht =>
    rw [moved_cons, moved_nil, memberChain, Token.move_kind, if_neg ht]
    exact .ok
  | case4 base t u ts ht part hu ih =>
    rw [moved_cons, moved_cons, memberChain, Token.move_kind, Token.move_kind, if_pos ht, hu]
    exact ih.bind fun _ _ _ _ => .ok
  | case5 base t u ts ht hu =>
    rw [moved_cons, moved_cons, memberChain, Token.move_kind, if_pos ht]
    split
    · next part hpart => exact absurd hpart (hu part)
    · exact .error
  | case6 base t u ts ht =>
    rw [moved_cons, moved_cons, memberChain, Token.move_kind, if_neg ht]
    exact .ok

theorem shifted_named (n : String) (ts : List Token) :
    Shifted f (named n ts) (named n (moved f ts)) := by
  unfold named
  split
  · exact .ok
  · exact .ok
  · exact .ok
  · unfold reference
    refine (shifted_memberChain _ ts).bind fun e rest h h' => ?_
    obtain ⟨hm, hm'⟩ | ⟨us, h, h', hm, hm'⟩ := mark?_moved f .less rest
    · simp only [hm, hm']
      exact .ok
    · simp only [hm, hm']
      exact .error

theorem arrayBrackets_moved (e : Expression) (ts : List Token) :
    (arrayBrackets e (moved f ts)).value = (arrayBrackets e ts).value ∧
      (arrayBrackets e (moved f ts)).rest = moved f (arrayBrackets e ts).rest := by
  fun_induction arrayBrackets e ts with
  | case1 e t u ts hm ih =>
    obtain ⟨hv, hr⟩ :=
      arrayBrackets_cons (e := e) (t := t.move f) (u := u.move f) (moved f ts) hm.1 hm.2
    exact ⟨hv.trans ih.1, hr.trans ih.2⟩
  | case2 e t u ts hm =>
    rw [moved_cons, moved_cons, arrayBrackets, Token.move_kind, Token.move_kind, if_neg hm]
    exact ⟨rfl, rfl⟩
  | case3 e ts hshort =>
    cases ts with
    | nil => exact ⟨rfl, rfl⟩
    | cons t ts =>
      cases ts with
      | nil => exact ⟨rfl, rfl⟩
      | cons u ts => exact absurd rfl (hshort t u ts)

mutual

theorem shifted_expression (ts : List Token) :
    Shifted f (expression ts) (expression (moved f ts)) := by
  rw [expression, expression]
  obtain ⟨bar, ts₁, h₁, h₁', ho, ho'⟩ := optionalMark_moved f .pipe ts
  rw [ho, ho']
  refine (shifted_intersection ts₁).bind fun first ts₂ h₂ h₂' => ?_
  exact (shifted_unionOptions ts₂).bind fun others ts₃ h₃ h₃' => .ok
termination_by 8 * ts.length + 3

theorem shifted_unionOptions (ts : List Token) :
    Shifted f (unionOptions ts) (unionOptions (moved f ts)) := by
  obtain ⟨hm, hm'⟩ | ⟨us, h, h', hm, hm'⟩ := mark?_moved f .pipe ts
  · rw [unionOptions, unionOptions, hm, hm']
    exact .ok
  · rw [unionOptions, unionOptions, hm, hm']
    refine (shifted_intersection us).bind fun option ts₂ h₂ h₂' => ?_
    exact (shifted_unionOptions ts₂).bind fun others ts₃ h₃ h₃' => .ok
termination_by 8 * ts.length

theorem shifted_intersection (ts : List Token) :
    Shifted f (intersection ts) (intersection (moved f ts)) := by
  rw [intersection, intersection]
  refine (shifted_operand ts).bind fun first ts₁ h₁ h₁' => ?_
  exact (shifted_intersectionOptions ts₁).bind fun others ts₂ h₂ h₂' => .ok
termination_by 8 * ts.length + 2

theorem shifted_intersectionOptions (ts : List Token) :
    Shifted f (intersectionOptions ts) (intersectionOptions (moved f ts)) := by
  obtain ⟨hm, hm'⟩ | ⟨us, h, h', hm, hm'⟩ := mark?_moved f .ampersand ts
  · rw [intersectionOptions, intersectionOptions, hm, hm']
    exact .ok
  · rw [intersectionOptions, intersectionOptions, hm, hm']
    refine (shifted_operand us).bind fun option ts₂ h₂ h₂' => ?_
    exact (shifted_intersectionOptions ts₂).bind fun others ts₃ h₃ h₃' => .ok
termination_by 8 * ts.length

theorem shifted_operand (ts : List Token) :
    Shifted f (operand ts) (operand (moved f ts)) := by
  rw [operand, operand]
  refine (shifted_primary ts).bind fun element ts₁ h₁ h₁' => ?_
  exact .of_eq (arrayBrackets_moved element ts₁).1 (arrayBrackets_moved element ts₁).2
termination_by 8 * ts.length + 1

theorem shifted_primary (ts : List Token) :
    Shifted f (primary ts) (primary (moved f ts)) := by
  cases ts with
  | nil =>
    rw [moved_nil, primary]
    exact .error
  | cons t ts =>
    rw [moved_cons, primary, primary, Token.move_kind]
    split
    · exact .ok
    · exact .ok
    · exact .ok
    · exact shifted_named _ ts
    · exact (shifted_listing .rightBracket .tupleEnd ts).bind fun _ _ _ _ => .ok
    · exact (shifted_members .body ts).bind fun _ _ _ _ => .ok
    · refine (shifted_expression ts).bind fun inside ts₁ h₁ h₁' => ?_
      exact (shifted_mark .rightParen .groupEnd ts₁).bind fun _ _ _ _ => .ok
    · exact .error
termination_by 8 * ts.length

theorem shifted_listing (close : Mark) (what : Expectation) (ts : List Token) :
    Shifted f (listing close what ts) (listing close what (moved f ts)) := by
  obtain ⟨hm, hm'⟩ | ⟨us, h, h', hm, hm'⟩ := mark?_moved f close ts
  · rw [listing, listing, hm, hm']
    exact shifted_items close what ts
  · rw [listing, listing, hm, hm']
    exact .ok
termination_by 8 * ts.length + 5

theorem shifted_items (close : Mark) (what : Expectation) (ts : List Token) :
    Shifted f (items close what ts) (items close what (moved f ts)) := by
  rw [items, items]
  refine (shifted_expression ts).bind fun item ts₁ h₁ h₁' => ?_
  obtain ⟨hm, hm'⟩ | ⟨us, h, h', hm, hm'⟩ := mark?_moved f .comma ts₁
  · simp only [hm, hm']
    exact (shifted_mark close what ts₁).bind fun _ _ _ _ => .ok
  · simp only [hm, hm']
    exact (shifted_items close what us).bind fun _ _ _ _ => .ok
termination_by 8 * ts.length + 4

theorem shifted_members (place : MemberList) (ts : List Token) :
    Shifted f (members place ts) (members place (moved f ts)) := by
  obtain ⟨hm, hm'⟩ | ⟨us, h, h', hm, hm'⟩ := mark?_moved f place.close ts
  · rw [members, members, hm, hm']
    refine (shifted_decorators ts).bind fun ds ts₁ h₁ h₁' => ?_
    refine (shifted_member ds ts₁).bind fun first ts₂ h₂ h₂' => ?_
    refine (shifted_separator _ _ ts₂).bind fun _ ts₃ h₃ h₃' => ?_
    exact (shifted_members place ts₃).bind fun others ts₄ h₄ h₄' => .ok
  · rw [members, members, hm, hm']
    exact .ok
termination_by 8 * ts.length + 1

theorem shifted_member (ds : List Decorator) (ts : List Token) :
    Shifted f (member ds ts) (member ds (moved f ts)) := by
  obtain ⟨hm, hm'⟩ | ⟨us, h, h', hm, hm'⟩ := mark?_moved f .ellipsis ts
  · rw [member, member, hm, hm']
    refine (shifted_key .propertyName ts).bind fun key ts₁ h₁ h₁' => ?_
    dsimp only
    obtain ⟨optional, ts₂, h₂, h₂', ho, ho'⟩ := optionalMark_moved f .question ts₁
    rw [ho, ho']
    refine (shifted_mark .colon .propertyColon ts₂).bind fun _ ts₃ h₃ h₃' => ?_
    refine (shifted_expression ts₃).bind fun type ts₄ h₄ h₄' => ?_
    exact (shifted_default ts₄).bind fun _ _ _ _ => .ok
  · rw [member, member, hm, hm']
    exact (shifted_expression us).bind fun _ _ _ _ => .ok
termination_by 8 * ts.length

theorem shifted_default (ts : List Token) :
    Shifted f (default ts) (default (moved f ts)) := by
  obtain ⟨hm, hm'⟩ | ⟨us, h, h', hm, hm'⟩ := mark?_moved f .equals ts
  · rw [default, default, hm, hm']
    exact .ok
  · rw [default, default, hm, hm']
    exact (shifted_expression us).bind fun _ _ _ _ => .ok
termination_by 8 * ts.length

theorem shifted_decorators (ts : List Token) :
    Shifted f (decorators ts) (decorators (moved f ts)) := by
  obtain ⟨hm, hm'⟩ | ⟨us, h, h', hm, hm'⟩ := mark?_moved f .atSign ts
  · rw [decorators, decorators, hm, hm']
    exact .ok
  · rw [decorators, decorators, hm, hm']
    refine (shifted_dottedName us).bind fun target ts₂ h₂ h₂' => ?_
    refine (shifted_arguments ts₂).bind fun arguments ts₃ h₃ h₃' => ?_
    exact (shifted_decorators ts₃).bind fun others ts₄ h₄ h₄' => .ok
termination_by 8 * ts.length

theorem shifted_arguments (ts : List Token) :
    Shifted f (arguments ts) (arguments (moved f ts)) := by
  obtain ⟨hm, hm'⟩ | ⟨us, h, h', hm, hm'⟩ := mark?_moved f .leftParen ts
  · rw [arguments, arguments, hm, hm']
    exact .ok
  · rw [arguments, arguments, hm, hm']
    exact (shifted_listing .rightParen .argumentsEnd us).bind fun _ _ _ _ => .ok
termination_by 8 * ts.length

end

theorem optionalWord_moved (f : Nat → Nat) (word : String) (ts : List Token) :
    ∃ given rest h h', optionalWord word ts = ⟨given, rest, h⟩ ∧
      optionalWord word (moved f ts) = ⟨given, moved f rest, h'⟩ := by
  cases ts with
  | nil => exact ⟨false, [], _, _, rfl, rfl⟩
  | cons t ts =>
    rw [moved_cons, optionalWord, optionalWord, Token.move_kind]
    split
    · exact ⟨true, ts, (Found.before true ts).lax.within,
        (Found.before true (moved f ts)).lax.within, rfl, rfl⟩
    · exact ⟨false, t :: ts, (Found.before false (t :: ts)).within,
        (Found.before false (moved f (t :: ts))).within, rfl, rfl⟩

theorem shifted_modelTarget (ts : List Token) :
    Shifted f (modelTarget ts) (modelTarget (moved f ts)) := by
  unfold modelTarget
  obtain ⟨given, ts₁, h₁, h₁', ho, ho'⟩ := optionalWord_moved f "is" ts
  rw [ho, ho']
  dsimp only
  split
  · exact (shifted_expression ts₁).bind fun _ _ _ _ => .ok
  · exact .ok

theorem shifted_modelBody (target? : Option Expression) (ts : List Token) :
    Shifted f (modelBody target? ts) (modelBody target? (moved f ts)) := by
  unfold modelBody
  obtain ⟨hm, hm'⟩ | ⟨us, h, h', hm, hm'⟩ := mark?_moved f .leftBrace ts
  · rw [hm, hm']
    cases target? with
    | none => exact .error
    | some e => exact (shifted_mark .semicolon .semicolon ts).bind fun _ _ _ _ => .ok
  · rw [hm, hm']
    exact (shifted_members .body us).bind fun _ _ _ _ => .ok

theorem shifted_model (ds : List Decorator) (ts : List Token) :
    Shifted f (model ds ts) (model ds (moved f ts)) := by
  unfold model
  refine (shifted_name .modelName ts).bind fun n ts₁ h₁ h₁' => ?_
  obtain ⟨hm, hm'⟩ | ⟨us, h, h', hm, hm'⟩ := mark?_moved f .less ts₁
  · simp only [hm, hm']
    refine (shifted_modelTarget ts₁).bind fun target? ts₂ h₂ h₂' => ?_
    exact (shifted_modelBody target? ts₂).bind fun _ _ _ _ => .ok
  · simp only [hm, hm']
    exact .error

theorem shifted_enumerationCase (ds : List Decorator) (ts : List Token) :
    Shifted f (enumerationCase ds ts) (enumerationCase ds (moved f ts)) := by
  unfold enumerationCase
  obtain ⟨hm, hm'⟩ | ⟨us, h, h', hm, hm'⟩ := mark?_moved f .ellipsis ts
  · rw [hm, hm']
    refine (shifted_key .caseName ts).bind fun key ts₁ h₁ h₁' => ?_
    obtain ⟨hc, hc'⟩ | ⟨us, h, h', hc, hc'⟩ := mark?_moved f .colon ts₁
    · simp only [hc, hc']
      exact .ok
    · simp only [hc, hc']
      exact (shifted_primary us).bind fun _ _ _ _ => .ok
  · rw [hm, hm']
    exact (shifted_primary us).bind fun _ _ _ _ => .ok

theorem shifted_enumerationCases (ts : List Token) :
    Shifted f (enumerationCases ts) (enumerationCases (moved f ts)) := by
  rw [enumerationCases, enumerationCases]
  obtain ⟨hm, hm'⟩ | ⟨us, h, h', hm, hm'⟩ := mark?_moved f .rightBrace ts
  · rw [hm, hm']
    refine (shifted_decorators ts).bind fun ds ts₁ h₁ h₁' => ?_
    refine (shifted_enumerationCase ds ts₁).bind fun first ts₂ h₂ h₂' => ?_
    refine (shifted_separator _ _ ts₂).bind fun _ ts₃ h₃ h₃' => ?_
    exact (shifted_enumerationCases ts₃).bind fun _ _ _ _ => .ok
  · rw [hm, hm']
    exact .ok
termination_by ts.length

theorem shifted_enumeration (ds : List Decorator) (ts : List Token) :
    Shifted f (enumeration ds ts) (enumeration ds (moved f ts)) := by
  unfold enumeration
  refine (shifted_name .enumerationName ts).bind fun n ts₁ h₁ h₁' => ?_
  refine (shifted_mark .leftBrace .enumerationBody ts₁).bind fun _ ts₂ h₂ h₂' => ?_
  exact (shifted_enumerationCases ts₂).bind fun _ _ _ _ => .ok

theorem shifted_operation (ds : List Decorator) (ts : List Token) :
    Shifted f (operation ds ts) (operation ds (moved f ts)) := by
  unfold operation
  refine (shifted_name .operationName ts).bind fun n ts₁ h₁ h₁' => ?_
  refine (shifted_mark .leftParen .parameterList ts₁).bind fun _ ts₂ h₂ h₂' => ?_
  refine (shifted_members .parameters ts₂).bind fun parameters ts₃ h₃ h₃' => ?_
  refine (shifted_mark .colon .resultColon ts₃).bind fun _ ts₄ h₄ h₄' => ?_
  exact (shifted_expression ts₄).bind fun _ _ _ _ => .ok

theorem shifted_interfaceOperations (ts : List Token) :
    Shifted f (interfaceOperations ts) (interfaceOperations (moved f ts)) := by
  rw [interfaceOperations, interfaceOperations]
  obtain ⟨hm, hm'⟩ | ⟨us, h, h', hm, hm'⟩ := mark?_moved f .rightBrace ts
  · rw [hm, hm']
    refine (shifted_decorators ts).bind fun ds ts₁ h₁ h₁' => ?_
    dsimp only
    obtain ⟨given, ts₂, h₂, h₂', ho, ho'⟩ := optionalWord_moved f "op" ts₁
    rw [ho, ho']
    refine (shifted_operation ds ts₂).bind fun first ts₃ h₃ h₃' => ?_
    refine (shifted_separator _ _ ts₃).bind fun _ ts₄ h₄ h₄' => ?_
    exact (shifted_interfaceOperations ts₄).bind fun _ _ _ _ => .ok
  · rw [hm, hm']
    exact .ok
termination_by ts.length

theorem shifted_interface (ds : List Decorator) (ts : List Token) :
    Shifted f (interface ds ts) (interface ds (moved f ts)) := by
  unfold interface
  refine (shifted_name .interfaceName ts).bind fun n ts₁ h₁ h₁' => ?_
  refine (shifted_mark .leftBrace .interfaceBody ts₁).bind fun _ ts₂ h₂ h₂' => ?_
  exact (shifted_interfaceOperations ts₂).bind fun _ _ _ _ => .ok

theorem shifted_unionVariants (ts : List Token) :
    Shifted f (unionVariants ts) (unionVariants (moved f ts)) := by
  rw [unionVariants, unionVariants]
  obtain ⟨hm, hm'⟩ | ⟨us, h, h', hm, hm'⟩ := mark?_moved f .rightBrace ts
  · rw [hm, hm']
    refine (shifted_decorators ts).bind fun _ ts₁ h₁ h₁' => ?_
    refine (shifted_key .variantName ts₁).bind fun key ts₂ h₂ h₂' => ?_
    refine (shifted_mark .colon .variantColon ts₂).bind fun _ ts₃ h₃ h₃' => ?_
    refine (shifted_expression ts₃).bind fun type ts₄ h₄ h₄' => ?_
    refine (shifted_separator _ _ ts₄).bind fun _ ts₅ h₅ h₅' => ?_
    exact (shifted_unionVariants ts₅).bind fun _ _ _ _ => .ok
  · rw [hm, hm']
    exact .ok
termination_by ts.length

theorem shifted_union (ds : List Decorator) (ts : List Token) :
    Shifted f (union ds ts) (union ds (moved f ts)) := by
  unfold union
  refine (shifted_name .unionName ts).bind fun n ts₁ h₁ h₁' => ?_
  refine (shifted_mark .leftBrace .unionBody ts₁).bind fun _ ts₂ h₂ h₂' => ?_
  exact (shifted_unionVariants ts₂).bind fun _ _ _ _ => .ok

theorem shifted_typeAlias (ts : List Token) :
    Shifted f (typeAlias ts) (typeAlias (moved f ts)) := by
  unfold typeAlias
  refine (shifted_name .aliasName ts).bind fun n ts₁ h₁ h₁' => ?_
  refine (shifted_mark .equals .aliasEquals ts₁).bind fun _ ts₂ h₂ h₂' => ?_
  refine (shifted_expression ts₂).bind fun type ts₃ h₃ h₃' => ?_
  exact (shifted_mark .semicolon .semicolon ts₃).bind fun _ _ _ _ => .ok

theorem shifted_importPath (ts : List Token) :
    Shifted f (importPath ts) (importPath (moved f ts)) := by
  unfold importPath
  refine (shifted_quoted .importPath ts).bind fun path ts₁ h₁ h₁' => ?_
  exact (shifted_mark .semicolon .semicolon ts₁).bind fun _ _ _ _ => .ok

theorem shifted_usingName (ts : List Token) :
    Shifted f (usingName ts) (usingName (moved f ts)) := by
  unfold usingName
  refine (shifted_dottedName ts).bind fun n ts₁ h₁ h₁' => ?_
  exact (shifted_mark .semicolon .semicolon ts₁).bind fun _ _ _ _ => .ok

theorem shifted_bareOperation (ds : List Decorator) (ts : List Token) :
    Shifted f (bareOperation ds ts) (bareOperation ds (moved f ts)) := by
  unfold bareOperation
  refine (shifted_operation ds ts).bind fun declared ts₁ h₁ h₁' => ?_
  exact (shifted_mark .semicolon .semicolon ts₁).bind fun _ _ _ _ => .ok

theorem behindBlock_moved (depth : Nat) (ts : List Token) :
    behindBlock depth (moved f ts) = (behindBlock depth ts).map (moved f) := by
  fun_induction behindBlock depth ts with
  | case1 => rfl
  | case2 depth t ts ht ih => rw [moved_cons, behindBlock_open (t := t.move f) ht, ih]
  | case3 t ts _ ht => rw [moved_cons, behindBlock_close (t := t.move f) ht, Option.map_some]
  | case4 t ts _ ht depth ih =>
    rw [moved_cons, behindBlock_close_succ (t := t.move f) ht, ih]
  | case5 depth t ts hl hr ih => rw [moved_cons, behindBlock_of_ne (t := t.move f) hl hr, ih]

theorem recovered_moved (ts : List Token) : recovered (moved f ts) = moved f (recovered ts) := by
  fun_induction recovered ts with
  | case1 => rfl
  | case2 t ts hs => rw [moved_cons, recovered, Token.move_kind, if_pos hs]
  | case3 t ts hs hl =>
    rw [moved_cons, recovered, Token.move_kind, if_neg hs, if_pos hl, behindBlock_moved]
    cases behindBlock 0 ts <;> rfl
  | case4 t ts hs hl hr =>
    rw [moved_cons, recovered, Token.move_kind, if_neg hs, if_neg hl, if_pos hr]
  | case5 t ts hs hl hr ih =>
    rw [moved_cons, recovered, Token.move_kind, if_neg hs, if_neg hl, if_neg hr, ih]

theorem skipStatement_moved (t : Token) (ts : List Token) :
    skipStatement (t.move f) (moved f ts) = moved f (skipStatement t ts) := by
  unfold skipStatement
  rw [Token.move_kind, ← moved_cons, recovered_moved]
  split <;> rfl

theorem shifted_projection (ts : List Token) :
    Shifted f (projection ts) (projection (moved f ts)) := by
  induction ts with
  | nil => exact .error
  | cons t ts ih =>
    rw [moved_cons, projection, projection, Token.move_kind]
    split
    · have hb := behindBlock_moved (f := f) 0 ts
      split
      · next rest hs =>
        rw [hs] at hb
        split
        · next rest' hs' =>
          cases hs'.symm.trans hb
          exact .ok
        · next hn => cases hn.symm.trans hb
      · next hn =>
        rw [hn] at hb
        split
        · next rest' hs' => cases hs'.symm.trans hb
        · exact .error
    · exact ih.bind fun _ _ _ _ => .ok

theorem Shifted.behindKeyword {wrap : α → Statement} {t u : Token} {us : List Token}
    {x : Except Fault (Found Token ts.length α)} {y : Except Fault (Found Token us.length α)}
    (h : Shifted f x y) :
    Shifted f (Grammar.behindKeyword (t := t) wrap x) (Grammar.behindKeyword (t := u) wrap y) := by
  cases h with
  | ok => exact .ok
  | error => exact .error

theorem shifted_skipped (t : Token) (ts : List Token) :
    Shifted f (.ok (skipped t ts)) (.ok (skipped (t.move f) (moved f ts))) :=
  .of_eq rfl (skipStatement_moved t ts)

mutual

theorem shifted_statement (t : Token) (ts : List Token) :
    Shifted f (statement t ts) (statement (t.move f) (moved f ts)) := by
  rw [statement, statement]
  refine (shifted_decorators (t :: ts)).bind fun ds ts₁ h₁ h₁' => ?_
  cases ts₁ with
  | nil => exact .ok
  | cons u ts₂ =>
    have hlt : ts₂.length < ts.length + 1 := Nat.lt_of_succ_lt_succ h₁
    exact (shifted_declaration ds u ts₂).bind fun _ _ _ _ => .ok
termination_by 4 * ts.length + 6

theorem shifted_declaration (ds : List Decorator) (t : Token) (ts : List Token) :
    Shifted f (declaration ds t ts) (declaration ds (t.move f) (moved f ts)) := by
  rw [declaration, declaration, Token.move_kind]
  split
  · exact .ok
  · split
    · exact (shifted_importPath ts).behindKeyword
    · exact (shifted_usingName ts).behindKeyword
    · exact (shifted_scope ds ts).behindKeyword
    · exact (shifted_model ds ts).behindKeyword
    · exact (shifted_enumeration ds ts).behindKeyword
    · exact (shifted_interface ds ts).behindKeyword
    · exact (shifted_bareOperation ds ts).behindKeyword
    · exact (shifted_union ds ts).behindKeyword
    · exact (shifted_typeAlias ts).behindKeyword
    · exact (shifted_projection ts).behindKeyword
    · exact shifted_skipped t ts
  · exact shifted_skipped t ts
termination_by 4 * ts.length + 5

theorem shifted_scope (ds : List Decorator) (ts : List Token) :
    Shifted f (scope ds ts) (scope ds (moved f ts)) := by
  rw [scope, scope]
  refine (shifted_dottedName ts).bind fun n ts₁ h₁ h₁' => ?_
  obtain ⟨hm, hm'⟩ | ⟨us, h, h', hm, hm'⟩ := mark?_moved f .leftBrace ts₁
  · simp only [hm, hm']
    exact (shifted_mark .semicolon .semicolon ts₁).bind fun _ _ _ _ => .ok
  · simp only [hm, hm']
    exact (shifted_block us).bind fun _ _ _ _ => .ok
termination_by 4 * ts.length + 4

theorem shifted_block (ts : List Token) :
    Shifted f (block ts) (block (moved f ts)) := by
  cases ts with
  | nil =>
    rw [moved_nil, block]
    exact .error
  | cons t ts =>
    rw [moved_cons, block, block, Token.move_kind]
    split
    · exact .ok
    · refine (shifted_statement t ts).bind fun first ts₁ h₁ h₁' => ?_
      have hlt : ts₁.length < ts.length + 1 := h₁
      exact (shifted_block ts₁).bind fun _ _ _ _ => .ok
termination_by 4 * ts.length + 3

end

/-- The fault of tokens that have moved. -/
def Fault.moved (f : Nat → Nat) (fault : Fault) : Fault :=
  ⟨fault.cause, Grammar.moved f fault.rest⟩

theorem statements_of_error {t : Token} {fault : Fault} (h : statement t ts = .error fault) :
    statements (t :: ts) = .error fault := by
  rw [statements, h]
  rfl

/-- Where tokens stand decides nothing but where a fault is. -/
theorem statements_moved (ts : List Token) :
    statements (moved f ts) = (statements ts).mapError (Fault.moved f) := by
  induction hl : ts.length using Nat.strongRecOn generalizing ts with
  | _ l ih =>
    cases ts with
    | nil =>
      rw [moved_nil, statements_nil]
      rfl
    | cons t ts =>
      have hfirst := shifted_statement (f := f) t ts
      generalize hs : statement t ts = x at hfirst
      generalize hs' : statement (t.move f) (moved f ts) = y at hfirst
      rw [moved_cons]
      cases hfirst with
      | @ok first rest h h' =>
        rw [statements_of_gives ⟨h, hs⟩, statements_of_gives ⟨h', hs'⟩]
        rw [ih rest.length (by omega) rest rfl]
        cases statements rest <;> rfl
      | error =>
        rw [statements_of_error hs, statements_of_error hs']
        rfl

def later (k : Nat) (ts : List Token) : List Token :=
  moved (· + k) ts

def Fault.later (k : Nat) (fault : Fault) : Fault :=
  ⟨fault.cause, Grammar.later k fault.rest⟩

theorem statements_later (k : Nat) (ts : List Token) :
    statements (later k ts) = (statements ts).mapError (Fault.later k) :=
  statements_moved ts

end Grammar
end SchemaContract
