import SchemaContract.Proofs.Grammar.Gives

/-!
Derivations: the readings of the rules of expressions as one inductive relation. The rules call each
other at shorter rests only, so what they find is exactly what is derived; properties of everything
that can be read are inductions over derivations.
-/
namespace SchemaContract.Grammar

inductive ItemList where
  | tuple
  | arguments

def ItemList.close : ItemList → Mark
  | tuple => .rightBracket
  | arguments => .rightParen

def ItemList.ending : ItemList → Expectation
  | tuple => .tupleEnd
  | arguments => .argumentsEnd

inductive Phrase where
  | expression (e : Expression)
  | unionOptions (es : List Expression)
  | intersection (e : Expression)
  | intersectionOptions (es : List Expression)
  | operand (e : Expression)
  | primary (e : Expression)
  | listing (place : ItemList) (es : List Expression)
  | items (place : ItemList) (es : List Expression)
  | members (place : MemberList) (ms : List Member)
  | member (ds : List Decorator) (m : Member)
  | default (default? : Option Expression)
  | decorators (ds : List Decorator)
  | arguments (es : List Expression)

def Phrase.Given (ts rest : List Token) : Phrase → Prop
  | expression e => Gives (Grammar.expression ts) e rest
  | unionOptions es => Gives (Grammar.unionOptions ts) es rest
  | intersection e => Gives (Grammar.intersection ts) e rest
  | intersectionOptions es => Gives (Grammar.intersectionOptions ts) es rest
  | operand e => Gives (Grammar.operand ts) e rest
  | primary e => Gives (Grammar.primary ts) e rest
  | listing place es => Gives (Grammar.listing place.close place.ending ts) es rest
  | items place es => Gives (Grammar.items place.close place.ending ts) es rest
  | members place ms => Gives (Grammar.members place ts) ms rest
  | member ds m => Gives (Grammar.member ds ts) m rest
  | default default? => Gives (Grammar.default ts) default? rest
  | decorators ds => Gives (Grammar.decorators ts) ds rest
  | arguments es => Gives (Grammar.arguments ts) es rest

/-- A phrase stands in front of the rest of some tokens. -/
inductive Derives : Phrase → List Token → List Token → Prop where
  | expression {ts mid rest : List Token} {first : Expression} {others : List Expression} :
      Derives (.intersection first) (optionalMark .pipe ts).rest mid →
      Derives (.unionOptions others) mid rest →
      Derives (.expression (unionOf first others)) ts rest
  | noUnionOption {ts : List Token} :
      mark? .pipe ts = none → Derives (.unionOptions []) ts ts
  | unionOption {t : Token} {ts mid rest : List Token} {e : Expression} {es : List Expression} :
      t.kind = .mark .pipe → Derives (.intersection e) ts mid →
      Derives (.unionOptions es) mid rest → Derives (.unionOptions (e :: es)) (t :: ts) rest
  | intersection {ts mid rest : List Token} {first : Expression} {others : List Expression} :
      Derives (.operand first) ts mid → Derives (.intersectionOptions others) mid rest →
      Derives (.intersection (intersectionOf first others)) ts rest
  | noIntersectionOption {ts : List Token} :
      mark? .ampersand ts = none → Derives (.intersectionOptions []) ts ts
  | intersectionOption {t : Token} {ts mid rest : List Token} {e : Expression}
      {es : List Expression} :
      t.kind = .mark .ampersand → Derives (.operand e) ts mid →
      Derives (.intersectionOptions es) mid rest →
      Derives (.intersectionOptions (e :: es)) (t :: ts) rest
  | operand {ts mid : List Token} {e : Expression} :
      Derives (.primary e) ts mid →
      Derives (.operand (arrayBrackets e mid).value) ts (arrayBrackets e mid).rest
  | number {t : Token} {ts : List Token} {value : Binary64} :
      t.kind = .number value → Derives (.primary (.number value)) (t :: ts) ts
  | text {t : Token} {ts : List Token} {value : String} :
      t.kind = .text value → Derives (.primary (.text value)) (t :: ts) ts
  | truth {t : Token} {ts : List Token} {value : Bool} :
      t.kind = .truth value → Derives (.primary (.boolean value)) (t :: ts) ts
  | named {t : Token} {ts rest : List Token} {n : String} {e : Expression} :
      t.kind = .name n → Gives (named n ts) e rest → Derives (.primary e) (t :: ts) rest
  | tuple {t : Token} {ts rest : List Token} {es : List Expression} :
      t.kind = .mark .leftBracket → Derives (.listing .tuple es) ts rest →
      Derives (.primary (.tuple es)) (t :: ts) rest
  | model {t : Token} {ts rest : List Token} {ms : List Member} :
      t.kind = .mark .leftBrace → Derives (.members .body ms) ts rest →
      Derives (.primary (.model ms)) (t :: ts) rest
  | group {t u : Token} {ts rest : List Token} {e : Expression} :
      t.kind = .mark .leftParen → Derives (.expression e) ts (u :: rest) →
      u.kind = .mark .rightParen → Derives (.primary e) (t :: ts) rest
  | noListing {t : Token} {ts : List Token} {place : ItemList} :
      t.kind = .mark place.close → Derives (.listing place []) (t :: ts) ts
  | listing {ts rest : List Token} {place : ItemList} {es : List Expression} :
      mark? place.close ts = none → Derives (.items place es) ts rest →
      Derives (.listing place es) ts rest
  | lastItem {t : Token} {ts rest : List Token} {place : ItemList}
      {e : Expression} :
      Derives (.expression e) ts (t :: rest) → mark? .comma (t :: rest) = none →
      t.kind = .mark place.close → Derives (.items place [e]) ts rest
  | item {t : Token} {ts mid rest : List Token} {place : ItemList}
      {e : Expression} {es : List Expression} :
      Derives (.expression e) ts (t :: mid) → t.kind = .mark .comma →
      Derives (.items place es) mid rest → Derives (.items place (e :: es)) ts rest
  | noMembers {t : Token} {ts : List Token} {place : MemberList} :
      t.kind = .mark place.close → Derives (.members place []) (t :: ts) ts
  | members {ts ts₁ ts₂ ts₃ rest : List Token} {place : MemberList} {ds : List Decorator}
      {m : Member} {ms : List Member} :
      mark? place.close ts = none → Derives (.decorators ds) ts ts₁ →
      Derives (.member ds m) ts₁ ts₂ → Gives (separator place.close place.separator ts₂) () ts₃ →
      Derives (.members place ms) ts₃ rest → Derives (.members place (m :: ms)) ts rest
  | spread {t : Token} {ts rest : List Token} {ds : List Decorator} {e : Expression} :
      t.kind = .mark .ellipsis → Derives (.expression e) ts rest →
      Derives (.member ds (.spread e)) (t :: ts) rest
  | property {t u : Token} {ts ts₁ ts₂ rest : List Token} {ds : List Decorator} {k : Key}
      {type : Expression} {default? : Option Expression} :
      t.kind = k.token → (optionalMark .question ts).rest = u :: ts₁ → u.kind = .mark .colon →
      Derives (.expression type) ts₁ ts₂ → Derives (.default default?) ts₂ rest →
      Derives (.member ds (.property ⟨k, type, (optionalMark .question ts).value, default?, ds⟩))
        (t :: ts) rest
  | noDefault {ts : List Token} :
      mark? .equals ts = none → Derives (.default none) ts ts
  | default {t : Token} {ts rest : List Token} {e : Expression} :
      t.kind = .mark .equals → Derives (.expression e) ts rest →
      Derives (.default (some e)) (t :: ts) rest
  | noDecorator {ts : List Token} :
      mark? .atSign ts = none → Derives (.decorators []) ts ts
  | decorator {t : Token} {ts ts₁ ts₂ rest : List Token} {target : String}
      {es : List Expression} {ds : List Decorator} :
      t.kind = .mark .atSign → Gives (dottedName ts) target ts₁ →
      Derives (.arguments es) ts₁ ts₂ → Derives (.decorators ds) ts₂ rest →
      Derives (.decorators (⟨target, es⟩ :: ds)) (t :: ts) rest
  | noArguments {ts : List Token} :
      mark? .leftParen ts = none → Derives (.arguments []) ts ts
  | arguments {t : Token} {ts rest : List Token} {es : List Expression} :
      t.kind = .mark .leftParen → Derives (.listing .arguments es) ts rest →
      Derives (.arguments es) (t :: ts) rest

theorem Derives.given {φ : Phrase} {ts rest : List Token} (h : Derives φ ts rest) :
    φ.Given ts rest := by
  induction h with
  | expression _ _ ih₁ ih₂ => exact gives_expression_iff.2 ⟨_, _, ih₁, _, ih₂, rfl⟩
  | noUnionOption h => exact (gives_unionOptions_of_none h).2 ⟨rfl, rfl⟩
  | unionOption h _ _ ih₁ ih₂ =>
    exact (gives_unionOptions_cons h).2 ⟨_, _, ih₁, _, ih₂, rfl⟩
  | intersection _ _ ih₁ ih₂ => exact gives_intersection_iff.2 ⟨_, _, ih₁, _, ih₂, rfl⟩
  | noIntersectionOption h => exact (gives_intersectionOptions_of_none h).2 ⟨rfl, rfl⟩
  | intersectionOption h _ _ ih₁ ih₂ =>
    exact (gives_intersectionOptions_cons h).2 ⟨_, _, ih₁, _, ih₂, rfl⟩
  | operand _ ih => exact gives_operand_iff.2 ⟨_, _, ih, rfl, rfl⟩
  | number h => exact (gives_primary_number_iff h).2 ⟨rfl, rfl⟩
  | text h => exact (gives_primary_text_iff h).2 ⟨rfl, rfl⟩
  | truth h => exact (gives_primary_truth_iff h).2 ⟨rfl, rfl⟩
  | named h hn => exact (gives_primary_name_iff h).2 hn
  | tuple h _ ih => exact (gives_primary_tuple_iff h).2 ⟨_, ih, rfl⟩
  | model h _ ih => exact (gives_primary_model_iff h).2 ⟨_, ih, rfl⟩
  | group h _ hu ih => exact (gives_primary_group_iff h).2 ⟨_, ih, hu⟩
  | noListing h => exact (gives_listing_cons h).2 ⟨rfl, rfl⟩
  | listing h _ ih => exact (gives_listing_of_none h).2 ih
  | lastItem _ hc ht ih => exact gives_items_iff.2 ⟨_, _, ih, .inr ⟨hc, rfl, _, rfl, ht⟩⟩
  | item _ ht _ ih₁ ih₂ =>
    exact gives_items_iff.2 ⟨_, _, ih₁, .inl ⟨_, _, rfl, ht, _, ih₂, rfl⟩⟩
  | noMembers h => exact (gives_members_cons h).2 ⟨rfl, rfl⟩
  | members h _ _ hs _ ih₁ ih₂ ih₃ =>
    exact (gives_members_of_none h).2 ⟨_, _, ih₁, _, _, ih₂, _, hs, _, ih₃, rfl⟩
  | spread h _ ih => exact (gives_member_cons h).2 ⟨_, ih, rfl⟩
  | @property _ _ _ _ _ _ _ k _ _ ht hu hc _ _ ih₁ ih₂ =>
    refine (gives_member_of_none (mark?_cons_of_ne ?_)).2
      ⟨_, _, gives_key_iff.2 ⟨_, rfl, ht⟩, _, _, hu, hc, _, _, ih₁, _, ih₂, rfl⟩
    rw [ht]
    exact k.token_ne_mark _
  | noDefault h => exact (gives_default_of_none h).2 ⟨rfl, rfl⟩
  | default h _ ih => exact (gives_default_cons h).2 ⟨_, ih, rfl⟩
  | noDecorator h => exact (gives_decorators_of_none h).2 ⟨rfl, rfl⟩
  | decorator h hn _ _ ih₁ ih₂ =>
    exact (gives_decorators_cons h).2 ⟨_, _, hn, _, _, ih₁, _, ih₂, rfl⟩
  | noArguments h => exact (gives_arguments_of_none h).2 ⟨rfl, rfl⟩
  | arguments h _ ih => exact (gives_arguments_cons h).2 ih

/-- The rules of one phrase may call each other without reading a token, in this order only. -/
def Phrase.rank : Phrase → Nat
  | listing .. => 5
  | items .. => 4
  | expression _ => 3
  | intersection _ => 2
  | operand _ | members .. => 1
  | _ => 0

/-- What the rules find is derived. The induction is on the tokens that are left. -/
theorem Phrase.Given.derives {φ : Phrase} {ts rest : List Token} (h : φ.Given ts rest) :
    Derives φ ts rest := by
  generalize hn : 8 * ts.length + φ.rank = n
  induction n using Nat.strongRecOn generalizing φ ts rest with
  | _ n ih =>
    have step {ψ : Phrase} {us us' : List Token} (hg : ψ.Given us us')
        (hlt : 8 * us.length + ψ.rank < n) : Derives ψ us us' := ih _ hlt hg rfl
    cases φ with
    | expression e =>
      obtain ⟨first, mid, h₁, others, h₂, rfl⟩ := gives_expression_iff.1 h
      have hp := (optionalMark .pipe ts).within
      have hm := h₁.length_lt
      simp only [rank] at hn
      exact .expression (step (ψ := .intersection first) h₁ (by simp only [rank]; omega))
        (step (ψ := .unionOptions others) h₂ (by simp only [rank]; omega))
    | unionOptions es =>
      rcases mark?_cases .pipe ts with hp | ⟨t, us, rfl, ht⟩
      · obtain ⟨rfl, rfl⟩ := (gives_unionOptions_of_none hp).1 h
        exact .noUnionOption hp
      · obtain ⟨option, mid, h₁, others, h₂, rfl⟩ := (gives_unionOptions_cons ht).1 h
        have hm := h₁.length_lt
        simp only [rank, List.length_cons] at hn
        exact .unionOption ht (step (ψ := .intersection option) h₁ (by simp only [rank]; omega))
          (step (ψ := .unionOptions others) h₂ (by simp only [rank]; omega))
    | intersection e =>
      obtain ⟨first, mid, h₁, others, h₂, rfl⟩ := gives_intersection_iff.1 h
      have hm := h₁.length_lt
      simp only [rank] at hn
      exact .intersection (step (ψ := .operand first) h₁ (by simp only [rank]; omega))
        (step (ψ := .intersectionOptions others) h₂ (by simp only [rank]; omega))
    | intersectionOptions es =>
      rcases mark?_cases .ampersand ts with hp | ⟨t, us, rfl, ht⟩
      · obtain ⟨rfl, rfl⟩ := (gives_intersectionOptions_of_none hp).1 h
        exact .noIntersectionOption hp
      · obtain ⟨option, mid, h₁, others, h₂, rfl⟩ := (gives_intersectionOptions_cons ht).1 h
        have hm := h₁.length_lt
        simp only [rank, List.length_cons] at hn
        exact .intersectionOption ht (step (ψ := .operand option) h₁ (by simp only [rank]; omega))
          (step (ψ := .intersectionOptions others) h₂ (by simp only [rank]; omega))
    | operand e =>
      obtain ⟨element, mid, h₁, rfl, rfl⟩ := gives_operand_iff.1 h
      simp only [rank] at hn
      exact .operand (step (ψ := .primary element) h₁ (by simp only [rank]; omega))
    | primary e =>
      cases ts with
      | nil => exact absurd h not_gives_primary_nil
      | cons t ts =>
        simp only [rank, List.length_cons] at hn
        cases ht : t.kind with
        | number value =>
          obtain ⟨rfl, rfl⟩ := (gives_primary_number_iff ht).1 h
          exact .number ht
        | text value =>
          obtain ⟨rfl, rfl⟩ := (gives_primary_text_iff ht).1 h
          exact .text ht
        | truth value =>
          obtain ⟨rfl, rfl⟩ := (gives_primary_truth_iff ht).1 h
          exact .truth ht
        | name n => exact .named ht ((gives_primary_name_iff ht).1 h)
        | mark m =>
          by_cases hm : m ∈ [.leftBracket, .leftBrace, .leftParen]
          · simp only [List.mem_cons, List.not_mem_nil, or_false] at hm
            rcases hm with rfl | rfl | rfl
            · obtain ⟨es, h₁, rfl⟩ := (gives_primary_tuple_iff ht).1 h
              exact .tuple ht (step (ψ := .listing .tuple es) h₁
                (by simp only [rank]; omega))
            · obtain ⟨ms, h₁, rfl⟩ := (gives_primary_model_iff ht).1 h
              exact .model ht (step (ψ := .members .body ms) h₁ (by simp only [rank]; omega))
            · obtain ⟨u, h₁, hu⟩ := (gives_primary_group_iff ht).1 h
              exact .group ht (step (ψ := .expression e) h₁ (by simp only [rank]; omega)) hu
          · exact absurd h (not_gives_primary_mark ht hm)
    | listing place es =>
      simp only [rank] at hn
      rcases mark?_cases place.close ts with hc | ⟨t, us, rfl, ht⟩
      · exact .listing hc (step (ψ := .items place es) ((gives_listing_of_none hc).1 h)
          (by simp only [rank]; omega))
      · obtain ⟨rfl, rfl⟩ := (gives_listing_cons ht).1 h
        exact .noListing ht
    | items place es =>
      obtain ⟨item, mid, h₁, hend⟩ := gives_items_iff.1 h
      have hm := h₁.length_lt
      simp only [rank] at hn
      have hd := step (ψ := .expression item) h₁ (by simp only [rank]; omega)
      rcases hend with ⟨t, us, rfl, ht, others, h₂, rfl⟩ | ⟨hc, rfl, t, rfl, ht⟩
      · rw [List.length_cons] at hm
        exact .item hd ht (step (ψ := .items place others) h₂ (by simp only [rank]; omega))
      · exact .lastItem hd hc ht
    | members place ms =>
      rcases mark?_cases place.close ts with hc | ⟨t, us, rfl, ht⟩
      · obtain ⟨ds, ts₁, h₁, first, ts₂, h₂, ts₃, hs, others, h₃, rfl⟩ :=
          (gives_members_of_none hc).1 h
        have hm₁ := h₁.length_lt
        have hm₂ := h₂.length_lt
        have hm₃ := hs.length_lt
        simp only [rank] at hn
        exact .members hc (step (ψ := .decorators ds) h₁ (by simp only [rank]; omega))
          (step (ψ := .member ds first) h₂ (by simp only [rank]; omega)) hs
          (step (ψ := .members place others) h₃ (by simp only [rank]; omega))
      · obtain ⟨rfl, rfl⟩ := (gives_members_cons ht).1 h
        exact .noMembers ht
    | member ds m =>
      rcases mark?_cases .ellipsis ts with he | ⟨t, us, rfl, ht⟩
      · obtain ⟨k, ts₁, hk, u, ts₂, hu, hc, type, ts₃, h₁, default?, h₂, rfl⟩ :=
          (gives_member_of_none he).1 h
        obtain ⟨t, rfl, ht⟩ := gives_key_iff.1 hk
        have hm₁ := (optionalMark .question ts₁).within
        have hm₂ := h₁.length_lt
        simp only [rank, List.length_cons] at hn
        rw [hu, List.length_cons] at hm₁
        exact .property ht hu hc (step (ψ := .expression type) h₁ (by simp only [rank]; omega))
          (step (ψ := .default default?) h₂ (by simp only [rank]; omega))
      · obtain ⟨target, h₁, rfl⟩ := (gives_member_cons ht).1 h
        simp only [rank, List.length_cons] at hn
        exact .spread ht (step (ψ := .expression target) h₁ (by simp only [rank]; omega))
    | default default? =>
      rcases mark?_cases .equals ts with he | ⟨t, us, rfl, ht⟩
      · obtain ⟨rfl, rfl⟩ := (gives_default_of_none he).1 h
        exact .noDefault he
      · obtain ⟨value, h₁, rfl⟩ := (gives_default_cons ht).1 h
        simp only [rank, List.length_cons] at hn
        exact .default ht (step (ψ := .expression value) h₁ (by simp only [rank]; omega))
    | decorators ds =>
      rcases mark?_cases .atSign ts with ha | ⟨t, us, rfl, ht⟩
      · obtain ⟨rfl, rfl⟩ := (gives_decorators_of_none ha).1 h
        exact .noDecorator ha
      · obtain ⟨target, ts₁, hd, es, ts₂, h₁, others, h₂, rfl⟩ := (gives_decorators_cons ht).1 h
        have hm₁ := hd.length_lt
        have hm₂ := h₁.length_lt
        simp only [rank, List.length_cons] at hn
        exact .decorator ht hd (step (ψ := .arguments es) h₁ (by simp only [rank]; omega))
          (step (ψ := .decorators others) h₂ (by simp only [rank]; omega))
    | arguments es =>
      rcases mark?_cases .leftParen ts with hp | ⟨t, us, rfl, ht⟩
      · obtain ⟨rfl, rfl⟩ := (gives_arguments_of_none hp).1 h
        exact .noArguments hp
      · have h₁ := (gives_arguments_cons ht).1 h
        simp only [rank, List.length_cons] at hn
        exact .arguments ht (step (ψ := .listing .arguments es) h₁
          (by simp only [rank]; omega))

end SchemaContract.Grammar
