import SchemaContract.Proofs.Grammar.Derivation
import SchemaContract.Proofs.Grammar.Names

/-!
How expressions are written. The relation between a syntax tree and its tokens is the grammar by
itself: it says where parentheses, leading bars and separators may stand, and nothing about how
tokens are read. Offsets are free.
-/
namespace SchemaContract

def Token.IsSeparator (t : Token) : Prop :=
  t.kind = .mark .semicolon ∨ t.kind = .mark .comma

namespace Grammar

inductive WrittenMark (m : Mark) : Bool → List Token → Prop where
  | absent : WrittenMark m false []
  | present {t : Token} : t.kind = .mark m → WrittenMark m true [t]

/-- Names between dots. -/
inductive WrittenName : String → List Token → Prop where
  | single {t : Token} {n : String} : t.kind = .name n → WrittenName n [t]
  | dotted {t u : Token} {ts : List Token} {n part : String} :
      WrittenName n ts → t.kind = .mark .dot → u.kind = .name part →
      WrittenName (n ++ "." ++ part) (ts ++ [t, u])

inductive WrittenPath : Expression → List Token → Prop where
  | reference {t : Token} {n : String} :
      t.kind = .name n → n ∉ typeKeywords → WrittenPath (.reference n) [t]
  | member {t u : Token} {ts : List Token} {base : Expression} {n : String} :
      WrittenPath base ts → t.kind = .mark .dot → u.kind = .name n →
      WrittenPath (.member base n) (ts ++ [t, u])

/-- The tokens that a phrase may be written as. Listings and members have their closing mark. -/
inductive Written : Phrase → List Token → Prop where
  | expression {lead ts us : List Token} {bar : Bool} {first : Expression}
      {others : List Expression} :
      WrittenMark .pipe bar lead → Written (.intersection first) ts →
      Written (.unionOptions others) us →
      Written (.expression (unionOf first others)) (lead ++ (ts ++ us))
  | noUnionOption : Written (.unionOptions []) []
  | unionOption {t : Token} {ts us : List Token} {e : Expression} {es : List Expression} :
      t.kind = .mark .pipe → Written (.intersection e) ts → Written (.unionOptions es) us →
      Written (.unionOptions (e :: es)) (t :: (ts ++ us))
  | intersection {ts us : List Token} {first : Expression} {others : List Expression} :
      Written (.operand first) ts → Written (.intersectionOptions others) us →
      Written (.intersection (intersectionOf first others)) (ts ++ us)
  | noIntersectionOption : Written (.intersectionOptions []) []
  | intersectionOption {t : Token} {ts us : List Token} {e : Expression} {es : List Expression} :
      t.kind = .mark .ampersand → Written (.operand e) ts → Written (.intersectionOptions es) us →
      Written (.intersectionOptions (e :: es)) (t :: (ts ++ us))
  | operand {ts : List Token} {e : Expression} : Written (.primary e) ts → Written (.operand e) ts
  | array {t u : Token} {ts : List Token} {e : Expression} :
      Written (.operand e) ts → t.kind = .mark .leftBracket → u.kind = .mark .rightBracket →
      Written (.operand (.array e)) (ts ++ [t, u])
  | number {t : Token} {value : Binary64} :
      t.kind = .number value → Written (.primary (.number value)) [t]
  | text {t : Token} {value : String} :
      t.kind = .text value → Written (.primary (.text value)) [t]
  | truth {t : Token} {value : Bool} :
      t.kind = .truth value → Written (.primary (.boolean value)) [t]
  | keyword {t : Token} {n : String} {e : Expression} :
      t.kind = .name n → keywordType? n = some e → Written (.primary e) [t]
  | path {ts : List Token} {e : Expression} : WrittenPath e ts → Written (.primary e) ts
  | tuple {t : Token} {ts : List Token} {es : List Expression} :
      t.kind = .mark .leftBracket → Written (.listing .tuple es) ts →
      Written (.primary (.tuple es)) (t :: ts)
  | model {t : Token} {ts : List Token} {ms : List Member} :
      t.kind = .mark .leftBrace → Written (.members .body ms) ts →
      Written (.primary (.model ms)) (t :: ts)
  | group {t u : Token} {ts : List Token} {e : Expression} :
      t.kind = .mark .leftParen → Written (.expression e) ts → u.kind = .mark .rightParen →
      Written (.primary e) (t :: (ts ++ [u]))
  | noListing {t : Token} {place : ItemList} :
      t.kind = .mark place.close → Written (.listing place []) [t]
  | listing {ts : List Token} {place : ItemList} {es : List Expression} :
      Written (.items place es) ts → Written (.listing place es) ts
  | lastItem {t : Token} {ts : List Token} {place : ItemList} {e : Expression} :
      Written (.expression e) ts → t.kind = .mark place.close →
      Written (.items place [e]) (ts ++ [t])
  | item {t : Token} {ts us : List Token} {place : ItemList} {e : Expression}
      {es : List Expression} :
      Written (.expression e) ts → t.kind = .mark .comma → Written (.items place es) us →
      Written (.items place (e :: es)) (ts ++ t :: us)
  | noMembers {t : Token} {place : MemberList} :
      t.kind = .mark place.close → Written (.members place []) [t]
  | lastMember {t : Token} {ts us : List Token} {place : MemberList} {ds : List Decorator}
      {m : Member} :
      Written (.decorators ds) ts → Written (.member ds m) us → t.kind = .mark place.close →
      Written (.members place [m]) (ts ++ (us ++ [t]))
  | members {t : Token} {ts us vs : List Token} {place : MemberList} {ds : List Decorator}
      {m : Member} {ms : List Member} :
      Written (.decorators ds) ts → Written (.member ds m) us → t.IsSeparator →
      Written (.members place ms) vs → Written (.members place (m :: ms)) (ts ++ (us ++ t :: vs))
  | spread {t : Token} {ts : List Token} {ds : List Decorator} {e : Expression} :
      t.kind = .mark .ellipsis → Written (.expression e) ts →
      Written (.member ds (.spread e)) (t :: ts)
  | property {t u : Token} {mark ts us : List Token} {ds : List Decorator} {k : Key}
      {type : Expression} {optional : Bool} {default? : Option Expression} :
      t.kind = k.token → WrittenMark .question optional mark → u.kind = .mark .colon →
      Written (.expression type) ts → Written (.default default?) us →
      Written (.member ds (.property ⟨k, type, optional, default?, ds⟩))
        (t :: (mark ++ u :: (ts ++ us)))
  | noDefault : Written (.default none) []
  | default {t : Token} {ts : List Token} {e : Expression} :
      t.kind = .mark .equals → Written (.expression e) ts → Written (.default (some e)) (t :: ts)
  | noDecorator : Written (.decorators []) []
  | decorator {t : Token} {ns ts us : List Token} {target : String} {es : List Expression}
      {ds : List Decorator} :
      t.kind = .mark .atSign → WrittenName target ns → Written (.arguments es) ts →
      Written (.decorators ds) us →
      Written (.decorators (⟨target, es⟩ :: ds)) (t :: (ns ++ (ts ++ us)))
  | noArguments : Written (.arguments []) []
  | arguments {t : Token} {ts : List Token} {es : List Expression} :
      t.kind = .mark .leftParen → Written (.listing .arguments es) ts →
      Written (.arguments es) (t :: ts)

end Grammar
end SchemaContract
