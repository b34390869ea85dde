import SchemaContract.Grammar.Statement
import SchemaContract.Proofs.Grammar.Written

/-!
How declarations, statements and programs are written. Decorators may stand before every statement
with a keyword and before spreads and variants too, where nothing keeps them.
-/
namespace SchemaContract

namespace Grammar

/-- Elements with a separator behind each but the last, where it may be left out, and a closing
brace. -/
inductive WrittenList {α : Type} (element : α → List Token → Prop) :
    List α → List Token → Prop where
  | none {t : Token} : t.kind = .mark .rightBrace → WrittenList element [] [t]
  | last {t : Token} {ts : List Token} {a : α} :
      element a ts → t.kind = .mark .rightBrace → WrittenList element [a] (ts ++ [t])
  | more {t : Token} {ts us : List Token} {a : α} {as : List α} :
      element a ts → t.IsSeparator → WrittenList element as us →
      WrittenList element (a :: as) (ts ++ t :: us)

/-- A case of an enumeration. Its value, or the target of a spread, has no operators. -/
inductive WrittenCase : Case → List Token → Prop where
  | spread {t : Token} {ts us : List Token} {ds : List Decorator} {e : Expression} :
      Written (.decorators ds) ts → t.kind = .mark .ellipsis → Written (.primary e) us →
      WrittenCase (.spread e) (ts ++ t :: us)
  | plain {t : Token} {ts : List Token} {ds : List Decorator} {k : Key} :
      Written (.decorators ds) ts → t.kind = k.token → WrittenCase (.plain k none ds) (ts ++ [t])
  | valued {t u : Token} {ts us : List Token} {ds : List Decorator} {k : Key} {e : Expression} :
      Written (.decorators ds) ts → t.kind = k.token → u.kind = .mark .colon →
      Written (.primary e) us → WrittenCase (.plain k (some e) ds) (ts ++ t :: u :: us)

inductive WrittenSignature : Operation → List Token → Prop where
  | signature {t u v : Token} {ts us : List Token} {n : String} {ds : List Decorator}
      {ps : List Member} {e : Expression} :
      t.kind = .name n → u.kind = .mark .leftParen → Written (.members .parameters ps) ts →
      v.kind = .mark .colon → Written (.expression e) us →
      WrittenSignature ⟨n, ds, ps, e⟩ (t :: u :: (ts ++ v :: us))

/-- An operation of an interface. The keyword may be left out, but not before an operation that has
the keyword for its name. -/
inductive WrittenOperation : Operation → List Token → Prop where
  | short {ts us : List Token} {o : Operation} :
      Written (.decorators o.decorators) ts → o.name ≠ "op" → WrittenSignature o us →
      WrittenOperation o (ts ++ us)
  | long {t : Token} {ts us : List Token} {o : Operation} :
      Written (.decorators o.decorators) ts → t.kind = .name "op" → WrittenSignature o us →
      WrittenOperation o (ts ++ t :: us)

inductive WrittenVariant : Variant → List Token → Prop where
  | variant {t u : Token} {ts us : List Token} {ds : List Decorator} {k : Key}
      {e : Expression} :
      Written (.decorators ds) ts → t.kind = k.token → u.kind = .mark .colon →
      Written (.expression e) us → WrittenVariant ⟨k, e⟩ (ts ++ t :: u :: us)

inductive WrittenModel : Option Expression → List Member → List Token → Prop where
  | body {t : Token} {ts : List Token} {ms : List Member} :
      t.kind = .mark .leftBrace → Written (.members .body ms) ts → WrittenModel none ms (t :: ts)
  | target {t u : Token} {ts : List Token} {e : Expression} :
      t.kind = .name "is" → Written (.expression e) ts → u.kind = .mark .semicolon →
      WrittenModel (some e) [] (t :: (ts ++ [u]))
  | both {t u : Token} {ts us : List Token} {e : Expression} {ms : List Member} :
      t.kind = .name "is" → Written (.expression e) ts → u.kind = .mark .leftBrace →
      Written (.members .body ms) us → WrittenModel (some e) ms (t :: (ts ++ u :: us))

inductive Balanced : List Token → Prop where
  | nil : Balanced []
  | cons {t : Token} {ts : List Token} :
      t.kind ≠ .mark .leftBrace → t.kind ≠ .mark .rightBrace → Balanced ts → Balanced (t :: ts)
  | block {t u : Token} {ts us : List Token} :
      t.kind = .mark .leftBrace → Balanced ts → u.kind = .mark .rightBrace → Balanced us →
      Balanced (t :: (ts ++ u :: us))

inductive WrittenDeclaration (ds : List Decorator) : Statement → List Token → Prop where
  | empty {t : Token} : t.kind = .mark .semicolon → WrittenDeclaration ds .empty [t]
  | importPath {t u v : Token} {path : String} :
      t.kind = .name "import" → u.kind = .text path → v.kind = .mark .semicolon →
      WrittenDeclaration ds (.importPath path) [t, u, v]
  | usingName {t u : Token} {ts : List Token} {n : String} :
      t.kind = .name "using" → WrittenName n ts → u.kind = .mark .semicolon →
      WrittenDeclaration ds (.usingName n) (t :: (ts ++ [u]))
  | emptyScope {t u : Token} {ts : List Token} {n : String} :
      t.kind = .name "namespace" → WrittenName n ts → u.kind = .mark .semicolon →
      WrittenDeclaration ds (.scope n ds []) (t :: (ts ++ [u]))
  | model {t u : Token} {ts : List Token} {n : String} {target? : Option Expression}
      {ms : List Member} :
      t.kind = .name "model" → u.kind = .name n → WrittenModel target? ms ts →
      WrittenDeclaration ds (.model ⟨n, ds, target?, ms⟩) (t :: u :: ts)
  | enumeration {t u v : Token} {ts : List Token} {n : String} {cs : List Case} :
      t.kind = .name "enum" → u.kind = .name n → v.kind = .mark .leftBrace →
      WrittenList WrittenCase cs ts →
      WrittenDeclaration ds (.enumeration ⟨n, ds, cs⟩) (t :: u :: v :: ts)
  | interface {t u v : Token} {ts : List Token} {n : String} {os : List Operation} :
      t.kind = .name "interface" → u.kind = .name n → v.kind = .mark .leftBrace →
      WrittenList WrittenOperation os ts →
      WrittenDeclaration ds (.interface ⟨n, ds, os⟩) (t :: u :: v :: ts)
  | operation {t u : Token} {ts : List Token} {o : Operation} :
      t.kind = .name "op" → o.decorators = ds → WrittenSignature o ts →
      u.kind = .mark .semicolon → WrittenDeclaration ds (.operation o) (t :: (ts ++ [u]))
  | union {t u v : Token} {ts : List Token} {n : String} {vs : List Variant} :
      t.kind = .name "union" → u.kind = .name n → v.kind = .mark .leftBrace →
      WrittenList WrittenVariant vs ts →
      WrittenDeclaration ds (.union n ds vs) (t :: u :: v :: ts)
  | typeAlias {t u v w : Token} {ts : List Token} {n : String} {e : Expression} :
      t.kind = .name "alias" → u.kind = .name n → v.kind = .mark .equals →
      Written (.expression e) ts → w.kind = .mark .semicolon →
      WrittenDeclaration ds (.typeAlias n e) (t :: u :: v :: (ts ++ [w]))
  | projection {t u v : Token} {ts us : List Token} :
      t.kind = .name "projection" → (∀ w ∈ ts, w.kind ≠ .mark .leftBrace) →
      u.kind = .mark .leftBrace → Balanced us → v.kind = .mark .rightBrace →
      WrittenDeclaration ds .projection (t :: (ts ++ u :: (us ++ [v])))

def BeginsSkipped (t : Token) : Prop :=
  t.kind ∉ [.mark .semicolon, .mark .rightBrace, .mark .atSign] ∧
    ∀ word, t.kind = .name word → Keyword.ofName? word = none

/-- What is skipped: tokens up to a semicolon or up to a block and its end. -/
inductive WrittenSkipped : List Token → Prop where
  | semicolon {t : Token} : t.kind = .mark .semicolon → WrittenSkipped [t]
  | block {t u : Token} {ts : List Token} :
      t.kind = .mark .leftBrace → Balanced ts → u.kind = .mark .rightBrace →
      WrittenSkipped (t :: (ts ++ [u]))
  | cons {t : Token} {ts : List Token} :
      t.kind ∉ [.mark .semicolon, .mark .leftBrace, .mark .rightBrace] → WrittenSkipped ts →
      WrittenSkipped (t :: ts)

inductive WrittenStatements : List Statement → List Token → Prop where
  | nil : WrittenStatements [] []
  | declaration {ts us vs : List Token} {ds : List Decorator} {s : Statement}
      {ss : List Statement} :
      Written (.decorators ds) ts → WrittenDeclaration ds s us → WrittenStatements ss vs →
      WrittenStatements (s :: ss) (ts ++ (us ++ vs))
  | scope {t u v : Token} {ts ns us vs : List Token} {ds : List Decorator} {n : String}
      {inner ss : List Statement} :
      Written (.decorators ds) ts → t.kind = .name "namespace" → WrittenName n ns →
      u.kind = .mark .leftBrace → WrittenStatements inner us → v.kind = .mark .rightBrace →
      WrittenStatements ss vs →
      WrittenStatements (.scope n ds inner :: ss) (ts ++ t :: (ns ++ u :: (us ++ v :: vs)))
  | invalid {t : Token} {ts us : List Token} {ss : List Statement} :
      BeginsSkipped t → WrittenSkipped (t :: ts) → WrittenStatements ss us →
      WrittenStatements (.invalid :: ss) (t :: (ts ++ us))

end Grammar

def Program.Written (p : Program) (ts : List Token) : Prop :=
  Grammar.WrittenStatements p.statements ts

end SchemaContract
