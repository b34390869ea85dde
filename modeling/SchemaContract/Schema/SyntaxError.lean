import SchemaContract.Schema.Position
import SchemaContract.Schema.Token

/-!
What can be wrong with a source text: causes found in the characters, causes found in the tokens,
and their messages.
-/
namespace SchemaContract

inductive Expectation where
  | namespaceEnd | importPath | semicolon
  | aliasName | aliasEquals
  | modelName | modelBody | memberSeparator | parameterSeparator
  | propertyName | propertyColon
  | enumerationName | enumerationBody | caseName | caseSeparator
  | interfaceName | interfaceBody | operationSeparator
  | operationName | parameterList | resultColon
  | unionName | unionBody | variantName | variantColon | variantSeparator
  | identifier | identifierAfterDot
  | argumentsEnd | tupleEnd | groupEnd | projectionBody
deriving DecidableEq, Repr

def Expectation.text : Expectation → String
  | namespaceEnd => "'\x7d' to close namespace block"
  | importPath => "import path string"
  | semicolon => "';'"
  | aliasName => "alias name"
  | aliasEquals => "'=' after alias name"
  | modelName => "model name"
  | modelBody => "'\x7b' or 'is' after model name"
  | memberSeparator => "';', ',' or '\x7d'"
  | parameterSeparator => "';', ',' or ')'"
  | propertyName => "property name"
  | propertyColon => "':' after property name"
  | enumerationName => "enum name"
  | enumerationBody => "'\x7b' after enum name"
  | caseName => "enum member name"
  | caseSeparator => "',' or '\x7d' in enum body"
  | interfaceName => "interface name"
  | interfaceBody => "'\x7b' after interface name"
  | operationSeparator => "';' after operation"
  | operationName => "operation name"
  | parameterList => "'(' after operation name"
  | resultColon => "':' before return type"
  | unionName => "union name"
  | unionBody => "'\x7b' after union name"
  | variantName => "union variant name"
  | variantColon => "':' after variant name"
  | variantSeparator => "',' or '\x7d' in union body"
  | identifier => "identifier"
  | identifierAfterDot => "identifier after '.'"
  | argumentsEnd => "')' after decorator arguments"
  | tupleEnd => "']' after tuple elements"
  | groupEnd => "')' after expression"
  | projectionBody => "'\x7b' in projection statement"

namespace SyntaxError

inductive Cause where
  | strayCharacter (c : Char)
  | twoDots
  | openComment
  | openText
  | openEscape
  | badNumber (spelling : String)
  | expected (what : Expectation)
  /-- No expression begins with this mark, or with the end of the text. -/
  | unexpected (mark? : Option Mark)
  | templateParameters
  | templateArguments
  | openBrace
deriving DecidableEq, Repr

def Cause.message : Cause → String
  | strayCharacter c => "unexpected character '" ++ String.singleton c ++ "'"
  | twoDots => "unexpected '..'; expected '...'"
  | openComment => "unterminated block comment"
  | openText => "unterminated string literal"
  | openEscape => "unterminated escape sequence"
  | badNumber spelling => "invalid number literal '" ++ spelling ++ "': invalid float literal"
  | expected what => "expected " ++ what.text
  | unexpected (some mark) => "unexpected token " ++ mark.name
  | unexpected none => "unexpected token Eof"
  | templateParameters => "template parameters are not supported"
  | templateArguments => "template arguments are not supported"
  | openBrace => "unbalanced '\x7b'"

end SyntaxError

structure SyntaxError where
  position : Position
  cause : SyntaxError.Cause
deriving DecidableEq, Repr

def SyntaxError.message (e : SyntaxError) : String :=
  "parse error at " ++ Nat.repr e.position.line ++ ":" ++ Nat.repr e.position.column ++ ": " ++
    e.cause.message

end SchemaContract
