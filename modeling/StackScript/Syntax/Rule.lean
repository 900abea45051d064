import StackScript.Grammar.Match

/-!
# The grammar of units

The rules of the surface language and their productions. A unit is an optional package declaration
and a sequence of classes, methods and statements, separated by line ends or semicolons; blanks,
escaped line ends and comments may stand in any gap.
-/

namespace StackScript.Syntax

open StackScript.Grammar StackScript.Source

/-- The rules of the grammar, in the order in which a fault lists them. -/
inductive Rule where
  | finish
  | program | packageDecl | qualifiedName | keyword | identifier | constant
  | classDef | methodDef | selfPrefix | paramList | parameter | returnType | typeRef
  | block | ifStmt | elsifClause | elseClause | whileStmt | returnStmt | putsStmt | raiseStmt
  | assignment | exprStmt
  | expression | opNegate | opNot | opOr | opAnd | opEq | opNe | opLe | opGe | opLt | opGt
  | opAdd | opSub | opMul | opDiv | opMod
  | term | indexOp | lengthOp | boolean | integer | string | stringContent
  | staticCall | localCall | localName | argList
  deriving DecidableEq, Repr

/-- All rules, in order. -/
def Rule.all : List Rule :=
  [.finish, .program, .packageDecl, .qualifiedName, .keyword, .identifier, .constant, .classDef,
    .methodDef, .selfPrefix, .paramList, .parameter, .returnType, .typeRef, .block, .ifStmt,
    .elsifClause, .elseClause, .whileStmt, .returnStmt, .putsStmt, .raiseStmt, .assignment,
    .exprStmt, .expression, .opNegate, .opNot, .opOr, .opAnd, .opEq, .opNe, .opLe, .opGe, .opLt,
    .opGt, .opAdd, .opSub, .opMul, .opDiv, .opMod, .term, .indexOp, .lengthOp, .boolean, .integer,
    .string, .stringContent, .staticCall, .localCall, .localName, .argList]

/-! ## Characters -/

/-- An ASCII letter, digit or underscore. -/
def isNameChar (c : Char) : Bool := c.isAlphanum || c = '_'

/-- A character that starts an identifier. -/
def isNameStart (c : Char) : Bool := c.isLower || c = '_'

/-- Passes over blanks, escaped line ends and comments; a comment goes up to the end of its line. -/
def skipGap (inComment : Bool) (mark : Mark) : List Char → Cursor
  | [] => ⟨[], mark⟩
  | c :: rest =>
    if c = '\n' then ⟨c :: rest, mark⟩
    else if c = '\r' then skipGap false (mark.next c) rest
    else if inComment || c = '#' then skipGap true (mark.next c) rest
    else if c = ' ' || c = '\t' then skipGap false (mark.next c) rest
    else if c = '\\' then
      match rest with
      | '\n' :: rest' => skipGap false ((mark.next c).next '\n') rest'
      | '\r' :: '\n' :: rest' => skipGap false (((mark.next c).next '\r').next '\n') rest'
      | '\r' :: rest' => skipGap false ((mark.next c).next '\r') rest'
      | _ => ⟨c :: rest, mark⟩
    else ⟨c :: rest, mark⟩

/-! ## Parts of productions -/

namespace Phrase

/-- A rule of the grammar. -/
def use (rule : Rule) : Peg Rule := .call rule

/-- One character of a name. -/
def nameChar : Peg Rule := .one isNameChar

/-- A literal that ends where a name would go on. -/
def word (s : String) : Peg Rule := .seq [.present (use .keyword), .lit s]

/-- One or more line ends or semicolons. -/
def separator : Peg Rule := .plus (.choice [.newline, .lit ";"])

/-- A statement of any kind. -/
def statement : Peg Rule :=
  .choice [use .ifStmt, use .whileStmt, use .returnStmt, use .putsStmt, use .raiseStmt,
    use .assignment, use .exprStmt]

/-- What may stand at the top level of a unit. -/
def item : Peg Rule := .choice [use .classDef, use .methodDef, statement]

/-- The words that are no names. -/
def keywords : List String :=
  ["class", "def", "end", "if", "elsif", "else", "then", "while", "do", "return", "puts", "raise",
    "true", "false", "package", "self"]

/-- A unary operator. -/
def prefixOp : Peg Rule := .choice [use .opNegate, use .opNot]

/-- A binary operator; of two that start alike the longer one is tried first. -/
def infixOp : Peg Rule :=
  .choice [use .opOr, use .opAnd, use .opEq, use .opNe, use .opLe, use .opGe, use .opLt, use .opGt,
    use .opAdd, use .opSub, use .opMul, use .opDiv, use .opMod]

/-- A literal, a call, a name, or an expression in parentheses. -/
def primary : Peg Rule :=
  .choice [use .boolean, use .integer, use .string, use .staticCall, use .localCall,
    use .localName, .seq [.lit "(", use .expression, .lit ")"]]

/-- A condition's end: the word, with or without a separator after it, or a separator. -/
def opener (s : String) : Peg Rule := .choice [.seq [word s, .opt separator], separator]

/-- Parts separated by commas, possibly none. -/
def commaList (part : Peg Rule) : Peg Rule :=
  .opt (.seq [part, .star (.seq [.lit ",", part])])

end Phrase

open Phrase

/-! ## Productions -/

/-- The production of each rule. -/
def Rule.production : Rule → Production Rule
  | .finish => ⟨.loose, .finish⟩
  | .program => ⟨.loose, .seq [.start, .opt separator,
      .opt (.seq [use .packageDecl, .choice [separator, .present (use .finish)]]),
      .opt (.seq [item, .star (.seq [separator, item])]), .opt separator, use .finish]⟩
  | .packageDecl => ⟨.loose, .seq [word "package", use .qualifiedName]⟩
  | .qualifiedName => ⟨.tight, .seq [use .identifier, .star (.seq [.lit ".", use .identifier])]⟩
  | .keyword => ⟨.tight, .seq [.choice (keywords.map .lit), .absent nameChar]⟩
  | .identifier => ⟨.tight, .seq [.absent (use .keyword), .one isNameStart, .star nameChar]⟩
  | .constant => ⟨.tight, .seq [.one Char.isUpper, .star nameChar]⟩
  | .classDef => ⟨.loose, .seq [word "class", use .constant, separator,
      .star (.seq [.choice [use .classDef, use .methodDef], separator]), word "end"]⟩
  | .methodDef => ⟨.loose, .seq [word "def", .opt (use .selfPrefix), use .identifier,
      .opt (use .paramList), .opt (use .returnType), separator, use .block, word "end"]⟩
  | .selfPrefix => ⟨.loose, .seq [word "self", .lit "."]⟩
  | .paramList => ⟨.loose, .seq [.lit "(", commaList (use .parameter), .lit ")"]⟩
  | .parameter => ⟨.loose, .seq [use .identifier, .lit ":", use .typeRef]⟩
  | .returnType => ⟨.loose, .seq [.lit ":", use .typeRef]⟩
  | .typeRef => ⟨.tight, .seq [.choice [use .constant, use .identifier], .star (.lit "[]")]⟩
  | .block => ⟨.loose, .star (.seq [statement, separator])⟩
  | .ifStmt => ⟨.loose, .seq [word "if", use .expression, opener "then", use .block,
      .star (use .elsifClause), .opt (use .elseClause), word "end"]⟩
  | .elsifClause => ⟨.loose, .seq [word "elsif", use .expression, opener "then", use .block]⟩
  | .elseClause => ⟨.loose, .seq [word "else", .opt separator, use .block]⟩
  | .whileStmt => ⟨.loose, .seq [word "while", use .expression, opener "do", use .block,
      word "end"]⟩
  | .returnStmt => ⟨.loose, .seq [word "return", .opt (use .expression)]⟩
  | .putsStmt => ⟨.loose, .seq [word "puts", use .expression]⟩
  | .raiseStmt => ⟨.loose, .seq [word "raise", use .expression]⟩
  | .assignment => ⟨.loose, .seq [use .identifier, .lit "=", .absent (.lit "="),
      use .expression]⟩
  | .exprStmt => ⟨.loose, use .expression⟩
  | .expression => ⟨.loose, .seq [.star prefixOp, use .term,
      .star (.seq [infixOp, .star prefixOp, use .term])]⟩
  | .opNegate => ⟨.loose, .lit "-"⟩
  | .opNot => ⟨.loose, .lit "!"⟩
  | .opOr => ⟨.loose, .lit "||"⟩
  | .opAnd => ⟨.loose, .lit "&&"⟩
  | .opEq => ⟨.loose, .lit "=="⟩
  | .opNe => ⟨.loose, .lit "!="⟩
  | .opLe => ⟨.loose, .lit "<="⟩
  | .opGe => ⟨.loose, .lit ">="⟩
  | .opLt => ⟨.loose, .lit "<"⟩
  | .opGt => ⟨.loose, .lit ">"⟩
  | .opAdd => ⟨.loose, .lit "+"⟩
  | .opSub => ⟨.loose, .lit "-"⟩
  | .opMul => ⟨.loose, .lit "*"⟩
  | .opDiv => ⟨.loose, .lit "/"⟩
  | .opMod => ⟨.loose, .lit "%"⟩
  | .term => ⟨.loose, .seq [primary, .star (.choice [use .indexOp, use .lengthOp])]⟩
  | .indexOp => ⟨.loose, .seq [.lit "[", use .expression, .lit "]"]⟩
  | .lengthOp => ⟨.tight, .seq [.lit ".length", .absent nameChar]⟩
  | .boolean => ⟨.tight, .seq [.choice [.lit "true", .lit "false"], .absent nameChar]⟩
  | .integer => ⟨.tight, .seq [.plus (.one Char.isDigit), .absent nameChar]⟩
  | .string => ⟨.joined, .seq [.lit "\"", use .stringContent, .lit "\""]⟩
  | .stringContent => ⟨.tight, .star (.choice [
      .seq [.absent (.choice [.lit "\"", .lit "\\", .newline]), .any],
      .seq [.lit "\\", .any]])⟩
  | .staticCall => ⟨.loose, .seq [use .constant, .lit ".", use .identifier, .opt (use .argList)]⟩
  | .localCall => ⟨.loose, .seq [use .identifier, use .argList]⟩
  | .localName => ⟨.loose, use .identifier⟩
  | .argList => ⟨.loose, .seq [.lit "(", commaList (use .expression), .lit ")"]⟩

/-- The grammar of units. -/
def grammar : Rules Rule where
  production := Rule.production
  skip cur := skipGap false cur.mark cur.rest

/-! ## Descriptions -/

/-- What a reader would call the rule, in a fault that lists what was expected. -/
def Rule.description : Rule → String
  | .integer => "an integer"
  | .string => "a string"
  | .boolean => "true or false"
  | .identifier | .localName => "an identifier"
  | .constant => "a class name"
  | .qualifiedName => "a package name"
  | .typeRef => "a type (like int or String[])"
  | .expression | .term | .exprStmt => "an expression"
  | .staticCall | .localCall => "a method call"
  | .argList => "an argument list"
  | .paramList => "a parameter list"
  | .parameter => "a parameter (name: Type)"
  | .returnType => "a return type"
  | .indexOp => "an index"
  | .lengthOp => "'.length'"
  | .classDef => "a class definition"
  | .methodDef => "a method definition"
  | .selfPrefix => "'self.'"
  | .block | .ifStmt | .whileStmt | .returnStmt | .putsStmt | .raiseStmt | .assignment =>
    "a statement"
  | .elsifClause => "'elsif'"
  | .elseClause => "'else'"
  | .packageDecl => "a package declaration"
  | .keyword => "a keyword"
  | .opOr | .opAnd | .opEq | .opNe | .opLe | .opGe | .opLt | .opGt | .opAdd | .opSub | .opMul
  | .opDiv | .opMod => "an operator"
  | .opNegate | .opNot => "a unary operator"
  | .finish => "end of input"
  | .program | .stringContent => "a token"

end StackScript.Syntax
