import Mathlib.Tactic.Common
import LoxLang.Grammar.Program

set_option autoImplicit false

/-!
# Phrases of the grammar

A phrase is a derivation of the grammar: it keeps every token that it was built from, together with
the fact that the token is of the right kind. Its tokens in a row are the text it derives, and its
tree is what reading that text should give.

```
declarations → declaration*
declaration  → "fun" NAME "(" names? ")" block | variable | statement
variable     → "var" NAME ("=" expression)? ";"
statement    → "for" "(" (variable | expression ";" | ";") expression? ";" expression? ")" statement
             | "if" "(" expression ")" statement ("else" statement)?
             | "while" "(" expression ")" statement | "print" expression ";"
             | "return" expression? ";" | block | expression ";"
block        → "{" declarations "}"
expression   → operation "=" expression | operation
operation    → operation op tighter | tighter        one for each level, the loosest first
unary        → ("!" | "-") unary | call
call         → call "(" arguments? ")" | primary
arguments    → arguments "," expression | expression
primary      → NUMBER | STRING | "true" | "false" | "nil" | NAME | "(" expression ")"
```

The grammar is wider than the language in three places: anything may stand on the left of an
assignment, there may be any number of arguments and parameters, and a return may stand anywhere.
`Proper` phrases keep the three rules; `faults` is what is noted about the others.

## Main definitions

* `ExprPhrase`, `StmtPhrase` — derivations, by the symbol of the grammar that they derive.
* `ExprPhrase.tokens`, `ExprPhrase.tree`, and the same for statements — the text and its tree.
* `ExprPhrase.Proper`, `StmtPhrase.Proper` — the rules that the grammar leaves out.
* `StmtPhrase.NearestElse` — every alternative belongs to the nearest condition before it.
* `ExprPhrase.faults`, `StmtPhrase.faults` — what is wrong with a phrase that is not proper.
* `ExprPhrase.height`, `StmtPhrase.height` — how deep a phrase nests.
-/

namespace LoxLang

/-- A token of a given kind. -/
abbrev Terminal (kind : Token.Kind) := { t : Token // t.kind = kind }

/-- The literal that a token is by itself, if it is one. -/
def Token.constant? (t : Token) : Option Literal :=
  match t.kind with
  | .falseWord => some (.bool false)
  | .trueWord => some (.bool true)
  | .nilWord => some .nil
  | _ => t.literal?

/-- The fault that is noted in front of one more item than a number of them. -/
def surplusFault (surplus : SyntaxFault.Cause) (count : Nat) (next : Option Token) :
    List SyntaxFault :=
  if maxArity ≤ count then [⟨surplus, next⟩] else []

/-- What an assignment is read as. Anything but a variable on its left is kept by itself. -/
def Expr.assigned (target value : Expr) : Expr :=
  match target with
  | .variable name => .assign name value
  | other => other

/-- The fault that is noted about an assignment to anything but a variable. -/
def targetFaults (equals : Token) : Expr → List SyntaxFault
  | .variable _ => []
  | _ => [⟨.invalidTarget, some equals⟩]

/-! ## Expressions -/

/-- The symbols of the grammar of expressions. An operation has operators of some levels, the
loosest level first. -/
inductive ExprSymbol
  | primary | call | arguments | unary
  | operation (levels : List Level)
  | expression

/-- What a phrase of a symbol is read as. -/
abbrev ExprSymbol.Tree : ExprSymbol → Type
  | arguments => List Expr
  | _ => Expr

/-- Derivations of expressions and their parts. -/
inductive ExprPhrase : ExprSymbol → Type
  | literal (token : Token) (value : Literal) (h : token.constant? = some value) :
    ExprPhrase .primary
  | named (name : Terminal .identifier) : ExprPhrase .primary
  | grouping (opening : Terminal .leftParen) (inner : ExprPhrase .expression)
    (closing : Terminal .rightParen) : ExprPhrase .primary
  | ofPrimary (p : ExprPhrase .primary) : ExprPhrase .call
  | callEmpty (callee : ExprPhrase .call) (opening : Terminal .leftParen)
    (closing : Terminal .rightParen) : ExprPhrase .call
  | call (callee : ExprPhrase .call) (opening : Terminal .leftParen)
    (arguments : ExprPhrase .arguments) (closing : Terminal .rightParen) : ExprPhrase .call
  | single (e : ExprPhrase .expression) : ExprPhrase .arguments
  | further (init : ExprPhrase .arguments) (comma : Terminal .comma)
    (next : ExprPhrase .expression) : ExprPhrase .arguments
  | unary (operator : Token) (h : operator.kind.isUnary) (operand : ExprPhrase .unary) :
    ExprPhrase .unary
  | ofCall (c : ExprPhrase .call) : ExprPhrase .unary
  | ofUnary (u : ExprPhrase .unary) : ExprPhrase (.operation [])
  | looser (level : Level) (levels : List Level) (p : ExprPhrase (.operation levels)) :
    ExprPhrase (.operation (level :: levels))
  | join (level : Level) (levels : List Level) (left : ExprPhrase (.operation (level :: levels)))
    (operator : Token) (h : level.holds operator.kind) (right : ExprPhrase (.operation levels)) :
    ExprPhrase (.operation (level :: levels))
  | plain (p : ExprPhrase (.operation Level.ordered)) : ExprPhrase .expression
  | assign (target : ExprPhrase (.operation Level.ordered)) (equals : Terminal .equal)
    (value : ExprPhrase .expression) : ExprPhrase .expression

namespace ExprPhrase

/-- The tokens of a phrase, from left to right. -/
def tokens : {s : ExprSymbol} → ExprPhrase s → List Token
  | _, .literal token _ _ => [token]
  | _, .named name => [name.1]
  | _, .grouping opening inner closing => opening.1 :: (inner.tokens ++ [closing.1])
  | _, .ofPrimary p => p.tokens
  | _, .callEmpty callee opening closing => callee.tokens ++ [opening.1, closing.1]
  | _, .call callee opening arguments closing =>
    callee.tokens ++ opening.1 :: (arguments.tokens ++ [closing.1])
  | _, .single e => e.tokens
  | _, .further init comma next => init.tokens ++ comma.1 :: next.tokens
  | _, .unary operator _ operand => operator :: operand.tokens
  | _, .ofCall c => c.tokens
  | _, .ofUnary u => u.tokens
  | _, .looser _ _ p => p.tokens
  | _, .join _ _ left operator _ right => left.tokens ++ operator :: right.tokens
  | _, .plain p => p.tokens
  | _, .assign target equals value => target.tokens ++ equals.1 :: value.tokens

/-- The tree of a phrase. An assignment to anything but a variable is read as its left side. -/
def tree : {s : ExprSymbol} → ExprPhrase s → s.Tree
  | _, .literal _ value _ => Expr.literal value
  | _, .named name => Expr.variable name.1
  | _, .grouping _ inner _ => Expr.grouping inner.tree
  | _, .ofPrimary p => p.tree
  | _, .callEmpty callee _ closing => Expr.call callee.tree closing.1 []
  | _, .call callee _ arguments closing => Expr.call callee.tree closing.1 arguments.tree
  | _, .single e => [e.tree]
  | _, .further init _ next => init.tree ++ [next.tree]
  | _, .unary operator _ operand => Expr.unary operator operand.tree
  | _, .ofCall c => c.tree
  | _, .ofUnary u => u.tree
  | _, .looser _ _ p => p.tree
  | _, .join level _ left operator _ right => level.node left.tree operator right.tree
  | _, .plain p => p.tree
  | _, .assign target _ value => Expr.assigned target.tree value.tree

/-- Whether a phrase is a name and nothing else. -/
def IsBare {s : ExprSymbol} (p : ExprPhrase s) : Prop :=
  ∃ name : Token, p.tokens = [name] ∧ name.kind = .identifier

/-- No call has too many arguments, and every assignment is to a bare name. -/
def Proper : {s : ExprSymbol} → ExprPhrase s → Prop
  | _, .literal _ _ _ => True
  | _, .named _ => True
  | _, .grouping _ inner _ => inner.Proper
  | _, .ofPrimary p => p.Proper
  | _, .callEmpty callee _ _ => callee.Proper
  | _, .call callee _ arguments _ =>
    callee.Proper ∧ arguments.Proper ∧ arguments.tree.length ≤ maxArity
  | _, .single e => e.Proper
  | _, .further init _ next => init.Proper ∧ next.Proper
  | _, .unary _ _ operand => operand.Proper
  | _, .ofCall c => c.Proper
  | _, .ofUnary u => u.Proper
  | _, .looser _ _ p => p.Proper
  | _, .join _ _ left _ _ right => left.Proper ∧ right.Proper
  | _, .plain p => p.Proper
  | _, .assign target _ value => target.IsBare ∧ value.Proper

/-- What is noted about a phrase: each argument after the last allowed one, in front of it, and each
improper assignment, behind its right side. -/
def faults : {s : ExprSymbol} → ExprPhrase s → List SyntaxFault
  | _, .literal _ _ _ => []
  | _, .named _ => []
  | _, .grouping _ inner _ => inner.faults
  | _, .ofPrimary p => p.faults
  | _, .callEmpty callee _ _ => callee.faults
  | _, .call callee _ arguments _ => callee.faults ++ arguments.faults
  | _, .single e => e.faults
  | _, .further init _ next =>
    init.faults ++ (surplusFault .tooManyArguments init.tree.length next.tokens.head? ++ next.faults)
  | _, .unary _ _ operand => operand.faults
  | _, .ofCall c => c.faults
  | _, .ofUnary u => u.faults
  | _, .looser _ _ p => p.faults
  | _, .join _ _ left _ _ right => left.faults ++ right.faults
  | _, .plain p => p.faults
  | _, .assign target equals value =>
    target.faults ++ (value.faults ++ targetFaults equals.1 target.tree)

/-- How deep a phrase nests: the depth that reading it takes. -/
def height : {s : ExprSymbol} → ExprPhrase s → Nat
  | _, .literal _ _ _ => 0
  | _, .named _ => 0
  | _, .grouping _ inner _ => inner.height
  | _, .ofPrimary p => p.height
  | _, .callEmpty callee _ _ => callee.height
  | _, .call callee _ arguments _ => max callee.height arguments.height
  | _, .single e => e.height
  | _, .further init _ next => max init.height next.height
  | _, .unary _ _ operand => operand.height + 1
  | _, .ofCall c => c.height + 1
  | _, .ofUnary u => u.height
  | _, .looser _ _ p => p.height
  | _, .join _ _ left _ _ right => max left.height right.height
  | _, .plain p => p.height + 1
  | _, .assign target _ value => max target.height value.height + 1

end ExprPhrase

/-! ## Statements -/

/-- Names with commas between them. -/
inductive NamesPhrase
  | single (name : Terminal .identifier)
  | further (init : NamesPhrase) (comma : Terminal .comma) (name : Terminal .identifier)

namespace NamesPhrase

/-- The tokens of names with commas between them. -/
def tokens : NamesPhrase → List Token
  | single name => [name.1]
  | further init comma name => init.tokens ++ [comma.1, name.1]

/-- The names by themselves. -/
def tree : NamesPhrase → List Token
  | single name => [name.1]
  | further init _ name => init.tree ++ [name.1]

/-- What is noted about names: each one after the last allowed one. -/
def faults : NamesPhrase → List SyntaxFault
  | single _ => []
  | further init _ name =>
    init.faults ++ surplusFault .tooManyParameters init.tree.length name.1

end NamesPhrase

/-- A declaration of a variable. -/
structure VariablePhrase where
  keyword : Terminal .varWord
  name : Terminal .identifier
  initial : Option (Terminal .equal × ExprPhrase .expression)
  closing : Terminal .semicolon

namespace VariablePhrase

/-- The tokens of a declaration of a variable. -/
def tokens (v : VariablePhrase) : List Token :=
  v.keyword.1 :: v.name.1 ::
    (v.initial.elim [] (fun (equals, e) => equals.1 :: e.tokens) ++ [v.closing.1])

/-- The tree of a declaration of a variable. -/
def tree (v : VariablePhrase) : Stmt := .var v.name.1 (v.initial.map fun (_, e) => e.tree)

/-- Whether the expression of a declaration is proper. -/
def Proper (v : VariablePhrase) : Prop := v.initial.elim True fun (_, e) => e.Proper

/-- What is noted about a declaration of a variable. -/
def faults (v : VariablePhrase) : List SyntaxFault := v.initial.elim [] fun (_, e) => e.faults

/-- How deep the expression of a declaration nests. -/
def height (v : VariablePhrase) : Nat := v.initial.elim 0 fun (_, e) => e.height

end VariablePhrase

/-- An expression and a semicolon. -/
structure EvaluationPhrase where
  value : ExprPhrase .expression
  closing : Terminal .semicolon

namespace EvaluationPhrase

/-- The tokens of an expression and a semicolon. -/
def tokens (s : EvaluationPhrase) : List Token := s.value.tokens ++ [s.closing.1]

/-- The tree of an expression and a semicolon. -/
def tree (s : EvaluationPhrase) : Stmt := .expression s.value.tree

end EvaluationPhrase

/-- What a `for` begins with. -/
inductive InitialPhrase
  | absent (closing : Terminal .semicolon)
  | declared (v : VariablePhrase)
  | evaluated (s : EvaluationPhrase)

namespace InitialPhrase

/-- The tokens of what a `for` begins with. -/
def tokens : InitialPhrase → List Token
  | absent closing => [closing.1]
  | declared v => v.tokens
  | evaluated s => s.tokens

/-- The tree of what a `for` begins with. -/
def tree : InitialPhrase → Option Stmt
  | absent _ => none
  | declared v => some v.tree
  | evaluated s => some s.tree

/-- Whether what a `for` begins with is proper. -/
def Proper : InitialPhrase → Prop
  | absent _ => True
  | declared v => v.Proper
  | evaluated s => s.value.Proper

/-- What is noted about what a `for` begins with. -/
def faults : InitialPhrase → List SyntaxFault
  | absent _ => []
  | declared v => v.faults
  | evaluated s => s.value.faults

/-- How deep what a `for` begins with nests. -/
def height : InitialPhrase → Nat
  | absent _ => 0
  | declared v => v.height
  | evaluated s => s.value.height

end InitialPhrase

/-- The symbols of the grammar of statements. -/
inductive StmtSymbol
  | statement | declaration | declarations

/-- What a phrase of a symbol is read as. -/
abbrev StmtSymbol.Tree : StmtSymbol → Type
  | declarations => Slots
  | _ => Stmt

/-- Derivations of statements and declarations. -/
inductive StmtPhrase : StmtSymbol → Type
  | evaluation (s : EvaluationPhrase) : StmtPhrase .statement
  | printing (keyword : Terminal .printWord) (value : ExprPhrase .expression)
    (closing : Terminal .semicolon) : StmtPhrase .statement
  | returning (keyword : Terminal .returnWord) (value : Option (ExprPhrase .expression))
    (closing : Terminal .semicolon) : StmtPhrase .statement
  | block (opening : Terminal .leftBrace) (body : StmtPhrase .declarations)
    (closing : Terminal .rightBrace) : StmtPhrase .statement
  | ifThen (keyword : Terminal .ifWord) (opening : Terminal .leftParen)
    (condition : ExprPhrase .expression) (closing : Terminal .rightParen)
    (whenTrue : StmtPhrase .statement) : StmtPhrase .statement
  | ifElse (keyword : Terminal .ifWord) (opening : Terminal .leftParen)
    (condition : ExprPhrase .expression) (closing : Terminal .rightParen)
    (whenTrue : StmtPhrase .statement) (otherwise : Terminal .elseWord)
    (whenFalse : StmtPhrase .statement) : StmtPhrase .statement
  | whileLoop (keyword : Terminal .whileWord) (opening : Terminal .leftParen)
    (condition : ExprPhrase .expression) (closing : Terminal .rightParen)
    (body : StmtPhrase .statement) : StmtPhrase .statement
  | forLoop (keyword : Terminal .forWord) (opening : Terminal .leftParen)
    (initial : InitialPhrase) (condition : Option (ExprPhrase .expression))
    (middle : Terminal .semicolon) (step : Option (ExprPhrase .expression))
    (closing : Terminal .rightParen) (body : StmtPhrase .statement) : StmtPhrase .statement
  | function (keyword : Terminal .funWord) (name : Terminal .identifier)
    (opening : Terminal .leftParen) (parameters : Option NamesPhrase)
    (closing : Terminal .rightParen) (bodyOpening : Terminal .leftBrace)
    (body : StmtPhrase .declarations) (bodyClosing : Terminal .rightBrace) :
    StmtPhrase .declaration
  | declared (v : VariablePhrase) : StmtPhrase .declaration
  | statement (s : StmtPhrase .statement) : StmtPhrase .declaration
  | nil : StmtPhrase .declarations
  | cons (d : StmtPhrase .declaration) (ds : StmtPhrase .declarations) : StmtPhrase .declarations

namespace StmtPhrase

/-- The tokens of a phrase, from left to right. -/
def tokens : {s : StmtSymbol} → StmtPhrase s → List Token
  | _, .evaluation s => s.tokens
  | _, .printing keyword value closing => keyword.1 :: (value.tokens ++ [closing.1])
  | _, .returning keyword value closing =>
    keyword.1 :: (value.elim [] ExprPhrase.tokens ++ [closing.1])
  | _, .block opening body closing => opening.1 :: (body.tokens ++ [closing.1])
  | _, .ifThen keyword opening condition closing whenTrue =>
    keyword.1 :: opening.1 :: (condition.tokens ++ closing.1 :: whenTrue.tokens)
  | _, .ifElse keyword opening condition closing whenTrue otherwise whenFalse =>
    keyword.1 :: opening.1 ::
      (condition.tokens ++ closing.1 :: (whenTrue.tokens ++ otherwise.1 :: whenFalse.tokens))
  | _, .whileLoop keyword opening condition closing body =>
    keyword.1 :: opening.1 :: (condition.tokens ++ closing.1 :: body.tokens)
  | _, .forLoop keyword opening initial condition middle step closing body =>
    keyword.1 :: opening.1 :: (initial.tokens ++ (condition.elim [] ExprPhrase.tokens ++
      middle.1 :: (step.elim [] ExprPhrase.tokens ++ closing.1 :: body.tokens)))
  | _, .function keyword name opening parameters closing bodyOpening body bodyClosing =>
    keyword.1 :: name.1 :: opening.1 :: (parameters.elim [] NamesPhrase.tokens ++
      closing.1 :: bodyOpening.1 :: (body.tokens ++ [bodyClosing.1]))
  | _, .declared v => v.tokens
  | _, .statement s => s.tokens
  | _, .nil => []
  | _, .cons d ds => d.tokens ++ ds.tokens

/-- The tree of a phrase. -/
def tree : {s : StmtSymbol} → StmtPhrase s → s.Tree
  | _, .evaluation s => s.tree
  | _, .printing _ value _ => Stmt.print value.tree
  | _, .returning keyword value _ => Stmt.return keyword.1 (value.map ExprPhrase.tree)
  | _, .block _ body _ => Stmt.block body.tree
  | _, .ifThen _ _ condition _ whenTrue => Stmt.branch condition.tree whenTrue.tree none
  | _, .ifElse _ _ condition _ whenTrue _ whenFalse =>
    Stmt.branch condition.tree whenTrue.tree (some whenFalse.tree)
  | _, .whileLoop _ _ condition _ body => Stmt.loop condition.tree body.tree
  | _, .forLoop _ _ initial condition _ step _ body =>
    Stmt.forLoop initial.tree (condition.map ExprPhrase.tree) (step.map ExprPhrase.tree) body.tree
  | _, .function _ name _ parameters _ _ body _ =>
    Stmt.function name.1 (parameters.elim [] NamesPhrase.tree) body.tree
  | _, .declared v => v.tree
  | _, .statement s => s.tree
  | _, .nil => []
  | _, .cons d ds => some d.tree :: ds.tree

/-- Inside or outside a function body, every expression of a phrase is proper, no function has too
many parameters, and every return stands in a function body. -/
def Proper : (inFunction : Bool) → {s : StmtSymbol} → StmtPhrase s → Prop
  | _, _, .evaluation s => s.value.Proper
  | _, _, .printing _ value _ => value.Proper
  | inFunction, _, .returning _ value _ =>
    inFunction = true ∧ value.elim True ExprPhrase.Proper
  | inFunction, _, .block _ body _ => body.Proper inFunction
  | inFunction, _, .ifThen _ _ condition _ whenTrue =>
    condition.Proper ∧ whenTrue.Proper inFunction
  | inFunction, _, .ifElse _ _ condition _ whenTrue _ whenFalse =>
    condition.Proper ∧ whenTrue.Proper inFunction ∧ whenFalse.Proper inFunction
  | inFunction, _, .whileLoop _ _ condition _ body => condition.Proper ∧ body.Proper inFunction
  | inFunction, _, .forLoop _ _ initial condition _ step _ body =>
    initial.Proper ∧ condition.elim True ExprPhrase.Proper ∧ step.elim True ExprPhrase.Proper ∧
      body.Proper inFunction
  | _, _, .function _ _ _ parameters _ _ body _ =>
    (parameters.elim [] NamesPhrase.tree).length ≤ maxArity ∧ body.Proper true
  | _, _, .declared v => v.Proper
  | inFunction, _, .statement s => s.Proper inFunction
  | _, _, .nil => True
  | inFunction, _, .cons d ds => d.Proper inFunction ∧ ds.Proper inFunction

/-- Whether an alternative after a statement would belong to a condition within it. -/
def isOpen : {s : StmtSymbol} → StmtPhrase s → Bool
  | _, .ifThen _ _ _ _ _ => true
  | _, .ifElse _ _ _ _ _ _ whenFalse => whenFalse.isOpen
  | _, .whileLoop _ _ _ _ body => body.isOpen
  | _, .forLoop _ _ _ _ _ _ _ body => body.isOpen
  | _, .statement s => s.isOpen
  | _, _ => false

/-- Every alternative belongs to the nearest condition before it that has none. -/
def NearestElse : {s : StmtSymbol} → StmtPhrase s → Prop
  | _, .block _ body _ => body.NearestElse
  | _, .ifThen _ _ _ _ whenTrue => whenTrue.NearestElse
  | _, .ifElse _ _ _ _ whenTrue _ whenFalse =>
    whenTrue.isOpen = false ∧ whenTrue.NearestElse ∧ whenFalse.NearestElse
  | _, .whileLoop _ _ _ _ body => body.NearestElse
  | _, .forLoop _ _ _ _ _ _ _ body => body.NearestElse
  | _, .function _ _ _ _ _ _ body _ => body.NearestElse
  | _, .statement s => s.NearestElse
  | _, .cons d ds => d.NearestElse ∧ ds.NearestElse
  | _, _ => True

/-- What is noted about a phrase inside or outside a function body. -/
def faults : (inFunction : Bool) → {s : StmtSymbol} → StmtPhrase s → List SyntaxFault
  | _, _, .evaluation s => s.value.faults
  | _, _, .printing _ value _ => value.faults
  | inFunction, _, .returning keyword value _ =>
    (if inFunction then [] else [⟨.returnOutsideFunction, some keyword.1⟩]) ++
      value.elim [] ExprPhrase.faults
  | inFunction, _, .block _ body _ => body.faults inFunction
  | inFunction, _, .ifThen _ _ condition _ whenTrue =>
    condition.faults ++ whenTrue.faults inFunction
  | inFunction, _, .ifElse _ _ condition _ whenTrue _ whenFalse =>
    condition.faults ++ (whenTrue.faults inFunction ++ whenFalse.faults inFunction)
  | inFunction, _, .whileLoop _ _ condition _ body => condition.faults ++ body.faults inFunction
  | inFunction, _, .forLoop _ _ initial condition _ step _ body =>
    initial.faults ++ (condition.elim [] ExprPhrase.faults ++ (step.elim [] ExprPhrase.faults ++
      body.faults inFunction))
  | _, _, .function _ _ _ parameters _ _ body _ =>
    parameters.elim [] NamesPhrase.faults ++ body.faults true
  | _, _, .declared v => v.faults
  | inFunction, _, .statement s => s.faults inFunction
  | _, _, .nil => []
  | inFunction, _, .cons d ds => d.faults inFunction ++ ds.faults inFunction

/-- How deep a phrase nests: the depth that reading it takes. -/
def height : {s : StmtSymbol} → StmtPhrase s → Nat
  | _, .evaluation s => s.value.height + 1
  | _, .printing _ value _ => value.height + 1
  | _, .returning _ value _ => value.elim 0 ExprPhrase.height + 1
  | _, .block _ body _ => body.height + 1
  | _, .ifThen _ _ condition _ whenTrue => max condition.height whenTrue.height + 1
  | _, .ifElse _ _ condition _ whenTrue _ whenFalse =>
    max condition.height (max whenTrue.height whenFalse.height) + 1
  | _, .whileLoop _ _ condition _ body => max condition.height body.height + 1
  | _, .forLoop _ _ initial condition _ step _ body =>
    max initial.height (max (condition.elim 0 ExprPhrase.height)
      (max (step.elim 0 ExprPhrase.height) body.height)) + 1
  | _, .function _ _ _ _ _ _ body _ => body.height + 1
  | _, .declared v => v.height + 1
  | _, .statement s => s.height + 1
  | _, .nil => 0
  | _, .cons d ds => max d.height ds.height

end StmtPhrase

end LoxLang
