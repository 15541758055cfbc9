import LoxLang.Syntax

set_option autoImplicit false

/-!
# Braces around a statement

A statement in braces of its own is executed in a scope of its own. That makes no difference to a
statement that binds nothing there, so braces may be put around anything but a declaration. A tree is
regular if declarations stand in slots only, where a scope is at hand for what they bind.

## Main definitions

* `Stmt.isDeclaration` — a statement that binds a name in the scope at hand.
* `Stmt.Regular`, `Stmt.AllRegular` — no branch and no body of a loop is a declaration.
* `Stmt.IsBranch` — what may be a branch or the body of a loop.
* `Stmt.Braced`, `Stmt.BracedIn` — braces are put around one statement.
* `Stmt.Facing`, `Stmt.FacingIn` — parts at the same place of two programs.
-/

namespace LoxLang

namespace Stmt

/-- A declaration of a variable or a function, which binds a name in the scope at hand. -/
def isDeclaration : Stmt → Bool
  | .var _ _ | .function _ _ _ => true
  | _ => false

mutual

/-- A statement in which no branch and no body of a loop is a declaration. -/
def Regular : Stmt → Prop
  | .expression _ | .print _ | .var _ _ | .return _ _ => True
  | .block body | .function _ _ body => AllRegular body
  | .branch _ whenTrue none => whenTrue.isDeclaration = false ∧ whenTrue.Regular
  | .branch _ whenTrue (some whenFalse) =>
    (whenTrue.isDeclaration = false ∧ whenTrue.Regular) ∧
      whenFalse.isDeclaration = false ∧ whenFalse.Regular
  | .loop _ body => body.isDeclaration = false ∧ body.Regular

/-- Slots with such statements. -/
def AllRegular : List (Option Stmt) → Prop
  | [] => True
  | none :: rest => AllRegular rest
  | some statement :: rest => statement.Regular ∧ AllRegular rest

end

/-- A statement that may be a branch or the body of a loop: it is regular, and no declaration. -/
def IsBranch (s : Stmt) : Prop := s.isDeclaration = false ∧ s.Regular

mutual

/-- Braces are put around one statement, which is no declaration: around the given one, or at one
place in it. -/
inductive Braced : Stmt → Stmt → Prop
  | here {s : Stmt} (h : s.isDeclaration = false) : Braced s (.block [some s])
  | block {b b' : Slots} (h : BracedIn b b') : Braced (.block b) (.block b')
  | whenTrue {e : Expr} {s s' : Stmt} {r : Option Stmt} (h : Braced s s') :
    Braced (.branch e s r) (.branch e s' r)
  | whenFalse {e : Expr} {s r r' : Stmt} (h : Braced r r') :
    Braced (.branch e s (some r)) (.branch e s (some r'))
  | body {e : Expr} {s s' : Stmt} (h : Braced s s') : Braced (.loop e s) (.loop e s')
  | function {n : Token} {ps : List Token} {b b' : Slots} (h : BracedIn b b') :
    Braced (.function n ps b) (.function n ps b')

/-- Braces are put around one statement, at one place in slots. -/
inductive BracedIn : Slots → Slots → Prop
  | member {s s' : Stmt} {b : Slots} (h : Braced s s') : BracedIn (some s :: b) (some s' :: b)
  | later {slot : Option Stmt} {b b' : Slots} (h : BracedIn b b') :
    BracedIn (slot :: b) (slot :: b')

end

section Facing

variable (p p' : Slots)

mutual

/-- Two statements stand at the same place of two programs. -/
inductive Facing : Stmt → Stmt → Prop
  | member {s s' : Stmt} {b b' : Slots} (h : FacingIn (some s :: b) (some s' :: b')) : Facing s s'
  | whenTrue {e e' : Expr} {s s' : Stmt} {r r' : Option Stmt}
    (h : Facing (.branch e s r) (.branch e' s' r')) : Facing s s'
  | whenFalse {e e' : Expr} {s s' r r' : Stmt}
    (h : Facing (.branch e s (some r)) (.branch e' s' (some r'))) : Facing r r'
  | body {e e' : Expr} {s s' : Stmt} (h : Facing (.loop e s) (.loop e' s')) : Facing s s'

/-- Slots stand at the same place of two programs. -/
inductive FacingIn : Slots → Slots → Prop
  | program : FacingIn p p'
  | later {slot slot' : Option Stmt} {b b' : Slots} (h : FacingIn (slot :: b) (slot' :: b')) :
    FacingIn b b'
  | block {b b' : Slots} (h : Facing (.block b) (.block b')) : FacingIn b b'
  | function {n n' : Token} {ps ps' : List Token} {b b' : Slots}
    (h : Facing (.function n ps b) (.function n' ps' b')) : FacingIn b b'

end

end Facing

end Stmt

end LoxLang
