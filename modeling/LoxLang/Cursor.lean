import LoxLang.Token

/-!
# A cursor over tokens

A cursor stands between the tokens that were passed and those that lie ahead; behind the last of
them is the mark for the end, which is never passed.

## Main definitions

* `Cursor` — the tokens passed, those ahead, and the mark for the end.
* `Cursor.peek`, `Cursor.previous` — the tokens on either side.
* `Cursor.advance`, `Cursor.check`, `Cursor.match?` — moving and looking.
-/

namespace LoxLang

/-- A place between tokens. -/
structure Cursor where
  /-- The tokens passed, the latest first. -/
  passed : List Token
  ahead : List Token
  /-- The mark for the end. -/
  last : Token
deriving DecidableEq, Repr

namespace Cursor

/-- A cursor in front of the tokens of a source that ends on the given line. -/
def start (tokens : List Token) (lastLine : Nat) : Cursor := ⟨[], tokens, Token.atEnd lastLine⟩

/-- How many tokens were passed. -/
def index (c : Cursor) : Nat := c.passed.length

/-- Whether no token but the mark for the end lies ahead. -/
def atEnd (c : Cursor) : Bool := c.ahead.isEmpty

/-- The next token, or the mark for the end. -/
def peek (c : Cursor) : Token := c.ahead.headD c.last

/-- The token passed last. Before any is passed it is the one that lies furthest ahead. -/
def previous (c : Cursor) : Token := c.passed.headD c.last

/-- Passes the next token, if there is one. -/
def advance (c : Cursor) : Cursor :=
  match c.ahead with
  | [] => c
  | t :: rest => { c with passed := t :: c.passed, ahead := rest }

/-- Whether the next token is of a kind; the mark for the end is of none. -/
def check (c : Cursor) (kind : Token.Kind) : Bool := c.ahead.head?.any (·.kind == kind)

/-- Passes the next token if it is of one of some kinds. -/
def match? (c : Cursor) (kinds : List Token.Kind) : Option Token × Cursor :=
  if kinds.any c.check then (some c.advance.previous, c.advance) else (none, c)

end Cursor

end LoxLang
