import LoxLang.Number.Written
import LoxLang.Text.Quoted
import LoxLang.Token

/-!
# The table of tokens

Each token is shown in four columns: line, kind, lexeme and value. A long lexeme is cut, and one
that holds a line end or a tab is escaped after that; the value is shown as it is.

## Main definitions

* `TokenTable.row` — the row of a token.
* `TokenTable.render` — the table of some tokens.
-/

namespace LoxLang.TokenTable

/-- Fills a text up with blanks to a width. -/
def padded (width : Nat) (text : List Char) : List Char :=
  text ++ List.replicate (width - text.length) ' '

/-- The lexeme column: at most 24 characters, the end of a longer one replaced by dots. -/
def lexemeShown (lexeme : String) : List Char :=
  let text := lexeme.toList
  let text := if 24 < text.length then text.take 21 ++ ['.', '.', '.'] else text
  if text.contains '\n' || text.contains '\t' then Text.onOneLine text else text

/-- The value column, empty for a token without one. -/
def valueShown (t : Token) : String :=
  match t.literal? with
  | some (.number x) => listedNumber x
  | some (.string s) => s
  | _ => ""

/-- The three columns of fixed width and what follows them. -/
def columns (line kind lexeme : List Char) (value : String) : String :=
  String.ofList (padded 6 line ++ ['|', ' '] ++ padded 16 kind ++ ['|', ' '] ++ padded 24 lexeme ++
    ['|', ' ']) ++ value ++ "\n"

/-- The row of a token. -/
def row (t : Token) : String :=
  columns (Nat.toDigits 10 t.line) t.kind.label.toList (lexemeShown t.lexeme) (valueShown t)

/-- The two lines above the rows. -/
def head : String :=
  columns "Line".toList "Token".toList "Lexeme".toList "Literal" ++
    String.ofList (List.replicate 70 '-') ++ "\n"

/-- The table of some tokens. -/
def render (tokens : List Token) : String :=
  match tokens with
  | [] => "No tokens found!\n"
  | _ => head ++ String.join (tokens.map row)

end LoxLang.TokenTable
