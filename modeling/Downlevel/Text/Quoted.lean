/-! # Quoted strings of scripts

Text between single quotes, in which quotes, backslashes and line ends are escaped. -/

namespace Downlevel.Text

def quoteChar : Char → List Char
  | '\'' => ['\\', '\'']
  | '\\' => ['\\', '\\']
  | '\n' => ['\\', 'n']
  | '\r' => ['\\', 'r']
  | c => [c]

def quoted (s : String) : String :=
  "'" ++ String.ofList (s.toList.flatMap quoteChar) ++ "'"

/-- What stands between the first and the last character of a literal. -/
def unquoted (literal : List Char) : List Char := (literal.drop 1).dropLast

def lineFeeds (cs : List Char) : List Char := cs.filter (· == '\n')

end Downlevel.Text
