/-
  A text in double quotes, on one line: a quote, a backslash, a newline, a carriage return and a
  tab are each written with a backslash, so that the text can be told from a number or a name.
-/
namespace WordStack.Text

/-- How a character stands between the quotes. -/
def quoteChar : Char → List Char
  | '"' => ['\\', '"']
  | '\\' => ['\\', '\\']
  | '\n' => ['\\', 'n']
  | '\r' => ['\\', 'r']
  | '\t' => ['\\', 't']
  | c => [c]

def quote (s : String) : String := "\"" ++ String.ofList (s.toList.flatMap quoteChar) ++ "\""

end WordStack.Text
