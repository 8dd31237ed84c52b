import Twinfold.Text.CharClass

/-!
# Quoted texts and JSON documents

`quoted` shows a text between double quotes so that every character can be told:
quotes and backslashes are escaped, tab, carriage return, line feed and the null
character have escapes of their own, and what cannot be seen (`isEscaped`) is shown
by its code point.  `jsonString` is the string syntax of JSON, in which only quotes,
backslashes and control characters are escaped.

Reports are written as `Json` documents, with two printers: `Json.compact` writes no
spaces, and `Json.pretty` puts every element on a line of its own, two spaces further
in than what holds it.
-/

namespace Twinfold

/-! ### Quoted texts -/

namespace Text

/-- The lower-case hexadecimal digits of a number. -/
def hexDigits (n : Nat) : Text := Nat.toDigits 16 n

/-- How a character is shown inside quotes. -/
def quoteChar (c : Char) : Text :=
  if c = '"' then ['\\', '"']
  else if c = '\\' then ['\\', '\\']
  else if c = '\t' then ['\\', 't']
  else if c = '\r' then ['\\', 'r']
  else if c = '\n' then ['\\', 'n']
  else if c = '\x00' then ['\\', '0']
  else if isEscaped c then ['\\', 'u', '{'] ++ hexDigits c.toNat ++ ['}']
  else [c]

/-- The text between double quotes, every character visible. -/
def quoted (t : Text) : Text := '"' :: t.flatMap quoteChar ++ ['"']

/-- How a character is written in a JSON string. -/
def jsonChar (c : Char) : Text :=
  if c = '"' then ['\\', '"']
  else if c = '\\' then ['\\', '\\']
  else if c = '\x08' then ['\\', 'b']
  else if c = '\t' then ['\\', 't']
  else if c = '\n' then ['\\', 'n']
  else if c = '\x0c' then ['\\', 'f']
  else if c = '\r' then ['\\', 'r']
  else if c.toNat < 16 then "\\u000".toList ++ hexDigits c.toNat
  else if c.toNat < 32 then "\\u00".toList ++ hexDigits c.toNat
  else [c]

/-- The text as a JSON string. -/
def jsonString (t : Text) : Text := '"' :: t.flatMap jsonChar ++ ['"']

end Text

/-! ### Documents -/

/-- A JSON document of numbers, strings, arrays and objects. -/
inductive Json
  | num (n : Nat)
  | str (t : Text)
  | arr (items : List Json)
  | obj (fields : List (Text × Json))

namespace Json

mutual

/-- The document without spaces. -/
def compact : Json → Text
  | .num n => Text.ofNat n
  | .str t => t.jsonString
  | .arr items => '[' :: compactItems items ++ [']']
  | .obj fields => '{' :: compactFields fields ++ ['}']

/-- Elements with commas in between. -/
def compactItems : List Json → Text
  | [] => []
  | [j] => j.compact
  | j :: js => j.compact ++ ',' :: compactItems js

/-- Fields with commas in between. -/
def compactFields : List (Text × Json) → Text
  | [] => []
  | [(key, j)] => key.jsonString ++ ':' :: j.compact
  | (key, j) :: fields => key.jsonString ++ ':' :: j.compact ++ ',' :: compactFields fields

end

/-- A new line that begins `depth` steps in. -/
def newLine (depth : Nat) : Text := '\n' :: List.replicate (2 * depth) ' '

mutual

/-- The document over several lines; it begins `depth` steps in. -/
def pretty (depth : Nat) : Json → Text
  | .num n => Text.ofNat n
  | .str t => t.jsonString
  | .arr [] => ['[', ']']
  | .arr items => '[' :: prettyItems (depth + 1) items ++ newLine depth ++ [']']
  | .obj [] => ['{', '}']
  | .obj fields => '{' :: prettyFields (depth + 1) fields ++ newLine depth ++ ['}']

/-- Elements on lines of their own. -/
def prettyItems (depth : Nat) : List Json → Text
  | [] => []
  | [j] => newLine depth ++ j.pretty depth
  | j :: js => newLine depth ++ j.pretty depth ++ ',' :: prettyItems depth js

/-- Fields on lines of their own. -/
def prettyFields (depth : Nat) : List (Text × Json) → Text
  | [] => []
  | [(key, j)] => newLine depth ++ key.jsonString ++ ':' :: ' ' :: j.pretty depth
  | (key, j) :: fields =>
    newLine depth ++ key.jsonString ++ ':' :: ' ' :: j.pretty depth ++ ',' ::
      prettyFields depth fields

end

end Json

end Twinfold
