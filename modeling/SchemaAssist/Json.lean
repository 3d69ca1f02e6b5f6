/-
# JSON values

Values of the JSON notation and their printed forms: on one line without blanks, or over several
lines with two blanks for each level and the keys of objects in order.
-/

namespace SchemaAssist

/-- A JSON value.  A number is kept as it is written.  A string that holds one half of a pair of
UTF-16 units without the other is no text. -/
inductive Json where
  | null
  | bool (b : Bool)
  | number (written : String)
  | string (text? : Option String)
  | array (items : List Json)
  | object (members : List (Option String × Json))
  deriving Repr, Inhabited

namespace Json

/-- A text as a value. -/
def text (s : String) : Json := string (some s)

/-- A text that may be missing. -/
def text? (s? : Option String) : Json := (s?.map text).getD null

/-- Texts as an array. -/
def texts (ss : List String) : Json := array (ss.map text)

/-- An object with its keys in order. -/
def record (members : List (String × Json)) : Json :=
  object ((members.mergeSort fun a b => a.1 ≤ b.1).map fun (key, value) => (some key, value))

/-- The hexadecimal digit of a number below sixteen. -/
def hexDigit (n : Nat) : Char := Char.ofNat (if n < 10 then '0'.toNat + n else 'a'.toNat + n - 10)

/-- How a character stands in a string. -/
def escape (c : Char) : List Char :=
  match c with
  | '"' => ['\\', '"']
  | '\\' => ['\\', '\\']
  | '\n' => ['\\', 'n']
  | '\r' => ['\\', 'r']
  | '\t' => ['\\', 't']
  | '\x08' => ['\\', 'b']
  | '\x0c' => ['\\', 'f']
  | c =>
    if c.toNat < 0x20 then ['\\', 'u', '0', '0', hexDigit (c.toNat / 16), hexDigit (c.toNat % 16)]
    else [c]

/-- A string between quotes; one that is no text is shown as a replacement character. -/
def quote (text? : Option String) : String :=
  let content := (text?.getD "\ufffd").toList
  String.ofList ('"' :: content.flatMap escape ++ ['"'])

mutual

/-- A value on one line. -/
def compact : Json → String
  | null => "null"
  | bool b => if b then "true" else "false"
  | number written => written
  | string text? => quote text?
  | array items => "[" ++ ",".intercalate (compactItems items) ++ "]"
  | object members => "\x7b" ++ ",".intercalate (compactMembers members) ++ "\x7d"

/-- The items of an array, each on one line. -/
def compactItems : List Json → List String
  | [] => []
  | v :: vs => compact v :: compactItems vs

/-- The members of an object, each on one line. -/
def compactMembers : List (Option String × Json) → List String
  | [] => []
  | (key, v) :: ms => (quote key ++ ":" ++ compact v) :: compactMembers ms

end

/-- Parts between brackets, one to a line, inside so many levels; no parts stay on one line. -/
def bracket (opening closing : String) (level : Nat) (parts : List String) : String :=
  let start (level : Nat) : String := "\n" ++ String.ofList (List.replicate (2 * level) ' ')
  if parts.isEmpty then opening ++ closing
  else
    opening ++ start (level + 1) ++ ("," ++ start (level + 1)).intercalate parts ++ start level ++
      closing

mutual

/-- A value over several lines, inside so many levels. -/
def prettyAt (level : Nat) : Json → String
  | array items => bracket "[" "]" level (prettyItems (level + 1) items)
  | object members => bracket "\x7b" "\x7d" level (prettyMembers (level + 1) members)
  | v => compact v

/-- The items of an array over several lines. -/
def prettyItems (level : Nat) : List Json → List String
  | [] => []
  | v :: vs => prettyAt level v :: prettyItems level vs

/-- The members of an object over several lines. -/
def prettyMembers (level : Nat) : List (Option String × Json) → List String
  | [] => []
  | (key, v) :: ms => (quote key ++ ": " ++ prettyAt level v) :: prettyMembers level ms

end

/-- A value over several lines. -/
def pretty (v : Json) : String := prettyAt 0 v

end Json
end SchemaAssist
