import GaussJordan.Json.Basic

/-!
# GaussJordan.Json.Writer

Writing JSON text over several lines: two blanks for each level, one item or field on a line, and
empty arrays and objects closed at once. Only quotes, backslashes and control characters are
escaped.
-/

namespace GaussJordan

namespace Json

def escapeChar (c : Char) : List Char :=
  if c = '"' || c = '\\' then ['\\', c]
  else if c = '\n' then ['\\', 'n']
  else if c = '\r' then ['\\', 'r']
  else if c = '\t' then ['\\', 't']
  else if c = '\x08' then ['\\', 'b']
  else if c = '\x0c' then ['\\', 'f']
  else if c.toNat < 0x20 then '\\' :: 'u' :: hexDigits 4 c.toNat
  else [c]

def quote (s : String) : String :=
  String.ofList ('"' :: s.toList.flatMap escapeChar ++ ['"'])

def realText : Double → String
  | .infinite negative => if negative then "-Infinity" else "Infinity"
  | .nan => "NaN"
  | x => String.ofList x.shortest

/-- The break before an item at a level. -/
def lineBreak (level : Nat) : String := String.ofList ('\n' :: List.replicate (2 * level) ' ')

/-- Items between brackets, each on a line of its own one level further in. -/
def bracket (opening closing : String) (level : Nat) (items : List String) : String :=
  match items with
  | [] => opening ++ closing
  | items =>
    let inner := lineBreak (level + 1)
    opening ++ inner ++ ("," ++ inner).intercalate items ++ lineBreak level ++ closing

mutual

/-- A value that stands at a level. -/
def write (level : Nat) : Json → String
  | .null => "null"
  | .bool true => "true"
  | .bool false => "false"
  | .integer i => toString i
  | .real x => realText x
  | .string s => quote s
  | .array items => bracket "[" "]" level (writeItems (level + 1) items)
  | .object fields => bracket "\x7b" "\x7d" level (writeFields (level + 1) fields)

def writeItems (level : Nat) : List Json → List String
  | [] => []
  | item :: rest => item.write level :: writeItems level rest

def writeFields (level : Nat) : List (String × Json) → List String
  | [] => []
  | (key, value) :: rest => (quote key ++ ": " ++ value.write level) :: writeFields level rest

end

end Json

end GaussJordan
