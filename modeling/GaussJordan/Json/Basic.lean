import GaussJordan.Shortest
import GaussJordan.Text.Printable

/-!
# GaussJordan.Json.Basic

JSON values. Numbers written as integers stay exact integers, the other ones are doubles, NaN and
the infinities included. The keys of an object are distinct and keep their order.

`Json.display` shows a value in the text of an error.
-/

namespace GaussJordan

inductive Json where
  | null
  | bool (value : Bool)
  | integer (value : Int)
  | real (value : Double)
  | string (value : String)
  | array (items : List Json)
  | object (fields : List (String × Json))

namespace Json

/-! ## Fields of an object -/

/-- Sets a key: in its place if it is there, at the end if not. -/
def put {β : Type} (key : String) (value : β) : List (String × β) → List (String × β)
  | [] => [(key, value)]
  | (k, v) :: rest => if k = key then (k, value) :: rest else (k, v) :: put key value rest

def find? {β : Type} (key : String) (fields : List (String × β)) : Option β :=
  (fields.find? fun (k, _) => k == key).map (·.2)

theorem find?_put_self {β : Type} (key : String) (value : β) (fields : List (String × β)) :
    find? key (put key value fields) = some value := by
  induction fields with
  | nil => simp [put, find?]
  | cons field rest ih =>
    obtain ⟨k, v⟩ := field
    by_cases h : k = key
    · simp [put, find?, h]
    · simpa [put, find?, h] using ih

theorem find?_put_of_ne {β : Type} {key other : String} (h : other ≠ key) (value : β)
    (fields : List (String × β)) : find? other (put key value fields) = find? other fields := by
  induction fields with
  | nil => simp [put, find?, h.symm]
  | cons field rest ih =>
    obtain ⟨k, v⟩ := field
    by_cases hk : k = key
    · subst hk
      simp [put, find?, h.symm]
    · by_cases ho : k = other
      · subst ho
        simp [put, find?, hk]
      · simp only [find?] at ih
        simp [put, find?, hk, ho, ih]

def merge {β : Type} (fields more : List (String × β)) : List (String × β) :=
  more.foldl (fun fields (k, v) => put k v fields) fields

def field? (key : String) : Json → Option Json
  | .object fields => find? key fields
  | _ => none

/-- What a value is made up of, one after the other: the items of an array, the keys of an object,
the characters of a string. -/
def elements? : Json → Option (List Json)
  | .array items => some items
  | .object fields => some (fields.map fun (k, _) => .string k)
  | .string s => some (s.toList.map fun c => .string c.toString)
  | _ => none

/-! ## Display -/

def hexDigits (width n : Nat) : List Char :=
  let ds := Nat.toDigits 16 n
  List.replicate (width - ds.length) '0' ++ ds

/-- A character inside a quoted text. -/
def displayChar (quote c : Char) : List Char :=
  if c = quote || c = '\\' then ['\\', c]
  else if c = '\n' then ['\\', 'n']
  else if c = '\r' then ['\\', 'r']
  else if c = '\t' then ['\\', 't']
  else if Text.isPrintable c then [c]
  else if c.toNat < 0x100 then '\\' :: 'x' :: hexDigits 2 c.toNat
  else if c.toNat < 0x10000 then '\\' :: 'u' :: hexDigits 4 c.toNat
  else '\\' :: 'U' :: hexDigits 8 c.toNat

/-- A text in single quotes, or in double quotes if it has single quotes only. -/
def displayString (s : String) : String :=
  let cs := s.toList
  let quote := if cs.contains '\'' && !cs.contains '"' then '"' else '\''
  String.ofList (quote :: cs.flatMap (displayChar quote) ++ [quote])

mutual

def display : Json → String
  | .null => "None"
  | .bool true => "True"
  | .bool false => "False"
  | .integer i => toString i
  | .real x => String.ofList x.shortest
  | .string s => displayString s
  | .array items => "[" ++ ", ".intercalate (displayItems items) ++ "]"
  | .object fields => "\x7b" ++ ", ".intercalate (displayFields fields) ++ "\x7d"

def displayItems : List Json → List String
  | [] => []
  | item :: rest => item.display :: displayItems rest

def displayFields : List (String × Json) → List String
  | [] => []
  | (key, value) :: rest => (displayString key ++ ": " ++ value.display) :: displayFields rest

end

mutual

/-- The largest magnitude of an integer in a value. -/
def largestInteger : Json → Nat
  | .integer i => i.natAbs
  | .array items => largestOfItems items
  | .object fields => largestOfFields fields
  | _ => 0

def largestOfItems : List Json → Nat
  | [] => 0
  | item :: rest => max item.largestInteger (largestOfItems rest)

def largestOfFields : List (String × Json) → Nat
  | [] => 0
  | (_, value) :: rest => max value.largestInteger (largestOfFields rest)

end

end Json

end GaussJordan
