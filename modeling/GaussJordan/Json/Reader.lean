import GaussJordan.Json.Basic
import GaussJordan.Operand

/-!
# GaussJordan.Json.Reader

Reading JSON text. The words `NaN`, `Infinity` and `-Infinity` count as numbers, a repeated key
keeps the place of its first and the value of its last occurrence, and control characters have to
be escaped inside strings. A text that starts with a byte order mark is refused. An integer of more
than 4300 digits is a fault of its own kind.
-/

namespace GaussJordan

namespace Json

inductive ReadFault where
  | malformed
  | longInteger
  deriving DecidableEq

abbrev Reader (β : Type) := List Char → Except ReadFault (β × List Char)

def isSpace (c : Char) : Bool := c = ' ' || c = '\t' || c = '\n' || c = '\r'

def skipSpace (cs : List Char) : List Char := cs.dropWhile isSpace

/-- The rest of a text after a given beginning. -/
def after? : List Char → List Char → Option (List Char)
  | [], cs => some cs
  | p :: ps, c :: cs => if p = c then after? ps cs else none
  | _ :: _, [] => none

/-! ## Strings -/

def hexValue? (c : Char) : Option Nat :=
  if '0' ≤ c && c ≤ '9' then some (c.toNat - '0'.toNat)
  else if 'a' ≤ c && c ≤ 'f' then some (c.toNat - 'a'.toNat + 10)
  else if 'A' ≤ c && c ≤ 'F' then some (c.toNat - 'A'.toNat + 10)
  else none

def readUnit? : List Char → Option (Nat × List Char)
  | a :: b :: c :: d :: rest => do
    let a ← hexValue? a
    let b ← hexValue? b
    let c ← hexValue? c
    let d ← hexValue? d
    return (((a * 16 + b) * 16 + c) * 16 + d, rest)
  | _ => none

/-- The character of one UTF-16 unit; a lone surrogate has none and becomes U+FFFD. -/
def unitChar (unit : Nat) : Char :=
  if 0xd800 ≤ unit && unit < 0xe000 then '\ufffd' else Char.ofNat unit

/-- The character after `\u`: two escapes may make up a surrogate pair. -/
def readEscapedUnit? (cs : List Char) : Option (Char × List Char) := do
  let (high, rest) ← readUnit? cs
  if 0xd800 ≤ high && high < 0xdc00 then
    match rest with
    | '\\' :: 'u' :: more =>
      match readUnit? more with
      | some (low, more) =>
        if 0xdc00 ≤ low && low < 0xe000 then
          return (Char.ofNat (0x10000 + (high - 0xd800) * 0x400 + (low - 0xdc00)), more)
        else return (unitChar high, rest)
      | none => none
    | _ => return (unitChar high, rest)
  else return (unitChar high, rest)

def readEscape? : List Char → Option (Char × List Char)
  | '"' :: rest => some ('"', rest)
  | '\\' :: rest => some ('\\', rest)
  | '/' :: rest => some ('/', rest)
  | 'b' :: rest => some ('\x08', rest)
  | 'f' :: rest => some ('\x0c', rest)
  | 'n' :: rest => some ('\n', rest)
  | 'r' :: rest => some ('\r', rest)
  | 't' :: rest => some ('\t', rest)
  | 'u' :: rest => readEscapedUnit? rest
  | _ => none

/-- The characters of a string up to its closing quote. The fuel bounds their number. -/
def readChars (fuel : Nat) (done : List Char) : Reader String := fun cs =>
  match fuel, cs with
  | _, '"' :: rest => .ok (String.ofList done.reverse, rest)
  | fuel + 1, '\\' :: rest =>
    match readEscape? rest with
    | some (c, rest) => readChars fuel (c :: done) rest
    | none => .error .malformed
  | fuel + 1, c :: rest =>
    if c.toNat < 0x20 then .error .malformed else readChars fuel (c :: done) rest
  | _, _ => .error .malformed

def readString : Reader String := fun cs => readChars cs.length [] cs

/-! ## Numbers -/

def readFraction (cs : List Char) : List Char × List Char :=
  match cs with
  | '.' :: rest =>
    match rest.takeWhile Char.isDigit with
    | [] => ([], cs)
    | ds => (ds, rest.dropWhile Char.isDigit)
  | _ => ([], cs)

def readExponent (cs : List Char) : Option Int × List Char :=
  match cs with
  | e :: rest =>
    if e = 'e' || e = 'E' then
      let (negative, rest) := match rest with
        | '-' :: rest => (true, rest)
        | '+' :: rest => (false, rest)
        | rest => (false, rest)
      match rest.takeWhile Char.isDigit with
      | [] => (none, cs)
      | ds =>
        let n : Int := Nat.ofDigitChars 10 ds 0
        (some (if negative then -n else n), rest.dropWhile Char.isDigit)
    else (none, cs)
  | [] => (none, cs)

/-- The double nearest to `digits · 10 ^ exponent`. An exponent far outside the range of binary64
decides by itself. -/
def decimalDouble (negative : Bool) (ds : List Char) (exponent : Int) : Double :=
  let n := Nat.ofDigitChars 10 ds 0
  let size := (Nat.toDigits 10 n).length
  if n = 0 then .signedZero negative
  else if 400 < exponent + size then .infinite negative
  else if exponent + size < -400 then .signedZero negative
  else if 0 ≤ exponent then .ofRatio negative (n * Nat.pow 10 exponent.toNat) 1
  else .ofRatio negative n (Nat.pow 10 (-exponent).toNat)

/-- The longest run of digits read as an integer. -/
def maxIntegerDigits : Nat := 4300

def readNumber (negative : Bool) : Reader Json := fun cs =>
  let wholeRest : Option (List Char × List Char) := match cs with
    | '0' :: rest => some (['0'], rest)
    | cs =>
      match cs.takeWhile Char.isDigit with
      | [] => none
      | ds => some (ds, cs.dropWhile Char.isDigit)
  match wholeRest with
  | none => .error .malformed
  | some (whole, rest) =>
    let (fraction, rest) := readFraction rest
    let (exponent, rest) := readExponent rest
    if fraction.isEmpty && exponent.isNone then
      if maxIntegerDigits < whole.length then .error .longInteger
      else
        let n : Int := Nat.ofDigitChars 10 whole 0
        .ok (.integer (if negative then -n else n), rest)
    else
      .ok (.real (decimalDouble negative (whole ++ fraction)
        (exponent.getD 0 - fraction.length)), rest)

/-! ## Values -/

def keywords : List (List Char × Json) := [
  ("null".toList, .null), ("true".toList, .bool true), ("false".toList, .bool false),
  ("NaN".toList, .real .nan), ("Infinity".toList, .real (.infinite false)),
  ("-Infinity".toList, .real (.infinite true))]

def readKeyword? (cs : List Char) : Option (Json × List Char) :=
  keywords.findSome? fun (word, value) => (after? word cs).map fun rest => (value, rest)

mutual

/-- A value without blanks before it. The fuel bounds the number of values. -/
def readValue (fuel : Nat) : Reader Json := fun cs =>
  match fuel with
  | 0 => .error .malformed
  | fuel + 1 =>
    match cs with
    | '"' :: rest => do
      let (s, rest) ← readString rest
      return (.string s, rest)
    | '[' :: rest =>
      match skipSpace rest with
      | ']' :: rest => .ok (.array [], rest)
      | rest => readItems fuel [] rest
    | '\x7b' :: rest =>
      match skipSpace rest with
      | '\x7d' :: rest => .ok (.object [], rest)
      | rest => readFields fuel [] rest
    | cs =>
      match readKeyword? cs with
      | some found => .ok found
      | none =>
        match cs with
        | '-' :: rest => readNumber true rest
        | cs => readNumber false cs

def readItems (fuel : Nat) (done : List Json) : Reader Json := fun cs =>
  match fuel with
  | 0 => .error .malformed
  | fuel + 1 => do
    let (item, rest) ← readValue fuel cs
    match skipSpace rest with
    | ',' :: rest => readItems fuel (item :: done) (skipSpace rest)
    | ']' :: rest => return (.array (item :: done).reverse, rest)
    | _ => throw .malformed

def readFields (fuel : Nat) (done : List (String × Json)) : Reader Json := fun cs =>
  match fuel with
  | 0 => .error .malformed
  | fuel + 1 =>
    match cs with
    | '"' :: rest => do
      let (key, rest) ← readString rest
      match skipSpace rest with
      | ':' :: rest => do
        let (value, rest) ← readValue fuel (skipSpace rest)
        match skipSpace rest with
        | ',' :: rest => readFields fuel (put key value done) (skipSpace rest)
        | '\x7d' :: rest => return (.object (put key value done), rest)
        | _ => throw .malformed
      | _ => throw .malformed
    | _ => .error .malformed

end

/-- A whole text as one value with blanks around it. Values may be nested to any depth; the limit
that an interpreter sets to its recursion, about a thousand open brackets, is left out. -/
def read (cs : List Char) : Except ReadFault Json :=
  match cs with
  | '\ufeff' :: _ => .error .malformed
  | cs => do
    let (value, rest) ← readValue (cs.length + 1) (skipSpace cs)
    if (skipSpace rest).isEmpty then return value else throw .malformed

end Json

end GaussJordan
