/-!
# GaussJordan.Text.Utf8

Decoding of UTF-8. Bytes that are not valid UTF-8 are refused with the place and the kind of the
first fault: a byte that starts no character, a character whose next byte does not continue it, or
the end of the data inside a character.
-/

namespace GaussJordan

namespace Text

inductive Utf8Cause where
  | invalidStart
  | invalidContinuation
  | unexpectedEnd

def Utf8Cause.message : Utf8Cause → String
  | .invalidStart => "invalid start byte"
  | .invalidContinuation => "invalid continuation byte"
  | .unexpectedEnd => "unexpected end of data"

/-- The bytes at fault: their position, the first of them, and their number. -/
structure Utf8Fault where
  position : Nat
  firstByte : UInt8
  count : Nat
  cause : Utf8Cause

namespace Utf8Fault

def message (fault : Utf8Fault) : String :=
  let cause := fault.cause.message
  let first := fault.position
  if fault.count = 1 then
    let ds := Nat.toDigits 16 fault.firstByte.toNat
    let byte := String.ofList (List.replicate (2 - ds.length) '0' ++ ds)
    s!"'utf-8' codec can't decode byte 0x{byte} in position {first}: {cause}"
  else
    let last := first + fault.count - 1
    s!"'utf-8' codec can't decode bytes in position {first}-{last}: {cause}"

end Utf8Fault

def continues (b : UInt8) : Bool := 0x80 ≤ b && b < 0xc0

/-- The low six bits of a continuation byte. -/
def payload (b : UInt8) : Nat := b.toNat % 64

/-- Whether a byte may come second in a character of three or four bytes. The range excludes
longer forms than needed, surrogates, and code points beyond the last one. -/
def secondFits (first second : UInt8) : Bool :=
  continues second &&
    (if first = 0xe0 then 0xa0 ≤ second
    else if first = 0xed then second < 0xa0
    else if first = 0xf0 then 0x90 ≤ second
    else if first = 0xf4 then second < 0x90
    else true)

def decodeFrom (position : Nat) : List UInt8 → Except Utf8Fault (List Char)
  | [] => .ok []
  | a :: rest =>
    let stop (count : Nat) (cause : Utf8Cause) : Except Utf8Fault (List Char) :=
      .error ⟨position, a, count, cause⟩
    if a < 0x80 then do
      return Char.ofNat a.toNat :: (← decodeFrom (position + 1) rest)
    else if a < 0xc2 then stop 1 .invalidStart
    else if a < 0xe0 then
      match rest with
      | [] => stop 1 .unexpectedEnd
      | b :: rest =>
        if continues b then do
          return Char.ofNat (a.toNat % 32 * 64 + payload b) :: (← decodeFrom (position + 2) rest)
        else stop 1 .invalidContinuation
    else if a < 0xf0 then
      match rest with
      | [] => stop 1 .unexpectedEnd
      | b :: rest =>
        if !secondFits a b then stop 1 .invalidContinuation
        else
          match rest with
          | [] => stop 2 .unexpectedEnd
          | c :: rest =>
            if continues c then do
              return Char.ofNat ((a.toNat % 16 * 64 + payload b) * 64 + payload c) ::
                (← decodeFrom (position + 3) rest)
            else stop 2 .invalidContinuation
    else if a < 0xf5 then
      match rest with
      | [] => stop 1 .unexpectedEnd
      | b :: rest =>
        if !secondFits a b then stop 1 .invalidContinuation
        else
          match rest with
          | [] => stop 2 .unexpectedEnd
          | c :: rest =>
            if !continues c then stop 2 .invalidContinuation
            else
              match rest with
              | [] => stop 3 .unexpectedEnd
              | d :: rest =>
                if continues d then do
                  return Char.ofNat
                      (((a.toNat % 8 * 64 + payload b) * 64 + payload c) * 64 + payload d) ::
                    (← decodeFrom (position + 4) rest)
                else stop 3 .invalidContinuation
    else stop 1 .invalidStart

def decode (bytes : ByteArray) : Except Utf8Fault (List Char) := decodeFrom 0 bytes.toList

/-- A carriage return, with the line feed that may follow it, ends a line as a line feed does. -/
def normalizeLines : List Char → List Char
  | '\r' :: '\n' :: rest => '\n' :: normalizeLines rest
  | '\r' :: rest => '\n' :: normalizeLines rest
  | c :: rest => c :: normalizeLines rest
  | [] => []

def ofBytes (bytes : ByteArray) : Except Utf8Fault (List Char) := do
  return normalizeLines (← decode bytes)

end Text

end GaussJordan
