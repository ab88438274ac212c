import GaussJordan.Complex
import GaussJordan.Literal.Value
import GaussJordan.Text.Blank
import GaussJordan.Text.LowerCase

/-!
# GaussJordan.Literal.Token

Reading a token as a complex value. Blanks around it and the case of its letters do not count; its
faults name it as it was given. They are looked for in this order: nothing there, characters
outside the alphabet, not a literal, no value, not finite.
-/

namespace GaussJordan

namespace Literal

/-- The characters of literals. -/
def alphabet : List Char := "0123456789.+-/ie".toList

/-- The distinct characters outside the alphabet, by code point. -/
def strangers (cs : List Char) : List Char :=
  (cs.filter fun c => !alphabet.contains c).eraseDups.mergeSort fun a b => a.toNat ≤ b.toNat

/-- The text of a token that is read. -/
def tokenText (token : String) : List Char := Text.lowerCase (Text.strip token.toList)

end Literal

/-- The complex value of a token. -/
def readValue (token : String) : Except Fault (Complex Double) :=
  let text := Literal.tokenText token
  if text.isEmpty then .error (.malformed .emptyToken)
  else
    match Literal.strangers text with
    | bad@(_ :: _) => .error (.malformed (.invalidCharacters token bad))
    | [] =>
      match Literal.read? text with
      | none => .error (.malformed (.notLiteral token))
      | some literal =>
        match literal.value with
        | .ok (re, im) => .ok ⟨re, im⟩
        | .error .unreadable => .error (.malformed (.unreadable token))
        | .error .notFinite => .error (.malformed (.notFinite token))

end GaussJordan
