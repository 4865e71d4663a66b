import Stencil.Decimal.Shortest
import Stencil.Number

/-!
# Printed numbers

A number is printed with the fewest digits that read back as it, and never with an exponent.
-/

namespace Stencil.Number

/-- The magnitude of a finite number, as the shortest decimal. The steps below it are narrower than
those above at a power of two, the least ones apart. -/
def magnitude (x : Number) : Decimal :=
  if x.exponent = 0 then Decimal.shortest x.fraction (-1074) false
  else Decimal.shortest (0x10000000000000 + x.fraction) (x.exponent - 1075)
    (x.fraction = 0 && 1 < x.exponent)

/-- The text of a number. A zero has no sign, and neither has what is not a number. -/
def print (x : Number) : List Char :=
  if x.isNaN then ['N', 'a', 'N']
  else if x.isZero then ['0']
  else
    (if x.isNegative then ['-'] else []) ++
      if x.isInfinite then ['I', 'n', 'f', 'i', 'n', 'i', 't', 'y'] else x.magnitude.positional

theorem print_of_isNaN {x : Number} (h : x.isNaN = true) : x.print = ['N', 'a', 'N'] := by
  simp [print, h]

theorem print_of_isZero {x : Number} (h : x.isZero = true) : x.print = ['0'] := by
  simp [print, h, isNaN_eq_false_of_isZero h]

end Stencil.Number
