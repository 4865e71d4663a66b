/-!
# Decimals and their positional text

A decimal is `digits * 10 ^ exponent`. Its positional text has no exponent: zeros are written out
on the right of a large number, and behind the point of a small one.
-/

namespace Stencil

/-- The number `digits * 10 ^ exponent`. -/
structure Decimal where
  digits : Nat
  exponent : Int
deriving DecidableEq

namespace Decimal

/-- Sets a point `places` before the end of `cs`, with zeros in front where digits are missing. -/
def withPoint (cs : List Char) (places : Nat) : List Char :=
  let padded := List.replicate (places + 1 - cs.length) '0' ++ cs
  let whole := padded.length - places
  padded.take whole ++ '.' :: padded.drop whole

/-- The number without an exponent. -/
def positional (d : Decimal) : List Char :=
  let cs := Nat.toDigits 10 d.digits
  match d.exponent with
  | .ofNat zeros => cs ++ List.replicate zeros '0'
  | .negSucc n => withPoint cs (n + 1)

example : positional ⟨123, 2⟩ = "12300".toList := by decide
example : positional ⟨123, -2⟩ = "1.23".toList := by decide
example : positional ⟨5, -3⟩ = "0.005".toList := by decide

end Decimal

end Stencil
