/-!
# Numbers

A number is a double, given by its 64 bits: a sign, an exponent and a fraction. The bits are kept as
they come, so what is not a number has a sign and a fraction too. Equality of bits is equality of
the type; `equals` is equality of what the bits stand for.
-/

namespace Stencil

structure Number where
  bits : UInt64
deriving DecidableEq

namespace Number

def ofFloat (x : Float) : Number := ⟨x.toBits⟩

/-- The number nearest to `n`. -/
def ofInt (n : Int) : Number := ofFloat (.ofInt n)

def isNegative (x : Number) : Bool := 0x8000000000000000 ≤ x.bits.toNat

def exponent (x : Number) : Nat := x.bits.toNat / 0x10000000000000 % 0x800

def fraction (x : Number) : Nat := x.bits.toNat % 0x10000000000000

def isZero (x : Number) : Bool := x.exponent = 0 ∧ x.fraction = 0

def isInfinite (x : Number) : Bool := x.exponent = 2047 ∧ x.fraction = 0

def isNaN (x : Number) : Bool := x.exponent = 2047 ∧ x.fraction ≠ 0

/-- Equality as numbers: the zeros are equal, and what is not a number differs from itself. -/
def equals (x y : Number) : Bool := !x.isNaN && (x = y || x.isZero && y.isZero)

/-- A number is one of the zeros exactly if no bit but the sign is set. -/
theorem isZero_iff {x : Number} : x.isZero = true ↔ x.bits.toNat % 0x8000000000000000 = 0 := by
  unfold isZero exponent fraction
  rw [decide_eq_true_iff]
  omega

theorem isNaN_eq_false_of_isZero {x : Number} (h : x.isZero = true) : x.isNaN = false := by
  simp_all [isZero, isNaN]

theorem equals_self (x : Number) : x.equals x = !x.isNaN := by simp [equals]

theorem equals_comm (x y : Number) : x.equals y = y.equals x := by
  unfold equals
  by_cases h : x = y
  · rw [h]
  · have hy : y ≠ x := Ne.symm h
    cases hx : x.isZero <;> cases hz : y.isZero <;>
      simp_all [isNaN_eq_false_of_isZero]

end Number

end Stencil
