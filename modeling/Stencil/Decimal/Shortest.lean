import Stencil.Decimal

/-!
# The shortest decimal of a binary fraction

Of the decimals that round to a binary fraction, the shortest lies on the coarsest grid of powers of
ten that meets the interval of such numbers. On that grid only the two neighbours of the fraction
have to be tried. All arithmetic is exact.
-/

namespace Stencil.Decimal

/-- A fraction `value` and the interval of numbers that round to it, all in one unit. The ends
belong to the interval if it is `closed`. -/
structure Interval where
  low : Nat
  value : Nat
  high : Nat
  closed : Bool

namespace Interval

def holds (i : Interval) (n : Nat) : Bool :=
  if i.closed then i.low ≤ n && n ≤ i.high else i.low < n && n < i.high

/-- The neighbour of the value on the grid of `10 ^ j` that rounds to it; of two the nearer, and the
upper one if they are equally near. It is given in units of the grid. -/
def neighbour? (i : Interval) (j : Nat) : Option Nat :=
  let grid := Nat.pow 10 j
  let below := i.value / grid
  let excess := i.value % grid
  match i.holds (below * grid), i.holds ((below + 1) * grid) with
  | true, true => some (if 2 * excess < grid then below else below + 1)
  | true, false => some below
  | false, true => some (below + 1)
  | false, false => none

/-- The first hit on the grids from `10 ^ j` down, and its grid. The finest grid holds the value. -/
def coarsest (i : Interval) : (j : Nat) → Nat × Nat
  | 0 => (i.value, 0)
  | j + 1 =>
    match i.neighbour? (j + 1) with
    | some n => (n, j + 1)
    | none => i.coarsest j

end Interval

/-- The interval around `m * 2 ^ q`, and the power of ten that is its unit. Half a step away on
either side the rounding changes, on the lower side a quarter if the steps below are `narrow`. -/
def interval (m : Nat) (q : Int) (narrow : Bool) : Interval × Int :=
  let unit := if 2 ≤ q then Nat.pow 2 (q - 2).toNat else Nat.pow 5 (2 - q).toNat
  (⟨(4 * m - if narrow then 1 else 2) * unit, 4 * m * unit, (4 * m + 2) * unit, m % 2 = 0⟩,
    min (q - 2) 0)

/-- The shortest decimal that rounds to `m * 2 ^ q`, for `m` at least 1. -/
def shortest (m : Nat) (q : Int) (narrow : Bool) : Decimal :=
  let (i, unit) := interval m q narrow
  let (n, j) := i.coarsest (Nat.toDigits 10 i.value).length
  ⟨n, unit + j⟩

example : shortest 5 0 false = ⟨5, 0⟩ := by decide
example : shortest 0x1999999999999a (-56) false = ⟨1, -1⟩ := by decide +kernel
example : shortest 1 (-1074) false = ⟨5, -324⟩ := by decide +kernel
example : shortest 0x10000000000000 (-77) true = ⟨29802322387695313, -24⟩ := by decide +kernel

end Stencil.Decimal
