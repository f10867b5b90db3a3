/-!
# Shortest decimals of binary numbers

A finite double is `mantissa · 2 ^ exponent`. `Binary.shortest` is the decimal with the fewest
digits among those that round to it, and the nearest of these; an exact tie goes to the even
digit. All comparisons are made in exact natural arithmetic.
-/

namespace LiveMarkup

structure Binary where
  mantissa : Nat
  exponent : Int
deriving DecidableEq

structure Decimal where
  digits : Nat
  exponent : Int
deriving DecidableEq

namespace Binary

def ofFloat (x : Float) : Binary :=
  let bits := x.toBits.toNat
  let fraction : Nat := bits % Nat.pow 2 52
  let field : Nat := bits / Nat.pow 2 52 % Nat.pow 2 11
  if field = 0 then ⟨fraction, -1074⟩ else ⟨Nat.pow 2 52 + fraction, (field : Int) - 1075⟩

/-- `b ^ e` on the side of a fraction where a positive exponent puts it. -/
def power (b : Nat) (e : Int) : Nat := b.pow e.toNat

/-- Four times the lower end of the numbers that round to `x`, in units of `2 ^ exponent`. Below
a power of two the neighbour is half as far. -/
def lower (x : Binary) : Nat :=
  if x.mantissa = Nat.pow 2 52 && decide (-1074 < x.exponent) then 4 * x.mantissa - 1
  else 4 * x.mantissa - 2

/-- Four times the upper end, in the same units. -/
def upper (x : Binary) : Nat := 4 * x.mantissa + 2

/-- Numerator and denominator of a quarter of `2 ^ exponent` counted in units of `10 ^ unit`. -/
def ratio (x : Binary) (unit : Int) : Nat × Nat :=
  (power 2 x.exponent * power 10 (-unit), 4 * power 2 (-x.exponent) * power 10 unit)

/-- `d · 10 ^ unit` rounds to `x`. The ends round to the even mantissa. -/
def holds (x : Binary) (unit : Int) (d : Nat) : Bool :=
  let (n, m) := x.ratio unit
  if x.mantissa % 2 = 0 then decide (x.lower * n ≤ d * m) && decide (d * m ≤ x.upper * n)
  else decide (x.lower * n < d * m) && decide (d * m < x.upper * n)

/-- The nearer of the two neighbours of `x` on the grid of `10 ^ unit` that round to `x`. -/
def onGrid (x : Binary) (unit : Int) : Option Nat :=
  let (n, m) := x.ratio unit
  let value := 4 * x.mantissa * n
  let down := value / m
  let up := down + 1
  match x.holds unit down, x.holds unit up with
  | true, true =>
    let below := value - down * m
    let above := up * m - value
    if below < above || (below == above && down % 2 == 0) then some down else some up
  | true, false => some down
  | false, true => some up
  | false, false => none

/-- The power of ten of the first digit of `x`. -/
def magnitude (x : Binary) : Int :=
  let scaled := x.mantissa * Nat.pow 10 400 * power 2 x.exponent / power 2 (-x.exponent)
  ((Nat.toDigits 10 scaled).length : Int) - 401

/-- The first grid of one to seventeen digits with a number that rounds to `x`. -/
def search (x : Binary) (top : Int) : Nat → Nat → Decimal
  | 0, _ => ⟨x.mantissa, 0⟩
  | fuel + 1, count =>
    let unit := top - count
    match x.onGrid unit with
    | some d => ⟨d, unit⟩
    | none => search x top fuel (count + 1)

/-- The nearest of the decimals with the fewest digits that round to `x`. -/
def shortest (x : Binary) : Decimal := x.search x.magnitude 17 0

end Binary

end LiveMarkup
