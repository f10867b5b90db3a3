import LiveMarkup.Decimal.Shortest

namespace LiveMarkup

structure DecimalLayout where
  least : Int
  greatest : Int

namespace DecimalLayout

def zeros (n : Nat) : List Char := List.replicate n '0'

/-- Digits with a point after the first `whole` of them, and a zero where a side is empty. -/
def positional (digits : List Char) (magnitude : Int) : List Char :=
  if magnitude < 0 then
    '0' :: '.' :: zeros (-magnitude - 1).toNat ++ digits
  else
    let whole := magnitude.toNat + 1
    if digits.length ≤ whole then digits ++ zeros (whole - digits.length) ++ ['.', '0']
    else digits.take whole ++ '.' :: digits.drop whole

/-- One digit, a point and the others if there are any, and the exponent with its sign. -/
def scientific (digits : List Char) (magnitude : Int) : List Char :=
  let point := if digits.length ≤ 1 then [] else '.' :: digits.drop 1
  let sign := if magnitude < 0 then '-' else '+'
  digits.take 1 ++ point ++ 'e' :: sign :: Nat.toDigits 10 magnitude.natAbs

def write (layout : DecimalLayout) (d : Decimal) : List Char :=
  let all := Nat.toDigits 10 d.digits
  let magnitude := d.exponent + (all.length : Int) - 1
  let kept := (all.reverse.dropWhile (· == '0')).reverse
  if layout.least ≤ magnitude && magnitude ≤ layout.greatest then positional kept magnitude
  else scientific kept magnitude

/-- The text of a finite double. A zero keeps its sign. -/
def writeFloat (layout : DecimalLayout) (x : Float) : String :=
  let sign := if x.toBits.toNat / Nat.pow 2 63 = 1 then ['-'] else []
  let b := Binary.ofFloat x
  let magnitude := if b.mantissa = 0 then ['0', '.', '0'] else layout.write b.shortest
  String.ofList (sign ++ magnitude)

end DecimalLayout

end LiveMarkup
