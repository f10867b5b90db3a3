import LiveMarkup.Json.Path

/-!
# Reading a JSON number

An integer that fits 64 bits is exact. Any other number is a double: its leading digits are
gathered in a 64-bit significand, which is then scaled by a power of ten. Digits beyond the
significand count only through their place.
-/

namespace LiveMarkup

namespace JsonNumber

def maxSignificand : Nat := Nat.pow 2 64 - 1

def maxExponent : Nat := Nat.pow 2 31 - 1

def digit? : List Char → Option (Nat × List Char)
  | [] => none
  | c :: rest => if c.isDigit then some (c.toNat - 48, rest) else none

/-- `significand` with the digits put behind it while it stays below the limit: the result, how
many digits it took, and the text from the first digit that it did not take. -/
def gather (limit : Nat) (significand : Nat) : List Char → Nat × Nat × List Char
  | [] => (significand, 0, [])
  | c :: rest =>
    if c.isDigit && decide (10 * significand + (c.toNat - 48) ≤ limit) then
      let (n, taken, rest) := gather limit (10 * significand + (c.toNat - 48)) rest
      (n, taken + 1, rest)
    else (significand, 0, c :: rest)

/-- `10 ^ n` to the nearest double. -/
def tenPower (n : Nat) : Float := Float.ofScientific 1 false n

/-- Divides by ten to the 308th as often as the exponent asks for, until nothing is left. -/
def scaleDown (x : Float) (exponent : Nat) : Nat → Float
  | 0 => x
  | fuel + 1 =>
    if exponent ≤ 308 then x / tenPower exponent
    else if x == 0.0 then x
    else scaleDown (x / tenPower 308) (exponent - 308) fuel

/-- `significand · 10 ^ exponent`, rounded once for the significand and once for each scaling.
Nothing if the number is too large. -/
def scale? (significand : Nat) (exponent : Int) : Option Float :=
  let x := Float.ofNat significand
  if exponent < 0 then some (scaleDown x exponent.natAbs (exponent.natAbs / 308 + 1))
  else if 308 < exponent then (if significand = 0 then some x else none)
  else
    let y := x * tenPower exponent.toNat
    if y.isInf then none else some y

def signed (negative : Bool) (x : Float) : Float := if negative then -x else x

/-- The number with the digits of an exponent still to come, after its mark. -/
def afterMark? (negative : Bool) (significand : Nat) (exponent : Int) (cs : List Char) :
    Option (JsonNumber × List Char) :=
  let (down, cs) :=
    match cs with
    | '+' :: rest => (false, rest)
    | '-' :: rest => (true, rest)
    | _ => (false, cs)
  match digit? cs with
  | none => none
  | some (d, rest) =>
    let (n, _, rest) := gather maxExponent d rest
    match digit? rest with
    | some _ =>
      if significand ≠ 0 && !down then none
      else some (.double (signed negative 0.0), rest.dropWhile Char.isDigit)
    | none =>
      (scale? significand (if down then exponent - n else exponent + n)).map fun x =>
        (.double (signed negative x), rest)

/-- The number after its digits, perhaps with an exponent. -/
def finish? (negative : Bool) (significand : Nat) (exponent : Int) (cs : List Char) :
    Option (JsonNumber × List Char) :=
  match cs with
  | 'e' :: rest => afterMark? negative significand exponent rest
  | 'E' :: rest => afterMark? negative significand exponent rest
  | _ => (scale? significand exponent).map fun x => (.double (signed negative x), cs)

/-- The number after its point. At least one digit has to follow. -/
def afterPoint? (negative : Bool) (significand : Nat) (exponent : Int) (cs : List Char) :
    Option (JsonNumber × List Char) :=
  match digit? cs with
  | none => none
  | some _ =>
    let (n, taken, rest) := gather maxSignificand significand cs
    finish? negative n (exponent - taken) (rest.dropWhile Char.isDigit)

/-- The number whose whole digits have been gathered. -/
def afterWhole? (negative : Bool) (significand : Nat) (cs : List Char) :
    Option (JsonNumber × List Char) :=
  match cs with
  | '.' :: rest => afterPoint? negative significand 0 rest
  | 'e' :: rest => afterMark? negative significand 0 rest
  | 'E' :: rest => afterMark? negative significand 0 rest
  | c :: _ =>
    if c.isDigit then
      let extra := cs.takeWhile Char.isDigit
      match cs.dropWhile Char.isDigit with
      | '.' :: rest => afterPoint? negative significand extra.length rest
      | rest => finish? negative significand extra.length rest
    else some (whole, cs)
  | [] => some (whole, [])
where
  /-- A negative number that is zero or does not fit 64 bits is a double. -/
  whole : JsonNumber :=
    if !negative then .integer significand
    else if significand = 0 || decide (Nat.pow 2 63 < significand) then
      .double (-(Float.ofNat significand))
    else .integer (-(significand : Int))

/-- The number at the start of a text. A zero is followed by no other digit. -/
def read? (negative : Bool) (cs : List Char) : Option (JsonNumber × List Char) :=
  match digit? cs with
  | none => none
  | some (0, rest) =>
    match digit? rest with
    | some _ => none
    | none => afterWhole? negative 0 rest
  | some (d, rest) =>
    let (n, _, rest) := gather maxSignificand d rest
    afterWhole? negative n rest

end JsonNumber

end LiveMarkup
