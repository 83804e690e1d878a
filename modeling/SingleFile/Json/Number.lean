import SingleFile.Decimal.Shortest

/-!
# Numbers of JSON

A number is an integer when it is written as one and fits 64 bits, and otherwise a
floating-point number. How a number is read from its parts and how it is written
are both fixed here.
-/

namespace SingleFile.Json

/-- A JSON number. -/
inductive Number where
  | integer (value : Int)
  | float (value : Float)

namespace Number

/-- The parts of a written number: its sign, the digits before the point, those after
it, and the exponent. -/
structure Written where
  negative : Bool
  whole : List Nat
  fraction : Option (List Nat)
  exponent : Option Int

/-- A significand of 64 bits with a power of ten. -/
structure Scaled where
  significand : Nat
  exponent : Int

namespace Scaled

/-- The bound of a significand. -/
def bound : Nat := Nat.pow 2 64

/-- Add the digits before the point. From the first digit that does not fit, each
digit only raises the exponent. -/
def addWhole (scaled : Scaled) : List Nat → Scaled
  | [] => scaled
  | digit :: digits =>
    let significand := scaled.significand * 10 + digit
    if significand < bound then addWhole ⟨significand, scaled.exponent⟩ digits
    else ⟨scaled.significand, scaled.exponent + (digits.length + 1 : Nat)⟩

/-- Add the digits after the point, up to the first that does not fit. -/
def addFraction (scaled : Scaled) : List Nat → Scaled
  | [] => scaled
  | digit :: digits =>
    let significand := scaled.significand * 10 + digit
    if significand < bound then addFraction ⟨significand, scaled.exponent - 1⟩ digits
    else scaled

/-- A power of ten as a floating-point number, for exponents up to 308. -/
def powerOfTen (exponent : Nat) : Float := Float.ofScientific 1 false exponent

/-- The floating-point number, if it is in range. A division by more than the largest
power of ten is done in two steps. -/
def toFloat? (scaled : Scaled) : Option Float :=
  let significand := scaled.significand.toUInt64.toFloat
  match scaled.exponent with
  | .ofNat exponent =>
    if scaled.significand = 0 then some significand
    else if exponent ≤ 308 then
      let value := significand * powerOfTen exponent
      if value.isInf then none else some value
    else none
  | .negSucc exponent =>
    let exponent := exponent + 1
    if exponent ≤ 308 then some (significand / powerOfTen exponent)
    else some (significand / powerOfTen 308 / powerOfTen (min (exponent - 308) 308))

end Scaled

/-- The number that is written, if it is in range. -/
def ofWritten? (written : Written) : Option Number :=
  let whole := Scaled.addWhole ⟨0, 0⟩ written.whole
  let signed (value : Float) : Number := .float (if written.negative then -value else value)
  match written.fraction, written.exponent with
  | none, none =>
    if whole.exponent = 0 then
      if !written.negative then some (.integer whole.significand)
      else if whole.significand ≠ 0 && whole.significand ≤ Nat.pow 2 63 then
        some (.integer (-whole.significand))
      else whole.toFloat?.map signed
    else whole.toFloat?.map signed
  | fraction, exponent =>
    let scaled := whole.addFraction (fraction.getD [])
    (Scaled.toFloat? ⟨scaled.significand, scaled.exponent + exponent.getD 0⟩).map signed

/-- The number as a natural number, if it is written as one. -/
def toNat? : Number → Option Nat
  | .integer (.ofNat value) => some value
  | _ => none

/-- A finite positive floating-point number as a binary fraction. -/
def fractionOf (value : Float) : BinaryFraction :=
  let bits := value.toBits.toNat
  let field : Nat := bits / Nat.pow 2 52 % Nat.pow 2 11
  let low : Nat := bits % Nat.pow 2 52
  if field = 0 then ⟨low, -1074, false⟩
  else ⟨low + Nat.pow 2 52, (field : Int) - 1075, low = 0 && field ≠ 1⟩

/-- Zeros one after the other. -/
def zeros (count : Nat) : String := String.ofList (List.replicate count '0')

/-- Digits with the decimal point before digit number `point`. Between the fifth place
after the point and the sixteenth before it the notation is positional and has a
fraction; outside, one digit stands before the point and the exponent is signed. -/
def layout (digits : List Char) (point : Int) : String :=
  if -5 < point && point ≤ 16 then
    if point ≤ 0 then "0." ++ zeros (-point).toNat ++ String.ofList digits
    else if point < digits.length then
      String.ofList (digits.take point.toNat) ++ "." ++ String.ofList (digits.drop point.toNat)
    else String.ofList digits ++ zeros (point.toNat - digits.length) ++ ".0"
  else
    let fraction :=
      match digits.drop 1 with
      | [] => ""
      | rest => "." ++ String.ofList rest
    let exponent := point - 1
    String.ofList (digits.take 1) ++ fraction ++ "e" ++ (if exponent < 0 then "-" else "+") ++
      toString exponent.natAbs

/-- A decimal without the zeros at its end: its digits, and the place of the point. -/
def pointed (decimal : Decimal) : List Char × Int :=
  let digits := Nat.toDigits 10 decimal.coefficient
  ((digits.reverse.dropWhile (· = '0')).reverse, digits.length + decimal.exponent)

/-- A finite floating-point number in its shortest form. -/
def renderFloat (value : Float) : String :=
  let negative := Nat.pow 2 63 ≤ value.toBits.toNat
  let fraction := fractionOf value
  let written :=
    if fraction.mantissa = 0 then "0.0"
    else
      let (digits, point) := pointed fraction.shortest
      layout digits point
  (if negative then "-" else "") ++ written

def render : Number → String
  | .integer value => toString value
  | .float value => renderFloat value

end Number

end SingleFile.Json
