/-! Scientific notation with a fixed number of places. The digits of a double come from its exact binary
value in natural number arithmetic; a half goes to the even neighbour. -/
namespace Variational.Scientific

/-- A double taken apart: a finite one is `± mantissa * 2 ^ exponent`. -/
inductive Binary where
  | nan
  | infinite (negative : Bool)
  | finite (negative : Bool) (mantissa : Nat) (exponent : Int)
  deriving DecidableEq, Repr

/-- Sign, exponent and fraction fields of the 64-bit pattern. -/
def Binary.ofBits (bits : Nat) : Binary :=
  let negative : Bool := bits / Nat.pow 2 63 % 2 == 1
  let field : Nat := bits / Nat.pow 2 52 % Nat.pow 2 11
  let fraction := bits % Nat.pow 2 52
  if field = 2047 then (if fraction = 0 then .infinite negative else .nan)
  else if field = 0 then .finite negative fraction (-1074)
  else .finite negative (Nat.pow 2 52 + fraction) ((field : Int) - 1075)

def Binary.ofFloat (x : Float) : Binary := .ofBits x.toBits.toNat

/-- Number of decimal digits. -/
def digitCount (n : Nat) : Nat := if n < 10 then 1 else digitCount (n / 10) + 1

/-- The quotient to the nearest natural number, a half to the even one. -/
def roundDiv (num den : Nat) : Nat :=
  let q := num / den
  let r := num % den
  if 2 * r < den ∨ (2 * r = den ∧ q % 2 = 0) then q else q + 1

/-- `mantissa * 10 ^ (exponent - places)`, where `places` is one less than the number of digits. -/
structure Rounded where
  mantissa : Nat
  exponent : Int
  deriving DecidableEq, Repr

/-- The largest power of ten that is at most the positive number `num / den`. -/
def leadingExponent (num den : Nat) : Int :=
  let e : Int := (digitCount num : Int) - digitCount den
  if num * Nat.pow 10 (-e).toNat < den * Nat.pow 10 e.toNat then e - 1 else e

/-- The number `num / den` to one digit before and `places` digits after the point. -/
def round (places num den : Nat) : Rounded :=
  if num = 0 then ⟨0, 0⟩
  else
    let e := leadingExponent num den
    let shift : Int := places - e
    let n := roundDiv (num * Nat.pow 10 shift.toNat) (den * Nat.pow 10 (-shift).toNat)
    if n = Nat.pow 10 (places + 1) then ⟨Nat.pow 10 places, e + 1⟩ else ⟨n, e⟩

/-- How the parts are written. -/
structure Style where
  /-- The exponent has a sign also when it is not negative. -/
  plus : Bool
  /-- The least number of digits of the exponent. -/
  exponentWidth : Nat
  nan : String
  infinity : String

/-- Decimal digits, with zeros in front up to a width. -/
def padded (width n : Nat) : List Char :=
  let ds := Nat.toDigits 10 n
  List.replicate (width - ds.length) '0' ++ ds

def Style.exponent (s : Style) (e : Int) : List Char :=
  (if e < 0 then ['-'] else if s.plus then ['+'] else []) ++ padded s.exponentWidth e.natAbs

def Style.rounded (s : Style) (places : Nat) (r : Rounded) : List Char :=
  let mantissa := match padded (places + 1) r.mantissa with
    | d :: [] => [d]
    | d :: ds => d :: '.' :: ds
    | [] => []
  mantissa ++ 'e' :: s.exponent r.exponent

def Style.chars (s : Style) (places : Nat) : Binary → List Char
  | .nan => s.nan.toList
  | .infinite negative => (if negative then ['-'] else []) ++ s.infinity.toList
  | .finite negative m q =>
    (if negative then ['-'] else []) ++
      s.rounded places (round places (m * Nat.pow 2 q.toNat) (Nat.pow 2 (-q).toNat))

def Style.format (s : Style) (places : Nat) (x : Float) : String :=
  String.ofList (s.chars places (Binary.ofFloat x))

/-- Literals of generated code: signed exponents of at least two digits. -/
def literalStyle : Style := ⟨true, 2, "NaN", "inf"⟩

/-- A floating point literal with the given number of places. -/
def literal (x : Float) (places : Nat) : String := literalStyle.format places x

end Variational.Scientific
