/-!
# Numerals

A JSON number as it is written: sign, whole part, fraction and exponent. A reader of doubles takes
the leading digits that fit in 64 bits as a significand and scales it by a power of ten, rounding
the significand, the power and their product to 53 bits. A numeral is representable when that
product stays below `2 ^ 1024`; one that vanishes is representable too.
-/

set_option autoImplicit false

namespace EntryPoints

structure Numeral where
  negative : Bool := false
  /-- At least one digit, with no leading zero before another. -/
  whole : List Char
  /-- The digits after the point; none when there is no point. -/
  fraction : List Char := []
  /-- The power of ten, when one is written. -/
  exponent? : Option Int := none
  deriving DecidableEq, Repr

namespace Numeral

def isDigit (c : Char) : Bool := '0' ≤ c && c ≤ '9'

def digit (c : Char) : Nat := c.toNat - '0'.toNat

def value (digits : List Char) : Nat := digits.foldl (fun n c => n * 10 + digit c) 0

def ofNat (n : Nat) : Numeral := { whole := Nat.toDigits 10 n }

/-- The value of a numeral written with neither sign nor point nor exponent. -/
def natural? (n : Numeral) : Option Nat :=
  if n.negative = false ∧ n.fraction = [] ∧ n.exponent? = none then some (value n.whole) else none

def fits (n : Nat) : Bool := n < Nat.pow 2 64

/-- Takes digits while the significand fits, and counts those left over. -/
def significand : Nat → List Char → Nat × Nat
  | n, [] => (n, 0)
  | n, c :: rest =>
    if fits (n * 10 + digit c) then significand (n * 10 + digit c) rest
    else (n, rest.length + 1)

/-- The nearest natural number of at most 53 significant bits; halfway goes to the even one. -/
def round53 (n : Nat) : Nat :=
  let excess := n.log2 - 52
  let unit := Nat.pow 2 excess
  let low := n / unit
  let rest := n % unit
  if unit < 2 * rest || (unit == 2 * rest && low % 2 == 1) then (low + 1) * unit else low * unit

/-- Whether a significand scaled by a power of ten stays within the doubles. -/
def scaledFits (n : Nat) (power : Int) : Bool :=
  if n = 0 ∨ power < 0 then true
  else if 308 < power then false
  else round53 (round53 n * round53 (Nat.pow 10 power.toNat)) < Nat.pow 2 1024

def representable (n : Numeral) : Bool :=
  let (whole, dropped) := significand 0 n.whole
  let (digits, unread) := significand whole n.fraction
  let power : Int := dropped - (n.fraction.length - unread : Nat) + n.exponent?.getD 0
  scaledFits digits power

def spell (n : Numeral) : List Char :=
  (if n.negative then ['-'] else []) ++ n.whole ++
    (if n.fraction.isEmpty then [] else '.' :: n.fraction) ++
    (match n.exponent? with
      | none => []
      | some power => 'e' :: (toString power).toList)

end Numeral

end EntryPoints
