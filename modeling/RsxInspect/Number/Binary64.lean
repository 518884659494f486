/-!
# Binary floating-point numbers of 64 bits

A number is given by its bits: sign, eleven bits of exponent, 52 bits of fraction. `nearest` rounds
a ratio of naturals to the nearest such number, to the even one of two, in exact integer
arithmetic.
-/

namespace RsxInspect

/-- The `n`-th power of two. -/
def pow2 (n : Nat) : Nat := Nat.pow 2 n

/-- The `n`-th power of ten. -/
def pow10 (n : Nat) : Nat := Nat.pow 10 n

/-- A 64-bit binary floating-point number, by its bits. -/
structure Binary64 where
  bits : Nat
  deriving DecidableEq, Repr, Inhabited

namespace Binary64

/-- The weight of the last bit of a subnormal number is `2 ^ (-1074)`. -/
def leastExponent : Int := -1074

/-- The number of fraction bits. -/
def fractionBits : Nat := 52

/-- The bits of positive infinity, and the first bits that are no finite number. -/
def infinityBits : Nat := 0x7FF * pow2 fractionBits

def signBit : Nat := pow2 63

def infinity : Binary64 := ⟨infinityBits⟩

def nan : Binary64 := ⟨infinityBits + pow2 51⟩

def negate (x : Binary64) : Binary64 :=
  if x.bits < signBit then ⟨x.bits + signBit⟩ else ⟨x.bits - signBit⟩

def isNegative (x : Binary64) : Bool := signBit ≤ x.bits

/-- The bits without the sign. -/
def magnitude (x : Binary64) : Nat := x.bits % signBit

def isFinite (x : Binary64) : Bool := x.magnitude < infinityBits

/-- The quotient `n / d` as an integer: the nearest one, of two the even one. -/
def roundedQuotient (n d : Nat) : Nat :=
  let quotient := n / d
  let twice := 2 * (n % d)
  if d < twice || (twice == d && quotient % 2 == 1) then quotient + 1 else quotient

/-- `n / d * 2 ^ e` as a pair of numerator and denominator. -/
def scaled (n d : Nat) (e : Int) : Nat × Nat :=
  (n * pow2 e.toNat, d * pow2 (-e).toNat)

/-- The exponent `e` with `2 ^ e ≤ n / d < 2 ^ (e + 1)`, for positive `n` and `d`. -/
def binaryExponent (n d : Nat) : Int :=
  let e : Int := n.log2 - d.log2
  let (n, d) := scaled n d (-e)
  if d ≤ n then e else e - 1

/-- The number nearest to `n / d`, for positive `d`. -/
def nearest (n d : Nat) : Binary64 :=
  if n = 0 then ⟨0⟩
  else
    let q := max (binaryExponent n d - fractionBits) leastExponent
    let (n, d) := scaled n d (-q)
    let bits := (q - leastExponent).toNat * pow2 fractionBits + roundedQuotient n d
    ⟨min bits infinityBits⟩

/-- No number of 64 bits other than zero and infinity lies outside of `10 ^ (-400)` to
`10 ^ 400`. -/
def decimalReach : Int := 400

/-- The number nearest to `digits * 10 ^ e`, where `digits` has `count` digits, the first of them
not zero. -/
def ofDecimal (digits count : Nat) (e : Int) : Binary64 :=
  if digits = 0 then ⟨0⟩
  else if decimalReach < e + count then infinity
  else if e + count < -decimalReach then ⟨0⟩
  else nearest (digits * pow10 e.toNat) (pow10 (-e).toNat)

/-- The integer `m` and the exponent `q` such that a finite number has the magnitude
`m * 2 ^ q`. -/
def decode (x : Binary64) : Nat × Int :=
  let biased := x.magnitude / pow2 fractionBits
  let fraction := x.magnitude % pow2 fractionBits
  if biased = 0 then (fraction, leastExponent)
  else (fraction + pow2 fractionBits, leastExponent + (biased - 1))

/-- The bits in sixteen hexadecimal digits. -/
def hex (x : Binary64) : String :=
  let digits := Nat.toDigits 16 x.bits
  String.ofList (List.replicate (16 - digits.length) '0' ++ digits)

end Binary64

end RsxInspect
