import RsxInspect.Number.Binary64

/-!
# The shortest decimal that reads back

Of the decimals that round to a given number, `decimal` takes one with the fewest digits, of those
the nearest to the number, and of two equally near ones the one with the even last digit. All
arithmetic is on naturals: a decimal `c * 10 ^ k` and a multiple `w` of `2 ^ q` are compared as
`c * a` and `w * b` with the factors of `Grid`.
-/

namespace RsxInspect.Shortest

/-- Digits and the power of ten that they count. -/
structure Decimal where
  digits : Nat
  exponent : Int
  deriving DecidableEq, Repr

/-- The number of decimal digits. -/
def digitCount (n : Nat) : Nat := (Nat.toDigits 10 n).length

/-- The exponent `e` with `10 ^ e ≤ n / d < 10 ^ (e + 1)`, for positive `n` and `d`. -/
def decimalExponent (n d : Nat) : Int :=
  if d ≤ n then digitCount (n / d) - 1
  else
    let e := digitCount (d / n)
    if d ≤ n * pow10 (e - 1) then 1 - (e : Int) else -(e : Int)

/-- The factors that make `c * 10 ^ k` and `w * 2 ^ q` comparable: the first is less than the second
just when `c * decimal < w * binary`. -/
structure Grid where
  decimal : Nat
  binary : Nat

def Grid.of (k q : Int) : Grid :=
  ⟨pow10 k.toNat * pow2 (-q).toNat, pow2 q.toNat * pow10 (-k).toNat⟩

/-- The multiple of `10 ^ k` that rounds to `m * 2 ^ q` and lies nearest to it, if there is one. The
numbers that round to it reach half way to its neighbours; the ends belong to it just when `m` is
even. -/
def onGrid? (m : Nat) (q : Int) (k : Int) : Option Nat :=
  -- Quarters of `2 ^ q` measure the half-way points, also below a power of two.
  let grid := Grid.of k (q - 2)
  let value := 4 * m * grid.binary
  let isPower := m == pow2 Binary64.fractionBits && q != Binary64.leastExponent
  let lower := (4 * m - (if isPower then 1 else 2)) * grid.binary
  let upper := (4 * m + 2) * grid.binary
  let c := value / grid.decimal
  let below := if m % 2 == 0 then lower ≤ c * grid.decimal else lower < c * grid.decimal
  let above :=
    if m % 2 == 0 then (c + 1) * grid.decimal ≤ upper else (c + 1) * grid.decimal < upper
  if below && above then
    let middle := (2 * c + 1) * grid.decimal
    if 2 * value < middle || (2 * value == middle && c % 2 == 0) then some c else some (c + 1)
  else if below then some c
  else if above then some (c + 1)
  else none

/-- Drops the zeros at the end of the digits, at most `fuel` of them. -/
def Decimal.trimmed : Nat → Decimal → Decimal
  | 0, d => d
  | fuel + 1, d =>
    if d.digits % 10 == 0 && d.digits != 0 then
      Decimal.trimmed fuel ⟨d.digits / 10, d.exponent + 1⟩
    else d

/-- The first grid with a point that rounds to `m * 2 ^ q`: multiples of `10 ^ k`, and then finer
ones, at most `fuel` of them. -/
def search (m : Nat) (q : Int) : Nat → Int → Decimal
  | 0, k => ⟨(onGrid? m q k).getD 0, k⟩
  | fuel + 1, k =>
    match onGrid? m q k with
    | some c => ⟨c, k⟩
    | none => search m q fuel (k - 1)

/-- The most digits that are ever needed. -/
def mostDigits : Nat := 17

/-- The shortest decimal that rounds to the magnitude of a finite number other than zero. -/
def decimal (x : Binary64) : Decimal :=
  let (m, q) := x.decode
  let e := decimalExponent (m * pow2 q.toNat) (pow2 (-q).toNat)
  (search m q (mostDigits - 1) e).trimmed mostDigits

/-- Numbers from `10 ^ (-5)` up to `10 ^ 16` are written with a point and all their places, with at
least one digit on each side; others with one digit before the point and a signed exponent. -/
def layout (d : Decimal) : String :=
  let digits := Nat.toDigits 10 d.digits
  let e : Int := d.exponent + digits.length - 1
  let zeros (n : Int) : List Char := List.replicate n.toNat '0'
  if 0 ≤ e ∧ e ≤ 15 then
    let whole := (digits ++ zeros d.exponent).take (e + 1).toNat
    let fraction := digits.drop (e + 1).toNat
    String.ofList (whole ++ '.' :: (if fraction.isEmpty then ['0'] else fraction))
  else if -5 ≤ e ∧ e < 0 then
    String.ofList ('0' :: '.' :: zeros (-e - 1) ++ digits)
  else
    let mantissa :=
      match digits with
      | [] => []
      | [d] => [d]
      | d :: ds => d :: '.' :: ds
    let sign := if e < 0 then '-' else '+'
    String.ofList (mantissa ++ 'e' :: sign :: Nat.toDigits 10 e.natAbs)

/-- The text of a finite number. -/
def text (x : Binary64) : String :=
  let magnitude := if x.magnitude = 0 then "0.0" else layout (decimal x)
  if x.isNegative then "-" ++ magnitude else magnitude

end RsxInspect.Shortest
