import RsxInspect.Number.Binary64

/-!
# Number literals

A number is written with an optional sign, digits with at most one point among them, and an optional
exponent; or it is one of the words `inf`, `infinity` and `nan`, in any case. The literal stands for
the nearest number of 64 bits.
-/

namespace RsxInspect.NumberLiteral

/-- The value of a decimal digit. -/
def digitValue (d : Char) : Nat := d.toNat - '0'.toNat

/-- The natural number that decimal digits stand for, behind the digits of `n`. -/
def digitsFrom (n : Nat) (ds : List Char) : Nat :=
  ds.foldl (fun n d => 10 * n + digitValue d) n

/-- The natural number that decimal digits stand for. Many digits are read in two halves, so that
the work does not grow with the square of their number. -/
def digitsValue (ds : List Char) : Nat :=
  if 64 < ds.length then
    let half := ds.length / 2
    digitsValue (ds.take half) * pow10 (ds.length - half) + digitsValue (ds.drop half)
  else digitsFrom 0 ds
termination_by ds.length
decreasing_by
  · simp only [List.length_take]; omega
  · simp only [List.length_drop]; omega

theorem digitsFrom_eq (n : Nat) (ds : List Char) :
    digitsFrom n ds = n * pow10 ds.length + digitsFrom 0 ds := by
  induction ds generalizing n with
  | nil => simp [digitsFrom, pow10]
  | cons d ds ih =>
    have hstep : ∀ m, digitsFrom m (d :: ds) = digitsFrom (10 * m + digitValue d) ds := fun _ => rfl
    have hpow : pow10 (d :: ds).length = 10 * pow10 ds.length := Nat.mul_comm _ _
    rw [hstep, hstep, ih, ih (10 * 0 + digitValue d), hpow, Nat.add_mul, Nat.add_mul]
    rw [Nat.mul_comm 10 n, Nat.mul_assoc]
    omega

/-- Reading in halves gives what reading from left to right gives. -/
theorem digitsValue_eq (ds : List Char) : digitsValue ds = digitsFrom 0 ds := by
  fun_induction digitsValue ds with
  | case1 ds _ half ihl ihr =>
    have happ : digitsFrom 0 ds = digitsFrom (digitsFrom 0 (ds.take half)) (ds.drop half) := by
      unfold digitsFrom
      rw [← List.foldl_append, List.take_append_drop]
    rw [ihl, ihr, happ, digitsFrom_eq (digitsFrom 0 (ds.take half)), List.length_drop]
  | case2 => rfl

/-- Exponents from here on take no further digits: they lie beyond the reach of all numbers but
those with as many digits. -/
def exponentBound : Nat := 0x10000

/-- The size of an exponent with the given digits. Once it has come to the bound, the digits behind
do not count. -/
def exponentSize (ds : List Char) : Nat :=
  ds.foldl (fun n d => if n < exponentBound then 10 * n + digitValue d else n) 0

/-- The sign in front of a number, and what follows it. -/
def splitSign : List Char → Bool × List Char
  | '-' :: cs => (true, cs)
  | '+' :: cs => (false, cs)
  | cs => (false, cs)

/-- The exponent at the end of a number; without one it is zero. -/
def exponent? : List Char → Option Int
  | [] => some 0
  | e :: cs =>
    if e == 'e' || e == 'E' then
      let (negative, ds) := splitSign cs
      if ds.isEmpty || !ds.all Char.isDigit then none
      else some (if negative then -(exponentSize ds : Int) else exponentSize ds)
    else none

/-- Digits, a point with digits and an exponent. -/
def decimal? (cs : List Char) : Option Binary64 :=
  let whole := cs.takeWhile Char.isDigit
  let (fraction, cs) :=
    match cs.dropWhile Char.isDigit with
    | '.' :: cs => (cs.takeWhile Char.isDigit, cs.dropWhile Char.isDigit)
    | cs => ([], cs)
  let digits := whole ++ fraction
  if digits.isEmpty then none
  else
    (exponent? cs).map fun e =>
      let significant := digits.dropWhile (· == '0')
      Binary64.ofDecimal (digitsValue significant) significant.length (e - fraction.length)

/-- One of the words for numbers that have no digits. -/
def word? (cs : List Char) : Option Binary64 :=
  let word := String.ofList (cs.map Char.toLower)
  if word == "inf" || word == "infinity" then some .infinity
  else if word == "nan" then some .nan
  else none

/-- The number that a literal stands for. -/
def value? (cs : List Char) : Option Binary64 :=
  let (negative, cs) := splitSign cs
  let magnitude := (decimal? cs).orElse fun _ => word? cs
  if negative then magnitude.map Binary64.negate else magnitude

end RsxInspect.NumberLiteral
