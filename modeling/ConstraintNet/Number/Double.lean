/-!
# Rounding to double precision

A positive quotient of natural numbers is rounded to 53 significant bits, a
value half-way between two neighbours going to the even one.  The result is
again a quotient.  There are no bounds on the exponent, so nothing overflows
and nothing is subnormal.
-/

namespace ConstraintNet.Number

/-- The integer nearest to `num / den`, the even one of two that are equally
near. -/
def roundDiv (num den : Nat) : Nat :=
  let q := num / den
  let r := num % den
  if 2 * r < den then q else if den < 2 * r then q + 1 else q + q % 2

/-- A quotient of natural numbers. -/
structure Quotient where
  num : Nat
  den : Nat
deriving DecidableEq, Inhabited

/-- The quotient of 53 significant bits that is nearest to `num / den`. -/
def nearestDouble (num den : Nat) : Quotient :=
  if num = 0 then ⟨0, 1⟩ else
    -- `num / den` lies between half of and twice two to the power `up - down`.
    let up := num.log2
    let down := den.log2
    let scaledNum := if up ≤ down + 52 then num <<< (down + 52 - up) else num
    let scaledDen := if up ≤ down + 52 then den else den <<< (up - down - 52)
    -- The scaled quotient has 52 or 53 bits before the point; make it 53.
    let short := scaledNum < scaledDen <<< 52
    let mantissa :=
      roundDiv (if short then 2 * scaledNum else scaledNum) scaledDen
    let unitNum := if up ≤ down + 52 then 1 else 1 <<< (up - down - 52)
    let unitDen := if up ≤ down + 52 then 1 <<< (down + 52 - up) else 1
    ⟨mantissa * unitNum, if short then 2 * unitDen else unitDen⟩

/-- The double nearest to a natural number. -/
def nearestNat (n : Nat) : Quotient := nearestDouble n 1

/-- The quotient of two doubles in double precision. -/
def Quotient.div (x y : Quotient) : Quotient :=
  nearestDouble (x.num * y.den) (x.den * y.num)

/-- Whether the product of two doubles is too great for double precision. -/
def Quotient.mulOverflows (x y : Quotient) : Bool :=
  ((1 <<< 1024) - (1 <<< 970)) * (x.den * y.den) ≤ x.num * y.num

/-- Written with two decimals, a half going to the even neighbour. -/
def Quotient.text (x : Quotient) : String :=
  let hundredths := roundDiv (100 * x.num) x.den
  let cents := hundredths % 100
  s!"{hundredths / 100}.{cents / 10}{cents % 10}"

end ConstraintNet.Number
