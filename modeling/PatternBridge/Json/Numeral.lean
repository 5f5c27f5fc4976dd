import PatternBridge.Json.Value
import PatternBridge.Text.Digits

/-!
Numerals of JSON text. Their digits are kept while they are read; a numeral whose value is too large
for a double-precision number has no value.
-/

namespace PatternBridge.Json

/-- `n` rounded to 53 binary digits, ties to even. -/
def roundToDouble (n : Nat) : Nat :=
  if n < Nat.pow 2 53 then n
  else
    let unit := Nat.pow 2 (n.log2 - 52)
    let q := n / unit
    let r := n % unit
    if 2 * r < unit || (2 * r == unit && q % 2 == 0) then q * unit else (q + 1) * unit

def exceedsDouble (n : Nat) : Bool := Nat.pow 2 1024 - Nat.pow 2 970 ≤ n

namespace Numeral

/-- The largest significand that is kept digit by digit. -/
def maxSignificand : Nat := Nat.pow 2 64 - 1

/-- The significand of the digits of the whole part, and the number of digits after it that are left
out because they would exceed `maxSignificand`. -/
def wholeSignificand : List Nat → Nat → Nat × Nat
  | [], n => (n, 0)
  | d :: ds, n =>
    if n * 10 + d ≤ maxSignificand then wholeSignificand ds (n * 10 + d) else (n, ds.length + 1)

/-- The significand with the digits of a fraction, up to the first that would exceed
`maxSignificand`, and the number of digits taken. -/
def fractionSignificand : List Nat → Nat → Nat × Nat
  | [], n => (n, 0)
  | d :: ds, n =>
    if n * 10 + d ≤ maxSignificand then
      let (m, k) := fractionSignificand ds (n * 10 + d)
      (m, k + 1)
    else (n, 0)

def scaled (x : Numeral) : Nat × Int :=
  let (n, skipped) := wholeSignificand x.whole 0
  let (m, taken) := fractionSignificand (x.fraction.getD []) n
  let exponent : Int :=
    match x.exponent with
    | some (true, ds) => -(Text.ofDigits 10 ds : Int)
    | some (false, ds) => Text.ofDigits 10 ds
    | none => 0
  (m, (skipped : Int) - taken + exponent)

/-- Whether significand times power of ten, both rounded to double precision, is still finite. -/
def isFinite (x : Numeral) : Bool :=
  let (m, e) := x.scaled
  m == 0 || e < 0 ||
    (e ≤ 308 && !exceedsDouble (roundToDouble m * roundToDouble (Nat.pow 10 e.toNat)))

def value? (x : Numeral) : Option Number :=
  if x.isFinite then
    let n := Text.ofDigits 10 x.whole
    if !x.negative && x.fraction.isNone && x.exponent.isNone && n ≤ maxSignificand then
      some (.natural n)
    else some (.other x)
  else none

end Numeral

end PatternBridge.Json
