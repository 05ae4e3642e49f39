/-!
Ratios in decimal. A ratio is first rounded to 53 significant bits and then to six places; both
times the nearer value wins, and of two that are equally near the even one.
-/

namespace Seedling.Text

/-- The nearest whole number to `n / d`, the even one of two. -/
def roundDiv (n d : Nat) : Nat :=
  let q := n / d
  let r := n % d
  if 2 * r < d then q else if d < 2 * r then q + 1 else if q % 2 = 0 then q else q + 1

/-- For `0 < p ≤ q` the numbers `m` and `k` such that `m / 2 ^ k` is `p / q` to 53 bits. -/
def binaryQuotient (p q : Nat) : Nat × Nat :=
  let k := 53 + q.log2 - p.log2
  let k := if Nat.pow 2 53 * q ≤ p * Nat.pow 2 k then k - 1 else k
  (roundDiv (p * Nat.pow 2 k) q, k)

/-- The number of millionths in `p / q`, for `p ≤ q`; none when there is nothing to divide by. -/
def millionths (p q : Nat) : Nat :=
  if p = 0 || q = 0 then 0
  else
    let (m, k) := binaryQuotient p q
    roundDiv (m * 1000000) (Nat.pow 2 k)

def padZeros (width : Nat) (s : String) : String :=
  String.ofList (List.replicate (width - s.length) '0') ++ s

/-- The ratio `p / q` with six places, for `p ≤ q`. -/
def sixPlaces (p q : Nat) : String :=
  let n := millionths p q
  toString (n / 1000000) ++ "." ++ padZeros 6 (toString (n % 1000000))

end Seedling.Text
