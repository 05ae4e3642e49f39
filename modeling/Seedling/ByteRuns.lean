/-!
Ascending bytes as runs of neighbours, the way character classes and edge labels write them.
-/

namespace Seedling

/-- The first and last byte of each maximal run in an ascending list. -/
def byteRuns : List UInt8 → List (UInt8 × UInt8)
  | [] => []
  | b :: rest =>
      match byteRuns rest with
      | [] => [(b, b)]
      | (lo, hi) :: runs =>
          if b.toNat + 1 = lo.toNat then (b, hi) :: runs else (b, b) :: (lo, hi) :: runs

end Seedling
