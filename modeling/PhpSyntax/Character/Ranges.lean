namespace PhpSyntax

abbrev CodeRanges := List (Nat × Nat)

namespace CodeRanges

/-- Whether `n` lies in one of the ranges of a table.  The ranges are in ascending order, so
the search stops at the first one that starts behind `n`. -/
def covers : CodeRanges → Nat → Bool
  | [], _ => false
  | (lo, hi) :: rs, n => lo ≤ n && (n ≤ hi || covers rs n)

end CodeRanges
end PhpSyntax
