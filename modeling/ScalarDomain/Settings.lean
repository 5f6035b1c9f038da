import ScalarDomain.Decimal.Layout

/-!
# Settings

The settings of an analysis, read from texts that the surroundings may or may not give. A number
that is not given or cannot be read has its default.
-/

namespace ScalarDomain

/-- The settings of an analysis. -/
structure Settings where
  /-- Whether analyses run at once. -/
  parallel : Bool := false
  /-- How deep evaluations may nest. -/
  maxDepth : Nat := 16
  /-- The number of values that may be listed. -/
  disjunctionLimit : Nat := 8
deriving DecidableEq

namespace Settings

/-- Whether a character is white space. -/
def isBlank (c : Char) : Bool :=
  let n := c.toNat
  (9 ≤ n && n ≤ 13) || n == 0x20 || n == 0x85 || n == 0xA0 || n == 0x1680 ||
    (0x2000 ≤ n && n ≤ 0x200A) || n == 0x2028 || n == 0x2029 || n == 0x202F || n == 0x205F ||
    n == 0x3000

/-- The characters without the white space around them. -/
def trim (cs : List Char) : List Char :=
  ((cs.dropWhile isBlank).reverse.dropWhile isBlank).reverse

/-- The number below `bound` that a text writes, with white space around it and a plus sign in
front allowed. -/
def number? (bound : Nat) (text : String) : Option Nat :=
  let written := match trim text.toList with
    | '+' :: cs => Decimal.natural? cs
    | cs => Decimal.natural? cs
  written.filter (· < bound)

/-- The settings that the given texts make. Only `1` asks for analyses at once. The depth is a
number of 32 bits, the limit one of 64 bits, and at least two values may always be listed. -/
def ofTexts (parallel maxDepth disjunctionLimit : Option String) : Settings :=
  let defaults : Settings := {}
  { parallel := parallel == some "1"
    maxDepth := (maxDepth.bind (number? (twoPow 32))).getD defaults.maxDepth
    disjunctionLimit :=
      max 2 ((disjunctionLimit.bind (number? (twoPow 64))).getD defaults.disjunctionLimit) }

end Settings

end ScalarDomain
