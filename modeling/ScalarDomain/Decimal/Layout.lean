import ScalarDomain.Decimal.Shortest

/-!
# Texts of numbers

Integers are read from their decimal digits. A double has two texts, both with the shortest digits
that read back: `plain` never uses an exponent and writes integral values without a point;
`detailed` marks integral values with `.0` and writes very small and very large values with an
exponent.
-/

namespace ScalarDomain.Decimal

/-! ### Integers -/

/-- The number that decimal digits write; at least one is needed. -/
def natural? (cs : List Char) : Option Nat :=
  if cs.isEmpty then none
  else cs.foldlM (fun n c =>
    if '0' ≤ c ∧ c ≤ '9' then some (10 * n + (c.toNat - '0'.toNat)) else none) 0

/-- The integer that decimal digits write, with a minus sign in front if it is negative. -/
def integer? : List Char → Option Int
  | '-' :: cs => (natural? cs).map fun (n : Nat) => -(n : Int)
  | cs => (natural? cs).map fun (n : Nat) => (n : Int)

/-! ### Doubles -/

/-- How a double is written. -/
structure Layout where
  /-- Whether an integral value ends in `.0`. -/
  pointZero : Bool
  /-- Numbers of digits before the point from which on an exponent is written. -/
  exponentFrom? : Option Int
  /-- Numbers of digits before the point up to which an exponent is written. -/
  exponentTo? : Option Int

/-- No exponent, no point after an integer. -/
def Layout.plain : Layout :=
  ⟨false, none, none⟩

/-- An exponent from `1e16` on and below `1e-4`, and `.0` after an integer. -/
def Layout.detailed : Layout :=
  ⟨true, some 17, some (-4)⟩

/-- A run of zeros. -/
def zeros (n : Nat) : String :=
  String.ofList (List.replicate n '0')

namespace Layout

/-- The text of a positive decimal. -/
def decimal (l : Layout) (d : Scientific) : String :=
  let digits := (toString d.digits).toList
  let before : Int := digits.length + d.exponent
  let scientific :=
    (match l.exponentFrom? with | some bound => decide (bound ≤ before) | none => false) ||
    (match l.exponentTo? with | some bound => decide (before ≤ bound) | none => false)
  if scientific then
    let tail := digits.drop 1
    String.ofList (digits.take 1) ++ (if tail.isEmpty then "" else "." ++ String.ofList tail) ++
      "e" ++ toString (before - 1)
  else if before ≤ 0 then
    "0." ++ zeros (-before).toNat ++ String.ofList digits
  else if digits.length ≤ before.toNat then
    String.ofList digits ++ zeros (before.toNat - digits.length) ++
      (if l.pointZero then ".0" else "")
  else
    String.ofList (digits.take before.toNat) ++ "." ++ String.ofList (digits.drop before.toNat)

/-- The text of a double. -/
def write (l : Layout) (x : Float) : String :=
  match Double.scaled? x with
  | some (negative, m, e) =>
    (if negative then "-" else "") ++
      (if m = 0 then (if l.pointZero then "0.0" else "0") else l.decimal (shortest m e))
  | none => if x.isNaN then "NaN" else if Double.isNegative x then "-inf" else "inf"

end Layout

end ScalarDomain.Decimal
