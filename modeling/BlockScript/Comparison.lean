import BlockScript.Value.Basic

/-!
# Comparisons
-/

namespace BlockScript

/-- The comparison in the head of a condition block. -/
inductive Comparison where
  | gt
  | lt
  | eq
  | ne
  | ge
  | le
deriving DecidableEq

namespace Comparison

def all : List Comparison := [.gt, .lt, .eq, .ne, .ge, .le]

/-- How the comparison is written. -/
def symbol : Comparison → String
  | gt => ">"
  | lt => "<"
  | eq => "=="
  | ne => "!="
  | ge => ">="
  | le => "<="

/-- The comparison that is written so, if one is. -/
def ofSymbol? (s : String) : Option Comparison := all.find? (·.symbol == s)

/-- Whether the comparison is true of two values. -/
def holds : Comparison → Value → Value → Bool
  | gt, a, b => decide (b < a)
  | lt, a, b => decide (a < b)
  | eq, a, b => decide (a = b)
  | ne, a, b => decide (a ≠ b)
  | ge, a, b => decide (b ≤ a)
  | le, a, b => decide (a ≤ b)

end Comparison

end BlockScript
