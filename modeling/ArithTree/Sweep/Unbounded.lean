/-!
# ArithTree.Sweep.Unbounded

Why a sweep cannot be carried out.
-/

namespace ArithTree
namespace Sweep

/-- The ways in which a sweep has no reasonable end. -/
inductive Unbounded (α : Type) where
  /-- A bound or the step is no finite number. -/
  | openRange (low high step : α)
  /-- The number of steps is no finite number. -/
  | coarse (step low high : α)
  /-- More samples are needed than the limit allows. -/
  | tooMany (needed limit : Int)
  /-- Adding the step no longer changes the point. -/
  | stalled (step point : α)
  /-- The limit was passed while sampling. -/
  | exceeded (limit : Int) (produced : Nat)
  deriving DecidableEq

/-- What ends a sweep early. -/
inductive Stop (α : Type) where
  | zeroStep
  | unbounded (why : Unbounded α)
  deriving DecidableEq

/-- The number of samples that a failed sweep reports, where it knows one. -/
def Unbounded.samples? {α : Type} : Unbounded α → Option Int
  | .tooMany needed _ => some needed
  | .exceeded _ produced => some produced
  | _ => none

end Sweep
end ArithTree
