import ArithTree.Elementary.Power
import ArithTree.Numerics

/-!
# ArithTree.Elementary.Rounded

The functions to compute with in a run: each result is the double nearest to the exact one. New memory is zero.
-/

namespace ArithTree
namespace Elementary

scoped instance rounded : Numerics where
  sin := sin
  cos := cos
  pow := pow
  fresh _ _ := 0

end Elementary
end ArithTree
