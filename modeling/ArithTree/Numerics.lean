/-!
# ArithTree.Numerics

What is taken from the numerical library underneath: three functions on doubles, and memory that is handed out as it
was found. Nothing is assumed of any of it.
-/

namespace ArithTree

class Numerics where
  sin : Float → Float
  cos : Float → Float
  pow : Float → Float → Float
  /-- What a new buffer of `n` places holds at a place that nothing was written to. -/
  fresh : (n place : Nat) → Float

end ArithTree
