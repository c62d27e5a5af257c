import ArithTree.Store.Samples

/-!
# ArithTree.Plot

Finished plots, and the sink that keeps them.
-/

namespace ArithTree

structure Plot where
  title : String
  xLabel : String
  yLabel : String
  xs : List Float
  ys : List Float

namespace Plot

/-- The samples as points; samples without a partner are left out. -/
def points (p : Plot) : List (Float × Float) := p.xs.zip p.ys

end Plot

/-- The plots made so far, oldest first. -/
abbrev Sink := List Plot

namespace Sink

def render (s : Sink) (p : Plot) : Sink := s ++ [p]

def last? (s : Sink) : Option Plot := s.getLast?

/-- The plot with an index; negative indices count from the end. -/
def at? (s : Sink) (index : Int) : Option Plot :=
  let i := if index < 0 then index + s.length else index
  if 0 ≤ i then s[i.toNat]? else none

/-- What an index outside the sink is told. -/
def outOfRange : String := "list index out of range"

end Sink
end ArithTree
