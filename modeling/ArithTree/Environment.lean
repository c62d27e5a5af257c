import ArithTree.Evaluate
import ArithTree.Plot

/-!
# ArithTree.Environment

Bindings together with the sink for plots. A name can be bound for a while (`withBinding`): it is
removed again however the work under it ends.
-/

namespace ArithTree

structure Environment where
  bindings : Bindings
  sink : Sink := []

namespace Environment

def bind (env : Environment) (name : String) (e : Expr) : Environment :=
  { env with bindings := env.bindings.insert name e }

/-- Removes a binding, and gives the tree that was bound. -/
def unbind (env : Environment) (name : String) : Except Failure Expr × Environment :=
  match env.bindings.remove name with
  | .ok (e, b) => (.ok e, { env with bindings := b })
  | .error _ => (.error (.noSuchName name), env)

def isBound (env : Environment) (name : String) : Bool := env.bindings.contains name

def evaluate [Numerics] (env : Environment) (e : Expr) : Except Failure Float :=
  ArithTree.evaluate env.bindings e

/-- Works under a binding that is removed afterwards. If it cannot be removed, that failure is the
result, whatever the work gave. -/
def withBinding {β : Type} (env : Environment) (name : String) (e : Expr)
    (work : Environment → Except Failure β × Environment) : Except Failure β × Environment :=
  let (result, env) := work (env.bind name e)
  match env.unbind name with
  | (.ok _, env) => (result, env)
  | (.error f, env) => (.error f, env)

def render (env : Environment) (p : Plot) : Environment :=
  { env with sink := env.sink.render p }

end Environment
end ArithTree
