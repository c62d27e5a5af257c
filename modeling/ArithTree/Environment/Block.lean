import ArithTree.Environment

/-!
# ArithTree.Environment.Block

Blocks of steps on an environment. A step may open a block of its own under a binding that lasts no
longer than that block. The first step that fails ends all blocks it stands in, and every binding
that such a block had made is removed on the way out.
-/

namespace ArithTree

/-- A step without a block of its own. -/
inductive EnvironmentStep where
  | bind (name : String) (e : Expr)
  | unbind (name : String)
  | isBound (name : String)
  | evaluate (e : Expr)
  | bindings
  /-- A step that fails by itself, because its tree cannot be built. -/
  | fail (f : Failure)

inductive Block where
  | done
  | step (s : EnvironmentStep) (rest : Block)
  /-- A block `body` under the binding of `name` to `e`. -/
  | within (name : String) (e : Expr) (body rest : Block)

inductive BlockReply where
  | done
  | tree (e : Expr)
  | truth (b : Bool)
  | number (x : Float)
  | bindings (b : Bindings)
  | block (answers : List BlockReply)

namespace EnvironmentStep

def run [Numerics] (env : Environment) : EnvironmentStep → Except Failure BlockReply × Environment
  | .bind name e => (.ok .done, env.bind name e)
  | .unbind name =>
    let (r, env) := env.unbind name
    (r.map .tree, env)
  | .isBound name => (.ok (.truth (env.isBound name)), env)
  | .evaluate e => ((env.evaluate e).map .number, env)
  | .bindings => (.ok (.bindings env.bindings), env)
  | .fail f => (.error f, env)

end EnvironmentStep

namespace Block

/-- Runs a block, and lists what its steps answer. -/
def run [Numerics] (env : Environment) : Block → Except Failure (List BlockReply) × Environment
  | .done => (.ok [], env)
  | .step s rest =>
    match s.run env with
    | (.error f, env) => (.error f, env)
    | (.ok r, env) =>
      match rest.run env with
      | (.error f, env) => (.error f, env)
      | (.ok rs, env) => (.ok (r :: rs), env)
  | .within name e body rest =>
    match env.withBinding name e fun env => body.run env with
    | (.error f, env) => (.error f, env)
    | (.ok rs, env) =>
      match rest.run env with
      | (.error f, env) => (.error f, env)
      | (.ok rest, env) => (.ok (.block rs :: rest), env)

end Block
end ArithTree
