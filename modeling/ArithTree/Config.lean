import ArithTree.Log
import ArithTree.Scalar
import ArithTree.Sweep.Points

/-!
# ArithTree.Config

The settings of a calculator. A `Draft` is what a caller asks for, field by field, and may be
anything; `check` accepts it or tells the first field that is wrong.
-/

namespace ArithTree

structure Config where
  mode : Sweep.Mode := .count
  /-- A plot that needs more samples fails. -/
  maxSamples : Nat := 1000000
  maxSamples_pos : 0 < maxSamples := by decide
  /-- Does simplification build the trees it puts in anew? -/
  copying : Bool := false
  /-- The level to set when a calculator is made. -/
  level : Option Level := none
  deriving DecidableEq

namespace Config

/-- A level as a caller gives it. -/
inductive GivenLevel where
  | level (l : Level)
  | other (s : Scalar)
  deriving DecidableEq

structure Draft where
  mode : Scalar := .text Sweep.Mode.count.name
  maxSamples : Int := 1000000
  copying : Bool := false
  level : GivenLevel := .other .nothing
  deriving DecidableEq

inductive Invalid where
  | mode (given : Scalar)
  | maxSamples
  | level (given : Scalar)
  deriving DecidableEq

def Invalid.message : Invalid → String
  | .mode given =>
    let quote := String.ofList [Text.singleQuote]
    "Invalid sweep_mode " ++ quote ++ given.shown ++ quote ++ ". Choose from (" ++
      ", ".intercalate (Sweep.Mode.all.map fun m => Text.quoted m.name) ++ ")."
  | .maxSamples => "max_plot_samples must be a positive integer."
  | .level given => "log_level must be a LogLevel, got " ++ given.written

def modeOf? : Scalar → Option Sweep.Mode
  | .text s => Sweep.Mode.ofName? s
  | _ => none

/-- Accepts a draft whose fields are all valid. The fields are looked at in order. -/
def check (r : Draft) : Except Invalid Config :=
  match modeOf? r.mode with
  | none => .error (.mode r.mode)
  | some mode =>
    if h : 1 ≤ r.maxSamples then
      match r.level with
      | .other .nothing => .ok ⟨mode, r.maxSamples.toNat, by omega, r.copying, none⟩
      | .other given => .error (.level given)
      | .level l => .ok ⟨mode, r.maxSamples.toNat, by omega, r.copying, some l⟩
    else .error .maxSamples

def toDraft (c : Config) : Draft where
  mode := .text c.mode.name
  maxSamples := c.maxSamples
  copying := c.copying
  level := match c.level with
    | some l => .level l
    | none => .other .nothing

def withChanges (c : Config) (change : Draft → Draft) : Except Invalid Config :=
  check (change c.toDraft)

end Config
end ArithTree
