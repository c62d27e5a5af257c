import ArithTree.Failure
import ArithTree.Numerics

/-!
# ArithTree.Store.Samples

A growing sequence of doubles in a buffer. The first `size` places of the buffer hold the samples;
what the others hold cannot be seen. The buffer doubles when a sample finds it full.
-/

namespace ArithTree

structure Samples where
  buffer : Array Float
  size : Nat

namespace Samples

inductive Misuse where
  | indexOutOfRange (index : Int) (size : Nat)
  | integerTooLarge
  | readOnly
  deriving DecidableEq

def Misuse.message : Misuse → String
  | .indexOutOfRange index size =>
    "index " ++ toString index ++ " out of range for sequence of length " ++ toString size
  | .integerTooLarge => Failure.integerTooLarge.message
  | .readOnly => "assignment destination is read-only"

variable [Numerics]

/-- The last `count` of the `n` places of a new buffer, as they are found. -/
def unwritten (n count : Nat) : Array Float :=
  ((List.range' (n - count) count).map (Numerics.fresh n)).toArray

/-- No samples. There is always room for one at least. -/
def ofCapacity (capacity : Int) : Samples :=
  let n := (max 1 capacity).toNat
  ⟨unwritten n n, 0⟩

def empty : Samples := ofCapacity 16

def capacity (s : Samples) : Nat := s.buffer.size

def toList (s : Samples) : List Float := s.buffer.toList.take s.size

/-- A full buffer is exchanged for a new one of twice as many places, and the samples are copied. -/
def reserve (s : Samples) : Samples :=
  if s.size = s.buffer.size then
    ⟨s.buffer ++ unwritten (s.buffer.size + s.buffer.size) s.buffer.size, s.size⟩
  else s

def push (s : Samples) (x : Float) : Samples :=
  let s := s.reserve
  ⟨s.buffer.setIfInBounds s.size x, s.size + 1⟩

/-- Appends a number. Room is made before the number is converted, so the buffer may have grown even
if the number does not fit. -/
def append (s : Samples) (n : Number) : Except Misuse Unit × Samples :=
  match n.toDouble? with
  | some x => (.ok (), s.push x)
  | none => (.error .integerTooLarge, s.reserve)

/-- Appends numbers one by one, as making samples from numbers does; the first that does not fit ends it. -/
def extend (s : Samples) : List Number → Except Misuse Unit × Samples
  | [] => (.ok (), s)
  | n :: ns =>
    match s.append n with
    | (.ok (), s) => s.extend ns
    | (.error m, s) => (.error m, s)

/-- The place that an index means; negative indices count from the end. -/
def place (s : Samples) (index : Int) : Except Misuse Nat :=
  let i := if index < 0 then index + s.size else index
  if 0 ≤ i ∧ i < s.size then .ok i.toNat else .error (.indexOutOfRange i s.size)

def get (s : Samples) (index : Int) : Except Misuse Float :=
  match s.place index with
  | .error m => .error m
  | .ok i => .ok (s.buffer.getD i 0)

/-- Overwrites a sample. The index is checked before the number. -/
def set (s : Samples) (index : Int) (n : Number) : Except Misuse Samples :=
  match s.place index with
  | .error m => .error m
  | .ok i =>
    match n.toDouble? with
    | none => .error .integerTooLarge
    | some x => .ok ⟨s.buffer.setIfInBounds i x, s.size⟩

/-- Numbers appended to no samples, as long as they fit. -/
def ofNumbers (capacity : Int) (ns : List Number) : Except Misuse Samples :=
  match (ofCapacity capacity).extend ns with
  | (.ok (), s) => .ok s
  | (.error m, _) => .error m

inductive Operation where
  | append (n : Number)
  | extend (ns : List Number)
  | get (index : Int)
  | set (index : Int) (n : Number)
  | list
  /-- Writing into a listing of the samples, which is refused. -/
  | overwrite
  deriving DecidableEq

inductive Reply where
  | done
  | sample (x : Float)
  | listing (xs : List Float)
  deriving DecidableEq

def perform (s : Samples) : Operation → Except Misuse Reply × Samples
  | .append n =>
    let (r, s) := s.append n
    (r.map fun _ => .done, s)
  | .extend ns =>
    let (r, s) := s.extend ns
    (r.map fun _ => .done, s)
  | .get index => ((s.get index).map .sample, s)
  | .set index n =>
    match s.set index n with
    | .ok s => (.ok .done, s)
    | .error m => (.error m, s)
  | .list => (.ok (.listing s.toList), s)
  | .overwrite => (.error .readOnly, s)

def written (s : Samples) : String :=
  "GrowableArray([" ++ ", ".intercalate (s.toList.map Decimal.text) ++ "])"

end Samples
end ArithTree
