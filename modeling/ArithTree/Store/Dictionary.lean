/-!
# ArithTree.Store.Dictionary

A dictionary in a row of slots, searched from the front. The entries fill the first `size` slots in
order of insertion. A new key takes the next slot, and the row doubles when there is none; a removed
key's slot closes up, so the order of the others is kept and the freed slot is reused.

Keys are compared by `==`, which need not be reflexive: a key that differs from itself can be stored
and listed, but never found again.
-/

namespace ArithTree

structure Entry (κ ν : Type) where
  key : κ
  value : ν
  deriving DecidableEq

structure Dictionary (κ ν : Type) where
  slots : List (Option (Entry κ ν))
  size : Nat
  deriving DecidableEq

namespace Dictionary

/-- Why an entry cannot be taken out. -/
inductive Missing (κ : Type) where
  | absent (key : κ)
  | empty
  deriving DecidableEq

variable {κ ν : Type}

def ofCapacity (capacity : Nat) : Dictionary κ ν := ⟨List.replicate capacity none, 0⟩

/-- A dictionary has at least one slot. -/
def ofCapacity? (capacity : Int) : Option (Dictionary κ ν) :=
  if capacity < 1 then none else some (ofCapacity capacity.toNat)

def capacity (d : Dictionary κ ν) : Nat := d.slots.length

def used (d : Dictionary κ ν) : List (Option (Entry κ ν)) := d.slots.take d.size

/-- The entries, oldest first. -/
def entries (d : Dictionary κ ν) : List (Entry κ ν) := d.used.filterMap id

def keys (d : Dictionary κ ν) : List κ := d.entries.map Entry.key

/-- Twice as many slots, if all are in use. -/
def grown (d : Dictionary κ ν) : List (Option (Entry κ ν)) :=
  if d.size = d.slots.length then d.slots ++ List.replicate d.slots.length none else d.slots

def push (d : Dictionary κ ν) (e : Entry κ ν) : Dictionary κ ν :=
  ⟨d.grown.set d.size (some e), d.size + 1⟩

def removeAt (d : Dictionary κ ν) (i : Nat) : Dictionary κ ν :=
  ⟨d.slots.eraseIdx i ++ [none], d.size - 1⟩

inductive Operation (κ ν : Type) where
  | insert (key : κ) (value : ν)
  /-- The value of a key, or the default where there is one. -/
  | get (key : κ) (default? : Option ν)
  | remove (key : κ)
  | contains (key : κ)
  | pop (key : κ) (default? : Option ν)
  | popFirst
  | getOrInsert (key : κ) (value : ν)
  | insertMany (pairs : List (κ × ν))
  | clear
  | keys
  | values
  | items
  /-- Is the dictionary equal to one with these entries? -/
  | equals (pairs : List (κ × ν))

inductive Reply (κ ν : Type) where
  | done
  | value (v : ν)
  | truth (b : Bool)
  | pair (key : κ) (value : ν)
  | keys (ks : List κ)
  | values (vs : List ν)
  | items (ps : List (κ × ν))
  deriving DecidableEq

variable [BEq κ]

/-- Does a slot hold an entry with this key? -/
def holds (key : κ) : Option (Entry κ ν) → Bool
  | some e => e.key == key
  | none => false

def indexOf? (d : Dictionary κ ν) (key : κ) : Option Nat := d.used.findIdx? (holds key)

def find? (d : Dictionary κ ν) (key : κ) : Option (Nat × Entry κ ν) :=
  match d.indexOf? key with
  | none => none
  | some i =>
    match d.slots[i]? with
    | some (some e) => some (i, e)
    | _ => none

def get? (d : Dictionary κ ν) (key : κ) : Option ν :=
  match d.find? key with
  | some (_, e) => some e.value
  | none => none

def contains (d : Dictionary κ ν) (key : κ) : Bool := (d.indexOf? key).isSome

/-- The value of a key that has to be there. -/
def lookup (d : Dictionary κ ν) (key : κ) : Except (Missing κ) ν :=
  match d.get? key with
  | some v => .ok v
  | none => .error (.absent key)

/-- Stores a value. A key that is there already keeps its place and its first spelling. -/
def insert (d : Dictionary κ ν) (key : κ) (value : ν) : Dictionary κ ν :=
  match d.find? key with
  | some (i, e) => ⟨d.slots.set i (some ⟨e.key, value⟩), d.size⟩
  | none => d.push ⟨key, value⟩

def remove (d : Dictionary κ ν) (key : κ) : Except (Missing κ) (ν × Dictionary κ ν) :=
  match d.find? key with
  | some (i, e) => .ok (e.value, d.removeAt i)
  | none => .error (.absent key)

def insertMany (d : Dictionary κ ν) (pairs : List (κ × ν)) : Dictionary κ ν :=
  pairs.foldl (fun d p => d.insert p.1 p.2) d

/-- Values stored in order, beginning with no entries in `capacity` slots. -/
def ofList (capacity : Nat) (pairs : List (κ × ν)) : Dictionary κ ν :=
  (ofCapacity capacity).insertMany pairs

/-- Takes a key out; a missing key gives the default, if there is one. -/
def pop (d : Dictionary κ ν) (key : κ) (default? : Option ν) :
    Except (Missing κ) (ν × Dictionary κ ν) :=
  match d.remove key, default? with
  | .ok r, _ => .ok r
  | .error _, some v => .ok (v, d)
  | .error m, none => .error m

/-- Takes out the oldest entry. It is found by its key, so a key that differs from itself is in the
way. -/
def popFirst (d : Dictionary κ ν) : Except (Missing κ) ((κ × ν) × Dictionary κ ν) :=
  match d.keys with
  | [] => .error .empty
  | key :: _ =>
    match d.remove key with
    | .ok (v, d) => .ok ((key, v), d)
    | .error m => .error m

/-- The value of a key, which is stored first if the key is missing. -/
def getOrInsert (d : Dictionary κ ν) (key : κ) (value : ν) : ν × Dictionary κ ν :=
  match d.get? key with
  | some v => (v, d)
  | none => (value, d.insert key value)

/-- Takes out the oldest entry up to `n` times, as long as one can be taken out. -/
def drain : Nat → Dictionary κ ν → Dictionary κ ν
  | 0, d => d
  | n + 1, d =>
    match d.popFirst with
    | .ok (_, d) => drain n d
    | .error _ => d

def clear (d : Dictionary κ ν) : Dictionary κ ν := d.drain d.size

/-- The values that are found under keys, one lookup for each of them in order. -/
def lookupAll (d : Dictionary κ ν) : List κ → Except (Missing κ) (List ν)
  | [] => .ok []
  | key :: rest =>
    match d.lookup key with
    | .error m => .error m
    | .ok v =>
      match d.lookupAll rest with
      | .error m => .error m
      | .ok vs => .ok (v :: vs)

def values (d : Dictionary κ ν) : Except (Missing κ) (List ν) := d.lookupAll d.keys

/-- The keys with the values that are found under them. -/
def items (d : Dictionary κ ν) : Except (Missing κ) (List (κ × ν)) :=
  match d.values with
  | .error m => .error m
  | .ok vs => .ok (d.keys.zip vs)

/-- Are the same keys stored with equal values? Order does not matter. A comparison of two maps takes one
and the same object for equal without looking at it; plain data have no identity, so `==` stands for that comparison,
and a value that differs from itself is equal to nothing that is stored. -/
def equals [BEq ν] (d d' : Dictionary κ ν) : Except (Missing κ) Bool :=
  match d.items with
  | .error m => .error m
  | .ok ps =>
    match d'.items with
    | .error m => .error m
    | .ok qs =>
      .ok (ps.length == qs.length && ps.all fun p =>
        match d'.get? p.1 with
        | some v => p.2 == v
        | none => false)

/-- Carries out an operation. One that fails leaves the dictionary as it was. -/
def perform [BEq ν] (d : Dictionary κ ν) :
    Operation κ ν → Except (Missing κ) (Reply κ ν) × Dictionary κ ν
  | .insert key value => (.ok .done, d.insert key value)
  | .get key default? =>
    match d.get? key, default? with
    | some v, _ => (.ok (.value v), d)
    | none, some v => (.ok (.value v), d)
    | none, none => (.error (.absent key), d)
  | .remove key =>
    match d.remove key with
    | .ok (v, d) => (.ok (.value v), d)
    | .error m => (.error m, d)
  | .contains key => (.ok (.truth (d.contains key)), d)
  | .pop key default? =>
    match d.pop key default? with
    | .ok (v, d) => (.ok (.value v), d)
    | .error m => (.error m, d)
  | .popFirst =>
    match d.popFirst with
    | .ok ((key, v), d) => (.ok (.pair key v), d)
    | .error m => (.error m, d)
  | .getOrInsert key value =>
    let (v, d) := d.getOrInsert key value
    (.ok (.value v), d)
  | .insertMany pairs => (.ok .done, d.insertMany pairs)
  | .clear => (.ok .done, d.clear)
  | .keys => (.ok (.keys d.keys), d)
  | .values =>
    match d.values with
    | .ok vs => (.ok (.values vs), d)
    | .error m => (.error m, d)
  | .items =>
    match d.items with
    | .ok ps => (.ok (.items ps), d)
    | .error m => (.error m, d)
  | .equals pairs =>
    match d.equals (ofList 1 pairs) with
    | .ok b => (.ok (.truth b), d)
    | .error m => (.error m, d)

end Dictionary
end ArithTree
