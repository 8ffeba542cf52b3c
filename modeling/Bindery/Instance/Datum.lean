/-
  Values of classes.

  The fields of an object stand in the order of the slots of its class, so
  that the class tells what each of them is.
-/
import Bindery.Table
import Bindery.Binding.Slot
import Bindery.Instance.Scalar

namespace Bindery.Instance

open Binding

/-- A value of a class or of a member of one. -/
inductive Datum where
  | scalar (s : Scalar)
  | variant (name : String)
  | absent
  | present (d : Datum)
  | list (ds : List Datum)
  | alternative (name : String) (d : Datum)
  | object (name : String) (fields : List Datum)
deriving Repr, Inhabited

abbrev Classes := List Binding.Class

def Classes.get? (cs : Classes) (name : String) : Option Binding.Class := cs.find? (·.name == name)

/-! ## First values -/

/-- The first value of a type, when `make` gives that of a class. -/
def initialValue (make : String → Datum) : ValueType → Datum
  | .scalar type => .scalar (Scalar.initial type)
  | .enumeration e => if e.combinable then .list [] else .variant Code.invalidVariant
  | .object name _ => make name

def initialField (make : String → Datum) (s : Slot) : Datum :=
  match s.cardinality with
  | .optional => .absent
  | .list => .list []
  | .one =>
    match s.place with
    | .attr _ type | .text type | .child _ type => initialValue make type
    | .choice .. => .absent

/-- The first value of a class, inside the first values of the classes on
    `path`. -/
def initialObject (cs : Classes) (path : List String) (name : String) : Datum :=
  match _h : cs.get? name with
  | none => .object name []
  | some c =>
    if _hp : name ∈ path then .object name []
    else .object name (c.slots.map (initialField (initialObject cs (name :: path))))
termination_by remaining (cs.map (·.name)) path
decreasing_by
  refine remaining_cons_lt ?_ _hp
  have h := List.find?_some _h
  exact List.mem_map.2 ⟨c, List.mem_of_find?_eq_some _h, by simpa using h⟩

def Classes.initial (cs : Classes) (name : String) : Datum := initialObject cs [] name

/-! ## Showing -/

def shownName (name : String) : String :=
  if Code.pathKeywords.contains name then name ++ "_" else name

/-- The fields with the names of the members they are of. -/
def labelled : List Slot → List String → List String
  | s :: ss, d :: ds => (shownName s.member ++ ": " ++ d) :: labelled ss ds
  | _, _ => []

mutual

def Datum.shown (cs : Classes) : Datum → String
  | .scalar s => s.shown
  | .variant name => shownName name
  | .absent => "None"
  | .present d => "Some(" ++ d.shown cs ++ ")"
  | .list ds => "[" ++ ", ".intercalate (shownAll cs ds) ++ "]"
  | .alternative name d => shownName name ++ "(" ++ d.shown cs ++ ")"
  | .object name fields =>
    match labelled (((cs.get? name).map (·.slots)).getD []) (shownAll cs fields) with
    | [] => name
    | fields => name ++ " \x7b " ++ ", ".intercalate fields ++ " \x7d"

def shownAll (cs : Classes) : List Datum → List String
  | [] => []
  | d :: ds => d.shown cs :: shownAll cs ds

end

/-! ## Equality -/

mutual

def Datum.same : Datum → Datum → Bool
  | .scalar a, .scalar b => a.same b
  | .variant a, .variant b => a == b
  | .absent, .absent => true
  | .present a, .present b => a.same b
  | .list as, .list bs => sameAll as bs
  | .alternative n a, .alternative m b => n == m && a.same b
  | .object n as, .object m bs => n == m && sameAll as bs
  | _, _ => false

def sameAll : List Datum → List Datum → Bool
  | [], [] => true
  | a :: as, b :: bs => a.same b && sameAll as bs
  | _, _ => false

end

/-! ## Members -/

def updateField (name : String) (f : Datum → Datum) : List Slot → List Datum → List Datum
  | s :: ss, d :: ds => if s.member = name then f d :: ds else d :: updateField name f ss ds
  | _, ds => ds

def Datum.update (cs : Classes) (d : Datum) (member : String) (f : Datum → Datum) : Datum :=
  match d with
  | .object name fields =>
    .object name (updateField member f (((cs.get? name).map (·.slots)).getD []) fields)
  | d => d

def Datum.set (cs : Classes) (d : Datum) (member : String) (value : Datum) : Datum :=
  d.update cs member fun _ => value

def Datum.add (cs : Classes) (d : Datum) (member : String) (value : Datum) : Datum :=
  d.update cs member fun
    | .list ds => .list (ds ++ [value])
    | d => d

/-- The value with only the first `n` entries of a list. -/
def Datum.truncate (cs : Classes) (d : Datum) (member : String) (n : Nat) : Datum :=
  d.update cs member fun
    | .list ds => .list (ds.take n)
    | d => d

end Bindery.Instance
