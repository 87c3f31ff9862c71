import DataParallel.Lowering.Error
import DataParallel.Name.Basic
import DataParallel.Table
import DataParallel.Ty.Basic

/-! Registries: the procedures a unit may call without defining them, and how calling them relates
to the kernels that produce their arguments. -/

namespace DataParallel

inductive Synchronization where
  /-- Reads its sequence arguments in full, so they must be complete. The result is complete. -/
  | forces
  /-- Composes a further view of its arguments. The result is pending. -/
  | propagates
  /-- Neither waits for anything nor leaves anything pending. -/
  | inert
deriving DecidableEq, Repr

namespace Synchronization

def all : List Synchronization := [.forces, .propagates, .inert]

def word : Synchronization → String
  | .forces => "forces"
  | .propagates => "propagates"
  | .inert => "opaque"

def ofWord? (text : String) : Option Synchronization := all.find? (·.word = text)

end Synchronization

structure Signature where
  ty : Ty
  synchronization : Synchronization
deriving DecidableEq, Repr

structure Registry where
  signatures : Table Signature
deriving DecidableEq, Repr

namespace Registry

def empty : Registry := ⟨∅⟩

def get? (registry : Registry) (name : String) : Option Signature := registry.signatures.get? name

/-- The signature of a procedure that must be registered. -/
def lookup (registry : Registry) (name : String) : Except LoweringError Signature :=
  match registry.get? name with
  | some signature => .ok signature
  | none => .error (.unregisteredProcedure name)

def contains (registry : Registry) (name : String) : Bool := registry.signatures.contains name

/-- Registers a procedure; an earlier signature of the name is replaced. -/
def insert (registry : Registry) (name : String) (signature : Signature) : Registry :=
  ⟨registry.signatures.insert name signature⟩

def size (registry : Registry) : Nat := registry.signatures.size

def isEmpty (registry : Registry) : Bool := registry.size == 0

def arithmetic : List String := ["op_add", "op_sub", "op_mul", "op_div", "op_mod"]

def connectives : List String := ["op_and", "op_or"]

def operatorTy (name : String) : Ty :=
  let a := Ty.named "a" []
  let bool := Ty.scalar .bool
  if name ∈ arithmetic then .quantified [a] (.function [a, a] a)
  else if name ∈ connectives then .function [bool, bool] bool
  else .quantified [a] (.function [a, a] bool)

/-- The registry of the scalar operators, with which every unit starts. -/
def standard : Registry :=
  let registry := Name.operators.foldl
    (fun registry operator => registry.insert operator.1 ⟨operatorTy operator.1, .inert⟩) empty
  registry.insert Name.negation ⟨.function [.scalar .bool] (.scalar .bool), .inert⟩

end Registry
end DataParallel
