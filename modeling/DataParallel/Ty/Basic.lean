import DataParallel.Scalar
import DataParallel.Text.Ink

/-! Source types. Type variables are named types without parameters; they mean something only inside
the quantified type that binds them. -/

namespace DataParallel

inductive Ty where
  | named (name : String) (parameters : List Ty)
  | sequence (element : Ty)
  | tuple (fields : List Ty)
  | function (parameters : List Ty) (result : Ty)
  | quantified (binders : List Ty) (body : Ty)
deriving Repr, Inhabited

namespace Ty

def scalar (kind : Scalar) : Ty := .named kind.sourceName []

mutual

def beq : Ty → Ty → Bool
  | .named a ps, .named b qs => a == b && beqAll ps qs
  | .sequence a, .sequence b => beq a b
  | .tuple as, .tuple bs => beqAll as bs
  | .function ps a, .function qs b => beqAll ps qs && beq a b
  | .quantified vs a, .quantified ws b => beqAll vs ws && beq a b
  | _, _ => false

def beqAll : List Ty → List Ty → Bool
  | [], [] => true
  | a :: as, b :: bs => beq a b && beqAll as bs
  | _, _ => false

end

mutual

theorem beq_iff : (a b : Ty) → (beq a b = true ↔ a = b)
  | .named a ps, b => by
    cases b <;> simp [beq, beqAll_iff ps]
  | .sequence a, b => by
    cases b <;> simp [beq, beq_iff a]
  | .tuple as, b => by
    cases b <;> simp [beq, beqAll_iff as]
  | .function ps a, b => by
    cases b <;> simp [beq, beqAll_iff ps, beq_iff a]
  | .quantified vs a, b => by
    cases b <;> simp [beq, beqAll_iff vs, beq_iff a]

theorem beqAll_iff : (as bs : List Ty) → (beqAll as bs = true ↔ as = bs)
  | [], bs => by cases bs <;> simp [beqAll]
  | a :: as, bs => by cases bs <;> simp [beqAll, beq_iff a, beqAll_iff as]

end

instance : DecidableEq Ty := fun a b => decidable_of_iff (beq a b = true) (beq_iff a b)

def scalar? : Ty → Option Scalar
  | .named name [] => Scalar.ofSourceName? name
  | _ => none

/-- The name of a type without parameters that is no scalar: what a quantifier can bind. -/
def variableName? : Ty → Option String
  | .named name [] => if (Scalar.ofSourceName? name).isSome then none else some name
  | _ => none

def isSequence : Ty → Bool
  | .sequence _ => true
  | _ => false

def isTuple : Ty → Bool
  | .tuple _ => true
  | _ => false

/-- Functions, and quantified types of any body. -/
def isFunction : Ty → Bool
  | .function .. | .quantified .. => true
  | _ => false

mutual

/-- Whether values of a type hold sequences outside of functions and named types. -/
def isAggregate : Ty → Bool
  | .sequence _ => true
  | .tuple fields => anyAggregate fields
  | _ => false

def anyAggregate : List Ty → Bool
  | [] => false
  | field :: rest => isAggregate field || anyAggregate rest

end

def fields? : Ty → Option (List Ty)
  | .tuple fields => some fields
  | _ => none

def result? : Ty → Option Ty
  | .function _ result => some result
  | .quantified _ body => body.result?
  | _ => none

mutual

def depth : Ty → Nat
  | .named _ parameters => depthAll parameters + 1
  | .sequence element => depth element + 1
  | .tuple fields => depthAll fields + 1
  | .function parameters result => Nat.max (depthAll parameters) (depth result) + 1
  | .quantified binders body => Nat.max (depthAll binders) (depth body) + 1

def depthAll : List Ty → Nat
  | [] => 0
  | ty :: rest => Nat.max (depth ty) (depthAll rest)

end

mutual

/-- A type written as a term: `Seq(Float32)`, `Fn(Tuple(a), a)`. -/
def render : Ty → String
  | .named name [] => name
  | .named name parameters => name ++ "(" ++ ", ".intercalate (renderAll parameters) ++ ")"
  | .sequence element => "Seq(" ++ render element ++ ")"
  | .tuple fields => "Tuple(" ++ ", ".intercalate (renderAll fields) ++ ")"
  | .function parameters result =>
    "Fn(Tuple(" ++ ", ".intercalate (renderAll parameters) ++ "), " ++ render result ++ ")"
  | .quantified binders body =>
    "Polytype(" ++ ", ".intercalate (renderAll binders) ++ ", " ++ render body ++ ")"

def renderAll : List Ty → List String
  | [] => []
  | ty :: rest => render ty :: renderAll rest

end

def painted (ink : Ink) (ty : Ty) : String := ink.paint .yellow ty.render

def renderList (types : List Ty) : String := ", ".intercalate (renderAll types)

end Ty
end DataParallel
