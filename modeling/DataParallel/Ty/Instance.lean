import DataParallel.Table
import DataParallel.Ty.Basic

/-! Instances of quantified types: substitution for type variables, and the instance of a function
type that fits given argument types. -/

namespace DataParallel.Ty

def variableNames (binders : List Ty) : List String := binders.filterMap variableName?

mutual

/-- Replaces named types without parameters by their bindings. A quantifier hides the bindings of
its own variables. -/
def substitute (bindings : Table Ty) : Ty → Ty
  | .named name [] => (bindings.get? name).getD (.named name [])
  | .named name (p :: ps) => .named name (substitute bindings p :: substituteAll bindings ps)
  | .sequence element => .sequence (substitute bindings element)
  | .tuple fields => .tuple (substituteAll bindings fields)
  | .function parameters result =>
    .function (substituteAll bindings parameters) (substitute bindings result)
  | .quantified binders body =>
    .quantified binders (substitute (bindings.eraseAll (variableNames binders)) body)

def substituteAll (bindings : Table Ty) : List Ty → List Ty
  | [] => []
  | ty :: rest => substitute bindings ty :: substituteAll bindings rest

end

def bindFirst (bindings : Table Ty) (name : String) (ty : Ty) : Table Ty :=
  if bindings.contains name then bindings else bindings.insert name ty

def variableOf? (binders : List String) (ty : Ty) : Option String :=
  ty.variableName?.filter (· ∈ binders)

mutual

/-- Matches a type with variables against a concrete one. The first occurrence of a variable decides
its binding and later ones fit anything. -/
def match? (binders : List String) : Ty → Ty → Table Ty → Option (Table Ty)
  | .named a ps, concrete, bindings =>
    match variableOf? binders (.named a ps) with
    | some name => some (bindFirst bindings name concrete)
    | none =>
      match concrete with
      | .named b qs => if a = b then matchAll? binders ps qs bindings else none
      | _ => none
  | .sequence a, .sequence b, bindings => match? binders a b bindings
  | .tuple as, .tuple bs, bindings => matchAll? binders as bs bindings
  | .function ps a, .function qs b, bindings => do
    match? binders a b (← matchAll? binders ps qs bindings)
  | _, _, _ => none

def matchAll? (binders : List String) : List Ty → List Ty → Table Ty → Option (Table Ty)
  | [], [], bindings => some bindings
  | a :: as, b :: bs, bindings => do matchAll? binders as bs (← match? binders a b bindings)
  | _, _, _ => none

end

/-- The bound variables of a type and the type below the quantifier. -/
def unquantified : Ty → List String × Ty
  | .quantified binders body => (variableNames binders, body)
  | ty => ([], ty)

/-- The parameter and result types of a function type at given argument types. Variables that no
argument binds stay in place. -/
def instantiate? (ty : Ty) (arguments : List Ty) : Option (List Ty × Ty) :=
  match ty.unquantified with
  | (binders, .function parameters result) => do
    let bindings ← matchAll? binders parameters arguments ∅
    pure (substituteAll bindings parameters, substitute bindings result)
  | _ => none

end DataParallel.Ty
