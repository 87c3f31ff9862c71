import DataParallel.Scalar

/-! Layouts: how values of source types are represented in emitted code.

A sequence is a view, a container owns the storage behind a view, and a zipped sequence is a
sequence of tuples that is stored as a tuple of sequences. -/

namespace DataParallel

inductive Layout where
  | scalar (kind : Scalar)
  | named (name : String) (parameters : List Layout)
  | sequence (element : Layout)
  | zipped (columns : Layout)
  | container (element : Layout)
  | tuple (fields : List Layout)
  | function (parameters : List Layout) (result : Layout)
  | quantified (binders : List Layout) (body : Layout)
deriving Repr, Inhabited

namespace Layout

mutual

def beq : Layout → Layout → Bool
  | .scalar a, .scalar b => a == b
  | .named a ps, .named b qs => a == b && beqAll ps qs
  | .sequence a, .sequence b => beq a b
  | .zipped a, .zipped b => beq a b
  | .container a, .container b => beq a b
  | .tuple as, .tuple bs => beqAll as bs
  | .function ps a, .function qs b => beqAll ps qs && beq a b
  | .quantified vs a, .quantified ws b => beqAll vs ws && beq a b
  | _, _ => false

def beqAll : List Layout → List Layout → Bool
  | [], [] => true
  | a :: as, b :: bs => beq a b && beqAll as bs
  | _, _ => false

end

mutual

theorem beq_iff : (a b : Layout) → (beq a b = true ↔ a = b)
  | .scalar a, b => by
    cases b <;> simp [beq]
  | .named a ps, b => by
    cases b <;> simp [beq, beqAll_iff ps]
  | .sequence a, b => by
    cases b <;> simp [beq, beq_iff a]
  | .zipped a, b => by
    cases b <;> simp [beq, beq_iff a]
  | .container a, b => by
    cases b <;> simp [beq, beq_iff a]
  | .tuple as, b => by
    cases b <;> simp [beq, beqAll_iff as]
  | .function ps a, b => by
    cases b <;> simp [beq, beqAll_iff ps, beq_iff a]
  | .quantified vs a, b => by
    cases b <;> simp [beq, beqAll_iff vs, beq_iff a]

theorem beqAll_iff : (as bs : List Layout) → (beqAll as bs = true ↔ as = bs)
  | [], bs => by cases bs <;> simp [beqAll]
  | a :: as, bs => by cases bs <;> simp [beqAll, beq_iff a, beqAll_iff as]

end

instance : DecidableEq Layout := fun a b => decidable_of_iff (beq a b = true) (beq_iff a b)

mutual

/-- The layout of the storage behind a value: sequences become containers, a zipped sequence becomes
the tuple of its columns' containers, and tuples go field by field. -/
def containerForm : Layout → Layout
  | .sequence element => .container element
  | .zipped columns => containerForm columns
  | .tuple fields => .tuple (containerForms fields)
  | layout => layout

def containerForms : List Layout → List Layout
  | [] => []
  | layout :: rest => containerForm layout :: containerForms rest

end

/-- Whether a value is a view, so that it needs storage of its own to leave a procedure. -/
def needsContainer (layout : Layout) : Bool := layout.containerForm ≠ layout

def isContainer : Layout → Bool
  | .container _ => true
  | _ => false

def fields? : Layout → Option (List Layout)
  | .tuple fields => some fields
  | _ => none

def result? : Layout → Option Layout
  | .function _ result => some result
  | .quantified _ body => body.result?
  | _ => none

mutual

/-- A layout written as a term: `Seq(float)`, `Zip(Tuple(Seq(int), Seq(float)))`. -/
def render : Layout → String
  | .scalar kind => kind.targetName
  | .named name [] => name
  | .named name parameters => name ++ "(" ++ ", ".intercalate (renderAll parameters) ++ ")"
  | .sequence element => "Seq(" ++ render element ++ ")"
  | .zipped columns => "Zip(" ++ render columns ++ ")"
  | .container element => "Container(" ++ render element ++ ")"
  | .tuple fields => "Tuple(" ++ ", ".intercalate (renderAll fields) ++ ")"
  | .function parameters result =>
    "Fn(Tuple(" ++ ", ".intercalate (renderAll parameters) ++ "), " ++ render result ++ ")"
  | .quantified binders body =>
    "Polytype(" ++ ", ".intercalate (renderAll binders) ++ ", " ++ render body ++ ")"

def renderAll : List Layout → List String
  | [] => []
  | layout :: rest => render layout :: renderAll rest

end

end Layout
end DataParallel
