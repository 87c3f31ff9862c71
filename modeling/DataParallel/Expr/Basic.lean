import DataParallel.Layout.Basic
import DataParallel.Ty.Basic

/-! Typed expressions. Every expression carries its source type from the start and its layout once
layouts are assigned. -/

namespace DataParallel

/-- The types of an expression. -/
structure Typing where
  ty : Ty
  layout : Option Layout
deriving DecidableEq, Repr, Inhabited

inductive Expr where
  | name (symbol : String) (typing : Typing)
  | literal (text : String) (typing : Typing)
  | tuple (elements : List Expr) (typing : Typing)
  /-- A call. The function is a name in every module that was read from a text. -/
  | apply (function : Expr) (arguments : List Expr) (typing : Typing)
  /-- A deferred call with its first arguments already given. -/
  | closure (function : Expr) (captured : List Expr) (typing : Typing)
deriving Repr, Inhabited

namespace Expr

def typing : Expr → Typing
  | .name _ t | .literal _ t | .tuple _ t | .apply _ _ t | .closure _ _ t => t

def ty (e : Expr) : Ty := e.typing.ty

def layout (e : Expr) : Option Layout := e.typing.layout

mutual

def beq : Expr → Expr → Bool
  | .name a t, .name b u => a == b && t == u
  | .literal a t, .literal b u => a == b && t == u
  | .tuple as t, .tuple bs u => beqAll as bs && t == u
  | .apply f as t, .apply g bs u => beq f g && beqAll as bs && t == u
  | .closure f as t, .closure g bs u => beq f g && beqAll as bs && t == u
  | _, _ => false

def beqAll : List Expr → List Expr → Bool
  | [], [] => true
  | a :: as, b :: bs => beq a b && beqAll as bs
  | _, _ => false

end

mutual

theorem beq_iff : (a b : Expr) → (beq a b = true ↔ a = b)
  | .name a t, b => by
    cases b <;> simp [beq]
  | .literal a t, b => by
    cases b <;> simp [beq]
  | .tuple as t, b => by
    cases b <;> simp [beq, beqAll_iff as]
  | .apply f as t, b => by
    cases b <;> simp [beq, beq_iff f, beqAll_iff as, and_assoc]
  | .closure f as t, b => by
    cases b <;> simp [beq, beq_iff f, beqAll_iff as, and_assoc]

theorem beqAll_iff : (as bs : List Expr) → (beqAll as bs = true ↔ as = bs)
  | [], bs => by cases bs <;> simp [beqAll]
  | a :: as, bs => by cases bs <;> simp [beqAll, beq_iff a, beqAll_iff as]

end

instance : DecidableEq Expr := fun a b => decidable_of_iff (beq a b = true) (beq_iff a b)

/-- The lists of expressions that an expression is made of. -/
@[simp] def parts : Expr → List (List Expr)
  | .tuple elements _ => [elements]
  | .apply function arguments _ | .closure function arguments _ => [[function], arguments]
  | _ => []

theorem list_induction {motive : List Expr → Prop} (nil : motive [])
    (cons : ∀ e es, (∀ part ∈ e.parts, motive part) → motive es → motive (e :: es)) (es : List Expr) : motive es := by
  refine @Expr.rec_1 (fun e => ∀ part ∈ e.parts, motive part) motive ?_ ?_ ?_ ?_ ?_ nil cons es <;> simp_all

def symbol? : Expr → Option String
  | .name symbol _ => some symbol
  | _ => none

def isName (e : Expr) : Bool := e.symbol?.isSome

def isTuple : Expr → Bool
  | .tuple .. => true
  | _ => false

def isApply : Expr → Bool
  | .apply .. => true
  | _ => false

def callee? : Expr → Option String
  | .apply function _ _ => function.symbol?
  | _ => none

def arguments : Expr → List Expr
  | .apply _ arguments _ => arguments
  | _ => []

/-- A name with the types of an expression. -/
def renamed (e : Expr) (symbol : String) : Expr := .name symbol e.typing

/-- Whether the value is a view; without a layout, whether its type holds sequences. -/
def needsContainer (e : Expr) : Bool :=
  match e.layout with
  | some layout => layout.needsContainer
  | none => e.ty.isAggregate

/-- The layouts of all expressions of a list, if each has one. -/
def layouts? (es : List Expr) : Option (List Layout) := es.mapM layout

/-- A call of a snippet, whose name is typed by its arguments and its result. -/
def applySnippet (snippet : String) (arguments : List Expr) (typing : Typing) : Expr :=
  let functionLayout := do
    let result ← typing.layout
    let parameters ← layouts? arguments
    pure (Layout.function parameters result)
  .apply (.name snippet ⟨.function (arguments.map ty) typing.ty, functionLayout⟩) arguments typing

mutual

/-- All names in an expression in the order of their appearance. -/
def names : Expr → List String
  | .name symbol _ => [symbol]
  | .literal .. => []
  | .tuple elements _ => namesAll elements
  | .apply function arguments _ => names function ++ namesAll arguments
  | .closure function captured _ => names function ++ namesAll captured

def namesAll : List Expr → List String
  | [] => []
  | e :: rest => names e ++ namesAll rest

end

mutual

def size : Expr → Nat
  | .name .. | .literal .. => 1
  | .tuple elements _ => sizeAll elements + 1
  | .apply function arguments _ => size function + sizeAll arguments + 1
  | .closure function captured _ => size function + sizeAll captured + 1

def sizeAll : List Expr → Nat
  | [] => 0
  | e :: rest => size e + sizeAll rest

end

mutual

def tyDepth : Expr → Nat
  | .name _ t | .literal _ t => t.ty.depth
  | .tuple elements t => Nat.max t.ty.depth (tyDepthAll elements)
  | .apply function arguments t | .closure function arguments t =>
    Nat.max t.ty.depth (Nat.max (tyDepth function) (tyDepthAll arguments))

def tyDepthAll : List Expr → Nat
  | [] => 0
  | e :: rest => Nat.max (tyDepth e) (tyDepthAll rest)

end

mutual

def render : Expr → String
  | .name symbol _ => symbol
  | .literal text _ => text
  | .tuple elements _ => "(" ++ ", ".intercalate (renderAll elements) ++ ")"
  | .apply function arguments _ =>
    render function ++ "(" ++ ", ".intercalate (renderAll arguments) ++ ")"
  | .closure function captured _ =>
    "closure " ++ render function ++ " [" ++ ", ".intercalate (renderAll captured) ++ "]"

def renderAll : List Expr → List String
  | [] => []
  | e :: rest => render e :: renderAll rest

end

end Expr
end DataParallel
