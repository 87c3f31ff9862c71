import DataParallel.Layout.Basic
import DataParallel.Target

/-! Layouts spelled as template types of the emitted code. Two closing brackets never touch, so that
no reader takes them for a shift. -/

namespace DataParallel.Layout

/-- A name with its parameters in angle brackets. The last parameter is kept away from the closing
bracket if it ends in one itself. -/
def template (name : String) (parameters : List String) (bracketed : Bool) : String :=
  name ++ "<" ++ ", ".intercalate parameters ++ (if bracketed then " >" else ">")

/-- Whether the spelling of a layout ends in a closing bracket. -/
def isBracketed : Layout → Bool
  | .named name [] => name.toList.getLast? = some '>'
  | .named _ (_ :: _) | .sequence _ | .zipped _ | .tuple _ | .quantified .. => true
  | .scalar _ | .container _ | .function .. => false

def isLastBracketed (layouts : List Layout) : Bool := layouts.getLast?.any isBracketed

mutual

/-- A layout as a type of the emitted code. -/
def spell (target : Target) : Layout → String
  | .scalar kind => kind.targetName
  | .named name [] => name
  | .named name (p :: ps) =>
    template name (spell target p :: spellAll target ps) (isLastBracketed (p :: ps))
  | .sequence element =>
    template "sequence" [target.tag, spell target element] element.isBracketed
  | .zipped columns => template "zipped_sequence" [spell target columns] columns.isBracketed
  | .container _ => "sp_cuarray"
  | .tuple fields => template "thrust::tuple" (spellAll target fields) (isLastBracketed fields)
  | .function parameters result =>
    spell target result ++ "(*)(" ++ ", ".intercalate (spellAll target parameters) ++ ")"
  | .quantified binders body =>
    template (spell target body) (spellAll target binders) (isLastBracketed binders)

def spellAll (target : Target) : List Layout → List String
  | [] => []
  | layout :: rest => spell target layout :: spellAll target rest

end

theorem getLast?_template (name : String) (parameters : List String) (bracketed : Bool) :
    (template name parameters bracketed).toList.getLast? = some '>' := by
  cases bracketed <;> simp [template, List.getLast?_cons]

theorem getLast?_spell (target : Target) (layout : Layout) :
    (layout.spell target).toList.getLast? = some '>' ↔ layout.isBracketed = true := by
  cases layout with
  | scalar kind => cases kind <;> simp [spell, isBracketed, Scalar.targetName]
  | named name parameters => cases parameters <;> simp [spell, isBracketed, getLast?_template]
  | function parameters result => simp [spell, isBracketed, List.getLast?_cons]
  | _ => simp [spell, isBracketed, getLast?_template]

end DataParallel.Layout
