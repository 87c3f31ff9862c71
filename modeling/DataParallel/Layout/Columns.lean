import DataParallel.Layout.Basic
import DataParallel.Ty.Basic

/-! The layout of every source type. A sequence of tuples is always stored column by column, also
when a column holds tuples itself.

`Layout.ofTy` is the rule; `Conversions` remembers what was already converted, which changes no
result. -/

namespace DataParallel

namespace Layout

mutual

/-- The layout of a sequence whose elements have a given layout. -/
def sequenceOf : Layout → Layout
  | .tuple fields => .zipped (.tuple (sequencesOf fields))
  | element => .sequence element

def sequencesOf : List Layout → List Layout
  | [] => []
  | field :: rest => sequenceOf field :: sequencesOf rest

end

mutual

/-- The layout of a source type. Named types that are no scalars keep their name. -/
def ofTy : Ty → Layout
  | .named name parameters =>
    match Ty.scalar? (.named name parameters) with
    | some kind => .scalar kind
    | none => .named name (ofTys parameters)
  | .sequence element => sequenceOf (ofTy element)
  | .tuple fields => .tuple (ofTys fields)
  | .function parameters result => .function (ofTys parameters) (ofTy result)
  | .quantified binders body => .quantified (ofTys binders) (ofTy body)

def ofTys : List Ty → List Layout
  | [] => []
  | ty :: rest => ofTy ty :: ofTys rest

end

end Layout

/-- Source types whose layout is already known. -/
structure Conversions where
  known : List (Ty × Layout)
deriving Repr

namespace Conversions

def empty : Conversions := ⟨[]⟩

def find? (conversions : Conversions) (ty : Ty) : Option Layout := conversions.known.lookup ty

def learn (conversions : Conversions) (ty : Ty) (layout : Layout) : Layout × Conversions :=
  (layout, ⟨(ty, layout) :: conversions.known⟩)

mutual

/-- The layout of a type, looked up if it is known and remembered if it is not. -/
def convert (ty : Ty) (conversions : Conversions) : Layout × Conversions :=
  match conversions.find? ty with
  | some layout => (layout, conversions)
  | none =>
    match ty with
    | .named name parameters =>
      match Ty.scalar? (.named name parameters) with
      | some kind => conversions.learn (.named name parameters) (.scalar kind)
      | none =>
        let (layouts, conversions) := convertAll parameters conversions
        conversions.learn (.named name parameters) (.named name layouts)
    | .sequence element =>
      let (layout, conversions) := convert element conversions
      conversions.learn (.sequence element) (Layout.sequenceOf layout)
    | .tuple fields =>
      let (layouts, conversions) := convertAll fields conversions
      conversions.learn (.tuple fields) (.tuple layouts)
    | .function parameters result =>
      let (layout, conversions) := convert result conversions
      let (layouts, conversions) := convertAll parameters conversions
      conversions.learn (.function parameters result) (.function layouts layout)
    | .quantified binders body =>
      let (layout, conversions) := convert body conversions
      let (layouts, conversions) := convertAll binders conversions
      conversions.learn (.quantified binders body) (.quantified layouts layout)

def convertAll (types : List Ty) (conversions : Conversions) : List Layout × Conversions :=
  match types with
  | [] => ([], conversions)
  | ty :: rest =>
    let (layout, conversions) := convert ty conversions
    let (layouts, conversions) := convertAll rest conversions
    (layout :: layouts, conversions)

end

end Conversions
end DataParallel
