import DataParallel.Proofs.Layouts

/-! What layouts are made of.

The layout of a source type is columnar at every depth, whatever the nesting of tuples and sequences
is. It is a view if and only if the type holds sequences, and the storage behind a view is no view
again. -/

namespace DataParallel

open List

/-- The layout of a type that is converted on its own. -/
def Conversions.layoutOf (ty : Ty) : Layout := (convert ty empty).1

theorem Conversions.layoutOf_eq (ty : Ty) : layoutOf ty = Layout.ofTy ty := (convert_eq ty .empty).1

namespace Layout

def isTuple : Layout → Bool
  | .tuple _ => true
  | _ => false

/-- Sequences, stored in one piece or in columns. -/
def isView : Layout → Bool
  | .sequence _ | .zipped _ => true
  | _ => false

mutual

/-- A layout and all layouts in it, at every depth. -/
def parts : Layout → List Layout
  | .scalar kind => [.scalar kind]
  | .named name parameters => .named name parameters :: partsAll parameters
  | .sequence element => .sequence element :: parts element
  | .zipped columns => .zipped columns :: parts columns
  | .container element => .container element :: parts element
  | .tuple fields => .tuple fields :: partsAll fields
  | .function parameters result => .function parameters result :: (partsAll parameters ++ parts result)
  | .quantified binders body => .quantified binders body :: (partsAll binders ++ parts body)

def partsAll : List Layout → List Layout
  | [] => []
  | layout :: rest => parts layout ++ partsAll rest

end

/-- Whether the outermost form of a layout has tuples in columns only and owns no storage. -/
def isColumnar : Layout → Bool
  | .sequence element => !element.isTuple
  | .zipped (.tuple columns) => columns.all isView
  | .zipped _ | .container _ => false
  | _ => true

theorem sequencesOf_eq_map (fields : List Layout) : sequencesOf fields = fields.map sequenceOf := by
  induction fields with
  | nil => rfl
  | cons field rest ih => rw [sequencesOf, ih, map_cons]

theorem ofTys_eq_map (types : List Ty) : ofTys types = types.map ofTy := by
  induction types with
  | nil => rfl
  | cons ty rest ih => rw [ofTys, ih, map_cons]

theorem isView_sequenceOf (element : Layout) : (sequenceOf element).isView = true := by
  cases element <;> rfl

theorem isColumnar_zipped_sequencesOf (fields : List Layout) :
    (zipped (.tuple (sequencesOf fields))).isColumnar = true := by
  rw [isColumnar, sequencesOf_eq_map, all_map, all_eq_true]
  exact fun field _ => field.isView_sequenceOf

mutual

theorem mem_parts_sequenceOf :
    ∀ (element : Layout) {part : Layout}, part ∈ (sequenceOf element).parts →
    part ∈ element.parts ∨ part.isColumnar = true
  | .tuple fields, part, h => by
    rw [sequenceOf, parts, parts, mem_cons, mem_cons] at h
    rcases h with rfl | rfl | h
    · exact .inr (isColumnar_zipped_sequencesOf fields)
    · exact .inr rfl
    · exact (mem_partsAll_sequencesOf fields h).imp_left (mem_cons_of_mem _)
  | .scalar _, part, h | .named .., part, h | .sequence _, part, h | .zipped _, part, h | .container _, part, h
  | .function .., part, h | .quantified .., part, h => by
    rcases mem_cons.1 h with rfl | h
    · exact .inr rfl
    · exact .inl h

theorem mem_partsAll_sequencesOf :
    ∀ (fields : List Layout) {part : Layout}, part ∈ partsAll (sequencesOf fields) →
    part ∈ partsAll fields ∨ part.isColumnar = true
  | [], _, h => .inl h
  | field :: rest, _, h => by
    rw [partsAll, mem_append]
    rcases mem_append.1 h with h | h
    · exact (mem_parts_sequenceOf field h).imp_left .inl
    · exact (mem_partsAll_sequencesOf rest h).imp_left .inr

end

mutual

theorem isColumnar_of_mem_parts :
    ∀ (ty : Ty) {part : Layout}, part ∈ (ofTy ty).parts → part.isColumnar = true
  | .named name parameters, part, h => by
    rw [ofTy] at h
    split at h
    · cases mem_singleton.1 h
      rfl
    · rcases mem_cons.1 h with rfl | h
      · rfl
      · exact isColumnar_of_mem_partsAll parameters h
  | .sequence element, part, h => by
    -- The parts of the element are columnar before the sequence is built of them.
    rcases mem_parts_sequenceOf (ofTy element) h with h | h
    · exact isColumnar_of_mem_parts element h
    · exact h
  | .tuple fields, part, h => by
    rcases mem_cons.1 h with rfl | h
    · rfl
    · exact isColumnar_of_mem_partsAll fields h
  | .function parameters result, part, h => by
    rcases mem_cons.1 h with rfl | h
    · rfl
    · exact (mem_append.1 h).elim (isColumnar_of_mem_partsAll parameters) (isColumnar_of_mem_parts result)
  | .quantified binders body, part, h => by
    rcases mem_cons.1 h with rfl | h
    · rfl
    · exact (mem_append.1 h).elim (isColumnar_of_mem_partsAll binders) (isColumnar_of_mem_parts body)

theorem isColumnar_of_mem_partsAll :
    ∀ (types : List Ty) {part : Layout}, part ∈ partsAll (ofTys types) → part.isColumnar = true
  | [], _, h => absurd h not_mem_nil
  | ty :: rest, _, h => (mem_append.1 h).elim (isColumnar_of_mem_parts ty) (isColumnar_of_mem_partsAll rest)

end

theorem ofTy_sequence_tuple (types : List Ty) :
    ofTy (.sequence (.tuple types)) = .zipped (.tuple (types.map fun ty => ofTy (.sequence ty))) := by
  rw [ofTy, ofTy, sequenceOf, sequencesOf_eq_map, ofTys_eq_map, map_map]
  rfl

/-- Layouts of source types are columnar: at every depth, tuples stand in no sequence but as the
columns of a zipped one, whose columns are views in turn, and no storage is owned. A sequence of
tuples has the layouts of the sequences of the fields as its columns, also where a field is a tuple
itself. -/
theorem layoutOf_columnar : (∀ ty : Ty, (Conversions.layoutOf ty).parts.all isColumnar = true) ∧
    ∀ types : List Ty, Conversions.layoutOf (.sequence (.tuple types)) =
      .zipped (.tuple (types.map fun ty => Conversions.layoutOf (.sequence ty))) := by
  constructor
  · intro ty
    rw [Conversions.layoutOf_eq, List.all_eq_true]
    exact fun part hpart => isColumnar_of_mem_parts ty hpart
  · intro types
    simp only [Conversions.layoutOf_eq]
    exact ofTy_sequence_tuple types

mutual

theorem containerForm_containerForm :
    ∀ layout : Layout, layout.containerForm.containerForm = layout.containerForm
  | .sequence _ | .container _ | .scalar _ | .named .. | .function .. | .quantified .. => rfl
  | .zipped columns => by rw [containerForm, containerForm_containerForm columns]
  | .tuple fields => by rw [containerForm, containerForm, containerForms_containerForms fields]

theorem containerForms_containerForms : ∀ layouts : List Layout,
    containerForms (containerForms layouts) = containerForms layouts
  | [] => rfl
  | layout :: rest => by
    rw [containerForms, containerForms, containerForm_containerForm layout, containerForms_containerForms rest]

end

theorem needsContainer_containerForm (layout : Layout) :
    layout.containerForm.needsContainer = false := by
  exact decide_eq_false (Decidable.not_not.2 layout.containerForm_containerForm)

theorem containerForm_sequenceOf_ne (element : Layout) :
    (sequenceOf element).containerForm ≠ sequenceOf element := by
  intro h
  cases element with
  | tuple fields =>
    rw [sequenceOf, containerForm, containerForm] at h
    cases h
  | _ => cases h

mutual

theorem containerForm_ofTy : ∀ ty : Ty, (ofTy ty).containerForm = ofTy ty ↔ ty.isAggregate = false
  | .named name parameters => by
    rw [ofTy]
    split <;> simp [containerForm, Ty.isAggregate]
  | .sequence element => by simp [ofTy, containerForm_sequenceOf_ne, Ty.isAggregate]
  | .tuple fields => by
    rw [ofTy, containerForm, tuple.injEq, Ty.isAggregate]
    exact containerForms_ofTys fields
  | .function parameters result => by simp [ofTy, containerForm, Ty.isAggregate]
  | .quantified binders body => by simp [ofTy, containerForm, Ty.isAggregate]

theorem containerForms_ofTys : ∀ types : List Ty, containerForms (ofTys types) = ofTys types ↔
    Ty.anyAggregate types = false
  | [] => by simp [ofTys, containerForms, Ty.anyAggregate]
  | ty :: rest => by
    rw [ofTys, containerForms, cons.injEq, containerForm_ofTy ty, containerForms_ofTys rest, Ty.anyAggregate,
      Bool.or_eq_false_iff]

end

theorem needsContainer_ofTy (ty : Ty) : (ofTy ty).needsContainer = ty.isAggregate := by
  by_cases h : ty.isAggregate = true
  · rw [h]
    exact decide_eq_true fun hsame => absurd ((containerForm_ofTy ty).1 hsame) (by rw [h]; decide)
  · rw [Bool.not_eq_true] at h
    rw [h]
    exact decide_eq_false (Decidable.not_not.2 ((containerForm_ofTy ty).2 h))

mutual

/-- A layout and the layouts in it that are not closed off by a container, a function, a quantifier
or a name. -/
def exposed : Layout → List Layout
  | .sequence element => .sequence element :: exposed element
  | .zipped columns => .zipped columns :: exposed columns
  | .tuple fields => .tuple fields :: exposedAll fields
  | layout => [layout]

def exposedAll : List Layout → List Layout
  | [] => []
  | layout :: rest => exposed layout ++ exposedAll rest

end

mutual

theorem exposed_containerForm : ∀ layout : Layout, layout.containerForm.exposed.any isView = false
  | .sequence _ | .container _ | .scalar _ | .named .. | .function .. | .quantified .. => rfl
  | .zipped columns => exposed_containerForm columns
  | .tuple fields => exposedAll_containerForms fields

theorem exposedAll_containerForms :
    ∀ layouts : List Layout, (exposedAll (containerForms layouts)).any isView = false
  | [] => rfl
  | layout :: rest => by
    rw [containerForms, exposedAll, any_append, exposed_containerForm layout, exposedAll_containerForms rest]
    rfl

end

/-- A type holds sequences if and only if its layout is a view that needs storage. Whatever the
layout, its storage is the storage of itself, needs none, and has views only where they are closed
off. -/
theorem containerForm_final :
    (∀ ty : Ty, ty.isAggregate = true ↔ (Conversions.layoutOf ty).needsContainer = true) ∧
    ∀ layout : Layout, layout.containerForm.containerForm = layout.containerForm ∧
      layout.containerForm.needsContainer = false ∧ layout.containerForm.exposed.any isView = false := by
  constructor
  · intro ty
    rw [Conversions.layoutOf_eq, needsContainer_ofTy]
  · intro layout
    exact ⟨layout.containerForm_containerForm, layout.needsContainer_containerForm, layout.exposed_containerForm⟩

end Layout

/-- What is remembered shows in no result: types that are converted one after another get the
layouts that the rule gives each of them, and so does any type behind them. -/
theorem Conversions.convertAll_transparent (types : List Ty) (ty : Ty) :
    (convertAll types empty).1 = types.map Layout.ofTy ∧
    (convert ty (convertAll types empty).2).1 = Layout.ofTy ty := by
  obtain ⟨hlayouts, hcorrect⟩ := convertAll_eq types .empty
  exact ⟨hlayouts.trans (Layout.ofTys_eq_map types), (convert_eq ty hcorrect).1⟩

end DataParallel
