import DataParallel.Ty.Instance
import Mathlib.Data.List.Basic

/-! The free variables of a type after a substitution.

Quantifiers hide the bindings of the variables that they bind, but they are not renamed. So the free
variables of what is put in place of a variable stay free unless a quantifier above that place binds
the same names. -/

namespace DataParallel.Ty

open List

theorem variableName?_eq_some {ty : Ty} {name : String} (h : ty.variableName? = some name) :
    ty = .named name [] := by
  cases ty with
  | named a ps =>
    cases ps with
    | nil =>
      rw [variableName?] at h
      split at h <;> cases h
      rfl
    | cons => cases h
  | _ => cases h

/-- What a variable stands for. -/
def valueOf (bindings : Table Ty) (name : String) : Ty := (bindings.get? name).getD (.named name [])

/-- Bindings of type variables, and not of scalars. -/
def BindsVariables (bindings : Table Ty) : Prop :=
  ∀ x, bindings.contains x = true → variableName? (.named x []) = some x

mutual

/-- The variables of a type that no quantifier binds, one for each place where they stand. -/
def freeVariables : Ty → List String
  | .named name [] => (variableName? (.named name [])).toList
  | .named _ (p :: ps) => freeVariables p ++ freeVariablesAll ps
  | .sequence element => freeVariables element
  | .tuple fields => freeVariablesAll fields
  | .function parameters result => freeVariablesAll parameters ++ freeVariables result
  | .quantified binders body => (freeVariables body).filter (· ∉ variableNames binders)

def freeVariablesAll : List Ty → List String
  | [] => []
  | ty :: rest => freeVariables ty ++ freeVariablesAll rest

end

mutual

/-- The places where a variable is free in a type: the variable, with all names that quantifiers
above the place bind. -/
def freePlaces : Ty → List (String × List String)
  | .named name [] => (variableName? (.named name [])).toList.map fun x => (x, [])
  | .named _ (p :: ps) => freePlaces p ++ freePlacesAll ps
  | .sequence element => freePlaces element
  | .tuple fields => freePlacesAll fields
  | .function parameters result => freePlacesAll parameters ++ freePlaces result
  | .quantified binders body =>
    ((freePlaces body).filter (·.1 ∉ variableNames binders)).map fun place =>
      (place.1, variableNames binders ++ place.2)

def freePlacesAll : List Ty → List (String × List String)
  | [] => []
  | ty :: rest => freePlaces ty ++ freePlacesAll rest

end

mutual

theorem map_freePlaces : ∀ ty : Ty, ty.freePlaces.map Prod.fst = ty.freeVariables
  | .named name [] => by
    rw [freePlaces, freeVariables, map_map]
    exact map_id _
  | .named _ (p :: ps) => by rw [freePlaces, freeVariables, map_append, map_freePlaces p, map_freePlacesAll ps]
  | .sequence element => map_freePlaces element
  | .tuple fields => map_freePlacesAll fields
  | .function parameters result => by
    rw [freePlaces, freeVariables, map_append, map_freePlacesAll parameters, map_freePlaces result]
  | .quantified binders body => by
    rw [freePlaces, freeVariables, ← map_freePlaces body, filter_map, map_map]
    rfl

theorem map_freePlacesAll :
    ∀ types : List Ty, (freePlacesAll types).map Prod.fst = freeVariablesAll types
  | [] => rfl
  | ty :: rest => by rw [freePlacesAll, freeVariablesAll, map_append, map_freePlaces ty, map_freePlacesAll rest]

end

variable {bindings : Table Ty}

theorem valueOf_eraseAll (bindings : Table Ty) (names : List String) (x : String) :
    valueOf (bindings.eraseAll names) x = if x ∈ names then .named x [] else valueOf bindings x := by
  rw [valueOf, Table.get?_eraseAll]
  split <;> rfl

theorem BindsVariables.eraseAll (h : BindsVariables bindings) (names : List String) :
    BindsVariables (bindings.eraseAll names) := by
  intro x hx
  rw [Table.contains, Table.get?_eraseAll] at hx
  split at hx
  · cases hx
  · exact h x hx

/-- What is free at a place after a substitution: the free variables of what the variable stands
for, less those that quantifiers above the place bind. -/
def freeAt (bindings : Table Ty) (place : String × List String) : List String :=
  (valueOf bindings place.1).freeVariables.filter (· ∉ place.2)

theorem flatMap_freeAt_quantified (bindings : Table Ty) (names : List String)
    (places : List (String × List String)) :
    ((places.filter (·.1 ∉ names)).map fun place => (place.1, names ++ place.2)).flatMap (freeAt bindings) =
      (places.flatMap (freeAt (bindings.eraseAll names))).filter (· ∉ names) := by
  induction places with
  | nil => rfl
  | cons place places ih =>
    obtain ⟨x, above⟩ := place
    rw [flatMap_cons, filter_append, ← ih]
    by_cases hx : x ∈ names
    · have hcaught : (freeAt (bindings.eraseAll names) (x, above)).filter (· ∉ names) = [] := by
        rw [freeAt, valueOf_eraseAll, if_pos hx, freeVariables, variableName?]
        split <;> simp [hx]
      rw [hcaught, filter_cons_of_neg (by simpa using hx)]
      rfl
    · have hkept : (freeAt (bindings.eraseAll names) (x, above)).filter (· ∉ names) =
          freeAt bindings (x, names ++ above) := by
        rw [freeAt, freeAt, valueOf_eraseAll, if_neg hx, filter_filter]
        simp
      rw [hkept, filter_cons_of_pos (by simpa using hx)]
      rfl

mutual

theorem freeVariables_substitute_eq : ∀ (ty : Ty) {bindings : Table Ty}, BindsVariables bindings →
    (substitute bindings ty).freeVariables = ty.freePlaces.flatMap (freeAt bindings)
  | .named name [], bindings, h => by
    show (valueOf bindings name).freeVariables = _
    rw [freePlaces]
    cases hname : variableName? (.named name []) with
    | some x =>
      cases variableName?_eq_some hname
      simp [freeAt]
    | none =>
      have hfree : bindings.get? name = none := by
        by_contra hbound
        rw [h name (Option.ne_none_iff_isSome.1 hbound)] at hname
        cases hname
      rw [valueOf, hfree, Option.getD_none, freeVariables, hname]
      rfl
  | .named _ (p :: ps), _, h => by
    rw [substitute, freeVariables, freePlaces, flatMap_append, freeVariables_substitute_eq p h,
      freeVariablesAll_substituteAll_eq ps h]
  | .sequence element, _, h => freeVariables_substitute_eq element h
  | .tuple fields, _, h => freeVariablesAll_substituteAll_eq fields h
  | .function parameters result, _, h => by
    rw [substitute, freeVariables, freePlaces, flatMap_append, freeVariablesAll_substituteAll_eq parameters h,
      freeVariables_substitute_eq result h]
  | .quantified binders body, _, h => by
    rw [substitute, freeVariables, freePlaces, flatMap_freeAt_quantified,
      freeVariables_substitute_eq body (h.eraseAll (variableNames binders))]

theorem freeVariablesAll_substituteAll_eq :
    ∀ (types : List Ty) {bindings : Table Ty}, BindsVariables bindings →
    freeVariablesAll (substituteAll bindings types) = (freePlacesAll types).flatMap (freeAt bindings)
  | [], _, _ => rfl
  | ty :: rest, _, h => by
    rw [substituteAll, freeVariablesAll, freePlacesAll, flatMap_append, freeVariables_substitute_eq ty h,
      freeVariablesAll_substituteAll_eq rest h]

end

/-- No quantifier above a place binds what is free in the type that comes to stand there. -/
def Spares (bindings : Table Ty) (ty : Ty) : Prop :=
  ∀ place ∈ ty.freePlaces, ∀ y ∈ (valueOf bindings place.1).freeVariables, y ∉ place.2

instance (bindings : Table Ty) (ty : Ty) : Decidable (Spares bindings ty) :=
  inferInstanceAs (Decidable (∀ place ∈ ty.freePlaces, ∀ y ∈ (valueOf bindings place.1).freeVariables, y ∉ place.2))

theorem freeAt_eq_iff {place : String × List String} :
    freeAt bindings place = (valueOf bindings place.1).freeVariables ↔
    ∀ y ∈ (valueOf bindings place.1).freeVariables, y ∉ place.2 := by
  simp [freeAt, filter_eq_self]

theorem length_freeAt_le (bindings : Table Ty) (place : String × List String) :
    (freeAt bindings place).length ≤ (valueOf bindings place.1).freeVariables.length :=
  length_filter_le _ _

theorem length_flatMap_freeAt_le (bindings : Table Ty) (places : List (String × List String)) :
    (places.flatMap (freeAt bindings)).length ≤
      (places.flatMap fun place => (valueOf bindings place.1).freeVariables).length := by
  induction places with
  | nil => exact Nat.le_refl _
  | cons place places ih =>
    have hplace := length_freeAt_le bindings place
    rw [flatMap_cons, flatMap_cons, length_append, length_append]
    omega

theorem flatMap_freeAt_eq_iff (places : List (String × List String)) :
    places.flatMap (freeAt bindings) = places.flatMap (fun place => (valueOf bindings place.1).freeVariables) ↔
      ∀ place ∈ places, ∀ y ∈ (valueOf bindings place.1).freeVariables, y ∉ place.2 := by
  induction places with
  | nil => simp
  | cons place places ih =>
    rw [flatMap_cons, flatMap_cons, forall_mem_cons, ← freeAt_eq_iff, ← ih]
    constructor
    · intro h
      have htotal := congrArg length h
      have hplace := length_freeAt_le bindings place
      have hplaces := length_flatMap_freeAt_le bindings places
      rw [length_append, length_append] at htotal
      exact append_inj h (by omega)
    · rintro ⟨hplace, hplaces⟩
      rw [hplace, hplaces]

/-- What is free after a substitution is free in the type that comes to stand at one of the free
places, and bound by no quantifier above that place. The free variables are those of the types that
the free variables stand for, place by place, if and only if no quantifier binds any of them. -/
theorem freeVariables_substitute (hbindings : BindsVariables bindings) (ty : Ty) :
    (∀ y, y ∈ (substitute bindings ty).freeVariables ↔
      ∃ place ∈ ty.freePlaces, y ∈ (valueOf bindings place.1).freeVariables ∧ y ∉ place.2) ∧
    ((substitute bindings ty).freeVariables = ty.freeVariables.flatMap (fun x => (valueOf bindings x).freeVariables) ↔
      Spares bindings ty) := by
  rw [freeVariables_substitute_eq ty hbindings]
  constructor
  · intro y
    simp only [mem_flatMap, freeAt, mem_filter, decide_eq_true_eq]
  · rw [← map_freePlaces, flatMap_map]
    exact flatMap_freeAt_eq_iff ty.freePlaces

/-- One variable, bound to a named type. -/
def bound (x name : String) : Table Ty := ⟨[(x, .named name [])]⟩

theorem bindsVariables_bound {x : String} (name : String)
    (h : variableName? (.named x []) = some x) : BindsVariables (bound x name) := by
  intro y hy
  by_cases hyx : y = x
  · rwa [hyx]
  · rw [Table.contains, Table.get?, bound, lookup_cons, beq_false_of_ne hyx] at hy
    cases hy

/-- Functions that return an `a` whatever they are given. -/
def constantly (taken : String) : Ty := .quantified [.named taken []] (.function [.named taken []] (.named "a" []))

theorem constantly_spared : BindsVariables (bound "a" "b") ∧ Spares (bound "a" "b") (constantly "c") ∧
    (substitute (bound "a" "b") (constantly "c")).freeVariables =
      (constantly "c").freeVariables.flatMap fun x => (valueOf (bound "a" "b") x).freeVariables := by
  have hbinds : BindsVariables (bound "a" "b") := bindsVariables_bound "b" (by decide)
  have hspares : Spares (bound "a" "b") (constantly "c") := by decide
  exact ⟨hbinds, hspares, (freeVariables_substitute hbinds _).2.2 hspares⟩

/-- The same function with another name for what it takes returns something else for an `a` of type
`b`: what was free is caught by the quantifier. -/
theorem constantly_captured : BindsVariables (bound "a" "b") ∧
    ¬ ∀ y, y ∈ (substitute (bound "a" "b") (constantly "b")).freeVariables ↔
      ∃ x ∈ (constantly "b").freeVariables, y ∈ (valueOf (bound "a" "b") x).freeVariables := by
  refine ⟨bindsVariables_bound "b" (by decide), fun h => ?_⟩
  have hfree : ∃ x ∈ (constantly "b").freeVariables, "b" ∈ (valueOf (bound "a" "b") x).freeVariables := by decide
  have hcaught : "b" ∉ (substitute (bound "a" "b") (constantly "b")).freeVariables := by decide
  exact hcaught ((h "b").2 hfree)

end DataParallel.Ty
