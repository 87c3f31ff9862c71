import DataParallel.Table

/-! Nested scopes. A look-up searches from the innermost scope outwards, so inner entries shadow
outer ones. There is always at least one scope. -/

namespace DataParallel

structure Scopes (α : Type) where
  inner : Table α
  outer : List (Table α)
deriving Repr

namespace Scopes

variable {α : Type}

def empty : Scopes α := ⟨∅, []⟩

instance : EmptyCollection (Scopes α) := ⟨empty⟩
instance : Inhabited (Scopes α) := ⟨empty⟩

def depth (scopes : Scopes α) : Nat := scopes.outer.length + 1

def enter (scopes : Scopes α) : Scopes α := ⟨∅, scopes.inner :: scopes.outer⟩

/-- Closes the innermost scope and hands back what was inserted in it. Closing the outermost scope
only empties it. -/
def leave (scopes : Scopes α) : Table α × Scopes α :=
  match scopes.outer with
  | [] => (scopes.inner, ⟨∅, []⟩)
  | next :: rest => (scopes.inner, ⟨next, rest⟩)

def insert (scopes : Scopes α) (key : String) (value : α) : Scopes α :=
  { scopes with inner := scopes.inner.insert key value }

def get? (scopes : Scopes α) (key : String) : Option α :=
  (scopes.inner :: scopes.outer).findSome? (·.get? key)

def contains (scopes : Scopes α) (key : String) : Bool := (scopes.get? key).isSome

def containsLocal (scopes : Scopes α) (key : String) : Bool := scopes.inner.contains key

/-- Adds a name to scopes that only keep track of membership. -/
def declare (scopes : Scopes Unit) (key : String) : Scopes Unit := scopes.insert key ()

@[simp] theorem leave_enter (scopes : Scopes α) : scopes.enter.leave = (∅, scopes) := rfl

theorem get?_insert (scopes : Scopes α) (key other : String) (value : α) :
    (scopes.insert key value).get? other = if other = key then some value else scopes.get? other := by
  by_cases h : other = key <;> simp [get?, insert, List.findSome?_cons, h]

@[simp] theorem get?_enter (scopes : Scopes α) (key : String) :
    scopes.enter.get? key = scopes.get? key := by
  simp [get?, enter, List.findSome?_cons, EmptyCollection.emptyCollection]

end Scopes
end DataParallel
