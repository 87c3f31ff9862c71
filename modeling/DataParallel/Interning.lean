import DataParallel.Table

/-! Interning: distinct texts get consecutive numbers of 32 bits in the order of their first
appearance. The texts are kept in that order, and beside them the number of each. -/

namespace DataParallel

structure Interning where
  texts : List String
  indices : Table Nat
deriving DecidableEq, Repr

namespace Interning

def empty : Interning := ⟨[], ∅⟩

def indexOf? (table : Interning) (text : String) : Option Nat := table.indices.get? text

def get? (table : Interning) (index : Nat) : Option String := table.texts[index]?

/-- The number of a text, which is a new one if the text is new. -/
def insert (table : Interning) (text : String) : Nat × Interning :=
  match table.indexOf? text with
  | some index => (index, table)
  | none =>
    let index := table.texts.length % UInt32.size
    (index, ⟨table.texts ++ [text], table.indices.insert text index⟩)

end Interning
end DataParallel
