/-! Supplies of fresh names: a fixed stem and a counter. Names of the source never start with an
underscore, stems do. -/

namespace DataParallel

/-- The counter goes on without end. One of 64 bits gives the same names up to where it starts over.
-/
structure Supply where
  stem : String
  counter : Nat
deriving DecidableEq, Repr

namespace Supply

def ofStem (stem : String) : Supply := ⟨stem, 0⟩

def next (supply : Supply) : String × Supply :=
  (supply.stem ++ toString supply.counter, { supply with counter := supply.counter + 1 })

/-- The next name of a supply that is derived from another name. -/
def derive (supply : Supply) (base : String) : String × Supply :=
  (base ++ supply.stem ++ toString supply.counter, { supply with counter := supply.counter + 1 })

end Supply
end DataParallel
