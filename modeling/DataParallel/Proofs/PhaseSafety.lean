import DataParallel.Proofs.Phases.Quiet
import DataParallel.Proofs.Phases.Reachable
import DataParallel.Proofs.RebuiltValues

/-! Calls that read all of their arguments are given nothing pending.

The analysis knows a procedure by its text. It forces what the text shows: the arguments that a type
demands, the fields of tuples and the captures of closures on record. That is enough on every path
if records stay true, and if whatever the test of a loop forces is the same in front of every trip.
-/

namespace DataParallel

namespace Phases

variable {symbol : String} {module : Module}

def withProcedure (registry : Registry) (p : Procedure) : Registry :=
  match p.symbol? with
  | some symbol => if registry.contains symbol then registry else registry.insert symbol ⟨p.name.ty, .forces⟩
  | none => registry

theorem withProcedures_eq (registry : Registry) (module : Module) :
    withProcedures registry module = module.procedures.foldl withProcedure registry := rfl

section Registered
variable {registry : Registry} {p : Procedure}

theorem withProcedure_get? : (withProcedure registry p).get? symbol =
    if p.symbol? = some symbol then registry.get? symbol <|> some ⟨p.name.ty, .forces⟩
    else registry.get? symbol := by
  have hcontains : ∀ name, registry.contains name = (registry.get? name).isSome := fun _ => rfl
  have hinsert : ∀ name signature, (registry.insert name signature).get? symbol =
      if symbol = name then some signature else registry.get? symbol := fun _ _ => Table.get?_insert _ _ _ _
  unfold withProcedure
  split
  · rename_i name hname
    by_cases hsymbol : name = symbol
    · subst hsymbol
      rw [if_pos hname]
      cases hget : registry.get? name with
      | none => rw [if_neg (by simp [hcontains, hget]), hinsert, if_pos rfl]; rfl
      | some signature => rw [if_pos (by simp [hcontains, hget]), hget]; rfl
    · have hother : p.symbol? ≠ some symbol := fun h => hsymbol (Option.some.inj (hname.symm.trans h))
      rw [if_neg hother]
      by_cases hregistered : registry.contains name = true
      · rw [if_pos hregistered]
      · rw [if_neg hregistered, hinsert, if_neg (Ne.symm hsymbol)]
  · rename_i hname
    rw [if_neg (by simp [hname])]

end Registered

end Phases

def lower (e f : Expr) : Expr :=
  .apply (.name "lower" ⟨.function [number.ty, number.ty] flag.ty, none⟩) [e, f] flag

end DataParallel
