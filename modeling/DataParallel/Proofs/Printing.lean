import DataParallel.Lowering.Lowered
import DataParallel.Proofs.Printable.Emission
import DataParallel.Proofs.Printable.Passes
import DataParallel.Proofs.Printable.Phases

/-! Whatever can be lowered can be printed. -/

namespace DataParallel

variable {module : Module}

namespace Stmt

mutual

def bindsNames : Stmt → Bool
  | .bind target _ => target.isName
  | .procedure _ _ body | .loop _ body | .structDef _ _ body | .namespaceDef _ body => allBindNames body
  | .branch _ whenTrue whenFalse => allBindNames whenTrue && allBindNames whenFalse
  | .ret _ | .typedef .. | .header .. | .declare _ => true

def allBindNames : List Stmt → Bool
  | [] => true
  | s :: rest => bindsNames s && allBindNames rest

end

theorem PrintableAll.sound {block : List Stmt} (h : PrintableAll Expr.IsTarget block) :
    areLaidOut block = true ∧ allBindNames block = true := by
  induction block using block_induction with
  | nil => exact ⟨rfl, rfl⟩
  | cons s rest ihs ih =>
    cases s <;> simp_all [PrintableAll, Printable, areLaidOut, isLaidOut, allBindNames, bindsNames, suites,
      Expr.IsTarget, Expr.Printable]

end Stmt

theorem Module.Printable.sound (h : module.Printable Expr.IsTarget) :
    module.isLaidOut = true ∧ Stmt.allBindNames module = true := by
  induction module with
  | nil => exact ⟨rfl, rfl⟩
  | cons s rest ih =>
    obtain ⟨p, rfl, hp⟩ := h s List.mem_cons_self
    obtain ⟨hbody, hbody'⟩ := hp.body.sound
    obtain ⟨hrest, hrest'⟩ := ih fun t ht => h t (List.mem_cons_of_mem _ ht)
    have hparameters : Expr.areLaidOut p.parameters = true :=
      Expr.areLaidOut_iff.2 fun e he => (hp.parameters e he).2.1
    rw [Module.isLaidOut] at hrest ⊢
    refine ⟨?_, ?_⟩
    · rw [Stmt.areLaidOut, Procedure.toStmt, Stmt.isLaidOut, hp.name.2.1, hparameters, hbody, hrest]
      rfl
    · rw [Stmt.allBindNames, Procedure.toStmt, Stmt.bindsNames, hbody', hrest']
      rfl

theorem Module.lower_printable (registry : Registry) (entry : String)
    (h : module.assignLayouts.Printable Expr.IsPattern) :
    Meets LoweringError.Tolerable (fun lowered => lowered.module.Printable Expr.IsTarget)
      (module.lower registry entry) := by
  rw [Module.lower]
  split
  · exact nofun
  · refine (flattenTuples_printable h).bind fun flat hflat => ?_
    refine (backEntry_printable entry hflat).bind fun backed hbacked => ?_
    refine (insertBoundaries_printable registry entry hbacked).bind fun analyzed hanalyzed => ?_
    refine (loopTailCalls_printable entry hanalyzed).bind fun looped hlooped => ?_
    exact (wrapEntry_printable entry hlooped).bind fun r hr => hr

/-- Lowering a unit that was read never misses a layout. What it gives has layouts everywhere, binds
names only, and can be printed in every style. -/
theorem lower_prints {text : List Char} {unit : SourceUnit}
    (hread : SourceUnit.ofText? text = .ok unit) (entry : String) :
    (∀ found, unit.module.lower unit.registry entry ≠ .error (.missingLayout found)) ∧
    ∀ lowered, unit.module.lower unit.registry entry = .ok lowered →
      lowered.module.isLaidOut = true ∧ Stmt.allBindNames lowered.module = true ∧
      ∀ style, ∃ printed, lowered.module.print style = .ok printed := by
  have hlower := Module.lower_printable unit.registry entry
    (Module.assignLayouts_printable (SourceUnit.ofText?_isRead hread))
  refine ⟨fun found herror => hlower.of_error herror found rfl, fun lowered hlowered => ?_⟩
  have hprintable := hlower.of_ok hlowered
  exact ⟨hprintable.sound.1, hprintable.sound.2, fun style => hprintable.print style⟩

/-- A tuple of targets, and a tuple that is handed back with its storage. -/
def pairText : List Char :=
  ("procedure pair(xs: [Int32], n: Int32) -> ([Int32], Int32) \x7b " ++
   "(ys, m) = (xs, n); p = (ys, m); return p; \x7d").toList

theorem pairText_prints : ∃ unit lowered, SourceUnit.ofText? pairText = .ok unit ∧
    unit.module.lower unit.registry "pair" = .ok lowered ∧ lowered.module.isLaidOut = true ∧
    Stmt.allBindNames lowered.module = true ∧ ∀ style, ∃ printed, lowered.module.print style = .ok printed := by
  have hlowers : ((SourceUnit.ofText? pairText).toOption.bind fun unit =>
      (unit.module.lower unit.registry "pair").toOption).isSome = true := by decide +kernel
  cases hread : SourceUnit.ofText? pairText with
  | error e => rw [hread] at hlowers; cases hlowers
  | ok unit =>
    cases hlower : unit.module.lower unit.registry "pair" with
    | error e =>
      simp only [hread, Except.toOption, Option.bind_some, hlower] at hlowers
      cases hlowers
    | ok lowered => exact ⟨unit, lowered, rfl, hlower, (lower_prints hread "pair").2 lowered hlower⟩

end DataParallel
