import DataParallel.Proofs.Phases.Computed
import DataParallel.Proofs.RealizedReads

/-! What helpers hand back.

The result of a helper counts as computed wherever it is called. The analysis does not see to that:
it realizes what the entry hands back and leaves the returned expressions of helpers as they are. So
a helper hands back nothing pending if its text returns nothing that it composed of views itself. -/

namespace DataParallel

open Phases.State

namespace Phases
variable {inEntry : Bool} {parameters : List Expr} {phases temporaries : Supply}

theorem clearing_rooted (P : String → Prop) : Clearing (Name.Rooted P) where
  realized _ n := Name.StandsFor.rooted (.realized n .refl)
  temporary := Name.not_rooted_temporary

theorem State.completionOf_bodyStart
    (x : String) : (bodyStart inEntry parameters phases temporaries).completionOf x ≠ .incomplete := by
  rw [bodyStart, completionOf_setCompletions (f := fun _ => .complete)]
  · split
    · simp
    · exact nofun
  · intro entry hentry
    obtain ⟨parameter, -, hentry⟩ := List.mem_flatMap.1 hentry
    split at hentry
    · split at hentry
      · simp only [List.mem_cons, List.not_mem_nil, or_false] at hentry
        rcases hentry with rfl | rfl <;> rfl
      · cases List.mem_singleton.1 hentry
        rfl
    · cases hentry

theorem State.clear_bodyStart {registry : Registry} {C : String → Prop} :
    (bodyStart inEntry parameters phases temporaries).Clear registry C :=
  ⟨fun hx => (bare_bodyStart.standIns hx).elim, fun hx => (bare_bodyStart.fields hx).elim,
    fun hx => (bare_bodyStart.closures hx).elim,
    fun {x} _ => completionOf_bodyStart x⟩

end Phases

/-- No run of an analysed helper hands back anything pending, if its text binds the names that are
not `pending` to computed expressions, and returns nothing else. -/
theorem insertBoundaries_returns_computed {module module' : Module} {registry : Registry}
    {entry symbol : String}
    {i : Nat} {p : Procedure} {pending : List String} (hplain : module.isPlain = true)
    (h : module.insertBoundaries registry entry = .ok module') (hi : module[i]? = some p.toStmt)
    (hsymbol : p.symbol? = some symbol) (hreach : symbol ∈ Phases.reachable module entry)
    (hhelper : symbol ≠ entry) (hsource : ∀ x ∈ Stmt.namesAll p.body, ¬ Name.IsDrawn x)
    (hcomputes : Stmt.ComputesAll (Phases.withProcedures registry module) (· ∉ pending) p.body) :
    ∃ p' : Procedure, module'[i]? = some p'.toStmt ∧ p'.name = p.name ∧
      ∀ v c, Exec (Progress.machine (Phases.withProcedures registry module)) .start p'.body
        (.leaves (some v) c) → ∀ key ∈ v.views, c.IsDone key := by
  obtain ⟨p', hi', hname, -, phases, temporaries, s', hphases, htemporaries, hbody⟩ :=
    module.insertBoundaries_reached hplain h hi hsymbol hreach
  refine ⟨p', hi', hname, fun v c hrun => ?_⟩
  have htext : Stmt.ComputesAll (Phases.withProcedures registry module) (Name.Rooted (· ∉ pending)) p.body :=
    (Stmt.computesAll_congr _ fun z hz => Name.rooted_of_source (hsource z hz)).2 hcomputes
  obtain ⟨-, hout⟩ := hbody.clear (Phases.clearing_rooted (· ∉ pending))
    ((Phases.State.grows_bodyStart _ _ _ _).inEntry.trans (decide_eq_false hhelper))
    (Phases.State.stems_bodyStart hphases htemporaries) Phases.State.clear_bodyStart htext
  exact (hrun.clears hout fun z _ key hkey => by cases hkey).2 v c rfl

def collected (e : Expr) : Expr := .apply (.name "collect" ⟨.function [row.ty] row.ty, none⟩) [e] row

/-- A call that reads all of a row and hands back another one. -/
def collectCalls : Registry := rowCalls.insert "collect" ⟨.function [row.ty] row.ty, .forces⟩

def helperName : Expr := .name "helper" ⟨.function [row.ty, flag.ty] row.ty, none⟩

/-- Composes rows, but hands back what was collected. -/
def collecting : Procedure where
  name := helperName
  parameters := [.name "xs" row, .name "c" flag]
  body := [.bind (.name "ys" row) (shifted (.name "xs" row)),
    .bind (.name "zs" row) (collected (.name "ys" row)),
    .loop (.name "c" flag) [.bind (.name "zs" row) (collected (shifted (.name "zs" row)))],
    .ret (.name "zs" row)]

/-- What becomes of it. -/
def collectingRealized : Procedure :=
  { collecting with
    body := [.bind (.name "ys" row) (shifted (.name "xs" row)),
      realizeRow "ys_phase0" (.name "ys" row),
      .bind (.name "zs" row) (collected (stored "ys_phase0")),
      .loop (.name "c" flag) [.bind (.name "_sync0" row) (shifted (.name "zs" row)),
        realizeRow "_sync0_phase1" (.name "_sync0" row),
        .bind (.name "zs" row) (collected (stored "_sync0_phase1"))],
      .ret (.name "zs" row)] }

/-- Sums up what the helper hands back. -/
def helped : Procedure where
  name := .name "main" number
  parameters := [.name "xs" row, .name "c" flag]
  body := [.ret (totalled (.apply helperName [.name "xs" row, .name "c" flag] row))]

theorem collecting_returns_computed :
    Module.insertBoundaries [collecting.toStmt, helped.toStmt] collectCalls "main" =
        .ok [collectingRealized.toStmt, helped.toStmt] ∧
      ∃ p' : Procedure,
        [collectingRealized.toStmt, helped.toStmt][0]? = some p'.toStmt ∧
        p'.name = collecting.name ∧
        ∀ v c, Exec (Progress.machine (Phases.withProcedures collectCalls [collecting.toStmt, helped.toStmt])) .start
          p'.body (.leaves (some v) c) → ∀ key ∈ v.views, c.IsDone key := by
  have hok : Module.insertBoundaries [collecting.toStmt, helped.toStmt] collectCalls "main" =
      .ok [collectingRealized.toStmt, helped.toStmt] := by decide +kernel
  refine ⟨hok, insertBoundaries_returns_computed (i := 0) rfl hok rfl rfl (by decide +kernel) (by decide)
    (fun x hx => ?_) (show Stmt.ComputesAll _ (· ∉ ["ys"]) _ by decide +kernel)⟩
  exact Name.not_drawn_of_last (by revert x; decide +kernel)

/-- Hands back a row that it composed. -/
def composing : Procedure where
  name := helperName
  parameters := [.name "xs" row, .name "c" flag]
  body := [.ret (shifted (.name "xs" row))]

/-- A helper that returns the result of a composing call is left as it is, and so is the call that
reads all of what it hands back. -/
theorem insertBoundaries_returns_pending :
    Module.insertBoundaries [composing.toStmt, helped.toStmt] collectCalls "main" =
        .ok [composing.toStmt, helped.toStmt] ∧
      (∀ x ∈ Stmt.namesAll composing.body, ¬ Name.IsDrawn x) ∧
      ∃ v c, Exec (Progress.machine (Phases.withProcedures collectCalls [composing.toStmt, helped.toStmt])) .start
        composing.body (.leaves (some v) c) ∧ ∃ key ∈ v.views, ¬ c.IsDone key := by
  refine ⟨by decide +kernel, fun x hx => Name.not_drawn_of_last (by revert x; decide +kernel),
    .view [0], { Progress.start with drawn := 1 }, .ret ?_, [0], by decide, by decide⟩
  have hrole : (Expr.name "shift" ⟨.function [row.ty] row.ty, none⟩).role
      (Phases.withProcedures collectCalls [composing.toStmt, helped.toStmt]) = .composes := by decide +kernel
  show Progress.start.call (Phases.withProcedures collectCalls [composing.toStmt, helped.toStmt])
    (.name "shift" ⟨.function [row.ty] row.ty, none⟩) [.name "xs" row] row [.plain] = _
  rw [Progress.call, hrole]
  rfl

end DataParallel
