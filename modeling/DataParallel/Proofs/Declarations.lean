import DataParallel.Proofs.Printable.Emission

/-! Emitted code declares names before they are used, and once. -/

namespace DataParallel

open List
open DataParallel.Expr (IsTarget)

/-- The code of procedures that read only what was assigned on every path declares names once. If
nothing stands behind a return, where no path leads, it declares what the procedure binds wherever
it is used. -/
theorem Module.print_declares {procedures : List Procedure}
    (hprintable : ∀ p ∈ procedures, p.Printable IsTarget)
    (hreads : ∀ p ∈ procedures, ∀ A t, Stmt.Reaches p.Given p.body A t → t.Reads A) :
    ∃ code : Procedure → List Code,
      (∀ style, Module.print (procedures.map Procedure.toStmt) style = .ok (Code.render style (procedures.map code))) ∧
      ∀ p ∈ procedures, p.Declares (fun z => Stmt.areLive p.body = true ∧ z ∈ Stmt.localNames p.body) (code p) := by
  obtain ⟨code, hemit, hcode⟩ := @Emission.emit_declares procedures
    (fun p z => Stmt.areLive p.body = true ∧ z ∈ Stmt.localNames p.body) hprintable
    fun p hp z hz => ⟨Stmt.reads_iff.2 (hreads p hp), hz⟩
  exact ⟨code, fun style => by rw [Module.print, hemit]; rfl, hcode⟩

section Samples

instance {p : Procedure} : DecidablePred p.Given := fun z =>
  inferInstanceAs (Decidable (some z ∈ p.parameters.map Expr.symbol? ∨ z ∉ Stmt.localNames p.body))

def switch : Expr := .name "c" ⟨.scalar .bool, some (.scalar .bool)⟩

def amount (x : String) : Expr := .name x ⟨.scalar .int32, some (.scalar .int32)⟩

def switching (body : List Stmt) : Procedure where
  name := .name "entry" ⟨.function [.scalar .bool, .scalar .int32] (.scalar .int32),
    some (.function [.scalar .bool, .scalar .int32] (.scalar .int32))⟩
  parameters := [switch, amount "n"]
  body

theorem switching_printable {body : List Stmt} (h : Stmt.PrintableAll IsTarget body) :
    (switching body).Printable IsTarget where
  name := ⟨rfl, rfl, rfl⟩
  result layout hlayout := by
    cases hlayout
    rfl
  parameters := forall_mem_cons.2 ⟨⟨rfl, rfl, rfl⟩, forall_mem_singleton.2 ⟨rfl, rfl, rfl⟩⟩
  body := h

/-- A name is bound on both ways and read behind them, another is bound in a loop. -/
def joined : Procedure :=
  switching [.branch switch [.bind (amount "y") (amount "n")] [.bind (amount "y") (amount "n")],
    .loop switch [.bind (amount "z") (amount "y"), .bind (amount "y") (amount "z")], .ret (amount "y")]

theorem joined_declares : joined.Printable IsTarget ∧
    (∀ A t, Stmt.Reaches joined.Given joined.body A t → t.Reads A) ∧ Stmt.areLive joined.body = true ∧
    ∃ code, (∀ style, Module.print [joined.toStmt] style = .ok (Code.render style [code])) ∧
      joined.Declares (fun z => Stmt.areLive joined.body = true ∧ z ∈ Stmt.localNames joined.body) code := by
  have hprintable : joined.Printable IsTarget :=
    switching_printable (by
      simp [Stmt.PrintableAll, Stmt.Printable, IsTarget, switch, amount, Expr.isName, Expr.symbol?])
  have hreads : ∀ A t, Stmt.Reaches joined.Given joined.body A t → t.Reads A := Stmt.reads_iff.1 (by decide)
  obtain ⟨code, hprint, hcode⟩ :=
    Module.print_declares (forall_mem_singleton.2 hprintable) (forall_mem_singleton.2 hreads)
  exact ⟨hprintable, hreads, rfl, code joined, hprint, hcode joined mem_cons_self⟩

/-- A name is bound on one way and read behind the return on the other. -/
def stranded : Procedure :=
  switching [.branch switch [.bind (amount "y") (amount "n"), .ret (amount "y")] [.ret (amount "n"), .ret (amount "y")]]

theorem stranded_uses_undeclared : stranded.Printable IsTarget ∧
    (∀ A t, Stmt.Reaches stranded.Given stranded.body A t → t.Reads A) ∧
    ∃ body, Module.emit [stranded.toStmt] =
        .ok [[.procedure [] (.scalar .int32) "entry" [(.scalar .bool, "c"), (.scalar .int32, "n")] body]] ∧
      ¬ Code.AllProper (· ∈ Stmt.localNames stranded.body) (· ∈ ["c", "n"]) body := by
  refine ⟨switching_printable ?_, Stmt.reads_iff.1 (by decide), _, rfl, ?_⟩
  · simp [Stmt.PrintableAll, Stmt.Printable, IsTarget, switch, amount, Expr.isName, Expr.symbol?]
  · rintro ⟨⟨-, -, -, hret, -⟩, -⟩
    exact absurd (hret "y" mem_cons_self (by decide)) (by simp [Name.Also, Code.declared])

end Samples

end DataParallel
