import Mathlib.Data.List.Nodup
import Mathlib.Order.Bounds.Basic
import DataParallel.Proofs.Contracts
import DataParallel.Proofs.Phases.Reachable
import DataParallel.Proofs.Phases.Statements

/-! Which statements of a module phase analysis changes.

Between procedures the analysis is idle: it knows of no active procedure and no bind waits. A
statement in which no procedure is to be analysed leaves an idle state as it is and comes out
unchanged. What is to be analysed is the least set that has the entry and is closed under mentions.
-/

namespace DataParallel

open List DataParallel.Module Lower Stmt

variable {x : String} {block : List Stmt} {module : Module}

namespace Stmt

mutual

/-- The names of the procedures in a statement, without those inside of other procedures. -/
def procedureNames : Stmt → List String
  | .procedure name _ _ => name.symbol?.toList
  | .structDef _ _ body | .namespaceDef _ body => procedureNamesAll body
  | _ => []

def procedureNamesAll : List Stmt → List String
  | [] => []
  | s :: rest => procedureNames s ++ procedureNamesAll rest

end

theorem mem_procedureNamesAll :
    x ∈ procedureNamesAll block ↔ ∃ s ∈ block, x ∈ s.procedureNames := by
  induction block with
  | nil => simp [procedureNamesAll]
  | cons s rest ih => simp [procedureNamesAll, ih]

theorem eq_of_mem_procedureNames (hdistinct : (procedureNamesAll block).Nodup) {s s' : Stmt}
    (hs : s ∈ block)
    (hs' : s' ∈ block) (hx : x ∈ s.procedureNames) (hx' : x ∈ s'.procedureNames) : s = s' := by
  induction block with
  | nil => exact absurd hs not_mem_nil
  | cons first rest ih =>
    rw [procedureNamesAll, nodup_append'] at hdistinct
    obtain ⟨-, hrest, hapart⟩ := hdistinct
    have hlater : ∀ t ∈ rest, x ∈ t.procedureNames → x ∉ first.procedureNames := fun t ht hxt hfirst =>
      hapart hfirst (mem_procedureNamesAll.2 ⟨t, ht, hxt⟩)
    rcases mem_cons.1 hs with rfl | hlate <;> rcases mem_cons.1 hs' with rfl | hlate'
    · rfl
    · exact (hlater s' hlate' hx' hx).elim
    · exact (hlater s hlate hx hx').elim
    · exact ih hrest hlate hlate'

def IsProcedureIn (known : List String) (s : Stmt) : Prop :=
  ∃ p : Procedure, s = p.toStmt ∧ ∃ x ∈ known, p.symbol? = some x

end Stmt

namespace Module
variable {p : Procedure}

/-- Whether a set of names has the entry, if there is such a procedure, and every procedure of the
module that is mentioned in the body of one in the set. -/
structure IsClosed (module : Module) (entry : String) (known : Set String) : Prop where
  entry : ∀ p ∈ module.procedures, p.symbol? = some entry → entry ∈ known
  mention : ∀ p ∈ module.procedures, ∀ x ∈ known, p.symbol? = some x →
    ∀ other ∈ module.procedures, ∀ y ∈ namesAll p.body, other.symbol? = some y → y ∈ known

theorem findProcedure?_isSome_iff :
    (module.findProcedure? x).isSome = true ↔ ∃ p ∈ module.procedures, p.symbol? = some x := by
  simp [findProcedure?, find?_isSome]

theorem symbol_mem_procedureNames (h : p.symbol? = some x) : x ∈ p.toStmt.procedureNames := by
  rwa [Procedure.toStmt, procedureNames, Option.mem_toList]

theorem findProcedure?_of_nodup (hdistinct : (procedureNamesAll module).Nodup)
    (h : p ∈ module.procedures) (hx : p.symbol? = some x) : module.findProcedure? x = some p := by
  obtain ⟨found, hfound⟩ := Option.isSome_iff_exists.1 (findProcedure?_isSome_iff.2 ⟨p, h, hx⟩)
  have hname : found.symbol? = some x := by simpa using find?_some hfound
  have hsame := eq_of_mem_procedureNames hdistinct (mem_procedures.1 (mem_of_find?_eq_some hfound))
    (mem_procedures.1 h) (symbol_mem_procedureNames hname) (symbol_mem_procedureNames hx)
  rw [hfound]
  exact congrArg some (Option.some.inj (congrArg procedure? hsame))

end Module

namespace Phases

variable {stmt : Stmt} {entry : String}

theorem isLeast_reached (hdistinct : (procedureNamesAll module).Nodup) :
    IsLeast {known : Set String | module.IsClosed entry known} {x | IsReached module entry x} := by
  refine ⟨⟨fun p hmem hname => ?_, fun p hmem x hx hname other hother y hy hmention => ?_⟩, ?_⟩
  · exact .entry (findProcedure?_isSome_iff.2 ⟨p, hmem, hname⟩)
  · exact .mention hx (findProcedure?_of_nodup hdistinct hmem hname) hy
      (findProcedure?_isSome_iff.2 ⟨other, hother, hmention⟩)
  · rintro known ⟨hentry, hmention⟩ x hx
    induction hx with
    | entry h =>
      obtain ⟨p, hmem, hname⟩ := findProcedure?_isSome_iff.1 h
      exact hentry p hmem hname
    | mention _ hfound hy h ih =>
      obtain ⟨other, hother, hname⟩ := findProcedure?_isSome_iff.1 h
      exact hmention _ (mem_of_find?_eq_some hfound) _ ih (by simpa using find?_some hfound) other hother _ hy hname

structure State.Inactive (s : State) : Prop where
  active : s.active = false
  pending : s.pending = []

section Idle
variable {Γ : Context} {s t : State} {out : List Stmt}

theorem analyzeStmts_pending (hpending : s.pending = [])
    (h : (analyzeStmts Γ block).run s = .ok (out, t)) : t.pending = [] := by
  induction block generalizing s out with
  | nil =>
    cases h
    exact hpending
  | cons stmt rest ih =>
    simp only [analyzeStmts, run_bind_ok_iff] at h
    obtain ⟨_, s₁, -, _, _, htake, _, _, hrest, h⟩ := h
    obtain ⟨rfl, rfl⟩ := run_takePending htake
    cases h
    exact ih rfl hrest

theorem analyzeProcedure_idle {symbol : String} {parameters : List Expr} (hs : s.Inactive)
    (h : (analyzeProcedure Γ symbol parameters (analyzeStmts Γ block)).run s = .ok (out, t)) :
    t.Inactive := by
  simp only [analyzeProcedure, run_bind_ok_iff] at h
  obtain ⟨_, _, hstart, r, s₁, hscope, _, _, hend, h⟩ := h
  cases hstart
  obtain ⟨_, t₁, hsteps, rfl, -⟩ := run_inScope hscope
  cases hend
  cases h
  simp only [run_bind_ok_iff] at hsteps
  obtain ⟨_, _, hset, hsteps⟩ := hsteps
  cases hset
  have hstart : (State.enter { s with active := true, inEntry := symbol = Γ.entry, selfResults := [] }).pending =
      [] := hs.pending
  exact ⟨rfl, analyzeStmts_pending (t := t₁) ((State.pending_setCompletions _ _).trans hstart) hsteps⟩

mutual

theorem analyzeStmt_idle :
    ∀ {stmt stmt' : Stmt} {s t : State}, (∀ x ∈ stmt.procedureNames, x ∉ Γ.analyzed) →
    s.Inactive → (analyzeStmt Γ stmt).run s = .ok (stmt', t) → stmt' = stmt ∧ t = s
  | .bind .., _, s, _, _, hs, h | .ret _, _, s, _, _, hs, h | .branch .., _, s, _, _, hs, h
  | .loop .., _, s, _, _, hs, h => by
    simp only [analyzeStmt, run_bind_ok_iff] at h
    obtain ⟨_, _, hget, h⟩ := h
    cases hget
    rw [hs.active] at h
    cases h
    exact ⟨rfl, rfl⟩
  | .procedure name parameters body, _, s, _, hnone, hs, h => by
    have hskip : name.symbol?.filter (· ∈ Γ.analyzed) = none := by
      rw [Option.filter_eq_none_iff]
      intro x hx
      simpa using hnone x (by rw [procedureNames, Option.mem_toList]; exact hx)
    rw [analyzeStmt, hskip] at h
    cases h
    exact ⟨rfl, rfl⟩
  | .structDef _ _ body, _, s, _, hnone, hs, h | .namespaceDef _ body, _, s, _, hnone, hs, h => by
    simp only [analyzeStmt, run_bind_ok_iff] at h
    obtain ⟨out, _, hbody, h⟩ := h
    obtain ⟨rfl, rfl⟩ := analyzeStmts_idle hnone hs hbody
    cases h
    exact ⟨rfl, rfl⟩
  | .typedef .., _, s, _, _, _, h | .header .., _, s, _, _, _, h | .declare _, _, s, _, _, _, h => by
    cases h
    exact ⟨rfl, rfl⟩

theorem analyzeStmts_idle : ∀ {block out : List Stmt} {s t : State},
    (∀ x ∈ procedureNamesAll block, x ∉ Γ.analyzed) → s.Inactive →
    (analyzeStmts Γ block).run s = .ok (out, t) → out = block ∧ t = s
  | [], _, s, _, _, _, h => by
    cases h
    exact ⟨rfl, rfl⟩
  | stmt :: rest, _, s, _, hnone, hs, h => by
    simp only [procedureNamesAll, mem_append] at hnone
    simp only [analyzeStmts, run_bind_ok_iff] at h
    obtain ⟨_, s₁, hstmt, _, _, htake, _, _, hrest, h⟩ := h
    obtain ⟨rfl, rfl⟩ := run_takePending htake
    obtain ⟨rfl, rfl⟩ := analyzeStmt_idle (fun x hx => hnone x (.inl hx)) hs hstmt
    have hflush : s₁.flush = s₁ := by rw [State.flush, ← hs.pending]
    rw [hflush] at hrest
    obtain ⟨rfl, rfl⟩ := analyzeStmts_idle (fun x hx => hnone x (.inr hx)) hs hrest
    cases h
    rw [hs.pending]
    exact ⟨rfl, rfl⟩

end

/-- What becomes of a statement of a module: a procedure to be analysed keeps its name and its
parameters and has the body that analysis gives it, and everything else stays. -/
structure Context.Treats (Γ : Context) (stmt stmt' : Stmt) : Prop where
  unchanged : ¬ stmt.IsProcedureIn Γ.analyzed → stmt' = stmt
  analyzed : ∀ p : Procedure, stmt = p.toStmt → ∀ x ∈ Γ.analyzed, p.symbol? = some x →
    ∃ body s t, stmt' = .procedure p.name p.parameters body ∧
      (analyzeProcedure Γ x p.parameters (analyzeStmts Γ p.body)).run s = .ok (body, t)

theorem analyzeStmt_treats {stmt' : Stmt}
    (hnested : ¬ stmt.IsProcedureIn Γ.analyzed → ∀ x ∈ stmt.procedureNames, x ∉ Γ.analyzed)
    (hs : s.Inactive) (h : (analyzeStmt Γ stmt).run s = .ok (stmt', t)) :
    Γ.Treats stmt stmt' ∧ t.Inactive := by
  by_cases hin : stmt.IsProcedureIn Γ.analyzed
  · obtain ⟨p, rfl, x, hx, hname⟩ := hin
    have hfound : p.name.symbol?.filter (· ∈ Γ.analyzed) = some x :=
      Option.filter_eq_some_iff.2 ⟨hname, decide_eq_true hx⟩
    simp only [Procedure.toStmt, analyzeStmt, hfound, run_bind_ok_iff] at h
    obtain ⟨body, s₁, hbody, h⟩ := h
    cases h
    refine ⟨⟨fun h => (h ⟨p, rfl, x, hx, hname⟩).elim, fun other heq y _ hy => ?_⟩,
      analyzeProcedure_idle hs hbody⟩
    obtain rfl : p = other := Option.some.inj (congrArg procedure? heq)
    cases hname.symm.trans hy
    exact ⟨body, s, t, rfl, hbody⟩
  · obtain ⟨rfl, rfl⟩ := analyzeStmt_idle (hnested hin) hs h
    exact ⟨⟨fun _ => rfl, fun p heq x hx hname => (hin ⟨p, heq, x, hx, hname⟩).elim⟩, hs⟩

theorem analyzeStmts_treats
    (hnested : ∀ stmt ∈ block, ¬ stmt.IsProcedureIn Γ.analyzed → ∀ x ∈ stmt.procedureNames, x ∉ Γ.analyzed)
    (hs : s.Inactive) (h : (analyzeStmts Γ block).run s = .ok (out, t)) : Forall₂ Γ.Treats block out := by
  induction block generalizing s out with
  | nil =>
    cases h
    exact .nil
  | cons stmt rest ih =>
    simp only [analyzeStmts, run_bind_ok_iff] at h
    obtain ⟨_, s₁, hstmt, _, _, htake, _, _, hrest, h⟩ := h
    obtain ⟨htreats, hidle⟩ := analyzeStmt_treats (hnested stmt mem_cons_self) hs hstmt
    obtain ⟨rfl, rfl⟩ := run_takePending htake
    cases h
    rw [hidle.pending]
    have hflush : s₁.flush.Inactive := ⟨hidle.active, rfl⟩
    exact .cons htreats (ih (fun stmt hmem => hnested stmt (mem_cons_of_mem _ hmem)) hflush hrest)

end Idle

theorem nested_not_reached (hdistinct : (procedureNamesAll module).Nodup) (hmem : stmt ∈ module)
    (hout : ¬ stmt.IsProcedureIn (reachable module entry)) : ∀ x ∈ stmt.procedureNames, x ∉ reachable module entry := by
  intro x hx hreached
  obtain ⟨p, hprocedure, hname⟩ := findProcedure?_isSome_iff.1 (mem_reachable.1 hreached).isSome
  exact hout ⟨p, eq_of_mem_procedureNames hdistinct hmem (mem_procedures.1 hprocedure) hx
    (symbol_mem_procedureNames hname), x, hreached, hname⟩

end Phases

/-- **Exactly the procedures that the entry reaches are analysed.** Looking up names ends, with the
least set that has the entry and all that is mentioned in it. Statements that are no procedures of
this set stay as they are. -/
theorem Module.insertBoundaries_treats_reachable (module : Module) (entry : String)
    (hdistinct : (procedureNamesAll module).Nodup) :
    (∃ n, (Phases.Worklist.step module)^[n] ⟨[], [entry]⟩ = ⟨Phases.reachable module entry, []⟩) ∧
      IsLeast {known : Set String | module.IsClosed entry known} {x | x ∈ Phases.reachable module entry} ∧
      ∀ (registry : Registry) (module' : Module), module.insertBoundaries registry entry = .ok module' →
        List.Forall₂ (Phases.moduleContext module registry entry).Treats module module' := by
  refine ⟨Phases.Worklist.exists_iterate_step module _, ?_, fun registry module' h => ?_⟩
  · simpa only [Phases.mem_reachable] using Phases.isLeast_reached hdistinct
  · obtain ⟨_, hrun⟩ := run'_ok h
    have hidle : Phases.State.initial.Inactive := ⟨rfl, rfl⟩
    exact Phases.analyzeStmts_treats (fun stmt hmem => Phases.nested_not_reached hdistinct hmem) hidle hrun

/-- The entry mentions `ping`, which mentions `pong` and is mentioned there. The others mention
them, but are mentioned by nobody. -/
def rallyModule : Module :=
  let number : Typing := ⟨.scalar .int32, none⟩
  let mentioning (x y : String) : Stmt := .procedure (.name x number) [] [.ret (.name y number)]
  [mentioning "watch" "ping", mentioning "main" "ping", mentioning "ping" "pong", mentioning "pong" "ping",
    .namespaceDef "bench" [mentioning "spare" "main"]]

theorem rallyModule_treats_reachable : (procedureNamesAll rallyModule).Nodup ∧
    Phases.reachable rallyModule "main" = ["main", "ping", "pong"] ∧
    IsLeast {known : Set String | rallyModule.IsClosed "main" known} {x | x ∈ Phases.reachable rallyModule "main"} ∧
    ∃ module', rallyModule.insertBoundaries .empty "main" = .ok module' ∧
      List.Forall₂ (Phases.moduleContext rallyModule .empty "main").Treats rallyModule module' := by
  have hdistinct : (procedureNamesAll rallyModule).Nodup := by decide +kernel
  have hruns : ((rallyModule.insertBoundaries .empty "main").toOption.any fun _ => true) = true := by decide +kernel
  obtain ⟨module', hmodule, -⟩ := Except.any_toOption.1 hruns
  obtain ⟨-, hleast, htreats⟩ := rallyModule.insertBoundaries_treats_reachable "main" hdistinct
  exact ⟨hdistinct, by decide +kernel, hleast, module', hmodule, htreats .empty module' hmodule⟩

end DataParallel
