import DataParallel.Proofs.Matching
import DataParallel.Proofs.Reading.Units

/-! How the calls of a unit fit the signatures of their callees.

Matching lets the first occurrence of a type variable decide, so a call fits if every variable
stands for one type in all of its arguments, and otherwise may be read all the same. -/

namespace DataParallel

open List
variable {call : Expr × List Expr} {types : String → Option Ty}

mutual

/-- The calls in an expression: the callee and the arguments of each. -/
def Expr.calls : Expr → List (Expr × List Expr)
  | .name .. | .literal .. => []
  | .tuple elements _ => callsAll elements
  | .apply function arguments _ => (function, arguments) :: (calls function ++ callsAll arguments)
  | .closure function captured _ => calls function ++ callsAll captured

def Expr.callsAll : List Expr → List (Expr × List Expr)
  | [] => []
  | e :: rest => calls e ++ callsAll rest

end

mutual

/-- The calls in a statement and in the statements below it. -/
def Stmt.calls : Stmt → List (Expr × List Expr)
  | .bind target value => target.calls ++ value.calls
  | .ret value | .declare value => value.calls
  | .procedure name parameters body => name.calls ++ Expr.callsAll parameters ++ callsAll body
  | .branch test whenTrue whenFalse => test.calls ++ callsAll whenTrue ++ callsAll whenFalse
  | .loop test body => test.calls ++ callsAll body
  | .structDef _ _ body | .namespaceDef _ body => callsAll body
  | .typedef .. | .header .. => []

def Stmt.callsAll : List Stmt → List (Expr × List Expr)
  | [] => []
  | s :: rest => calls s ++ callsAll rest

end

def Expr.IsAccepted (call : Expr × List Expr) : Prop :=
  ∃ parameters result, call.1.ty.instantiate? (call.2.map Expr.ty) = some (parameters, result)

theorem Expr.mem_callsAll {es : List Expr} : call ∈ callsAll es ↔ ∃ e ∈ es, call ∈ e.calls := by
  induction es with
  | nil => simp [callsAll]
  | cons e es ih => simp [callsAll, ih]

theorem Stmt.mem_callsAll {block : List Stmt} :
    call ∈ callsAll block ↔ ∃ s ∈ block, call ∈ s.calls := by
  induction block with
  | nil => simp [callsAll]
  | cons s block ih => simp [callsAll, ih]

theorem Expr.IsTyped.accepted {e : Expr} (h : e.IsTyped types) :
    ∀ call ∈ e.calls, IsAccepted call := by
  induction h with
  | name => exact nofun
  | literal => exact nofun
  | tuple _ ih =>
    intro call hcall
    obtain ⟨e, he, hcall⟩ := mem_callsAll.1 hcall
    exact ih e he call hcall
  | apply _ _ hinstance ihf ih =>
    intro call hcall
    rw [calls, mem_cons, mem_append] at hcall
    rcases hcall with rfl | hcall | hcall
    · exact ⟨_, _, hinstance⟩
    · exact ihf call hcall
    · obtain ⟨e, he, hcall⟩ := mem_callsAll.1 hcall
      exact ih e he call hcall
  | closure _ _ _ _ ihf ih =>
    intro call hcall
    rcases mem_append.1 hcall with hcall | hcall
    · exact ihf call hcall
    · obtain ⟨e, he, hcall⟩ := mem_callsAll.1 hcall
      exact ih e he call hcall

mutual

theorem Expr.calls_of_isBinder : ∀ {e : Expr}, e.isBinder = true → e.calls = []
  | .name .., _ => rfl
  | .tuple _ _, h => callsAll_of_areBinders h

theorem Expr.callsAll_of_areBinders : ∀ {es : List Expr}, areBinders es = true → callsAll es = []
  | [], _ => rfl
  | _ :: _, h => by
    rw [areBinders, Bool.and_eq_true] at h
    rw [callsAll, calls_of_isBinder h.1, callsAll_of_areBinders h.2]
    rfl

end

namespace Stmt

theorem AreTyped.accepted {types : String → Option Ty} (h : AreTyped types block) :
    ∀ call ∈ callsAll block, Expr.IsAccepted call := by
  induction block using block_induction generalizing types with
  | nil => exact nofun
  | cons s =>
    cases s <;> grind [AreTyped, IsTyped, suites, calls, callsAll, Expr.calls_of_isBinder, Expr.IsTyped.accepted]

end Stmt

theorem Procedure.IsTyped.accepted {p : Procedure} (h : p.IsTyped types) :
    ∀ call ∈ p.toStmt.calls, Expr.IsAccepted call := by
  obtain ⟨x, ty, result, hname, -⟩ := h.name
  intro call hcall
  rw [toStmt, Stmt.calls, hname, Expr.calls, nil_append,
    Expr.callsAll_of_areBinders (Expr.areBinders_of_symbols h.parameters), nil_append] at hcall
  exact h.body.accepted call hcall

/-- A call that is read fits its signature if and only if one type for each type variable makes it
fit. In particular it fits if no variable occurs twice in the parameters. -/
theorem ofText?_calls_fit {text : List Char} {unit : SourceUnit}
    (h : SourceUnit.ofText? text = .ok unit) :
    ∀ call ∈ Stmt.callsAll unit.module, ∃ parameters result,
      call.1.ty.instantiate? (call.2.map Expr.ty) = some (parameters, result) ∧
      (parameters = call.2.map Expr.ty ↔ call.1.ty.Admits (call.2.map Expr.ty)) ∧
      (call.1.ty.parameterVariables.Nodup → parameters = call.2.map Expr.ty) := by
  intro call hcall
  obtain ⟨st, hst, hcall⟩ := Stmt.mem_callsAll.1 hcall
  obtain ⟨p, types, rfl, htyped⟩ := SourceUnit.ofText?_isTyped h st hst
  obtain ⟨parameters, result, hinstance⟩ := htyped.accepted call hcall
  exact ⟨parameters, result, hinstance, Ty.parameters_eq_iff hinstance, Ty.parameters_eq_of_nodup hinstance⟩

/-- A variable that stands in two parameters, for one type. -/
def foldText : List Char :=
  ("declare fold : forall a . fn(fn(a, a) -> a, a, [a]) -> a forces; declare add : fn(Int32, Int32) -> Int32 opaque; " ++
   "procedure total(xs: [Int32]) -> Int32 \x7b return fold(add, 0, xs); \x7d").toList

theorem foldText_calls_fit :
    ∃ unit, SourceUnit.ofText? foldText = .ok unit ∧ ∃ call ∈ Stmt.callsAll unit.module,
    ¬ call.1.ty.parameterVariables.Nodup ∧ call.1.ty.Admits (call.2.map Expr.ty) := by
  have hreads : ((SourceUnit.ofText? foldText).toOption.any fun unit =>
      (Stmt.callsAll unit.module).any fun call => decide (¬ call.1.ty.parameterVariables.Nodup) &&
        decide (((call.1.ty.instantiate? (call.2.map Expr.ty)).map Prod.fst) = some (call.2.map Expr.ty))) = true := by
    decide +kernel
  obtain ⟨unit, hread, hcalls⟩ := Except.any_toOption.1 hreads
  obtain ⟨call, hcall, hchecks⟩ := List.any_eq_true.1 hcalls
  rw [Bool.and_eq_true, decide_eq_true_eq, decide_eq_true_eq] at hchecks
  obtain ⟨parameters, result, hinstance, hiff, -⟩ := ofText?_calls_fit hread call hcall
  rw [hinstance] at hchecks
  exact ⟨unit, hread, call, hcall, hchecks.1, hiff.1 (Option.some.inj hchecks.2)⟩

/-- A variable that stands for one type in a parameter and for another one in the next. -/
def sameText : List Char :=
  ("declare same : forall a . fn(a, a) -> a opaque; " ++
   "procedure entry(x: Int32, y: Float32) -> Int32 \x7b z: Int32 = same(x, y); return z; \x7d").toList

theorem ofText?_reads_unfit : ∃ unit, SourceUnit.ofText? sameText = .ok unit ∧
    ∃ call ∈ Stmt.callsAll unit.module, ∃ parameters result,
      call.1.ty.instantiate? (call.2.map Expr.ty) = some (parameters, result) ∧
      parameters ≠ call.2.map Expr.ty := by
  have hreads : ((SourceUnit.ofText? sameText).toOption.any fun unit =>
      (Stmt.callsAll unit.module).any fun call =>
        (call.1.ty.instantiate? (call.2.map Expr.ty)).any fun r => r.1 ≠ call.2.map Expr.ty) = true := by
    decide +kernel
  obtain ⟨unit, hread, hcalls⟩ := Except.any_toOption.1 hreads
  obtain ⟨call, hcall, hunfit⟩ := List.any_eq_true.1 hcalls
  obtain ⟨⟨parameters, result⟩, hinstance, hunfit⟩ := (Option.any_eq_true _ _).1 hunfit
  exact ⟨unit, hread, call, hcall, parameters, result, hinstance, of_decide_eq_true hunfit⟩

end DataParallel
