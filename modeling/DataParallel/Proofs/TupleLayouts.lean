import DataParallel.Lowering.TupleBinds
import DataParallel.Proofs.Execution
import DataParallel.Proofs.Layouts

/-! Tuples taken out of binds have their layouts.

What stands for a bind takes its types from the bind: a temporary those of the call it holds, a
projection those of its target, a snippet those of its arguments and its result. So it does not
matter whether layouts are assigned before or after tuples are taken out, and where they are
assigned before, nothing is left to assign. -/

namespace DataParallel

open List

namespace Expr

theorem ty_laid (e : Expr) : e.laid.ty = e.ty := by
  rw [ty, typing_laid]
  rfl

theorem layout_laid (e : Expr) : e.laid.layout = some (Layout.ofTy e.ty) := by
  rw [layout, typing_laid]
  rfl

theorem isTuple_laid (e : Expr) : e.laid.isTuple = e.isTuple := by
  cases e <;> rfl

theorem laidAll_eq_map (es : List Expr) : laidAll es = es.map laid := by
  induction es with
  | nil => rfl
  | cons e rest ih => rw [laidAll, ih, map_cons]

theorem length_laidAll (es : List Expr) : (laidAll es).length = es.length := by
  rw [laidAll_eq_map, length_map]

theorem map_ty_laidAll (es : List Expr) : (laidAll es).map ty = es.map ty := by
  rw [laidAll_eq_map, map_map]
  exact map_congr_left fun e _ => e.ty_laid

theorem renderAll_laid (es : List Expr) : renderAll (laidAll es) = renderAll es := by
  induction es using list_induction with
  | nil => rfl
  | cons e es ihe ih => cases e <;> simp_all [laid, laidAll, render, renderAll]

theorem render_laid (e : Expr) : e.laid.render = e.render := by
  simpa [laidAll, renderAll] using renderAll_laid [e]

theorem laidAll_laid (es : List Expr) : laidAll (laidAll es) = laidAll es := by
  induction es using list_induction with
  | nil => rfl
  | cons e es ihe ih => cases e <;> simp_all [laid, laidAll, Typing.laid]

theorem laid_laid (e : Expr) : e.laid.laid = e.laid := by
  simpa [laidAll] using laidAll_laid [e]

theorem layouts?_laid (es : List Expr) :
    layouts? (laidAll es) = some (Layout.ofTys (es.map ty)) := by
  induction es with
  | nil => rfl
  | cons e rest ih =>
    rw [layouts?] at ih ⊢
    rw [laidAll, mapM_cons, layout_laid, ih, map_cons, Layout.ofTys]
    rfl

theorem applySnippet_laid (snippet : String) (arguments : List Expr) (typing : Typing) :
    applySnippet snippet (laidAll arguments) typing.laid = (applySnippet snippet arguments typing).laid := by
  rw [applySnippet, layouts?_laid, map_ty_laidAll]
  rfl

end Expr

namespace Stmt
variable {typing : Typing} {target : Expr} {values : List Expr}

theorem laidAll_append (block block' : List Stmt) :
    laidAll (block ++ block') = laidAll block ++ laidAll block' := by
  induction block with
  | nil => rfl
  | cons s rest ih => rw [cons_append, laidAll, laidAll, ih, cons_append]

theorem laidAll_laid (block : List Stmt) : laidAll (laidAll block) = laidAll block := by
  induction block using block_induction with
  | nil => rfl
  | cons s rest ihs ih =>
    rw [laidAll, laidAll, ih]
    cases s <;> simp_all [laid, suites, Expr.laid_laid, Expr.laidAll_laid]

theorem map_laidAll_append (first rest : Lower Supply (List Stmt)) :
    (laidAll <$> do return (← first) ++ (← rest)) =
      (do return (← laidAll <$> first) ++ (← laidAll <$> rest) : Lower Supply (List Stmt)) := by
  simp only [map_bind, map_pure, bind_map_left, laidAll_append]

theorem flattenBind_call {targets arguments : List Expr} {function : Expr} {typing' : Typing} :
    flattenBind (.tuple targets typing') (.apply function arguments typing) = do
      let name ← freshName
      let fields ← flattenFields (.name name typing) 0 targets
      return .bind (.name name typing) (.apply function arguments typing) :: fields := rfl

theorem flattenBind_pack (h : target.isTuple = false) : flattenBind target (.tuple values typing) =
      pure [.bind target (.applySnippet Name.Snippet.makeTuple values typing)] := by
  cases target with
  | tuple => cases h
  | _ => rfl

theorem flattenBind_pack_laid (h : target.isTuple = false) :
    flattenBind target.laid (Expr.tuple values typing).laid =
      laidAll <$> flattenBind target (.tuple values typing) := by
  rw [flattenBind_pack h, Expr.laid, flattenBind_pack (target.isTuple_laid.trans h), Expr.applySnippet_laid]
  rfl

mutual

theorem flattenBind_laid : ∀ target value : Expr,
    flattenBind target.laid value.laid = laidAll <$> flattenBind target value
  | .tuple targets _, value => by
    cases value with
    | tuple values _ =>
      rw [Expr.laid, Expr.laid, flattenBind, flattenBind, Expr.length_laidAll, Expr.length_laidAll]
      split
      · exact flattenPairs_laid targets values
      · rfl
    | apply function arguments typing =>
      rw [Expr.laid, Expr.laid, flattenBind_call, flattenBind_call, map_bind]
      refine bind_congr fun name => ?_
      have hfields := flattenFields_laid (.name name typing) 0 targets
      rw [Expr.laid] at hfields
      rw [hfields, bind_map_left, map_bind]
      rfl
    | name symbol typing => exact flattenFields_laid (.name symbol typing) 0 targets
    | literal text typing => exact flattenFields_laid (.literal text typing) 0 targets
    | closure function captured typing => exact flattenFields_laid (.closure function captured typing) 0 targets
  | .name .., value | .literal .., value | .apply .., value | .closure .., value => by
    cases value with
    | tuple values typing => exact flattenBind_pack_laid rfl
    | _ => rfl

theorem flattenPairs_laid : ∀ targets values : List Expr,
    flattenPairs (Expr.laidAll targets) (Expr.laidAll values) = laidAll <$> flattenPairs targets values
  | [], _ | _ :: _, [] => rfl
  | target :: targets, value :: values => by
    rw [Expr.laidAll, Expr.laidAll, flattenPairs, flattenPairs, flattenBind_laid target value,
      flattenPairs_laid targets values, map_laidAll_append]

theorem flattenFields_laid (source : Expr) : ∀ (index : Nat) (targets : List Expr),
    flattenFields source.laid index (Expr.laidAll targets) = laidAll <$> flattenFields source index targets
  | _, [] => rfl
  | index, target :: targets => by
    have hfield : Expr.applySnippet (Name.Snippet.project index) [source.laid] target.laid.typing =
        (Expr.applySnippet (Name.Snippet.project index) [source] target.typing).laid := by
      rw [Expr.typing_laid]
      exact Expr.applySnippet_laid _ [source] _
    rw [Expr.laidAll, flattenFields, flattenFields, hfield, flattenBind_laid target,
      flattenFields_laid source (index + 1) targets, map_laidAll_append]

end

theorem find?_laidAll (parameters : List Expr) :
    ((Expr.laidAll parameters).find? fun parameter => !parameter.isName) =
      (parameters.find? fun parameter => !parameter.isName).map Expr.laid := by
  rw [Expr.laidAll_eq_map, find?_map]
  simp only [Function.comp_def, Expr.isName_laid]

mutual

theorem flattenTuples_laid : ∀ s : Stmt, flattenTuples s.laid = laidAll <$> flattenTuples s
  | .bind target value => by
    rw [laid, flattenTuples, flattenTuples, Expr.isTuple_laid, Expr.isTuple_laid]
    split
    · exact flattenBind_laid target value
    · rfl
  | .procedure name parameters body => by
    rw [laid, flattenTuples, flattenTuples, find?_laidAll]
    cases parameters.find? fun parameter => !parameter.isName with
    | some parameter =>
      rw [Option.map_some]
      dsimp only
      rw [Expr.render_laid]
      rfl
    | none =>
      show (flattenTuplesAll (laidAll body) >>= _) = _
      rw [flattenTuplesAll_laid body, bind_map_left, map_bind]
      rfl
  | .branch test whenTrue whenFalse => by
    rw [laid, flattenTuples, flattenTuples, flattenTuplesAll_laid whenTrue, flattenTuplesAll_laid whenFalse]
    simp only [map_bind, bind_map_left]
    rfl
  | .loop test body => by
    rw [laid, flattenTuples, flattenTuples, flattenTuplesAll_laid body, bind_map_left, map_bind]
    rfl
  | .structDef _ _ body | .namespaceDef _ body => by
    rw [laid, flattenTuples, flattenTuples, flattenTuplesAll_laid body, bind_map_left, map_bind]
    rfl
  | .ret _ | .typedef .. | .header .. | .declare _ => rfl

theorem flattenTuplesAll_laid : ∀ block : List Stmt,
    flattenTuplesAll (laidAll block) = laidAll <$> flattenTuplesAll block
  | [] => rfl
  | s :: rest => by
    rw [laidAll, flattenTuplesAll, flattenTuplesAll, flattenTuples_laid s, flattenTuplesAll_laid rest,
      map_laidAll_append]

end

end Stmt

namespace Module

theorem flattenTuples_laid (module : Module) :
    Module.flattenTuples (Stmt.laidAll module) = module.flattenTuples.map Stmt.laidAll := by
  rw [flattenTuples, flattenTuples, Stmt.flattenTuplesAll_laid, StateT.run'_eq, StateT.run'_eq, StateT.run_map]
  cases (Stmt.flattenTuplesAll module).run (Supply.ofStem "_tup") with
  | error e => rfl
  | ok r => rfl

/-- Taking tuples out of the binds of a module and assigning layouts to it can be done in either
order: the outcome is the same module, or the same error. Layouts that were assigned first are those
of all binds that come for a tuple, so assigning them again changes nothing. -/
theorem flattenTuples_assignLayouts (module : Module) :
    module.assignLayouts.flattenTuples = module.flattenTuples.map assignLayouts ∧
      module.assignLayouts.flattenTuples.map assignLayouts = module.assignLayouts.flattenTuples := by
  have hlaid : Module.assignLayouts = Stmt.laidAll := funext assignLayouts_eq
  rw [hlaid, flattenTuples_laid]
  refine ⟨rfl, ?_⟩
  cases module.flattenTuples with
  | error e => rfl
  | ok flat => exact congrArg Except.ok (Stmt.laidAll_laid flat)

end Module
end DataParallel
