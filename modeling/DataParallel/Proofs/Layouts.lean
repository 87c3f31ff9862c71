import DataParallel.Lowering.Layouts

/-! Remembered conversions are right, so assigning layouts gives every expression the layout of its
type. -/

namespace DataParallel

namespace Conversions

def Correct (conversions : Conversions) : Prop :=
  ∀ ty layout, conversions.find? ty = some layout → layout = Layout.ofTy ty

theorem Correct.empty : Correct empty := by
  intro ty layout h
  cases h

theorem learn_correct {conversions : Conversions} (h : Correct conversions) {ty : Ty}
    {layout : Layout} (hlayout : layout = Layout.ofTy ty) :
    (conversions.learn ty layout).1 = Layout.ofTy ty ∧ Correct (conversions.learn ty layout).2 := by
  refine ⟨hlayout, fun ty' layout' hfind => ?_⟩
  simp only [learn, find?, List.lookup_cons] at hfind
  split at hfind
  · rename_i heq
    cases hfind
    rwa [beq_iff_eq.1 heq]
  · exact h ty' layout' hfind

mutual

theorem convert_eq : ∀ (ty : Ty) {conversions : Conversions}, Correct conversions →
    (convert ty conversions).1 = Layout.ofTy ty ∧ Correct (convert ty conversions).2
  | .named name parameters, conversions, h => by
    rw [convert]
    split
    · rename_i layout hfind
      exact ⟨h _ _ hfind, h⟩
    · dsimp only
      split
      · rename_i kind hkind
        exact learn_correct h (by rw [Layout.ofTy, hkind])
      · rename_i hnone
        obtain ⟨hall, hcorrect⟩ := convertAll_eq parameters h
        exact learn_correct hcorrect (by rw [Layout.ofTy, hnone, hall])
  | .sequence element, conversions, h => by
    rw [convert]
    split
    · rename_i layout hfind
      exact ⟨h _ _ hfind, h⟩
    · obtain ⟨hone, hcorrect⟩ := convert_eq element h
      exact learn_correct hcorrect (by rw [Layout.ofTy, hone])
  | .tuple fields, conversions, h => by
    rw [convert]
    split
    · rename_i layout hfind
      exact ⟨h _ _ hfind, h⟩
    · obtain ⟨hall, hcorrect⟩ := convertAll_eq fields h
      exact learn_correct hcorrect (by rw [Layout.ofTy, hall])
  | .function parameters result, conversions, h => by
    rw [convert]
    split
    · rename_i layout hfind
      exact ⟨h _ _ hfind, h⟩
    · obtain ⟨hone, hcorrect⟩ := convert_eq result h
      obtain ⟨hall, hcorrect⟩ := convertAll_eq parameters hcorrect
      exact learn_correct hcorrect (by rw [Layout.ofTy, hone, hall])
  | .quantified binders body, conversions, h => by
    rw [convert]
    split
    · rename_i layout hfind
      exact ⟨h _ _ hfind, h⟩
    · obtain ⟨hone, hcorrect⟩ := convert_eq body h
      obtain ⟨hall, hcorrect⟩ := convertAll_eq binders hcorrect
      exact learn_correct hcorrect (by rw [Layout.ofTy, hone, hall])

theorem convertAll_eq : ∀ (types : List Ty) {conversions : Conversions}, Correct conversions →
    (convertAll types conversions).1 = Layout.ofTys types ∧ Correct (convertAll types conversions).2
  | [], _, h => ⟨rfl, h⟩
  | ty :: rest, _, h => by
    obtain ⟨hone, hcorrect⟩ := convert_eq ty h
    obtain ⟨hall, hcorrect⟩ := convertAll_eq rest hcorrect
    rw [convertAll, Layout.ofTys, ← hone, ← hall]
    exact ⟨rfl, hcorrect⟩

end

end Conversions

/-- The steps give `a`, whatever was converted before, and remember nothing that is wrong. -/
def Converting.Gives {α : Type} (x : Converting α) (a : α) : Prop :=
  ∀ conversions : Conversions, conversions.Correct → (x.run conversions).1 = a ∧ (x.run conversions).2.Correct

namespace Converting.Gives
variable {α β : Type} {x : Converting α} {a : α} {b : β}

theorem pure : Gives (Pure.pure a) a := fun _ h => ⟨rfl, h⟩

theorem bind {f : α → Converting β} (hx : x.Gives a) (hf : (f a).Gives b) : (x >>= f).Gives b := by
  intro conversions h
  obtain ⟨hvalue, hcorrect⟩ := hx conversions h
  have hrun : (x >>= f).run conversions = (f a).run (x.run conversions).2 := by rw [← hvalue]; rfl
  rw [hrun]
  exact hf _ hcorrect

end Converting.Gives

/-- A typing with the layout of its type. -/
def Typing.laid (typing : Typing) : Typing := ⟨typing.ty, some (Layout.ofTy typing.ty)⟩

theorem Typing.assignLayout_gives (typing : Typing) : typing.assignLayout.Gives typing.laid := by
  intro conversions h
  obtain ⟨hlayout, hcorrect⟩ := Conversions.convert_eq typing.ty h
  refine ⟨?_, hcorrect⟩
  rw [Typing.laid, ← hlayout]
  rfl

namespace Expr

mutual

/-- An expression with the layouts of its types. -/
def laid : Expr → Expr
  | .name symbol typing => .name symbol typing.laid
  | .literal text typing => .literal text typing.laid
  | .tuple elements typing => .tuple (laidAll elements) typing.laid
  | .apply function arguments typing => .apply (laid function) (laidAll arguments) typing.laid
  | .closure function captured typing => .closure (laid function) (laidAll captured) typing.laid

def laidAll : List Expr → List Expr
  | [] => []
  | e :: rest => laid e :: laidAll rest

end

theorem typing_laid (e : Expr) : e.laid.typing = e.typing.laid := by cases e <;> rfl

theorem isName_laid (e : Expr) : e.laid.isName = e.isName := by
  cases e <;> rfl

mutual

theorem assignLayouts_gives : ∀ e : Expr, e.assignLayouts.Gives e.laid
  | .name _ typing => typing.assignLayout_gives.bind .pure
  | .literal _ typing => typing.assignLayout_gives.bind .pure
  | .tuple elements typing => (assignLayoutsAll_gives elements).bind (typing.assignLayout_gives.bind .pure)
  | .apply function arguments typing =>
    (assignLayouts_gives function).bind ((assignLayoutsAll_gives arguments).bind (typing.assignLayout_gives.bind .pure))
  | .closure function captured typing =>
    (assignLayouts_gives function).bind ((assignLayoutsAll_gives captured).bind (typing.assignLayout_gives.bind .pure))

theorem assignLayoutsAll_gives : ∀ es : List Expr, (assignLayoutsAll es).Gives (laidAll es)
  | [] => .pure
  | e :: rest => (assignLayouts_gives e).bind ((assignLayoutsAll_gives rest).bind .pure)

end

end Expr

namespace Stmt

mutual

/-- A statement with the layouts of its types. -/
def laid : Stmt → Stmt
  | .bind target value => .bind target.laid value.laid
  | .ret value => .ret value.laid
  | .procedure name parameters body => .procedure name.laid (Expr.laidAll parameters) (laidAll body)
  | .branch test whenTrue whenFalse => .branch test.laid (laidAll whenTrue) (laidAll whenFalse)
  | .loop test body => .loop test.laid (laidAll body)
  | .structDef name binders body => .structDef name binders (laidAll body)
  | .namespaceDef name body => .namespaceDef name (laidAll body)
  | .typedef layout name => .typedef layout name
  | .header path system => .header path system
  | .declare value => .declare value.laid

def laidAll : List Stmt → List Stmt
  | [] => []
  | s :: rest => laid s :: laidAll rest

end

mutual

theorem assignLayouts_gives : ∀ s : Stmt, s.assignLayouts.Gives s.laid
  | .bind target value => value.assignLayouts_gives.bind (target.assignLayouts_gives.bind .pure)
  | .ret value | .declare value => value.assignLayouts_gives.bind .pure
  | .procedure name parameters body =>
    name.assignLayouts_gives.bind
      ((Expr.assignLayoutsAll_gives parameters).bind ((assignLayoutsAll_gives body).bind .pure))
  | .branch test whenTrue whenFalse =>
    test.assignLayouts_gives.bind
      ((assignLayoutsAll_gives whenTrue).bind ((assignLayoutsAll_gives whenFalse).bind .pure))
  | .loop test body => test.assignLayouts_gives.bind ((assignLayoutsAll_gives body).bind .pure)
  | .structDef _ _ body | .namespaceDef _ body => (assignLayoutsAll_gives body).bind .pure
  | .typedef .. | .header .. => .pure

theorem assignLayoutsAll_gives : ∀ block : List Stmt, (assignLayoutsAll block).Gives (laidAll block)
  | [] => .pure
  | s :: rest => (assignLayouts_gives s).bind ((assignLayoutsAll_gives rest).bind .pure)

end

theorem mem_laidAll {block : List Stmt} {s : Stmt} :
    s ∈ laidAll block ↔ ∃ t ∈ block, s = t.laid := by
  induction block with
  | nil => simp [laidAll]
  | cons t block ih => simp [laidAll, ih]

end Stmt

theorem Procedure.parameterNames?_laid {p : Procedure} {names : List String}
    (h : p.parameterNames? = some names) :
    (Expr.laidAll p.parameters).mapM Expr.symbol? = some names := by
  obtain ⟨name, parameters, body⟩ := p
  simp only [Procedure.parameterNames?] at h ⊢
  induction parameters generalizing names with
  | nil => exact h
  | cons parameter parameters ih =>
    simp only [List.mapM_cons, Option.bind_eq_bind, Option.bind_eq_some_iff] at h
    obtain ⟨x, hx, rest, hrest, hnames⟩ := h
    have hlaid : parameter.laid.symbol? = some x := by
      cases parameter with
      | name symbol typing => exact hx
      | _ => cases hx
    rwa [Expr.laidAll, List.mapM_cons, hlaid, ih hrest]

theorem Module.assignLayouts_eq (module : Module) : module.assignLayouts = Stmt.laidAll module :=
  (Stmt.assignLayoutsAll_gives module Conversions.empty .empty).1

end DataParallel
