import DataParallel.Code.Emission
import DataParallel.Lowering.Layouts
import DataParallel.Proofs.Reading.Exprs

/-! Code that can be emitted: every expression has a layout, only names are called, and only names
are bound. -/

namespace DataParallel

def LoweringError.Tolerable (error : LoweringError) : Prop := ∀ found, error ≠ .missingLayout found

namespace Term

mutual

/-- The names in a term. -/
def names : Term → List String
  | .name symbol => [symbol]
  | .literal _ => []
  | .tuple elements => namesAll elements
  | .call callee arguments => callee :: namesAll arguments
  | .closure function captured => names function ++ namesAll captured

def namesAll : List Term → List String
  | [] => []
  | term :: rest => names term ++ namesAll rest

end

end Term

namespace Expr

variable {es : List Expr}

theorem areLaidOut_iff : areLaidOut es = true ↔ ∀ e ∈ es, e.isLaidOut = true := by
  induction es with
  | nil => simp [areLaidOut]
  | cons e es ih => simp [areLaidOut, ih]

def Printable (e : Expr) : Prop := e.isLaidOut = true ∧ e.callsNames = true

section
variable {x text : String} {f e : Expr} {typing : Typing}

@[simp] theorem printable_name : Printable (.name x typing) ↔ typing.layout.isSome = true := by
  simp [Printable, isLaidOut, callsNames]

@[simp] theorem printable_literal :
    Printable (.literal text typing) ↔ typing.layout.isSome = true := by
  simp [Printable, isLaidOut, callsNames]

theorem printable_all :
    (∀ e ∈ es, Printable e) ↔ areLaidOut es = true ∧ allCallNames es = true := by
  simp only [areLaidOut_iff, allCallNames_iff, Printable]
  exact ⟨fun h => ⟨fun e he => (h e he).1, fun e he => (h e he).2⟩, fun h e he => ⟨h.1 e he, h.2 e he⟩⟩

theorem printable_tuple :
    Printable (.tuple es typing) ↔ typing.layout.isSome = true ∧ ∀ e ∈ es, Printable e := by
  rw [printable_all]
  simp [Printable, isLaidOut, callsNames, and_assoc]

theorem callsNames_of_isName (h : f.isName = true) : f.callsNames = true := by
  cases f with
  | name => rfl
  | _ => cases h

theorem printable_apply : Printable (.apply f es typing) ↔
    typing.layout.isSome = true ∧ f.isName = true ∧ Printable f ∧ ∀ e ∈ es, Printable e := by
  rw [printable_all]
  simp only [Printable, isLaidOut, callsNames, Bool.and_eq_true]
  constructor
  · rintro ⟨⟨⟨ht, hf⟩, hes⟩, hname, hcalls⟩
    exact ⟨ht, hname, ⟨hf, callsNames_of_isName hname⟩, hes, hcalls⟩
  · rintro ⟨ht, hname, ⟨hf, -⟩, hes, hcalls⟩
    exact ⟨⟨⟨ht, hf⟩, hes⟩, hname, hcalls⟩

-- a closure is checked as a call is
theorem printable_closure : Printable (.closure f es typing) ↔
    typing.layout.isSome = true ∧ f.isName = true ∧ Printable f ∧ ∀ e ∈ es, Printable e := printable_apply

theorem Printable.layout (h : Printable e) : ∃ layout, e.layout = some layout := by
  rw [← Option.isSome_iff_exists]
  cases e with
  | name | literal => simpa [layout, typing] using h
  | tuple => exact (printable_tuple.1 h).1
  | apply => exact (printable_apply.1 h).1
  | closure => exact (printable_closure.1 h).1

theorem Printable.isSome (h : Printable e) : e.typing.layout.isSome = true :=
  Option.isSome_iff_exists.2 h.layout

theorem Printable.renamed (h : Printable e) (y : String) : Printable (e.renamed y) :=
  printable_name.2 h.isSome

theorem Printable.expectLayout {harmless : LoweringError → Prop} (h : Printable e) :
    Meets harmless (fun layout => e.layout = some layout) e.expectLayout := by
  obtain ⟨layout, hlayout⟩ := h.layout
  rwa [expectLayout_ok.2 hlayout]

theorem expectName_meets (context : String) :
    Meets LoweringError.Tolerable (fun x => e.symbol? = some x) (e.expectName context) := by
  cases hx : e.symbol? with
  | none =>
    rw [expectName, hx]
    rintro _ ⟨⟩
  | some x =>
    rw [expectName_ok.2 hx]
    rfl

theorem layouts?_isSome (h : ∀ e ∈ es, Printable e) : (layouts? es).isSome = true := by
  induction es with
  | nil => rfl
  | cons e es ih =>
    obtain ⟨layout, hlayout⟩ := (h e List.mem_cons_self).layout
    obtain ⟨rest, hrest⟩ := Option.isSome_iff_exists.1 (ih fun d hd => h d (List.mem_cons_of_mem e hd))
    rw [layouts?] at hrest ⊢
    rw [List.mapM_cons, hlayout, hrest]
    rfl

theorem printable_applySnippet {snippet : String} (h : ∀ e ∈ es, Printable e)
    (htyping : typing.layout.isSome = true) : Printable (applySnippet snippet es typing) := by
  refine printable_apply.2 ⟨htyping, rfl, printable_name.2 ?_, h⟩
  obtain ⟨result, hresult⟩ := Option.isSome_iff_exists.1 htyping
  obtain ⟨parameters, hparameters⟩ := Option.isSome_iff_exists.1 (layouts?_isSome h)
  rw [hresult, hparameters]
  rfl

theorem Printable.containerOf (h : Printable e) :
    Meets LoweringError.Tolerable (fun storage => storage.isName = true ∧ storage.Printable) e.containerOf := by
  refine (expectName_meets _).bind fun x _ => h.expectLayout.bind fun layout _ => ?_
  exact ⟨rfl, printable_name.2 rfl⟩

end

mutual

theorem toTerm_meets :
    ∀ {e : Expr}, Printable e → Meets (fun _ => False) (fun term => term.names = e.names) e.toTerm
  | .name .., h => by
    rw [toTerm]
    exact h.expectLayout.bind fun _ _ => rfl
  | .literal .., h => by
    rw [toTerm]
    exact h.expectLayout.bind fun _ _ => rfl
  | .tuple elements typing, h => by
    rw [toTerm]
    exact h.expectLayout.bind fun _ _ => (toTerms_meets (printable_tuple.1 h).2).bind fun _ hterms => hterms
  | .apply function arguments typing, h => by
    obtain ⟨-, hname, -, harguments⟩ := printable_apply.1 h
    obtain ⟨x, hx⟩ := Option.isSome_iff_exists.1 hname
    have hnames : function.names = [x] := by
      cases function with
      | name => cases hx; rfl
      | _ => cases hx
    rw [toTerm, expectName_ok.2 hx]
    refine h.expectLayout.bind fun _ _ => (toTerms_meets harguments).bind fun terms hterms => ?_
    show x :: Term.namesAll terms = function.names ++ namesAll arguments
    rw [hnames, hterms, List.singleton_append]
  | .closure function captured typing, h => by
    obtain ⟨-, -, hfunction, hcaptured⟩ := printable_closure.1 h
    rw [toTerm]
    refine h.expectLayout.bind fun _ _ => (toTerm_meets hfunction).bind fun term hterm => ?_
    refine (toTerms_meets hcaptured).bind fun terms hterms => ?_
    show term.names ++ Term.namesAll terms = function.names ++ namesAll captured
    rw [hterm, hterms]

theorem toTerms_meets : ∀ {es : List Expr}, (∀ e ∈ es, Printable e) →
    Meets (fun _ => False) (fun terms => Term.namesAll terms = namesAll es) (toTerms es)
  | [], _ => rfl
  | e :: rest, h => by
    rw [toTerms]
    refine (toTerm_meets (h e List.mem_cons_self)).bind fun term hterm => ?_
    refine (toTerms_meets fun d hd => h d (List.mem_cons_of_mem e hd)).bind fun terms hterms => ?_
    show term.names ++ Term.namesAll terms = e.names ++ namesAll rest
    rw [hterm, hterms]

end

def IsTarget (e : Expr) : Prop := e.isName = true ∧ e.Printable

end Expr

namespace Stmt

mutual

/-- A statement of a procedure whose expressions can be printed and whose targets are as demanded.
-/
def Printable (target : Expr → Prop) : Stmt → Prop
  | .bind t value => target t ∧ value.Printable
  | .ret value => value.Printable
  | .branch test whenTrue whenFalse => test.Printable ∧ PrintableAll target whenTrue ∧ PrintableAll target whenFalse
  | .loop test body => test.Printable ∧ PrintableAll target body
  | _ => False

def PrintableAll (target : Expr → Prop) : List Stmt → Prop
  | [] => True
  | s :: rest => Printable target s ∧ PrintableAll target rest

end

variable {target : Expr → Prop}

theorem printableAll_iff {block : List Stmt} :
    PrintableAll target block ↔ ∀ s ∈ block, Printable target s := by
  induction block with
  | nil => simp [PrintableAll]
  | cons s rest ih => simp [PrintableAll, ih]

theorem printableAll_append {a b : List Stmt} :
    PrintableAll target (a ++ b) ↔ PrintableAll target a ∧ PrintableAll target b := by
  simp only [printableAll_iff, List.mem_append]
  exact ⟨fun h => ⟨fun s hs => h s (.inl hs), fun s hs => h s (.inr hs)⟩, fun h s hs => hs.elim (h.1 s) (h.2 s)⟩

end Stmt

structure Procedure.Printable (target : Expr → Prop) (procedure : Procedure) : Prop where
  name : procedure.name.IsTarget
  /-- The layout of the procedure is that of a function. -/
  result : ∀ layout, procedure.name.layout = some layout → ((Emission.openLayout layout).2.result?).isSome = true
  parameters : ∀ p ∈ procedure.parameters, p.IsTarget
  body : Stmt.PrintableAll target procedure.body

def Module.Printable (target : Expr → Prop) (module : Module) : Prop :=
  ∀ s ∈ module, ∃ p : Procedure, s = p.toStmt ∧ p.Printable target

/-- A pass that takes the procedures of a module one after the other. -/
theorem Module.Printable.pass {σ : Type} {target target' : Expr → Prop} {E : LoweringError → Prop}
    {K : σ → Prop} {module : Module} (pass : Module → Lower σ Module) (hnil : pass [] = pure [])
    (hcons : ∀ {p : Procedure} {rest}, p.Printable target → Preserves E K (pass rest) (Module.Printable target') →
      Preserves E K (pass (p.toStmt :: rest)) (Module.Printable target'))
    (h : module.Printable target) : Preserves E K (pass module) (Module.Printable target') := by
  induction module with
  | nil =>
    rw [hnil]
    exact .pure nofun
  | cons s rest ih =>
    obtain ⟨p, rfl, hp⟩ := h s List.mem_cons_self
    exact hcons hp (ih fun t ht => h t (List.mem_cons_of_mem _ ht))

end DataParallel
