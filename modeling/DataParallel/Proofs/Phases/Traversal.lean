import DataParallel.Lowering.Phases.Blocks
import DataParallel.Proofs.Phases.Derivation

/-! What goes through the analysis step by step.

A statement about two runs, in contexts that may differ, holds of the whole analysis if it holds of
the single changes of the state, as long as the expressions that are read and recorded are of one
kind. -/

namespace DataParallel.Phases

abbrev Judgement := ∀ {α : Type}, Analysis α → Analysis α → (α → Prop) → Prop

/-- The steps of the analysis. The state keeps to `inv`, what is read or recorded is `P`, and the
blocks and statements that come out of it are `Q` and `R`. -/
structure Steps (J : Judgement) (inv : State → Prop) (P : Expr → Prop) (Q : List Stmt → Prop) (R : Stmt → Prop)
    (Γ Γ' : Context) : Prop where
  pure {α : Type} {p : α → Prop} {a : α} : p a → J (Pure.pure a) (Pure.pure a) p
  bind {α β : Type} {p : α → Prop} {q : β → Prop} {x y : Analysis α} {f g : α → Analysis β} :
    J x y p → (∀ a, p a → J (f a) (g a) q) → J (x >>= f) (y >>= g) q
  mapM {α γ : Type} {p : α → Prop} {f g : γ → Analysis α} {cs : List γ} :
    (∀ c ∈ cs, J (f c) (g c) p) → J (cs.mapM f) (cs.mapM g) fun as => ∀ a ∈ as, p a
  get : J MonadState.get MonadState.get inv
  set {t : State} : inv t → J (MonadStateOf.set t) (MonadStateOf.set t) fun _ => True
  modifies {f : State → State} : (∀ s, inv s → inv (f s)) → J (modify f) (modify f) fun _ => True
  cyclic {α : Type} {p : α → Prop} (e : Expr) : J (cyclic e : Analysis α) (cyclic e) p
  malformed {α : Type} {p : α → Prop} (text reason : String) :
    J (throw (.malformedApplication text reason) : Analysis α) (throw (.malformedApplication text reason)) p
  unsettled {α : Type} {p : α → Prop} (text : String) :
    J (throw (.unsettledLoop text) : Analysis α) (throw (.unsettledLoop text)) p
  lookup {f : Expr} {es : List Expr} {typing : Typing} {callee : String} : P (.apply f es typing) →
    f.symbol? = some callee →
    J (liftM (Γ.registry.lookup callee)) (liftM (Γ'.registry.lookup callee)) fun _ => True
  current {s : State} {e : Expr} : inv s → P e → P (s.current e)
  fields {s : State} {x : String} {es : List Expr} : inv s → s.componentsOf? x = some es → ∀ e ∈ es, P e
  closure {s : State} {x : String} {e : Expr} : inv s → s.closureOf? x = some e → P e
  parts {k : Head} {es : List Expr} : P (k.build es) → ∀ e ∈ es, P e
  build {k : Head} {es ds : List Expr} : P (k.build es) → (∀ d ∈ ds, P d) → P (k.build ds)
  substitute {s : State} {x : String} {e : Expr} : inv s → P e → inv (s.substitute x e)
  realize {e : Expr} : P e → J (realize e) (realize e) P
  rebuildTuple {x : String} {e : Expr} {es : List Expr} : P e → (∀ d ∈ es, P d) →
    J (rebuildTuple x es e.typing) (rebuildTuple x es e.typing) P
  rebuildStored {x : String} {ty : Ty} {es : List Expr} : (∀ d ∈ es, P d) →
    J (Phases.rebuildTuple x es ⟨ty, (Expr.layouts? es).map Layout.tuple⟩)
      (Phases.rebuildTuple x es ⟨ty, (Expr.layouts? es).map Layout.tuple⟩) P
  rebuildClosure {x : String} {like e : Expr} : P like → P e →
    J (rebuildClosure x like e) (rebuildClosure x like e) P
  bindTemporary {entry : String} {e : Expr} {completion : Completion} : P e →
    J (bindTemporary entry e completion) (bindTemporary entry e completion) P
  storage {s : State} {e : Expr} : P e → J (liftM (storageOf s e)) (liftM (storageOf s e)) P
  takePending : J takePending takePending Q
  enter {s : State} : inv s → inv s.enter
  leave {s : State} : inv s → inv s.leave
  setCompletions {s : State} (completions : List (String × Completion)) : inv s → inv (s.setCompletions completions)
  invalidateAll {s : State} (names : List String) : inv s → inv (s.invalidateAll names)
  pending {s : State} {pending : List Stmt} : inv s → Q pending → inv { s with pending }
  supplies {s : State} {phases temporaries : Supply} : inv s → inv { s with phases, temporaries }
  branch {test : Expr} {whenTrue whenFalse : List Stmt} : P test → Q whenTrue → Q whenFalse →
    R (.branch test whenTrue whenFalse)
  loop {test : Expr} {body : List Stmt} : P test → Q body → R (.loop test body)
  entry : Γ.entry = Γ'.entry

/-- All functions of the analysis of expressions, with a number of steps. -/
structure Traverses (J : Judgement) (P : Expr → Prop) (Γ Γ' : Context) (n : Nat) : Prop where
  analyze {e : Expr} : P e → J (analyze Γ n e) (analyze Γ' n e) fun r => P r.1
  call {f : Expr} {es : List Expr} {typing : Typing} : P (.apply f es typing) →
    J (analyzeCall Γ n f es typing) (analyzeCall Γ' n f es typing) fun r => P r.1
  force {e : Expr} (demand : Ty) : P e → J (force Γ n e demand) (force Γ' n e demand) P
  named {e : Expr} (demand : Ty) : P e → J (forceName Γ n e demand) (forceName Γ' n e demand) P

namespace Steps
variable {J : Judgement} {inv : State → Prop} {P : Expr → Prop} {Q : List Stmt → Prop} {R : Stmt → Prop}
  {Γ Γ' : Context} {n : Nat} {e : Expr} {es : List Expr}

theorem joined {rs : List (Expr × Completion)} (h : ∀ r ∈ rs, P r.1) : ∀ e ∈ (joinAll rs).1, P e :=
  List.forall_mem_map.2 h

section
variable (C : Steps J inv P Q R Γ Γ') (h : Traverses J P Γ Γ' n)
include C h

theorem analyzeAll (hes : ∀ e ∈ es, P e) :
    J (es.mapM (analyze Γ n)) (es.mapM (analyze Γ' n)) fun rs => ∀ r ∈ rs, P r.1 :=
  C.mapM fun e he => h.analyze (hes e he)

theorem forceAll {demands : List Ty} (hes : ∀ e ∈ es, P e) :
    J ((es.zip demands).mapM fun (e, demand) => force Γ n e demand)
      ((es.zip demands).mapM fun (e, demand) => force Γ' n e demand) fun ds => ∀ d ∈ ds, P d :=
  C.mapM fun r hr => h.force r.2 (hes r.1 (List.of_mem_zip hr).1)

theorem succ_analyze (he : P e) :
    J (analyze Γ (n + 1) e) (analyze Γ' (n + 1) e) fun r => P r.1 := by
  cases e with
  | name => exact C.bind C.get fun s hs => C.pure (C.current hs he)
  | literal => exact C.pure he
  | tuple es typing =>
    exact C.bind (C.analyzeAll h (C.parts (k := .tuple typing) he)) fun rs hrs =>
      C.pure (C.build (k := .tuple typing) he (joined hrs))
  | closure f es typing =>
    exact C.bind (C.analyzeAll h (C.parts (k := .closure f typing) he)) fun rs hrs =>
      C.pure (C.build (k := .closure f typing) he (joined hrs))
  | apply => exact h.call he

theorem succ_call {f : Expr} {typing : Typing} (he : P (.apply f es typing)) :
    J (analyzeCall Γ (n + 1) f es typing) (analyzeCall Γ' (n + 1) f es typing) fun r => P r.1 := by
  have hes := C.parts (k := .call f typing) he
  have called : ∀ {ds : List Expr}, (∀ d ∈ ds, P d) → P (.apply f ds typing) := C.build (k := .call f typing) he
  rw [analyzeCall, analyzeCall]
  split
  · exact C.malformed _ _
  rename_i callee hcallee
  split
  · exact C.bind (C.analyzeAll h hes) fun rs hrs => C.pure (called (joined hrs))
  split
  · exact C.bind (C.analyzeAll h hes) fun rs hrs => C.bind C.get fun s _ => C.pure (called (joined hrs))
  split
  · exact C.bind (C.analyzeAll h hes) fun rs hrs => C.pure (called (joined hrs))
  refine C.bind (C.lookup he hcallee) fun signature _ => ?_
  split
  · exact C.malformed _ _
  split
  · exact C.bind (C.forceAll h hes) fun ds hds => C.pure (called hds)
  · exact C.bind (C.analyzeAll h hes) fun rs hrs => C.pure (called (joined hrs))
  · exact C.bind (C.analyzeAll h hes) fun rs hrs => C.pure (called (joined hrs))

theorem succ_force (demand : Ty) (he : P e) :
    J (force Γ (n + 1) e demand) (force Γ' (n + 1) e demand) P := by
  cases e with
  | name x typing =>
    refine C.bind C.get fun s hs => C.bind (h.named demand (C.current hs he)) fun forced hforced => ?_
    dsimp only
    split
    · exact C.bind (C.modifies fun s hs => C.substitute hs hforced) fun _ _ => C.pure hforced
    · exact C.pure hforced
  | literal => exact C.pure he
  | tuple es typing =>
    exact C.bind (C.forceAll h (C.parts (k := .tuple typing) he)) fun ds hds =>
      C.pure (C.build (k := .tuple typing) he hds)
  | closure f es typing =>
    exact C.bind (C.mapM fun d hd => h.force d.ty (C.parts (k := .closure f typing) he d hd)) fun ds hds =>
      C.pure (C.build (k := .closure f typing) he hds)
  | apply f es typing =>
    refine C.bind (h.call he) fun r hr => ?_
    dsimp only
    rw [C.entry]
    split
    · exact C.bind (C.bindTemporary hr) fun _ => h.named demand
    · exact C.pure hr

theorem succ_named (demand : Ty) (he : P e) :
    J (forceName Γ (n + 1) e demand) (forceName Γ' (n + 1) e demand) P := by
  rw [forceName, forceName]
  split
  · exact C.pure he
  refine C.bind C.get fun s hs => ?_
  split
  · rename_i closure hclosure
    refine C.bind (h.force closure.ty (C.closure hs hclosure)) fun forced hforced => ?_
    split
    · exact C.pure he
    · exact C.rebuildClosure he hforced
  dsimp only
  split
  · exact C.pure he
  split
  · rename_i fields hfields
    refine C.bind (C.forceAll h (C.fields hs hfields)) fun forced hforced => ?_
    split
    · exact C.pure he
    · exact C.rebuildTuple he hforced
  · split
    · exact C.realize he
    · exact C.pure he

end

section
variable (C : Steps J inv P Q R Γ Γ')
include C

theorem traverses (n : Nat) : Traverses J P Γ Γ' n := by
  induction n with
  | zero => exact ⟨fun _ => C.cyclic _, fun _ => C.cyclic _, fun _ _ => C.cyclic _, fun _ _ => C.cyclic _⟩
  | succ n ih => exact ⟨C.succ_analyze ih, C.succ_call ih, C.succ_force ih, C.succ_named ih⟩

theorem analyzeValue (he : P e) : J (analyzeValue Γ e) (analyzeValue Γ' e) fun r => P r.1 :=
  C.bind C.get fun _ _ => (C.traverses _).analyze he

theorem forceReturned (n : Nat) (he : P e) : J (forceReturned Γ n e) (forceReturned Γ' n e) P := by
  induction n generalizing e with
  | zero => exact C.cyclic e
  | succ n ih =>
    cases e with
    | name x typing =>
      refine C.bind C.get fun s hs => ?_
      have hcurrent := C.current hs he
      dsimp only
      split
      · exact C.pure hcurrent
      split
      · exact C.pure hcurrent
      split
      · rename_i fields hfields
        refine C.bind (C.mapM fun d hd => ih (C.fields hs hfields d hd)) fun forced hforced => ?_
        refine C.bind C.get fun t _ => ?_
        split
        · exact C.pure hcurrent
        · exact C.bind (C.mapM fun d hd => C.storage (hforced d hd)) fun _ => C.rebuildStored
      · split
        · exact C.realize hcurrent
        · exact C.pure hcurrent
    | literal => exact C.pure he
    | tuple es typing =>
      exact C.bind (C.mapM fun d hd => ih (C.parts (k := .tuple typing) he d hd)) fun ds hds =>
        C.pure (C.build (k := .tuple typing) he hds)
    | closure => exact C.bind ((C.traverses n).analyze he) fun r hr => C.pure hr
    | apply f es typing =>
      refine C.bind ((C.traverses n).call he) fun r hr => ?_
      dsimp only
      rw [C.entry]
      split
      · exact C.pure hr
      · exact C.bind (C.bindTemporary hr) fun _ => ih

theorem inScope {α : Type} {x y : Analysis α} {p : α → Prop} (h : J x y p) :
    J (inScope x) (inScope y) fun r => p r.1 :=
  C.bind (C.modifies fun _ => C.enter) fun _ _ => C.bind h fun _ ha => C.bind C.get fun _ hs =>
    C.bind (C.set (C.leave hs)) fun _ _ => C.pure ha

theorem analyzeBranch {whenTrue whenFalse y z : Analysis (List Stmt)} (he : P e)
    (htrue : J whenTrue y Q) (hfalse : J whenFalse z Q) :
    J (analyzeBranch Γ e whenTrue whenFalse) (analyzeBranch Γ' e y z) R := by
  refine C.bind (C.analyzeValue he) fun r hr => C.bind C.takePending fun pending hpending => ?_
  refine C.bind (C.inScope htrue) fun a ha => C.bind (C.inScope hfalse) fun b hb => ?_
  refine C.bind (C.modifies fun s hs => ?_) fun _ _ => C.pure (C.branch hr ha hb)
  exact C.pending (C.invalidateAll _ (C.setCompletions _ hs)) hpending

theorem settle (test : Expr) (phases temporaries : Supply) {body body' : Analysis (List Stmt)}
    (hbody : J body body' Q)
    (n : Nat) (head : Table Completion) : J (settle test phases temporaries body n head)
      (settle test phases temporaries body' n head) fun r => Q r.1 := by
  induction n generalizing head with
  | zero => exact C.unsettled _
  | succ n ih =>
    refine C.bind (C.modifies fun _ => C.supplies) fun _ _ => ?_
    have trip := C.inScope (C.bind (C.modifies fun _ => C.setCompletions head.entries) fun _ _ => hbody)
    refine C.bind trip fun r hr => C.bind C.get fun s _ => ?_
    dsimp only
    split
    · exact C.pure hr
    · exact ih _

theorem analyzeLoop {body : List Stmt} {steps y : Analysis (List Stmt)} (he : P e)
    (hsteps : J steps y Q) : J (analyzeLoop Γ e body steps) (analyzeLoop Γ' e body y) R := by
  refine C.bind (C.modifies fun _ => C.invalidateAll _) fun _ _ => ?_
  refine C.bind (C.analyzeValue he) fun r hr => C.bind C.takePending fun pending hpending => ?_
  refine C.bind C.get fun s _ => C.bind (C.settle _ _ _ hsteps _ _) fun r' hr' => ?_
  exact C.bind (C.modifies fun s hs => C.pending (C.setCompletions _ hs) hpending) fun _ _ => C.pure (C.loop hr hr')

end

end Steps

end DataParallel.Phases
