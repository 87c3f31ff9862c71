import DataParallel.Lowering.Phases.Forcing
import DataParallel.Proofs.Steps

/-! What analysing and forcing can do, as a relation.

Every f of the analysis takes a number of steps it may still go down, and all of them change
the state in four ways only: a name is realized, a tuple or a closure is rebuilt, or a call is bound
to a temporary. `Derives` says how these steps follow from one another, and leaves the numbers
behind. -/

namespace DataParallel.Phases

open Lower Name

variable {s s' t : State} {e : Expr} {typing : Typing} {r : Expr × Completion}

namespace State

def boundary (s : State) (x : String) (value : Expr) (typing : Typing) : Stmt :=
  .bind (.name (s.phases.derive x).1 typing) (.applySnippet Snippet.phaseBoundary [value] typing)

def realized (s : State) (x : String) (value : Expr) (typing : Typing) : State :=
  let realized := Expr.name (s.phases.derive x).1 typing
  ((((s.freshPhase x).2.pend realized
    (.applySnippet Snippet.phaseBoundary [value] typing)).setCompletion (s.phases.derive x).1
    .complete).setCompletion x .complete).substitute x realized

def tupleBind (s : State) (x : String) (fields : List Expr) (typing : Typing) : Stmt :=
  .bind (.name (s.phases.derive x).1 typing) (.applySnippet Snippet.makeTuple fields typing)

def rebuilt (s : State) (x : String) (fields : List Expr) (typing : Typing) : State :=
  let rebuilt := Expr.name (s.phases.derive x).1 typing
  let completion := Completion.all (s.completionsOfValues fields)
  let s' := (((s.freshPhase x).2.pend rebuilt
    (.applySnippet Snippet.makeTuple fields typing)).setCompletion (s.phases.derive x).1
    completion).setCompletion x completion
  { s' with components := s'.components.insert (s.phases.derive x).1 (some fields) }.substitute x rebuilt

def closureBind (s : State) (x : String) (like closure : Expr) : Stmt :=
  .bind (like.renamed (s.phases.derive x).1) closure

def reclosed (s : State) (x : String) (like closure : Expr) : State :=
  let s' := ((s.freshPhase x).2.pend (like.renamed (s.phases.derive x).1) closure).setCompletion
    (s.phases.derive x).1 .complete
  { s' with closures := s'.closures.insert (s.phases.derive x).1 (some closure) }

def hoist (s : State) (value : Expr) : Stmt := .bind (value.renamed s.temporaries.next.1) value

def hoisted (s : State) (entry : String) (value : Expr) (completion : Completion) : State :=
  (s.freshTemporary.2.pend (value.renamed s.temporaries.next.1) value).record entry s.temporaries.next.1
    value completion

end State

theorem completionsOfValues_congr (h : s.completions = t.completions) (es : List Expr) :
    s.completionsOfValues es = t.completionsOfValues es := by
  induction es using Expr.list_induction with
  | nil => rfl
  | cons e es ihe ih => cases e <;> simp_all [State.completionsOfValues, State.completionOfValue, State.completionOf]
variable {value : Expr} {x : String}

theorem realize_ok (h : (realize value).run s = .ok (e, s')) :
    ∃ x layout, value.symbol? = some x ∧ value.layout = some layout ∧
      e = .name (s.phases.derive x).1 ⟨value.ty, some layout.containerForm⟩ ∧
      s' = s.realized x value ⟨value.ty, some layout.containerForm⟩ := by
  simp only [realize, run_bind_ok_iff] at h
  obtain ⟨x, _, hx, layout, _, hl, _, _, hfresh, _, _, hmodify, h⟩ := h
  obtain ⟨hname, rfl⟩ := run_lift_ok_iff.1 hx
  obtain ⟨hlayout, rfl⟩ := run_lift_ok_iff.1 hl
  cases hfresh
  cases hmodify
  cases h
  exact ⟨x, layout, Expr.expectName_ok.1 hname, Expr.expectLayout_ok.1 hlayout, rfl, rfl⟩

theorem rebuildTuple_ok {fields : List Expr}
    (h : (rebuildTuple x fields typing).run s = .ok (e, s')) :
    e = .name (s.phases.derive x).1 typing ∧ s' = s.rebuilt x fields typing := by
  simp only [rebuildTuple, run_bind_ok_iff] at h
  obtain ⟨_, _, hfresh, _, _, hmodify, h⟩ := h
  cases hfresh
  cases hmodify
  cases h
  have hsame : (s.freshPhase x).2.completions = s.completions := rfl
  have hc := completionsOfValues_congr hsame fields
  refine ⟨rfl, ?_⟩
  simp only [State.rebuilt, ← hc]
  rfl

theorem rebuildClosure_ok {like closure : Expr}
    (h : (rebuildClosure x like closure).run s = .ok (e, s')) :
    e = like.renamed (s.phases.derive x).1 ∧ s' = s.reclosed x like closure := by
  simp only [rebuildClosure, run_bind_ok_iff] at h
  obtain ⟨_, _, hfresh, _, _, hmodify, h⟩ := h
  cases hfresh
  cases hmodify
  cases h
  exact ⟨rfl, rfl⟩

theorem bindTemporary_ok {entry : String} {completion : Completion}
    (h : (bindTemporary entry value completion).run s = .ok (e, s')) :
    e = value.renamed s.temporaries.next.1 ∧ s' = s.hoisted entry value completion := by
  simp only [bindTemporary, run_bind_ok_iff] at h
  obtain ⟨_, _, hfresh, _, _, hmodify, h⟩ := h
  cases hfresh
  cases hmodify
  cases h
  exact ⟨rfl, rfl⟩

inductive Head where
  | tuple (typing : Typing)
  | closure (f : Expr) (typing : Typing)
  | call (f : Expr) (typing : Typing)

def Head.build : Head → List Expr → Expr
  | .tuple typing, parts => .tuple parts typing
  | .closure f typing, parts => .closure f parts typing
  | .call f typing, parts => .apply f parts typing

def Head.partDemands? (demand : Ty) (parts : List Expr) : Head → Option (List Ty)
  | .tuple typing => some (fieldDemands (resolveDemand demand typing.ty) parts)
  | .closure .. => some (parts.map Expr.ty)
  | .call .. => none

/-- The completion of a tuple, a closure or a call that forces nothing; `results` are its analysed
parts and `s` is the state behind them. -/
inductive Joins (Γ : Context) (s : State) (results : List (Expr × Completion)) :
    Head → List Expr → Completion → Prop where
  | tuple {typing : Typing} {parts : List Expr} :
      Joins Γ s results (.tuple typing) parts (Completion.all (results.map Prod.snd))
  | closure {f : Expr} {typing : Typing} {parts : List Expr} :
      Joins Γ s results (.closure f typing) parts .complete
  | makeTuple {f : Expr} {typing : Typing} {parts : List Expr} : f.symbol? = some Snippet.makeTuple →
      Joins Γ s results (.call f typing) parts (Completion.all (results.map Prod.snd))
  | project {f : Expr} {typing : Typing} {parts : List Expr} {callee : String} {index : Nat} :
      f.symbol? = some callee → callee ≠ Snippet.makeTuple →
      Snippet.projection? callee = some index →
      Joins Γ s results (.call f typing) parts
        ((((results.map Prod.fst).head?.bind fun source => source.symbol?.bind fun symbol =>
          (s.componentsOf? symbol).bind (·[index]?)).map s.completionOfValue).getD
          (Completion.all (results.map Prod.snd)))
  | stored {f : Expr} {typing : Typing} {parts : List Expr} {callee : String} : f.symbol? = some callee →
      callee = Snippet.phaseBoundary ∨ callee = Snippet.makeSequence →
      Joins Γ s results (.call f typing) parts .complete
  | propagates {f : Expr} {typing : Typing} {parts : List Expr} {callee : String} {signature : Signature} :
      f.symbol? = some callee → Snippet.isSnippet callee = false →
      Γ.registry.get? callee = some signature → signature.synchronization = .propagates →
      (signature.ty.instantiate? (parts.map Expr.ty)).isSome = true →
      Joins Γ s results (.call f typing) parts (if typing.ty.isAggregate then .incomplete else .complete)
  | inert {f : Expr} {typing : Typing} {parts : List Expr} {callee : String} {signature : Signature} :
      f.symbol? = some callee → Snippet.isSnippet callee = false →
      Γ.registry.get? callee = some signature → signature.synchronization = .inert →
      (signature.ty.instantiate? (parts.map Expr.ty)).isSome = true →
      Joins Γ s results (.call f typing) parts .complete

inductive Task where
  /-- To read an expression. -/
  | value (e : Expr)
  /-- To make an expression complete. -/
  | demand (e : Expr) (demand : Ty)
  /-- To make complete what a name stands for. -/
  | named (e : Expr) (demand : Ty)
  /-- To hand an expression back to the caller of the entry procedure. -/
  | returned (e : Expr)
  | all (tasks : List Task)

def State.Meets (s : State) (e : Expr) (demand : Ty) : Prop :=
  ∀ x, e.symbol? = some x → s.closureOf? x = none ∧ ((resolveDemand demand e.ty).isAggregate = true →
      s.componentsOf? x = none ∧ s.completionOf x ≠ .incomplete)

/-- The expression that stands for `x` may be handed back as it is. -/
def State.Settles (s : State) (x : String) (e : Expr) : Prop :=
  x ∈ s.selfResults ∨ ∀ y, e.symbol? = some y →
    s.componentsOf? y = none ∧ s.completionOf y ≠ .incomplete ∧ s.isBacked e = true

/-- Reads names through what stands for them and forces what calls demand: `Derives context task s
results binds s'` says that a task takes the state from `s` to `s'` and puts `binds` in front of the
current statement, with one result for each of its expressions. What is forced counts as complete.
-/
inductive Derives (Γ : Context) : Task → State → List (Expr × Completion) → List Stmt → State → Prop where
  | nil (s : State) : Derives Γ (.all []) s [] [] s
  | cons {task : Task} {tasks : List Task} {s s₁ s₂ : State} {result : Expr × Completion}
      {results : List (Expr × Completion)} {binds binds' : List Stmt} :
      Derives Γ task s [result] binds s₁ → Derives Γ (.all tasks) s₁ results binds' s₂ →
      Derives Γ (.all (task :: tasks)) s (result :: results) (binds ++ binds') s₂
  | name (s : State) (x : String) (typing : Typing) : Derives Γ (.value (.name x typing)) s
        [(s.current (.name x typing), s.completionOfValue (s.current (.name x typing)))] [] s
  | literal (s : State) (text : String) (typing : Typing) :
      Derives Γ (.value (.literal text typing)) s [(.literal text typing, .complete)] [] s
  | node {head : Head} {parts : List Expr} {s s' : State} {results : List (Expr × Completion)}
      {completion : Completion} {binds : List Stmt} :
      Derives Γ (.all (parts.map .value)) s results binds s' →
      Joins Γ s' results head parts completion →
      Derives Γ (.value (head.build parts)) s [(head.build (results.map Prod.fst), completion)] binds s'
  | forcing {f : Expr} {arguments : List Expr} (typing : Typing) {s s' : State}
      {results : List (Expr × Completion)} {callee : String} {signature : Signature}
      {parameters : List Ty} {result : Ty} {binds : List Stmt} :
      f.symbol? = some callee → Snippet.isSnippet callee = false →
      Γ.registry.get? callee = some signature → signature.synchronization = .forces →
      signature.ty.instantiate? (arguments.map Expr.ty) = some (parameters, result) →
      Derives Γ (.all (List.zipWith .demand arguments parameters)) s results binds s' →
      Derives Γ (.value (.apply f arguments typing)) s
        [(.apply f (results.map Prod.fst) typing, .complete)] binds s'
  | demandName {x : String} {typing : Typing} {demand : Ty} {s s' : State} {e : Expr} {binds : List Stmt} :
      Derives Γ (.named (s.current (.name x typing)) demand) s [(e, .complete)] binds s' →
      Derives Γ (.demand (.name x typing) demand) s [(e, .complete)] binds
        (if e ≠ s.current (.name x typing) then s'.substitute x e else s')
  | demandLiteral (s : State) (text : String) (typing : Typing) (demand : Ty) :
      Derives Γ (.demand (.literal text typing) demand) s [(.literal text typing, .complete)] [] s
  | demandNode {head : Head} {parts : List Expr} {demand : Ty} {demands : List Ty} {s s' : State}
      {results : List (Expr × Completion)} {binds : List Stmt} :
      head.partDemands? demand parts = some demands →
      Derives Γ (.all (List.zipWith .demand parts demands)) s results binds s' →
      Derives Γ (.demand (head.build parts) demand) s [(head.build (results.map Prod.fst), .complete)] binds s'
  | demandCall {f : Expr} {arguments : List Expr} {typing : Typing} {demand : Ty} {s s' : State}
      {value : Expr} {completion : Completion} {binds : List Stmt} :
      Derives Γ (.value (.apply f arguments typing)) s [(value, completion)] binds s' →
      (completion = .incomplete → (resolveDemand demand value.ty).isAggregate = false) →
      Derives Γ (.demand (.apply f arguments typing) demand) s [(value, .complete)] binds s'
  | demandHoisted {f : Expr} {arguments : List Expr} {typing : Typing} {demand : Ty}
      {s s₁ s₂ : State} {value e : Expr} {binds binds' : List Stmt} :
      Derives Γ (.value (.apply f arguments typing)) s [(value, .incomplete)] binds s₁ →
      (resolveDemand demand value.ty).isAggregate = true →
      Derives Γ (.named (value.renamed s₁.temporaries.next.1) demand)
        (s₁.hoisted Γ.entry value .incomplete) [(e, .complete)] binds' s₂ →
      Derives Γ (.demand (.apply f arguments typing) demand) s [(e, .complete)]
        (binds ++ s₁.hoist value :: binds') s₂
  | met {e : Expr} {demand : Ty} {s : State} :
      s.Meets e demand → Derives Γ (.named e demand) s [(e, .complete)] [] s
  | closureKept {e closure : Expr} {demand : Ty} {x : String} {s s' : State} {binds : List Stmt} :
      e.symbol? = some x → s.closureOf? x = some closure →
      Derives Γ (.demand closure closure.ty) s [(closure, .complete)] binds s' →
      Derives Γ (.named e demand) s [(e, .complete)] binds s'
  | closureRebuilt {e closure forced : Expr} {demand : Ty} {x : String} {s s' : State} {binds : List Stmt} :
      e.symbol? = some x → s.closureOf? x = some closure →
      Derives Γ (.demand closure closure.ty) s [(forced, .complete)] binds s' → forced ≠ closure →
      Derives Γ (.named e demand) s [(e.renamed (s'.phases.derive x).1, .complete)]
        (binds ++ [s'.closureBind x e forced]) (s'.reclosed x e forced)
  | tupleKept {e : Expr} {demand : Ty} {x : String} {fields : List Expr} {s s' : State}
      {results : List (Expr × Completion)} {binds : List Stmt} :
      e.symbol? = some x → s.closureOf? x = none → (resolveDemand demand e.ty).isAggregate = true →
      s.componentsOf? x = some fields →
      Derives Γ (.all (List.zipWith .demand fields (fieldDemands (resolveDemand demand e.ty) fields))) s
        results binds s' →
      results.map Prod.fst = fields →
      Derives Γ (.named e demand) s [(e, .complete)] binds s'
  | tupleRebuilt {e : Expr} {demand : Ty} {x : String} {fields : List Expr} {s s' : State}
      {results : List (Expr × Completion)} {binds : List Stmt} :
      e.symbol? = some x → s.closureOf? x = none → (resolveDemand demand e.ty).isAggregate = true →
      s.componentsOf? x = some fields →
      Derives Γ (.all (List.zipWith .demand fields (fieldDemands (resolveDemand demand e.ty) fields))) s
        results binds s' →
      results.map Prod.fst ≠ fields →
      Derives Γ (.named e demand) s [(.name (s'.phases.derive x).1 e.typing, .complete)]
        (binds ++ [s'.tupleBind x (results.map Prod.fst) e.typing])
        (s'.rebuilt x (results.map Prod.fst) e.typing)
  | realized {e : Expr} {demand : Ty} {x : String} {layout : Layout} {s : State} :
      e.symbol? = some x → s.closureOf? x = none → (resolveDemand demand e.ty).isAggregate = true →
      s.componentsOf? x = none → s.completionOf x = .incomplete → e.layout = some layout →
      Derives Γ (.named e demand) s [(.name (s.phases.derive x).1 ⟨e.ty, some layout.containerForm⟩, .complete)]
        [s.boundary x e ⟨e.ty, some layout.containerForm⟩]
        (s.realized x e ⟨e.ty, some layout.containerForm⟩)
  | returnedName {s : State} {x : String} {typing : Typing} : s.Settles x (s.current (.name x typing)) →
      Derives Γ (.returned (.name x typing)) s [(s.current (.name x typing), .complete)] [] s
  | returnedRealized {s : State} {x y : String} {typing : Typing} {layout : Layout} :
      x ∉ s.selfResults → (s.current (.name x typing)).symbol? = some y → s.componentsOf? y = none →
      s.completionOf y = .incomplete ∨ s.isBacked (s.current (.name x typing)) = false →
      (s.current (.name x typing)).layout = some layout →
      Derives Γ (.returned (.name x typing)) s
        [(.name (s.phases.derive y).1 ⟨(s.current (.name x typing)).ty, some layout.containerForm⟩, .complete)]
        [s.boundary y (s.current (.name x typing)) ⟨(s.current (.name x typing)).ty, some layout.containerForm⟩]
        (s.realized y (s.current (.name x typing)) ⟨(s.current (.name x typing)).ty, some layout.containerForm⟩)
  | returnedTupleKept {s s' : State} {x y : String} {typing : Typing} {fields : List Expr}
      {results : List (Expr × Completion)} {binds : List Stmt} :
      x ∉ s.selfResults → (s.current (.name x typing)).symbol? = some y →
      s.componentsOf? y = some fields →
      Derives Γ (.all (fields.map .returned)) s results binds s' →
      results.map Prod.fst = fields → s'.isBacked (s.current (.name x typing)) = true →
      Derives Γ (.returned (.name x typing)) s [(s.current (.name x typing), .complete)] binds s'
  | returnedTupleRebuilt {s s' : State} {x y : String} {typing : Typing} {fields stored : List Expr}
      {layout : Option Layout} {results : List (Expr × Completion)} {binds : List Stmt} :
      x ∉ s.selfResults → (s.current (.name x typing)).symbol? = some y →
      s.componentsOf? y = some fields →
      Derives Γ (.all (fields.map .returned)) s results binds s' →
      ¬ (results.map Prod.fst = fields ∧ s'.isBacked (s.current (.name x typing)) = true) →
      (results.map Prod.fst).mapM (storageOf s') = .ok stored →
      Derives Γ (.returned (.name x typing)) s
        [(.name (s'.phases.derive y).1 ⟨(s.current (.name x typing)).ty, layout⟩, .complete)]
        (binds ++ [s'.tupleBind y stored ⟨(s.current (.name x typing)).ty, layout⟩])
        (s'.rebuilt y stored ⟨(s.current (.name x typing)).ty, layout⟩)
  | returnedLiteral (s : State) (text : String) (typing : Typing) :
      Derives Γ (.returned (.literal text typing)) s [(.literal text typing, .complete)] [] s
  | returnedTuple {elements : List Expr} {t : Typing} {s s' : State}
      {results : List (Expr × Completion)} {binds : List Stmt} :
      Derives Γ (.all (elements.map .returned)) s results binds s' →
      Derives Γ (.returned (.tuple elements t)) s [(.tuple (results.map Prod.fst) t, .complete)] binds s'
  | returnedClosure {f : Expr} {captured : List Expr} {typing : Typing} {s s' : State}
      {value : Expr} {completion : Completion} {binds : List Stmt} :
      Derives Γ (.value (.closure f captured typing)) s [(value, completion)] binds s' →
      Derives Γ (.returned (.closure f captured typing)) s [(value, .complete)] binds s'
  | returnedCall {f : Expr} {arguments : List Expr} {typing : Typing} {s s' : State}
      {value : Expr} {completion : Completion} {binds : List Stmt} :
      Derives Γ (.value (.apply f arguments typing)) s [(value, completion)] binds s' →
      f.symbol? = some Γ.entry ∨ value.needsContainer = false →
      Derives Γ (.returned (.apply f arguments typing)) s [(value, .complete)] binds s'
  | returnedHoisted {f : Expr} {arguments : List Expr} {typing : Typing} {s s₁ s₂ : State}
      {value e : Expr} {completion : Completion} {binds binds' : List Stmt} :
      Derives Γ (.value (.apply f arguments typing)) s [(value, completion)] binds s₁ →
      f.symbol? ≠ some Γ.entry → value.needsContainer = true →
      Derives Γ (.returned (value.renamed s₁.temporaries.next.1))
        (s₁.hoisted Γ.entry value completion) [(e, .complete)] binds' s₂ →
      Derives Γ (.returned (.apply f arguments typing)) s [(e, .complete)]
        (binds ++ s₁.hoist value :: binds') s₂

def Runs (Γ : Context) (task : Task) (s : State) (results : List (Expr × Completion)) (s' : State) : Prop :=
  ∃ binds, Derives Γ task s results binds s'

theorem map_fst_forced (results : List Expr) :
    (results.map (·, Completion.complete)).map Prod.fst = results := by
  simp [Function.comp_def]

section Steps
variable {Γ : Context} {es results : List Expr} {r : Expr} {demand : Ty}

theorem tasks_run {γ δ : Type} {f : γ → Analysis δ} (task : γ → Task)
    (result : δ → Expr × Completion)
    (ih : ∀ {e s r s'}, (f e).run s = .ok (r, s') → Runs Γ (task e) s [result r] s') {es : List γ}
    {results : List δ} (h : (es.mapM f).run s = .ok (results, s')) :
    Runs Γ (.all (es.map task)) s (results.map result) s' := by
  induction es generalizing s results with
  | nil =>
    obtain ⟨rfl, rfl⟩ := run_mapM_nil_ok h
    exact ⟨[], .nil _⟩
  | cons e es ihs =>
    obtain ⟨r, s₁, rs, hr, hrs, rfl⟩ := run_mapM_cons_ok h
    obtain ⟨binds, hd⟩ := ih hr
    obtain ⟨binds', hds⟩ := ihs hrs
    exact ⟨_, .cons hd hds⟩

theorem values_run {f : Expr → Analysis (Expr × Completion)}
    (ih : ∀ {e s r s'}, (f e).run s = .ok (r, s') → Runs Γ (.value e) s [r] s')
    {results : List (Expr × Completion)}
    (h : (es.mapM f).run s = .ok (results, s')) : Runs Γ (.all (es.map .value)) s results s' := by
  simpa using tasks_run .value id ih h

theorem demands_run {f : Expr → Ty → Analysis Expr}
    (ih : ∀ {e d s r s'}, (f e d).run s = .ok (r, s') → Runs Γ (.demand e d) s [(r, .complete)] s') {ds : List Ty}
    (h : ((es.zip ds).mapM fun p => f p.1 p.2).run s = .ok (results, s')) :
    Runs Γ (.all (List.zipWith .demand es ds)) s (results.map (·, .complete)) s' := by
  rw [← List.map_uncurry_zip_eq_zipWith]
  exact tasks_run (Function.uncurry Task.demand) (·, .complete) ih h

variable {n : Nat}

theorem analyze_runs
    (ih : ∀ {e s r s'}, (analyze Γ n e).run s = .ok (r, s') → Runs Γ (.value e) s [r] s')
    (ihCall : ∀ {f es t s r s'}, (analyzeCall Γ n f es t).run s = .ok (r, s') →
      Runs Γ (.value (.apply f es t)) s [r] s') {r : Expr × Completion}
    (h : (analyze Γ (n + 1) e).run s = .ok (r, s')) : Runs Γ (.value e) s [r] s' := by
  cases e with
  | name x typing =>
    simp only [analyze, run_bind_ok_iff] at h
    obtain ⟨_, _, hget, h⟩ := h
    cases hget
    cases h
    exact ⟨[], .name s x typing⟩
  | literal text typing =>
    cases h
    exact ⟨[], .literal s text typing⟩
  | tuple elements typing =>
    simp only [analyze, run_bind_ok_iff] at h
    obtain ⟨results, s₁, hmap, h⟩ := h
    cases h
    obtain ⟨binds, hall⟩ := values_run ih hmap
    exact ⟨binds, @Derives.node Γ (.tuple typing) elements _ _ _ _ _ hall .tuple⟩
  | closure function captured typing =>
    simp only [analyze, run_bind_ok_iff] at h
    obtain ⟨results, s₁, hmap, h⟩ := h
    cases h
    obtain ⟨binds, hall⟩ := values_run ih hmap
    exact ⟨binds, @Derives.node Γ (.closure function typing) captured _ _ _ _ _ hall .closure⟩
  | apply function arguments typing => exact ihCall h

theorem lookup_ok {registry : Registry} {name : String} {signature : Signature}
    (h : registry.lookup name = .ok signature) : registry.get? name = some signature := by
  unfold Registry.lookup at h
  split at h
  · cases h; assumption
  · cases h

theorem analyzeCall_runs
    (ih : ∀ {e s r s'}, (analyze Γ n e).run s = .ok (r, s') → Runs Γ (.value e) s [r] s')
    (ihForce : ∀ {e d s r s'}, (force Γ n e d).run s = .ok (r, s') →
      Runs Γ (.demand e d) s [(r, .complete)] s') {f : Expr} {arguments : List Expr}
    {r : Expr × Completion} (h : (analyzeCall Γ (n + 1) f arguments typing).run s = .ok (r, s')) :
    Runs Γ (.value (.apply f arguments typing)) s [r] s' := by
  -- a call that forces nothing is read part by part
  have plain : ∀ {t t' : State} {results : List (Expr × Completion)} {completion : Completion},
      (arguments.mapM (analyze Γ n)).run t = .ok (results, t') →
      Joins Γ t' results (.call f typing) arguments completion →
      Runs Γ (.value (.apply f arguments typing)) t
        [(.apply f (results.map Prod.fst) typing, completion)] t' := by
    intro t t' results completion hmap hjoins
    obtain ⟨binds, hall⟩ := values_run ih hmap
    exact ⟨binds, @Derives.node Γ (.call f typing) arguments _ _ _ _ _ hall hjoins⟩
  simp only [analyzeCall] at h
  split at h
  · cases h
  rename_i callee hcallee
  split at h
  · rename_i hmake
    simp only [run_bind_ok_iff] at h
    obtain ⟨results, s₁, hmap, h⟩ := h
    cases h
    exact plain hmap (.makeTuple (hmake ▸ hcallee))
  rename_i hmake
  split at h
  · rename_i index hindex
    simp only [run_bind_ok_iff] at h
    obtain ⟨results, s₁, hmap, _, _, hget, h⟩ := h
    cases hget
    cases h
    exact plain hmap (.project hcallee hmake hindex)
  rename_i hindex
  split at h
  · rename_i hstored
    simp only [run_bind_ok_iff] at h
    obtain ⟨results, s₁, hmap, h⟩ := h
    cases h
    exact plain hmap (.stored hcallee (by simpa using hstored))
  rename_i hstored
  have hsnippet : Snippet.isSnippet callee = false := by simp_all [Snippet.isSnippet]
  simp only [run_bind_ok_iff] at h
  obtain ⟨signature, _, hlookup, h⟩ := h
  obtain ⟨hfound, rfl⟩ := run_lift_ok_iff.1 hlookup
  have hsignature := lookup_ok hfound
  split at h
  · cases h
  rename_i parameters result hinstance
  have hfits := Option.isSome_iff_exists.2 ⟨_, hinstance⟩
  split at h
  · rename_i hsync
    simp only [run_bind_ok_iff] at h
    obtain ⟨results, s₁, hmap, h⟩ := h
    cases h
    obtain ⟨binds, hall⟩ := demands_run ihForce hmap
    have hd := Derives.forcing typing hcallee hsnippet hsignature hsync hinstance hall
    exact ⟨binds, by rwa [map_fst_forced] at hd⟩
  · rename_i hsync
    simp only [run_bind_ok_iff] at h
    obtain ⟨results, s₁, hmap, h⟩ := h
    cases h
    exact plain hmap (.propagates hcallee hsnippet hsignature hsync hfits)
  · rename_i hsync
    simp only [run_bind_ok_iff] at h
    obtain ⟨results, s₁, hmap, h⟩ := h
    cases h
    exact plain hmap (.inert hcallee hsnippet hsignature hsync hfits)

section
variable
  (ihForce : ∀ {e d s r s'}, (force Γ n e d).run s = .ok (r, s') →
    Runs Γ (.demand e d) s [(r, .complete)] s')
include ihForce

theorem force_runs
    (ihCall : ∀ {f es t s r s'}, (analyzeCall Γ n f es t).run s = .ok (r, s') →
      Runs Γ (.value (.apply f es t)) s [r] s')
    (ihName : ∀ {e d s r s'}, (forceName Γ n e d).run s = .ok (r, s') →
      Runs Γ (.named e d) s [(r, .complete)] s')
    (h : (force Γ (n + 1) e demand).run s = .ok (r, s')) :
    Runs Γ (.demand e demand) s [(r, .complete)] s' := by
  cases e with
  | name x typing =>
    simp only [force, run_bind_ok_iff] at h
    obtain ⟨_, _, hget, forced, s₁, hnamed, h⟩ := h
    cases hget
    obtain ⟨binds, hd⟩ := ihName hnamed
    have hd := Derives.demandName hd
    split at h
    · rename_i hne
      obtain ⟨_, _, hmodify, h⟩ := run_bind_ok_iff.1 h
      cases hmodify
      cases h
      rw [if_pos hne] at hd
      exact ⟨binds, hd⟩
    · rename_i heq
      cases h
      rw [if_neg heq] at hd
      exact ⟨binds, hd⟩
  | literal text typing =>
    cases h
    exact ⟨[], .demandLiteral s text typing demand⟩
  | tuple elements typing =>
    simp only [force, run_bind_ok_iff] at h
    obtain ⟨results, s₁, hmap, h⟩ := h
    cases h
    obtain ⟨binds, hall⟩ := demands_run ihForce hmap
    have hd := @Derives.demandNode Γ (.tuple typing) elements demand _ _ _ _ _ rfl hall
    rw [map_fst_forced] at hd
    exact ⟨binds, hd⟩
  | closure function captured typing =>
    simp only [force, run_bind_ok_iff] at h
    obtain ⟨results, s₁, hmap, h⟩ := h
    cases h
    have hzip : ((captured.zip (captured.map Expr.ty)).mapM fun p => force Γ n p.1 p.2).run s =
        .ok (results, s') := by
      rwa [← List.map_prod_left_eq_zip, List.mapM_map]
    obtain ⟨binds, hall⟩ := demands_run ihForce hzip
    have hd := @Derives.demandNode Γ (.closure function typing) captured demand _ _ _ _ _ rfl hall
    rw [map_fst_forced] at hd
    exact ⟨binds, hd⟩
  | apply function arguments typing =>
    simp only [force, run_bind_ok_iff] at h
    obtain ⟨⟨value, completion⟩, s₁, hcall, h⟩ := h
    obtain ⟨binds, hd⟩ := ihCall hcall
    split at h
    · rename_i hpending
      simp only [Bool.and_eq_true, decide_eq_true_eq] at hpending
      obtain ⟨rfl, haggregate⟩ := hpending
      obtain ⟨temporary, s₂, hbind, h⟩ := run_bind_ok_iff.1 h
      obtain ⟨rfl, rfl⟩ := bindTemporary_ok hbind
      obtain ⟨binds', hname⟩ := ihName h
      exact ⟨_, .demandHoisted hd haggregate hname⟩
    · rename_i hpending
      cases h
      refine ⟨binds, .demandCall hd fun hc => ?_⟩
      simpa [hc] using hpending

theorem forceName_runs (h : (forceName Γ (n + 1) e demand).run s = .ok (r, s')) :
    Runs Γ (.named e demand) s [(r, .complete)] s' := by
  simp only [forceName] at h
  split at h
  · rename_i hname
    cases h
    exact ⟨[], .met fun x hx => by simp [hname] at hx⟩
  rename_i x hx
  obtain ⟨_, _, hget, h⟩ := run_bind_ok_iff.1 h
  cases hget
  split at h
  · rename_i closure hclosure
    obtain ⟨forced, s₁, hforce, hr⟩ := run_bind_ok_iff.1 h
    obtain ⟨binds, hd⟩ := ihForce hforce
    split at hr
    · rename_i heq
      cases hr
      exact ⟨binds, .closureKept hx hclosure (heq ▸ hd)⟩
    · rename_i hne
      obtain ⟨rfl, rfl⟩ := rebuildClosure_ok hr
      exact ⟨_, .closureRebuilt hx hclosure hd hne⟩
  rename_i hclosure
  split at h
  · rename_i haggregate
    cases h
    refine ⟨[], .met fun y hy => ?_⟩
    cases hx.symm.trans hy
    exact ⟨hclosure, fun hag => by simp [hag] at haggregate⟩
  rename_i haggregate
  have haggregate : (resolveDemand demand e.ty).isAggregate = true := by simpa using haggregate
  split at h
  · rename_i fields hfields
    obtain ⟨forced, s₁, hmap, hr⟩ := run_bind_ok_iff.1 h
    obtain ⟨binds, hd⟩ := demands_run ihForce hmap
    split at hr
    · rename_i heq
      cases hr
      exact ⟨binds, .tupleKept hx hclosure haggregate hfields hd ((map_fst_forced _).trans heq)⟩
    · rename_i hne
      obtain ⟨rfl, rfl⟩ := rebuildTuple_ok hr
      have hr := Derives.tupleRebuilt hx hclosure haggregate hfields hd (by rwa [map_fst_forced])
      rw [map_fst_forced] at hr
      exact ⟨_, hr⟩
  · rename_i hfields
    split at h
    · rename_i hpending
      obtain ⟨y, layout, hy, hlayout, rfl, rfl⟩ := realize_ok h
      cases hx.symm.trans hy
      exact ⟨_, .realized hx hclosure haggregate hfields hpending hlayout⟩
    · rename_i hcomplete
      cases h
      refine ⟨[], .met fun y hy => ?_⟩
      cases hx.symm.trans hy
      exact ⟨hclosure, fun _ => ⟨hfields, hcomplete⟩⟩

end

variable (Γ) in
/-- All four functions, with any number of steps. -/
theorem forcing_runs (n : Nat) :
    (∀ {e s r s'}, (analyze Γ n e).run s = .ok (r, s') → Runs Γ (.value e) s [r] s') ∧
    (∀ {f es t s r s'}, (analyzeCall Γ n f es t).run s = .ok (r, s') →
      Runs Γ (.value (.apply f es t)) s [r] s') ∧
    (∀ {e d s r s'}, (force Γ n e d).run s = .ok (r, s') → Runs Γ (.demand e d) s [(r, .complete)] s') ∧
    (∀ {e d s r s'}, (forceName Γ n e d).run s = .ok (r, s') →
      Runs Γ (.named e d) s [(r, .complete)] s') := by
  induction n with
  | zero =>
    refine ⟨fun h => ?_, fun h => ?_, fun h => ?_, fun h => ?_⟩
    · simp only [analyze, cyclic, run_throw, reduceCtorEq] at h
    · simp only [analyzeCall, cyclic, run_throw, reduceCtorEq] at h
    · simp only [force, cyclic, run_throw, reduceCtorEq] at h
    · simp only [forceName, cyclic, run_throw, reduceCtorEq] at h
  | succ n ih =>
    obtain ⟨ihValue, ihCall, ihForce, ihName⟩ := ih
    exact ⟨analyze_runs ihValue ihCall, analyzeCall_runs ihValue ihForce,
      force_runs ihForce ihCall ihName, forceName_runs ihForce⟩

theorem forceReturned_runs (h : (forceReturned Γ n e).run s = .ok (r, s')) :
    Runs Γ (.returned e) s [(r, .complete)] s' := by
  induction n generalizing e s r s' with
  | zero => simp only [forceReturned, cyclic, run_throw, reduceCtorEq] at h
  | succ n ih =>
    obtain ⟨ihValue, ihCall, -, -⟩ := forcing_runs Γ n
    cases e with
    | name x typing =>
      simp only [forceReturned] at h
      obtain ⟨_, _, hget, h⟩ := run_bind_ok_iff.1 h
      cases hget
      split at h
      · rename_i hself
        cases h
        exact ⟨[], .returnedName (.inl hself)⟩
      rename_i hself
      split at h
      · rename_i hcurrent
        cases h
        exact ⟨[], .returnedName (.inr fun y hy => by simp [hcurrent] at hy)⟩
      rename_i y hy
      split at h
      · rename_i fields hfields
        obtain ⟨forced, s₁, hmap, _, _, hget, h⟩ := by simpa only [run_bind_ok_iff] using h
        cases hget
        obtain ⟨binds, hall⟩ := tasks_run .returned (·, .complete) ih hmap
        split at h
        · rename_i hkept
          simp only [Bool.and_eq_true, decide_eq_true_eq] at hkept
          cases h
          exact ⟨binds, .returnedTupleKept hself hy hfields hall ((map_fst_forced _).trans hkept.1) hkept.2⟩
        · rename_i hkept
          obtain ⟨stored, s₂, hlifted, hbuilt⟩ := run_bind_ok_iff.1 h
          obtain ⟨hstored, rfl⟩ := (run_mapM_lift_ok_iff _).1 hlifted
          obtain ⟨rfl, rfl⟩ := rebuildTuple_ok hbuilt
          refine ⟨_, .returnedTupleRebuilt hself hy hfields hall ?_ ?_⟩
          · rw [map_fst_forced]
            simpa using hkept
          · rwa [map_fst_forced]
      · rename_i hfields
        split at h
        · rename_i hpending
          obtain ⟨z, layout, hz, hlayout, rfl, rfl⟩ := realize_ok h
          cases hy.symm.trans hz
          exact ⟨_, .returnedRealized hself hy hfields (by simpa using hpending) hlayout⟩
        · rename_i hkept
          cases h
          refine ⟨[], .returnedName (.inr fun z hz => ?_)⟩
          cases hy.symm.trans hz
          exact ⟨hfields, by simpa using hkept⟩
    | literal text typing =>
      cases h
      exact ⟨[], .returnedLiteral s text typing⟩
    | tuple elements typing =>
      simp only [forceReturned, run_bind_ok_iff] at h
      obtain ⟨results, s₁, hmap, h⟩ := h
      cases h
      obtain ⟨binds, hall⟩ := tasks_run .returned (·, .complete) ih hmap
      have hd := Derives.returnedTuple (t := typing) hall
      rw [map_fst_forced] at hd
      exact ⟨binds, hd⟩
    | closure f captured typing =>
      simp only [forceReturned, run_bind_ok_iff] at h
      obtain ⟨⟨value, completion⟩, s₁, hvalue, h⟩ := h
      cases h
      obtain ⟨binds, hd⟩ := ihValue hvalue
      exact ⟨binds, .returnedClosure hd⟩
    | apply f arguments typing =>
      simp only [forceReturned, run_bind_ok_iff] at h
      obtain ⟨⟨value, completion⟩, s₁, hcall, h⟩ := h
      obtain ⟨binds, hd⟩ := ihCall hcall
      split at h
      · rename_i hkept
        cases h
        exact ⟨binds, .returnedCall hd (by simpa using hkept)⟩
      · rename_i hkept
        simp only [Bool.or_eq_true, decide_eq_true_eq, not_or] at hkept
        obtain ⟨temporary, s₂, hbind, h⟩ := run_bind_ok_iff.1 h
        obtain ⟨rfl, rfl⟩ := bindTemporary_ok hbind
        obtain ⟨binds', hreturned⟩ := ih h
        exact ⟨_, .returnedHoisted hd hkept.1 (by simpa using hkept.2) hreturned⟩

end Steps

end DataParallel.Phases
