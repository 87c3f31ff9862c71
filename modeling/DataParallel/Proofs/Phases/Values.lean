import DataParallel.Proofs.Phases.Mentions
import DataParallel.Proofs.Reassignment

/-! Phase analysis does not change values.

As long as nothing that the tables mention is bound again, a name and what is read in its place hold
the same value, and recorded tuples and closures are what their names hold. So all that a task reads
has the value of what it stands for, and the binds in front of it run if that value exists. -/

namespace DataParallel

open Interpretation List Name

variable {C α : Type} {I : Interpretation α} {σ τ : Store α} {e e' f : Expr} {es : List Expr} {v : Value α}
  {typing : Typing}

/-- Boundaries hand on what they are given, and tuples are built of their fields. -/
structure Interpretation.Transparent (I : Interpretation α) : Prop where
  boundary : ∀ v w, I.apply (.procedure Snippet.phaseBoundary) [v] w ↔ w = v
  tuple : ∀ vs w, I.apply (.procedure Snippet.makeTuple) vs w ↔ w = .tuple vs

namespace Interpretation

variable {fs : List Expr} {vs : List (Value α)}

theorem evalAll_singleton : I.EvalAll σ [e] vs ↔ ∃ v, I.Eval σ e v ∧ vs = [v] := by
  constructor
  · rintro ⟨w, ws, hw, rfl, rfl⟩
    exact ⟨w, hw, rfl⟩
  · rintro ⟨v, hv, rfl⟩
    exact ⟨v, [], hv, rfl, rfl⟩

theorem evalAll_append :
    I.EvalAll σ (es ++ fs) vs ↔ ∃ us ws, I.EvalAll σ es us ∧ I.EvalAll σ fs ws ∧ vs = us ++ ws := by
  induction es generalizing vs with
  | nil =>
    constructor
    · exact fun h => ⟨[], vs, rfl, h, rfl⟩
    · rintro ⟨us, ws, rfl, h, rfl⟩
      exact h
  | cons e es ih =>
    constructor
    · rintro ⟨u, rest, hu, hrest, rfl⟩
      obtain ⟨us, ws, hus, hws, rfl⟩ := ih.1 hrest
      exact ⟨u :: us, ws, ⟨u, us, hu, hus, rfl⟩, hws, rfl⟩
    · rintro ⟨_, ws, ⟨u, us, hu, hus, rfl⟩, hws, rfl⟩
      exact ⟨u, us ++ ws, hu, ih.2 ⟨us, ws, hus, hws, rfl⟩, rfl⟩

theorem eval_iff_of_evalAll (h : ∀ vs, I.EvalAll τ [e'] vs ↔ I.EvalAll σ [e] vs) :
    I.Eval τ e' v ↔ I.Eval σ e v := by
  have hv := h [v]
  simpa [evalAll_singleton] using hv

theorem evalAll_iff_of_eval (h : ∀ v, I.Eval τ e' v ↔ I.Eval σ e v) :
    I.EvalAll τ [e'] vs ↔ I.EvalAll σ [e] vs := by
  simp only [evalAll_singleton, h]

theorem read_update_self (x : String) : I.read (Function.update σ x (some v)) x = some v := by
  simp [read]

theorem eval_tupleCall (hT : I.Transparent) (hf : f.symbol? = some Snippet.makeTuple) :
    I.Eval σ (.apply f es typing) v ↔ ∃ vs, I.EvalAll σ es vs ∧ v = .tuple vs := by
  have hb : f.builtin? = some Snippet.makeTuple := by
    rw [Expr.builtin?, hf]
    decide
  simp only [Eval, hb]
  constructor
  · rintro ⟨_, vs, rfl, hvs, hv⟩
    exact ⟨vs, hvs, (hT.tuple vs v).1 hv⟩
  · rintro ⟨vs, hvs, rfl⟩
    exact ⟨_, vs, rfl, hvs, (hT.tuple vs _).2 rfl⟩

theorem eval_boundary (hT : I.Transparent) :
    I.Eval σ (.applySnippet Snippet.phaseBoundary [e] typing) v ↔ I.Eval σ e v := by
  have hb : ∀ t, (Expr.name Snippet.phaseBoundary t).builtin? = some Snippet.phaseBoundary :=
    fun t => by simp [Expr.builtin?, Expr.symbol?, isBuiltin, Snippet.isSnippet]
  simp only [Expr.applySnippet, Eval, hb]
  constructor
  · rintro ⟨_, _, rfl, ⟨w, _, hw, rfl, rfl⟩, hv⟩
    rwa [(hT.boundary w v).1 hv]
  · intro hv
    exact ⟨_, [v], rfl, ⟨v, [], hv, rfl, rfl⟩, (hT.boundary v v).2 rfl⟩

end Interpretation

theorem Ty.length_substituteAll (bindings : Table Ty) (tys : List Ty) :
    (substituteAll bindings tys).length = tys.length := by
  induction tys with
  | nil => rfl
  | cons ty tys ih => simp [substituteAll, ih]

theorem Ty.length_of_matchAll? {binders : List String} {tys tys' : List Ty}
    {bindings bindings' : Table Ty}
    (h : matchAll? binders tys tys' bindings = some bindings') : tys.length = tys'.length := by
  induction tys generalizing tys' bindings with
  | nil =>
    cases tys' with
    | nil => rfl
    | cons => simp [matchAll?] at h
  | cons ty tys ih =>
    cases tys' with
    | nil => simp [matchAll?] at h
    | cons ty' tys' =>
      rw [matchAll?] at h
      obtain ⟨_, -, h⟩ := Option.bind_eq_some_iff.1 h
      rw [length_cons, length_cons, ih h]

theorem Ty.length_instantiate? {ty result : Ty} {arguments : List Expr} {parameters : List Ty}
    (h : ty.instantiate? (arguments.map Expr.ty) = some (parameters, result)) :
    parameters.length = arguments.length := by
  unfold instantiate? at h
  split at h
  · obtain ⟨bindings, hmatch, h⟩ := Option.bind_eq_some_iff.1 h
    cases h
    rw [length_substituteAll, length_of_matchAll? hmatch, length_map]
  · cases h

namespace Phases

variable {k : Head} {B F S : String → Prop} {s s' : State} {t : Typing} {entry x : String}
  {arguments fields stored : List Expr} {completion completion' : Completion} {task task' : Task}
  {results : List (Expr × Completion)} {tasks : List Task} {e₀ : Expr}

namespace Task

variable {ds : List Ty}

theorem exprsAll_demands (h : ds.length = es.length) : exprsAll (zipWith .demand es ds) = es := by
  induction es generalizing ds with
  | nil => simp
  | cons e es ih =>
    cases ds with
    | nil => cases h
    | cons d ds => simp [@ih ds (Nat.succ.inj h)]

end Task

theorem length_fieldDemands (demand : Ty) (fields : List Expr) :
    (fieldDemands demand fields).length = fields.length := by
  unfold fieldDemands
  split
  · split
    · assumption
    · simp
  · simp

theorem Head.length_partDemands {demand : Ty} {parts : List Expr} {demands : List Ty}
    (h : k.partDemands? demand parts = some demands) : demands.length = parts.length := by
  cases k with
  | tuple => cases h; exact length_fieldDemands _ _
  | closure => cases h; simp
  | call => cases h

section Heads
variable {parts parts' : List Expr}

theorem Head.eval_build (hnames : ∀ z ∈ k.names, τ z = σ z)
    (h : ∀ vs, I.EvalAll τ parts' vs ↔ I.EvalAll σ parts vs) :
    I.Eval τ (k.build parts') v ↔ I.Eval σ (k.build parts) v := by
  cases k with
  | tuple typing => simp only [build, Eval, h]
  | closure f typing =>
    have hf : ∀ w, I.Eval τ f w ↔ I.Eval σ f w := fun w => eval_congr hnames
    simp only [build, Eval, h, hf]
  | call f typing =>
    have hf : ∀ w, I.Eval τ f w ↔ I.Eval σ f w := fun w => eval_congr hnames
    simp only [build, Eval, h]
    cases f.builtin? with
    | none => simp only [hf]
    | some symbol => rfl

theorem Head.evalAll_of_build (h : I.Eval σ (k.build parts) v) : ∃ vs, I.EvalAll σ parts vs := by
  cases k with
  | tuple typing =>
    obtain ⟨vs, hvs, -⟩ := h
    exact ⟨vs, hvs⟩
  | closure f typing =>
    obtain ⟨_, vs, -, hvs, -⟩ := h
    exact ⟨vs, hvs⟩
  | call f typing =>
    obtain ⟨_, vs, -, hvs, -⟩ := h
    exact ⟨vs, hvs⟩

end Heads

/-- What stands in the tables holds of a store: names hold the value of what is read in their place,
and the tuples and closures on record are what their names hold. -/
structure Faithful (I : Interpretation α) (s : State) (σ : Store α) : Prop where
  standIns : ∀ {x e}, s.standIn? x = some e → ∃ v, I.read σ x = some v ∧ I.Eval σ e v
  fields : ∀ {x fields}, s.componentsOf? x = some fields → ∃ vs, I.read σ x = some (.tuple vs) ∧ I.EvalAll σ fields vs
  closures : ∀ {x e}, s.closureOf? x = some e → ∃ v, I.read σ x = some v ∧ I.Eval σ e v

def Synced (I : Interpretation α) (S : String → Prop) (σ : Store α) : Prop :=
  ∀ x, S x → ¬ IsDrawn x ∧ I.read σ (container x) = I.read σ x

/-- Where the binds of a task lead: the tables hold of the store behind them, which differs from the
one in front in names drawn on the way only, and all that the task reads has the value of what it is
about. -/
structure Reached (I : Interpretation α) (task : Task) (results : List (Expr × Completion)) (s s' : State)
    (σ τ : Store α) : Prop where
  faithful : Faithful I s' τ
  same : ∀ z, s.Past z → τ z = σ z
  values : ∀ vs, I.EvalAll τ (results.map Prod.fst) vs ↔ I.EvalAll σ task.exprs vs
  bound : ∀ x, task.symbol? = some x → results.map Prod.fst ≠ task.exprs → ∃ vs, I.EvalAll τ (results.map Prod.fst) vs

section
variable {t : State} {y : String} {value : Expr}

theorem Faithful.tables (h : Faithful I s σ) :
    s.Tables (fun x e => ∃ v, I.read σ x = some v ∧ I.Eval σ e v)
    (fun x fields => ∃ vs, I.read σ x = some (.tuple vs) ∧ I.EvalAll σ fields vs)
    (fun x e => ∃ v, I.read σ x = some v ∧ I.Eval σ e v) :=
  ⟨h.standIns, h.fields, h.closures⟩

theorem Faithful.forget (h : Faithful I s σ) {names : List String} (hf : State.Forgets s names t) :
    Faithful I t σ :=
  have ht := h.tables.forget hf
  ⟨ht.standIns, ht.fields, ht.closures⟩

theorem Faithful.frame (h : Faithful I s σ) (hn : s.Noted F B S)
    (hsame : ∀ z, s.Past z → τ z = σ z) : Faithful I s τ where
  standIns hx := by
    obtain ⟨v, hv, he⟩ := h.standIns hx
    obtain ⟨-, hpast, y, typing, rfl, -, -, hpast'⟩ := hn.standIns hx
    refine ⟨v, by rw [read_congr (hsame _ hpast), hv], ?_⟩
    exact (read_congr (hsame y hpast')).trans he
  fields hx := by
    obtain ⟨vs, hv, he⟩ := h.fields hx
    obtain ⟨-, hpast, hnames⟩ := hn.fields hx
    refine ⟨vs, by rw [read_congr (hsame _ hpast), hv], ?_⟩
    exact (evalAll_congr fun e he z hz => hsame z (hnames e he z hz).2).2 he
  closures hx := by
    obtain ⟨v, hv, he⟩ := h.closures hx
    obtain ⟨-, hpast, -, hnames⟩ := hn.closures hx
    refine ⟨v, by rw [read_congr (hsame _ hpast), hv], ?_⟩
    exact (eval_congr fun z hz => hsame z (hnames z hz).2).2 he

theorem Synced.frame (h : Synced I S σ) (hsame : ∀ z, s.Past z → τ z = σ z) : Synced I S τ := by
  intro x hx
  obtain ⟨hsource, hread⟩ := h x hx
  refine ⟨hsource, ?_⟩
  rw [read_congr (hsame _ (State.past_of_source (container_not_drawn x))),
    read_congr (hsame x (State.past_of_source hsource)), hread]

theorem Faithful.eval_current {t : Typing} (h : Faithful I s σ) (hn : s.Noted F B S) (v : Value α) :
    I.Eval σ (s.current (.name x t)) v ↔ I.read σ x = some v := by
  rw [State.current_name]
  cases hx : s.standIn? x with
  | none => exact Iff.rfl
  | some e =>
    obtain ⟨w, hw, he⟩ := h.standIns hx
    obtain ⟨-, -, y, typing', rfl, -, -⟩ := hn.standIns hx
    have hy : I.read σ y = some w := he
    show I.read σ y = some v ↔ _
    rw [hw, hy]

theorem Faithful.current_bound {t : Typing} (h : Faithful I s σ)
    (hne : s.current (.name x t) ≠ .name x t) : ∃ v, I.Eval σ (s.current (.name x t)) v := by
  rw [State.current_name] at hne ⊢
  cases hx : s.standIn? x with
  | none => simp [hx] at hne
  | some e =>
    obtain ⟨v, -, he⟩ := h.standIns hx
    exact ⟨v, he⟩

theorem Synced.evalAll_stored (h : Synced I S σ) (hn : s.Noted F B S)
    (hstored : fields.mapM (storageOf s) = .ok stored) (vs : List (Value α)) :
    I.EvalAll σ stored vs ↔ I.EvalAll σ fields vs := by
  induction fields generalizing stored vs with
  | nil =>
    cases hstored
    exact Iff.rfl
  | cons e es ih =>
    rw [mapM_cons] at hstored
    obtain ⟨f, hf, hstored⟩ := Except.bind_ok_iff.1 hstored
    obtain ⟨fs, hfs, hstored⟩ := Except.bind_ok_iff.1 hstored
    cases hstored
    have hone : ∀ v, I.Eval σ f v ↔ I.Eval σ e v := by
      intro v
      rcases storageOf_cases hf with rfl | ⟨x, hx, hx', hcontains⟩
      · exact Iff.rfl
      · rw [eval_name hx, eval_name hx', (h x (hn.storage hcontains)).2]
    simp only [EvalAll, hone, ih hfs]

theorem update_past (hy : Drawn s t y) {z : String} (hz : s.Past z) :
    Function.update σ y (some v) z = σ z :=
  Function.update_of_ne (fun hzy => hz.not_drawn (hzy ▸ hy)) _ _

theorem eval_update_past (hy : Drawn s t y) {w : Value α} (he : ∀ z ∈ e.names, s.Past z) :
    I.Eval (Function.update σ y (some v)) e w ↔ I.Eval σ e w :=
  eval_congr fun z hz => update_past hy (he z hz)

theorem Faithful.substitute (h : Faithful I s σ) (hv : I.read σ x = some v) (he : I.Eval σ e v) :
    Faithful I (s.substitute x e) σ :=
  have ht := h.tables.substitute ⟨v, hv, he⟩
  ⟨ht.standIns, ht.fields, ht.closures⟩

theorem Faithful.realized (h : Faithful I s σ) (hv : I.read σ x = some v)
    (hy : I.read σ (s.phases.derive x).1 = some v) : Faithful I (s.realized x value typing) σ :=
  have ht := h.tables.realized ⟨v, hv, hy⟩
  ⟨ht.standIns, ht.fields, ht.closures⟩

theorem Faithful.rebuilt {w : List (Value α)} (h : Faithful I s σ)
    (hv : I.read σ x = some (.tuple w))
    (hy : I.read σ (s.phases.derive x).1 = some (.tuple w)) (hfields : I.EvalAll σ fields w) :
    Faithful I (s.rebuilt x fields typing) σ :=
  have ht := h.tables.rebuilt ⟨_, hv, hy⟩ ⟨w, hy, hfields⟩
  ⟨ht.standIns, ht.fields, ht.closures⟩

theorem Faithful.reclosed (h : Faithful I s σ) (hy : I.read σ (s.phases.derive x).1 = some v)
    (hvalue : I.Eval σ value v) : Faithful I (s.reclosed x e value) σ :=
  have ht : (s.reclosed x e value).Tables _ _ _ := h.tables.reclosed ⟨v, hy, hvalue⟩
  ⟨ht.standIns, ht.fields, ht.closures⟩

theorem Faithful.record
    (hstand : ∀ {z f}, s.standIn? z = some f → z ≠ x → ∃ w, I.read τ z = some w ∧ I.Eval τ f w)
    (hfields : ∀ {z fs}, s.componentsOf? z = some fs → z ≠ x → ∃ ws, I.read τ z = some (.tuple ws) ∧ I.EvalAll τ fs ws)
    (hclosures : ∀ {z f}, s.closureOf? z = some f → z ≠ x → ∃ w, I.read τ z = some w ∧ I.Eval τ f w)
    (hrecorded : ∀ fs, s.recordedFields value = some fs → ∃ ws, I.read τ x = some (.tuple ws) ∧ I.EvalAll τ fs ws)
    (hclosure : ∀ f, s.recordedClosure value = some f → ∃ w, I.read τ x = some w ∧ I.Eval τ f w) :
    Faithful I (s.record entry x value completion) τ :=
  have ht := State.Tables.record ⟨hstand, hfields, hclosures⟩ hrecorded hclosure
  ⟨ht.standIns, ht.fields, ht.closures⟩

end

section Hoisting
variable {t : State} {value : Expr}

theorem Faithful.hoisted (hT : I.Transparent) (h : Faithful I s σ) (hn : s.Noted F B S)
    (hs : s.Stems) (hvalue : I.Eval σ (.apply f arguments typing) v)
    (hpast : ∀ z ∈ (Expr.apply f arguments typing).names, s.Past z) :
    Faithful I (s.hoisted entry (.apply f arguments typing) completion)
      (Function.update σ s.temporaries.next.1 (some v)) := by
  have hdrawn : Drawn s (s.hoisted entry (.apply f arguments typing) completion)
      s.temporaries.next.1 := drawn_temporary hs (Nat.lt_succ_self _)
  have hframe : Faithful I s (Function.update σ s.temporaries.next.1 (some v)) :=
    h.frame hn fun z hz => update_past hdrawn hz
  refine .record (fun hz _ => hframe.standIns hz) (fun hz _ => hframe.fields hz)
    (fun hz _ => hframe.closures hz) (fun fs hfs => ?_) nofun
  rw [State.recordedFields_apply] at hfs
  split at hfs
  · rename_i hf
    cases hfs
    obtain ⟨vs, hvs, rfl⟩ := (eval_tupleCall hT hf).1 hvalue
    refine ⟨vs, read_update_self _, ?_⟩
    refine (evalAll_congr fun e he z hz => ?_).2 hvs
    exact update_past hdrawn (hpast z (mem_append_right _ (Expr.mem_namesAll.2 ⟨e, he, hz⟩)))
  · cases hfs

end Hoisting

section Reaching
variable {t : State}

theorem Reached.kept (faithful : Faithful I s' τ) (same : ∀ z, s.Past z → τ z = σ z)
    (hexprs : task.exprs = [e]) (hpast : ∀ z ∈ e.names, s.Past z) :
    Reached I task [(e, completion)] s s' σ τ := by
  refine ⟨faithful, same, fun vs => ?_, fun x _ hne => absurd hexprs.symm hne⟩
  rw [hexprs]
  exact evalAll_congr fun f hf z hz => by
    cases mem_singleton.1 hf
    exact same z (hpast z hz)

theorem Reached.value (hI : I.Functional) (faithful : Faithful I s' τ)
    (same : ∀ z, s.Past z → τ z = σ z) (hexprs : task.exprs = [e]) (hv : I.Eval σ e v)
    (hv' : I.Eval τ e' v) : Reached I task [(e', completion)] s s' σ τ := by
  refine ⟨faithful, same, fun vs => ?_, fun _ _ _ => ⟨[v], evalAll_singleton.2 ⟨v, hv', rfl⟩⟩⟩
  rw [hexprs]
  refine evalAll_iff_of_eval fun w => ⟨fun hw => ?_, fun hw => ?_⟩
  · rwa [hw.unique hI hv']
  · rwa [hw.unique hI hv]

/-- What stands for a name is read in its place. -/
theorem Reached.current (hf : Faithful I s σ) (hn : s.Noted F B S) (faithful : Faithful I s' τ)
    (same : ∀ z, s.Past z → τ z = σ z) (hexprs : task.exprs = [.name x typing])
    (hsame : ∀ v, I.Eval τ (s.current (.name x typing)) v ↔ I.Eval σ (s.current (.name x typing)) v) :
    Reached I task [(s.current (.name x typing), completion)] s s' σ τ := by
  refine ⟨faithful, same, fun vs => ?_, fun _ _ hne => ?_⟩
  · rw [hexprs]
    exact evalAll_iff_of_eval fun v => (hsame v).trans (hf.eval_current hn v)
  · obtain ⟨v, hv⟩ := hf.current_bound (x := x) (t := typing) fun heq => hne (by simp [hexprs, heq])
    exact ⟨[v], evalAll_singleton.2 ⟨v, (hsame v).2 hv, rfl⟩⟩

theorem Reached.recast (h : Reached I task [(e, completion)] s s' σ τ)
    (hexprs : task'.exprs = task.exprs)
    (hsymbol : task'.symbol? = none) : Reached I task' [(e, completion')] s s' σ τ :=
  ⟨h.faithful, h.same, fun vs => by rw [hexprs]; exact h.values vs, by simp [hsymbol]⟩

end Reaching

section Tasks
variable {Γ : Context} {m : Machine C (Value α)} {store : C → Store α} {Good : C → Prop} {t : State} {c : C}
  {binds : List Stmt}

/-- The binds of a task run if what it reads has values, and lead to where it has been carried out.
-/
abbrev Task.Leads (I : Interpretation α) (m : Machine C (Value α)) (store : C → Store α) (Good : C → Prop) (c : C)
    (task : Task) (s : State) (results : List (Expr × Completion)) (binds : List Stmt) (s' : State) : Prop :=
  DataParallel.Leads m store Good c binds (∃ vs, I.EvalAll (store c) task.exprs vs)
    (Reached I task results s s' (store c))

theorem Leads.parts {parts : List Expr}
    (h : (Task.all tasks).Leads I m store Good c s results binds s') (hexprs : task.exprs = [k.build parts])
    (hsymbol : task.symbol? = none) (htasks : Task.exprsAll tasks = parts)
    (hpast : ∀ z ∈ (k.build parts).names, s.Past z) :
    task.Leads I m store Good c s [(k.build (results.map Prod.fst), completion)] binds s' := by
  refine h.mono ?_ fun τ p => ⟨p.faithful, p.same, fun vs => ?_, by simp [hsymbol]⟩
  · rintro ⟨vs, hvs⟩
    rw [hexprs] at hvs
    obtain ⟨v, hv, -⟩ := evalAll_singleton.1 hvs
    rw [Task.exprs, htasks]
    exact Head.evalAll_of_build hv
  · rw [hexprs]
    refine evalAll_iff_of_eval fun v => Head.eval_build (fun z hz =>
      p.same z (hpast z (Head.mem_names_build.2 (.inl hz)))) fun vs => ?_
    rw [p.values, Task.exprs, htasks]

theorem Leads.realize {live : Prop} {M P : Store α → Prop} {target value : Expr}
    (hm : m.Watches I store Good) (hs : s.Stems) (htarget : target.symbol? = some (s.phases.derive x).1)
    (hbefore : Leads m store Good c binds live M) (hlive : ∀ τ, M τ → live → ∃ v, I.Eval τ value v)
    (hvalue : ∀ τ v, M τ → I.Eval τ value v →
      I.read τ x = some v ∧ P (Function.update τ (s.phases.derive x).1 (some v))) :
    Leads m store Good c (binds ++ [.bind target value]) live P := by
  refine hbefore.append fun c' hc' hmid => .bind hm hc' htarget (hlive _ hmid) fun v hv => ?_
  obtain ⟨hread, hpost⟩ := hvalue _ v hmid hv
  refine ⟨fun base n hbase => ?_, hpost⟩
  rw [hs.derive] at hbase
  rwa [← (realized_inj hbase).1]

section
variable (hI : I.Functional) (hT : I.Transparent) (hm : m.Watches I store Good)
include hI hT hm

theorem Leads.boundary (hn : s.Noted F B S) (hs : s.Stems) (hc : Good c)
    (hf : Faithful I s (store c))
    (hexprs : task.exprs = [e₀]) (hx : e.symbol? = some x) (hpast : s.Past x)
    (hvalue : ∀ v, I.Eval (store c) e v ↔ I.Eval (store c) e₀ v) :
    task.Leads I m store Good c s [(.name (s.phases.derive x).1 typing, completion)] [s.boundary x e typing]
      (s.realized x e typing) := by
  have hdrawn : Drawn s (s.realized x e typing) (s.phases.derive x).1 :=
    drawn_derived hs x (Nat.lt_succ_self _)
  refine Leads.realize (M := fun τ => τ = store c) hm hs rfl (.nil hc rfl) ?_ ?_
  · rintro τ rfl ⟨vs, hvs⟩
    rw [hexprs] at hvs
    obtain ⟨v, hv, -⟩ := evalAll_singleton.1 hvs
    exact ⟨v, (eval_boundary hT).2 ((hvalue v).2 hv)⟩
  · rintro τ v rfl hv
    have he := (eval_boundary hT).1 hv
    have hread := (eval_name hx).1 he
    refine ⟨hread, .value hI ?_ (fun z hz => update_past hdrawn hz) hexprs ((hvalue v).1 he) (read_update_self _)⟩
    refine (hf.frame hn fun z hz => update_past hdrawn hz).realized (v := v) ?_ (read_update_self _)
    rwa [read_congr (update_past hdrawn hpast)]

theorem Leads.tuple (hn : Notes F B S (.all tasks) results s') (hs : s'.Stems) (hd : s.Draws s')
    (hexprs : task.exprs = [e₀]) (hpast : s.Past x) (htasks : Task.exprsAll tasks = fields)
    (hfields : ∃ vs, I.Eval (store c) e₀ (.tuple vs) ∧ I.read (store c) x = some (.tuple vs) ∧
      I.EvalAll (store c) fields vs)
    (hbefore : (Task.all tasks).Leads I m store Good c s results binds s')
    (hstored : ∀ τ, Reached I (.all tasks) results s s' (store c) τ →
      ∀ vs, I.EvalAll τ stored vs ↔ I.EvalAll τ (results.map Prod.fst) vs)
    (hnames : ∀ e ∈ stored, ∀ z ∈ e.names, s'.Past z) :
    task.Leads I m store Good c s [(.name (s'.phases.derive x).1 typing, completion)]
      (binds ++ [s'.tupleBind x stored typing]) (s'.rebuilt x stored typing) := by
  have hdrawn : Drawn s' (s'.rebuilt x stored typing) (s'.phases.derive x).1 :=
    drawn_derived hs x (Nat.lt_succ_self _)
  obtain ⟨ws, hvalue, hread, hws⟩ := hfields
  have hstart : I.EvalAll (store c) (Task.all tasks).exprs ws := by rwa [Task.exprs, htasks]
  have heval : ∀ τ, Reached I (.all tasks) results s s' (store c) τ → ∀ vs,
      I.EvalAll τ stored vs ↔ I.EvalAll (store c) (Task.all tasks).exprs vs :=
    fun τ p vs => (hstored τ p vs).trans (p.values vs)
  refine Leads.realize hm hs rfl (hbefore.mono (fun _ => ⟨ws, hstart⟩) fun _ p => p) (fun τ p _ => ?_)
    fun τ v p hv => ?_
  · exact ⟨_, (eval_tupleCall hT rfl).2 ⟨ws, (heval τ p ws).2 hstart, rfl⟩⟩
  · obtain ⟨vs, hvs, rfl⟩ := (eval_tupleCall hT rfl).1 hv
    have hsame : vs = ws := ((heval τ p vs).1 hvs).unique hI hstart
    subst hsame
    have hread' : I.read τ x = some (.tuple vs) := by rw [read_congr (p.same x hpast), hread]
    refine ⟨hread', .value hI ?_ (fun z hz => (update_past hdrawn (hz.mono hd)).trans (p.same z hz)) hexprs
      hvalue (read_update_self _)⟩
    refine (p.faithful.frame hn.tables fun z hz => update_past hdrawn hz).rebuilt (w := vs) ?_ (read_update_self _) ?_
    · rwa [read_congr (update_past hdrawn (hpast.mono hd))]
    · exact (evalAll_congr fun e he z hz => update_past hdrawn (hnames e he z hz)).2 hvs

theorem Leads.hoist {arguments' : List Expr} {binds' : List Stmt}
    {results' : List (Expr × Completion)} (hn : s'.Noted F B S) (hs : s'.Stems) (hd : s.Draws s')
    (hpast : ∀ z ∈ (Expr.apply f arguments' typing).names, s'.Past z)
    (hexprs : task.exprs = [.apply f arguments typing])
    (hexprs' : task'.exprs = [(Expr.apply f arguments' typing).renamed s'.temporaries.next.1])
    (hsymbol : task.symbol? = none)
    (hbefore : (Task.value (.apply f arguments typing)).Leads I m store Good c s
      [(.apply f arguments' typing, completion)] binds s')
    (hnext : ∀ {c'}, Good c' → (∀ z, s.Past z → store c' z = store c z) →
      Faithful I (s'.hoisted entry (.apply f arguments' typing) completion') (store c') →
      task'.Leads I m store Good c' (s'.hoisted entry (.apply f arguments' typing) completion')
        results' binds' t) :
    task.Leads I m store Good c s results' (binds ++ s'.hoist (.apply f arguments' typing) :: binds') t := by
  have hdrawn : Drawn s' (s'.hoisted entry (.apply f arguments' typing) completion')
      s'.temporaries.next.1 := drawn_temporary hs (Nat.lt_succ_self _)
  have hdraws := (s'.grows_hoisted entry (.apply f arguments' typing) completion').draws
  refine Leads.append (Leads.mono hbefore (fun h => by rwa [hexprs] at h) fun _ p => p) fun c₁ hc₁ p => ?_
  have hcall := fun v => eval_iff_of_evalAll (v := v) p.values
  -- what the temporary holds is the value of the call
  refine Leads.append (P := fun τ => ∃ v, I.Eval (store c₁) (.apply f arguments' typing) v ∧
      τ = Function.update (store c₁) s'.temporaries.next.1 (some v))
    (Leads.bind (e := .apply f arguments' typing) hm hc₁ rfl ?_ fun v hv => ⟨?_, v, hv, rfl⟩) ?_
  · rintro ⟨vs, hvs⟩
    rw [hexprs] at hvs
    obtain ⟨v, hv, -⟩ := evalAll_singleton.1 hvs
    exact ⟨v, (hcall v).2 hv⟩
  · intro base n hbase
    rw [hs.next] at hbase
    exact absurd hbase.symm (realized_ne_temporary base n _)
  · rintro c₂ hc₂ ⟨v, hv, hstore⟩
    have hsame : ∀ z, s.Past z → store c₂ z = store c z := fun z hz => by
      rw [hstore, update_past hdrawn (hz.mono hd), p.same z hz]
    have htemporary : I.Eval (store c₂) ((Expr.apply f arguments' typing).renamed s'.temporaries.next.1) v := by
      rw [hstore]
      exact read_update_self _
    have hvalues : ∀ w, I.Eval (store c₂) ((Expr.apply f arguments' typing).renamed
        s'.temporaries.next.1) w ↔ I.Eval (store c) (.apply f arguments typing) w := by
      intro w
      rw [← hcall w]
      exact ⟨fun hw => hw.unique hI htemporary ▸ hv, fun hw => hw.unique hI hv ▸ htemporary⟩
    refine Leads.mono (hnext hc₂ hsame ?_) (fun _ => ⟨[v], ?_⟩) fun τ q => ?_
    · rw [hstore]
      exact p.faithful.hoisted hT hn hs hv hpast
    · rw [hexprs']
      exact evalAll_singleton.2 ⟨v, htemporary, rfl⟩
    · refine ⟨q.faithful, fun z hz => ?_, fun vs => ?_, by simp [hsymbol]⟩
      · rw [q.same z ((hz.mono hd).mono hdraws), hsame z hz]
      · rw [q.values, hexprs, hexprs']
        exact evalAll_iff_of_eval hvalues

omit hI hT hm in
/-- The first of some tasks keeps what the others read, and these keep what it hands on. -/
theorem Leads.both {r : Expr × Completion} {binds' : List Stmt} (hd : s.Draws t)
    (hpast : ∀ e ∈ Task.exprsAll tasks, ∀ z ∈ e.names, s.Past z) (hresult : ∀ z ∈ r.1.names, t.Past z)
    (hfirst : task.Leads I m store Good c s [r] binds t)
    (hnext : ∀ {c₁}, Good c₁ → Reached I task [r] s t (store c) (store c₁) →
      (Task.all tasks).Leads I m store Good c₁ t results binds' s') :
    (Task.all (task :: tasks)).Leads I m store Good c s (r :: results) (binds ++ binds') s' := by
  have hrest : ∀ {τ}, (∀ z, s.Past z → τ z = store c z) → ∀ vs,
      I.EvalAll τ (Task.exprsAll tasks) vs ↔ I.EvalAll (store c) (Task.exprsAll tasks) vs :=
    fun hsame vs => evalAll_congr fun e he z hz => hsame z (hpast e he z hz)
  refine Leads.append (Leads.mono hfirst ?_ fun _ p => p) fun c₁ hc₁ p₁ => ?_
  · rintro ⟨vs, hvs⟩
    obtain ⟨us, ws, hus, -, -⟩ := evalAll_append.1 hvs
    exact ⟨us, hus⟩
  · refine Leads.mono (hnext hc₁ p₁) ?_ fun τ p₂ => ?_
    · rintro ⟨vs, hvs⟩
      obtain ⟨us, ws, -, hws, -⟩ := evalAll_append.1 hvs
      exact ⟨ws, (hrest p₁.same ws).2 hws⟩
    · refine ⟨p₂.faithful, fun z hz => (p₂.same z (hz.mono hd)).trans (p₁.same z hz), fun vs => ?_,
        by simp [Task.symbol?]⟩
      have hone : ∀ us, I.EvalAll τ [r.1] us ↔ I.EvalAll (store c) task.exprs us := by
        intro us
        rw [← p₁.values us]
        refine evalAll_congr fun e he z hz => p₂.same z ?_
        cases mem_singleton.1 he
        exact hresult z hz
      have hlist : (r :: results).map Prod.fst = [r.1] ++ results.map Prod.fst := rfl
      rw [hlist, Task.exprs, Task.exprsAll, evalAll_append, evalAll_append]
      simp only [hone, p₂.values, Task.exprs, hrest p₁.same]

omit hT hm in
theorem Leads.substituted {demand : Ty} (hk : Kinds F B S) (hf : Faithful I s (store c))
    (hr : (Task.demand (.name x typing) demand).Fits Γ.registry F B S s)
    (h : (Task.named (s.current (.name x typing)) demand).Leads I m store Good c s [(e, completion)] binds s') :
    (Task.demand (.name x typing) demand).Leads I m store Good c s [(e, completion)] binds
      (if e ≠ s.current (.name x typing) then s'.substitute x e else s') := by
  obtain ⟨y, typing', hy, -⟩ := hr.current hk rfl (by simp)
  have hcurrent : ∀ vs, I.EvalAll (store c) [s.current (.name x typing)] vs ↔
      I.EvalAll (store c) [.name x typing] vs :=
    fun vs => evalAll_iff_of_eval (hf.eval_current hr.tables)
  refine Leads.mono h (fun h => h.imp fun vs => (hcurrent vs).2) fun τ p => ?_
  by_cases hkept : e = s.current (.name x typing)
  · rw [if_neg (not_not_intro hkept), hkept]
    rw [hkept] at p
    exact .current hf hr.tables p.faithful p.same rfl fun v => eval_iff_of_evalAll p.values
  · rw [if_pos hkept]
    obtain ⟨vs, hvs⟩ := p.bound y (by rw [hy]; rfl) (by simpa using hkept)
    obtain ⟨v, hv, -⟩ := evalAll_singleton.1 hvs
    have hread : I.read (store c) x = some v :=
      (eval_iff_of_evalAll fun vs => (p.values vs).trans (hcurrent vs)).1 hv
    refine .value hI (p.faithful.substitute ?_ hv) p.same rfl (e := .name x typing) hread hv
    rwa [read_congr (p.same x (hr.past _ mem_cons_self x (by simp)))]

omit hT in
theorem Leads.closure {closure forced : Expr} {demand : Ty} (hf : Faithful I s (store c))
    (hclosure : s.closureOf? x = some closure) (hx : e.symbol? = some x) (hexprs : task.exprs = [e]) (hs : s'.Stems)
    (hpast : s.Past x) (hd : s.Draws s') (hn : Notes F B S (.demand closure demand) [(forced, completion)] s')
    (hbefore : (Task.demand closure demand).Leads I m store Good c s [(forced, completion)] binds s') :
    task.Leads I m store Good c s [(e.renamed (s'.phases.derive x).1, completion')]
      (binds ++ [s'.closureBind x e forced]) (s'.reclosed x e forced) := by
  have hdrawn : Drawn s' (s'.reclosed x e forced) (s'.phases.derive x).1 := drawn_derived hs x (Nat.lt_succ_self _)
  obtain ⟨w, hread, hw⟩ := hf.closures hclosure
  refine Leads.realize hm hs rfl
    (Leads.mono hbefore (fun _ => ⟨[w], evalAll_singleton.2 ⟨w, hw, rfl⟩⟩) fun _ p => p)
    (fun τ p _ => ⟨w, (eval_iff_of_evalAll p.values).2 hw⟩) fun τ v p hv => ?_
  have hvw : v = w := ((eval_iff_of_evalAll p.values).1 hv).unique hI hw
  subst hvw
  refine ⟨by rw [read_congr (p.same x hpast), hread], ?_⟩
  refine .value hI ?_ (fun z hz => (update_past hdrawn (hz.mono hd)).trans (p.same z hz)) hexprs
    ((eval_name hx).2 hread) (read_update_self _)
  exact (p.faithful.frame hn.tables fun z hz => update_past hdrawn hz).reclosed
    (read_update_self _) ((eval_update_past hdrawn (hn.past _ mem_cons_self)).2 hv)

/-- All that a task reads has the value of what it is about, and its binds run if there is such a
value. -/
theorem Derives.leads (hk : Kinds F B S) (h : Derives Γ task s results binds s')
    (hr : task.Fits Γ.registry F B S s) (hc : Good c) (hf : Faithful I s (store c))
    (hsync : task.returns = true → Synced I S (store c)) :
    task.Leads I m store Good c s results binds s' := by
  induction h generalizing c with
  | nil => exact .nil hc ⟨hf, fun _ _ => rfl, fun vs => Iff.rfl, by simp [Task.symbol?]⟩
  | cons h₁ _ ih₁ ih₂ =>
    have n₁ := h₁.noted hk hr.head
    refine Leads.both h₁.grows.draws (fun e he => hr.past e (mem_append_right _ he)) (n₁.past _ mem_cons_self)
      (ih₁ hr.head hc hf fun hret => hsync (by simp [hret])) fun hc₁ p₁ => ?_
    refine ih₂ (hr.tail h₁.grows n₁.tables) hc₁ p₁.faithful fun hret => Synced.frame (hsync ?_) p₁.same
    simp only [Task.returns] at hret
    simp [hret]
  | name | returnedName => exact .nil hc (.current hf hr.tables hf (fun _ _ => rfl) rfl fun _ => Iff.rfl)
  | literal | demandLiteral | returnedLiteral => exact .nil hc (.kept hf (fun _ _ => rfl) rfl (by simp))
  | @node head _ _ _ _ _ _ _ _ ih =>
    exact Leads.parts (ih hr.values hc hf (by simp)) rfl (by cases head <;> rfl) (by simp) (hr.past _ mem_cons_self)
  | @forcing function _ typing _ _ _ _ _ _ _ _ hf' hcallee hs hforces hinstance _ ih =>
    exact Leads.parts (k := .call function typing) (ih (hr.arguments (forces_of_signature hf' hcallee hs hforces)) hc hf
      (by simp)) rfl rfl (Task.exprsAll_demands (Ty.length_instantiate? hinstance)) (hr.past _ mem_cons_self)
  | demandName _ ih => exact Leads.substituted hI hk hf hr (ih (hr.named hk) hc hf (by simp))
  | @demandNode head _ _ _ _ _ _ _ hdemands _ ih =>
    exact Leads.parts (ih hr.demandParts hc hf (by simp)) rfl (by cases head <;> rfl)
      (Task.exprsAll_demands (Head.length_partDemands hdemands)) (hr.past _ mem_cons_self)
  | demandCall _ _ ih | returnedClosure _ ih | returnedCall _ _ ih =>
    exact Leads.mono (ih (hr.read rfl rfl) hc hf (by simp)) id fun τ p => p.recast rfl rfl
  | demandHoisted h _ _ ih ih' | returnedHoisted h _ _ _ ih ih' =>
    have n := h.noted hk (hr.read rfl rfl)
    obtain ⟨-, arguments, rfl⟩ := h.value_apply
    exact Leads.hoist hI hT hm n.tables (hr.stems.mono h.grows) h.grows.draws (n.past _ mem_cons_self)
      rfl rfl rfl (ih (hr.read rfl rfl) hc hf (by simp))
      fun hc' hsame hf' => ih' (hr.hoist hk rfl rfl hr.plain h n rfl (fun _ => mem_singleton.1) id rfl) hc' hf'
        fun hreturns => (hsync hreturns).frame hsame
  | met => exact .nil hc (.kept hf (fun _ _ => rfl) rfl (hr.past _ mem_cons_self))
  | closureKept hx hclosure _ ih =>
    obtain ⟨v, -, hv⟩ := hf.closures hclosure
    exact Leads.mono (ih (hr.closure hx hclosure) hc hf (by simp)) (fun _ => ⟨[v], evalAll_singleton.2 ⟨v, hv, rfl⟩⟩)
      fun τ p => .kept p.faithful p.same rfl (hr.past _ mem_cons_self)
  | @closureRebuilt _ _ _ _ x _ _ _ hx hclosure h _ ih =>
    exact Leads.closure hI hm hf hclosure hx rfl (hr.stems.mono h.grows)
      (hr.past _ mem_cons_self x (by simp [Expr.names_of_symbol hx])) h.grows.draws
      (h.noted hk (hr.closure hx hclosure)) (ih (hr.closure hx hclosure) hc hf (by simp))
  | tupleKept hx _ _ hfields _ _ ih =>
    obtain ⟨vs, -, hvs⟩ := hf.fields hfields
    refine Leads.mono (ih (hr.fields hx hfields) hc hf (by simp)) (fun _ => ⟨vs, ?_⟩)
      fun τ p => .kept p.faithful p.same rfl (hr.past _ mem_cons_self)
    rwa [Task.exprs, Task.exprsAll_demands (length_fieldDemands _ _)]
  | @tupleRebuilt e demand x _ _ _ _ _ hx _ _ hfields h _ ih =>
    obtain ⟨vs, hread, hvs⟩ := hf.fields hfields
    have n := h.noted hk (hr.fields hx hfields)
    refine Leads.tuple hI hT hm n (hr.stems.mono h.grows) h.grows.draws
      (show (Task.named e demand).exprs = [e] from rfl)
      (hr.past _ mem_cons_self x (by simp [Expr.names_of_symbol hx]))
      (Task.exprsAll_demands (length_fieldDemands _ _)) ⟨vs, (eval_name hx).2 hread, hread, hvs⟩
      (ih (hr.fields hx hfields) hc hf (by simp)) (fun _ _ _ => Iff.rfl) fun f hmem z hz => ?_
    obtain ⟨r, hr', rfl⟩ := mem_map.1 hmem
    exact n.past r hr' z hz
  | @realized _ _ x _ _ hx _ _ _ _ _ =>
    exact Leads.boundary hI hT hm hr.tables hr.stems hc hf rfl hx
      (hr.past _ mem_cons_self x (by simp [Expr.names_of_symbol hx])) fun _ => Iff.rfl
  | returnedRealized _ hy _ _ _ =>
    obtain ⟨z, typing', hz, -, hpast, -⟩ := hr.current hk rfl (by simp)
    rw [hz] at hy
    cases hy
    exact Leads.boundary hI hT hm hr.tables hr.stems hc hf rfl (by rw [hz]; rfl) hpast (hf.eval_current hr.tables)
  | @returnedTupleKept s _ x _ typing _ _ _ _ _ hfields _ _ _ ih =>
    obtain ⟨z, typing', hz, -, hpast, -⟩ := hr.current hk rfl (by simp)
    obtain ⟨ws, -, hws⟩ := hf.fields hfields
    refine Leads.mono (ih (hr.returnedFields hfields) hc hf fun _ => hsync rfl)
      (fun _ => ⟨ws, by simpa using hws⟩) fun τ p => ?_
    refine .current hf hr.tables p.faithful p.same rfl fun v => eval_congr fun w hw => p.same w ?_
    rw [hz] at hw
    cases mem_singleton.1 hw
    exact hpast
  | @returnedTupleRebuilt _ _ x _ typing _ _ _ _ _ _ hy hfields h _ hstored ih =>
    obtain ⟨z, typing', hz, -, hpast, -⟩ := hr.current hk rfl (by simp)
    rw [hz] at hy
    cases hy
    obtain ⟨ws, hread, hws⟩ := hf.fields hfields
    have n := h.noted hk (hr.returnedFields hfields)
    have hvalue : I.Eval (store c) (.name x typing) (.tuple ws) := by
      have hcurrent := (hf.eval_current (x := x) (t := typing) hr.tables (.tuple ws)).1
      rw [hz] at hcurrent
      exact hcurrent hread
    have hnames := n.tables.stored (hr.contained rfl) (n.recorded hk fun e he z hz =>
      ((hr.tables.fields hfields).2.2 e (by simpa using he) z hz).1) hstored
    exact Leads.tuple hI hT hm n (hr.stems.mono h.grows) h.grows.draws
      (show (Task.returned (.name x typing)).exprs = [.name x typing] from rfl) hpast (by simp)
      ⟨ws, hvalue, hread, hws⟩ (ih (hr.returnedFields hfields) hc hf fun _ => hsync rfl)
      (fun τ p vs => ((hsync rfl).frame p.same).evalAll_stored n.tables hstored vs)
      fun e he z hz => (hnames e he z hz).2
  | @returnedTuple _ typing _ _ _ _ _ ih =>
    exact Leads.parts (k := .tuple typing) (ih hr.elements hc hf fun _ => hsync rfl) rfl rfl (by simp)
      (hr.past _ mem_cons_self)

end

end Tasks

end Phases
end DataParallel
