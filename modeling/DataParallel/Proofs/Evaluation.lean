import DataParallel.Proofs.Execution
import Mathlib.Logic.Function.Basic

/-! The meaning of expressions and blocks over stores.

Scalars, sequences and what procedures do with them are left to an interpretation. A name that is
not bound reads as the procedure of that name if there is one, and nothing else can be read from it.
-/

namespace DataParallel

variable {es : List Expr} {x : String} {e : Expr} {block : List Stmt}

inductive Value (α : Type) where
  | datum (value : α)
  | procedure (symbol : String)
  | tuple (fields : List (Value α))
  | closure (function : Value α) (captured : List (Value α))

abbrev Store (α : Type) := String → Option (Value α)

structure Interpretation (α : Type) where
  literal : String → Ty → Value α
  /-- Whether a name denotes a procedure where it is not bound. -/
  denotes : String → Bool
  /-- The results that calls of a value may have. -/
  apply : Value α → List (Value α) → Value α → Prop
  truth : Value α → Option Bool

def Name.isBuiltin (name : String) : Bool :=
  Name.Snippet.isSnippet name || (Name.operatorSign? name).isSome || name = Name.negation

def Expr.builtin? (e : Expr) : Option String := e.symbol?.filter Name.isBuiltin

attribute [simp] Expr.names Expr.namesAll Stmt.names Stmt.namesAll

theorem Expr.mem_namesAll : x ∈ Expr.namesAll es ↔ ∃ e ∈ es, x ∈ e.names := by
  induction es with
  | nil => simp
  | cons e es ih => simp [ih]

theorem Expr.names_of_symbol (h : e.symbol? = some x) : e.names = [x] := by
  cases e with
  | name => cases h; rfl
  | _ => cases h

theorem Expr.mem_names_of_symbol (h : e.symbol? = some x) : x ∈ e.names := by
  simp [names_of_symbol h]

theorem Expr.mapM_symbol_cons {names : List String} : (e :: es).mapM symbol? = some names ↔
      ∃ x, e.symbol? = some x ∧ ∃ rest, es.mapM symbol? = some rest ∧ names = x :: rest := by
  simp only [List.mapM_cons, Option.bind_eq_bind, Option.bind_eq_some_iff, Option.pure_def, Option.some.injEq,
    eq_comm (b := names)]

theorem Expr.map_symbol {names : List String} (h : es.mapM symbol? = some names) :
    es.map symbol? = names.map some := by
  induction es generalizing names with
  | nil =>
    cases h
    rfl
  | cons e es ih =>
    obtain ⟨x, hx, rest, hrest, rfl⟩ := mapM_symbol_cons.1 h
    rw [List.map_cons, List.map_cons, hx, ih hrest]

theorem Expr.exists_symbol {names : List String} (h : es.mapM symbol? = some names) (he : e ∈ es) :
    ∃ x ∈ names, e.symbol? = some x := by
  obtain ⟨x, hx, hsymbol⟩ := List.mem_map.1 (map_symbol h ▸ List.mem_map_of_mem he)
  exact ⟨x, hx, hsymbol.symm⟩

theorem Stmt.mem_namesAll {z : String} : z ∈ namesAll block ↔ ∃ s ∈ block, z ∈ s.names := by
  induction block with
  | nil => simp
  | cons s block ih => simp [ih]

namespace Interpretation

variable {α : Type} {I J : Interpretation α} {σ τ : Store α}

/-- What reading a name gives. -/
def read (I : Interpretation α) (store : Store α) (name : String) : Option (Value α) :=
  (store name).or (if I.denotes name then some (.procedure name) else none)

mutual

def Eval (I : Interpretation α) (store : Store α) : Expr → Value α → Prop
  | .name symbol _, v => I.read store symbol = some v
  | .literal text typing, v => v = I.literal text typing.ty
  | .tuple elements _, v => ∃ vs, EvalAll I store elements vs ∧ v = .tuple vs
  | .apply function arguments _, v =>
    ∃ f vs, (match function.builtin? with
      | some symbol => f = .procedure symbol
      | none => Eval I store function f) ∧
      EvalAll I store arguments vs ∧ I.apply f vs v
  | .closure function captured _, v => ∃ f vs, Eval I store function f ∧ EvalAll I store captured vs ∧ v = .closure f vs

def EvalAll (I : Interpretation α) (store : Store α) : List Expr → List (Value α) → Prop
  | [], vs => vs = []
  | e :: rest, vs => ∃ w ws, Eval I store e w ∧ EvalAll I store rest ws ∧ vs = w :: ws

end

mutual

/-- Evaluation reads only the names of an expression, so it goes through wherever these read alike
and calls have at least the same results. -/
theorem Eval.mono (hliteral : I.literal = J.literal)
    (happly : ∀ f vs v, I.apply f vs v → J.apply f vs v) :
    ∀ {e : Expr} {v : Value α}, (∀ x ∈ e.names, ∀ w, I.read σ x = some w → J.read τ x = some w) →
      I.Eval σ e v → J.Eval τ e v
  | .name symbol _, v, hread, h => hread symbol (by simp) v h
  | .literal .., v, _, h => by
    rw [Eval] at h ⊢
    rw [← hliteral, h]
  | .tuple elements _, v, hread, h => by
    obtain ⟨vs, hvs, rfl⟩ := h
    exact ⟨vs, EvalAll.mono hliteral happly (fun x hx => hread x (by simpa using hx)) hvs, rfl⟩
  | .apply function arguments _, v, hread, h => by
    obtain ⟨f, vs, hf, hvs, hv⟩ := h
    refine ⟨f, vs, ?_, ?_, happly f vs v hv⟩
    · cases hb : function.builtin? with
      | some symbol => simpa [hb] using hf
      | none =>
        simp only [hb] at hf ⊢
        exact Eval.mono hliteral happly (fun x hx => hread x (by simp [hx])) hf
    · exact EvalAll.mono hliteral happly (fun x hx => hread x (by simp [hx])) hvs
  | .closure function captured _, v, hread, h => by
    obtain ⟨f, vs, hf, hvs, rfl⟩ := h
    exact ⟨f, vs, Eval.mono hliteral happly (fun x hx => hread x (by simp [hx])) hf,
      EvalAll.mono hliteral happly (fun x hx => hread x (by simp [hx])) hvs, rfl⟩

theorem EvalAll.mono (hliteral : I.literal = J.literal)
    (happly : ∀ f vs v, I.apply f vs v → J.apply f vs v) :
    ∀ {es : List Expr} {vs : List (Value α)}, (∀ x ∈ Expr.namesAll es, ∀ w, I.read σ x = some w → J.read τ x = some w) →
      I.EvalAll σ es vs → J.EvalAll τ es vs
  | [], _, _, h => h
  | e :: rest, _, hread, h => by
    obtain ⟨w, ws, hw, hws, rfl⟩ := h
    exact ⟨w, ws, Eval.mono hliteral happly (fun x hx => hread x (by simp [hx])) hw,
      EvalAll.mono hliteral happly (fun x hx => hread x (by simp [hx])) hws, rfl⟩

end

theorem EvalAll.length_eq :
    ∀ {es : List Expr} {vs : List (Value α)}, I.EvalAll σ es vs → vs.length = es.length
  | [], _, h => by rw [h]; rfl
  | e :: es, _, h => by
    obtain ⟨w, ws, -, hws, rfl⟩ := h
    rw [List.length_cons, List.length_cons, hws.length_eq]

/-- Blocks run over a store, which evaluation does not change. -/
def machine (I : Interpretation α) : Machine (Store α) (Value α) where
  eval store e v store' := store' = store ∧ I.Eval store e v
  assign x v store := Function.update store x (some v)
  decides v b := I.truth v = some b

/-- A block run from a store hands back a value. -/
def Yields (I : Interpretation α) (store : Store α) (body : List Stmt) (v : Value α) : Prop :=
  ∃ store', Exec I.machine store body (.leaves (some v) store')

/-- Calls have at most one result. -/
def Functional (I : Interpretation α) : Prop :=
  ∀ f vs v w, I.apply f vs v → I.apply f vs w → v = w

mutual

theorem Eval.unique (hI : I.Functional) :
    ∀ {e : Expr} {v w : Value α}, I.Eval σ e v → I.Eval σ e w → v = w
  | .name .., _, _, hv, hw => Option.some.inj (hv.symm.trans hw)
  | .literal .., _, _, hv, hw => hv.trans hw.symm
  | .tuple .., _, _, hv, hw => by
    obtain ⟨vs, hvs, rfl⟩ := hv
    obtain ⟨ws, hws, rfl⟩ := hw
    rw [EvalAll.unique hI hvs hws]
  | .apply function arguments typing, v, w, hv, hw => by
    obtain ⟨f, vs, hf, hvs, hv⟩ := hv
    obtain ⟨g, ws, hg, hws, hw⟩ := hw
    have hfg : f = g := by
      cases hb : function.builtin? with
      | some symbol =>
        simp only [hb] at hf hg
        exact hf.trans hg.symm
      | none =>
        simp only [hb] at hf hg
        exact Eval.unique hI hf hg
    rw [hfg, EvalAll.unique hI hvs hws] at hv
    exact hI _ _ _ _ hv hw
  | .closure .., _, _, hv, hw => by
    obtain ⟨f, vs, hf, hvs, rfl⟩ := hv
    obtain ⟨g, ws, hg, hws, rfl⟩ := hw
    rw [Eval.unique hI hf hg, EvalAll.unique hI hvs hws]

theorem EvalAll.unique (hI : I.Functional) :
    ∀ {es : List Expr} {vs ws : List (Value α)}, I.EvalAll σ es vs → I.EvalAll σ es ws → vs = ws
  | [], _, _, hvs, hws => hvs.trans hws.symm
  | e :: es, _, _, hvs, hws => by
    obtain ⟨v, vs, hv, hvs, rfl⟩ := hvs
    obtain ⟨w, ws, hw, hws, rfl⟩ := hws
    rw [Eval.unique hI hv hw, EvalAll.unique hI hvs hws]

end

theorem exec_unique {o o' : Outcome (Store α) (Value α)} (hI : I.Functional)
    (h : Exec I.machine σ block o) (h' : Exec I.machine σ block o') (ho : o.isCut = false) (ho' : o'.isCut = false) :
    o = o' := by
  have heval : ∀ {c e v v' d d'}, I.machine.eval c e v d → I.machine.eval c e v' d' → v = v' ∧ d = d' :=
    fun h h' => ⟨h.2.unique hI h'.2, h.1.trans h'.1.symm⟩
  have hdecides : ∀ {v b b'}, I.machine.decides v b → I.machine.decides v b' → b = b' :=
    fun h h' => Option.some.inj (Eq.trans (Eq.symm h) h')
  exact h.unique heval hdecides h' ho ho'

theorem Yields.unique {body : List Stmt} {v w : Value α} (hI : I.Functional)
    (hv : I.Yields σ body v) (hw : I.Yields σ body w) : v = w := by
  obtain ⟨_, hv⟩ := hv
  obtain ⟨_, hw⟩ := hw
  cases exec_unique hI hv hw rfl rfl
  rfl

end Interpretation
end DataParallel
