import DataParallel.Proofs.Phases.Tables

/-! The expressions of tasks, and the shapes of their results. -/

namespace DataParallel

open List DataParallel.Expr

namespace Phases

variable {es : List Expr} {registry : Registry} {z : String} {e : Expr}

namespace Task

mutual

@[simp] def exprs : Task → List Expr
  | .value e | .demand e _ | .named e _ | .returned e => [e]
  | .all tasks => exprsAll tasks

@[simp] def exprsAll : List Task → List Expr
  | [] => []
  | task :: rest => exprs task ++ exprsAll rest

end

mutual

/-- Whether tuples are built nowhere but at the top of what is read. -/
def isPlain : Task → Bool
  | .value e => e.partsBuildNoTuple
  | .demand e _ | .named e _ | .returned e => e.buildsNoTuple
  | .all tasks => arePlain tasks

def arePlain : List Task → Bool
  | [] => true
  | task :: rest => isPlain task && arePlain rest

end

mutual

@[simp] def returns : Task → Bool
  | .returned _ => true
  | .all tasks => anyReturns tasks
  | _ => false

@[simp] def anyReturns : List Task → Bool
  | [] => false
  | task :: rest => returns task || anyReturns rest

end

mutual

@[simp] def forced (registry : Registry) : Task → List String
  | .value e => e.forcedNames registry
  | .demand e _ | .named e _ | .returned e => e.names
  | .all tasks => forcedAll registry tasks

@[simp] def forcedAll (registry : Registry) : List Task → List String
  | [] => []
  | task :: rest => forced registry task ++ forcedAll registry rest

end

/-- The name that a task is about. -/
def symbol? : Task → Option String
  | .value e | .demand e _ | .named e _ | .returned e => e.symbol?
  | .all _ => none

section
variable {ds : List Ty}

@[simp] theorem exprsAll_values : exprsAll (es.map .value) = es := by
  induction es with
  | nil => rfl
  | cons e es ih => simp [ih]

@[simp] theorem exprsAll_returned : exprsAll (es.map .returned) = es := by
  induction es with
  | nil => rfl
  | cons e es ih => simp [ih]

theorem forcedAll_values : forcedAll registry (es.map .value) = forcedNamesAll registry es := by
  induction es with
  | nil => rfl
  | cons e es ih => simp [forcedNamesAll, ih]

theorem forcedAll_returned : forcedAll registry (es.map .returned) = namesAll es := by
  induction es with
  | nil => rfl
  | cons e es ih => simp [ih]

theorem mem_forcedAll_demands (h : z ∈ forcedAll registry (zipWith .demand es ds)) :
    z ∈ namesAll es := by
  induction es generalizing ds with
  | nil => simp at h
  | cons e es ih =>
    cases ds with
    | nil => simp at h
    | cons d ds =>
      simp only [zipWith_cons_cons, forcedAll, forced, mem_append] at h
      rw [namesAll, mem_append]
      exact h.imp_right ih

theorem mem_exprsAll_demands (h : e ∈ exprsAll (zipWith .demand es ds)) : e ∈ es := by
  induction es generalizing ds with
  | nil => simp at h
  | cons e' es ih =>
    cases ds with
    | nil => simp at h
    | cons d ds =>
      simp only [zipWith_cons_cons, exprsAll, exprs, mem_append, mem_singleton] at h
      rcases h with rfl | h
      · exact mem_cons_self
      · exact mem_cons_of_mem _ (ih h)

theorem arePlain_values (h : buildNoTuples es = true) : arePlain (es.map .value) = true := by
  induction es with
  | nil => rfl
  | cons e es ih =>
    simp only [buildNoTuples, Bool.and_eq_true] at h
    simp only [map_cons, arePlain, isPlain, Bool.and_eq_true]
    exact ⟨partsBuildNoTuple_of_builds h.1, ih h.2⟩

theorem arePlain_returned (h : buildNoTuples es = true) : arePlain (es.map .returned) = true := by
  induction es with
  | nil => rfl
  | cons e es ih =>
    simp only [buildNoTuples, Bool.and_eq_true] at h
    simp only [map_cons, arePlain, isPlain, Bool.and_eq_true]
    exact ⟨h.1, ih h.2⟩

theorem arePlain_demands (h : buildNoTuples es = true) :
    arePlain (zipWith .demand es ds) = true := by
  induction es generalizing ds with
  | nil => rfl
  | cons e es ih =>
    cases ds with
    | nil => rfl
    | cons d ds =>
      simp only [buildNoTuples, Bool.and_eq_true] at h
      simp only [zipWith_cons_cons, arePlain, isPlain, Bool.and_eq_true]
      exact ⟨h.1, ih h.2⟩

mutual

theorem partsBuildNoTuple_of_plain :
    ∀ {task : Task}, task.isPlain = true → ∀ e ∈ task.exprs, e.partsBuildNoTuple = true
  | .value _, h, _, he => mem_singleton.1 he ▸ h
  | .demand .., h, _, he | .named .., h, _, he | .returned _, h, _, he =>
    mem_singleton.1 he ▸ partsBuildNoTuple_of_builds h
  | .all _, h, e, he => partsBuildNoTuple_of_arePlain h e he

theorem partsBuildNoTuple_of_arePlain :
    ∀ {tasks : List Task}, arePlain tasks = true → ∀ e ∈ exprsAll tasks, e.partsBuildNoTuple = true
  | [], _, _, he => absurd he not_mem_nil
  | _ :: _, h, e, he => by
    rw [arePlain, Bool.and_eq_true] at h
    exact (mem_append.1 he).elim (partsBuildNoTuple_of_plain h.1 e) (partsBuildNoTuple_of_arePlain h.2 e)

end

@[simp] theorem anyReturns_values : anyReturns (es.map .value) = false := by
  induction es with
  | nil => rfl
  | cons e es ih => simp [ih]

@[simp] theorem anyReturns_demands : anyReturns (zipWith .demand es ds) = false := by
  induction es generalizing ds with
  | nil => rfl
  | cons e es ih =>
    cases ds with
    | nil => rfl
    | cons d ds => simp [ih]

end

end Task
variable {k : Head} {parts : List Expr}

/-- The names of an expression with parts that are not names of its parts. -/
def Head.names : Head → List String
  | .tuple _ => []
  | .closure function _ | .call function _ => function.names

theorem Head.names_build (head : Head) (parts : List Expr) :
    (head.build parts).names = head.names ++ namesAll parts := by
  cases head <;> rfl

theorem Head.mem_names_build :
    z ∈ (k.build parts).names ↔ z ∈ k.names ∨ ∃ e ∈ parts, z ∈ e.names := by
  rw [names_build, mem_append, mem_namesAll]

theorem Head.mem_forcedNames_build (h : z ∈ forcedNamesAll registry parts) :
    z ∈ (k.build parts).forcedNames registry := by
  cases k with
  | call function typing =>
    rw [build, forcedNames]
    split
    · exact namesAll_of_forced h
    · exact h
  | _ => exact h

theorem Head.isCallFree_build {parts' : List Expr}
    (h : (k.build parts).isCallFree = true) (hparts : ∀ e ∈ parts', e.isCallFree = true) :
    (k.build parts').isCallFree = true := by
  cases k with
  | call function typing => cases h
  | _ => exact areCallFree_iff.2 hparts

theorem Head.isCallFree_parts (h : (k.build parts).isCallFree = true) :
    ∀ e ∈ parts, e.isCallFree = true := by
  cases k with
  | call function typing => cases h
  | _ => exact areCallFree_iff.1 h

section Shapes
variable {Γ : Context} {s s' : State} {binds : List Stmt} {function value : Expr} {typing : Typing}
  {completion : Completion}

theorem Derives.value_apply {arguments : List Expr}
    (h : Derives Γ (.value (.apply function arguments typing)) s [(value, completion)] binds s') :
    (∃ callee, function.symbol? = some callee) ∧ ∃ arguments', value = .apply function arguments' typing := by
  generalize ht : Task.value (.apply function arguments typing) = task at h
  generalize hr : [(value, completion)] = results at h
  cases h with
  | @node head _ _ _ _ _ _ _ hjoins =>
    cases head with
    | call f t =>
      cases ht
      cases hr
      refine ⟨?_, _, rfl⟩
      cases hjoins with
      | makeTuple hf => exact ⟨_, hf⟩
      | project hf => exact ⟨_, hf⟩
      | stored hf => exact ⟨_, hf⟩
      | propagates hf => exact ⟨_, hf⟩
      | inert hf => exact ⟨_, hf⟩
    | _ => cases ht
  | forcing _ hf =>
    cases ht
    cases hr
    exact ⟨⟨_, hf⟩, _, rfl⟩
  | _ => cases ht

theorem Derives.demand_closure {captured : List Expr} {demand : Ty}
    (h : Derives Γ (.demand (.closure function captured typing) demand) s [(value, completion)] binds
      s') : ∃ captured', value = .closure function captured' typing := by
  generalize ht : Task.demand (.closure function captured typing) demand = task at h
  generalize hr : [(value, completion)] = results at h
  cases h with
  | @demandNode head _ _ _ _ _ _ _ _ _ =>
    cases head with
    | closure f t =>
      cases ht
      cases hr
      exact ⟨_, rfl⟩
    | _ => cases ht
  | _ => cases ht

theorem storageOf_cases {e' : Expr} (h : storageOf s e = .ok e') :
    e' = e ∨ ∃ x, e.symbol? = some x ∧ e'.symbol? = some (Name.container x) ∧
      s.completions.contains (Name.container x) = true := by
  unfold storageOf at h
  split at h
  · rename_i hstored
    obtain ⟨x, hx, hx'⟩ := containerOf_ok h
    rw [hx, Option.any_some, Bool.and_eq_true] at hstored
    exact .inr ⟨x, hx, hx', hstored.2⟩
  · cases h
    exact .inl rfl

theorem mem_storages {es' : List Expr} (h : es.mapM (storageOf s) = .ok es') :
    ∀ e' ∈ es', ∃ e ∈ es, storageOf s e = .ok e' := by
  induction es generalizing es' with
  | nil =>
    cases h
    simp
  | cons e es ih =>
    rw [mapM_cons] at h
    obtain ⟨f, hf, h⟩ := Except.bind_ok_iff.1 h
    obtain ⟨fs, hfs, h⟩ := Except.bind_ok_iff.1 h
    cases h
    intro e' he'
    rcases mem_cons.1 he' with rfl | he'
    · exact ⟨e, mem_cons_self, hf⟩
    · obtain ⟨e₀, he₀, hstorage⟩ := ih hfs e' he'
      exact ⟨e₀, mem_cons_of_mem _ he₀, hstorage⟩

theorem forces_of_signature {callee : String} {signature : Signature}
    (hf : function.symbol? = some callee)
    (hcallee : Name.Snippet.isSnippet callee = false) (hs : registry.get? callee = some signature)
    (hforces : signature.synchronization = .forces) : function.forces registry = true := by
  simp [forces, hf, hcallee, hs, hforces]

end Shapes

end Phases
end DataParallel
