import DataParallel.Expr.Checked

/-! What a successful run of lowering steps says about the steps it is made of. -/

namespace DataParallel

open DataParallel.Expr

variable {α β : Type} {context : String} {e : Expr}

theorem Except.bind_ok_iff {ε : Type} {x : Except ε α} {f : α → Except ε β} {b : β} :
    (x >>= f) = .ok b ↔ ∃ a, x = .ok a ∧ f a = .ok b := by
  cases x with
  | error e => simp [bind, Except.bind]
  | ok a => simp [bind, Except.bind]

namespace Lower

variable {γ σ : Type} {s s' : σ} {a : α} {x : Lower σ α} {f : γ → Lower σ α} {ys : List α} {xs : List γ}

@[simp] theorem run_pure_ok : (pure a : Lower σ α).run s = .ok (a, s) := rfl

theorem run_bind_ok_iff {f : α → Lower σ β} {r : β × σ} :
    (x >>= f).run s = .ok r ↔ ∃ a s', x.run s = .ok (a, s') ∧ (f a).run s' = .ok r := by
  rw [StateT.run_bind, Except.bind_ok_iff]
  exact ⟨fun ⟨⟨a, s'⟩, hx, hf⟩ => ⟨a, s', hx, hf⟩, fun ⟨a, s', hx, hf⟩ => ⟨(a, s'), hx, hf⟩⟩

theorem run_bind_of {f : α → Lower σ β} (h : x.run s = .ok (a, s')) :
    (x >>= f).run s = (f a).run s' := by
  rw [StateT.run_bind, h]
  rfl

@[simp] theorem run_get : (get : Lower σ σ).run s = .ok (s, s) := rfl

@[simp] theorem run_set (t : σ) : (set t : Lower σ PUnit).run s = .ok (⟨⟩, t) := rfl

@[simp] theorem run_modify (f : σ → σ) : (modify f : Lower σ PUnit).run s = .ok (⟨⟩, f s) := rfl

@[simp] theorem run_modifyGet (f : σ → α × σ) : (modifyGet f : Lower σ α).run s = .ok (f s) := rfl

@[simp] theorem run_throw (e : LoweringError) : (throw e : Lower σ α).run s = .error e := rfl

theorem run_lift_ok_iff {x : Except LoweringError α} :
    (liftM x : Lower σ α).run s = .ok (a, s') ↔ x = .ok a ∧ s' = s := by
  cases x with
  | error e => simp [liftM, monadLift, MonadLift.monadLift, StateT.run, StateT.lift, bind, Except.bind]
  | ok a =>
    simp [liftM, monadLift, MonadLift.monadLift, StateT.run, StateT.lift, bind, Except.bind, pure, Except.pure, eq_comm]

theorem run'_ok (h : x.run' s = .ok a) : ∃ s', x.run s = .ok (a, s') := by
  cases hx : x.run s with
  | error e =>
    rw [StateT.run'_eq, hx] at h
    cases h
  | ok r =>
    rw [StateT.run'_eq, hx] at h
    cases h
    exact ⟨r.2, rfl⟩

theorem run_mapM_nil_ok (h : (([] : List γ).mapM f).run s = .ok (ys, s')) : ys = [] ∧ s' = s := by
  cases h
  exact ⟨rfl, rfl⟩

theorem run_mapM_cons_ok {x : γ} (h : ((x :: xs).mapM f).run s = .ok (ys, s')) :
    ∃ y s₁ ys', (f x).run s = .ok (y, s₁) ∧ (xs.mapM f).run s₁ = .ok (ys', s') ∧ ys = y :: ys' := by
  rw [List.mapM_cons] at h
  obtain ⟨y, s₁, hy, h⟩ := run_bind_ok_iff.1 h
  obtain ⟨ys', s₂, hys, h⟩ := run_bind_ok_iff.1 h
  cases h
  exact ⟨y, s₁, ys', hy, hys, rfl⟩

theorem run_mapM_lift_ok_iff (f : γ → Except LoweringError α) :
    (xs.mapM fun x => (liftM (f x) : Lower σ α)).run s = .ok (ys, s') ↔ xs.mapM f = .ok ys ∧ s' = s := by
  induction xs generalizing ys with
  | nil =>
    constructor
    · intro h
      cases h
      exact ⟨rfl, rfl⟩
    · rintro ⟨h, rfl⟩
      cases h
      rfl
  | cons x xs ih =>
    rw [List.mapM_cons, List.mapM_cons, run_bind_ok_iff, Except.bind_ok_iff]
    constructor
    · rintro ⟨b, s₁, hb, h⟩
      obtain ⟨bs, s₂, hbs, h⟩ := run_bind_ok_iff.1 h
      cases h
      obtain ⟨hfirst, hs⟩ := run_lift_ok_iff.1 hb
      cases hs
      obtain ⟨hrest, hs⟩ := ih.1 hbs
      exact ⟨⟨b, hfirst, Except.bind_ok_iff.2 ⟨bs, hrest, rfl⟩⟩, hs⟩
    · rintro ⟨⟨b, hb, h⟩, rfl⟩
      obtain ⟨bs, hbs, h⟩ := Except.bind_ok_iff.1 h
      cases h
      exact ⟨b, _, run_lift_ok_iff.2 ⟨hb, rfl⟩, run_bind_ok_iff.2 ⟨bs, _, ih.2 ⟨hbs, rfl⟩, rfl⟩⟩

end Lower

theorem Expr.expectName_ok {x : String} : e.expectName context = .ok x ↔ e.symbol? = some x := by
  cases h : e.symbol? <;> simp [expectName, h]

theorem Expr.mapM_expectName_ok : ∀ {es : List Expr} {names : List String},
    es.mapM (expectName context) = .ok names ↔ es.mapM symbol? = some names
  | [], _ => ⟨fun h => by cases h; rfl, fun h => by cases h; rfl⟩
  | e :: es, _ => by
    rw [List.mapM_cons, List.mapM_cons]
    constructor
    · intro h
      obtain ⟨x, hx, h⟩ := Except.bind_ok_iff.1 h
      obtain ⟨names, hnames, h⟩ := Except.bind_ok_iff.1 h
      cases h
      rw [expectName_ok.1 hx, mapM_expectName_ok.1 hnames]
      rfl
    · intro h
      obtain ⟨x, hx, h⟩ := Option.bind_eq_some_iff.1 h
      obtain ⟨names, hnames, h⟩ := Option.bind_eq_some_iff.1 h
      cases h
      rw [expectName_ok.2 hx, mapM_expectName_ok.2 hnames]
      rfl

theorem Expr.expectLayout_ok {layout : Layout} :
    e.expectLayout = .ok layout ↔ e.layout = some layout := by
  cases h : e.layout <;> simp [expectLayout, h]

theorem Expr.containerOf_ok {view storage : Expr} (h : view.containerOf = .ok storage) :
    ∃ x, view.symbol? = some x ∧ storage.symbol? = some (Name.container x) := by
  simp only [containerOf, Except.bind_ok_iff] at h
  obtain ⟨x, hx, layout, -, hs⟩ := h
  cases hs
  exact ⟨x, expectName_ok.1 hx, rfl⟩

end DataParallel
