import DataParallel.Proofs.Contracts

/-! Two runs side by side.

Both fail, with errors that belong together, or both succeed, with results that do. What belongs
together is given by relations: equality says that one run can stand for the other, weaker ones say
in what they may differ. -/

namespace DataParallel

variable {α β γ δ ε ε' σ σ' : Type} {failures : ε → ε' → Prop} {results : α → β → Prop} {results' : γ → δ → Prop}
  {x : StateT σ (Except ε) α} {a : α} {f : σ → σ}

/-- Both runs failed with related errors, or both succeeded with related results. -/
def Together (failures : ε → ε' → Prop) (results : α → β → Prop) : Except ε α → Except ε' β → Prop
  | .ok a, .ok b => results a b
  | .error e, .error f => failures e f
  | _, _ => False

namespace Together

variable {x : Except ε α} {y : Except ε' β}

theorem ok_or_error (h : Together failures results x y) :
    (∃ a b, x = .ok a ∧ y = .ok b ∧ results a b) ∨
    ∃ e f, x = .error e ∧ y = .error f ∧ failures e f := by
  cases x with
  | error e =>
    cases y with
    | error f => exact .inr ⟨e, f, rfl, rfl, h⟩
    | ok b => exact h.elim
  | ok a =>
    cases y with
    | error f => exact h.elim
    | ok b => exact .inl ⟨a, b, rfl, rfl, h⟩

theorem bind {f : α → Except ε γ} {g : β → Except ε' δ} (h : Together failures results x y)
    (hfg : ∀ a b, results a b → Together failures results' (f a) (g b)) :
    Together failures results' (x >>= f) (y >>= g) := by
  obtain ⟨a, b, rfl, rfl, hab⟩ | ⟨e, f, rfl, rfl, hef⟩ := h.ok_or_error
  · exact hfg a b hab
  · exact hef

end Together

/-- Started from related states, the steps fail together or end with related results in related
states. -/
def Alongside (failures : ε → ε' → Prop) (states : σ → σ' → Prop) (x : StateT σ (Except ε) α)
    (y : StateT σ' (Except ε') β) (results : α → β → Prop) : Prop :=
  ∀ s t, states s t → Together failures (fun r r' => results r.1 r'.1 ∧ states r.2 r'.2) (x.run s) (y.run t)

namespace Alongside

variable {states : σ → σ' → Prop} {y : StateT σ' (Except ε') β}

theorem pure {b : β} (h : results a b) :
    Alongside failures states (Pure.pure a : StateT σ (Except ε) α) (Pure.pure b : StateT σ' (Except ε') β) results :=
  fun _ _ hst => ⟨h, hst⟩

theorem bind {f : α → StateT σ (Except ε) γ} {g : β → StateT σ' (Except ε') δ}
    (h : Alongside failures states x y results)
    (hfg : ∀ a b, results a b → Alongside failures states (f a) (g b) results') :
    Alongside failures states (x >>= f) (y >>= g) results' := by
  intro s t hst
  rw [StateT.run_bind, StateT.run_bind]
  exact (h s t hst).bind fun r r' hr => hfg r.1 r'.1 hr.1 r.2 r'.2 hr.2

theorem get : Alongside failures states (MonadState.get : StateT σ (Except ε) σ)
    (MonadState.get : StateT σ' (Except ε') σ') states :=
  fun _ _ hst => ⟨hst, hst⟩

theorem throw {e : ε} {f : ε'} (h : failures e f) : Alongside failures states
    (MonadExcept.throw e : StateT σ (Except ε) α) (MonadExcept.throw f : StateT σ' (Except ε') β) results :=
  fun _ _ _ => h

end Alongside

/-- Steps that do the same wherever `inv` holds: they keep it, and what they return satisfies `p`.
-/
def Agree (inv : σ → Prop) (x y : StateT σ (Except ε) α) (p : α → Prop) : Prop :=
  Alongside Eq (fun s t => s = t ∧ inv s) x y fun a b => a = b ∧ p a

namespace Agree

variable {inv : σ → Prop} {y : StateT σ (Except ε) α} {p : α → Prop} {q : β → Prop}

theorem of_preserves (h : Preserves (fun _ => True) inv x p) : Agree inv x x p := by
  rintro s _ ⟨rfl, hs⟩
  have hrun := h s hs
  cases hx : x.run s with
  | error e => exact rfl
  | ok r =>
    rw [hx] at hrun
    exact ⟨⟨rfl, hrun.1⟩, rfl, hrun.2⟩

theorem pure (h : p a) : Agree inv (Pure.pure a : StateT σ (Except ε) α) (Pure.pure a) p :=
  Alongside.pure ⟨rfl, h⟩

theorem throw (e : ε) :
    Agree inv (MonadExcept.throw e : StateT σ (Except ε) α) (MonadExcept.throw e) p :=
  Alongside.throw rfl

theorem get : Agree inv (MonadState.get : StateT σ (Except ε) σ) MonadState.get inv := Alongside.get

theorem modifies (h : ∀ s, inv s → inv (f s)) :
    Agree inv (modify f : StateT σ (Except ε) PUnit) (modify f) fun _ => True :=
  of_preserves (.modifies h)

theorem bind {f g : α → StateT σ (Except ε) β} (h : Agree inv x y p)
    (hfg : ∀ a, p a → Agree inv (f a) (g a) q) : Agree inv (x >>= f) (y >>= g) q := by
  refine Alongside.bind h ?_
  rintro a _ ⟨rfl, ha⟩
  exact hfg a ha

theorem mapM {f g : γ → StateT σ (Except ε) α} {cs : List γ}
    (h : ∀ c ∈ cs, Agree inv (f c) (g c) p) :
    Agree inv (cs.mapM f) (cs.mapM g) fun as => ∀ a ∈ as, p a := by
  induction cs with
  | nil => exact pure nofun
  | cons c cs ih =>
    rw [List.mapM_cons, List.mapM_cons]
    refine (h c List.mem_cons_self).bind fun a ha => ?_
    refine (ih fun d hd => h d (List.mem_cons_of_mem c hd)).bind fun as has => pure fun b hb => ?_
    rcases List.mem_cons.1 hb with rfl | hb
    · exact ha
    · exact has b hb

theorem run_eq (h : Agree inv x y p) {s : σ} (hs : inv s) : x.run s = y.run s := by
  obtain ⟨r, r', hx, hy, ⟨hr, -⟩, hstates, -⟩ | ⟨e, f, hx, hy, rfl⟩ := (h s s ⟨rfl, hs⟩).ok_or_error
  · rw [hx, hy, Prod.ext hr hstates]
  · rw [hx, hy]

end Agree

end DataParallel
