import DataParallel.Proofs.Steps

/-! Contracts for steps that can fail: which errors are harmless, and what holds of the result.

With every error harmless a contract speaks of successful runs only, with none it promises success.
-/

namespace DataParallel

open List

variable {α β γ ε σ : Type} {harmless : ε → Prop} {a : α} {e : ε} {x : StateT σ (Except ε) α}
  {f : α → StateT σ (Except ε) β} {p : α → Prop} {s t : σ} {y : Except ε α}

theorem Except.any_toOption {x : Except ε β} {p : β → Bool} :
    x.toOption.any p = true ↔ ∃ a, x = .ok a ∧ p a = true := by
  cases x with
  | error e => simp [Except.toOption]
  | ok a => simp [Except.toOption]

/-- The steps fail with a harmless error, or return what satisfies `post`. -/
def Meets (harmless : ε → Prop) (post : α → Prop) : Except ε α → Prop
  | .ok a => post a
  | .error e => harmless e

namespace Meets

variable {post : α → Prop} {x : Except ε α}

theorem mono {post' : α → Prop} (h : Meets harmless post x) (hpost : ∀ a, post a → post' a) :
    Meets harmless post' x := by
  cases x with
  | error e => exact h
  | ok a => exact hpost a h

theorem weaken {harmless' : ε → Prop} (h : Meets harmless post x)
    (hweaker : ∀ e, harmless e → harmless' e) : Meets harmless' post x := by
  cases x with
  | error e => exact hweaker e h
  | ok a => exact h

theorem bind {post' : β → Prop} {f : α → Except ε β} (h : Meets harmless post x)
    (hf : ∀ a, post a → Meets harmless post' (f a)) : Meets harmless post' (x >>= f) := by
  cases x with
  | error e => exact h
  | ok a => exact hf a h

theorem mapM {f : γ → Except ε α} {xs : List γ} (h : ∀ c ∈ xs, Meets harmless post (f c)) :
    Meets harmless (fun ys => ∀ y ∈ ys, post y) (xs.mapM f) := by
  induction xs with
  | nil =>
    intro y hy
    exact absurd hy not_mem_nil
  | cons c cs ih =>
    rw [mapM_cons]
    refine (h c mem_cons_self).bind fun y hy => ?_
    refine (ih fun d hd => h d (mem_cons_of_mem c hd)).bind fun ys hys => ?_
    exact forall_mem_cons.2 ⟨hy, hys⟩

theorem of_ok (h : Meets harmless post x) (hx : x = .ok a) : post a := by
  subst hx
  exact h

theorem of_error (h : Meets harmless post x) (hx : x = .error e) : harmless e := by
  subst hx
  exact h

theorem exists_ok (h : Meets (fun _ : ε => False) post x) : ∃ a, x = .ok a ∧ post a := by
  cases x with
  | error e => exact h.elim
  | ok a => exact ⟨a, rfl, h⟩

end Meets

/-- Started where `pre` holds, the steps fail with a harmless error or end where `post` holds. -/
def Triple (harmless : ε → Prop) (pre : σ → Prop) (x : StateT σ (Except ε) α) (post : α → σ → Prop) : Prop :=
  ∀ s, pre s → Meets harmless (fun r => post r.1 r.2) (x.run s)

namespace Triple

variable {pre : σ → Prop} {m post : α → σ → Prop}

theorem pure (h : ∀ s, pre s → post a s) :
    Triple harmless pre (Pure.pure a : StateT σ (Except ε) α) post := h

theorem mono {post' : α → σ → Prop} (h : Triple harmless pre x post)
    (hpost : ∀ a s, post a s → post' a s) : Triple harmless pre x post' := by
  intro s hs
  exact (h s hs).mono fun r hr => hpost r.1 r.2 hr

theorem weaken {pre' : σ → Prop} (h : Triple harmless pre x post) (hpre : ∀ s, pre' s → pre s) :
    Triple harmless pre' x post := fun s hs => h s (hpre s hs)

theorem bind {post : β → σ → Prop} (h : Triple harmless pre x m)
    (hf : ∀ a, Triple harmless (m a) (f a) post) : Triple harmless pre (x >>= f) post := by
  intro s hs
  rw [StateT.run_bind]
  refine (h s hs).bind fun r hr => ?_
  exact hf r.1 r.2 hr

theorem andThen {post : β → σ → Prop} (h : Triple harmless pre x fun a s => p a ∧ m a s)
    (hf : ∀ a, p a → Triple harmless (m a) (f a) post) : Triple harmless pre (x >>= f) post :=
  h.bind fun a s hs => hf a hs.1 s hs.2

theorem get {post : σ → σ → Prop} (h : ∀ s, pre s → post s s) :
    Triple harmless pre (MonadState.get : StateT σ (Except ε) σ) post := h

theorem set {post : PUnit → σ → Prop} (h : ∀ s, pre s → post ⟨⟩ t) :
    Triple harmless pre (MonadStateOf.set t : StateT σ (Except ε) PUnit) post := h

theorem modifies {f : σ → σ} {post : PUnit → σ → Prop} (h : ∀ s, pre s → post ⟨⟩ (f s)) :
    Triple harmless pre (modify f : StateT σ (Except ε) PUnit) post := h

theorem modifyGet {f : σ → α × σ} (h : ∀ s, pre s → post (f s).1 (f s).2) :
    Triple harmless pre (MonadState.modifyGet f : StateT σ (Except ε) α) post := h

theorem throw (h : harmless e) :
    Triple harmless pre (MonadExcept.throw e : StateT σ (Except ε) α) post := fun _ _ => h

theorem lift (h : Meets harmless p y) (hpost : ∀ a s, p a → pre s → post a s) :
    Triple harmless pre (liftM y : StateT σ (Except ε) α) post := by
  intro s hs
  cases y with
  | error e => exact h
  | ok a => exact hpost a s h hs

theorem run' (h : Triple harmless pre x fun a _ => p a) (hs : pre s) :
    Meets harmless p (x.run' s) := by
  have hrun := h s hs
  rw [StateT.run'_eq]
  cases hx : x.run s with
  | error e => rwa [hx] at hrun
  | ok r => rwa [hx] at hrun

end Triple

def Preserves (harmless : ε → Prop) (inv : σ → Prop) (x : StateT σ (Except ε) α) (p : α → Prop) : Prop :=
  Triple harmless inv x fun a s => p a ∧ inv s

namespace Preserves

variable {inv : σ → Prop} {q : β → Prop}

theorem pure (h : p a) : Preserves harmless inv (Pure.pure a) p := Triple.pure fun _ hs => ⟨h, hs⟩

theorem bind (h : Preserves harmless inv x p)
    (hf : ∀ a, p a → Preserves harmless inv (f a) q) : Preserves harmless inv (x >>= f) q :=
  Triple.andThen h hf

theorem mono {p' : α → Prop} (h : Preserves harmless inv x p) (hp : ∀ a, p a → p' a) :
    Preserves harmless inv x p' :=
  Triple.mono h fun a _ hs => ⟨hp a hs.1, hs.2⟩

theorem get : Preserves harmless inv (MonadState.get : StateT σ (Except ε) σ) inv :=
  Triple.get fun _ hs => ⟨hs, hs⟩

theorem set (h : inv t) :
    Preserves harmless inv (MonadStateOf.set t : StateT σ (Except ε) PUnit) fun _ => True :=
  Triple.set fun _ _ => ⟨trivial, h⟩

theorem modifies {f : σ → σ} (h : ∀ s, inv s → inv (f s)) :
    Preserves harmless inv (modify f : StateT σ (Except ε) PUnit) fun _ => True :=
  Triple.modifies fun s hs => ⟨trivial, h s hs⟩

theorem modifyGet {f : σ → α × σ} (h : ∀ s, inv s → p (f s).1 ∧ inv (f s).2) :
    Preserves harmless inv (MonadState.modifyGet f : StateT σ (Except ε) α) p :=
  Triple.modifyGet h

theorem throw (h : harmless e) :
    Preserves harmless inv (MonadExcept.throw e : StateT σ (Except ε) α) p :=
  Triple.throw h

theorem lift (h : Meets harmless p y) :
    Preserves harmless inv (liftM y : StateT σ (Except ε) α) p :=
  Triple.lift h fun _ _ ha hs => ⟨ha, hs⟩

theorem mapM {f : γ → StateT σ (Except ε) α} {cs : List γ}
    (h : ∀ c ∈ cs, Preserves harmless inv (f c) p) :
    Preserves harmless inv (cs.mapM f) fun as => ∀ a ∈ as, p a := by
  induction cs with
  | nil => exact pure nofun
  | cons c cs ih =>
    rw [mapM_cons]
    refine (h c mem_cons_self).bind fun a ha => ?_
    refine (ih fun d hd => h d (mem_cons_of_mem c hd)).bind fun as has => pure fun b hb => ?_
    rcases mem_cons.1 hb with rfl | hb
    · exact ha
    · exact has b hb

theorem run' (h : Preserves harmless inv x p) (hs : inv s) : Meets harmless p (x.run' s) :=
  Triple.run' (Triple.mono h fun _ _ h => h.1) hs

end Preserves

end DataParallel
