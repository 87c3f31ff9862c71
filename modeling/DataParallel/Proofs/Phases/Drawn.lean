import DataParallel.Proofs.Phases.Tasks

/-! What the output of phase analysis binds: what the input binds, and names drawn on the way. -/

namespace DataParallel

open List Phases.State Stmt

namespace Stmt

/-- The names that the binds of a block bind, without those in its branches and loops. -/
def directNames : List Stmt → List String
  | [] => []
  | .bind target _ :: rest => target.symbol?.toList ++ directNames rest
  | _ :: rest => directNames rest

end Stmt

namespace Phases

variable {x y : String} {s s' t t' : State} {Γ : Context}

theorem mem_bodyTargets {body : List Stmt} (h : x ∈ localNames body) : x ∈ bodyTargets body := by
  obtain ⟨e, he, hx⟩ := mem_filterMap.1 h
  have hstmt : ∃ stmt ∈ body, e ∈ stmt.boundNames := by
    clear h
    induction body <;> simp_all [boundNamesAll]
    grind
  obtain ⟨stmt, hstmt, he⟩ := hstmt
  obtain ⟨e', he', hsymbol⟩ := @mem_firstOfEachName _ [] _ he (by simp)
  exact mem_filterMap.2 ⟨e', mem_flatMap.2 ⟨stmt, hstmt, he'⟩, hsymbol.trans hx⟩

def Drawn (s t : State) (y : String) : Prop :=
  (∃ (base : String) (n : Nat), y = base ++ "_phase" ++ toString n ∧ s.phases.counter ≤ n ∧ n < t.phases.counter) ∨
  ∃ n : Nat, y = "_sync" ++ toString n ∧ s.temporaries.counter ≤ n ∧ n < t.temporaries.counter

theorem Drawn.mono (h : Drawn s t y) (hs : s'.Draws s) (ht : t.Draws t') : Drawn s' t' y := by
  rcases h with ⟨base, n, rfl, hn, hn'⟩ | ⟨n, rfl, hn, hn'⟩
  · exact .inl ⟨base, n, rfl, Nat.le_trans hs.1 hn, Nat.lt_of_lt_of_le hn' ht.1⟩
  · exact .inr ⟨n, rfl, Nat.le_trans hs.2 hn, Nat.lt_of_lt_of_le hn' ht.2⟩

theorem Drawn.isDrawn (h : Drawn s t y) : Name.IsDrawn y := by
  rcases h with ⟨base, n, rfl, -⟩ | ⟨n, rfl, -⟩
  · exact .inl ⟨base, n, rfl⟩
  · exact .inr ⟨n, rfl⟩

theorem State.Past.not_drawn (h : s.Past y) : ¬ Drawn s t y := by
  rintro (⟨base, n, hy, hn, -⟩ | ⟨n, hy, hn, -⟩)
  · exact absurd ((h y .refl).1 base n hy) (Nat.not_lt.2 hn)
  · exact absurd ((h y .refl).2 n hy) (Nat.not_lt.2 hn)

theorem State.Past.ne_drawn (h : s.Past x) (hy : Drawn s t y) : x ≠ y :=
  fun hxy => h.not_drawn (hxy ▸ hy)

theorem drawn_derived (hs : s.Stems) (x : String) (ht : s.phases.counter < t.phases.counter) :
    Drawn s t (s.phases.derive x).1 :=
  .inl ⟨x, s.phases.counter, hs.derive x, Nat.le_refl _, ht⟩

theorem drawn_temporary (hs : s.Stems) (ht : s.temporaries.counter < t.temporaries.counter) :
    Drawn s t s.temporaries.next.1 :=
  .inr ⟨s.temporaries.counter, hs.next, Nat.le_refl _, ht⟩

theorem mem_localNames_one {target value : Expr} (h : y ∈ localNames [.bind target value]) :
    target.symbol? = some y :=
  (mem_localNames_bind_iff.1 h).resolve_right not_mem_nil

theorem Derives.drawn {task : Task} {results : List (Expr × Completion)} {binds : List Stmt}
    (h : Derives Γ task s results binds s') (hs : s.Stems) (hy : y ∈ localNames binds) : Drawn s s' y := by
  refine (h.effects (motive := fun s binds t => Grows s t ∧ (s.Stems → y ∈ localNames binds →
    Drawn s t y)) (fun s => ⟨.refl s, nofun⟩) (fun hone => ⟨hone.grows, fun hs hy => ?_⟩)
    fun hfirst hsecond => ⟨hfirst.1.trans hsecond.1, fun hs hy => ?_⟩).2 hs hy
  · cases hone with
    | substituted => cases hy
    | hoisted =>
      cases mem_localNames_one hy
      exact drawn_temporary hs (Nat.lt_succ_self _)
    | realized | rebuilt | reclosed =>
      cases mem_localNames_one hy
      exact drawn_derived hs _ (Nat.lt_succ_self _)
  · rcases mem_localNames_append.1 hy with hy | hy
    · exact (hfirst.2 hs hy).mono (.refl _) hsecond.1.draws
    · exact (hsecond.2 (hs.mono hfirst.1) hy).mono hfirst.1.draws (.refl _)

namespace State
variable {u : State}

theorem Draws.trans (h : Draws s t) (h' : Draws t u) : Draws s u :=
  ⟨Nat.le_trans h.1 h'.1, Nat.le_trans h.2 h'.2⟩

theorem grows_joined (ht : Grows s.enter t) (hu : Grows (s.resume t).enter u) :
    Grows s (s.joined t u) :=
  have hresume : Grows s (s.resume u) := (grows_resume ht).trans (grows_resume hu)
  (hresume.trans (grows_setCompletions _ _)).trans (grows_invalidateAll _ _)

theorem draws_joined (s t u : State) : Draws u (s.joined t u) :=
  have hset := (s.resume u).grows_setCompletions (joinBranches (s.resume u) t.completions.inner u.completions.inner)
  have hall := hset.trans (grows_invalidateAll _ (t.bound.inner.keys ++ u.bound.inner.keys))
  ⟨hall.drawn, hall.temporaryDrawn⟩

theorem grows_settled {selfResults : List String} {head : Table Completion}
    (ht : Grows (s.tripStart selfResults head) t) : Grows s (s.settled t head) :=
  (grows_resume ((grows_tripStart s selfResults head).trans ht)).trans (grows_setCompletions _ _)

theorem draws_settled (s t : State) (head : Table Completion) : Draws t (s.settled t head) :=
  have hset := (s.resume t).grows_setCompletions (joinHead s head t.completions.inner)
  ⟨hset.drawn, hset.temporaryDrawn⟩

end State
variable {block out : List Stmt}

/-- An analyzed block binds nothing new but drawn names. -/
theorem Analyzed.bound (h : Analyzed Γ block s out s') (hs : s.Stems) (hy : y ∈ localNames out) :
    y ∈ localNames block ∨ Drawn s s' y := by
  -- what stands in front of a statement, the statement itself, and the rest
  have split : ∀ {binds out : List Stmt} {stmt : Stmt}, y ∈ localNames (binds ++ stmt :: out) →
      y ∈ localNames binds ∨ y ∈ localNames [stmt] ∨ y ∈ localNames out := by
    intro binds out stmt hy
    rw [← singleton_append] at hy
    exact (mem_localNames_append.1 hy).imp_right mem_localNames_append.1
  induction h with
  | nil => cases hy
  | @bind _ _ value' x completion _ _ _ _ s₁ _ _ hd hrest ih =>
    have hgrows := (s₁.grows_record Γ.entry x value' completion).trans (grows_flush _)
    rcases split hy with hy | hy | hy
    · exact .inr ((hd.drawn hs hy).mono (.refl _) (hgrows.trans hrest.grows).draws)
    · exact .inl (mem_localNames_bind (mem_localNames_one hy))
    · exact (ih ((hs.mono hd.grows).mono hgrows) hy).imp mem_localNames_rest
        fun hy => hy.mono (hd.grows.trans hgrows).draws (.refl _)
  | @ret value value' completion binds rest out s s₁ s' _ hd hrest ih
  | @entryRet _ _ _ _ _ _ s₁ _ _ hd hrest ih =>
    have hgrows := grows_flush s₁
    rcases split hy with hy | hy | hy
    · exact .inr ((hd.drawn hs hy).mono (.refl _) (hgrows.trans hrest.grows).draws)
    · cases hy
    · exact (ih ((hs.mono hd.grows).mono hgrows) hy).imp mem_localNames_rest
        fun hy => hy.mono (hd.grows.trans hgrows).draws (.refl _)
  | @branch _ _ _ _ _ _ _ _ _ _ _ s₁ t u _ hd ht hu hrest iht ihu ih =>
    have hs₁ := (hs.mono hd.grows).mono (grows_flush _)
    have hbefore := (hd.grows.trans (grows_flush _)).draws
    have hs₂ : (s₁.flush.resume t).Stems := hs₁.mono (grows_resume ht.grows)
    have hjoined := grows_joined ht.grows hu.grows
    have hafter := (draws_joined s₁.flush t u).trans hrest.grows.draws
    rcases split hy with hy | hy | hy
    · exact .inr ((hd.drawn hs hy).mono (.refl _) ((grows_flush _).trans (hjoined.trans hrest.grows)).draws)
    · rcases (mem_localNames_branch_iff.1 hy).resolve_right not_mem_nil with hy | hy
      · exact (iht hs₁ hy).imp (mem_localNames_branch (b := true))
          fun hy => hy.mono hbefore (Draws.trans hu.grows.draws hafter)
      · exact (ihu hs₂ hy).imp (mem_localNames_branch (b := false))
          fun hy => hy.mono (hbefore.trans (grows_resume ht.grows).draws) hafter
    · exact (ih (hs₁.mono hjoined) hy).imp mem_localNames_rest fun hy => hy.mono (hbefore.trans hjoined.draws) (.refl _)
  | @loop _ _ _ _ body _ _ _ s s₁ t _ selfResults head _ hd _ _ ht _ hrest _ iht ih =>
    have hstart := s.grows_invalidateAll (bodyTargets body)
    have hs₁ := (hs.mono (hstart.trans hd.grows)).mono (grows_flush _)
    have hbefore := ((hstart.trans hd.grows).trans (grows_flush _)).draws
    have htrip := grows_tripStart s₁.flush selfResults head
    have hs₂ : s₁.flush.enter.Stems := hs₁
    have hsettled := grows_settled ht.grows
    have hafter := (draws_settled s₁.flush t head).trans hrest.grows.draws
    rcases split hy with hy | hy | hy
    · exact .inr ((hd.drawn (hs.mono hstart) hy).mono hstart.draws
        ((grows_flush _).trans (hsettled.trans hrest.grows)).draws)
    · exact (iht (hs₂.mono htrip) ((mem_localNames_loop_iff.1 hy).resolve_right not_mem_nil)).imp mem_localNames_loop
        fun hy => hy.mono (hbefore.trans htrip.draws) hafter
    · exact (ih (hs₁.mono hsettled) hy).imp mem_localNames_rest
        fun hy => hy.mono (hbefore.trans hsettled.draws) (.refl _)

theorem Analyzed.bound_past (h : Analyzed Γ block t out t') (hs : t.Stems) (hd : s.Draws t) :
    ∀ y ∈ localNames out, y ∈ localNames block ∨ ¬ s.Past y := by
  intro y hy
  refine (h.bound hs hy).imp_right fun hdrawn hpast => ?_
  exact (hpast.mono hd).not_drawn hdrawn

theorem Analyzed.direct (h : Analyzed Γ block s out s') (hx : x ∈ directNames block) :
    x ∈ s'.bound.inner.keys := by
  induction h with
  | nil => cases hx
  | @bind target value value' y completion binds rest out s s₁ s' hy hd hrest ih =>
    rw [directNames, hy, mem_append] at hx
    rcases hx with hx | hx
    · cases mem_singleton.1 hx
      exact hrest.grows.bound x (Table.mem_keys_put.2 (.inl rfl))
    · exact ih hx
  | ret _ _ _ ih | entryRet _ _ _ ih => exact ih hx
  | branch _ _ _ _ _ _ ih => exact ih hx
  | loop _ _ _ _ _ _ _ _ ih => exact ih hx

end Phases
end DataParallel
