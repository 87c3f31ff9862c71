import DataParallel.Proofs.Evaluation

/-! Frames: what a run that starts in a fresh frame does, a run from a store that knows more does as
well. -/

namespace DataParallel

open List Stmt

variable {block : List Stmt} {x : String} {e : Expr} {α : Type} {I J : Interpretation α} {σ τ : Store α}
  {o : Outcome (Store α) (Value α)}

/-- The names that a block binds, in its branches and loops as well. -/
def Stmt.localNames (block : List Stmt) : List String :=
  (boundNamesAll block).filterMap Expr.symbol?

namespace Stmt

variable {target test value : Expr} {rest ss ts whenFalse whenTrue : List Stmt} {s : Stmt} {b : Bool}

theorem mem_localNames_bind_iff :
    x ∈ localNames (.bind target value :: rest) ↔ target.symbol? = some x ∨ x ∈ localNames rest := by
  simp only [localNames, boundNamesAll, boundNames, filterMap_append, mem_append]
  cases target <;> simp [Expr.isName, Expr.symbol?, eq_comm]

theorem mem_localNames_branch_iff : x ∈ localNames (.branch test whenTrue whenFalse :: rest) ↔
    (x ∈ localNames whenTrue ∨ x ∈ localNames whenFalse) ∨ x ∈ localNames rest := by
  simp only [localNames, boundNamesAll, boundNames, filterMap_append, mem_append]

theorem mem_localNames_loop_iff :
    x ∈ localNames (.loop test block :: rest) ↔ x ∈ localNames block ∨ x ∈ localNames rest := by
  simp only [localNames, boundNamesAll, boundNames, filterMap_append, mem_append]

theorem mem_localNames_bind (h : target.symbol? = some x) :
    x ∈ localNames (.bind target value :: rest) :=
  mem_localNames_bind_iff.2 (.inl h)

theorem mem_localNames_rest (h : x ∈ localNames rest) : x ∈ localNames (s :: rest) := by
  simp only [localNames, boundNamesAll, filterMap_append, mem_append] at h ⊢
  exact .inr h

theorem mem_localNames_branch (h : x ∈ localNames (if b then whenTrue else whenFalse)) :
    x ∈ localNames (.branch test whenTrue whenFalse :: rest) := by
  cases b
  · exact mem_localNames_branch_iff.2 (.inl (.inr h))
  · exact mem_localNames_branch_iff.2 (.inl (.inl h))

theorem mem_localNames_loop (h : x ∈ localNames block) :
    x ∈ localNames (.loop test block :: rest) :=
  mem_localNames_loop_iff.2 (.inl h)

theorem mem_namesAll_branch (h : x ∈ namesAll (if b then whenTrue else whenFalse)) :
    x ∈ namesAll (.branch test whenTrue whenFalse :: rest) := by
  cases b <;> simp_all [namesAll, names]

theorem names_applySnippet {snippet : String} {arguments : List Expr} {typing : Typing}
    {z : String} :
    z ∈ (Expr.applySnippet snippet arguments typing).names ↔ z = snippet ∨ z ∈ Expr.namesAll arguments := by
  simp [Expr.applySnippet]

theorem mem_namesAll_append : x ∈ namesAll (ss ++ ts) ↔ x ∈ namesAll ss ∨ x ∈ namesAll ts := by
  induction ss with
  | nil => simp
  | cons s ss ih => simp [ih, or_assoc]

theorem mem_localNames_append :
    x ∈ localNames (ss ++ ts) ↔ x ∈ localNames ss ∨ x ∈ localNames ts := by
  induction ss with
  | nil => simp [localNames, boundNamesAll]
  | cons s ss ih =>
    simp only [localNames, boundNamesAll, cons_append, filterMap_append, mem_append] at ih ⊢
    rw [ih, or_assoc]

/-- Induction on where a name is bound. -/
theorem localNames_induction {motive : ∀ block : List Stmt, x ∈ localNames block → Prop}
    (bind : ∀ {target value : Expr} {rest : List Stmt}, target.symbol? = some x →
      ∀ h, motive (.bind target value :: rest) h)
    (whenTrue : ∀ {test : Expr} {block other rest : List Stmt} {hx}, motive block hx →
      ∀ h, motive (.branch test block other :: rest) h)
    (whenFalse : ∀ {test : Expr} {block other rest : List Stmt} {hx}, motive block hx →
      ∀ h, motive (.branch test other block :: rest) h)
    (loop : ∀ {test : Expr} {body rest : List Stmt} {hx}, motive body hx → ∀ h, motive (.loop test body :: rest) h)
    (later : ∀ {s : Stmt} {rest : List Stmt} {hx}, motive rest hx → ∀ h, motive (s :: rest) h) {block : List Stmt}
    (h : x ∈ localNames block) : motive block h := by
  induction block using block_induction with
  | nil => cases h
  | cons s rest ihs ih =>
    cases s with
    | bind => exact (mem_localNames_bind_iff.1 h).elim (bind · h) fun hx => later (ih hx) h
    | branch =>
      rcases mem_localNames_branch_iff.1 h with (hx | hx) | hx
      · exact whenTrue (ihs _ (by simp [suites]) hx) h
      · exact whenFalse (ihs _ (by simp [suites]) hx) h
      · exact later (ih hx) h
    | loop =>
      rcases mem_localNames_loop_iff.1 h with hx | hx
      · exact loop (ihs _ (by simp [suites]) hx) h
      · exact later (ih hx) h
    | _ => exact later (ih h) h

theorem mem_namesAll_of_local (h : x ∈ localNames block) : x ∈ namesAll block := by
  induction h using localNames_induction with
  | bind hx => simp [Expr.names_of_symbol hx]
  | whenTrue ih | whenFalse ih | loop ih | later ih => simp [ih]

theorem mem_of_firstOfEachName {seen : List (Option String)} {es : List Expr}
    (h : e ∈ firstOfEachName seen es) : e ∈ es := by
  induction es generalizing seen with
  | nil => exact h
  | cons d es ih =>
    rw [firstOfEachName] at h
    split at h
    · exact mem_cons_of_mem d (ih h)
    · rcases mem_cons.1 h with rfl | h
      · exact mem_cons_self
      · exact mem_cons_of_mem d (ih h)

theorem mem_firstOfEachName {seen : List (Option String)} {es : List Expr} (he : e ∈ es)
    (hseen : e.symbol? ∉ seen) : ∃ e' ∈ firstOfEachName seen es, e'.symbol? = e.symbol? := by
  induction es generalizing seen with
  | nil => cases he
  | cons f es ih =>
    rw [firstOfEachName]
    split
    · rename_i hf
      rcases mem_cons.1 he with rfl | he
      · exact absurd hf hseen
      · exact ih he hseen
    · by_cases hfe : f.symbol? = e.symbol?
      · exact ⟨f, mem_cons_self, hfe⟩
      · rcases mem_cons.1 he with rfl | he
        · exact absurd rfl hfe
        · obtain ⟨e', he', hsymbol⟩ := @ih (f.symbol? :: seen) he (by simp [hseen, Ne.symm hfe])
          exact ⟨e', mem_cons_of_mem _ he', hsymbol⟩

end Stmt

/-- Where a run ends. -/
def Outcome.config {C V : Type} : Outcome C V → C
  | .falls c | .leaves _ c => c

/-- Both runs reach the end, and `E` holds behind them, or both leave with the same result. -/
def Outcome.Rel {C D V : Type} (R E : C → D → Prop) : Outcome C V → Outcome D V → Prop
  | .falls c, .falls d => R c d ∧ E c d
  | .leaves r c, .leaves s d => r = s ∧ R c d
  | _, _ => False

namespace Outcome.Rel
variable {C D V : Type} {R E : C → D → Prop} {c : C} {o' : Outcome D V}

theorem of_falls (h : Rel R E (.falls c) o') : ∃ d, o' = .falls d ∧ R c d ∧ E c d := by
  cases o' with
  | falls d => exact ⟨d, rfl, h⟩
  | leaves => exact h.elim

theorem of_leaves {r : Option V} (h : Rel R E (.leaves r c) o') :
    ∃ d, o' = .leaves r d ∧ R c d := by
  cases o' with
  | falls => exact h.elim
  | leaves s d => exact ⟨d, h.1 ▸ rfl, h.2⟩

end Outcome.Rel

/-- `J` differs from `I` only in that calls may have more results. -/
structure Interpretation.Extends (J I : Interpretation α) : Prop where
  literal : I.literal = J.literal
  denotes : I.denotes = J.denotes
  truth : I.truth = J.truth
  apply : ∀ f vs v, I.apply f vs v → J.apply f vs v

/-- `τ` knows what `σ` knows of the names that matter, and binds no procedure among these that `σ`
does not bind. -/
structure Store.Below (I : Interpretation α) (Matters : String → Prop) (σ τ : Store α) : Prop where
  agrees : ∀ x v, Matters x → σ x = some v → τ x = some v
  unbound : ∀ x, Matters x → I.denotes x = true → σ x = none → τ x = none

namespace Store.Below

variable {Matters : String → Prop} {v : Value α}

section
variable (hJ : J.Extends I) (h : Below J Matters σ τ)
include hJ h

theorem read (hx : Matters x) (hv : I.read σ x = some v) : J.read τ x = some v := by
  unfold Interpretation.read at hv ⊢
  rw [hJ.denotes] at hv
  cases hσ : σ x with
  | some w =>
    rw [hσ] at hv
    rwa [h.agrees x w hx hσ]
  | none =>
    rw [hσ] at hv
    by_cases hd : J.denotes x = true
    · rwa [h.unbound x hx hd hσ]
    · simp [hd] at hv

theorem eval (he : ∀ x ∈ e.names, Matters x) (hv : I.Eval σ e v) : J.Eval τ e v :=
  hv.mono hJ.literal hJ.apply fun x hx _ => h.read hJ (he x hx)

theorem evalAll {es : List Expr} {vs : List (Value α)} (he : ∀ x ∈ Expr.namesAll es, Matters x)
    (hv : I.EvalAll σ es vs) :
    J.EvalAll τ es vs :=
  hv.mono hJ.literal hJ.apply fun x hx _ => h.read hJ (he x hx)

end

theorem assign (h : Below I Matters σ τ) :
    Below I Matters (I.machine.assign x v σ) (I.machine.assign x v τ) := by
  refine ⟨fun y w hy hw => ?_, fun y hy hd hσ => ?_⟩
  · by_cases hyx : y = x
    · subst hyx
      simpa [Interpretation.machine] using hw
    · simp only [Interpretation.machine, Function.update_of_ne hyx] at hw ⊢
      exact h.agrees y w hy hw
  · by_cases hyx : y = x
    · simp [Interpretation.machine, hyx] at hσ
    · simp only [Interpretation.machine, Function.update_of_ne hyx] at hσ ⊢
      exact h.unbound y hy hd hσ

theorem refl (I : Interpretation α) (Matters : String → Prop) (σ : Store α) : Below I Matters σ σ :=
  ⟨fun _ _ _ h => h, fun _ _ _ h => h⟩

end Store.Below

theorem Exec.preserves {C V : Type} {machine : Machine C V} {c : C} {o : Outcome C V} (P : C → Prop)
    (heval : ∀ {c e v c'}, machine.eval c e v c' → P c → P c')
    (hassign : ∀ {x v c}, x ∈ localNames block → P c → P (machine.assign x v c)) (h : Exec machine c block o)
    (hc : P c) :
    P o.config := by
  induction h with
  | nil | pause => exact hc
  | bind hx he _ ih =>
    exact ih (fun hmem => hassign (mem_localNames_rest hmem)) (hassign (mem_localNames_bind hx) (heval he hc))
  | ret he => exact heval he hc
  | branch he _ _ _ ihb ihr =>
    exact ihr (fun hmem => hassign (mem_localNames_rest hmem))
      (ihb (fun hmem => hassign (mem_localNames_branch hmem)) (heval he hc))
  | branchLeaves he _ _ ihb => exact ihb (fun hmem => hassign (mem_localNames_branch hmem)) (heval he hc)
  | loopEnd he _ _ ih => exact ih (fun hmem => hassign (mem_localNames_rest hmem)) (heval he hc)
  | loopStep he _ _ _ ihb ihr => exact ihr hassign (ihb (fun hmem => hassign (mem_localNames_loop hmem)) (heval he hc))
  | loopLeaves he _ _ ihb => exact ihb (fun hmem => hassign (mem_localNames_loop hmem)) (heval he hc)
  | define _ _ ih => exact ih (fun hmem => hassign (mem_localNames_rest hmem)) hc

theorem Exec.unchanged (h : Exec I.machine σ block o) (hx : x ∉ localNames block) :
    o.config x = σ x := by
  refine h.preserves (fun τ => τ x = σ x) (fun he hc => he.1 ▸ hc) (fun {y v c} hy hc => ?_) rfl
  have hxy : x ≠ y := fun hxy => hx (hxy ▸ hy)
  rw [← hc]
  exact Function.update_of_ne hxy _ _

theorem Exec.stays_bound (h : Exec I.machine σ block o) (hx : σ x ≠ none) : o.config x ≠ none := by
  refine h.preserves (fun τ => τ x ≠ none) (fun he hc => he.1 ▸ hc) (fun {y v c} _ hc => ?_) hx
  by_cases hxy : x = y
  · simp [Interpretation.machine, hxy]
  · simpa [Interpretation.machine, Function.update_of_ne hxy] using hc

open Store (Below)

theorem Exec.extend (Matters : String → Prop) (hJ : J.Extends I) (h : Exec I.machine σ block o)
    (hnames : ∀ x ∈ Stmt.namesAll block, Matters x) (hb : Below J Matters σ τ) :
    ∃ o', Exec J.machine τ block o' ∧ Outcome.Rel (Below J Matters) (fun _ _ => True) o o' := by
  have heval : ∀ {σ σ' τ : Store α} {e v}, I.machine.eval σ e v σ' → (∀ x ∈ e.names, Matters x) →
      Below J Matters σ τ → J.machine.eval τ e v τ ∧ Below J Matters σ' τ := by
    rintro σ _ τ e v ⟨rfl, he⟩ hnames hb
    exact ⟨⟨rfl, hb.eval hJ hnames he⟩, hb⟩
  have hdecides : ∀ {v b}, I.machine.decides v b → J.machine.decides v b := fun hd => by
    simpa [Interpretation.machine, ← hJ.truth] using hd
  induction h generalizing τ with
  | nil => exact ⟨_, .nil τ, hb, trivial⟩
  | pause => exact ⟨_, .pause τ _, rfl, hb⟩
  | bind hx he _ ih =>
    obtain ⟨he, hb⟩ := heval he (fun y hy => hnames y (by simp [hy])) hb
    obtain ⟨o', hr, ho⟩ := ih (fun y hy => hnames y (by simp [hy])) hb.assign
    exact ⟨o', .bind hx he hr, ho⟩
  | ret he =>
    obtain ⟨he, hb⟩ := heval he (fun y hy => hnames y (by simp [hy])) hb
    exact ⟨_, .ret he, rfl, hb⟩
  | branch he hd _ _ ihb ihr =>
    obtain ⟨he, hb⟩ := heval he (fun y hy => hnames y (by simp [hy])) hb
    obtain ⟨_, hx, ho⟩ := ihb (fun y hy => hnames y (mem_namesAll_branch hy)) hb
    obtain ⟨τ', rfl, hb, -⟩ := ho.of_falls
    obtain ⟨o', hr, ho⟩ := ihr (fun y hy => hnames y (by simp [hy])) hb
    exact ⟨o', .branch he (hdecides hd) hx hr, ho⟩
  | branchLeaves he hd _ ihb =>
    obtain ⟨he, hb⟩ := heval he (fun y hy => hnames y (by simp [hy])) hb
    obtain ⟨_, hx, ho⟩ := ihb (fun y hy => hnames y (mem_namesAll_branch hy)) hb
    obtain ⟨τ', rfl, hb⟩ := ho.of_leaves
    exact ⟨_, .branchLeaves he (hdecides hd) hx, rfl, hb⟩
  | loopEnd he hd _ ih =>
    obtain ⟨he, hb⟩ := heval he (fun y hy => hnames y (by simp [hy])) hb
    obtain ⟨o', hr, ho⟩ := ih (fun y hy => hnames y (by simp [hy])) hb
    exact ⟨o', .loopEnd he (hdecides hd) hr, ho⟩
  | loopStep he hd _ _ ihb ihr =>
    obtain ⟨he, hb⟩ := heval he (fun y hy => hnames y (by simp [hy])) hb
    obtain ⟨_, hx, ho⟩ := ihb (fun y hy => hnames y (by simp [hy])) hb
    obtain ⟨τ', rfl, hb, -⟩ := ho.of_falls
    obtain ⟨o', hr, ho⟩ := ihr hnames hb
    exact ⟨o', .loopStep he (hdecides hd) hx hr, ho⟩
  | loopLeaves he hd _ ihb =>
    obtain ⟨he, hb⟩ := heval he (fun y hy => hnames y (by simp [hy])) hb
    obtain ⟨_, hx, ho⟩ := ihb (fun y hy => hnames y (by simp [hy])) hb
    obtain ⟨τ', rfl, hb⟩ := ho.of_leaves
    exact ⟨_, .loopLeaves he (hdecides hd) hx, rfl, hb⟩
  | define hd _ ih =>
    obtain ⟨o', hr, ho⟩ := ih (fun y hy => hnames y (by simp [hy])) hb
    exact ⟨o', .define hd hr, ho⟩

end DataParallel
