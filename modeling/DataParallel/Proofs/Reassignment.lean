import DataParallel.Lowering.TailCalls
import DataParallel.Proofs.Contracts
import DataParallel.Proofs.Simulation

/-! Assigning the arguments of a call to the parameters.

The assignments are made one after another. An argument that reads a parameter assigned before it is
stored under a drawn name first, so in the end every parameter has the value that its argument had
at the start. Storage goes along with a name where both sides declare some. -/

namespace DataParallel

open DataParallel.Expr Interpretation List Lower Name Stmt
open Name (container)

variable {α : Type} {x y z : String} {supply : Supply} {isDeclared : String → Bool} {argument e target value : Expr}
  {statements : List Stmt} {τ τ' : Store α} {v : Value α} {P : String → Prop} {declared names : List String}
  {I : Interpretation α} {vs : List (Value α)} {arguments parameters : List Expr}

/-- A name or the storage behind it. -/
def Name.Of (x z : String) : Prop := z = x ∨ z = container x

/-- The names that a supply has yet to draw, with the storage behind them. -/
def Supply.Draws (supply : Supply) (z : String) : Prop :=
  ∃ n, supply.counter ≤ n ∧ Of (supply.stem ++ toString n) z

namespace Supply

theorem draws_next (h : Of supply.next.1 z) : supply.Draws z := ⟨_, Nat.le_refl _, h⟩

theorem Draws.of_next (h : supply.next.2.Draws z) : supply.Draws z := by
  obtain ⟨n, hn, hz⟩ := h
  exact ⟨n, Nat.le_of_succ_le hn, hz⟩

theorem Draws.eq_drawn (h : supply.Draws (container z)) :
    ∃ n, supply.counter ≤ n ∧ z = supply.stem ++ toString n := by
  obtain ⟨n, hn, h | h⟩ := h
  · exact absurd h.symm (append_toString_ne_container _ _ _)
  · exact ⟨n, hn, container_inj h⟩

theorem Draws.of_container (h : supply.Draws (container z)) : supply.Draws z :=
  h.eq_drawn.imp fun _ h => h.imp_right .inl

theorem not_draws_of_own (h : IsOwn supply.stem z) : ¬ supply.Draws z := by
  rintro ⟨n, -, rfl | rfl⟩
  · exact h.2 n rfl
  · exact h.1 _ rfl

theorem not_draws_next (supply : Supply) : ¬ supply.next.2.Draws supply.next.1 := by
  rintro ⟨n, hn, h | h⟩
  · have hcounter : supply.counter = n := toString_inj ((String.append_right_inj _).1 h)
    exact absurd hn (by simp [next, hcounter])
  · exact append_toString_ne_container _ _ _ h

end Supply

namespace Store

variable {τ'' : Store α} {Q : String → Prop}

/-- The storage that a procedure mentions is bound. -/
def Holds (declared : List String) (τ : Store α) : Prop := ∀ base, container base ∈ declared → τ (container base) ≠ none

/-- `τ'` differs from `τ` only in names with a property, and binds all that `τ` does. -/
structure Updates (P : String → Prop) (τ τ' : Store α) : Prop where
  same : ∀ z, ¬ P z → τ' z = τ z
  bound : ∀ z, τ z ≠ none → τ' z ≠ none

theorem Updates.refl (P : String → Prop) (τ : Store α) :
    Updates P τ τ := ⟨fun _ _ => rfl, fun _ h => h⟩

theorem Updates.mono (h : Updates P τ τ') (hPQ : ∀ z, P z → Q z) : Updates Q τ τ' :=
  ⟨fun z hz => h.same z fun hP => hz (hPQ z hP), h.bound⟩

theorem Updates.trans (h : Updates P τ τ') (h' : Updates P τ' τ'') : Updates P τ τ'' :=
  ⟨fun z hz => (h'.same z hz).trans (h.same z hz), fun z hz => h'.bound z (h.bound z hz)⟩

theorem Updates.holds (h : Updates P τ τ') (hτ : Holds declared τ) : Holds declared τ' :=
  fun base hb => h.bound _ (hτ base hb)

theorem updates_update (hx : P x) : Updates P τ (Function.update τ x (some v)) := by
  refine ⟨fun z hz => Function.update_of_ne (by rintro rfl; exact hz hx) _ _, fun z hz => ?_⟩
  rcases eq_or_ne z x with rfl | hne
  · simp
  · rwa [Function.update_of_ne hne]

end Store

open Store (Holds Updates)

theorem Interpretation.read_of_bound (h : τ x = some v) : I.read τ x = some v := by
  simp [read, h]

theorem Interpretation.eval_name (hx : e.symbol? = some x) :
    I.Eval τ e v ↔ I.read τ x = some v := by
  cases e <;> simp_all [symbol?, Eval]

theorem Store.Updates.eval (h : Updates P τ τ') (he : ∀ z ∈ e.names, ¬ P z) :
    I.Eval τ' e v ↔ I.Eval τ e v :=
  eval_congr fun z hz => h.same z (he z hz)

theorem Store.Updates.evalAll {es : List Expr} (h : Updates P τ τ')
    (hes : ∀ e ∈ es, ∀ z ∈ e.names, ¬ P z) : I.EvalAll τ' es vs ↔ I.EvalAll τ es vs :=
  evalAll_congr fun e he z hz => h.same z (hes e he z hz)

theorem Exec.single_bind (hx : target.symbol? = some x) (hv : I.Eval τ value v) :
    Exec I.machine τ [.bind target value] (.falls (Function.update τ x (some v))) :=
  .bind hx ⟨rfl, hv⟩ (.nil _)

theorem Stmt.rebindView_ok (h : rebindView isDeclared target value = .ok statements) :
    ∃ x y, target.symbol? = some x ∧ value.symbol? = some y ∧
      (¬ (isDeclared (container x) = true ∧ isDeclared (container y) = true) ∧ statements = [.bind target value] ∨
        isDeclared (container x) = true ∧ isDeclared (container y) = true ∧
          ∃ storage storage' : Expr, storage.symbol? = some (container x) ∧ storage'.symbol? = some (container y) ∧
            statements = [.bind storage storage', .bind target value]) := by
  obtain ⟨x, hx, h⟩ := Except.bind_ok_iff.1 h
  obtain ⟨y, hy, h⟩ := Except.bind_ok_iff.1 h
  have hx := expectName_ok.1 hx
  have hy := expectName_ok.1 hy
  refine ⟨x, y, hx, hy, ?_⟩
  split at h
  · rename_i hdeclared
    rw [Bool.and_eq_true] at hdeclared
    obtain ⟨storage, hstorage, h⟩ := Except.bind_ok_iff.1 h
    obtain ⟨storage', hstorage', h⟩ := Except.bind_ok_iff.1 h
    cases h
    obtain ⟨x', hx', hstorage⟩ := containerOf_ok hstorage
    obtain ⟨y', hy', hstorage'⟩ := containerOf_ok hstorage'
    cases hx.symm.trans hx'
    cases hy.symm.trans hy'
    exact .inr ⟨hdeclared.1, hdeclared.2, storage, storage', hstorage, hstorage', rfl⟩
  · rename_i hdeclared
    cases h
    exact .inl ⟨fun hboth => hdeclared (Bool.and_eq_true _ _ ▸ hboth), rfl⟩

theorem Stmt.rebindView_run (h : rebindView isDeclared target value = .ok statements)
    (hx : target.symbol? = some x)
    (hy : value.symbol? = some y) (hne : y ≠ container x) (hv : I.Eval τ value v)
    (hstored : isDeclared (container x) = true → isDeclared (container y) = true → τ (container y) ≠ none) :
    ∃ τ', Exec I.machine τ statements (.falls τ') ∧ Updates (Of x) τ τ' ∧ τ' x = some v ∧
      (isDeclared (container x) = true → isDeclared (container y) = true → τ' (container x) = τ (container y)) := by
  obtain ⟨x', y', hx', hy', hcases⟩ := rebindView_ok h
  cases hx.symm.trans hx'
  cases hy.symm.trans hy'
  rcases hcases with ⟨hd, rfl⟩ | ⟨hdx, hdy, storage, storage', hs, hs', rfl⟩
  · exact ⟨_, Exec.single_bind hx hv, Store.updates_update (.inl rfl), Function.update_self ..,
      fun hdx hdy => absurd ⟨hdx, hdy⟩ hd⟩
  · obtain ⟨w, hw⟩ := Option.ne_none_iff_exists'.1 (hstored hdx hdy)
    have hfirst := Exec.single_bind hs ((eval_name hs').2 (I.read_of_bound hw))
    have hvalue : I.Eval (Function.update τ (container x) (some w)) value v := by
      rw [eval_name hy, Interpretation.read, Function.update_of_ne hne]
      exact (eval_name hy).1 hv
    refine ⟨_, hfirst.append_falls (Exec.single_bind hx hvalue),
      (Store.updates_update (.inr rfl)).trans (Store.updates_update (.inl rfl)), Function.update_self .., fun _ _ => ?_⟩
    rw [Function.update_of_ne (container_ne x), Function.update_self, hw]

namespace TailCall

variable {st st' : State} {stored : List Stmt} {assigned : List String} {values : List Expr}

theorem stash_cases (h : (stash argument).run st = .ok ((value, stored), st')) :
    value = argument.renamed st.temporaries.next.1 ∧ st'.temporaries = st.temporaries.next.2 ∧
    ((∃ y, argument.symbol? = some y ∧ container y ∈ st.declared ∧
        st'.declared = container st.temporaries.next.1 :: st.declared ∧
        rebindView (· ∈ st'.declared) value argument = .ok stored) ∨
      (∀ y, argument.symbol? = some y → container y ∉ st.declared) ∧ st'.declared = st.declared ∧
        stored = [.bind value argument]) := by
  simp only [stash, run_bind_ok_iff, run_get] at h
  obtain ⟨s, s', hs, h⟩ := h
  cases hs
  split at h
  · rename_i source hsource
    simp only [run_bind_ok_iff, run_set, run_lift_ok_iff, run_pure_ok] at h
    obtain ⟨_, _, hset, _, _, ⟨hrebind, rfl⟩, h⟩ := h
    cases hset
    cases h
    obtain ⟨hsymbol, hdeclared⟩ := Option.filter_eq_some_iff.1 hsource
    exact ⟨rfl, rfl, .inl ⟨source, hsymbol, decide_eq_true_iff.1 hdeclared, rfl, hrebind⟩⟩
  · rename_i hsource
    simp only [run_bind_ok_iff, run_set, run_pure_ok] at h
    obtain ⟨_, _, hset, h⟩ := h
    cases hset
    cases h
    refine ⟨rfl, rfl, .inr ⟨fun y hy hd => ?_, rfl, rfl⟩⟩
    simp [hy, Option.filter, hd] at hsource

theorem stash_run (h : (stash argument).run st = .ok ((value, stored), st'))
    (hargument : ∀ z ∈ argument.names, ¬ st.temporaries.Draws z) (hv : I.Eval τ argument v)
    (hholds : Holds st.declared τ) :
    ∃ τ', Exec I.machine τ stored (.falls τ') ∧ Updates st.temporaries.Draws τ τ' ∧ Holds st'.declared τ' ∧
      τ' st.temporaries.next.1 = some v ∧ (∀ z ∈ st.declared, z ∈ st'.declared) ∧
      ∀ y, argument.symbol? = some y → container y ∈ st.declared → container st.temporaries.next.1 ∈ st'.declared ∧
        τ' (container st.temporaries.next.1) = τ (container y) := by
  obtain ⟨rfl, -, ⟨y, hy, hd, hdeclared, hrebind⟩ | ⟨hnone, hdeclared, rfl⟩⟩ := stash_cases h
  · have hne : y ≠ container st.temporaries.next.1 := fun h =>
      hargument y (mem_names_of_symbol hy) (Supply.draws_next (.inr h))
    have hd' : container y ∈ st'.declared := hdeclared ▸ mem_cons_of_mem _ hd
    have hnew : container st.temporaries.next.1 ∈ st'.declared := hdeclared ▸ mem_cons_self
    obtain ⟨τ', hrun, hupdates, hvalue, hstored⟩ := rebindView_run hrebind rfl hy hne hv fun _ _ => hholds y hd
    have hstored := hstored (decide_eq_true hnew) (decide_eq_true hd')
    refine ⟨τ', hrun, hupdates.mono fun z => Supply.draws_next, fun base hb => ?_, hvalue,
      fun z hz => hdeclared ▸ mem_cons_of_mem _ hz, fun y' hy' _ => ?_⟩
    · rcases mem_cons.1 (hdeclared ▸ hb) with hb | hb
      · rw [hb, hstored]
        exact hholds y hd
      · exact hupdates.bound _ (hholds base hb)
    · cases hy.symm.trans hy'
      exact ⟨hnew, hstored⟩
  · have hupdates : Updates st.temporaries.Draws τ (Function.update τ st.temporaries.next.1 (some v)) :=
      Store.updates_update (Supply.draws_next (.inl rfl))
    rw [hdeclared]
    exact ⟨_, Exec.single_bind rfl hv, hupdates, hupdates.holds hholds, Function.update_self .., fun _ hz => hz,
      fun y hy hd => absurd hd (hnone y hy)⟩

theorem stage_cons {rest : List (String × Expr)}
    (h : (stage assigned ((x, argument) :: rest)).run st = .ok ((values, stored), st')) :
    ∃ value first st₁ values' stored', values = value :: values' ∧ stored = first ++ stored' ∧
      (stage (assigned ++ [x]) rest).run st₁ = .ok ((values', stored'), st') ∧
      ((stash argument).run st = .ok ((value, first), st₁) ∨
        ((∀ y ∈ argument.names, y ∉ assigned) ∧ value = argument ∧ first = [] ∧ st₁ = st)) := by
  simp only [stage] at h
  split at h <;> rename_i hany <;> simp only [run_bind_ok_iff] at h <;>
    obtain ⟨⟨value, first⟩, st₁, hfirst, ⟨values', stored'⟩, st₂, hrest, h⟩ := h <;> cases h
  · exact ⟨value, first, st₁, values', stored', rfl, rfl, hrest, .inl hfirst⟩
  · cases hfirst
    exact ⟨argument, [], st, values', stored', rfl, rfl, hrest, .inr ⟨by simpa using hany, rfl, rfl, rfl⟩⟩

/-- What stands for an argument after staging: itself, or a drawn name. -/
def Stands (supply : Supply) (es : List Expr) (value : Expr) : Prop :=
  value ∈ es ∨ ∃ y, value.symbol? = some y ∧ supply.Draws (container y)

structure Staged (I : Interpretation α) (assigned : List String) (pairs : List (String × Expr)) (vs : List (Value α))
    (st : State) (τ : Store α) (values : List Expr) (st' : State) (τ' : Store α) : Prop where
  updates : Updates st.temporaries.Draws τ τ'
  holds : Holds st'.declared τ'
  evaluate : I.EvalAll τ' values vs
  declared : ∀ z ∈ st.declared, z ∈ st'.declared
  stands : ∀ e ∈ values, Stands st.temporaries (pairs.map Prod.snd) e
  unread : ∀ e ∈ values, ∀ y ∈ e.names, y ∉ assigned
  order : ((pairs.map Prod.fst).zip values).Pairwise fun p q => ∀ z, Of p.1 z → z ∉ q.2.names
  storage : ∀ x e y, (x, e) ∈ pairs → e.symbol? = some y → container y ∈ st.declared →
    ∃ value y', (x, value) ∈ (pairs.map Prod.fst).zip values ∧ value.symbol? = some y' ∧ container y' ∈ st'.declared ∧
      τ' (container y') = τ (container y)

theorem stage_first_run {first : List Stmt} {w : Value α}
    (h : (stash argument).run st = .ok ((value, first), st') ∨
      ((∀ y ∈ argument.names, y ∉ assigned) ∧ value = argument ∧ first = [] ∧ st' = st))
    (hargument : ∀ z ∈ argument.names, ¬ st.temporaries.Draws z)
    (hassigned : ∀ x ∈ assigned, ¬ st.temporaries.Draws (container x)) (hw : I.Eval τ argument w)
    (hholds : Holds st.declared τ) :
    (∀ z, st'.temporaries.Draws z → st.temporaries.Draws z) ∧
    Stands st.temporaries [argument] value ∧ (∀ y ∈ value.names, y ∉ assigned) ∧ (∀ z ∈ st.declared, z ∈ st'.declared) ∧
    ∃ τ₁, Exec I.machine τ first (.falls τ₁) ∧ Updates st.temporaries.Draws τ τ₁ ∧ Holds st'.declared τ₁ ∧
      ∀ τ₂, Updates st'.temporaries.Draws τ₁ τ₂ → I.Eval τ₂ value w ∧
        ∀ y, argument.symbol? = some y → container y ∈ st.declared → ∃ y', value.symbol? = some y' ∧
          container y' ∈ st'.declared ∧ τ₂ (container y') = τ (container y) := by
  rcases h with h | ⟨hnames, rfl, rfl, rfl⟩
  · obtain ⟨rfl, hsupply, -⟩ := stash_cases h
    obtain ⟨τ₁, hrun, hupdates, hh, hvalue, hdeclared, hstored⟩ := stash_run h hargument hw hholds
    rw [hsupply]
    refine ⟨fun z => Supply.Draws.of_next, .inr ⟨_, rfl, Supply.draws_next (.inr rfl)⟩, fun y hy hmem => ?_, hdeclared,
      τ₁, hrun, hupdates, hh, fun τ₂ hu => ⟨?_, fun y hy hd => ⟨_, rfl, (hstored y hy hd).1, ?_⟩⟩⟩
    · exact hassigned y hmem (Supply.draws_next (.inr (mem_singleton.1 hy ▸ rfl)))
    · exact (eval_name rfl).2 (read_of_bound ((hu.same _ (Supply.not_draws_next _)).trans hvalue))
    · rw [hu.same _ fun h => Supply.not_draws_next _ h.of_container, (hstored y hy hd).2]
  · refine ⟨fun _ hz => hz, .inl mem_cons_self, hnames, fun _ hz => hz, τ, .nil τ, .refl _ τ, hholds,
      fun τ₂ hu => ⟨(hu.eval hargument).2 hw, fun y hy hd => ⟨y, hy, hd, hu.same _ fun h => ?_⟩⟩⟩
    exact hargument y (mem_names_of_symbol hy) h.of_container

/-- Staging stores what would read a parameter that is assigned before. The values that are left are
those of the arguments, and none reads a parameter that comes before its own. -/
theorem stage_run {pairs : List (String × Expr)}
    (h : (stage assigned pairs).run st = .ok ((values, stored), st'))
    (harguments : ∀ e ∈ pairs.map Prod.snd, ∀ z ∈ e.names, ¬ st.temporaries.Draws z)
    (hassigned : ∀ x ∈ assigned ++ pairs.map Prod.fst, ¬ st.temporaries.Draws (container x))
    (hearlier : pairs.Pairwise fun p q => container p.1 ∉ q.2.names) (hvs : I.EvalAll τ (pairs.map Prod.snd) vs)
    (hholds : Holds st.declared τ) :
    ∃ τ', Exec I.machine τ stored (.falls τ') ∧ Staged I assigned pairs vs st τ values st' τ' := by
  induction pairs generalizing assigned st values stored τ vs with
  | nil =>
    cases h
    exact ⟨τ, .nil τ, .refl _ τ, hholds, hvs, fun _ hz => hz, by simp, by simp, .nil, by simp⟩
  | cons pair rest ih =>
    obtain ⟨x, argument⟩ := pair
    obtain ⟨value, first, st₁, values', stored', rfl, rfl, hrest, hfirst⟩ := stage_cons h
    obtain ⟨w, ws, hw, hws, rfl⟩ := hvs
    obtain ⟨hargument, harguments⟩ := forall_mem_cons.1 harguments
    obtain ⟨hlater, hearlier⟩ := pairwise_cons.1 hearlier
    obtain ⟨hdraws, hstands, hunread, hdeclared, τ₁, hrun, hupdates, hholds₁, hkeep⟩ :=
      stage_first_run hfirst hargument (fun x hx => hassigned x (mem_append_left _ hx)) hw hholds
    obtain ⟨τ₂, hrun₂, hstaged⟩ := ih hrest (fun e he z hz h => harguments e he z hz (hdraws z h))
      (by rw [append_assoc]; exact fun x hx h => hassigned x hx (hdraws _ h)) hearlier
      ((hupdates.evalAll harguments).2 hws) hholds₁
    obtain ⟨hvalue, hstored⟩ := hkeep τ₂ hstaged.updates
    refine ⟨τ₂, hrun.append_falls hrun₂, hupdates.trans (hstaged.updates.mono hdraws), hstaged.holds,
      ⟨w, ws, hvalue, hstaged.evaluate, rfl⟩, fun z hz => hstaged.declared z (hdeclared z hz),
      forall_mem_cons.2 ⟨hstands.imp_left fun h => ?_, fun e he => ?_⟩,
      forall_mem_cons.2 ⟨hunread, fun e he y hy h => hstaged.unread e he y hy (mem_append_left _ h)⟩,
      pairwise_cons.2 ⟨fun q hq z hz hmem => ?_, hstaged.order⟩, fun x' e y hmem hy hd => ?_⟩
    · rw [mem_singleton.1 h]
      exact mem_cons_self
    · exact (hstaged.stands e he).imp (mem_cons_of_mem _) fun ⟨y, hy, h⟩ => ⟨y, hy, hdraws _ h⟩
    · have hq := (of_mem_zip hq).2
      rcases hz with rfl | rfl
      · exact hstaged.unread q.2 hq z hmem (by simp)
      · rcases hstaged.stands q.2 hq with hq | ⟨y, hy, hdrawn⟩
        · obtain ⟨p, hp, heq⟩ := mem_map.1 hq
          exact hlater p hp (heq ▸ hmem)
        · rw [names_of_symbol hy, mem_singleton] at hmem
          exact hassigned x (by simp) (hdraws _ (hmem ▸ hdrawn.of_container))
    · rcases mem_cons.1 hmem with hmem | hmem
      · cases hmem
        obtain ⟨y', hy', hd', hheld⟩ := hstored y hy hd
        exact ⟨value, y', mem_cons_self, hy', hstaged.declared _ hd', hheld⟩
      · obtain ⟨value', y', hmem', hy', hd', hheld⟩ := hstaged.storage x' e y hmem hy (hdeclared _ hd)
        refine ⟨value', y', mem_cons_of_mem _ hmem', hy', hd', hheld.trans (hupdates.same _ fun h => ?_)⟩
        exact harguments e (mem_map_of_mem hmem) y (mem_names_of_symbol hy) h.of_container

theorem assign_run {parameter : Expr} (h : assign declared parameter x value = .ok statements)
    (hx : parameter.symbol? = some x) (hne : value.symbol? ≠ some (container x)) (hv : I.Eval τ value v)
    (hholds : Holds declared τ) : ∃ τ', Exec I.machine τ statements (.falls τ') ∧ Updates (Of x) τ τ' ∧
      I.read τ' x = some v ∧ ∀ y, value.symbol? = some y → container x ∈ declared → container y ∈ declared →
        τ' (container x) = τ (container y) := by
  unfold assign at h
  split at h
  · rename_i source hsource
    split at h
    · -- the parameter has its value already
      rename_i hsame
      cases h
      subst hsame
      refine ⟨τ, .nil τ, .refl _ τ, (eval_name hsource).1 hv, fun y hy _ _ => ?_⟩
      cases hsource.symm.trans hy
      rfl
    · obtain ⟨τ', hrun, hupdates, hvalue, hstored⟩ := rebindView_run h hx hsource (fun h => hne (h ▸ hsource)) hv
        fun _ hd => hholds source (of_decide_eq_true hd)
      refine ⟨τ', hrun, hupdates, read_of_bound hvalue, fun y hy hdx hdy => ?_⟩
      cases hsource.symm.trans hy
      exact hstored (decide_eq_true hdx) (decide_eq_true hdy)
  · rename_i hnone
    cases h
    exact ⟨_, Exec.single_bind hx hv, Store.updates_update (.inl rfl),
      read_of_bound (Function.update_self ..), fun y hy => absurd (hnone.symm.trans hy) (by simp)⟩

theorem assignAll_run {rows : List (List Stmt)}
    (h : ((parameters.zip names).zip values).mapM (fun p => assign declared p.1.1 p.1.2 p.2) = .ok rows)
    (hnames : parameters.mapM symbol? = some names) (hnodup : names.Nodup)
    (hself : ∀ x ∈ names, ∀ e ∈ values, e.symbol? ≠ some (container x))
    (hpairs : (names.zip values).Pairwise fun p q => ∀ z, Of p.1 z → z ∉ q.2.names) (hvs : I.EvalAll τ values vs)
    (hlength : names.length = values.length) (hholds : Holds declared τ) :
    ∃ τ', Exec I.machine τ rows.flatten (.falls τ') ∧ Updates (fun z => ∃ x ∈ names, Of x z) τ τ' ∧
      (∀ x v, (x, v) ∈ names.zip vs → (∀ x' ∈ names, x ≠ container x') → I.read τ' x = some v) ∧
      ∀ x e y, (x, e) ∈ names.zip values → e.symbol? = some y → container x ∈ declared → container y ∈ declared →
        (∀ x' ∈ names, x' ≠ container x ∧ x' ≠ container y) → τ' (container x) = τ (container y) := by
  induction parameters generalizing names values rows vs τ with
  | nil =>
    cases h
    cases hnames
    exact ⟨τ, .nil τ, .refl _ τ, by simp, by simp⟩
  | cons parameter parameters ih =>
    obtain ⟨x, hx, names, hrest, rfl⟩ := mapM_symbol_cons.1 hnames
    cases values with
    | nil => simp at hlength
    | cons value values =>
      simp only [zip_cons_cons, mapM_cons, Except.bind_ok_iff] at h
      obtain ⟨first, hfirst, others, hothers, h⟩ := h
      cases h
      obtain ⟨v, ws, hv, hws, rfl⟩ := hvs
      obtain ⟨hfresh, hnodup⟩ := nodup_cons.1 hnodup
      obtain ⟨hpair, hpairs⟩ := pairwise_cons.1 hpairs
      obtain ⟨τ₁, hrun, hupdates, hvalue, hstored⟩ := assign_run hfirst hx
        (hself x mem_cons_self value mem_cons_self) hv hholds
      -- no later value reads the parameter that was assigned just now, or its storage
      have hunread : ∀ e ∈ values, ∀ z ∈ e.names, ¬ Of x z := by
        intro e he z hz hof
        obtain ⟨i, hi, rfl⟩ := getElem_of_mem he
        have hi' : i < names.length := by simp at hlength; omega
        exact hpair (names[i], values[i]) (mem_of_getElem (i := i) (h := by simp; omega) (by simp)) z hof hz
      obtain ⟨τ₂, hrun₂, hupdates₂, hvalues, hstorage⟩ := ih hothers hrest hnodup
        (fun y hy e he => hself y (mem_cons_of_mem _ hy) e (mem_cons_of_mem _ he)) hpairs
        ((hupdates.evalAll hunread).2 hws) (by simpa using hlength) (hupdates.holds hholds)
      refine ⟨τ₂, hrun.append_falls hrun₂, (hupdates.mono fun z hz => ⟨x, mem_cons_self, hz⟩).trans
        (hupdates₂.mono fun z h => h.imp fun y hy => hy.imp_left (mem_cons_of_mem _)), fun y w hy hforms => ?_,
        fun x' e y hmem hy hdx hdy hforms => ?_⟩
      · rcases mem_cons.1 hy with hy | hy
        · cases hy
          rw [read_congr (hupdates₂.same x ?_), hvalue]
          rintro ⟨x', hx', rfl | h⟩
          · exact hfresh hx'
          · exact hforms x' (mem_cons_of_mem _ hx') h
        · exact hvalues y w hy fun x' hx' => hforms x' (mem_cons_of_mem _ hx')
      · rcases mem_cons.1 hmem with hmem | hmem
        · cases hmem
          rw [hupdates₂.same _ ?_, hstored y hy hdx hdy]
          rintro ⟨x', hx', h | h⟩
          · exact (hforms x' (mem_cons_of_mem _ hx')).1 h.symm
          · exact hfresh (container_inj h ▸ hx')
        · rw [hstorage x' e y hmem hy hdx hdy fun z hz => hforms z (mem_cons_of_mem _ hz), hupdates.same]
          rintro (h | h)
          · exact (hforms x mem_cons_self).2 h.symm
          · exact hunread e (of_mem_zip hmem).2 y (mem_names_of_symbol hy) (.inl (container_inj h))

theorem reassign_ok (h : (reassign parameters arguments).run st = .ok (statements, st')) :
    ∃ names values stored assigned, parameters.mapM symbol? = some names ∧
      (stage [] (names.zip arguments)).run st = .ok ((values, stored), st') ∧
      ((parameters.zip names).zip values).mapM (fun p => assign st'.declared p.1.1 p.1.2 p.2) = .ok assigned ∧
      statements = stored ++ assigned.flatten := by
  simp only [reassign, run_bind_ok_iff, run_mapM_lift_ok_iff, run_get, run_pure_ok] at h
  obtain ⟨names, _, ⟨hnames, rfl⟩, ⟨values, stored⟩, st₁, hstage, _, _, hget, assigned, _, ⟨hassign, rfl⟩, h⟩ := h
  cases hget
  cases h
  exact ⟨names, values, stored, assigned, mapM_expectName_ok.1 hnames, hstage, hassign, rfl⟩

/-- The assignments make a store in which the parameters have the values of a fresh frame, and their
storage what the storage of the arguments held. -/
theorem reassign_run (h : (reassign parameters arguments).run st = .ok (statements, st'))
    (hnames : parameters.mapM symbol? = some names) (hnodup : names.Nodup)
    (hlength : arguments.length = names.length) (hfresh : ∀ x ∈ names, ¬ st.temporaries.Draws (container x))
    (harguments : ∀ e ∈ arguments, ∀ z ∈ e.names, ¬ st.temporaries.Draws z)
    (hself : ∀ x ∈ names, ∀ e ∈ arguments, e.symbol? ≠ some (container x))
    (hearlier : (names.zip arguments).Pairwise fun p q => container p.1 ∉ q.2.names) (hvs : I.EvalAll τ arguments vs)
    (hholds : Holds st.declared τ) :
    ∃ τ', Exec I.machine τ statements (.falls τ') ∧
      Updates (fun z => st.temporaries.Draws z ∨ ∃ x ∈ names, Of x z) τ τ' ∧
      (∀ x v, (x, v) ∈ names.zip vs → (∀ x' ∈ names, x ≠ container x') → I.read τ' x = some v) ∧
      ∀ x e y, (x, e) ∈ names.zip arguments → e.symbol? = some y → container x ∈ st.declared →
        container y ∈ st.declared →
        (∀ x' ∈ names, x' ≠ container x ∧ ¬ st.temporaries.Draws x' ∧
          ∀ e ∈ arguments, ∀ y, e.symbol? = some y → x' ≠ container y) → τ' (container x) = τ (container y) := by
  obtain ⟨names', values, stored, assigned, hnames', hstage, hassign, rfl⟩ := reassign_ok h
  cases hnames.symm.trans hnames'
  have hfst : (names.zip arguments).map Prod.fst = names := map_fst_zip (by omega)
  have hsnd : (names.zip arguments).map Prod.snd = arguments := map_snd_zip (by omega)
  obtain ⟨τ₁, hrun, hstaged⟩ := stage_run hstage (by rwa [hsnd]) (by rwa [nil_append, hfst]) hearlier
    (by rwa [hsnd]) hholds
  have hstands := hstaged.stands
  have horder := hstaged.order
  rw [hsnd] at hstands
  rw [hfst] at horder
  have hlengths : names.length = values.length := by rw [← hstaged.evaluate.length_eq, hvs.length_eq, hlength]
  have hself' : ∀ x ∈ names, ∀ e ∈ values, e.symbol? ≠ some (container x) := by
    intro x hx e he h
    rcases hstands e he with he | ⟨y, hy, hdrawn⟩
    · exact hself x hx e he h
    · cases hy.symm.trans h
      exact hfresh x hx hdrawn.of_container
  obtain ⟨τ₂, hrun₂, hupdates, hvalues, hstorage⟩ := assignAll_run hassign hnames hnodup hself' horder hstaged.evaluate
    hlengths hstaged.holds
  refine ⟨τ₂, hrun.append_falls hrun₂,
    (hstaged.updates.mono fun z => .inl).trans (hupdates.mono fun z => .inr), hvalues,
    fun x e y hmem hy hdx hdy hforms => ?_⟩
  obtain ⟨value, y', hmem', hy', hd', hheld⟩ := hstaged.storage x e y hmem hy hdy
  rw [hfst] at hmem'
  rw [hstorage x value y' hmem' hy' (hstaged.declared _ hdx) hd' fun x' hx' => ⟨(hforms x' hx').1, ?_⟩, hheld]
  rcases hstands value (of_mem_zip hmem').2 with he | ⟨y, hy, hdrawn⟩
  · exact (hforms x' hx').2.2 value he y' hy'
  · cases hy.symm.trans hy'
    rintro rfl
    exact (hforms _ hx').2.1 hdrawn

end TailCall

/-! Reassigning fails only for want of a layout. -/

theorem Expr.containerOf_isOk {view : Expr} (hx : view.symbol? = some x)
    (hlayout : view.layout.isSome = true) : ∃ storage, view.containerOf = .ok storage := by
  obtain ⟨layout, hl⟩ := Option.isSome_iff_exists.1 hlayout
  exact ⟨_, Except.bind_ok_iff.2 ⟨x, expectName_ok.2 hx,
    Except.bind_ok_iff.2 ⟨layout, by simp [expectLayout, hl], rfl⟩⟩⟩

theorem Stmt.rebindView_isOk (isDeclared : String → Bool) (hx : target.symbol? = some x)
    (hy : value.symbol? = some y)
    (htarget : target.layout.isSome = true) (hvalue : value.layout.isSome = true) :
    ∃ statements, rebindView isDeclared target value = .ok statements := by
  obtain ⟨storage, hs⟩ := containerOf_isOk hx htarget
  obtain ⟨source, hc⟩ := containerOf_isOk hy hvalue
  simp only [rebindView, Except.bind_ok_iff, expectName_ok]
  by_cases hd : isDeclared (container x) && isDeclared (container y)
  · exact ⟨_, x, hx, y, hy, by rw [if_pos hd, hs, hc]; rfl⟩
  · exact ⟨_, x, hx, y, hy, by rw [if_neg hd]; rfl⟩

namespace TailCall

/-- What targets and values have to be for an assignment to go through. `R` is what it makes of
them. -/
structure Assignable (T P : Expr → Prop) (R : Stmt → Prop) : Prop where
  name : ∀ {e}, T e → ∃ x, e.symbol? = some x
  drawn : ∀ {e} y, P e → T (e.renamed y) ∧ P (e.renamed y)
  bind : ∀ {target value}, T target → P value → R (.bind target value)
  rebind : ∀ {isDeclared target value y}, T target → P value → value.symbol? = some y →
    Meets (fun _ => False) (fun statements => ∀ s ∈ statements, R s) (rebindView isDeclared target value)

namespace Assignable
variable {T P : Expr → Prop} {R : Stmt → Prop} (hR : Assignable T P R)
include hR

theorem stash (h : P argument) :
    Preserves (fun _ => False) (fun _ => True) (stash argument) fun r => P r.1 ∧ ∀ s ∈ r.2, R s := by
  refine Preserves.get.bind fun st _ => ?_
  obtain ⟨htarget, htemporary⟩ := hR.drawn st.temporaries.next.1 h
  dsimp only
  split
  · rename_i hsource
    refine (Preserves.set trivial).bind fun _ _ => ?_
    refine Preserves.bind (.lift (hR.rebind htarget h (Option.filter_eq_some_iff.1 hsource).1)) fun statements hs => ?_
    exact .pure ⟨htemporary, hs⟩
  · exact (Preserves.set trivial).bind fun _ _ => .pure ⟨htemporary, forall_mem_singleton.2 (hR.bind htarget h)⟩

theorem stage {pairs : List (String × Expr)} {assigned : List String} (h : ∀ p ∈ pairs, P p.2) :
    Preserves (fun _ => False) (fun _ => True) (stage assigned pairs) fun r => (∀ e ∈ r.1, P e) ∧ ∀ s ∈ r.2, R s := by
  induction pairs generalizing assigned with
  | nil => exact .pure ⟨forall_mem_nil _, forall_mem_nil _⟩
  | cons pair rest ih =>
    obtain ⟨hargument, hrest⟩ := forall_mem_cons.1 h
    have next : ∀ r : Expr × List Stmt, P r.1 ∧ (∀ s ∈ r.2, R s) → Preserves (fun _ => False) (fun _ => True) (do
          let out ← TailCall.stage (assigned ++ [pair.1]) rest
          return (r.1 :: out.1, r.2 ++ out.2) : Lower State (List Expr × List Stmt))
          fun r => (∀ e ∈ r.1, P e) ∧ ∀ s ∈ r.2, R s := fun r hr => (ih hrest).bind fun out hout =>
      .pure ⟨forall_mem_cons.2 ⟨hr.1, hout.1⟩, forall_mem_append.2 ⟨hr.2, hout.2⟩⟩
    rw [TailCall.stage]
    split
    · exact (hR.stash hargument).bind next
    · exact next (pair.2, []) ⟨hargument, forall_mem_nil _⟩

theorem assign (ht : T target) (hv : P value) :
    Meets (fun _ => False) (fun statements => ∀ s ∈ statements, R s) (assign declared target x value) := by
  unfold TailCall.assign
  split
  · rename_i hsource
    split
    · exact forall_mem_nil _
    · exact hR.rebind ht hv hsource
  · exact forall_mem_singleton.2 (hR.bind ht hv)

theorem reassign (hparameters : ∀ e ∈ parameters, T e) (harguments : ∀ e ∈ arguments, P e) :
    Preserves (fun _ => False) (fun _ => True) (reassign parameters arguments) fun statements =>
      ∀ s ∈ statements, R s := by
  refine Preserves.bind (Preserves.mapM (p := fun _ => True) fun e he => .lift ?_) fun names _ => ?_
  · obtain ⟨x, hx⟩ := hR.name (hparameters e he)
    rw [expectName_ok.2 hx]
    trivial
  refine (hR.stage fun p hp => harguments _ (of_mem_zip hp).2).bind fun staged hstaged => ?_
  refine Preserves.get.bind fun st _ => ?_
  refine (Preserves.mapM fun r hr => .lift (hR.assign ?_ (hstaged.1 _ (of_mem_zip hr).2))).bind fun rows hrows =>
    .pure (forall_mem_append.2 ⟨hstaged.2, fun s hs => ?_⟩)
  · exact hparameters _ (of_mem_zip (of_mem_zip hr).1).1
  · obtain ⟨row, hrow, hs⟩ := mem_flatten.1 hs
    exact hrows row hrow s hs

end Assignable

theorem reassign_isOk (hnames : parameters.mapM symbol? = some names)
    (hlayouts : ∀ e ∈ parameters ++ arguments, e.layout.isSome = true) (st : State) :
    ∃ statements st', (reassign parameters arguments).run st = .ok (statements, st') := by
  have hassignable : Assignable (fun e => (∃ x, e.symbol? = some x) ∧ e.layout.isSome = true)
      (fun e => e.layout.isSome = true) fun _ => True := by
    refine ⟨And.left, fun y h => ⟨⟨⟨y, rfl⟩, h⟩, h⟩, fun _ _ => trivial, fun {isDeclared _ _ _} ht hv hy => ?_⟩
    obtain ⟨x, hx⟩ := ht.1
    obtain ⟨statements, h⟩ := rebindView_isOk isDeclared hx hy ht.2 hv
    rw [h]
    exact fun _ _ => trivial
  obtain ⟨⟨statements, st'⟩, h, -⟩ := Meets.exists_ok (hassignable.reassign (fun e he =>
    ⟨(exists_symbol hnames he).imp fun _ => And.right, hlayouts e (mem_append_left _ he)⟩)
      (fun e he => hlayouts e (mem_append_right _ he)) st trivial)
  exact ⟨statements, st', h⟩

end TailCall
end DataParallel
