import DataParallel.Proofs.Phases.Forced
import DataParallel.Proofs.Phases.Steady
import DataParallel.Proofs.Printable.Emission

/-! Texts that keep to a survey.

A survey says of every name at which type it is read, whether it may hold a closure, and whether it
is bound to results of the entry procedure only. The analysis keeps to the survey as well: it takes
no other name for the result of a self call, a scope knows no names but those that its block binds,
and a test forces no names but those that it forced before. -/

namespace DataParallel

open List Phases.State Stmt

variable {registry : Registry} {v : Survey} {entry x : String} {inEntry outer : Bool} {value : Expr} {block : List Stmt}

/-- Whether a closure that an expression holds is left on record when the expression is bound. -/
def Expr.isCarried (D : String → Bool) : Expr → Bool
  | .name .. => true
  | .closure _ captured _ => areCallFree captured
  | e => e.isData D

namespace Survey

/-- Whether a name may be bound to a value. Closures are bound in front of all branches and loops,
`outer`. -/
def binds (registry : Registry) (v : Survey) (entry : String) (inEntry outer : Bool) (value : Expr) (x : String) :
    Bool :=
  (if v.data x then value.isData v.data else outer && value.isCarried v.data) &&
    (!v.settles x || v.fills registry value) &&
    (x ∉ v.own || value.callee? = some entry) && (!inEntry || value.callee? ≠ some entry || x ∈ v.own)

theorem binds_iff : v.binds registry entry inEntry outer value x = true ↔
    (if v.data x then value.isData v.data else outer && value.isCarried v.data) = true ∧
      (v.settles x = true → v.fills registry value = true) ∧
      (x ∈ v.own → value.callee? = some entry) ∧
      (inEntry = true → value.callee? = some entry → x ∈ v.own) := by
  simp only [binds, Bool.and_eq_true, Bool.or_eq_true, Bool.not_eq_true', decide_eq_true_eq, and_assoc,
    imp_iff_not_or, Bool.not_eq_true, ne_eq, or_assoc]

end Survey

namespace Stmt

mutual

def isSurveyed (registry : Registry) (v : Survey) (entry : String) (inEntry outer : Bool) : Stmt → Bool
  | .bind target value => value.isLabeled v.labels && value.isCareful registry v.data &&
    target.symbol?.all (v.binds registry entry inEntry outer value)
  | .ret value =>
    value.isLabeled v.labels && value.isCareful registry v.data &&
      if inEntry then value.isData v.data && (!v.keeps || v.returns registry value) else !v.keeps
  | .branch test whenTrue whenFalse => test.isLabeled v.labels && test.isCareful registry v.data &&
    areSurveyed registry v entry inEntry false whenTrue && areSurveyed registry v entry inEntry false whenFalse
  | .loop test body => test.isLabeled v.labels && test.isCareful registry v.data &&
    areSurveyed registry v entry inEntry false body
  | _ => false

def areSurveyed (registry : Registry) (v : Survey) (entry : String) (inEntry outer : Bool) : List Stmt → Bool
  | [] => true
  | s :: rest => isSurveyed registry v entry inEntry outer s && areSurveyed registry v entry inEntry outer rest

end

theorem data_of_local (h : areSurveyed registry v entry inEntry false block = true)
    (hx : x ∈ localNames block) : v.data x = true := by
  induction hx using localNames_induction with
  | bind hx =>
    rw [areSurveyed, isSurveyed, hx, Option.all_some, Bool.and_eq_true, Bool.and_eq_true, Survey.binds_iff] at h
    have hvalue := h.1.2.1
    split at hvalue
    · assumption
    · cases hvalue
  | whenTrue ih =>
    simp only [areSurveyed, isSurveyed, Bool.and_eq_true] at h
    exact ih h.1.1.2
  | whenFalse ih | loop ih =>
    simp only [areSurveyed, isSurveyed, Bool.and_eq_true] at h
    exact ih h.1.2
  | later ih =>
    rw [areSurveyed, Bool.and_eq_true] at h
    exact ih h.2

end Stmt

namespace Phases

variable {body : List Stmt} {head : Table Completion} {trips : List Trip}

theorem mem_localNames_of_bodyTargets (h : x ∈ bodyTargets body) : x ∈ localNames body := by
  obtain ⟨e, he, hx⟩ := mem_filterMap.1 h
  refine mem_filterMap.2 ⟨e, ?_, hx⟩
  clear h
  induction body with
  | nil => cases he
  | cons stmt rest ih =>
    rw [flatMap_cons, mem_append] at he
    exact mem_append.2 (he.imp mem_of_firstOfEachName ih)

section States
variable {Γ : Context} {task : Task} {s s' : State} {results : List (Expr × Completion)} {binds out : List Stmt}
  {completion : Completion} {S : String → Prop}

theorem State.selfResults_record {target : String}
    (h : x ∈ (s.record entry target value completion).selfResults) :
    x = target ∧ value.callee? = some entry ∨ x ∈ s.selfResults := by
  simp only [record] at h
  split at h
  · rename_i hcallee
    rcases mem_cons.1 h with rfl | h
    · exact .inl ⟨rfl, hcallee⟩
    · exact .inr (mem_filter.1 h).1
  · exact .inr (mem_filter.1 h).1

namespace State

theorem kept_setCompletions (s : State) (completions : List (String × Completion)) :
    (s.setCompletions completions).selfResults = s.selfResults ∧ (s.setCompletions completions).bound = s.bound := by
  induction completions generalizing s with
  | nil => exact ⟨rfl, rfl⟩
  | cons entry rest ih => exact ih _

theorem kept_invalidateAll (s : State) (names : List String) :
    (s.invalidateAll names).selfResults = s.selfResults ∧ (s.invalidateAll names).bound = s.bound := by
  induction names generalizing s with
  | nil => exact ⟨rfl, rfl⟩
  | cons name rest ih => exact ih _

theorem kept_joined (s t u : State) :
    (s.joined t u).selfResults = u.selfResults ∧ (s.joined t u).bound = s.bound := by
  rw [joined, (kept_invalidateAll _ _).1, (kept_invalidateAll _ _).2, (kept_setCompletions _ _).1,
    (kept_setCompletions _ _).2]
  exact ⟨rfl, rfl⟩

theorem kept_settled (s t : State) (head : Table Completion) :
    (s.settled t head).selfResults = t.selfResults ∧ (s.settled t head).bound = s.bound := by
  rw [settled, (kept_setCompletions _ _).1, (kept_setCompletions _ _).2]
  exact ⟨rfl, rfl⟩

theorem kept_tripStart (s : State) (selfResults : List String) (head : Table Completion) :
    (s.tripStart selfResults head).selfResults = selfResults ∧ (s.tripStart selfResults head).bound.inner = ∅ := by
  rw [tripStart, (kept_setCompletions _ _).1, (kept_setCompletions _ _).2]
  exact ⟨rfl, rfl⟩

theorem RaisedBy.selfResults {P : List String → Prop} {selfResults : List String}
    (h : s.RaisedBy selfResults head trips) (hs : P s.selfResults)
    (htrips : ∀ trip ∈ trips, ∀ earlier, earlier ⊆ trips → s.RaisedBy trip.selfResults trip.head earlier →
      P trip.selfResults → P trip.state.selfResults) : P selfResults := by
  induction trips generalizing selfResults head with
  | nil =>
    obtain ⟨-, rfl⟩ := h
    exact hs
  | cons trip earlier ih =>
    obtain ⟨⟨-, rfl⟩, h⟩ := h
    refine htrips trip mem_cons_self earlier (subset_cons_self _ _) h (ih h fun trip' hmem earlier' hsub => ?_)
    exact htrips trip' (mem_cons_of_mem _ hmem) earlier' fun t ht => mem_cons_of_mem _ (hsub ht)

end State

theorem Derives.selfResults (hentry : Γ.EntryForces) (h : Derives Γ task s results binds s')
    (hx : x ∈ s'.selfResults) : x ∈ s.selfResults := by
  have hoisted : ∀ {function : Expr} {arguments : List Expr} {typing : Typing} {value : Expr} {completion : Completion}
      {s s₁ : State} {binds : List Stmt},
      Derives Γ (.value (.apply function arguments typing)) s [(value, completion)] binds s₁ →
      function.symbol? ≠ some Γ.entry → x ∈ (s₁.hoisted Γ.entry value completion).selfResults →
      x ∈ s₁.selfResults := by
    intro function arguments typing value completion s s₁ binds h hne hx
    obtain ⟨-, arguments', rfl⟩ := h.value_apply
    exact (selfResults_record hx).resolve_left fun hself => hne hself.2
  induction h with
  | nil | name | literal | demandLiteral | met | returnedName | returnedLiteral | realized
  | returnedRealized => exact hx
  | cons _ _ ih ih' => exact ih (ih' hx)
  | node _ _ ih | forcing _ _ _ _ _ _ _ ih | demandNode _ _ ih | demandCall _ _ ih | closureKept _ _ _ ih
  | tupleKept _ _ _ _ _ _ ih | returnedTupleKept _ _ _ _ _ _ ih | returnedTuple _ ih | returnedClosure _ ih
  | returnedCall _ _ ih | closureRebuilt _ _ _ _ ih | tupleRebuilt _ _ _ _ _ _ ih
  | returnedTupleRebuilt _ _ _ _ _ _ ih => exact ih hx
  | demandName _ ih =>
    split at hx
    · exact ih hx
    · exact ih hx
  | demandHoisted h _ _ ih ih' =>
    refine ih (hoisted h (fun hf => ?_) (ih' hx))
    have hforces := hentry _ hf
    rw [h.not_forces_of_incomplete] at hforces
    cases hforces
  | returnedHoisted h hne _ _ ih ih' => exact ih (hoisted h hne (ih' hx))

theorem State.RaisedBy.own {s₁ : State} {test test' : Expr} {rest : List Stmt}
    {selfResults : List String}
    (h : s₁.flush.RaisedBy selfResults head trips) (hb : Covering S s (.loop test body :: rest))
    (hd : Derives Γ (.value test) (s.invalidateAll (bodyTargets body)) [(test', completion)] binds s₁)
    (htrips : ∀ trip ∈ trips, Analyzed Γ body (s₁.flush.tripStart trip.selfResults trip.head) trip.out trip.state)
    (hs : ∀ x ∈ s₁.flush.selfResults, x ∈ v.own)
    (hown : ∀ trip ∈ trips, Covering S (s₁.flush.tripStart trip.selfResults trip.head) body →
      (∀ x ∈ (s₁.flush.tripStart trip.selfResults trip.head).selfResults, x ∈ v.own) →
      ∀ x ∈ trip.state.selfResults, x ∈ v.own) :
    ∀ x ∈ selfResults, x ∈ v.own := by
  refine h.selfResults (P := fun names => ∀ x ∈ names, x ∈ v.own) hs fun trip hmem earlier hsub h htrip => ?_
  have hkeys := hb.tripKeys hd h fun trip hmem => (htrips trip (hsub hmem)).covered
  refine hown trip hmem (hb.ofTrip hd hkeys) ?_
  rwa [(kept_tripStart _ _ _).1]

theorem Analyzed.own (hentry : Γ.EntryForces) (h : Analyzed Γ block s out s')
    (hb : Covering S s block) (hsurveyed : areSurveyed Γ.registry v Γ.entry true outer block = true)
    (hs : ∀ x ∈ s.selfResults, x ∈ v.own) : ∀ x ∈ s'.selfResults, x ∈ v.own := by
  induction h generalizing outer with
  | nil => exact hs
  | @bind _ _ value' x completion _ _ _ _ s₁ _ hx hd _ ih =>
    simp only [areSurveyed, isSurveyed, hx, Option.all_some, Bool.and_eq_true, Survey.binds_iff] at hsurveyed
    refine ih (hb.bind hx hd) hsurveyed.2
      fun y (hy : y ∈ (s₁.record Γ.entry x value' completion).selfResults) => ?_
    rcases selfResults_record hy with ⟨rfl, hself⟩ | hy
    · exact hsurveyed.1.2.2.2.2 trivial ((hd.callee hb.tables.current_symbol).symm.trans hself)
    · exact hs y (hd.selfResults hentry hy)
  | ret _ hd _ ih =>
    rw [areSurveyed, Bool.and_eq_true] at hsurveyed
    exact ih (hb.ret hd) hsurveyed.2 fun y hy => hs y (hd.selfResults hentry hy)
  | entryRet _ hd _ ih =>
    rw [areSurveyed, Bool.and_eq_true] at hsurveyed
    exact ih (hb.entryRet hd) hsurveyed.2 fun y hy => hs y (hd.selfResults hentry hy)
  | @branch _ _ _ _ _ _ _ _ _ _ _ s₁ t u _ hd ht hu _ iht ihu ih =>
    simp only [areSurveyed, isSurveyed, Bool.and_eq_true] at hsurveyed
    have hs₁ : ∀ y ∈ s₁.selfResults, y ∈ v.own := fun y hy => hs y (hd.selfResults hentry hy)
    have ht' := iht (hb.ofTrue hd) hsurveyed.1.1.2 hs₁
    have hu' := ihu (hb.ofFalse hd ht.grows) hsurveyed.1.2 ht'
    refine ih (hb.joined hd (grows_joined ht.grows hu.grows) (ht.covered (hb.ofTrue hd))
      (hu.covered (hb.ofFalse hd ht.grows))) hsurveyed.2 fun y hy => hu' y ?_
    rwa [(kept_joined _ _ _).1] at hy
  | @loop _ _ _ _ _ _ _ _ s s₁ _ _ selfResults head _ hd hraised htrips htrip _ _ ihtrips iht ih =>
    simp only [areSurveyed, isSurveyed, Bool.and_eq_true] at hsurveyed
    have hs₁ : ∀ y ∈ s₁.flush.selfResults, y ∈ v.own := fun y hy =>
      hs y ((s.kept_invalidateAll _).1 ▸ hd.selfResults hentry hy)
    have hhead := hb.tripKeys hd hraised fun trip hmem => (htrips trip hmem).covered
    have hself := hraised.own hb hd htrips hs₁ fun trip hmem hb => ihtrips trip hmem hb hsurveyed.1.2
    have ht' := iht (hb.ofTrip hd hhead) hsurveyed.1.2 (by rwa [(kept_tripStart _ _ _).1])
    refine ih (hb.settled hd (grows_settled htrip.grows) (htrip.covered (hb.ofTrip hd hhead)))
      hsurveyed.2 fun y hy => ht' y ?_
    rwa [(kept_settled _ _ _).1] at hy

theorem Derives.bound_keys (h : Derives Γ task s results binds s') (hs : s.Stems)
    (hx : x ∈ s'.bound.inner.keys) : x ∈ s.bound.inner.keys ∨ Name.IsDrawn x := by
  refine (h.effects (motive := fun s _ t => Grows s t ∧ (s.Stems → x ∈ t.bound.inner.keys →
    x ∈ s.bound.inner.keys ∨ Name.IsDrawn x)) (fun s => ⟨.refl s, fun _ => .inl⟩)
    (fun hone => ⟨hone.grows, fun hs hx => ?_⟩) fun hfirst hsecond => ⟨hfirst.1.trans hsecond.1, fun hs hx =>
      (hsecond.2 (hs.mono hfirst.1) hx).elim (hfirst.2 hs) .inr⟩).2 hs hx
  cases hone with
  | hoisted =>
    rcases Table.mem_keys_put.1 hx with rfl | hx
    · exact .inr (.inr ⟨_, hs.next⟩)
    · exact .inl hx
  | _ => exact .inl hx

theorem Analyzed.bound_keys (h : Analyzed Γ block s out s') (hs : s.Stems)
    (hx : x ∈ s'.bound.inner.keys) :
    x ∈ s.bound.inner.keys ∨ x ∈ localNames block ∨ Name.IsDrawn x := by
  have hafter : ∀ {t : State} {rest} (stmt : Stmt), x ∈ localNames rest ∨ Name.IsDrawn x →
      x ∈ t.bound.inner.keys ∨ x ∈ localNames (stmt :: rest) ∨ Name.IsDrawn x :=
    fun _ h => .inr (h.imp_left mem_localNames_rest)
  induction h with
  | nil => exact .inl hx
  | @bind _ _ value' y completion _ _ _ _ s₁ _ hy hd _ ih =>
    have hgrows := (s₁.grows_record Γ.entry y value' completion).trans (grows_flush _)
    refine (ih ((hs.mono hd.grows).mono hgrows) hx).elim (fun hx => ?_) (hafter _)
    rcases Table.mem_keys_put.1 hx with rfl | hx
    · exact .inr (.inl (mem_localNames_bind hy))
    · exact (hd.bound_keys hs hx).imp_right .inr
  | ret _ hd _ ih | entryRet _ hd _ ih =>
    exact (ih ((hs.mono hd.grows).mono (grows_flush _)) hx).elim (fun hx => (hd.bound_keys hs hx).imp_right .inr)
      (hafter _)
  | @branch _ _ _ _ _ _ _ _ _ _ _ _ _ _ _ hd ht hu _ _ _ ih =>
    have hs₁ := (hs.mono hd.grows).mono (grows_flush _)
    refine (ih (hs₁.mono (grows_joined ht.grows hu.grows)) hx).elim (fun hx => ?_) (hafter _)
    rw [(kept_joined _ _ _).2] at hx
    exact (hd.bound_keys hs hx).imp_right .inr
  | @loop _ _ _ _ body _ _ _ s s₁ _ _ selfResults head _ hd _ _ htrip _ _ _ _ ih =>
    have hs₀ := hs.mono (s.grows_invalidateAll (bodyTargets body))
    have hs₁ := (hs₀.mono hd.grows).mono (grows_flush _)
    have hsettled := grows_settled htrip.grows
    refine (ih (hs₁.mono hsettled) hx).elim (fun hx => ?_) (hafter _)
    rw [(kept_settled _ _ _).2] at hx
    refine (hd.bound_keys hs₀ hx).imp (fun hx => ?_) .inr
    rwa [(kept_invalidateAll _ _).2] at hx

theorem Head.forcedNames_build {k : Head} {parts : List Expr}
    (hk : ∀ function typing, k = .call function typing → function.forces registry = false) :
    (k.build parts).forcedNames registry = Expr.forcedNamesAll registry parts := by
  cases k with
  | call function typing => rw [Head.build, Expr.forcedNames, hk function typing rfl]; rfl
  | _ => rfl

theorem Derives.forced_names {F B : String → Prop} (hk : Kinds F B S)
    (h : Derives Γ task s results binds s')
    (hreads : (∃ e, task = .value e) ∨ ∃ es : List Expr, task = .all (es.map .value))
    (hr : task.Fits Γ.registry F B S s) :
    ∀ r ∈ results, ∀ z ∈ r.1.forcedNames Γ.registry, Name.IsDrawn z ∨ z ∈ task.forced Γ.registry := by
  induction h with
  | nil => exact nofun
  | cons h₁ _ ih₁ ih₂ =>
    rcases hreads with ⟨_, hreads⟩ | ⟨es, hreads⟩
    · cases hreads
    cases es with
    | nil => cases hreads
    | cons e es =>
      cases hreads
      intro r hmem z hz
      rw [Task.forced, Task.forcedAll, mem_append]
      rcases mem_cons.1 hmem with rfl | hmem
      · exact (ih₁ (.inl ⟨e, rfl⟩) hr.head r mem_cons_self z hz).imp_right .inl
      · exact (ih₂ (.inr ⟨es, rfl⟩) (hr.tail h₁.grows (h₁.noted hk hr.head).tables) r hmem z hz).imp_right .inr
  | name s x typing =>
    intro r hmem z hz
    cases mem_singleton.1 hmem
    rcases hr.tables.current x typing with hx | ⟨y, typing', hy, -⟩
    · rw [hx] at hz
      cases hz
    · rw [hy] at hz
      cases hz
  | literal =>
    intro r hmem z hz
    cases mem_singleton.1 hmem
    cases hz
  | @node _ parts _ _ _ _ _ _ hjoins ih =>
    intro r hmem z hz
    cases mem_singleton.1 hmem
    rw [Head.forcedNames_build hjoins.not_forces] at hz
    obtain ⟨e, he, hz⟩ := Expr.mem_forcedNamesAll.1 hz
    obtain ⟨r, hr', rfl⟩ := mem_map.1 he
    refine (ih (.inr ⟨parts, rfl⟩) hr.values r hr' z hz).imp_right fun hz => ?_
    rw [Task.forced, Head.forcedNames_build hjoins.not_forces]
    rwa [Task.forced, Task.forcedAll_values] at hz
  | @forcing function arguments _ _ _ _ _ _ parameters _ _ hf' hcallee hs hforces hinstance h _ =>
    have hforced : function.forces Γ.registry = true := forces_of_signature hf' hcallee hs hforces
    have n := h.noted hk (hr.arguments hforced)
    intro r hmem z hz
    cases mem_singleton.1 hmem
    rw [Expr.forcedNames, if_pos hforced] at hz
    obtain ⟨e, he, hz⟩ := Expr.mem_namesAll.1 hz
    obtain ⟨r, hr', rfl⟩ := mem_map.1 he
    refine (n.names r hr' z hz).imp_right ?_
    rintro ⟨e, he, hz⟩
    rw [Task.exprs, Task.exprsAll_demands (Ty.length_instantiate? hinstance)] at he
    rw [Task.forced, Expr.forcedNames, if_pos hforced]
    exact Expr.mem_namesAll.2 ⟨e, he, hz⟩
  | _ => rcases hreads with ⟨_, hreads⟩ | ⟨_, hreads⟩ <;> cases hreads

end States

end Phases
end DataParallel
