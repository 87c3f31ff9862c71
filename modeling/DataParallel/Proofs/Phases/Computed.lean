import DataParallel.Proofs.Pending
import DataParallel.Proofs.Phases.Completions

/-! Names that never hold anything pending.

If the text binds some names to computed expressions only, then so does what it is analysed to: all
that is read in place of such a name is computed as well, and the analysis never takes it for
pending. -/

namespace DataParallel

open DataParallel.Expr List Name Phases.State Stmt

variable {registry : Registry} {C : String → Prop}

section Congruence
variable {C' : String → Prop}

theorem Expr.computedAll_congr (es : List Expr) (h : ∀ z ∈ namesAll es, C z ↔ C' z) :
    ComputedAll registry C es ↔ ComputedAll registry C' es := by
  induction es using list_induction with
  | nil => rfl
  | cons e es ihe ih => cases e <;> simp_all [or_imp, forall_and, ComputedAll, Computed]

theorem Expr.computed_congr (e : Expr) (h : ∀ z ∈ e.names, C z ↔ C' z) :
    e.Computed registry C ↔ e.Computed registry C' := by
  simpa [ComputedAll] using computedAll_congr [e] (by simpa using h)

theorem Stmt.computesAll_congr (block : List Stmt) (h : ∀ z ∈ namesAll block, C z ↔ C' z) :
    ComputesAll registry C block ↔ ComputesAll registry C' block := by
  induction block using block_induction with
  | nil => rfl
  | cons s rest ihs ih =>
    simp only [namesAll, mem_append, or_imp, forall_and] at h
    refine and_congr ?_ (ih h.2)
    cases s <;> simp_all [Computes, suites, or_imp, forall_and]
    · exact forall₂_congr fun x hx => imp_congr (h.1.1 x (mem_names_of_symbol hx)) (computed_congr _ h.1.2)
    · exact computed_congr _ h.1

end Congruence

namespace Phases

variable {s s' : State} {completion : Completion} {Γ : Context} {parts : List Expr}

section Roles
variable {function : Expr} {callee : String} {signature : Signature}

theorem role_of_registered (hf : function.symbol? = some callee)
    (hcallee : Snippet.isSnippet callee = false) (hs : registry.get? callee = some signature) :
    function.role registry = match signature.synchronization with
      | .forces => .forces signature.ty
      | .propagates => .composes
      | .inert => .other := by
  simp only [Snippet.isSnippet, Bool.or_eq_false_iff, decide_eq_false_iff_not, Option.isSome_eq_false_iff,
    Option.isNone_iff_eq_none] at hcallee
  obtain ⟨⟨⟨htuple, hboundary⟩, hsequence⟩, hproject⟩ := hcallee
  cases hsync : signature.synchronization <;>
    simp only [role, hf, hs, hsync, if_neg htuple, if_neg hboundary, if_neg hsequence, hproject]

theorem role_tuple (hf : function.symbol? = some Snippet.makeTuple) :
    function.role registry = .tuple := by
  simp only [role, hf, if_true]

theorem role_project {index : Nat} (hf : function.symbol? = some callee)
    (hne : callee ≠ Snippet.makeTuple)
    (hproject : Snippet.projection? callee = some index) : function.role registry = .project index := by
  simp only [role, hf, if_neg hne, hproject]

theorem role_boundary (hf : function.symbol? = some Snippet.phaseBoundary) :
    function.role registry = .boundary := by
  have hne : Snippet.phaseBoundary ≠ Snippet.makeTuple := by decide
  have hproject : Snippet.projection? Snippet.phaseBoundary = none := by decide
  simp only [role, hf, if_neg hne, hproject, if_true]

end Roles

/-- The tables take the names `C` for computed, and read and record nothing else for them. -/
structure State.Clear (registry : Registry) (C : String → Prop) (s : State) : Prop where
  standIns : ∀ {x e}, s.standIn? x = some e → C x → e.Computed registry C
  fields : ∀ {x fields}, s.componentsOf? x = some fields → C x → ComputedAll registry C fields
  closures : ∀ {x e}, s.closureOf? x = some e → C x → e.Computed registry C
  complete : ∀ {x}, C x → s.completionOf x ≠ .incomplete

/-- The names `C` are those of the text that are never pending, and what is drawn for them. -/
structure Clearing (C : String → Prop) : Prop where
  realized : ∀ (x : String) (n : Nat), C (x ++ "_phase" ++ toString n) ↔ C x
  temporary : ∀ n : Nat, ¬ C ("_sync" ++ toString n)

namespace State.Clear
variable {t : State} {x : String} {e : Expr} {names : List String}

theorem current (h : s.Clear registry C) (typing : Typing) (hx : C x) :
    (s.current (.name x typing)).Computed registry C := by
  rw [current_name]
  cases he : s.standIn? x with
  | none => exact hx
  | some e => exact h.standIns he hx

mutual

theorem completionOfValue (h : s.Clear registry C) : ∀ {e : Expr}, e.Computed registry C →
    s.completionOfValue e ≠ .incomplete
  | .name _ _, he => h.complete he
  | .tuple elements _, he => by
    rw [State.completionOfValue, Ne, Completion.all_eq_incomplete]
    exact h.completionsOfValues he
  | .literal .., _ | .apply .., _ | .closure .., _ => by simp [State.completionOfValue]

theorem completionsOfValues (h : s.Clear registry C) :
    ∀ {es : List Expr}, ComputedAll registry C es → .incomplete ∉ s.completionsOfValues es
  | [], _ => by simp [State.completionsOfValues]
  | _ :: _, hes => by
    rw [State.completionsOfValues, mem_cons, not_or]
    exact ⟨(h.completionOfValue hes.1).symm, h.completionsOfValues hes.2⟩

end
variable {value : Expr} {typing : Typing} {entry : String}

section
variable (h : s.Clear registry C)
include h

theorem tables : s.Tables (fun x e => C x → e.Computed registry C)
    (fun x fields => C x → ComputedAll registry C fields) (fun x e => C x → e.Computed registry C) :=
  ⟨h.standIns, h.fields, h.closures⟩

theorem forget (hf : Forgets s names t) (hcomplete : ∀ {x}, C x → t.completionOf x ≠ .incomplete) :
    t.Clear registry C :=
  have ht := h.tables.forget hf
  ⟨ht.standIns, ht.fields, ht.closures, hcomplete⟩

theorem flush : s.flush.Clear registry C :=
  h.forget (forgets_flush s) h.complete

theorem substitute (he : C x → e.Computed registry C) : (s.substitute x e).Clear registry C :=
  have ht := h.tables.substitute he
  ⟨ht.standIns, ht.fields, ht.closures, h.complete⟩

end

section
variable (hC : Clearing C) (h : s.Clear registry C) (hs : s.Stems)
include hC h hs

theorem realized : (s.realized x value typing).Clear registry C := by
  have ht : (s.realized x value typing).Tables _ _ _ := h.tables.realized fun hx => by
    rw [hs.derive]
    exact (hC.realized x _).2 hx
  refine ⟨ht.standIns, ht.fields, ht.closures, fun {z} hz => ?_⟩
  rw [completionOf_realized]
  split
  · simp
  · split
    · simp
    · exact h.complete hz

theorem rebuilt {fields : List Expr} (hfields : C x → ComputedAll registry C fields) :
    (s.rebuilt x fields typing).Clear registry C := by
  have hderived : C (s.phases.derive x).1 ↔ C x := by rw [hs.derive, hC.realized]
  have hcompletion : C x → Completion.all (s.completionsOfValues fields) ≠ .incomplete := by
    intro hx
    rw [Ne, Completion.all_eq_incomplete]
    exact h.completionsOfValues (hfields hx)
  have ht : (s.rebuilt x fields typing).Tables _ _ _ :=
    h.tables.rebuilt hderived.2 fun hx => hfields (hderived.1 hx)
  refine ⟨ht.standIns, ht.fields, ht.closures, fun {z} hz => ?_⟩
  rw [completionOf_rebuilt]
  split
  · rename_i hzx
    exact hcompletion (hzx ▸ hz)
  · split
    · rename_i hzx
      exact hcompletion (hderived.1 (hzx ▸ hz))
    · exact h.complete hz

theorem reclosed {like closure : Expr} (hclosure : C x → closure.Computed registry C) :
    (s.reclosed x like closure).Clear registry C := by
  have ht : (s.reclosed x like closure).Tables _ _ _ := h.tables.reclosed fun hx => by
    rw [hs.derive, hC.realized] at hx
    exact hclosure hx
  refine ⟨ht.standIns, ht.fields, ht.closures, fun {z} hz => ?_⟩
  rw [completionOf_reclosed]
  split
  · simp
  · exact h.complete hz

end

theorem record (h : s.Clear registry C)
    (hvalue : C x → value.Computed registry C ∧ completion ≠ .incomplete) :
    (s.record entry x value completion).Clear registry C := by
  have ht : (s.record entry x value completion).Tables _ _ _ := (h.tables.but x).record (fun fields hf hx => ?_)
    fun e he hx => ?_
  · refine ⟨ht.standIns, ht.fields, ht.closures, fun {z} hz => ?_⟩
    rw [completionOf_record]
    split
    · rename_i hzx
      exact (hvalue (hzx ▸ hz)).2
    · exact h.complete hz
  · rcases recordedFields_cases hf with ⟨function, typing, rfl, htuple⟩ | ⟨y, typing, rfl, hy⟩
    · exact (hvalue hx).1.1 (by rw [role_tuple htuple]; rfl)
    · exact h.fields hy (hvalue hx).1
  · rcases recordedClosure_cases he with ⟨rfl, -⟩ | ⟨y, typing, rfl, hy⟩
    · exact (hvalue hx).1
    · exact h.closures hy (hvalue hx).1

theorem hoisted (hC : Clearing C) (h : s.Clear registry C) (hs : s.Stems) :
    (s.hoisted entry value completion).Clear registry C := by
  have hpend : (s.freshTemporary.2.pend (value.renamed s.temporaries.next.1) value).Clear registry C :=
    h.forget (.none (fun _ => rfl) (fun _ => rfl) (fun _ => rfl)) h.complete
  refine hpend.record fun hx => absurd hx ?_
  rw [hs.next]
  exact hC.temporary _

end State.Clear

section Tasks
variable {task : Task} {results : List (Expr × Completion)} {binds : List Stmt}

theorem Joins.computed {head : Head} (h : Joins Γ s results head parts completion)
    (hs : s.Clear Γ.registry C) (hhead : (head.build parts).Computed Γ.registry C)
    (hparts : ComputedAll Γ.registry C parts → ∀ r ∈ results,
      r.1.Computed Γ.registry C ∧ r.2 ≠ .incomplete) :
    (head.build (results.map Prod.fst)).Computed Γ.registry C ∧ completion ≠ .incomplete := by
  have hexprs : ComputedAll Γ.registry C parts → ComputedAll Γ.registry C (results.map Prod.fst) := by
    refine fun hall => computedAll_iff.2 fun e he => ?_
    obtain ⟨r, hr, rfl⟩ := mem_map.1 he
    exact (hparts hall r hr).1
  have hall : ComputedAll Γ.registry C parts → Completion.all (results.map Prod.snd) ≠ .incomplete := by
    intro hall
    rw [Ne, Completion.all_eq_incomplete]
    intro hmem
    obtain ⟨r, hr, hr'⟩ := mem_map.1 hmem
    exact (hparts hall r hr).2 hr'
  cases h with
  | tuple => exact ⟨hexprs hhead, hall hhead⟩
  | closure => exact ⟨hexprs hhead, by simp⟩
  | makeTuple hf =>
    have harguments := hhead.1 (by rw [role_tuple hf]; rfl)
    exact ⟨⟨fun _ => hexprs harguments, hhead.2⟩, hall harguments⟩
  | @project _ _ _ _ index hf hne hproject =>
    have harguments := hhead.1 (by rw [role_project hf hne hproject]; rfl)
    refine ⟨⟨fun _ => hexprs harguments, hhead.2⟩, ?_⟩
    -- the field on record, or else the completion of the source
    cases hfield : (results.map Prod.fst).head?.bind fun source => source.symbol?.bind fun symbol =>
      (s.componentsOf? symbol).bind (·[index]?) with
    | none => exact hall harguments
    | some field =>
      obtain ⟨source, hsource, hfield⟩ := Option.bind_eq_some_iff.1 hfield
      obtain ⟨symbol, hsymbol, hfield⟩ := Option.bind_eq_some_iff.1 hfield
      obtain ⟨fields, hfields, hfield⟩ := Option.bind_eq_some_iff.1 hfield
      have hcomputed := computedAll_iff.1 (hexprs harguments) source (mem_of_head? hsource)
      rw [eq_name_of_symbol hsymbol] at hcomputed
      exact hs.completionOfValue (computedAll_iff.1 (hs.fields hfields hcomputed) field (mem_of_getElem? hfield))
  | stored => exact ⟨⟨fun hrole => hexprs (hhead.1 hrole), hhead.2⟩, by simp⟩
  | propagates hf hcallee hs hpropagates =>
    have hrole := role_of_registered hf hcallee hs
    rw [hpropagates] at hrole
    refine ⟨⟨fun hrole => hexprs (hhead.1 hrole), hhead.2⟩, ?_⟩
    rw [hhead.2 hrole]
    simp
  | inert => exact ⟨⟨fun hrole => hexprs (hhead.1 hrole), hhead.2⟩, by simp⟩

theorem Head.computed_parts {k : Head} {demand : Ty} {parts' : List Expr} {demands : List Ty}
    (hk : k.partDemands? demand parts = some demands) (C : String → Prop) :
    (k.build parts').Computed registry C ↔ ComputedAll registry C parts' := by
  cases k with
  | tuple => exact Iff.rfl
  | closure => exact Iff.rfl
  | call => cases hk

/-- What a task leaves behind: what is read in place of computed expressions is computed, and so is
all that is bound to names `C` on the way. -/
structure Clears (registry : Registry) (C : String → Prop) (task : Task) (results : List (Expr × Completion))
    (binds : List Stmt) (s' : State) : Prop where
  state : s'.Clear registry C
  binds : ComputesAll registry C binds
  results : (∀ e ∈ task.exprs, e.Computed registry C) → ∀ r ∈ results, r.1.Computed registry C ∧ r.2 ≠ .incomplete

namespace Clears
variable {e e' : Expr}

theorem complete (hs : s'.Clear registry C) (hbinds : ComputesAll registry C binds)
    (htask : task.exprs = [e])
    (he : e.Computed registry C → e'.Computed registry C) : Clears registry C task [(e', .complete)] binds s' := by
  refine ⟨hs, hbinds, fun hexprs => forall_mem_singleton.2 ⟨he (hexprs e ?_), by simp⟩⟩
  rw [htask]
  exact mem_cons_self

theorem result {r : Expr × Completion} (h : Clears registry C task [r] binds s')
    (htask : task.exprs = [e])
    (he : e.Computed registry C) : r.1.Computed registry C ∧ r.2 ≠ .incomplete :=
  h.results (htask ▸ forall_mem_singleton.2 he) r mem_cons_self

theorem exprs (h : Clears registry C task results binds s')
    (hes : ∀ e ∈ task.exprs, e.Computed registry C) :
    ComputedAll registry C (results.map Prod.fst) :=
  computedAll_iff.2 (forall_mem_map.2 fun r hr => (h.results hes r hr).1)

/-- A name that was drawn is bound, and stands for `e` from there on. -/
theorem derived {t : State} {target value : Expr} {typing : Typing} (hC : Clearing C)
    (hstems : t.Stems)
    (hs : s'.Clear registry C) (hbinds : ComputesAll registry C binds) (htask : task.exprs = [e])
    (hx : e.symbol? = some x) (htarget : target.symbol? = some (t.phases.derive x).1)
    (hvalue : C x → value.Computed registry C) : Clears registry C task
      [(.name (t.phases.derive x).1 typing, .complete)] (binds ++ [.bind target value]) s' := by
  refine .complete hs (computesAll_append hbinds ⟨fun z hz hCz => hvalue ?_, trivial⟩) htask fun he => ?_
  · cases htarget.symm.trans hz
    rwa [hstems.derive, hC.realized] at hCz
  · show C _
    rw [hstems.derive, hC.realized]
    rwa [eq_name_of_symbol hx] at he

end Clears

/-- What a task binds to names `C` is computed. -/
theorem Derives.clear (hC : Clearing C) (h : Derives Γ task s results binds s')
    (hreads : task.returns = false) (hstems : s.Stems) (hs : s.Clear Γ.registry C) :
    Clears Γ.registry C task results binds s' := by
  induction h with
  | nil => exact ⟨hs, trivial, nofun⟩
  | cons h₁ h₂ ih₁ ih₂ =>
    simp only [Task.returns, Task.anyReturns, Bool.or_eq_false_iff] at hreads
    have c₁ := ih₁ hreads.1 hstems hs
    have c₂ := ih₂ hreads.2 (hstems.mono h₁.grows) c₁.state
    refine ⟨c₂.state, computesAll_append c₁.binds c₂.binds, fun hexprs r hr => ?_⟩
    rcases mem_cons.1 hr with rfl | hr
    · exact c₁.results (fun e he => hexprs e (mem_append_left _ he)) r mem_cons_self
    · exact c₂.results (fun e he => hexprs e (mem_append_right _ he)) r hr
  | name s x typing =>
    refine ⟨hs, trivial, fun hexprs => forall_mem_singleton.2 ?_⟩
    have hcurrent := hs.current typing (hexprs _ mem_cons_self : C x)
    exact ⟨hcurrent, hs.completionOfValue hcurrent⟩
  | literal | demandLiteral | met => exact .complete hs trivial rfl id
  | node _ hjoins ih =>
    have c := ih (by simp) hstems hs
    refine ⟨c.state, c.binds, fun hexprs => forall_mem_singleton.2 ?_⟩
    refine hjoins.computed c.state (hexprs _ mem_cons_self) fun hparts => c.results fun e he => ?_
    exact computedAll_iff.1 hparts e (by simpa using he)
  | forcing _ hf hcallee hsig hforces _ _ ih =>
    have c := ih (by simp) hstems hs
    have hrole := role_of_registered hf hcallee hsig
    rw [hforces] at hrole
    refine .complete c.state c.binds rfl fun _ => ?_
    simp only [Computed, hrole, Role.handsOn]
    exact ⟨fun hhands => absurd hhands (by simp), fun hcomposes => absurd hcomposes (by simp)⟩
  | @demandName x typing _ _ _ e _ _ ih =>
    have c := ih rfl hstems hs
    have hresult : C x → e.Computed Γ.registry C := fun hx => (c.result rfl (hs.current typing hx)).1
    refine .complete ?_ c.binds rfl hresult
    split
    · exact c.state.substitute hresult
    · exact c.state
  | demandNode hdemands _ ih =>
    have c := ih (by simp) hstems hs
    refine .complete c.state c.binds rfl fun hnode => (Head.computed_parts hdemands C).2 (c.exprs fun e he => ?_)
    exact computedAll_iff.1 ((Head.computed_parts hdemands C).1 hnode) e (Task.mem_exprsAll_demands he)
  | demandCall h _ ih =>
    have c := ih rfl hstems hs
    exact .complete c.state c.binds rfl fun he => (c.result rfl he).1
  | demandHoisted h _ _ ih ih' =>
    have c := ih rfl hstems hs
    have hstems₁ := hstems.mono h.grows
    have c' := ih' rfl (hstems₁.mono (grows_hoisted _ _ _ _)) (c.state.hoisted hC hstems₁)
    refine ⟨c'.state, computesAll_append c.binds ⟨fun z hz hCz => absurd hCz ?_, c'.binds⟩, fun hexprs => ?_⟩
    · cases hz
      rw [hstems₁.next]
      exact hC.temporary _
    · exact absurd rfl (c.results hexprs _ mem_cons_self).2
  | closureKept _ _ _ ih | tupleKept _ _ _ _ _ _ ih =>
    have c := ih (by simp) hstems hs
    exact .complete c.state c.binds rfl id
  | closureRebuilt hx hclosure h _ ih =>
    have c := ih rfl hstems hs
    have hforced := fun hCx => (c.result rfl (hs.closures hclosure hCx)).1
    have hstems' := hstems.mono h.grows
    exact .derived hC hstems' (c.state.reclosed hC hstems' hforced) c.binds rfl hx rfl hforced
  | tupleRebuilt hx _ _ hfields h _ ih =>
    have c := ih (by simp) hstems hs
    have hstems' := hstems.mono h.grows
    have hparts := fun hCx => c.exprs fun f hf =>
      computedAll_iff.1 (hs.fields hfields hCx) f (Task.mem_exprsAll_demands hf)
    refine .derived hC hstems' (c.state.rebuilt hC hstems' hparts) c.binds rfl hx rfl fun hCx =>
      ⟨fun _ => hparts hCx, fun hrole => ?_⟩
    rw [role_tuple rfl] at hrole
    cases hrole
  | realized hx =>
    show Clears _ C _ _ ([] ++ [_]) _
    refine .derived hC hstems (hs.realized hC hstems) trivial rfl hx rfl fun hCx =>
      ⟨fun _ => ⟨?_, trivial⟩, fun hrole => ?_⟩
    · rwa [eq_name_of_symbol hx]
    · rw [role_boundary rfl] at hrole
      cases hrole
  | returnedName | returnedRealized | returnedTupleKept | returnedTupleRebuilt | returnedLiteral | returnedTuple
  | returnedClosure | returnedCall | returnedHoisted => cases hreads

end Tasks

section Blocks
variable {block out : List Stmt}

theorem Analyzed.clear (hC : Clearing C) (h : Analyzed Γ block s out s') (hside : s.inEntry = false)
    (hstems : s.Stems) (hs : s.Clear Γ.registry C) (hblock : ComputesAll Γ.registry C block) :
    s'.Clear Γ.registry C ∧ ComputesAll Γ.registry C out := by
  induction h with
  | nil => exact ⟨hs, trivial⟩
  | @bind _ _ value' x completion _ _ _ _ s₁ _ hx hd _ ih =>
    have c := hd.clear hC rfl hstems hs
    have hvalue := fun hCx => c.result rfl (hblock.1 x hx hCx)
    have hgrows := hd.grows.trans ((grows_record s₁ Γ.entry x value' completion).trans (grows_flush _))
    obtain ⟨hs', hout⟩ := ih (hgrows.inEntry ▸ hside) (hstems.mono hgrows) (c.state.record hvalue).flush hblock.2
    refine ⟨hs', computesAll_append c.binds ⟨fun z hz hCz => ?_, hout⟩⟩
    cases hx.symm.trans hz
    exact (hvalue hCz).1
  | ret _ hd hrest ih =>
    have c := hd.clear hC rfl hstems hs
    have hgrows := hd.grows.trans (grows_flush _)
    obtain ⟨hs', hout⟩ := ih (hgrows.inEntry ▸ hside) (hstems.mono hgrows) c.state.flush hblock.2
    exact ⟨hs', computesAll_append c.binds ⟨(c.result rfl hblock.1).1, hout⟩⟩
  | entryRet hentry => rw [hside] at hentry; cases hentry
  | @branch _ _ _ _ _ _ _ _ _ _ _ s₁ t u _ hd ht hu _ iht ihu ih =>
    obtain ⟨hs₁, hbinds, -⟩ := hd.clear hC rfl hstems hs
    have hgrows := hd.grows.trans (grows_flush s₁)
    have hside₁ : s₁.flush.inEntry = false := hgrows.inEntry ▸ hside
    have hstems₁ := hstems.mono hgrows
    have hgrowst := grows_resume ht.grows
    obtain ⟨ht', hwhenTrue⟩ := iht hside₁ hstems₁ (hs₁.flush.forget (forgets_enter _) hs₁.complete) hblock.1.1
    obtain ⟨hu', hwhenFalse⟩ := ihu (hgrowst.inEntry ▸ hside₁)
      (show (s₁.flush.resume t).Stems from hstems₁.mono hgrowst)
      (hs₁.flush.forget ((forgets_resume _ _).trans (forgets_enter _)) hs₁.complete) hblock.1.2
    have hjoined := grows_joined ht.grows hu.grows
    have hafter : (s₁.flush.joined t u).Clear Γ.registry C := by
      refine hs₁.flush.forget (forgets_joined _ _ _) fun {x} hx => ?_
      rw [completionOf_joined ht.inserts (Inserts.trans (.of_eq rfl) hu.inserts), Ne,
        Completion.merge_eq_incomplete, not_or]
      exact ⟨ht'.complete hx, hu'.complete hx⟩
    obtain ⟨hs', hout⟩ := ih (hjoined.inEntry ▸ hside₁) (hstems₁.mono hjoined) hafter hblock.2
    exact ⟨hs', computesAll_append hbinds ⟨⟨hwhenTrue, hwhenFalse⟩, hout⟩⟩
  | @loop _ _ _ _ body _ _ _ s s₁ t _ selfResults head _ hd hraised htrips htrip hsettled _ ihtrips iht ih =>
    have hinvalidate := s.grows_invalidateAll (bodyTargets body)
    obtain ⟨hs₁, hbinds, -⟩ := hd.clear hC rfl (hstems.mono hinvalidate)
      (hs.forget (forgets_invalidateAll _ _) fun hx => by
        rw [completionOf_congr (completions_invalidateAll _)]
        exact hs.complete hx)
    have hgrows := hinvalidate.trans (hd.grows.trans (grows_flush s₁))
    have hside₁ : s₁.flush.inEntry = false := hgrows.inEntry ▸ hside
    have hstems₁ := hstems.mono hgrows
    have hstart : ∀ {selfResults : List String} {head : Table Completion},
        (∀ x, C x → (s₁.flush.tripStart selfResults head).completionOf x ≠ .incomplete) →
        (s₁.flush.tripStart selfResults head).Clear Γ.registry C := fun hcomplete =>
      hs₁.flush.forget (forgets_tripStart _ _ _) fun {x} hx => hcomplete x hx
    have hsideStart : ∀ {selfResults : List String} {head : Table Completion},
        (s₁.flush.tripStart selfResults head).inEntry = false :=
      (grows_tripStart _ _ _).inEntry.trans hside₁
    have hhead := hraised.completions (P := fun x c => C x → c ≠ .incomplete) (fun x hx => hs₁.flush.complete hx)
      (fun x a b ha hb hx => by rw [Ne, Completion.merge_eq_incomplete, not_or]; exact ⟨ha hx, hb hx⟩)
      (fun trip hmem => ⟨(htrips trip hmem).inserts, fun hcomplete x hx =>
        (ihtrips trip hmem hsideStart hstems₁.tripStart (hstart hcomplete) hblock.1).1.complete hx⟩) selfResults
    obtain ⟨-, hbody⟩ := iht hsideStart hstems₁.tripStart (hstart hhead) hblock.1
    have hgrows' := grows_settled htrip.grows
    have hafter : (s₁.flush.settled t head).Clear Γ.registry C := by
      refine hs₁.flush.forget (forgets_settled _ _ _) fun {x} hx => ?_
      rw [completionOf_settled hraised.covers htrip.inserts hsettled]
      exact hhead x hx
    obtain ⟨hs', hout⟩ := ih (hgrows'.inEntry ▸ hside₁) (hstems₁.mono hgrows') hafter hblock.2
    exact ⟨hs', computesAll_append hbinds ⟨hbody, hout⟩⟩

end Blocks

end Phases
end DataParallel
