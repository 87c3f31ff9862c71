import DataParallel.Lowering.Layouts
import DataParallel.Lowering.TupleBinds
import DataParallel.Proofs.Contracts
import DataParallel.Proofs.Phases.Values
import DataParallel.Proofs.Restoration
import DataParallel.Reading.Units

/-! Phase analysis only inserts binds of drawn names.

Whatever a task puts in front of the current statement binds drawn names, and its results stand for
its expressions. So what an analysed block stands for is the block. -/

namespace DataParallel

open DataParallel.Expr List Phases.State Name Stmt

namespace Phases

variable {Γ : Context} {task : Task} {results : List (Expr × Completion)} {binds binds' out : List Stmt}
  {s s' s₁ t : State} {calls : Table Expr} {entry x y : String} {e e₀ value : Expr} {typing : Typing}
  {es fields parts : List Expr} {completion : Completion} {names : List String} {k : Head}

namespace State

/-- A name that stands for one of the text or for a temporary that was drawn before. -/
def Refers (s : State) (z : String) : Prop :=
  isDrawn (root z) = false ∨ ∃ n < s.temporaries.counter, root z = "_sync" ++ toString n

def Refer (s : State) (es : List Expr) : Prop := ∀ e ∈ es, ∀ z ∈ e.names, s.Refers z

/-- Every table entry refers to what stands in front of the current statement, and a name is read
through one that stands for the same. -/
structure Traced (s : State) : Prop where
  standIns : ∀ {x e}, s.standIn? x = some e → ∃ y typing, e = .name y typing ∧ root y = root x
  fields : ∀ {x fields}, s.componentsOf? x = some fields → s.Refer fields
  closures : ∀ {x e}, s.closureOf? x = some e → s.Refer [e]

def Knows (s : State) (calls : Table Expr) : Prop :=
  ∀ z e, calls.get? z = some e → ∃ n < s.temporaries.counter, z = "_sync" ++ toString n

theorem Refers.mono (h : s.Refers x) (hd : Draws s t) : t.Refers x :=
  h.imp_right fun ⟨n, hn, hx⟩ => ⟨n, Nat.lt_of_lt_of_le hn hd.2, hx⟩

theorem Refer.mono (h : s.Refer es) (hd : Draws s t) : t.Refer es :=
  fun e he z hz => (h e he z hz).mono hd

theorem refers_of_source (h : isDrawn x = false) : s.Refers x := .inl (by rwa [root_of_source h])

theorem Knows.mono (h : s.Knows calls) (hd : Draws s t) : t.Knows calls := fun z e hz =>
  (h z e hz).imp fun _ hn => ⟨Nat.lt_of_lt_of_le hn.1 hd.2, hn.2⟩

theorem Knows.isDrawn (h : s.Knows calls) (z : String) (e : Expr) (hz : calls.get? z = some e) :
    isDrawn z = true := by
  obtain ⟨n, -, rfl⟩ := h z e hz
  exact Name.isDrawn_temporary n

theorem root_derive (hs : s.Stems) (x : String) : root (s.phases.derive x).1 = root x := by
  rw [hs.derive, root_realized]

theorem refers_temporary (hs : s.Stems) :
    (s.hoisted entry value completion).Refers s.temporaries.next.1 := by
  rw [hs.next]
  exact .inr ⟨_, Nat.lt_succ_self _, root_temporary _⟩

theorem refer_temporary (hs : s.Stems) :
    (s.hoisted entry value completion).Refer [value.renamed s.temporaries.next.1] := by
  intro e he z hz
  cases mem_singleton.1 he
  cases mem_singleton.1 hz
  exact refers_temporary hs

section
variable (h : s.Traced)
include h

theorem Traced.tables (hd : Draws s t) : s.Tables
    (fun x e => ∃ y typing, e = .name y typing ∧ root y = root x) (fun _ fields => t.Refer fields)
    (fun _ e => t.Refer [e]) :=
  ⟨h.standIns, fun hx => (h.fields hx).mono hd, fun hx => (h.closures hx).mono hd⟩

theorem Traced.forget (hd : Draws s t) (hf : Forgets s names t) : t.Traced :=
  have ht := (h.tables hd).forget hf
  ⟨ht.standIns, ht.fields, ht.closures⟩

theorem Traced.current (x : String) (typing : Typing) :
    ∃ y typing', s.current (.name x typing) = .name y typing' ∧ root y = root x := by
  rw [current_name]
  cases hx : s.standIn? x with
  | none => exact ⟨x, typing, rfl, rfl⟩
  | some e => exact h.standIns hx

theorem Traced.substitute (hy : root y = root x) : (s.substitute x (.name y typing)).Traced :=
  have ht := (h.tables (.refl s)).substitute ⟨y, typing, rfl, hy⟩
  ⟨ht.standIns, ht.fields, ht.closures⟩

theorem Traced.realized (hs : s.Stems) : (s.realized x value typing).Traced :=
  have ht := (h.tables (s.grows_realized x value typing).draws).realized ⟨_, typing, rfl, root_derive hs x⟩
  ⟨ht.standIns, ht.fields, ht.closures⟩

theorem Traced.rebuilt (hs : s.Stems) (hfields : s.Refer fields) :
    (s.rebuilt x fields typing).Traced :=
  have hd := (s.grows_rebuilt x fields typing).draws
  have ht := (h.tables hd).rebuilt ⟨_, typing, rfl, root_derive hs x⟩ (hfields.mono hd)
  ⟨ht.standIns, ht.fields, ht.closures⟩

theorem Traced.reclosed (hvalue : s.Refer [value]) : (s.reclosed x e value).Traced :=
  have hd := (s.grows_reclosed x e value).draws
  have ht : (s.reclosed x e value).Tables _ _ _ := (h.tables hd).reclosed (hvalue.mono hd)
  ⟨ht.standIns, ht.fields, ht.closures⟩

theorem Traced.record (hvalue : s.Refer [value]) : (s.record entry x value completion).Traced := by
  have hd := (s.grows_record entry x value completion).draws
  have ht : (s.record entry x value completion).Tables _ _ _ := ((h.tables hd).but x).record
    (fun fields hf => Refer.mono ?_ hd) fun e he => Refer.mono ?_ hd
  · exact ⟨ht.standIns, ht.fields, ht.closures⟩
  · rcases recordedFields_cases hf with ⟨function, typing, rfl, -⟩ | ⟨y, typing, rfl, hy⟩
    · exact fun e he z hz => hvalue _ mem_cons_self z (mem_append_right _ (mem_namesAll.2 ⟨e, he, hz⟩))
    · exact h.fields hy
  · rcases recordedClosure_cases he with ⟨rfl, -⟩ | ⟨y, typing, rfl, hy⟩
    · exact hvalue
    · exact h.closures hy

end

end State

/-- Binds of drawn names lead from one state to another, and no call that was noted before changes.
-/
structure Inserts (calls : Table Expr) (s : State) (binds : List Stmt) (s' : State) : Prop where
  tables : s'.Traced
  draws : Draws s s'
  drawn : ∀ bind ∈ binds, bind.drawn?.isSome = true
  known : s'.Knows (notedAll calls binds)
  same : ∀ z, s.Refers z → (notedAll calls binds).get? (root z) = calls.get? (root z)

namespace Inserts

theorem nil (ht : s.Traced) (hk : s.Knows calls) : Inserts calls s [] s :=
  ⟨ht, .refl s, nofun, hk, fun _ _ => rfl⟩

theorem trans (h : Inserts calls s binds s₁)
    (h' : Inserts (notedAll calls binds) s₁ binds' s') : Inserts calls s (binds ++ binds') s' where
  tables := h'.tables
  draws := h.draws.trans h'.draws
  drawn bind hbind := (mem_append.1 hbind).elim (h.drawn bind) (h'.drawn bind)
  known := by
    rw [notedAll_append]
    exact h'.known
  same z hz := by rw [notedAll_append, h'.same z (hz.mono h.draws), h.same z hz]

theorem restored_eq (h : Inserts calls s binds s') (hes : s.Refer es) :
    es.map (Expr.restored (notedAll calls binds)) = es.map (Expr.restored calls) :=
  map_congr_left fun e he => restored_congr fun z hz => h.same z (hes e he z hz)

theorem onward (h : Inserts calls s binds s₁) (ht : s'.Traced) (hd : Draws s₁ s') :
    Inserts calls s binds s' :=
  ⟨ht, h.draws.trans hd, h.drawn, h.known.mono hd, h.same⟩

theorem phase (hs : s.Stems) (hk : s.Knows calls) (ht : s'.Traced) (hd : Draws s s') :
    Inserts calls s [.bind (.name (s.phases.derive x).1 typing) value] s' := by
  have hdrawn : isDrawn (s.phases.derive x).1 = true := by rw [hs.derive, isDrawn_realized]
  have htemporary : isTemporary (s.phases.derive x).1 = false := by rw [hs.derive, isTemporary_realized]
  have hbound : drawn? (.bind (.name (s.phases.derive x).1 typing) value) =
      some ((s.phases.derive x).1, value) := by
    simp [drawn?, symbol?, hdrawn]
  have hnoted : notedAll calls [.bind (.name (s.phases.derive x).1 typing) value] = calls := by
    rw [notedAll, filterMap_cons_some hbound]
    simp [noted, htemporary]
  refine ⟨ht, hd, fun bind hbind => ?_, ?_, fun z _ => by rw [hnoted]⟩
  · rw [mem_singleton.1 hbind, hbound]
    rfl
  · rw [hnoted]
    exact hk.mono hd

theorem hoist (hs : s.Stems) (ht : s.Traced) (hk : s.Knows calls) (hvalue : s.Refer [value])
    (entry : String) (completion : Completion) :
    Inserts calls s [s.hoist value] (s.hoisted entry value completion) ∧
      notedAll calls [s.hoist value] = calls.insert s.temporaries.next.1 (value.restored calls) := by
  have hbound : Stmt.drawn? (s.hoist value) = some (s.temporaries.next.1, value) := by
    have hdrawn : isDrawn s.temporaries.next.1 = true := by rw [hs.next, Name.isDrawn_temporary]
    simp [Stmt.drawn?, State.hoist, Expr.renamed, Expr.symbol?, hdrawn]
  have hnoted : notedAll calls [s.hoist value] = calls.insert s.temporaries.next.1 (value.restored calls) := by
    have htemporary : isTemporary s.temporaries.next.1 = true := by rw [hs.next, isTemporary_temporary]
    rw [notedAll, filterMap_cons_some hbound]
    simp [Stmt.noted, htemporary]
  have hpend : Draws s (s.freshTemporary.2.pend (value.renamed s.temporaries.next.1) value) :=
    ⟨Nat.le_refl _, Nat.le_succ _⟩
  have htables : (s.hoisted entry value completion).Traced :=
    (ht.forget hpend (.none (fun _ => rfl) (fun _ => rfl) (fun _ => rfl))).record (hvalue.mono hpend)
  refine ⟨⟨htables, ⟨Nat.le_refl _, Nat.le_succ _⟩, fun bind hbind => ?_, fun z e hz => ?_, fun z hz => ?_⟩, hnoted⟩
  · rw [mem_singleton.1 hbind, hbound]
    rfl
  · rw [hnoted, Table.get?_insert] at hz
    split at hz
    · rename_i hzx
      exact ⟨s.temporaries.counter, Nat.lt_succ_self _, hzx.trans hs.next⟩
    · obtain ⟨n, hn, hz⟩ := hk z e hz
      exact ⟨n, Nat.lt_succ_of_lt hn, hz⟩
  · rw [hnoted, Table.get?_insert, if_neg]
    rw [hs.next]
    intro hroot
    rcases hz with hz | ⟨n, hn, hz⟩
    · rw [hroot, Name.isDrawn_temporary] at hz
      cases hz
    · exact absurd (temporary_inj (hz.symm.trans hroot)) (Nat.ne_of_lt hn)

end Inserts

/-- The results of a task stand for its expressions, and what is read in place of a name stands for
it. -/
structure Restores (calls : Table Expr) (task : Task) (s : State) (results : List (Expr × Completion))
    (binds : List Stmt) (s' : State) : Prop where
  inserts : Inserts calls s binds s'
  refer : s'.Refer (results.map Prod.fst)
  name : ∀ x, task.symbol? = some x → ∀ r ∈ results, ∃ y typing, r.1 = .name y typing ∧ root y = root x
  exprs : (results.map Prod.fst).map (Expr.restored (notedAll calls binds)) =
    task.exprs.map (Expr.restored (notedAll calls binds))

theorem Head.restored_build {parts' : List Expr}
    (h : parts.map (Expr.restored calls) = parts'.map (Expr.restored calls)) :
    (k.build parts).restored calls = (k.build parts').restored calls := by
  rw [← restoredAll_eq_map, ← restoredAll_eq_map] at h
  cases k <;> simp only [build, Expr.restored, h]

namespace Restores

variable {tasks : List Task} {task' : Task} {completion' : Completion}

theorem ofName (h : Inserts calls s binds s') (hexprs : task.exprs = [e₀])
    (hsymbol : task.symbol? = e₀.symbol?) (hx : e₀.symbol? = some x) (hrefers : s.Refers x)
    (hy : e.symbol? = some y) (hroot : Name.root y = Name.root x) :
    Restores calls task s [(e, completion)] binds s' where
  inserts := h
  refer := by
    intro e' he' z hz
    cases mem_singleton.1 he'
    rw [names_of_symbol hy] at hz
    cases mem_singleton.1 hz
    rw [Refers, hroot]
    exact hrefers.mono h.draws
  name := by
    intro z hz r hr
    cases mem_singleton.1 hr
    rw [hsymbol, hx] at hz
    cases hz
    exact ⟨y, e.typing, eq_name_of_symbol hy, hroot⟩
  exprs := by
    rw [hexprs, eq_name_of_symbol hx, map_singleton, eq_name_of_symbol hy]
    simp only [map_cons, map_nil, Expr.restored, hroot]

theorem kept (h : Inserts calls s binds s') (hexprs : task.exprs = [e])
    (hsymbol : task.symbol? = e.symbol?)
    (hrefer : s.Refer [e]) : Restores calls task s [(e, completion)] binds s' where
  inserts := h
  refer := hrefer.mono h.draws
  name := by
    intro x hx r hr
    cases mem_singleton.1 hr
    rw [hsymbol] at hx
    exact ⟨x, e.typing, eq_name_of_symbol hx, rfl⟩
  exprs := by
    rw [hexprs]
    rfl

theorem later (h : Restores calls task s results binds s₁)
    (h' : Inserts (notedAll calls binds) s₁ binds' s') (hrefer : s.Refer task.exprs) :
    (results.map Prod.fst).map (Expr.restored (notedAll calls (binds ++ binds'))) =
      task.exprs.map (Expr.restored (notedAll calls (binds ++ binds'))) := by
  rw [notedAll_append, h'.restored_eq h.refer, h'.restored_eq (hrefer.mono h.inserts.draws)]
  exact h.exprs

theorem cons {result : Expr × Completion} (h : Restores calls task s [result] binds s₁)
    (h' : Restores (notedAll calls binds) (.all tasks) s₁ results binds' s') (hrefer : s.Refer task.exprs) :
    Restores calls (.all (task :: tasks)) s (result :: results) (binds ++ binds') s' where
  inserts := h.inserts.trans h'.inserts
  refer e he := by
    rcases mem_cons.1 he with rfl | he
    · exact h.refer.mono h'.inserts.draws _ mem_cons_self
    · exact h'.refer e he
  name _ hx := by cases hx
  exprs := by
    have hothers := h'.exprs
    rw [← notedAll_append] at hothers
    rw [Task.exprs, Task.exprsAll, map_append, ← h.later h'.inserts hrefer]
    exact congrArg (_ :: ·) hothers

theorem build (hrefer : s.Refer [k.build parts])
    (hparts : (Task.all tasks).exprs = parts) (hexprs : task.exprs = [k.build parts]) (hsymbol : task.symbol? = none)
    (h : s.Refer (Task.all tasks).exprs → Restores calls (.all tasks) s results binds s') :
    Restores calls task s [(k.build (results.map Prod.fst), completion)] binds s' := by
  have hr := h (hparts.symm ▸ fun e he z hz => hrefer _ mem_cons_self z (Head.mem_names_build.2 (.inr ⟨e, he, hz⟩)))
  have hrestored := hr.exprs
  rw [hparts] at hrestored
  refine ⟨hr.inserts, fun e he z hz => ?_, fun x hx => ?_, ?_⟩
  · cases mem_singleton.1 he
    rcases Head.mem_names_build.1 hz with hz | ⟨e, he, hz⟩
    · exact (hrefer _ mem_cons_self z (Head.mem_names_build.2 (.inl hz))).mono hr.inserts.draws
    · exact hr.refer e he z hz
  · rw [hsymbol] at hx
    cases hx
  · rw [hexprs]
    exact congrArg (· :: []) (Head.restored_build hrestored)

theorem recast (h : Restores calls task s [(e, completion)] binds s')
    (hexprs : task'.exprs = task.exprs)
    (hsymbol : task'.symbol? = task.symbol?) : Restores calls task' s [(e, completion')] binds s' where
  inserts := h.inserts
  refer := h.refer
  name := by
    intro x hx r hr
    cases mem_singleton.1 hr
    exact h.name x (hsymbol ▸ hx) (e, completion) mem_cons_self
  exprs := by
    rw [hexprs]
    exact h.exprs

theorem temporary {function : Expr} {arguments : List Expr} {completion'' : Completion}
    (hs : s₁.Stems)
    (h : Restores calls (.value (.apply function arguments typing)) s [(value, completion)] binds s₁)
    (hcall : s.Refer [.apply function arguments typing]) (hexprs : task.exprs = [.apply function arguments typing])
    (hsymbol : task.symbol? = none) (hexprs' : task'.exprs = [value.renamed s₁.temporaries.next.1])
    (hlater : ∀ {calls'}, (s₁.hoisted entry value completion).Traced →
      (s₁.hoisted entry value completion).Knows calls' →
      Restores calls' task' (s₁.hoisted entry value completion) [(e, completion')] binds' s') :
    Restores calls task s [(e, completion'')] (binds ++ s₁.hoist value :: binds') s' := by
  obtain ⟨hhoist, hnoted⟩ := Inserts.hoist hs h.inserts.tables h.inserts.known h.refer entry completion
  have h' := hlater hhoist.tables hhoist.known
  have hinserts : Inserts calls s (binds ++ s₁.hoist value :: binds') s' :=
    h.inserts.trans (hhoist.trans h'.inserts)
  have hcalls : notedAll (notedAll (notedAll calls binds) [s₁.hoist value]) binds' =
      notedAll calls (binds ++ s₁.hoist value :: binds') := by
    rw [← notedAll_append, ← notedAll_append]
    rfl
  have htemporary : (s₁.hoisted entry value completion).Refers s₁.temporaries.next.1 := refers_temporary hs
  refine ⟨hinserts, h'.refer, (fun x hx => by rw [hsymbol] at hx; cases hx), ?_⟩
  have hread : (value.renamed s₁.temporaries.next.1).restored
      (notedAll (notedAll (notedAll calls binds) [s₁.hoist value]) binds') =
      value.restored (notedAll calls binds) := by
    have hget := h'.inserts.same _ htemporary
    rw [hs.next, root_temporary, ← hs.next] at hget
    rw [Expr.renamed, Expr.restored, hs.next, root_temporary, ← hs.next, hget, hnoted, Table.get?_insert,
      if_pos rfl, Option.getD_some]
  have hresult := h'.exprs
  simp only [hexprs', map_cons, map_nil] at hresult
  rw [hread, hcalls] at hresult
  rw [hexprs, hinserts.restored_eq hcall, ← h.inserts.restored_eq hcall]
  exact hresult.trans h.exprs

end Restores

theorem State.Refer.storages {stored : List Expr} (h : s.Refer fields)
    (hstored : fields.mapM (storageOf s) = .ok stored) : s.Refer stored := by
  intro e he z hz
  obtain ⟨e₀, he₀, hstorage⟩ := mem_storages hstored e he
  rcases storageOf_cases hstorage with rfl | ⟨x, -, hx, -⟩
  · exact h e he₀ z hz
  · rw [names_of_symbol hx] at hz
    cases mem_singleton.1 hz
    exact refers_of_source (isDrawn_container x)

theorem State.Traced.demands (h : s.Traced) (hfields : s.componentsOf? x = some fields)
    (demand : Ty) :
    s.Refer (Task.all (zipWith .demand fields (fieldDemands demand fields))).exprs := by
  rw [Task.exprs, Task.exprsAll_demands (length_fieldDemands demand fields)]
  exact h.fields hfields

theorem State.Traced.returned (h : s.Traced) (hfields : s.componentsOf? x = some fields) :
    s.Refer (Task.all (fields.map .returned)).exprs := by
  rw [Task.exprs, Task.exprsAll_returned]
  exact h.fields hfields

/-- Whatever a task does, its results stand for its expressions behind the binds it puts in front.
-/
theorem Derives.restores (h : Derives Γ task s results binds s') (hs : s.Stems) (ht : s.Traced)
    (hk : s.Knows calls) (hrefer : s.Refer task.exprs) : Restores calls task s results binds s' := by
  induction h generalizing calls with
  | nil s => exact ⟨.nil ht hk, hrefer, nofun, rfl⟩
  | cons hd _ ih ih' =>
    have hhead := ih hs ht hk fun e he => hrefer e (mem_append_left _ he)
    refine hhead.cons (ih' (hs.mono hd.grows) hhead.inserts.tables hhead.inserts.known ?_)
      fun e he => hrefer e (mem_append_left _ he)
    exact Refer.mono (fun e he => hrefer e (mem_append_right _ he)) hhead.inserts.draws
  | name s x typing | @returnedName s x typing _ =>
    obtain ⟨y, typing', hcurrent, hy⟩ := ht.current x typing
    rw [hcurrent]
    exact .ofName (.nil ht hk) rfl rfl rfl (hrefer _ mem_cons_self x mem_cons_self) rfl hy
  | literal | demandLiteral | met | returnedLiteral => exact .kept (.nil ht hk) rfl rfl hrefer
  | @node k _ _ _ _ _ _ _ _ ih => exact .build hrefer Task.exprsAll_values rfl (by cases k <;> rfl) (ih hs ht hk)
  | @forcing function _ typing _ _ _ _ _ _ _ _ _ _ _ _ hinst _ ih =>
    exact .build (k := .call function typing) hrefer
      (Task.exprsAll_demands (Ty.length_instantiate? hinst)) rfl rfl (ih hs ht hk)
  | @demandName x typing _ s _ e _ _ ih =>
    obtain ⟨y, typing', hcurrent, hy⟩ := ht.current x typing
    have hx : s.Refers x := hrefer _ mem_cons_self x mem_cons_self
    have hcurrents : s.Refer [s.current (.name x typing)] := by
      rw [hcurrent]
      intro e he z hz
      cases mem_singleton.1 he
      cases mem_singleton.1 hz
      rwa [Refers, hy]
    have hnamed := ih hs ht hk hcurrents
    obtain ⟨z, typing'', he, hz⟩ := hnamed.name y (by rw [hcurrent]; rfl) _ mem_cons_self
    cases he
    refine .ofName ?_ rfl rfl rfl hx rfl (hz.trans hy)
    split
    · exact hnamed.inserts.onward (hnamed.inserts.tables.substitute (hz.trans hy)) (.refl _)
    · exact hnamed.inserts
  | @demandNode k _ _ _ _ _ _ _ hdemands _ ih =>
    exact .build hrefer (Task.exprsAll_demands (Head.length_partDemands hdemands)) rfl (by cases k <;> rfl)
      (ih hs ht hk)
  | demandCall _ _ ih | returnedCall _ _ ih | returnedClosure _ ih => exact (ih hs ht hk hrefer).recast rfl rfl
  | @demandHoisted _ _ _ _ _ s₁ _ _ _ _ _ hd _ _ ih ih' | @returnedHoisted _ _ _ _ s₁ _ _ _ _ _ _ hd _ _ _ ih ih' =>
    have hs₁ := hs.mono hd.grows
    exact (ih hs ht hk hrefer).temporary hs₁ hrefer rfl rfl rfl fun ht hk =>
      ih' (hs₁.mono (s₁.grows_hoisted _ _ _)) ht hk (refer_temporary hs₁)
  | closureKept _ hclosure _ ih => exact .kept (ih hs ht hk (ht.closures hclosure)).inserts rfl rfl hrefer
  | @closureRebuilt e _ forced _ x _ s' _ hx hclosure hd _ ih =>
    have hforced := ih hs ht hk (ht.closures hclosure)
    have hs' := hs.mono hd.grows
    have htables : (s'.reclosed x e forced).Traced := hforced.inserts.tables.reclosed hforced.refer
    exact .ofName (hforced.inserts.trans (.phase hs' hforced.inserts.known htables
      (s'.grows_reclosed x e forced).draws)) rfl rfl hx
      (hrefer _ mem_cons_self x (names_of_symbol hx ▸ mem_cons_self)) rfl (root_derive hs' x)
  | tupleKept _ _ _ hfields _ _ ih => exact .kept (ih hs ht hk (ht.demands hfields _)).inserts rfl rfl hrefer
  | @tupleRebuilt e _ x _ _ s' _ _ hx _ _ hfields hd _ ih =>
    have hforced := ih hs ht hk (ht.demands hfields _)
    have hs' := hs.mono hd.grows
    exact .ofName (hforced.inserts.trans (.phase hs' hforced.inserts.known
      (hforced.inserts.tables.rebuilt hs' hforced.refer) (s'.grows_rebuilt x _ e.typing).draws)) rfl rfl hx
      (hrefer _ mem_cons_self x (names_of_symbol hx ▸ mem_cons_self)) rfl (root_derive hs' x)
  | @realized e _ x _ s hx _ _ _ _ _ =>
    exact .ofName (.phase hs hk (ht.realized hs) (s.grows_realized x e _).draws) rfl rfl hx
      (hrefer _ mem_cons_self x (names_of_symbol hx ▸ mem_cons_self)) rfl (root_derive hs x)
  | @returnedRealized s x y typing _ _ hy _ _ _ =>
    obtain ⟨y', typing', hcurrent, hroot⟩ := ht.current x typing
    have hyy : y' = y := by
      rw [hcurrent] at hy
      exact Option.some.inj hy
    exact .ofName (.phase hs hk (ht.realized hs) (s.grows_realized y _ _).draws) rfl rfl rfl
      (hrefer _ mem_cons_self x mem_cons_self) rfl ((root_derive hs y).trans (hyy ▸ hroot))
  | @returnedTupleKept _ _ x _ typing _ _ _ _ _ hfields _ _ _ ih =>
    obtain ⟨y', typing', hcurrent, hroot⟩ := ht.current x typing
    rw [hcurrent]
    exact .ofName (ih hs ht hk (ht.returned hfields)).inserts rfl rfl rfl
      (hrefer _ mem_cons_self x mem_cons_self) rfl hroot
  | @returnedTupleRebuilt _ s' x y typing _ stored _ _ _ _ hy hfields hd _ hstored ih =>
    obtain ⟨y', typing', hcurrent, hroot⟩ := ht.current x typing
    have hyy : y' = y := by
      rw [hcurrent] at hy
      exact Option.some.inj hy
    have hforced := ih hs ht hk (ht.returned hfields)
    have hs' := hs.mono hd.grows
    exact .ofName (hforced.inserts.trans (.phase hs' hforced.inserts.known
      (hforced.inserts.tables.rebuilt hs' (hforced.refer.storages hstored)) (s'.grows_rebuilt y stored _).draws))
      rfl rfl rfl (hrefer _ mem_cons_self x mem_cons_self) rfl
      ((root_derive hs' y).trans (hyy ▸ hroot))
  | @returnedTuple _ t _ _ _ _ _ ih => exact .build (k := .tuple t) hrefer Task.exprsAll_returned rfl rfl (ih hs ht hk)

theorem Inserts.restoredAll {stmt stmt' : Stmt} {rest : List Stmt} (h : Inserts calls s binds s')
    (hdrawn : stmt'.drawn? = none) (hstmt : stmt'.restored (notedAll calls binds) = stmt.untyped)
    (hout : restoredAll (notedAll calls binds) out = untypedAll rest) :
    restoredAll calls (binds ++ stmt' :: out) = untypedAll (stmt :: rest) := by
  rw [restoredAll_append _ h.drawn, Stmt.restoredAll, hdrawn, Stmt.untypedAll, ← hstmt, ← hout]

theorem Restores.untyped (h : Restores calls task s [(e, completion)] binds s')
    (hexprs : task.exprs = [e₀])
    (hsource : ∀ z ∈ e₀.names, isDrawn z = false) : e.restored (notedAll calls binds) = e₀.untyped := by
  rw [← restored_of_source h.inserts.known.isDrawn hsource]
  have hrestored := h.exprs
  rw [hexprs] at hrestored
  exact (cons.inj hrestored).1

structure State.Ready (s : State) (calls : Table Expr) : Prop where
  stems : s.Stems
  tables : s.Traced
  known : s.Knows calls

theorem State.Ready.forget (h : s.Ready calls) (hs : t.Stems) (hd : Draws s t)
    (hf : Forgets s names t) : t.Ready calls :=
  ⟨hs, h.tables.forget hd hf, h.known.mono hd⟩

theorem State.Ready.flush (h : s.Ready calls) : s.flush.Ready calls :=
  h.forget h.stems (.refl s) s.forgets_flush

theorem State.Ready.enter (h : s.Ready calls) : s.enter.Ready calls :=
  h.forget h.stems ⟨Nat.le_refl _, Nat.le_refl _⟩ s.forgets_enter

theorem State.Ready.restores (h : s.Ready calls) (hd : Derives Γ task s results binds s')
    (hexprs : task.exprs = [e₀]) (hsource : ∀ z ∈ e₀.names, isDrawn z = false) :
    Restores calls task s results binds s' ∧ s'.Ready (notedAll calls binds) := by
  have hrefer : s.Refer task.exprs := by
    rw [hexprs]
    intro e he z hz
    cases mem_singleton.1 he
    exact refers_of_source (hsource z hz)
  have hrestores := hd.restores h.stems h.tables h.known hrefer
  exact ⟨hrestores, h.stems.mono hd.grows, hrestores.inserts.tables, hrestores.inserts.known⟩

/-- A block stands for what was analysed. -/
theorem Analyzed.restoredAll {block : List Stmt} (h : Analyzed Γ block s out s')
    (hs : s.Ready calls)
    (hsource : ∀ z ∈ namesAll block, isDrawn z = false) : restoredAll calls out = untypedAll block := by
  induction h generalizing calls with
  | nil => rfl
  | @bind target _ value' x completion binds _ _ _ s₁ _ hx hd _ ih =>
    simp only [Stmt.namesAll, Stmt.names, mem_append] at hsource
    obtain ⟨hvalue, hs₁⟩ := hs.restores hd rfl fun z hz => hsource z (.inl (.inr hz))
    have htarget : ∀ z ∈ target.names, isDrawn z = false := fun z hz => hsource z (.inl (.inl hz))
    have hdrawn : drawn? (.bind target value') = none := by
      have hown := htarget x (names_of_symbol hx ▸ mem_cons_self)
      simp [drawn?, hx, hown]
    have hgrows := s₁.grows_record Γ.entry x value' completion
    have hrecorded : (s₁.record Γ.entry x value' completion).Ready (notedAll calls binds) :=
      ⟨hs₁.stems.mono hgrows, hs₁.tables.record hvalue.refer, hs₁.known.mono hgrows.draws⟩
    refine hvalue.inserts.restoredAll hdrawn ?_ (ih hrecorded.flush fun z hz => hsource z (.inr hz))
    rw [Stmt.restored, Stmt.untyped, Expr.restored_of_source hs₁.known.isDrawn htarget,
      hvalue.untyped rfl fun z hz => hsource z (.inl (.inr hz))]
  | ret _ hd _ ih | entryRet _ hd _ ih =>
    simp only [Stmt.namesAll, Stmt.names, mem_append] at hsource
    obtain ⟨hvalue, hs₁⟩ := hs.restores hd rfl fun z hz => hsource z (.inl hz)
    refine hvalue.inserts.restoredAll rfl ?_ (ih hs₁.flush fun z hz => hsource z (.inr hz))
    rw [Stmt.restored, Stmt.untyped, hvalue.untyped rfl fun z hz => hsource z (.inl hz)]
  | @branch _ _ _ _ _ _ _ _ _ _ _ s₁ t u _ hd hwt hwf _ iht ihf ih =>
    simp only [Stmt.namesAll, Stmt.names, mem_append] at hsource
    obtain ⟨htest, hs₁⟩ := hs.restores hd rfl fun z hz => hsource z (.inl (.inl (.inl hz)))
    have hflush := hs₁.flush
    have hresume : Grows s₁.flush (s₁.flush.resume t) := grows_resume hwt.grows
    have hmiddle := hflush.forget (hflush.stems.mono hresume) hresume.draws (forgets_resume s₁.flush t)
    have hjoined := grows_joined hwt.grows hwf.grows
    have hbehind := hflush.forget (hflush.stems.mono hjoined) hjoined.draws (forgets_joined s₁.flush t u)
    refine htest.inserts.restoredAll rfl ?_ (ih hbehind fun z hz => hsource z (.inr hz))
    rw [Stmt.restored, Stmt.untyped, htest.untyped rfl fun z hz => hsource z (.inl (.inl (.inl hz))),
      iht hflush.enter fun z hz => hsource z (.inl (.inl (.inr hz))),
      ihf hmiddle.enter fun z hz => hsource z (.inl (.inr hz))]
  | @loop _ _ _ _ body _ _ _ s s₁ t _ selfResults head _ hd _ _ hbody hsettled _ _ ihb ih =>
    simp only [Stmt.namesAll, Stmt.names, mem_append] at hsource
    have hkept := grows_invalidateAll s (bodyTargets body)
    have hinvalidated := hs.forget (hs.stems.mono hkept) hkept.draws (forgets_invalidateAll s (bodyTargets body))
    obtain ⟨htest, hs₁⟩ := hinvalidated.restores hd rfl fun z hz => hsource z (.inl (.inl hz))
    have hflush := hs₁.flush
    have htrip := grows_tripStart s₁.flush selfResults head
    have hstart := hflush.forget (hflush.enter.stems.mono htrip) htrip.draws
      (forgets_tripStart s₁.flush selfResults head)
    have hsettled := grows_settled hbody.grows
    have hbehind := hflush.forget (hflush.stems.mono hsettled) hsettled.draws (forgets_settled s₁.flush t head)
    refine htest.inserts.restoredAll rfl ?_ (ih hbehind fun z hz => hsource z (.inr hz))
    rw [Stmt.restored, Stmt.untyped, htest.untyped rfl fun z hz => hsource z (.inl (.inl hz)),
      ihb hstart fun z hz => hsource z (.inl (.inr hz))]

theorem State.Ready.bodyStart {inEntry : Bool} {parameters : List Expr}
    {phases temporaries : Supply}
    (hphases : phases.stem = "_phase") (htemporaries : temporaries.stem = "_sync") :
    (bodyStart inEntry parameters phases temporaries).Ready ∅ := by
  have hempty : (⟨true, inEntry, ∅, ∅, ∅, ∅, ∅, [], [], phases, temporaries⟩ : State).Ready ∅ :=
    ⟨⟨hphases, htemporaries⟩, ⟨nofun, nofun, nofun⟩, nofun⟩
  exact hempty.forget (stems_bodyStart hphases htemporaries)
    (grows_bodyStart inEntry parameters phases temporaries).draws
    (forgets_bodyStart inEntry parameters phases temporaries)

theorem ProcedureRewritten.restored {p p' : Procedure} (h : ProcedureRewritten Γ p p')
    (hsource : ∀ z ∈ p.toStmt.names, isDrawn z = false) :
    p'.toStmt.restored ∅ = p.toStmt.untyped := by
  obtain ⟨hname, hparameters, hbody⟩ := h
  simp only [Procedure.toStmt, Stmt.names, mem_append] at hsource
  have hnone : ∀ x e, (∅ : Table Expr).get? x = some e → isDrawn x = true := nofun
  have hblock : Stmt.restoredAll ∅ p'.body = Stmt.untypedAll p.body := by
    split at hbody
    · obtain ⟨phases, temporaries, s', hphases, htemporaries, hanalyzed⟩ := hbody
      exact hanalyzed.restoredAll (.bodyStart hphases htemporaries) fun z hz => hsource z (.inr hz)
    · rw [hbody]
      exact Stmt.restoredAll_of_source hnone fun z hz => hsource z (.inr hz)
  simp only [Procedure.toStmt, Stmt.restored, Stmt.untyped]
  rw [hname, hparameters, hblock, Expr.restored_of_source hnone fun z hz => hsource z (.inl (.inl hz)),
    Expr.restoredAll_of_source hnone fun z hz => hsource z (.inl (.inr hz))]

end Phases

theorem Module.Rewrites.restoredAll {Γ : Phases.Context} {module module' : Module}
    (h : Module.Rewrites (Phases.ProcedureRewritten Γ) module module')
    (hsource : ∀ x ∈ Stmt.namesAll module, isDrawn x = false) :
    Stmt.restoredAll ∅ module' = Stmt.untypedAll module := by
  induction h with
  | nil => rfl
  | cons hp _ ih =>
    simp only [Stmt.namesAll, mem_append] at hsource
    rw [Stmt.untypedAll, ← hp.restored fun z hz => hsource z (.inl hz), ← ih fun z hz => hsource z (.inr hz)]
    rfl

/-- Phase analysis only inserts binds of drawn names: without them, and with every drawn name read
as what it stands for, its output is the module again. -/
theorem insertBoundaries_only_inserts {module module' : Module} {registry : Registry}
    {entry : String}
    (hplain : module.isPlain = true) (hsource : ∀ x ∈ namesAll module, isDrawn x = false)
    (h : module.insertBoundaries registry entry = .ok module') :
    restoredAll ∅ module' = untypedAll module :=
  (module.insertBoundaries_rewrites hplain h).restoredAll hsource

/-- Sums up a row that is computed on the spot, hands over a pair in a loop, and gives a computed
row back. -/
def pairingText : List Char :=
  ("declare shift : fn([Int32]) -> [Int32] propagates; declare sum : fn([Int32]) -> Int32 forces; " ++
   "declare dot : fn(([Int32], [Int32])) -> Int32 forces; procedure main(xs: [Int32], n: Int32) -> [Int32] " ++
   "\x7b ys = shift(xs); p = (ys, xs); while sum(shift(ys)) < n \x7b n = dot(p); \x7d return shift(ys); \x7d").toList

theorem pairingText_only_inserts : ∃ (unit : SourceUnit) (tupleFree module module' : Module),
    SourceUnit.ofText? pairingText = .ok unit ∧ unit.module.assignLayouts.flattenTuples = .ok tupleFree ∧
    tupleFree.backEntry "main" = .ok module ∧ module.insertBoundaries unit.registry "main" = .ok module' ∧
    (∀ z ∈ ["_sync0_phase0", "ys_phase1", "p_phase2", "_sync1_phase3"], z ∈ namesAll module') ∧
    restoredAll ∅ module' = untypedAll module := by
  have hchecks : ((SourceUnit.ofText? pairingText).toOption.any fun unit =>
      unit.module.assignLayouts.flattenTuples.toOption.any fun tupleFree =>
        (tupleFree.backEntry "main").toOption.any fun module =>
          (module.insertBoundaries unit.registry "main").toOption.any fun module' =>
            decide (module.isPlain = true ∧ (∀ x ∈ namesAll module, isDrawn x = false) ∧
              ∀ z ∈ ["_sync0_phase0", "ys_phase1", "p_phase2", "_sync1_phase3"], z ∈ Stmt.namesAll module')) =
      true := by decide +kernel
  obtain ⟨unit, hread, hsteps⟩ := Except.any_toOption.1 hchecks
  obtain ⟨tupleFree, hflat, hsteps⟩ := Except.any_toOption.1 hsteps
  obtain ⟨module, hback, hsteps⟩ := Except.any_toOption.1 hsteps
  obtain ⟨module', hok, hsteps⟩ := Except.any_toOption.1 hsteps
  obtain ⟨hplain, hsource, hdrawn⟩ := of_decide_eq_true hsteps
  exact ⟨unit, tupleFree, module, module', hread, hflat, hback, hok, hdrawn,
    insertBoundaries_only_inserts hplain hsource hok⟩

end DataParallel
