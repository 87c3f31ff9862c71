import DataParallel.Proofs.Printable.Phases
import DataParallel.Proofs.Stages

/-! What the analysis of a procedure takes from its context.

It looks up the procedures that are called, and whether the procedure itself is to be analysed.
Contexts that give the same answers for all names of a block therefore lead to the same block, with
the same names drawn. What is called later on was recorded before, so the tables are known to call
names of the block only. -/

namespace DataParallel

variable {G : String → Prop} {e : Expr}

/-- An expression that calls names in `G` only, whatever it reads. -/
abbrev Expr.CallsOnly (G : String → Prop) (e : Expr) : Prop := e.ReadsOnly (fun _ => True) G

theorem Expr.CallsOnly.of_names (h : ∀ z ∈ e.names, G z) : e.CallsOnly G :=
  (Expr.ReadsOnly.of_names (fun _ hz => hz) h).mono fun _ _ => trivial

namespace Phases

abbrev State.CallsOnly (G : String → Prop) : State → Prop := State.Remembers (Expr.CallsOnly G) fun _ => True

theorem State.CallsOnly.initial : State.initial.CallsOnly G := ⟨.empty, .empty, .empty, trivial⟩

structure Context.Agrees (G : String → Prop) (Γ Γ' : Context) : Prop where
  entry : Γ.entry = Γ'.entry
  registry : ∀ z, G z → Γ.registry.get? z = Γ'.registry.get? z
  analyzed : ∀ z, G z → (z ∈ Γ.analyzed ↔ z ∈ Γ'.analyzed)

section
variable {Γ Γ' : Context} {α : Type}

abbrev SameCalls (G : String → Prop) (x y : Analysis α) (p : α → Prop) : Prop := Agree (State.CallsOnly G) x y p

theorem callsOnly_records : Records (fun _ => True) (Expr.CallsOnly G) fun _ => True where
  tolerates _ _ := trivial
  layout {e} _ := by
    cases h : e.layout with
    | none =>
      rw [Expr.expectLayout, h]
      trivial
    | some layout =>
      rw [Expr.expectLayout_ok.2 h]
      rfl
  named _ := trivial
  renamed _ := trivial
  stored _ := trivial
  parts he := (Head.readsOnly_build.1 he).2
  nil := trivial
  snippet _ _ _ := trivial
  value _ _ _ := trivial

variable {test : Expr} {body body' : Analysis (List Stmt)}

theorem storageOf_callsOnly {s : State} (he : e.CallsOnly G) :
    Meets (fun _ => True) (Expr.CallsOnly G) (storageOf s e) := by
  cases hstorage : storageOf s e with
  | error e => trivial
  | ok storage =>
    rcases storageOf_cases hstorage with rfl | ⟨w, -, hw, -⟩
    · exact he
    · exact (Expr.readsOnly_of_symbol hw).2 trivial

theorem takePending_sameCalls : SameCalls G takePending takePending fun _ => True :=
  .of_preserves callsOnly_records.takePending

theorem sameCalls_steps (hcontexts : Γ.Agrees G Γ') : Steps (SameCalls G)
    (State.CallsOnly G) (Expr.CallsOnly G) (fun _ => True) (fun _ => True) Γ Γ' where
  pure := .pure
  bind := Agree.bind
  mapM := .mapM
  get := .get
  set ht := .of_preserves (.set ht)
  modifies := .modifies
  cyclic _ := .throw _
  malformed _ _ := .throw _
  unsettled _ := .throw _
  lookup {f es typing callee} he hcallee := by
    have hG : G callee := he.1 callee (by rw [Expr.names_of_symbol hcallee]; exact List.mem_singleton_self callee)
    rw [Registry.lookup, Registry.lookup, hcontexts.registry callee hG]
    refine .of_preserves (.lift ?_)
    split <;> trivial
  current hs := hs.current
  fields hs := hs.componentsOf?
  closure hs := hs.closureOf?
  parts he := (Head.readsOnly_build.1 he).2
  build he hds := Head.readsOnly_build.2 ⟨(Head.readsOnly_build.1 he).1, hds⟩
  substitute hs := hs.substitute _
  realize he := .of_preserves (callsOnly_records.realize he)
  rebuildTuple _ hes := .of_preserves (callsOnly_records.rebuildTuple hes fun _ => trivial)
  rebuildStored hes := .of_preserves (callsOnly_records.rebuildTuple hes fun _ => trivial)
  rebuildClosure hlike he := .of_preserves (callsOnly_records.rebuildClosure hlike he)
  bindTemporary he := .of_preserves (callsOnly_records.bindTemporary he)
  storage he := .of_preserves (.lift (storageOf_callsOnly he))
  takePending := takePending_sameCalls
  enter hs := hs.enter
  leave hs := hs.leave
  setCompletions cs hs := hs.setCompletions cs
  invalidateAll names hs := hs.invalidateAll names
  pending hs _ := ⟨hs.substitutions, hs.components, hs.closures, trivial⟩
  supplies hs := ⟨hs.substitutions, hs.components, hs.closures, trivial⟩
  branch _ _ _ := trivial
  loop _ _ := trivial
  entry := hcontexts.entry

theorem analyzeProcedure_sameCalls (hcontexts : Γ.Agrees G Γ') {symbol : String}
    {parameters : List Expr} (hbody : SameCalls G body body' fun _ => True) :
    SameCalls G (analyzeProcedure Γ symbol parameters body) (analyzeProcedure Γ' symbol parameters body')
      fun _ => True := by
  rw [analyzeProcedure, analyzeProcedure, hcontexts.entry]
  refine Agree.bind (.modifies fun s hs => ⟨hs.substitutions, hs.components, hs.closures, trivial⟩) fun _ _ => ?_
  have scope := (sameCalls_steps hcontexts).inScope (Agree.bind
    (.modifies fun s hs =>
      State.Remembers.setCompletions hs (parameterCompletions (symbol = Γ'.entry) parameters))
    fun _ _ => hbody)
  refine scope.bind fun r _ => ?_
  exact Agree.bind (.modifies fun s hs => ⟨hs.substitutions, hs.components, hs.closures, trivial⟩) fun _ _ =>
    .pure trivial

mutual

theorem analyzeStmt_sameCalls (hcontexts : Γ.Agrees G Γ') : ∀ (s : Stmt), (∀ z ∈ s.names, G z) →
    SameCalls G (analyzeStmt Γ s) (analyzeStmt Γ' s) fun _ => True
  | .bind target value, h => by
    have hvalue : value.CallsOnly G := .of_names fun z hz => h z (List.mem_append_right _ hz)
    rw [analyzeStmt, analyzeStmt]
    refine Agree.get.bind fun _ _ => ?_
    split
    · refine Agree.bind (p := fun _ => True) (.of_preserves (.lift ?_)) fun x _ => ?_
      · cases target.expectName "the target of a bind" <;> trivial
      refine ((sameCalls_steps hcontexts).analyzeValue hvalue).bind fun r hr => ?_
      rw [hcontexts.entry]
      exact Agree.bind (.modifies fun s hs => hs.record (callsOnly_records.parts (k := .call _ _)) _ _ _ hr) fun _ _ =>
        .pure trivial
    · exact .pure trivial
  | .ret value, h => by
    have hvalue : value.CallsOnly G := .of_names h
    rw [analyzeStmt, analyzeStmt]
    refine Agree.get.bind fun _ _ => ?_
    split
    · refine Agree.get.bind fun s _ => ?_
      split
      · exact ((sameCalls_steps hcontexts).forceReturned _ hvalue).bind fun _ _ => .pure trivial
      · exact ((sameCalls_steps hcontexts).analyzeValue hvalue).bind fun _ _ => .pure trivial
    · exact .pure trivial
  | .procedure name parameters body, h => by
    have hanalyzed : name.symbol?.filter (· ∈ Γ.analyzed) = name.symbol?.filter (· ∈ Γ'.analyzed) := by
      cases hsymbol : name.symbol? with
      | none => rfl
      | some symbol =>
        have hG : G symbol := h symbol (by simp [Expr.names_of_symbol hsymbol])
        simp only [Option.filter_some, decide_eq_true_eq, hcontexts.analyzed symbol hG]
    rw [analyzeStmt, analyzeStmt, hanalyzed]
    split
    · have hbody := analyzeStmts_sameCalls hcontexts body fun z hz => h z (List.mem_append_right _ hz)
      exact (analyzeProcedure_sameCalls hcontexts hbody).bind fun _ _ => .pure trivial
    · exact .pure trivial
  | .branch test whenTrue whenFalse, h => by
    simp only [Stmt.names, List.mem_append] at h
    rw [analyzeStmt, analyzeStmt]
    refine Agree.get.bind fun _ _ => ?_
    split
    · exact (sameCalls_steps hcontexts).analyzeBranch (.of_names fun z hz => h z (.inl (.inl hz)))
        (analyzeStmts_sameCalls hcontexts whenTrue fun z hz => h z (.inl (.inr hz)))
        (analyzeStmts_sameCalls hcontexts whenFalse fun z hz => h z (.inr hz))
    · exact .pure trivial
  | .loop test body, h => by
    simp only [Stmt.names, List.mem_append] at h
    rw [analyzeStmt, analyzeStmt]
    refine Agree.get.bind fun _ _ => ?_
    split
    · exact (sameCalls_steps hcontexts).analyzeLoop (.of_names fun z hz => h z (.inl hz))
        (analyzeStmts_sameCalls hcontexts body fun z hz => h z (.inr hz))
    · exact .pure trivial
  | .structDef _ _ body, h | .namespaceDef _ body, h => by
    rw [analyzeStmt, analyzeStmt]
    exact (analyzeStmts_sameCalls hcontexts body h).bind fun _ _ => .pure trivial
  | .typedef .., _ | .header .., _ | .declare .., _ => .pure trivial

theorem analyzeStmts_sameCalls (hcontexts : Γ.Agrees G Γ') : ∀ (block : List Stmt),
    (∀ z ∈ Stmt.namesAll block, G z) →
    SameCalls G (analyzeStmts Γ block) (analyzeStmts Γ' block) fun _ => True
  | [], _ => by
    rw [analyzeStmts, analyzeStmts]
    exact .pure trivial
  | s :: rest, h => by
    rw [analyzeStmts, analyzeStmts]
    refine (analyzeStmt_sameCalls hcontexts s fun z hz => h z (List.mem_append_left _ hz)).bind fun _ _ => ?_
    refine takePending_sameCalls.bind fun _ _ => ?_
    exact (analyzeStmts_sameCalls hcontexts rest fun z hz => h z (List.mem_append_right _ hz)).bind fun _ _ =>
      .pure trivial

end

end

end Phases
end DataParallel
