import DataParallel.Lowering.Phases.Blocks
import DataParallel.Proofs.Phases.Derivation

/-! What phase analysis can do with a block, as a relation.

A scope that is left gives the state in front of it back, apart from the drawn names and the results
of self calls. So a branch goes on from the state in front of it with the completions of its blocks
joined, and a loop from the state at its head. -/

namespace DataParallel

open List Lower Phases.State

variable {α : Type} {module module' : Module} {p procedure : Procedure} {i : Nat} {entry symbol x : String}
  {registry : Registry}

namespace Stmt

mutual

/-- Whether a statement is one of a procedure: a bind, a return, a branch or a loop. -/
def isPlain : Stmt → Bool
  | .bind .. | .ret .. => true
  | .branch _ whenTrue whenFalse => arePlain whenTrue && arePlain whenFalse
  | .loop _ body => arePlain body
  | _ => false

def arePlain : List Stmt → Bool
  | [] => true
  | s :: rest => isPlain s && arePlain rest

end

end Stmt

theorem Module.mem_procedures : p ∈ module.procedures ↔ p.toStmt ∈ module := by
  rw [procedures, mem_filterMap]
  refine ⟨?_, fun h => ⟨_, h, rfl⟩⟩
  rintro ⟨s, hs, hp⟩
  cases s with
  | procedure => cases hp; exact hs
  | _ => cases hp

/-- The procedures of a module are rewritten where they stand. -/
inductive Module.Rewrites (R : Procedure → Procedure → Prop) : Module → Module → Prop where
  | nil : Rewrites R [] []
  | cons {p p' : Procedure} {rest rest' : Module} :
    R p p' → Rewrites R rest rest' → Rewrites R (p.toStmt :: rest) (p'.toStmt :: rest')

namespace Module.Rewrites

variable {R R' : Procedure → Procedure → Prop} {module'' : Module}

theorem toStmt_inj {q : Procedure} (h : p.toStmt = q.toStmt) : p = q := by
  cases p
  cases q
  cases h
  rfl

section
variable (h : Rewrites R module module')
include h

theorem mono (hR : ∀ p p', R p p' → R' p p') : Rewrites R' module module' := by
  induction h with
  | nil => exact .nil
  | cons hp _ ih => exact .cons (hR _ _ hp) ih

theorem get (hi : module[i]? = some p.toStmt) :
    ∃ p' : Procedure, module'[i]? = some p'.toStmt ∧ R p p' := by
  induction h generalizing i with
  | nil => simp at hi
  | @cons _ q' _ _ hq _ ih =>
    cases i with
    | zero =>
      rw [getElem?_cons_zero, Option.some.injEq] at hi
      cases toStmt_inj hi
      exact ⟨q', rfl, hq⟩
    | succ i => exact ih hi

theorem source {st : Stmt} (hi : module'[i]? = some st) :
    ∃ p p' : Procedure, st = p'.toStmt ∧ module[i]? = some p.toStmt ∧ R p p' := by
  induction h generalizing i with
  | nil => simp at hi
  | @cons q q' _ _ hq _ ih =>
    cases i with
    | zero =>
      rw [getElem?_cons_zero, Option.some.injEq] at hi
      exact ⟨q, q', hi.symm, rfl, hq⟩
    | succ i => exact ih hi

theorem trans (h' : Rewrites R' module' module'') :
    Rewrites (fun p q => ∃ r : Procedure, R p r ∧ r.toStmt ∈ module' ∧ R' r q) module module'' := by
  induction h generalizing module'' with
  | nil =>
    cases h'
    exact .nil
  | @cons p p' _ rest' hp _ ih =>
    generalize hfirst : p'.toStmt :: rest' = middle at h'
    cases h' with
    | nil => cases hfirst
    | @cons q _ _ _ hq hrest =>
      obtain ⟨hsame, rfl⟩ := cons.inj hfirst
      cases toStmt_inj hsame
      refine .cons ⟨p', hp, mem_cons_self, hq⟩ ((ih hrest).mono fun p q ⟨r, hr, hmem, hq⟩ => ⟨r, hr, ?_, hq⟩)
      exact mem_cons_of_mem _ hmem

end

end Module.Rewrites

theorem Table.mem_keys_put {key : String} {value : α} {entries : List (String × α)} :
    x ∈ (put key value entries).map Prod.fst ↔ x = key ∨ x ∈ entries.map Prod.fst := by
  induction entries with
  | nil => simp [put]
  | cons entry rest ih =>
    obtain ⟨name, old⟩ := entry
    by_cases hn : name = key
    · simp [put, hn]
    · simp only [put, hn, if_false, map_cons, mem_cons, ih]
      exact or_left_comm

theorem Table.nodup_insert {table : Table α} (h : table.keys.Nodup) (key : String) (value : α) :
    (table.insert key value).keys.Nodup := by
  obtain ⟨entries⟩ := table
  simp only [keys, insert] at h ⊢
  induction entries with
  | nil => simp [put]
  | cons entry rest ih =>
    obtain ⟨name, old⟩ := entry
    rw [map_cons, nodup_cons] at h
    by_cases hn : name = key
    · rwa [put, if_pos hn, map_cons, nodup_cons, ← hn]
    · simp only [put, hn, if_false, map_cons, nodup_cons]
      refine ⟨fun hmem => ?_, ih h.2⟩
      rcases mem_keys_put.1 hmem with rfl | hmem
      · exact hn rfl
      · exact h.1 hmem

namespace Phases

variable {binds block body out rest : List Stmt} {Γ : Context} {s s' s₁ u : State} {head : Table Completion}
  {selfResults : List String} {trips : List Trip} {test : Expr} {stmt : Stmt}

namespace State

variable {t : State}

def outside (s : State) : State :=
  { s with
    completions := ⟨∅, s.completions.outer⟩
    substitutions := ⟨∅, s.substitutions.outer⟩
    components := ⟨∅, s.components.outer⟩
    closures := ⟨∅, s.closures.outer⟩
    bound := ⟨∅, s.bound.outer⟩
    selfResults := []
    pending := []
    phases := .ofStem s.phases.stem
    temporaries := .ofStem s.temporaries.stem }

structure Grows (s t : State) : Prop where
  outside : t.outside = s.outside
  drawn : s.phases.counter ≤ t.phases.counter
  temporaryDrawn : s.temporaries.counter ≤ t.temporaries.counter
  bound : ∀ x ∈ s.bound.inner.keys, x ∈ t.bound.inner.keys

namespace Grows

theorem refl (s : State) : Grows s s := ⟨rfl, Nat.le_refl _, Nat.le_refl _, fun _ h => h⟩

theorem trans (h : Grows s t) (h' : Grows t u) : Grows s u :=
  ⟨h'.outside.trans h.outside, Nat.le_trans h.drawn h'.drawn,
    Nat.le_trans h.temporaryDrawn h'.temporaryDrawn, fun x hx => h'.bound x (h.bound x hx)⟩

theorem active (h : Grows s t) : t.active = s.active :=
  have ho : t.outside.active = s.outside.active := by rw [h.outside]
  ho

theorem inEntry (h : Grows s t) : t.inEntry = s.inEntry :=
  have ho : t.outside.inEntry = s.outside.inEntry := by rw [h.outside]
  ho

theorem stem (h : Grows s t) : t.phases.stem = s.phases.stem :=
  have ho : t.outside.phases.stem = s.outside.phases.stem := by rw [h.outside]
  ho

theorem temporaryStem (h : Grows s t) : t.temporaries.stem = s.temporaries.stem :=
  have ho : t.outside.temporaries.stem = s.outside.temporaries.stem := by rw [h.outside]
  ho

end Grows

theorem grows_realized (s : State) (x : String) (value : Expr) (typing : Typing) :
    Grows s (s.realized x value typing) :=
  ⟨rfl, Nat.le_succ _, Nat.le_refl _, fun _ h => h⟩

theorem grows_rebuilt (s : State) (x : String) (fields : List Expr) (typing : Typing) :
    Grows s (s.rebuilt x fields typing) :=
  ⟨rfl, Nat.le_succ _, Nat.le_refl _, fun _ h => h⟩

theorem grows_reclosed (s : State) (x : String) (like closure : Expr) :
    Grows s (s.reclosed x like closure) :=
  ⟨rfl, Nat.le_succ _, Nat.le_refl _, fun _ h => h⟩

theorem grows_record (s : State) (entry target : String) (value : Expr) (completion : Completion) :
    Grows s (s.record entry target value completion) := by
  refine ⟨?_, Nat.le_refl _, Nat.le_refl _, fun x hx => Table.mem_keys_put.2 (.inr hx)⟩
  simp only [outside, record]
  split <;> rfl

theorem grows_hoisted (s : State) (entry : String) (value : Expr) (completion : Completion) :
    Grows s (s.hoisted entry value completion) := by
  refine .trans (t := s.freshTemporary.2.pend (value.renamed s.temporaries.next.1) value) ?_
    (grows_record _ entry s.temporaries.next.1 value completion)
  exact ⟨rfl, Nat.le_refl _, Nat.le_succ _, fun _ h => h⟩

theorem grows_substitute (s : State) (x : String) (e : Expr) : Grows s (s.substitute x e) :=
  ⟨rfl, Nat.le_refl _, Nat.le_refl _, fun _ h => h⟩

theorem grows_setCompletions (s : State) (completions : List (String × Completion)) :
    Grows s (s.setCompletions completions) := by
  induction completions generalizing s with
  | nil => exact .refl s
  | cons entry rest ih =>
    exact .trans (t := s.setCompletion entry.1 entry.2) ⟨rfl, Nat.le_refl _, Nat.le_refl _, fun _ h => h⟩ (ih _)

theorem grows_invalidateAll (s : State) (names : List String) :
    Grows s (s.invalidateAll names) := by
  induction names generalizing s with
  | nil => exact .refl s
  | cons name rest ih => exact .trans (t := s.invalidate name) ⟨rfl, Nat.le_refl _, Nat.le_refl _, fun _ h => h⟩ (ih _)

theorem pending_setCompletions (s : State) (completions : List (String × Completion)) :
    (s.setCompletions completions).pending = s.pending := by
  induction completions generalizing s with
  | nil => rfl
  | cons entry rest ih => exact ih _

theorem pending_invalidateAll (s : State) (names : List String) :
    (s.invalidateAll names).pending = s.pending := by
  induction names generalizing s with
  | nil => rfl
  | cons name rest ih => exact ih _

/-- The state with nothing left to be put in front of a statement. -/
def flush (s : State) : State := { s with pending := [] }

theorem grows_flush (s : State) :
    Grows s s.flush := ⟨rfl, Nat.le_refl _, Nat.le_refl _, fun _ h => h⟩

def resume (s t : State) : State :=
  { s with selfResults := t.selfResults, phases := t.phases, temporaries := t.temporaries }

theorem leave_eq_resume (h : Grows s.enter t) (hp : t.pending = s.pending) :
    t.leave = s.resume t := by
  have ho := h.outside
  cases t
  simp only [outside, enter, Scopes.enter, mk.injEq, Scopes.mk.injEq, true_and] at ho
  simp_all [leave, resume, Scopes.leave]

theorem grows_resume (h : Grows s.enter t) : Grows s (s.resume t) := by
  refine ⟨?_, h.drawn, h.temporaryDrawn, fun _ h => h⟩
  simp only [outside, resume, h.stem, h.temporaryStem]
  rfl

end State

section Effects
variable {task : Task} {results : List (Expr × Completion)}

/-- A change of the state, with the bind that it puts in front of the current statement. -/
inductive Effect (Γ : Context) : State → List Stmt → State → Prop where
  | substituted (s : State) (x : String) (e : Expr) : Effect Γ s [] (s.substitute x e)
  | realized (s : State) (x : String) (e : Expr) (typing : Typing) :
    Effect Γ s [s.boundary x e typing] (s.realized x e typing)
  | rebuilt (s : State) (x : String) (fields : List Expr) (typing : Typing) :
    Effect Γ s [s.tupleBind x fields typing] (s.rebuilt x fields typing)
  | reclosed (s : State) (x : String) (like closure : Expr) :
    Effect Γ s [s.closureBind x like closure] (s.reclosed x like closure)
  | hoisted (s : State) (value : Expr) (completion : Completion) :
    Effect Γ s [s.hoist value] (s.hoisted Γ.entry value completion)

/-- A task makes one change after the other. -/
theorem Derives.effects {motive : State → List Stmt → State → Prop}
    (h : Derives Γ task s results binds s')
    (none : ∀ s, motive s [] s) (one : ∀ {s binds t}, Effect Γ s binds t → motive s binds t)
    (both : ∀ {s t u binds binds'}, motive s binds t → motive t binds' u → motive s (binds ++ binds') u) :
    motive s binds s' := by
  induction h with
  | nil | name | literal | demandLiteral | met | returnedName | returnedLiteral => exact none _
  | cons _ _ ih ih' => exact both ih ih'
  | node _ _ ih | forcing _ _ _ _ _ _ _ ih | demandNode _ _ ih | demandCall _ _ ih
  | closureKept _ _ _ ih | tupleKept _ _ _ _ _ _ ih | returnedTupleKept _ _ _ _ _ _ ih
  | returnedTuple _ ih | returnedClosure _ ih | returnedCall _ _ ih => exact ih
  | demandName _ ih =>
    split
    · simpa using both ih (one (.substituted _ _ _))
    · exact ih
  | demandHoisted _ _ _ ih ih' | returnedHoisted _ _ _ _ ih ih' => exact both ih (both (one (.hoisted _ _ _)) ih')
  | closureRebuilt _ _ _ _ ih => exact both ih (one (.reclosed _ _ _ _))
  | tupleRebuilt _ _ _ _ _ _ ih | returnedTupleRebuilt _ _ _ _ _ _ ih => exact both ih (one (.rebuilt _ _ _ _))
  | realized | returnedRealized => exact one (.realized _ _ _ _)

theorem Effect.grows (h : Effect Γ s binds s') : Grows s s' := by
  cases h with
  | substituted => exact grows_substitute _ _ _
  | realized => exact grows_realized _ _ _ _
  | rebuilt => exact grows_rebuilt _ _ _ _
  | reclosed => exact grows_reclosed _ _ _ _
  | hoisted => exact grows_hoisted _ _ _ _

theorem Derives.grows (h : Derives Γ task s results binds s') : Grows s s' :=
  h.effects (motive := fun s _ t => Grows s t) .refl Effect.grows .trans

theorem Derives.pending (h : Derives Γ task s results binds s') :
    s'.pending = s.pending ++ binds := by
  refine h.effects (motive := fun s binds t => t.pending = s.pending ++ binds) (by simp) (fun hone => ?_)
    fun hfirst hsecond => by rw [hsecond, hfirst, append_assoc]
  cases hone with
  | substituted => exact (append_nil _).symm
  | _ => rfl

end Effects

/-- The names that a block binds, each as it is first bound by one of its statements. -/
def bodyTargets (body : List Stmt) : List String := (body.flatMap Stmt.targets).filterMap Expr.symbol?

namespace State

def joined (s t u : State) : State :=
  ((s.resume u).setCompletions (joinBranches (s.resume u) t.completions.inner u.completions.inner)).invalidateAll
    (t.bound.inner.keys ++ u.bound.inner.keys)

def tripStart (s : State) (selfResults : List String) (head : Table Completion) : State :=
  { s with selfResults }.enter.setCompletions head.entries

theorem grows_tripStart (s : State) (selfResults : List String) (head : Table Completion) :
    Grows s.enter (s.tripStart selfResults head) :=
  .trans (t := { s with selfResults }.enter) ⟨rfl, Nat.le_refl _, Nat.le_refl _, fun _ h => h⟩
    (grows_setCompletions _ _)

def settled (s t : State) (head : Table Completion) : State :=
  (s.resume t).setCompletions (joinHead s head t.completions.inner)

/-- What is assumed at the head of a loop covers what holds in front of it. -/
structure Covers (s : State) (head : Table Completion) : Prop where
  nodup : head.keys.Nodup
  merge : ∀ x c, head.get? x = some c → c.merge (s.completionOf x) = c

end State

/-- A trip through the body of a loop: what is assumed at its head, and where it leads. -/
structure Trip where
  selfResults : List String
  head : Table Completion
  out : List Stmt
  state : State

/-- A head that was raised by trips, the last one first, with the results of self calls behind them.
-/
def State.RaisedBy (s : State) (selfResults : List String) (head : Table Completion) : List Trip → Prop
  | [] => head = ∅ ∧ selfResults = s.selfResults
  | trip :: earlier =>
    (head = raiseHead s trip.head (joinHead s trip.head trip.state.completions.inner) ∧
      selfResults = trip.state.selfResults) ∧ s.RaisedBy trip.selfResults trip.head earlier

/-- `Analyzed context block s out s'`: analysing a block takes the state from `s` to `s'` and gives
`out`. -/
inductive Analyzed (Γ : Context) : List Stmt → State → List Stmt → State → Prop where
  | nil (s : State) : Analyzed Γ [] s [] s
  | bind {target value value' : Expr} {x : String} {completion : Completion} {binds rest out : List Stmt}
      {s s₁ s' : State} :
      target.symbol? = some x → Derives Γ (.value value) s [(value', completion)] binds s₁ →
      Analyzed Γ rest (s₁.record Γ.entry x value' completion).flush out s' →
      Analyzed Γ (.bind target value :: rest) s (binds ++ .bind target value' :: out) s'
  | ret {value value' : Expr} {completion : Completion} {binds rest out : List Stmt} {s s₁ s' : State} :
      s.inEntry = false → Derives Γ (.value value) s [(value', completion)] binds s₁ →
      Analyzed Γ rest s₁.flush out s' →
      Analyzed Γ (.ret value :: rest) s (binds ++ .ret value' :: out) s'
  | entryRet {value value' : Expr} {binds rest out : List Stmt} {s s₁ s' : State} :
      s.inEntry = true → Derives Γ (.returned value) s [(value', .complete)] binds s₁ →
      Analyzed Γ rest s₁.flush out s' →
      Analyzed Γ (.ret value :: rest) s (binds ++ .ret value' :: out) s'
  | branch {test test' : Expr} {completion : Completion}
      {binds whenTrue whenTrue' whenFalse whenFalse' rest out : List Stmt} {s s₁ t u s' : State} :
      Derives Γ (.value test) s [(test', completion)] binds s₁ →
      Analyzed Γ whenTrue s₁.flush.enter whenTrue' t →
      Analyzed Γ whenFalse (s₁.flush.resume t).enter whenFalse' u →
      Analyzed Γ rest (s₁.flush.joined t u) out s' →
      Analyzed Γ (.branch test whenTrue whenFalse :: rest) s
        (binds ++ .branch test' whenTrue' whenFalse' :: out) s'
  | loop {test test' : Expr} {completion : Completion} {binds body body' rest out : List Stmt}
      {s s₁ t s' : State} {selfResults : List String} {head : Table Completion} {trips : List Trip} :
      Derives Γ (.value test) (s.invalidateAll (bodyTargets body)) [(test', completion)] binds s₁ →
      s₁.flush.RaisedBy selfResults head trips →
      (∀ trip ∈ trips, Analyzed Γ body (s₁.flush.tripStart trip.selfResults trip.head) trip.out trip.state) →
      Analyzed Γ body (s₁.flush.tripStart selfResults head) body' t →
      isSettled s₁.flush head (joinHead s₁.flush head t.completions.inner) = true →
      Analyzed Γ rest (s₁.flush.settled t head) out s' →
      Analyzed Γ (.loop test body :: rest) s (binds ++ .loop test' body' :: out) s'

namespace Analyzed

theorem pending (h : Analyzed Γ block s out s') (hs : s.pending = []) : s'.pending = [] := by
  induction h with
  | nil => exact hs
  | bind _ _ _ ih | ret _ _ _ ih | entryRet _ _ _ ih => exact ih rfl
  | branch _ _ _ _ _ _ ih =>
    refine ih ?_
    rw [joined, pending_invalidateAll, pending_setCompletions]
    rfl
  | loop _ _ _ _ _ _ _ _ ih =>
    refine ih ?_
    rw [settled, pending_setCompletions]
    rfl

theorem grows (h : Analyzed Γ block s out s') : Grows s s' := by
  induction h with
  | nil => exact .refl _
  | bind _ hd _ ih => exact (hd.grows.trans (grows_record _ _ _ _ _)).trans ((grows_flush _).trans ih)
  | ret _ hd _ ih | entryRet _ hd _ ih => exact hd.grows.trans ((grows_flush _).trans ih)
  | @branch _ _ _ _ _ _ _ _ _ _ _ s₁ t u _ hd _ _ _ iht ihu ih =>
    have hresume : Grows s₁.flush (s₁.flush.resume u) :=
      (grows_resume iht).trans (grows_resume ihu)
    have hjoined : Grows s₁.flush (s₁.flush.joined t u) :=
      (hresume.trans (grows_setCompletions _ _)).trans (grows_invalidateAll _ _)
    exact (hd.grows.trans (grows_flush _)).trans (hjoined.trans ih)
  | @loop _ _ _ _ _ _ _ _ _ s₁ t _ _ head _ hd _ _ _ _ _ _ iht ih =>
    have htrip : Grows s₁.flush.enter t := (grows_tripStart _ _ _).trans iht
    have hsettled : Grows s₁.flush (s₁.flush.settled t head) :=
      (grows_resume htrip).trans (grows_setCompletions _ _)
    exact (((grows_invalidateAll _ _).trans hd.grows).trans (grows_flush _)).trans (hsettled.trans ih)

end Analyzed
variable {joined : List (String × Completion)}

theorem run_takePending (h : takePending.run s = .ok (binds, s')) :
    binds = s.pending ∧ s' = s.flush := by
  cases h
  exact ⟨rfl, rfl⟩

theorem run_inScope {steps : Analysis α} {r : α × Table Completion × List String}
    (h : (inScope steps).run s = .ok (r, s')) : ∃ a t, steps.run s.enter = .ok (a, t) ∧ s' = t.leave ∧
      r = (a, t.completions.inner, t.bound.inner.keys) := by
  simp only [inScope, run_bind_ok_iff] at h
  obtain ⟨_, _, henter, a, t, hsteps, _, _, hget, _, _, hset, h⟩ := h
  cases henter
  cases hget
  cases hset
  cases h
  exact ⟨a, t, hsteps, rfl, rfl⟩

theorem analyzeValue_runs {e : Expr} {r : Expr × Completion}
    (h : (analyzeValue Γ e).run s = .ok (r, s')) :
    ∃ binds, Derives Γ (.value e) s [r] binds s' := by
  obtain ⟨_, _, hget, h⟩ := run_bind_ok_iff.1 h
  cases hget
  exact (forcing_runs Γ _).1 h

theorem State.Covers.empty (s : State) : s.Covers ∅ := ⟨nodup_nil, nofun⟩

theorem State.Covers.insert (h : s.Covers head)
    {c : Completion} (hc : c.merge (s.completionOf x) = c) : s.Covers (head.insert x c) := by
  refine ⟨Table.nodup_insert h.nodup x c, fun y d hd => ?_⟩
  rw [Table.get?_insert] at hd
  split at hd
  · cases hd
    rename_i hy
    rwa [hy]
  · exact h.merge y d hd

theorem raiseHead_induction {P : Table Completion → Prop} (hhead : P head)
    (hinsert : ∀ raised, ∀ entry ∈ joined, P raised → P (raised.insert entry.1 entry.2)) :
    P (raiseHead s head joined) := by
  refine foldlRecOn joined _ hhead fun raised hr entry hentry => ?_
  dsimp only
  split
  · exact hr
  · exact hinsert raised entry hentry hr

theorem State.Covers.raise {trip : Table Completion} (h : s.Covers head) :
    s.Covers (raiseHead s head (joinHead s head trip)) := by
  have covered : ∀ entry ∈ joinHead s head trip, entry.2.merge (s.completionOf entry.1) = entry.2 := by
    intro entry hentry
    obtain ⟨⟨x, c⟩, -, rfl⟩ := mem_map.1 hentry
    have habove : ((head.get? x).getD (s.completionOf x)).merge (s.completionOf x) =
        (head.get? x).getD (s.completionOf x) := by
      cases hx : head.get? x with
      | none => simp
      | some d => exact h.merge x d hx
    simp only
    rw [Completion.merge_assoc, Completion.merge_comm c, ← Completion.merge_assoc, habove]
  exact raiseHead_induction h fun raised entry hentry hr => hr.insert (covered entry hentry)

theorem State.RaisedBy.covers (h : s.RaisedBy selfResults head trips) : s.Covers head := by
  induction trips generalizing selfResults head with
  | nil =>
    obtain ⟨rfl, -⟩ := h
    exact .empty s
  | cons trip earlier ih =>
    obtain ⟨⟨rfl, -⟩, h⟩ := h
    exact (ih h).raise

/-- Trips through a loop all start from the state at its head, and one of them settles. -/
theorem settle_ok {steps : Analysis (List Stmt)} {n : Nat}
    (hsteps : ∀ {v out t}, v.active = true → v.pending = [] → steps.run v = .ok (out, t) →
      Analyzed Γ block v out t)
    (hactive : s.active = true) (hpending : s.pending = []) (hhead : s.RaisedBy selfResults head trips)
    (htrips : ∀ trip ∈ trips, Analyzed Γ block (s.tripStart trip.selfResults trip.head) trip.out trip.state)
    (hu : ∃ phases temporaries, u = { s with selfResults, phases, temporaries })
    (h : (settle test s.phases s.temporaries steps n head).run u = .ok ((out, joined), s')) :
    ∃ selfResults head trips t, s.RaisedBy selfResults head trips ∧
      (∀ trip ∈ trips, Analyzed Γ block (s.tripStart trip.selfResults trip.head) trip.out trip.state) ∧
      Analyzed Γ block (s.tripStart selfResults head) out t ∧
      isSettled s head (joinHead s head t.completions.inner) = true ∧
      joined = joinHead s head t.completions.inner ∧ s' = s.resume t := by
  induction n generalizing selfResults head trips u with
  | zero => simp only [settle, run_throw, reduceCtorEq] at h
  | succ n ih =>
    obtain ⟨_, _, rfl⟩ := hu
    simp only [settle] at h
    obtain ⟨_, _, hmodify, h⟩ := run_bind_ok_iff.1 h
    cases hmodify
    obtain ⟨⟨statements, trip, keys⟩, s₁, hscope, h⟩ := run_bind_ok_iff.1 h
    obtain ⟨_, t, hrun, rfl, hr⟩ := run_inScope hscope
    cases hr
    obtain ⟨_, _, hset, hrun⟩ := run_bind_ok_iff.1 hrun
    cases hset
    have hstart : (s.tripStart selfResults head).active = true ∧ (s.tripStart selfResults head).pending = [] := by
      refine ⟨((grows_tripStart s selfResults head).active).trans hactive, ?_⟩
      rwa [tripStart, pending_setCompletions]
    have htrip : Analyzed Γ block (s.tripStart selfResults head) statements t :=
      hsteps hstart.1 hstart.2 hrun
    have hleave : t.leave = s.resume t :=
      leave_eq_resume ((grows_tripStart s selfResults head).trans htrip.grows)
        ((htrip.pending hstart.2).trans hpending.symm)
    rw [hleave] at h
    obtain ⟨_, _, hget, h⟩ := run_bind_ok_iff.1 h
    cases hget
    split at h
    · rename_i hsettled
      cases h
      exact ⟨selfResults, head, trips, t, hhead, htrips, htrip, hsettled, rfl, rfl⟩
    · refine ih (show s.RaisedBy _ _ (⟨selfResults, head, statements, t⟩ :: trips) from ⟨⟨rfl, rfl⟩, hhead⟩)
        (fun trip hmem => ?_) ⟨_, _, rfl⟩ h
      rcases mem_cons.1 hmem with rfl | hmem
      · exact htrip
      · exact htrips trip hmem

theorem analyzeBranch_ok {whenTrue whenFalse : List Stmt}
    (iht : ∀ {v out t}, v.active = true → v.pending = [] →
      (analyzeStmts Γ whenTrue).run v = .ok (out, t) → Analyzed Γ whenTrue v out t)
    (ihf : ∀ {v out t}, v.active = true → v.pending = [] →
      (analyzeStmts Γ whenFalse).run v = .ok (out, t) → Analyzed Γ whenFalse v out t)
    (hactive : s.active = true) (hpending : s.pending = [])
    (h : (analyzeBranch Γ test (analyzeStmts Γ whenTrue) (analyzeStmts Γ whenFalse)).run s =
      .ok (stmt, s₁)) (hrest : Analyzed Γ rest s₁.flush out s') :
    Analyzed Γ (.branch test whenTrue whenFalse :: rest) s (s₁.pending ++ stmt :: out) s' := by
  simp only [analyzeBranch, run_bind_ok_iff] at h
  obtain ⟨⟨test', completion⟩, s₂, htest, binds, _, htake, ⟨out₁, _, _⟩, _, htrue, ⟨out₂, _, _⟩, _,
    hfalse, _, _, hmodify, h⟩ := h
  obtain ⟨rfl, rfl⟩ := run_takePending htake
  obtain ⟨_, t, hrunt, rfl, hr⟩ := run_inScope htrue
  cases hr
  obtain ⟨binds, hd⟩ := analyzeValue_runs htest
  have hflush : s₂.flush.active = true := hd.grows.active.trans hactive
  have ht := iht (show s₂.flush.enter.active = true from hflush) rfl hrunt
  have hleave : t.leave = s₂.flush.resume t := leave_eq_resume ht.grows (ht.pending rfl)
  rw [hleave] at hfalse
  obtain ⟨_, u, hrunf, rfl, hr⟩ := run_inScope hfalse
  cases hr
  have hu := ihf (show (s₂.flush.resume t).enter.active = true from hflush) rfl hrunf
  have hleave' : u.leave = (s₂.flush.resume t).resume u := leave_eq_resume hu.grows (hu.pending rfl)
  rw [hleave'] at hmodify
  cases hmodify
  cases h
  have hp : s₂.pending = binds := by rw [hd.pending, hpending]; rfl
  have hflushed : { s₂.flush.joined t u with pending := [] } = s₂.flush.joined t u := by
    have hjoined : (s₂.flush.joined t u).pending = [] := by
      rw [joined, pending_invalidateAll, pending_setCompletions]
      rfl
    rw [← hjoined]
  simp only [hp]
  exact .branch hd ht hu (hflushed ▸ hrest)

theorem analyzeLoop_ok
    (ih : ∀ {v out t}, v.active = true → v.pending = [] → (analyzeStmts Γ body).run v = .ok (out, t) →
      Analyzed Γ body v out t)
    (hactive : s.active = true) (hpending : s.pending = [])
    (h : (analyzeLoop Γ test body (analyzeStmts Γ body)).run s = .ok (stmt, s₁))
    (hrest : Analyzed Γ rest s₁.flush out s') :
    Analyzed Γ (.loop test body :: rest) s (s₁.pending ++ stmt :: out) s' := by
  simp only [analyzeLoop, run_bind_ok_iff] at h
  obtain ⟨_, _, hinvalidate, ⟨test', completion⟩, s₂, htest, binds, _, htake, _, _, hget, ⟨body', joined⟩, _,
    hsettle, _, _, hmodify, h⟩ := h
  cases hinvalidate
  obtain ⟨rfl, rfl⟩ := run_takePending htake
  cases hget
  obtain ⟨binds, hd⟩ := analyzeValue_runs htest
  have hkept : (s.invalidateAll (bodyTargets body)).active = true :=
    (grows_invalidateAll s _).active.trans hactive
  have hflush : s₂.flush.active = true := hd.grows.active.trans hkept
  obtain ⟨selfResults, head, trips, t, hraised, htrips, ht, hsettled, rfl, rfl⟩ :=
    settle_ok ih hflush rfl (show RaisedBy _ _ ∅ [] from ⟨rfl, rfl⟩) (by simp) ⟨_, _, rfl⟩ hsettle
  cases hmodify
  cases h
  have hp : s₂.pending = binds := by
    rw [hd.pending, pending_invalidateAll, hpending]
    rfl
  have hflushed : { s₂.flush.settled t head with pending := [] } = s₂.flush.settled t head := by
    have hsettled : (s₂.flush.settled t head).pending = [] := by
      rw [State.settled, pending_setCompletions]
      rfl
    rw [← hsettled]
  simp only [hp]
  exact .loop hd hraised htrips ht hsettled (hflushed ▸ hrest)

mutual

theorem analyzeStmt_ok : ∀ {stmt : Stmt}, stmt.isPlain = true →
    ∀ {s s₁ : State} {stmt' : Stmt}, s.active = true → s.pending = [] →
    (analyzeStmt Γ stmt).run s = .ok (stmt', s₁) → ∀ {rest out : List Stmt} {s' : State},
    Analyzed Γ rest s₁.flush out s' → Analyzed Γ (stmt :: rest) s (s₁.pending ++ stmt' :: out) s'
  | .bind target value, _, s, s₁, stmt', hactive, hpending, h, rest, out, s', hrest => by
    simp only [analyzeStmt] at h
    obtain ⟨_, _, hget, h⟩ := run_bind_ok_iff.1 h
    cases hget
    rw [if_pos hactive] at h
    simp only [analyzeBind, run_bind_ok_iff] at h
    obtain ⟨x, _, hx, ⟨value', completion⟩, s₂, hvalue, _, _, hmodify, h⟩ := h
    obtain ⟨hname, rfl⟩ := run_lift_ok_iff.1 hx
    obtain ⟨binds, hd⟩ := analyzeValue_runs hvalue
    cases hmodify
    cases h
    have hp : (s₂.record Γ.entry x value' completion).pending = binds := by
      show s₂.pending = binds
      rw [hd.pending, hpending]
      rfl
    rw [hp]
    exact .bind (Expr.expectName_ok.1 hname) hd hrest
  | .ret value, _, s, s₁, stmt', hactive, hpending, h, rest, out, s', hrest => by
    simp only [analyzeStmt] at h
    obtain ⟨_, _, hget, h⟩ := run_bind_ok_iff.1 h
    cases hget
    rw [if_pos hactive] at h
    simp only [analyzeReturn] at h
    obtain ⟨_, _, hget, h⟩ := run_bind_ok_iff.1 h
    cases hget
    split at h
    · rename_i hentry
      obtain ⟨value', s₂, hvalue, h⟩ := run_bind_ok_iff.1 h
      cases h
      obtain ⟨binds, hd⟩ := forceReturned_runs hvalue
      rw [hd.pending, hpending]
      exact .entryRet hentry hd hrest
    · rename_i hentry
      obtain ⟨⟨value', completion⟩, s₂, hvalue, h⟩ := run_bind_ok_iff.1 h
      cases h
      obtain ⟨binds, hd⟩ := analyzeValue_runs hvalue
      rw [hd.pending, hpending]
      exact .ret (by simpa using hentry) hd hrest
  | .branch test whenTrue whenFalse, hplain, s, s₁, stmt', hactive, hpending, h, rest, out, s', hrest => by
    simp only [Stmt.isPlain, Bool.and_eq_true] at hplain
    simp only [analyzeStmt] at h
    obtain ⟨_, _, hget, h⟩ := run_bind_ok_iff.1 h
    cases hget
    rw [if_pos hactive] at h
    exact analyzeBranch_ok (analyzeStmts_ok hplain.1) (analyzeStmts_ok hplain.2) hactive hpending h hrest
  | .loop test body, hplain, s, s₁, stmt', hactive, hpending, h, rest, out, s', hrest => by
    simp only [Stmt.isPlain] at hplain
    simp only [analyzeStmt] at h
    obtain ⟨_, _, hget, h⟩ := run_bind_ok_iff.1 h
    cases hget
    rw [if_pos hactive] at h
    exact analyzeLoop_ok (analyzeStmts_ok hplain) hactive hpending h hrest

theorem analyzeStmts_ok : ∀ {block : List Stmt}, Stmt.arePlain block = true →
    ∀ {s s' : State} {out : List Stmt}, s.active = true → s.pending = [] →
    (analyzeStmts Γ block).run s = .ok (out, s') → Analyzed Γ block s out s'
  | [], _, s, s', out, _, _, h => by
    cases h
    exact .nil s
  | stmt :: rest, hplain, s, s', out, hactive, hpending, h => by
    simp only [Stmt.arePlain, Bool.and_eq_true] at hplain
    simp only [analyzeStmts, run_bind_ok_iff] at h
    obtain ⟨stmt', s₁, hstmt, binds, _, htake, out', s₂, hrest, h⟩ := h
    obtain ⟨rfl, rfl⟩ := run_takePending htake
    cases h
    have hone := analyzeStmt_ok hplain.1 hactive hpending hstmt (.nil s₁.flush)
    have hkept : s₁.flush.active = true := hone.grows.active.trans hactive
    exact analyzeStmt_ok hplain.1 hactive hpending hstmt (analyzeStmts_ok hplain.2 hkept rfl hrest)

end

def State.bodyStart (inEntry : Bool) (parameters : List Expr) (phases temporaries : Supply) : State :=
  (⟨true, inEntry, ∅, ∅, ∅, ∅, ∅, [], [], phases, temporaries⟩ : State).enter.setCompletions
    (parameterCompletions inEntry parameters)

/-- How a procedure is analysed. Nothing is known in front of it but the names that were drawn
before. -/
def ProcedureAnalyzed (Γ : Context) (symbol : String) (parameters : List Expr) (body body' : List Stmt) : Prop :=
  ∃ phases temporaries s', phases.stem = "_phase" ∧ temporaries.stem = "_sync" ∧ Analyzed Γ body
      (bodyStart (decide (symbol = Γ.entry)) parameters phases temporaries) body' s'

def State.Idle (s : State) : Prop :=
  ∃ selfResults phases temporaries, phases.stem = "_phase" ∧ temporaries.stem = "_sync" ∧
    s = ⟨false, false, ∅, ∅, ∅, ∅, ∅, selfResults, [], phases, temporaries⟩

theorem analyzeProcedure_ok {parameters : List Expr} {body' : List Stmt}
    (hplain : Stmt.arePlain body = true) (hidle : s.Idle)
    (h : (analyzeProcedure Γ symbol parameters (analyzeStmts Γ body)).run s = .ok (body', s')) :
    ProcedureAnalyzed Γ symbol parameters body body' ∧ s'.Idle := by
  obtain ⟨selfResults, phases, temporaries, hstem, hstem', rfl⟩ := hidle
  simp only [analyzeProcedure, run_bind_ok_iff] at h
  obtain ⟨_, _, hstart, ⟨out, _, _⟩, _, hscope, _, _, hend, h⟩ := h
  cases hstart
  obtain ⟨_, t, hrun, rfl, hr⟩ := run_inScope hscope
  cases hr
  obtain ⟨_, _, hset, hrun⟩ := run_bind_ok_iff.1 hrun
  cases hset
  have hgrows := grows_setCompletions
    (⟨true, decide (symbol = Γ.entry), ∅, ∅, ∅, ∅, ∅, [], [], phases, temporaries⟩ : State).enter
    (parameterCompletions (decide (symbol = Γ.entry)) parameters)
  have hbody := analyzeStmts_ok hplain (hgrows.active.trans rfl) (pending_setCompletions _ _) hrun
  have hgrows' := hgrows.trans hbody.grows
  rw [leave_eq_resume hgrows' (hbody.pending (pending_setCompletions _ _))] at hend
  cases hend
  cases h
  exact ⟨⟨phases, temporaries, t, hstem, hstem', hbody⟩, t.selfResults, t.phases, t.temporaries,
    hgrows'.stem.trans hstem, hgrows'.temporaryStem.trans hstem', rfl⟩

/-- What becomes of a procedure: its body is analysed if it can be reached from the entry procedure.
-/
def ProcedureRewritten (Γ : Context) (p p' : Procedure) : Prop :=
  p'.name = p.name ∧ p'.parameters = p.parameters ∧
    match p.symbol?.filter (· ∈ Γ.analyzed) with
    | some symbol => ProcedureAnalyzed Γ symbol p.parameters p.body p'.body
    | none => p'.body = p.body

theorem analyzeItems_ok (hidle : s.Idle)
    (hplain : ∀ stmt ∈ module, ∃ procedure : Procedure, stmt = procedure.toStmt ∧ Stmt.arePlain procedure.body = true)
    (h : (analyzeStmts Γ module).run s = .ok (module', s')) :
    Module.Rewrites (ProcedureRewritten Γ) module module' := by
  induction module generalizing s module' with
  | nil =>
    cases h
    exact .nil
  | cons stmt rest ih =>
    obtain ⟨p, rfl, hp⟩ := hplain _ mem_cons_self
    simp only [analyzeStmts, run_bind_ok_iff] at h
    obtain ⟨stmt', s₁, hstmt, binds, _, htake, out, s₂, hrest, h⟩ := h
    obtain ⟨rfl, rfl⟩ := run_takePending htake
    cases h
    have hone : ∃ p' : Procedure, stmt' = p'.toStmt ∧ ProcedureRewritten Γ p p' ∧ s₁.Idle := by
      simp only [analyzeStmt, Procedure.toStmt] at hstmt
      split at hstmt
      · rename_i symbol hsymbol
        obtain ⟨body', _, hbody, hr⟩ := run_bind_ok_iff.1 hstmt
        cases hr
        obtain ⟨hanalyzed, hidle'⟩ := analyzeProcedure_ok hp hidle hbody
        refine ⟨⟨p.name, p.parameters, body'⟩, rfl, ⟨rfl, rfl, ?_⟩, hidle'⟩
        simp only [Procedure.symbol?, hsymbol]
        exact hanalyzed
      · rename_i hsymbol
        cases hstmt
        refine ⟨p, rfl, ⟨rfl, rfl, ?_⟩, hidle⟩
        simp only [Procedure.symbol?, hsymbol]
    obtain ⟨p', rfl, hrewritten, hidle₁⟩ := hone
    have hpending : s₁.pending = [] := by
      obtain ⟨_, _, _, -, -, rfl⟩ := hidle₁
      rfl
    have hflush : s₁.flush = s₁ := by rw [State.flush, ← hpending]
    rw [hpending, nil_append]
    rw [hflush] at hrest
    exact .cons hrewritten (ih hidle₁ (fun t ht => hplain t (mem_cons_of_mem _ ht)) hrest)

/-- The context in which a module is analysed. -/
def moduleContext (module : Module) (registry : Registry) (entry : String) : Context :=
  ⟨withProcedures registry module, entry, reachable module entry⟩

end Phases

theorem Stmt.getElem?_of_procedure {p : Procedure → Bool}
    (h : (module[i]?.bind procedure?).any p = true) :
    ∃ procedure : Procedure, module[i]? = some procedure.toStmt ∧ p procedure = true := by
  obtain ⟨procedure, hprocedure, hp⟩ := (Option.any_eq_true _ _).1 h
  obtain ⟨st, hst, hprocedure⟩ := Option.bind_eq_some_iff.1 hprocedure
  cases st with
  | procedure name parameters body =>
    cases hprocedure
    exact ⟨⟨name, parameters, body⟩, hst, hp⟩
  | _ => cases hprocedure

/-- A module of procedures whose bodies are plain. -/
def Module.isPlain (module : Module) : Bool :=
  module.all fun stmt => match stmt.procedure? with
    | some procedure => Stmt.arePlain procedure.body
    | none => false

section
variable (hplain : module.isPlain = true) (h : module.insertBoundaries registry entry = .ok module')
include hplain h

theorem Module.insertBoundaries_rewrites :
    Module.Rewrites (Phases.ProcedureRewritten (Phases.moduleContext module registry entry)) module module' := by
  obtain ⟨s', hrun⟩ := run'_ok h
  refine Phases.analyzeItems_ok ⟨[], .ofStem "_phase", .ofStem "_sync", rfl, rfl, rfl⟩ ?_ hrun
  intro stmt hstmt
  have hall := all_eq_true.1 hplain stmt hstmt
  cases stmt with
  | procedure name parameters body => exact ⟨⟨name, parameters, body⟩, rfl, hall⟩
  | _ => cases hall

theorem Module.insertBoundaries_ok (hi : module[i]? = some p.toStmt) :
    ∃ p' : Procedure, module'[i]? = some p'.toStmt ∧
      Phases.ProcedureRewritten (Phases.moduleContext module registry entry) p p' :=
  (module.insertBoundaries_rewrites hplain h).get hi

theorem Module.insertBoundaries_reached (hi : module[i]? = some p.toStmt)
    (hsymbol : p.symbol? = some symbol) (hreach : symbol ∈ Phases.reachable module entry) :
    ∃ p' : Procedure, module'[i]? = some p'.toStmt ∧ p'.name = p.name ∧
      p'.parameters = p.parameters ∧
      Phases.ProcedureAnalyzed (Phases.moduleContext module registry entry) symbol p.parameters
        p.body p'.body := by
  obtain ⟨p', hi', hname, hparameters, hbody⟩ := module.insertBoundaries_ok hplain h hi
  have hanalyzed : p.symbol?.filter (· ∈ (Phases.moduleContext module registry entry).analyzed) =
      some symbol := by
    rw [hsymbol]
    exact Option.filter_some_pos (decide_eq_true hreach)
  rw [hanalyzed] at hbody
  exact ⟨p', hi', hname, hparameters, hbody⟩

end

end DataParallel
