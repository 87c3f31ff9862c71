import DataParallel.Proofs.Phases.Statements
import DataParallel.Proofs.Phases.Traversal
import DataParallel.Proofs.Printable.Basic

/-! Phase analysis keeps a module printable and misses no layout. What is remembered of names can be
printed as well, since it is read again later. -/

namespace DataParallel

open DataParallel.Expr List Stmt

variable {α : Type} {p : α → Prop}

def Scopes.All {α : Type} (p : α → Prop) (scopes : Scopes α) : Prop :=
  ∀ table ∈ scopes.inner :: scopes.outer, ∀ entry ∈ table.entries, p entry.2

namespace Scopes.All
variable {scopes : Scopes α} {entries : List (String × α)} {key : String} {a : α}

theorem empty : All p (∅ : Scopes α) := by
  intro table htable entry hentry
  cases mem_singleton.1 htable
  exact absurd hentry not_mem_nil

theorem of_lookup (h : ∀ entry ∈ entries, p entry.2) (ha : entries.lookup key = some a) : p a := by
  induction entries with
  | nil => cases ha
  | cons entry rest ih =>
    rw [lookup_cons] at ha
    split at ha
    · cases ha
      exact h entry mem_cons_self
    · exact ih (fun e he => h e (mem_cons_of_mem entry he)) ha

theorem get? (h : All p scopes) (ha : scopes.get? key = some a) : p a := by
  obtain ⟨table, htable, ha⟩ := exists_of_findSome?_eq_some ha
  exact of_lookup (h table htable) ha

theorem of_put (h : ∀ entry ∈ entries, p entry.2) (key : String)
    (ha : p a) : ∀ entry ∈ Table.put key a entries, p entry.2 := by
  induction entries with
  | nil => exact forall_mem_singleton.2 ha
  | cons first rest ih =>
    intro entry hentry
    rw [Table.put] at hentry
    split at hentry
    · rcases mem_cons.1 hentry with rfl | hentry
      · exact ha
      · exact h entry (mem_cons_of_mem _ hentry)
    · rcases mem_cons.1 hentry with rfl | hentry
      · exact h _ mem_cons_self
      · exact ih (fun e he => h e (mem_cons_of_mem _ he)) entry hentry

theorem insert (h : All p scopes) (key : String) (ha : p a) : All p (scopes.insert key a) := by
  intro table htable
  rcases mem_cons.1 htable with rfl | htable
  · exact of_put (h _ mem_cons_self) key ha
  · exact h table (mem_cons_of_mem _ htable)

theorem enter (h : All p scopes) : All p scopes.enter := by
  intro table htable entry hentry
  rcases mem_cons.1 htable with rfl | htable
  · exact absurd hentry not_mem_nil
  · exact h table htable entry hentry

theorem leave (h : All p scopes) : All p scopes.leave.2 := by
  rw [Scopes.leave]
  split
  · exact empty
  · rename_i next rest houter
    intro table htable
    exact h table (mem_cons_of_mem _ (houter ▸ htable))

end Scopes.All

namespace Phases

variable {s : State} {e : Expr} {es : List Expr} {k : Head}

/-- What is remembered of names is `P`, and the binds that wait are `Q`. -/
structure State.Remembers (P : Expr → Prop) (Q : List Stmt → Prop) (s : State) : Prop where
  substitutions : s.substitutions.All fun e? => ∀ e ∈ e?, P e
  components : s.components.All fun es? => ∀ es ∈ es?, ∀ e ∈ es, P e
  closures : s.closures.All fun e? => ∀ e ∈ e?, P e
  pending : Q s.pending

section
variable {harmless : LoweringError → Prop} {P : Expr → Prop} {Q : List Stmt → Prop} {like : Expr} {x entry : String}
  {typing : Typing} {completion : Completion}

namespace State.Remembers
variable (h : s.Remembers P Q)
include h

theorem current (he : P e) : P (s.current e) := by
  unfold State.current
  split
  · rename_i x _
    cases hget : (s.substitutions.get? x).join with
    | none => exact he
    | some d => exact h.substitutions.get? (Option.join_eq_some_iff.1 hget) d rfl
  · exact he

theorem componentsOf? (hx : s.componentsOf? x = some es) : ∀ e ∈ es, P e :=
  h.components.get? (Option.join_eq_some_iff.1 hx) es rfl

theorem closureOf? (hx : s.closureOf? x = some e) : P e :=
  h.closures.get? (Option.join_eq_some_iff.1 hx) e rfl

theorem setCompletion (x : String) (c : Completion) : (s.setCompletion x c).Remembers P Q :=
  ⟨h.substitutions, h.components, h.closures, h.pending⟩

theorem setCompletions (cs : List (String × Completion)) : (s.setCompletions cs).Remembers P Q := by
  induction cs generalizing s with
  | nil => exact h
  | cons c cs ih => exact ih (h.setCompletion c.1 c.2)

theorem invalidateAll (names : List String) : (s.invalidateAll names).Remembers P Q := by
  induction names generalizing s with
  | nil => exact h
  | cons x names ih =>
    refine ih ⟨h.substitutions.insert x ?_, h.components.insert x ?_, h.closures.insert x ?_, h.pending⟩ <;>
      rintro _ ⟨⟩

theorem substitute (x : String) (he : P e) : (s.substitute x e).Remembers P Q := by
  refine ⟨h.substitutions.insert x ?_, h.components, h.closures, h.pending⟩
  rintro _ ⟨⟩
  exact he

theorem pend {target value : Expr} (hbinds : Q (s.pending ++ [.bind target value])) :
    (s.pend target value).Remembers P Q := ⟨h.substitutions, h.components, h.closures, hbinds⟩

theorem setComponents (x : String) (hes : ∀ e ∈ es, P e) :
    { s with components := s.components.insert x (some es) }.Remembers P Q := by
  refine ⟨h.substitutions, h.components.insert x ?_, h.closures, h.pending⟩
  rintro _ ⟨⟩
  exact hes

theorem setClosure (x : String) (he : P e) :
    { s with closures := s.closures.insert x (some e) }.Remembers P Q := by
  refine ⟨h.substitutions, h.components, h.closures.insert x ?_, h.pending⟩
  rintro _ ⟨⟩
  exact he

theorem record (hparts : ∀ {f es typing}, P (.apply f es typing) → ∀ e ∈ es, P e) (entry x : String)
    (completion : Completion) (he : P e) : (s.record entry x e completion).Remembers P Q := by
  refine ⟨?_, h.components.insert x ?_, h.closures.insert x ?_, h.pending⟩
  · show Scopes.All _ (if s.substitutions.contains x then s.substitutions.insert x none else s.substitutions)
    split
    · refine h.substitutions.insert x ?_
      rintro _ ⟨⟩
    · exact h.substitutions
  · intro es hes
    split at hes
    · cases hes
      cases e with
      | apply => exact hparts he
      | _ => exact nofun
    · obtain ⟨y, -, hes⟩ := Option.bind_eq_some_iff.1 hes
      exact h.componentsOf? hes
  · intro d hd
    cases e with
    | closure =>
      cases hd
      exact he
    | name y typing => exact h.closureOf? hd
    | _ => cases hd

theorem enter : s.enter.Remembers P Q :=
  ⟨h.substitutions.enter, h.components.enter, h.closures.enter, h.pending⟩

theorem leave : s.leave.Remembers P Q :=
  ⟨h.substitutions.leave, h.components.leave, h.closures.leave, h.pending⟩

end State.Remembers

theorem freshPhase_remembers (base : String) :
    Preserves harmless (State.Remembers P Q) (modifyGet (·.freshPhase base) : Analysis String) fun _ => True :=
  Triple.modifyGet fun _ hs => ⟨trivial, hs.substitutions, hs.components, hs.closures, hs.pending⟩

/-- Expressions that the changes of the analysis stay within, and the binds that they put in front
of a statement. -/
structure Records (harmless : LoweringError → Prop) (P : Expr → Prop) (Q : List Stmt → Prop) : Prop where
  tolerates : ∀ error : LoweringError, error.Tolerable → harmless error
  layout {e : Expr} : P e → Meets harmless (fun layout => e.layout = some layout) e.expectLayout
  named {x : String} {typing : Typing} : typing.layout.isSome = true → P (.name x typing)
  renamed {x : String} {e : Expr} : P e → P (e.renamed x)
  stored {x : String} {ty : Ty} {es : List Expr} : (∀ e ∈ es, P e) → P (.name x ⟨ty, (layouts? es).map .tuple⟩)
  parts {k : Head} {es : List Expr} : P (k.build es) → ∀ e ∈ es, P e
  nil : Q []
  snippet {binds : List Stmt} {x snippet : String} {es : List Expr} {typing : Typing} : Q binds → P (.name x typing) →
    (∀ e ∈ es, P e) → Q (binds ++ [.bind (.name x typing) (applySnippet snippet es typing)])
  value {binds : List Stmt} {x : String} {like e : Expr} : Q binds → P like → P e →
    Q (binds ++ [.bind (like.renamed x) e])

namespace Records
variable (h : Records harmless P Q)
include h

theorem realize (he : P e) : Preserves harmless (State.Remembers P Q) (realize e) P := by
  refine Preserves.bind (.lift ((Expr.expectName_meets _).weaken h.tolerates)) fun x _ => ?_
  refine Preserves.bind (.lift (h.layout he)) fun layout _ => (freshPhase_remembers x).bind fun name _ => ?_
  refine Preserves.bind (.modifies fun s hs => ?_) fun _ _ => .pure (h.named rfl)
  refine State.Remembers.substitute (.setCompletion (.setCompletion (hs.pend ?_) _ _) _ _) _ (h.named rfl)
  exact h.snippet hs.pending (h.named rfl) (forall_mem_singleton.2 he)

theorem rebuildTuple (hes : ∀ e ∈ es, P e) (htyping : ∀ x, P (.name x typing)) :
    Preserves harmless (State.Remembers P Q) (rebuildTuple x es typing) P := by
  refine (freshPhase_remembers x).bind fun name _ => ?_
  refine Preserves.bind (.modifies fun s hs => ?_) fun _ _ => .pure (htyping name)
  exact State.Remembers.substitute (.setComponents (.setCompletion (.setCompletion
    (hs.pend (h.snippet hs.pending (htyping name) hes)) _ _) _ _) _ hes) _ (htyping name)

theorem rebuildClosure (hlike : P like) (he : P e) :
    Preserves harmless (State.Remembers P Q) (rebuildClosure x like e) P := by
  refine (freshPhase_remembers x).bind fun name _ => ?_
  refine Preserves.bind (.modifies fun s hs => ?_) fun _ _ => .pure (h.renamed hlike)
  exact State.Remembers.setClosure (.setCompletion (hs.pend (h.value hs.pending hlike he)) _ _) _ he

theorem bindTemporary (he : P e) :
    Preserves harmless (State.Remembers P Q) (bindTemporary entry e completion) P := by
  have fresh : Preserves harmless (State.Remembers P Q) (modifyGet State.freshTemporary : Analysis String)
      fun _ => True :=
    Triple.modifyGet fun _ hs => ⟨trivial, hs.substitutions, hs.components, hs.closures, hs.pending⟩
  refine fresh.bind fun name _ => Preserves.bind (.modifies fun s hs => ?_) fun _ _ => .pure (h.renamed he)
  exact (hs.pend (h.value hs.pending he he)).record (h.parts (k := .call _ _)) _ _ _ he

theorem takePending : Preserves harmless (State.Remembers P Q) takePending Q :=
  Triple.modifyGet fun _ hs => ⟨hs.pending, hs.substitutions, hs.components, hs.closures, h.nil⟩

end Records

end

abbrev State.Printable : State → Prop := State.Remembers Expr.Printable (PrintableAll IsTarget)

theorem State.Printable.initial : initial.Printable := ⟨.empty, .empty, .empty, trivial⟩

/-- The steps miss no layout and keep what is remembered printable. -/
abbrev Keeps {α : Type} (x : Analysis α) (p : α → Prop) : Prop :=
  Preserves LoweringError.Tolerable State.Printable x p

theorem storageOf_printable (he : e.Printable) :
    Meets LoweringError.Tolerable Printable (storageOf s e) := by
  unfold storageOf
  split
  · exact he.containerOf.mono fun storage hstorage => hstorage.2
  · exact he

theorem Expr.Printable.parts (h : (k.build es).Printable) : ∀ e ∈ es, e.Printable := by
  cases k with
  | tuple => exact (printable_tuple.1 h).2
  | closure => exact (printable_closure.1 h).2.2.2
  | call => exact (printable_apply.1 h).2.2.2

theorem Expr.Printable.build {ds : List Expr} (h : (k.build es).Printable)
    (hds : ∀ d ∈ ds, d.Printable) : (k.build ds).Printable := by
  cases k with
  | tuple => exact printable_tuple.2 ⟨(printable_tuple.1 h).1, hds⟩
  | closure =>
    obtain ⟨htyping, hname, hf, -⟩ := printable_closure.1 h
    exact printable_closure.2 ⟨htyping, hname, hf, hds⟩
  | call =>
    obtain ⟨htyping, hname, hf, -⟩ := printable_apply.1 h
    exact printable_apply.2 ⟨htyping, hname, hf, hds⟩

theorem printable_records : Records LoweringError.Tolerable Printable (PrintableAll IsTarget) where
  tolerates _ herror := herror
  layout he := he.expectLayout
  named := printable_name.2
  renamed he := he.renamed _
  stored hes := printable_name.2 (by simpa using layouts?_isSome hes)
  parts := Expr.Printable.parts
  nil := trivial
  snippet hbinds hname hes := printableAll_append.2
    ⟨hbinds, ⟨⟨rfl, hname⟩, printable_applySnippet hes (printable_name.1 hname)⟩, trivial⟩
  value hbinds hlike he := printableAll_append.2 ⟨hbinds, ⟨⟨rfl, hlike.renamed _⟩, he⟩, trivial⟩

theorem keeps_steps (Γ : Context) : Steps (fun x _ p => Keeps x p) State.Printable Expr.Printable
    (PrintableAll IsTarget) (Stmt.Printable IsTarget) Γ Γ where
  pure := .pure
  bind := Preserves.bind
  mapM := .mapM
  get := .get
  set := .set
  modifies := .modifies
  cyclic _ := .throw nofun
  malformed _ _ := .throw nofun
  unsettled _ := .throw nofun
  lookup _ _ := by
    refine .lift ?_
    unfold Registry.lookup
    split
    · trivial
    · exact nofun
  current hs := hs.current
  fields hs := hs.componentsOf?
  closure hs := hs.closureOf?
  parts := Expr.Printable.parts
  build := Expr.Printable.build
  substitute hs := hs.substitute _
  realize := printable_records.realize
  rebuildTuple he hes := printable_records.rebuildTuple hes he.renamed
  rebuildStored hes := printable_records.rebuildTuple hes fun _ => printable_records.stored hes
  rebuildClosure := printable_records.rebuildClosure
  bindTemporary := printable_records.bindTemporary
  storage he := .lift (storageOf_printable he)
  takePending := printable_records.takePending
  enter hs := hs.enter
  leave hs := hs.leave
  setCompletions cs hs := hs.setCompletions cs
  invalidateAll names hs := hs.invalidateAll names
  pending hs hpending := ⟨hs.substitutions, hs.components, hs.closures, hpending⟩
  supplies hs := ⟨hs.substitutions, hs.components, hs.closures, hs.pending⟩
  branch htest htrue hfalse := ⟨htest, htrue, hfalse⟩
  loop htest hbody := ⟨htest, hbody⟩
  entry := rfl

mutual

theorem analyzeStmt_keeps (Γ : Context) : ∀ {s : Stmt}, s.Printable IsTarget →
    Keeps (analyzeStmt Γ s) (Stmt.Printable IsTarget)
  | .bind target value, h => by
    rw [analyzeStmt]
    refine Preserves.get.bind fun _ _ => ?_
    split
    · refine Preserves.bind (.lift (Expr.expectName_meets _)) fun x _ => ?_
      refine ((keeps_steps Γ).analyzeValue h.2).bind fun r hr => ?_
      exact Preserves.bind (.modifies fun s hs => hs.record (Expr.Printable.parts (k := .call _ _)) _ _ _ hr) fun _ _ =>
        .pure ⟨h.1, hr⟩
    · exact .pure h
  | .ret value, h => by
    rw [analyzeStmt]
    refine Preserves.get.bind fun _ _ => ?_
    split
    · refine Preserves.get.bind fun s _ => ?_
      split
      · exact ((keeps_steps Γ).forceReturned _ h).bind fun e he => .pure he
      · exact ((keeps_steps Γ).analyzeValue h).bind fun r hr => .pure hr
    · exact .pure h
  | .branch _ whenTrue whenFalse, h => by
    rw [analyzeStmt]
    refine Preserves.get.bind fun _ _ => ?_
    split
    · exact (keeps_steps Γ).analyzeBranch (y := analyzeStmts Γ whenTrue)
        (z := analyzeStmts Γ whenFalse) h.1 (analyzeStmts_keeps Γ h.2.1) (analyzeStmts_keeps Γ h.2.2)
    · exact .pure h
  | .loop _ body, h => by
    rw [analyzeStmt]
    refine Preserves.get.bind fun _ _ => ?_
    split
    · exact (keeps_steps Γ).analyzeLoop (y := analyzeStmts Γ body) h.1 (analyzeStmts_keeps Γ h.2)
    · exact .pure h

theorem analyzeStmts_keeps (Γ : Context) : ∀ {block : List Stmt}, PrintableAll IsTarget block →
    Keeps (analyzeStmts Γ block) (PrintableAll IsTarget)
  | [], _ => .pure trivial
  | _ :: _, h => by
    rw [analyzeStmts]
    refine (analyzeStmt_keeps Γ h.1).bind fun s hs =>
      printable_records.takePending.bind fun pending hpending => ?_
    refine (analyzeStmts_keeps Γ h.2).bind fun rest hrest => .pure ?_
    exact printableAll_append.2 ⟨hpending, hs, hrest⟩

end

structure State.Rests (state : State) : Prop where
  printable : state.Printable
  pending : state.pending = []

theorem State.Rests.switched (h : s.Rests) (active inEntry : Bool) (results : List String) :
    { s with active, inEntry, selfResults := results }.Rests :=
  ⟨⟨h.1.substitutions, h.1.components, h.1.closures, h.1.pending⟩, h.2⟩

abbrev Settles {α : Type} (x : Analysis α) (p : α → Prop) : Prop :=
  Preserves LoweringError.Tolerable State.Rests x p

theorem analyzeStmts_settles (Γ : Context) {block : List Stmt} (h : PrintableAll IsTarget block) :
    Settles (analyzeStmts Γ block) (PrintableAll IsTarget) := by
  induction block with
  | nil => exact .pure trivial
  | cons s rest ih =>
    rw [analyzeStmts]
    refine Triple.andThen ((analyzeStmt_keeps Γ h.1).weaken fun s hs => hs.printable) fun s hs => ?_
    have take : Triple LoweringError.Tolerable State.Printable takePending
        fun out s => PrintableAll IsTarget out ∧ s.Rests :=
      .modifyGet fun s hs => ⟨hs.pending, ⟨hs.substitutions, hs.components, hs.closures, trivial⟩, rfl⟩
    refine take.andThen fun pending hpending => (ih h.2).bind fun rest hrest => .pure ?_
    exact printableAll_append.2 ⟨hpending, hs, hrest⟩

theorem inScope_settles {steps : Analysis α} (h : Settles steps p) :
    Settles (inScope steps) fun r => p r.1 := by
  refine Preserves.bind (.modifies fun s hs => ⟨hs.printable.enter, hs.pending⟩) fun _ _ => ?_
  refine h.bind fun a ha => Preserves.get.bind fun s hs => ?_
  exact Preserves.bind (.set ⟨hs.printable.leave, hs.pending⟩) fun _ _ => .pure ha

theorem analyzeProcedure_settles (Γ : Context) {p : Procedure} (hp : p.Printable IsTarget) :
    Settles (analyzeStmt Γ p.toStmt) fun s => ∃ q : Procedure, s = q.toStmt ∧ q.Printable IsTarget := by
  rw [Procedure.toStmt, analyzeStmt]
  split
  · refine Preserves.bind (p := PrintableAll IsTarget) ?_ fun out hout => .pure ?_
    · refine Preserves.bind (.modifies fun s hs => hs.switched _ _ _) fun _ _ => ?_
      refine Preserves.bind (inScope_settles (Preserves.bind (.modifies fun s hs => ?_) fun _ _ =>
        analyzeStmts_settles Γ hp.body)) fun r hr => ?_
      · exact ⟨hs.printable.setCompletions _, (State.pending_setCompletions s _).trans hs.pending⟩
      · exact Preserves.bind (.modifies fun s hs => hs.switched _ _ s.selfResults) fun _ _ => .pure hr
    · exact ⟨⟨p.name, p.parameters, out⟩, rfl, hp.name, hp.result, hp.parameters, hout⟩
  · exact .pure ⟨p, rfl, hp⟩

end Phases

theorem Module.insertBoundaries_printable {module : Module} (registry : Registry) (entry : String)
    (h : module.Printable IsTarget) :
    Meets LoweringError.Tolerable (Module.Printable IsTarget) (module.insertBoundaries registry entry) := by
  refine (h.pass (K := Phases.State.Rests) (Phases.analyzeStmts _) rfl fun hp hrest => ?_).run' ⟨.initial, rfl⟩
  rw [Phases.analyzeStmts]
  refine (Phases.analyzeProcedure_settles _ hp).bind fun s hs => ?_
  refine Preserves.bind (p := fun pending => pending = []) (.modifyGet fun s hs => ?_) fun pending hpending => ?_
  · exact ⟨hs.2, ⟨hs.1.substitutions, hs.1.components, hs.1.closures, trivial⟩, rfl⟩
  subst hpending
  exact hrest.bind fun rest hrest => .pure (forall_mem_cons.2 ⟨hs, hrest⟩)

end DataParallel
