import DataParallel.Proofs.Reading.Units

/-! Definite assignment.

Control reaches a statement along many paths, and different names have been assigned on them. What
has been assigned on all of them can be told block by block, without a look at the paths: a bind
assigns its targets, a branch what both of its blocks assign, a loop nothing, and nothing is reached
behind a return. -/

namespace DataParallel

open List

namespace Stmt

variable {s t : Stmt} {A A' B Q : String → Prop} {block rest : List Stmt} {check : (String → Prop) → Stmt → Prop}

def reads : Stmt → List String
  | .bind _ value | .ret value => value.names
  | .branch test _ _ | .loop test _ => test.names
  | _ => []

def ownNames : Stmt → List String
  | .branch test _ _ | .loop test _ => test.names
  | s => s.names

theorem ownNames_of_reads {z : String} (h : z ∈ s.reads) : z ∈ s.ownNames := by
  cases s with
  | bind => exact mem_append_right _ h
  | ret | branch | loop => exact h
  | _ => cases h

/-- A path through a block, with the names that have been assigned in front of it and behind it.
Tests may go either way. -/
inductive Passes : (String → Prop) → List Stmt → (String → Prop) → Prop where
  | nil {A : String → Prop} : Passes A [] A
  | bind {A A' : String → Prop} {target value : Expr} {rest : List Stmt} :
    Passes (Name.Also A target.names) rest A' → Passes A (.bind target value :: rest) A'
  | branch {A A₁ A' : String → Prop} (way : Bool) {test : Expr} {whenTrue whenFalse rest : List Stmt} :
    Passes A (if way then whenTrue else whenFalse) A₁ → Passes A₁ rest A' →
    Passes A (.branch test whenTrue whenFalse :: rest) A'
  | loopEnd {A A' : String → Prop} {test : Expr} {body rest : List Stmt} :
    Passes A rest A' → Passes A (.loop test body :: rest) A'
  | loopStep {A A₁ A' : String → Prop} {test : Expr} {body rest : List Stmt} :
    Passes A body A₁ → Passes A₁ (.loop test body :: rest) A' → Passes A (.loop test body :: rest) A'
  | define {A A' : String → Prop} {s : Stmt} {rest : List Stmt} :
    s.isDefinition = true → Passes A rest A' → Passes A (s :: rest) A'

/-- `Reaches A block A' t`: a path from the start of a block, where `A` has been assigned, comes to
the statement `t` with `A'` assigned. -/
inductive Reaches : (String → Prop) → List Stmt → (String → Prop) → Stmt → Prop where
  | here {A : String → Prop} {s : Stmt} {rest : List Stmt} : Reaches A (s :: rest) A s
  | later {A A₁ A' : String → Prop} {s t : Stmt} {rest : List Stmt} :
    Passes A [s] A₁ → Reaches A₁ rest A' t → Reaches A (s :: rest) A' t
  | branch {A A' : String → Prop} (way : Bool) {t : Stmt} {test : Expr} {whenTrue whenFalse rest : List Stmt} :
    Reaches A (if way then whenTrue else whenFalse) A' t → Reaches A (.branch test whenTrue whenFalse :: rest) A' t
  | trip {A A' : String → Prop} {t : Stmt} {test : Expr} {body rest : List Stmt} :
    Reaches A body A' t → Reaches A (.loop test body :: rest) A' t
  | again {A A₁ A' : String → Prop} {t : Stmt} {test : Expr} {body rest : List Stmt} :
    Passes A body A₁ → Reaches A₁ (.loop test body :: rest) A' t → Reaches A (.loop test body :: rest) A' t

mutual

/-- What has been assigned behind a statement on every path, if `A` has been in front of it. -/
def assigned (A : String → Prop) : Stmt → String → Prop
  | .bind target _ => Name.Also A target.names
  | .ret _ => fun _ => True
  | .branch _ whenTrue whenFalse => fun z => assignedAll A whenTrue z ∧ assignedAll A whenFalse z
  | _ => A

def assignedAll (A : String → Prop) : List Stmt → String → Prop
  | [] => A
  | s :: rest => assignedAll (assigned A s) rest

end

mutual

/-- Every statement meets `check`, given what has been assigned in front of it on every path. -/
def Always (check : (String → Prop) → Stmt → Prop) (A : String → Prop) : Stmt → Prop
  | .branch test whenTrue whenFalse =>
    check A (.branch test whenTrue whenFalse) ∧ AlwaysAll check A whenTrue ∧ AlwaysAll check A whenFalse
  | .loop test body => check A (.loop test body) ∧ AlwaysAll check A body
  | s => check A s

def AlwaysAll (check : (String → Prop) → Stmt → Prop) (A : String → Prop) : List Stmt → Prop
  | [] => True
  | s :: rest => Always check A s ∧ AlwaysAll check (assigned A s) rest

end

def Reads (A : String → Prop) (s : Stmt) : Prop := ∀ z ∈ s.reads, A z

section Assigned
variable {out : List Stmt} {check' check'' : (String → Prop) → Stmt → Prop}

theorem assignedAll_mono (hAB : ∀ z, A z → B z) :
    ∀ z, assignedAll A block z → assignedAll B block z := by
  induction block using block_induction generalizing A B with
  | nil => exact hAB
  | cons s rest ihs ih =>
    refine ih fun z hz => ?_
    cases s with
    | bind => exact hz.imp_left (hAB z)
    | ret => trivial
    | branch => exact ⟨ihs _ (by simp [suites]) hAB z hz.1, ihs _ (by simp [suites]) hAB z hz.2⟩
    | _ => exact hAB z hz

theorem subset_assignedAll (block : List Stmt) (z : String) (hz : A z) : assignedAll A block z := by
  induction block using block_induction generalizing A with
  | nil => exact hz
  | cons s rest ihs ih =>
    refine ih ?_
    cases s with
    | bind => exact .inl hz
    | ret => trivial
    | branch => exact ⟨ihs _ (by simp [suites]) hz, ihs _ (by simp [suites]) hz⟩
    | _ => exact hz

theorem assignedAll_append :
    assignedAll A (block ++ rest) = assignedAll (assignedAll A block) rest := by
  induction block generalizing A with
  | nil => rfl
  | cons s block ih => exact ih

theorem alwaysAll_append :
    AlwaysAll check A (block ++ rest) ↔ AlwaysAll check A block ∧ AlwaysAll check (assignedAll A block) rest := by
  induction block generalizing A with
  | nil => simp [AlwaysAll, assignedAll]
  | cons s block ih => simp [AlwaysAll, assignedAll, ih, and_assoc]

theorem alwaysAll_cons : AlwaysAll check A (s :: rest) ↔
    check A s ∧ (∀ inner ∈ s.blocks, AlwaysAll check A inner) ∧ AlwaysAll check (assigned A s) rest := by
  cases s <;> simp [AlwaysAll, Always, blocks, and_assoc]

theorem mem_names_iff {z : String} :
    z ∈ s.names ↔ z ∈ s.ownNames ∨ ∃ inner ∈ s.blocks, z ∈ namesAll inner := by
  cases s <;> simp [ownNames, blocks]

theorem AlwaysAll.zip (h : AlwaysAll check A block) (h' : AlwaysAll check' A block)
    (hboth : ∀ {A s}, check A s → check' A s → check'' A s) : AlwaysAll check'' A block := by
  induction block using block_induction generalizing A with
  | nil => trivial
  | cons s rest ihs ih =>
    obtain ⟨hs, hinner, hrest⟩ := alwaysAll_cons.1 h
    obtain ⟨hs', hinner', hrest'⟩ := alwaysAll_cons.1 h'
    exact alwaysAll_cons.2
      ⟨hboth hs hs', fun inner hmem => ihs inner (mem_suites hmem) (hinner inner hmem) (hinner' inner hmem),
      ih hrest hrest'⟩

theorem AlwaysAll.imp (h : AlwaysAll check A block)
    (himp : ∀ {A B s}, (∀ z, A z → B z) → check A s → check' B s)
    (hAB : ∀ z, A z → B z) : AlwaysAll check' B block := by
  induction block using block_induction generalizing A B with
  | nil => trivial
  | cons s rest ihs ih =>
    obtain ⟨hs, hinner, hrest⟩ := alwaysAll_cons.1 h
    exact alwaysAll_cons.2 ⟨himp hAB hs, fun inner hmem => ihs inner (mem_suites hmem) (hinner inner hmem) hAB,
      ih hrest (@assignedAll_mono _ _ [s] hAB)⟩

theorem alwaysAll_names :
    AlwaysAll (fun _ s => ∀ z ∈ s.ownNames, Q z) A block ↔ ∀ z ∈ namesAll block, Q z := by
  induction block using block_induction generalizing A with
  | nil => simp [AlwaysAll]
  | cons s rest ihs ih =>
    rw [alwaysAll_cons, ih]
    simp only [namesAll, mem_append, mem_names_iff]
    refine ⟨?_, fun h =>
      ⟨fun z hz => h z (.inl (.inl hz)), fun inner hmem => (ihs inner (mem_suites hmem)).2 fun z hz =>
      h z (.inl (.inr ⟨inner, hmem, hz⟩)), fun z hz => h z (.inr hz)⟩⟩
    rintro ⟨hs, hinner, hrest⟩ z ((hz | ⟨inner, hmem, hz⟩) | hz)
    · exact hs z hz
    · exact (ihs inner (mem_suites hmem)).1 (hinner inner hmem) z hz
    · exact hrest z hz

theorem Reads.mono (h : s.Reads A) (hAB : ∀ z, A z → B z) : s.Reads B := fun z hz => hAB z (h z hz)

theorem AlwaysAll.mono (h : AlwaysAll Reads A block) (hAB : ∀ z, A z → B z) :
    AlwaysAll Reads B block :=
  h.imp (fun hAB h => h.mono hAB) hAB

end Assigned

section Paths
variable {F : (String → Prop) → Prop}

theorem Passes.assigned (h : Passes A block A') (hAB : ∀ z, B z → A z) :
    ∀ z, assignedAll B block z → A' z := by
  induction h generalizing B with
  | nil => exact hAB
  | bind _ ih => exact ih fun z hz => hz.imp_left (hAB z)
  | branch way _ _ ihb ih =>
    refine ih fun z hz => ?_
    cases way with
    | true => exact ihb hAB z hz.1
    | false => exact ihb hAB z hz.2
  | loopEnd _ ih => exact ih hAB
  | @loopStep _ _ _ _ body _ _ _ ihb ih => exact ih fun z hz => ihb hAB z (subset_assignedAll body z hz)
  | @define _ _ s _ hs _ ih =>
    cases s with
    | bind => cases hs
    | ret => cases hs
    | branch => cases hs
    | loop => cases hs
    | _ => exact ih hAB

theorem Reaches.meets (h : Reaches A block A' t) (hblock : AlwaysAll check B block)
    (hmono : ∀ {A B s}, (∀ z, A z → B z) → check A s → check B s) (hAB : ∀ z, B z → A z) : check A' t := by
  induction h generalizing B with
  | here => exact hmono hAB (alwaysAll_cons.1 hblock).1
  | later hs _ ih => exact ih hblock.2 (hs.assigned hAB)
  | branch way _ ih =>
    cases way with
    | true => exact ih hblock.1.2.1 hAB
    | false => exact ih hblock.1.2.2 hAB
  | trip _ ih => exact ih hblock.1.2 hAB
  | again hbody _ ih => exact ih hblock fun z hz => hbody.assigned hAB z (subset_assignedAll _ z hz)

theorem Passes.append (h : Passes A block B) (h' : Passes B rest A') :
    Passes A (block ++ rest) A' := by
  induction h with
  | nil => exact h'
  | bind _ ih => exact .bind (ih h')
  | branch way hb _ _ ih => exact .branch way hb (ih h')
  | loopEnd _ ih => exact .loopEnd (ih h')
  | loopStep hb _ _ ih => exact .loopStep hb (ih h')
  | define hs _ ih => exact .define hs (ih h')

theorem Passes.split (h : Passes A (s :: rest) A') : ∃ B, Passes A [s] B ∧ Passes B rest A' := by
  generalize hblock : s :: rest = block at h
  induction h with
  | nil => cases hblock
  | bind h => cases hblock; exact ⟨_, .bind .nil, h⟩
  | branch way hb h => cases hblock; exact ⟨_, .branch way hb .nil, h⟩
  | loopEnd h => cases hblock; exact ⟨_, .loopEnd .nil, h⟩
  | loopStep hb _ _ ih =>
    obtain ⟨B, hloop, hrest⟩ := ih hblock
    cases hblock
    exact ⟨B, .loopStep hb hloop, hrest⟩
  | define hs h => cases hblock; exact ⟨_, .define hs .nil, h⟩

theorem Reaches.inside {inner : List Stmt} (hmem : inner ∈ s.blocks) (h : Reaches A inner A' t) :
    Reaches A (s :: rest) A' t := by
  cases s with
  | branch =>
    rcases mem_cons.1 hmem with rfl | hmem
    · exact .branch true h
    · cases mem_singleton.1 hmem
      exact .branch false h
  | loop =>
    cases mem_singleton.1 hmem
    exact .trip h
  | _ => cases hmem

def Common (F : (String → Prop) → Prop) (z : String) : Prop := ∀ A, F A → A z

/-- Where paths through a block end that start with one of some sets assigned. -/
def Ends (F : (String → Prop) → Prop) (block : List Stmt) (A' : String → Prop) : Prop := ∃ A, F A ∧ Passes A block A'

theorem common_ends_cons : Common (Ends F (s :: rest)) = Common (Ends (Ends F [s]) rest) := by
  funext z
  refine propext ⟨?_, ?_⟩
  · rintro h A' ⟨B, ⟨A, hA, hs⟩, hrest⟩
    exact h A' ⟨A, hA, hs.append hrest⟩
  · rintro h A' ⟨A, hA, hpass⟩
    obtain ⟨B, hs, hrest⟩ := hpass.split
    exact h A' ⟨B, ⟨A, hA, hs⟩, hrest⟩

theorem common_ends_define (hs : s.isDefinition = true) : Common (Ends F [s]) = Common F := by
  funext z
  refine propext ⟨fun h A hA => h A ⟨A, hA, .define hs .nil⟩, ?_⟩
  rintro h A' ⟨A, hA, hpass⟩
  cases hpass with
  | define _ hnil => cases hnil; exact h _ hA
  | _ => cases hs

theorem assignedAll_common : assignedAll (Common F) block = Common (Ends F block) := by
  induction block using block_induction generalizing F with
  | nil =>
    funext z
    refine propext ⟨?_, fun h A hA => h A ⟨A, hA, .nil⟩⟩
    rintro h A' ⟨A, hA, hpass⟩
    cases hpass
    exact h A' hA
  | cons s rest ihs ih =>
    rw [common_ends_cons, ← ih]
    refine congrArg (assignedAll · rest) (funext fun z => ?_)
    cases s with
    | bind target value =>
      refine propext ⟨?_, fun h => ?_⟩
      · rintro h A' ⟨A, hA, hpass⟩
        cases hpass with
        | bind hnil => cases hnil; exact h.imp_left fun h => h A hA
        | define hs => cases hs
      · by_cases hz : z ∈ target.names
        · exact .inr hz
        · exact .inl fun A hA => (h _ ⟨A, hA, .bind .nil⟩).resolve_right hz
    | ret =>
      refine propext ⟨?_, fun _ => trivial⟩
      rintro - A' ⟨A, hA, hpass⟩
      cases hpass with
      | define hs => cases hs
    | branch test whenTrue whenFalse =>
      rw [assigned, ihs whenTrue (by simp [suites]), ihs whenFalse (by simp [suites])]
      refine propext ⟨?_, fun h => ⟨?_, ?_⟩⟩
      · rintro ⟨htrue, hfalse⟩ A' ⟨A, hA, hpass⟩
        cases hpass with
        | branch way hb hnil =>
          cases hnil
          cases way with
          | true => exact htrue A' ⟨A, hA, hb⟩
          | false => exact hfalse A' ⟨A, hA, hb⟩
        | define hs => cases hs
      · rintro A' ⟨A, hA, hb⟩
        exact h A' ⟨A, hA, .branch true hb .nil⟩
      · rintro A' ⟨A, hA, hb⟩
        exact h A' ⟨A, hA, .branch false hb .nil⟩
    | loop =>
      refine propext ⟨?_, fun h A hA => h A ⟨A, hA, .loopEnd .nil⟩⟩
      rintro h A' ⟨A, hA, hpass⟩
      exact hpass.assigned (fun _ hz => hz) z (subset_assignedAll _ z (h A hA))
    | _ => rw [common_ends_define rfl]; rfl

theorem alwaysAll_common
    (hcommon : ∀ {F : (String → Prop) → Prop} {s : Stmt}, (∀ A, F A → check A s) → check (Common F) s)
    (h : ∀ A, F A → ∀ {A' t}, Reaches A block A' t → check A' t) : AlwaysAll check (Common F) block := by
  induction block using block_induction generalizing F with
  | nil => trivial
  | cons s rest ihs ih =>
    refine alwaysAll_cons.2 ⟨hcommon fun A hA => h A hA .here, fun inner hmem => ihs inner (mem_suites hmem)
      fun A hA _ _ hreach => h A hA (hreach.inside hmem), ?_⟩
    rw [show assigned (Common F) s = _ from @assignedAll_common [s] F]
    refine ih ?_
    rintro B ⟨A, hA, hs⟩ _ _ hreach
    exact h A hA (.later hs hreach)

/-- Every path reads what was assigned on it exactly if every statement reads what was assigned on
all paths. -/
theorem reads_iff : AlwaysAll Reads A block ↔ ∀ A' t, Reaches A block A' t → t.Reads A' := by
  refine ⟨fun h A' t hreach => hreach.meets h (fun hAB h => h.mono hAB) fun _ hz => hz, fun h => ?_⟩
  have hone : Common (· = A) = A := by
    funext z
    exact propext ⟨fun h => h A rfl, fun hz B hB => hB ▸ hz⟩
  rw [← hone]
  refine alwaysAll_common (fun {F s} (h : ∀ A, F A → s.Reads A) z hz A hA => h A hA z hz)
    fun B hB A' t hreach => ?_
  cases hB
  exact h A' t hreach

end Paths

mutual

@[reducible] def decidableAssigned {A : String → Prop} (hA : DecidablePred A) : ∀ s : Stmt, DecidablePred (assigned A s)
  | .bind target _ => fun z => inferInstanceAs (Decidable (A z ∨ z ∈ target.names))
  | .ret _ => fun _ => isTrue trivial
  | .branch _ whenTrue whenFalse => fun z =>
    @instDecidableAnd _ _ (decidableAssignedAll hA whenTrue z) (decidableAssignedAll hA whenFalse z)
  | .loop .. | .procedure .. | .structDef .. | .typedef .. | .namespaceDef .. | .header .. | .declare _ => hA

@[reducible] def decidableAssignedAll {A : String → Prop} (hA : DecidablePred A) :
    ∀ block : List Stmt, DecidablePred (assignedAll A block)
  | [] => hA
  | s :: rest => decidableAssignedAll (decidableAssigned hA s) rest

end

mutual

@[reducible] def decidableAlways {check : (String → Prop) → Stmt → Prop}
    (hcheck : ∀ A, DecidablePred A → DecidablePred (check A))
    {A : String → Prop} (hA : DecidablePred A) : ∀ s : Stmt, Decidable (Always check A s)
  | .branch test whenTrue whenFalse =>
    @instDecidableAnd _ _ (hcheck A hA (.branch test whenTrue whenFalse))
      (@instDecidableAnd _ _ (decidableAlwaysAll hcheck hA whenTrue) (decidableAlwaysAll hcheck hA whenFalse))
  | .loop test body => @instDecidableAnd _ _ (hcheck A hA (.loop test body)) (decidableAlwaysAll hcheck hA body)
  | .bind target value => hcheck A hA (.bind target value)
  | .ret value => hcheck A hA (.ret value)
  | .procedure name parameters body => hcheck A hA (.procedure name parameters body)
  | .structDef name binders body => hcheck A hA (.structDef name binders body)
  | .typedef layout name => hcheck A hA (.typedef layout name)
  | .namespaceDef name body => hcheck A hA (.namespaceDef name body)
  | .header path system => hcheck A hA (.header path system)
  | .declare value => hcheck A hA (.declare value)

@[reducible] def decidableAlwaysAll {check : (String → Prop) → Stmt → Prop}
    (hcheck : ∀ A, DecidablePred A → DecidablePred (check A))
    {A : String → Prop} (hA : DecidablePred A) : ∀ block : List Stmt, Decidable (AlwaysAll check A block)
  | [] => isTrue trivial
  | s :: rest =>
    @instDecidableAnd _ _ (decidableAlways hcheck hA s) (decidableAlwaysAll hcheck (decidableAssigned hA s) rest)

end

instance {A : String → Prop} [hA : DecidablePred A] {block : List Stmt} : Decidable (AlwaysAll Reads A block) :=
  decidableAlwaysAll (fun A _ s => inferInstanceAs (Decidable (∀ z ∈ s.reads, A z))) hA block

end Stmt

end DataParallel
