import DataParallel.Proofs.Assignment
import DataParallel.Proofs.HostArguments
import DataParallel.Proofs.PhaseMeaning
import DataParallel.Proofs.Stages

/-! Lowering keeps definite assignment.

The binds that a step adds read what has been assigned in front of them. Storage is the exception:
whether there is some is told by its name, on whatever path it was bound. It is read where something
is handed back, so there the storage of every view that has been assigned must have been assigned as
well. -/

namespace DataParallel

open DataParallel.Expr List Name Phases.State Procedure Stmt

variable {A B G N N' : String → Prop} {binds block flat out stored : List Stmt} {entry symbol z : String}
  {names parameters : List String} {p p' : Procedure} {isEntry : Bool}

namespace Stmt

theorem assignedAll_laid : assignedAll A (laidAll block) = assignedAll A block := by
  induction block using block_induction generalizing A with
  | nil => rfl
  | cons s rest ihs ih =>
    refine ih.trans (congrArg (assignedAll · rest) ?_)
    cases s with
    | bind => exact congrArg (Name.Also A) (Expr.names_laid _)
    | branch whenTrue whenFalse =>
      rw [laid, assigned, assigned, ihs _ (by simp [suites]), ihs _ (by simp [suites])]
    | _ => rfl

theorem reads_laid (s : Stmt) : s.laid.Reads A ↔ s.Reads A := by
  have hreads : s.laid.reads = s.reads := by
    cases s with
    | bind | ret | branch | loop => exact Expr.names_laid _
    | _ => rfl
  rw [Reads, Reads, hreads]

theorem alwaysAll_laid (h : AlwaysAll Reads A block) : AlwaysAll Reads A (laidAll block) := by
  induction block using block_induction generalizing A with
  | nil => trivial
  | cons s rest ihs ih =>
    have hs := (reads_laid s).2 (alwaysAll_cons.1 h).1
    refine ⟨?_, by rw [show assigned A s.laid = assigned A s from @assignedAll_laid A [s]]; exact ih h.2⟩
    cases s with
    | branch => exact ⟨hs, ihs _ (by simp [suites]) h.1.2.1, ihs _ (by simp [suites]) h.1.2.2⟩
    | loop => exact ⟨hs, ihs _ (by simp [suites]) h.1.2⟩
    | _ => exact hs

section Tuples
variable {xs : List String}

theorem HasTuples.mono (h : HasTuples B) (hBA : ∀ z, B z → A z) : HasTuples A :=
  ⟨hBA _ h.tuple, fun index => hBA _ (h.project index)⟩

theorem ReadsOnly.reads {e : Expr} (h : e.ReadsOnly N G) (hN : ∀ z, N z → A z)
    (hG : ∀ z, G z → A z) : ∀ z ∈ e.names, A z :=
  (h.imp hN hG).names fun _ hz => hz

theorem Spreads.assigned (h : Spreads G N xs out) (hN : ∀ z, N z → A z) (hG : ∀ z, G z → A z) :
    AlwaysAll Reads A out ∧ ∀ z, Also A xs z → assignedAll A out z := by
  induction h generalizing A with
  | nil => exact ⟨trivial, fun z hz => hz.resolve_right not_mem_nil⟩
  | @target _ _ _ target _ _ hx hvalue _ ih =>
    obtain ⟨hrest, hassigned⟩ := @ih (Also A target.names) (fun z hz => .inl (hN z hz)) fun z hz => .inl (hG z hz)
    refine ⟨⟨ReadsOnly.reads hvalue hN hG, hrest⟩, fun z hz => hassigned z ?_⟩
    rw [names_of_symbol hx]
    rcases hz with hz | hz
    · exact .inl (.inl hz)
    · exact (mem_cons.1 hz).imp (fun hz => .inr (mem_singleton.2 hz)) id
  | @temporary _ _ _ target _ _ hx hvalue _ ih =>
    obtain ⟨hrest, hassigned⟩ := @ih (Also A target.names)
      (fun z hz => hz.imp (hN z) fun hz => by rw [names_of_symbol hx]; exact mem_singleton.2 hz)
      fun z hz => .inl (hG z hz)
    exact ⟨⟨ReadsOnly.reads hvalue hN hG, hrest⟩, fun z hz => hassigned z (hz.imp_left .inl)⟩

theorem FlattensTo.assigned (h : FlattensTo block out) (hA : HasTuples A)
    (hblock : AlwaysAll Reads B block)
    (hBA : ∀ z, B z → A z) : AlwaysAll Reads A out ∧ ∀ z, assignedAll B block z → assignedAll A out z := by
  induction h generalizing A B with
  | nil => exact ⟨trivial, hBA⟩
  | @bind _ _ _ first _ hspreads _ ih =>
    obtain ⟨hfirst, hassigned⟩ :=
      (hspreads A A hA (.of_names (fun _ hz => hz) fun z hz => hBA z (hblock.1 z hz))).assigned
      (fun _ hz => hz) fun _ hz => hz
    obtain ⟨hrest, hassigned'⟩ := @ih (assignedAll A first) _ (hA.mono (subset_assignedAll first)) hblock.2
      fun z hz => hassigned z (hz.imp_left (hBA z))
    refine ⟨alwaysAll_append.2 ⟨hfirst, hrest⟩, fun z hz => ?_⟩
    rw [assignedAll_append]
    exact hassigned' z hz
  | ret _ ih =>
    obtain ⟨hrest, hassigned⟩ := @ih (fun _ => True) _ ⟨trivial, fun _ => trivial⟩ hblock.2 fun _ _ => trivial
    exact ⟨⟨fun z hz => hBA z (hblock.1 z hz), hrest⟩, hassigned⟩
  | @branch test _ whenTrue' _ whenFalse' _ _ _ _ _ iht ihf ih =>
    obtain ⟨ht, hassigned⟩ := iht hA hblock.1.2.1 hBA
    obtain ⟨hf, hassigned'⟩ := ihf hA hblock.1.2.2 hBA
    obtain ⟨hrest, hassigned''⟩ := ih (hA.mono (subset_assignedAll [.branch test whenTrue' whenFalse'])) hblock.2
      fun z hz => ⟨hassigned z hz.1, hassigned' z hz.2⟩
    exact ⟨⟨⟨fun z hz => hBA z (hblock.1.1 z hz), ht, hf⟩, hrest⟩, hassigned''⟩
  | loop _ _ ihb ih =>
    obtain ⟨hrest, hassigned⟩ := ih hA hblock.2 hBA
    exact ⟨⟨⟨fun z hz => hBA z (hblock.1.1 z hz), (ihb hA hblock.1.2 hBA).1⟩, hrest⟩, hassigned⟩

end Tuples

def CallsApart (symbol : String) (_ : String → Prop) (s : Stmt) : Prop :=
  ∀ target value, s = .bind target value → ∀ w, target.symbol? = some (container w) → value.callee? ≠ some symbol

end Stmt

namespace Containers
variable {S : String → Prop}

theorem Stores.assigned (h : Stores S block out) (hA : A Snippet.makeTuple)
    (hS : ∀ w, S w → A (container w)) (hblock : AlwaysAll Reads B block) (hBA : ∀ z, B z → A z) :
    AlwaysAll Reads A out ∧ ∀ z, assignedAll B block z → assignedAll A out z := by
  induction h generalizing A B with
  | nil => exact ⟨trivial, hBA⟩
  | bind _ ih =>
    obtain ⟨hrest, hassigned⟩ := ih (.inl hA) (fun w hw => .inl (hS w hw)) hblock.2 fun z hz => hz.imp_left (hBA z)
    exact ⟨⟨fun z hz => hBA z (hblock.1 z hz), hrest⟩, hassigned⟩
  | @view _ _ y target _ storage _ _ _ _ _ _ hstored _ hs' _ ih =>
    obtain ⟨hrest, hassigned⟩ := @ih (Also (Also A storage.names) target.names) _ (.inl (.inl hA))
      (fun w hw => .inl (.inl (hS w hw))) hblock.2 fun z hz => hz.imp_left fun hz => .inl (hBA z hz)
    refine ⟨⟨fun z hz => ?_, fun z hz => .inl (hBA z (hblock.1 z hz)), hrest⟩, hassigned⟩
    rw [reads, names_of_symbol hs', mem_singleton] at hz
    exact hz ▸ hS y hstored
  | @tuple S x target storage function arguments arguments' typing typing' rest out hx hs hf hstored _ ih =>
    obtain ⟨hrest, hassigned⟩ := @ih (Also (Also A target.names) storage.names) _ (.inl (.inl hA))
      (fun w hw => hw.elim (fun hw => .inl (.inl (hS w hw))) fun hw => .inr (by
        rw [names_of_symbol hs, mem_singleton.1 hw]; exact mem_singleton.2 rfl))
      hblock.2 fun z hz => .inl (hz.imp_left (hBA z))
    refine ⟨⟨fun z hz => hBA z (hblock.1 z hz), fun z hz => .inl ?_, hrest⟩, hassigned⟩
    rcases names_applySnippet.1 hz with rfl | hz
    · exact hA
    · rcases names_of_storedAs hstored z hz with hz | ⟨w, hw, rfl⟩
      · exact hBA z (hblock.1 z (mem_append_right _ hz))
      · exact hS w hw
  | ret _ ih =>
    obtain ⟨hrest, hassigned⟩ := @ih (fun _ => True) _ trivial (fun _ _ => trivial) hblock.2 fun _ _ => trivial
    exact ⟨⟨fun z hz => hBA z (hblock.1 z hz), hrest⟩, hassigned⟩
  | @branch _ test _ whenTrue' _ whenFalse' _ _ _ _ _ iht ihf ih =>
    obtain ⟨ht, hassigned⟩ := iht hA hS hblock.1.2.1 hBA
    obtain ⟨hf, hassigned'⟩ := ihf hA hS hblock.1.2.2 hBA
    have hsubset : ∀ z, A z → assignedAll A [.branch test whenTrue' whenFalse'] z := subset_assignedAll _
    obtain ⟨hrest, hassigned''⟩ := ih (hsubset _ hA) (fun w hw => hsubset _ (hS w hw)) hblock.2
      fun z hz => ⟨hassigned z hz.1, hassigned' z hz.2⟩
    exact ⟨⟨⟨fun z hz => hBA z (hblock.1.1 z hz), ht, hf⟩, hrest⟩, hassigned''⟩
  | loop _ _ ihb ih =>
    obtain ⟨hrest, hassigned⟩ := ih hA hS hblock.2 hBA
    exact ⟨⟨⟨fun z hz => hBA z (hblock.1.1 z hz), (ihb hA hS hblock.1.2 hBA).1⟩, hrest⟩, hassigned⟩

theorem Stores.subset (h : Stores S block out) : ∀ z ∈ namesAll block, z ∈ namesAll out := by
  induction h with
  | nil => exact fun _ hz => hz
  | _ =>
    intro z hz
    simp only [Stmt.namesAll, Stmt.names, mem_append] at hz ⊢
    grind

theorem Stores.callsApart (h : Stores S block out) (hsymbol : symbol ≠ Snippet.makeTuple)
    (hviews : ∀ z ∈ namesAll block, IsView z) : AlwaysAll (CallsApart symbol) A out := by
  have hview : ∀ (A : String → Prop) {target value : Expr}, (∀ z ∈ target.names, IsView z) →
      CallsApart symbol A (.bind target value) := by
    rintro A target value hviews _ _ ⟨⟩ w hw
    exact absurd rfl (hviews (container w) (by simp [names_of_symbol hw]) w)
  have hother : ∀ (A : String → Prop) {s : Stmt}, (∀ target value, s ≠ .bind target value) → CallsApart symbol A s :=
    fun _ _ hs _ _ heq => absurd heq (hs _ _)
  induction h generalizing A with
  | nil => trivial
  | bind _ ih =>
    exact ⟨hview A fun z hz => hviews z (by simp [hz]), ih fun z hz => hviews z (mem_append_right _ hz)⟩
  | view _ _ _ _ _ hs' _ ih =>
    refine ⟨?_, hview A fun z hz => hviews z (by simp [hz]), ih fun z hz => hviews z (mem_append_right _ hz)⟩
    rintro _ _ ⟨⟩ w -
    rw [callee?_of_symbol hs']
    exact nofun
  | tuple _ _ _ _ _ ih =>
    refine ⟨hview A fun z hz => hviews z (by simp [hz]), ?_, ih fun z hz => hviews z (mem_append_right _ hz)⟩
    rintro _ _ ⟨⟩ w - hcallee
    exact hsymbol (Option.some.inj hcallee).symm
  | ret _ ih => exact ⟨hother A nofun, ih fun z hz => hviews z (mem_append_right _ hz)⟩
  | branch _ _ _ iht ihf ih =>
    exact ⟨⟨hother A nofun, iht fun z hz => hviews z (by simp [hz]), ihf fun z hz => hviews z (by simp [hz])⟩,
      ih fun z hz => hviews z (mem_append_right _ hz)⟩
  | loop _ _ ihb ih =>
    exact ⟨⟨hother A nofun, ihb fun z hz => hviews z (by simp [hz])⟩, ih fun z hz => hviews z (mem_append_right _ hz)⟩

end Containers

/-- What holds of every statement in front of phase analysis and behind it, where `names` has the
names of the procedure and the storage that it is supplied with. -/
structure Stmt.Guarded (names : List String) (symbol : String) (A : String → Prop) (s : Stmt) : Prop where
  reads : s.Reads A
  covered : ∀ z ∈ s.ownNames, Phases.Covered (Backed names) z
  storage : ∀ value, s = .ret value → ∀ w, Backed names w → A w → A (container w)
  apart : s.CallsApart symbol A

namespace Phases

variable {results : List (Expr × Completion)} {st : Stmt} {rest : List Stmt} {Γ : Context}
  {s s' : State} {y : String}

def Within (names : List String) (A : String → Prop) (z : String) : Prop := A z ∧ Covered (Backed names) z

theorem Within.mono (hAB : ∀ z, A z → B z) (z : String) (h : Within names A z) :
    Within names B z := ⟨hAB z h.1, h.2⟩

theorem covered_drawn (h : IsDrawn y) : Covered (Backed names) y :=
  fun w hw => absurd (hw ▸ h) (container_not_drawn w)

theorem DrawnFor.isDrawn (h : DrawnFor N y) : IsDrawn y := by
  rcases h with ⟨n, rfl⟩ | ⟨x, n, -, rfl⟩
  · exact .inr ⟨n, rfl⟩
  · exact .inl ⟨x, n, rfl⟩

theorem Binds.guarded (h : Stmt.Binds DrawnFor G N binds N') (hN : ∀ z, N z → Within names A z)
    (hG : ∀ z, G z → Within names A z) : AlwaysAll (Guarded names symbol) A binds ∧
      (∀ z, N' z → Within names (assignedAll A binds) z) ∧
      ∀ z, assignedAll A binds z → A z ∨ IsDrawn z := by
  induction h generalizing A with
  | nil => exact ⟨trivial, hN, fun _ hz => .inl hz⟩
  | @cons _ _ _ target value _ hy hdrawn hvalue _ ih =>
    have hreads : ∀ z ∈ value.names, Within names A z := (hvalue.imp hN hG).names fun _ hz => hz
    have htarget : ∀ z ∈ target.names, IsDrawn z := by
      rw [names_of_symbol hy]
      intro z hz
      exact mem_singleton.1 hz ▸ hdrawn.isDrawn
    obtain ⟨hrest, hN', hassigned⟩ := @ih (Also A target.names) (fun z hz => by
        rcases hz with hz | rfl
        · exact Within.mono (fun _ => .inl) z (hN z hz)
        · exact ⟨.inr (by simp [names_of_symbol hy]), covered_drawn hdrawn.isDrawn⟩)
      fun z hz => Within.mono (fun _ => .inl) z (hG z hz)
    refine ⟨⟨⟨fun z hz => (hreads z hz).1, fun z hz => ?_, nofun, ?_⟩, hrest⟩, hN', fun z hz => ?_⟩
    · rcases mem_append.1 hz with hz | hz
      · exact covered_drawn (htarget z hz)
      · exact (hreads z hz).2
    · rintro _ _ ⟨⟩ w hw
      exact absurd (htarget (Name.container w) (by simp [names_of_symbol hw])) (container_not_drawn w)
    · rcases hassigned z hz with (hz | hz) | hz
      · exact .inl hz
      · exact .inr (htarget z hz)
      · exact .inr hz

structure Assigns (names : List String) (symbol : String) (A : String → Prop) (results : List (Expr × Completion))
    (binds : List Stmt) (s' : State) : Prop where
  guarded : AlwaysAll (Guarded names symbol) A binds
  drawn : ∀ z, assignedAll A binds z → A z ∨ IsDrawn z
  tables : s'.ReadsOnly (Within names (assignedAll A binds)) (Within names (assignedAll A binds)) (Backed names)
  results : ∀ r ∈ results, ∀ z ∈ r.1.names, Within names (assignedAll A binds) z

/-- What can be read by the binds of a task. -/
structure Provided (A : String → Prop) : Prop where
  boundary : A Snippet.phaseBoundary
  tuple : A Snippet.makeTuple

theorem Provided.mono (h : Provided A) (hAB : ∀ z, A z → B z) :
    Provided B := ⟨hAB _ h.boundary, hAB _ h.tuple⟩

theorem Derives.assigns {task : Task} (h : Derives Γ task s results binds s') (hplain : Plain names)
    (hA : Provided A) (hstems : s.Stems) (hs : s.ReadsOnly (Within names A) (Within names A) (Backed names))
    (htask : ∀ e ∈ task.exprs, ∀ z ∈ e.names, Within names A z)
    (hstorage : task.returns = true → ∀ w, Backed names w → A w → A (Name.container w)) :
    Assigns names symbol A results binds s' := by
  have hview : ∀ {z : String}, isStorage z = false → Covered (Backed names) z :=
    fun hz w hw => absurd hw (isView_of_not_storage hz w)
  have hreadable : Readable (task.returns = true) (Within names A) (Backed names) fun N =>
      (∀ w, N (Name.container w) → Backed names w) ∧
        (task.returns = true → ∀ w, Backed names w → N w → N (Name.container w)) := by
    refine ⟨⟨hA.boundary, hview (by decide)⟩, ⟨hA.tuple, hview (by decide)⟩,
      fun {N y} hN hy => ⟨fun w hw => ?_, fun hr w hw hN' => ?_⟩,
      fun hN hw => hN.1 _ hw, fun hr hN hw hN' => hN.2 hr _ hw hN'⟩
    · exact hN.1 w (hw.resolve_right fun hw => hy.ne_container w hw.symm)
    · refine .inl (hN.2 hr w hw (hN'.resolve_right ?_))
      intro heq
      exact ((hplain _ hw).2 w rfl).2 (heq ▸ hy.isDrawn)
  have hcontainer : ∀ w, Backed names w → Covered (Backed names) (Name.container w) :=
    fun w hw w' hw' => container_inj hw' ▸ hw
  obtain ⟨N', hbinds, -, hs', hresults⟩ := h.leaves hreadable hstems
    ⟨fun w hw => hw.2 w rfl, fun hr w hw hN => ⟨hstorage hr w hw hN.1, hcontainer w hw⟩⟩ hs
    (fun e he => .of_names (fun _ hz => hz) (htask e he)) id
  obtain ⟨hguarded, hN', hdrawn⟩ := Binds.guarded hbinds (fun _ hz => hz) fun _ hz => hz
  have hsubset : ∀ z, Within names A z → Within names (assignedAll A binds) z :=
    Within.mono (subset_assignedAll binds)
  exact ⟨hguarded, hdrawn, hs'.imp hN' hsubset, fun r hr => ((hresults r hr).imp hN' hsubset).names fun _ hz => hz⟩

/-- What is assigned in an analysed block: `A` has been in front of it, and `B` in front of the
block that it comes from. -/
structure KeepsAssigned (names : List String) (symbol : String) (A B : String → Prop) (block out : List Stmt)
    (s' : State) : Prop where
  guarded : AlwaysAll (Guarded names symbol) A out
  assigned : ∀ z, assignedAll B block z → assignedAll A out z
  drawn : ∀ z, assignedAll A out z → assignedAll B block z ∨ IsDrawn z
  storage : ∀ {w}, s'.completions.contains (Name.container w) = true → Backed names w

theorem KeepsAssigned.cons {st' : Stmt} (hbinds : AlwaysAll (Guarded names symbol) A binds)
    (hst : Always (Guarded names symbol) (assignedAll A binds) st')
    (hrest : KeepsAssigned names symbol (Stmt.assigned (assignedAll A binds) st') (Stmt.assigned B st) rest out s') :
    KeepsAssigned names symbol A B (st :: rest) (binds ++ st' :: out) s' where
  guarded := alwaysAll_append.2 ⟨hbinds, hst, hrest.guarded⟩
  assigned z hz := by
    rw [assignedAll_append]
    exact hrest.assigned z hz
  drawn z hz := by
    rw [assignedAll_append] at hz
    exact hrest.drawn z hz
  storage := hrest.storage

section
variable {value' test' : Expr} {completion : Completion} {s₁ : State}

theorem Assigns.flush (h : Assigns names symbol A results binds s₁) :
    s₁.flush.ReadsOnly (Within names fun _ => True) (Within names fun _ => True) (Backed names) :=
  (h.tables.forget (forgets_flush _) .inl).imp (Within.mono fun _ _ => trivial) (Within.mono fun _ _ => trivial)

theorem Assigns.start (h : Assigns names symbol A results binds s₁) (hA : Provided A)
    (hBA : ∀ z, B z → A z) (hAB : ∀ z, A z → B z ∨ IsDrawn z) : Provided (assignedAll A binds) ∧
      (∀ z, B z → assignedAll A binds z) ∧ (∀ z, assignedAll A binds z → B z ∨ IsDrawn z) ∧
      s₁.flush.ReadsOnly (Within names (assignedAll A binds)) (Within names (assignedAll A binds)) (Backed names) :=
  ⟨hA.mono (subset_assignedAll binds), fun z hz => subset_assignedAll binds z (hBA z hz),
    fun z hz => (h.drawn z hz).elim (hAB z) .inr, h.tables.forget (forgets_flush _) .inl⟩

theorem Assigns.test (h : Assigns names symbol A [(test', completion)] binds s₁)
    (hreads : st.reads = test'.names) (hnames : st.ownNames = test'.names) (hst : ∀ value, st ≠ .ret value)
    (hbind : ∀ target value, st ≠ .bind target value) : st.Guarded names symbol (assignedAll A binds) := by
  have htest := h.results _ mem_cons_self
  exact ⟨fun z hz => (htest z (hreads ▸ hz)).1, fun z hz => (htest z (hnames ▸ hz)).2,
    fun value heq => absurd heq (hst value), fun target value heq => absurd heq (hbind target value)⟩

theorem Assigns.ret {value : Expr} (h : Assigns names symbol A [(value', completion)] binds s₁)
    (hplain : Plain names) (hstorage : ∀ w, Backed names w → A w → A (Name.container w))
    (hrest : KeepsAssigned names symbol (fun _ => True) (fun _ => True) rest out s') :
    KeepsAssigned names symbol A B (.ret value :: rest) (binds ++ .ret value' :: out) s' := by
  have hvalue := h.results _ mem_cons_self
  refine .cons h.guarded ⟨fun z hz => (hvalue z hz).1, fun z hz => (hvalue z hz).2, ?_, nofun⟩ hrest
  rintro _ ⟨⟩ w hw hassigned
  refine subset_assignedAll binds _ (hstorage w hw ((h.drawn w hassigned).resolve_right ?_))
  exact ((hplain _ hw).2 w rfl).2

end

theorem Analyzed.keepsAssigned (h : Analyzed Γ block s out s') (hplain : Plain names)
    (hA : Provided A)
    (hstems : s.Stems) (hs : s.ReadsOnly (Within names A) (Within names A) (Backed names)) (hBA : ∀ z, B z → A z)
    (hAB : ∀ z, A z → B z ∨ IsDrawn z) (hblock : AlwaysAll (Guarded names symbol) B block) :
    KeepsAssigned names symbol A B block out s' := by
  have hread : ∀ {A B : String → Prop} {st : Stmt}, (∀ z, B z → A z) → st.Guarded names symbol B →
      ∀ z ∈ st.reads, Within names A z :=
    fun hBA hst z hz => ⟨hBA z (hst.reads z hz), hst.covered z (ownNames_of_reads hz)⟩
  have hreturn : ∀ {A B : String → Prop} {value : Expr}, (∀ z, B z → A z) → (∀ z, A z → B z ∨ IsDrawn z) →
      (Stmt.ret value).Guarded names symbol B → ∀ w, Backed names w → A w → A (Name.container w) := by
    intro A B value hBA hAB hst w hw hA
    exact hBA _ (hst.storage value rfl w hw ((hAB w hA).resolve_right ((hplain _ hw).2 w rfl).2))
  induction h generalizing A B with
  | nil => exact ⟨trivial, hBA, hAB, hs.storage⟩
  | @bind target _ value' x completion binds _ _ _ s₁ _ hx hd _ ih =>
    have hassigns : Assigns names symbol A [(value', completion)] binds s₁ := hd.assigns hplain hA hstems hs
      (fun e he => mem_singleton.1 he ▸ hread hBA hblock.1) nofun
    have hvalue := hassigns.results _ mem_cons_self
    have hcovered : ∀ z ∈ target.names, Covered (Backed names) z := fun z hz =>
      hblock.1.covered z (mem_append_left _ hz)
    have hrecord : (s₁.record Γ.entry x value' completion).ReadsOnly (Within names (assignedAll A binds))
        (Within names (assignedAll A binds)) (Backed names) :=
      hassigns.tables.record (.of_names (fun _ hz => hz) hvalue) (hcovered x (by simp [names_of_symbol hx]))
    refine .cons hassigns.guarded ⟨fun z hz => (hvalue z hz).1, fun z hz => ?_, ?_, ?_⟩ (ih
      ((hA.mono (subset_assignedAll binds)).mono fun _ => .inl)
      (((hstems.mono hd.grows).mono (grows_record _ _ _ _ _)).mono (grows_flush _))
      ((hrecord.forget (forgets_flush _) .inl).imp (Within.mono fun _ => .inl) (Within.mono fun _ => .inl))
      (fun z hz => hz.imp_left fun hz => subset_assignedAll binds z (hBA z hz)) (fun z hz => ?_) hblock.2)
    · exact (mem_append.1 hz).elim (hcovered z) fun hz => (hvalue z hz).2
    · rintro _ ⟨⟩
    · rintro _ _ ⟨⟩ w hw
      rw [hd.callee hs.current_symbol]
      exact hblock.1.apart _ _ rfl w hw
    · rcases hz with hz | hz
      · rcases hassigns.drawn z hz with hz | hz
        · exact (hAB z hz).imp_left .inl
        · exact .inr hz
      · exact .inl (.inr hz)
  | ret _ hd _ ih | entryRet _ hd _ ih =>
    have hstorage := hreturn hBA hAB hblock.1
    have hassigns : Assigns names symbol A _ _ _ := hd.assigns hplain hA hstems hs
      (fun e he => mem_singleton.1 he ▸ hread hBA hblock.1) fun _ => hstorage
    exact hassigns.ret hplain hstorage (ih ⟨trivial, trivial⟩ ((hstems.mono hd.grows).mono (grows_flush _))
      hassigns.flush (fun _ _ => trivial) (fun _ _ => .inl trivial) hblock.2)
  | @branch _ test' completion binds _ whenTrue' _ whenFalse' _ _ _ s₁ t u _ hd ht hu _ iht ihu ih =>
    have hassigns : Assigns names symbol A [(test', completion)] binds s₁ := hd.assigns hplain hA hstems hs
      (fun e he => mem_singleton.1 he ▸ hread hBA hblock.1.1) nofun
    obtain ⟨hA₁, hBA₁, hAB₁, hs₁⟩ := hassigns.start hA hBA hAB
    have hstems₁ : s₁.flush.Stems := (hstems.mono hd.grows).mono (grows_flush _)
    have hstems₂ : (s₁.flush.resume t).Stems := hstems₁.mono (grows_resume ht.grows)
    have hkeepst := iht hA₁ hstems₁ (hs₁.forget (forgets_enter _) fun hx => .inl (by rwa [contains_enter] at hx))
      hBA₁ hAB₁ hblock.1.2.1
    have hkeepsu := ihu hA₁ hstems₂ ((hs₁.forget (forgets_resume _ t) .inl).forget (forgets_enter _)
      fun hx => .inl (by rwa [contains_enter] at hx)) hBA₁ hAB₁ hblock.1.2.2
    have hjoined : (s₁.flush.joined t u).ReadsOnly (Within names (assignedAll A binds))
        (Within names (assignedAll A binds)) (Backed names) :=
      hs₁.forget (forgets_joined _ t u) fun hx => by
        rcases contains_joined hx with hx | hx | hx
        · exact .inr (hkeepst.storage hx)
        · exact .inr (hkeepsu.storage hx)
        · exact .inl hx
    have hsubset : ∀ z, assignedAll A binds z →
        assignedAll (assignedAll A binds) [.branch test' whenTrue' whenFalse'] z := subset_assignedAll _
    refine .cons hassigns.guarded ⟨hassigns.test rfl rfl (by simp) (by simp), hkeepst.guarded, hkeepsu.guarded⟩
      (ih (hA₁.mono hsubset)
      (hstems₁.mono (grows_joined ht.grows hu.grows)) (hjoined.imp (Within.mono hsubset) (Within.mono hsubset))
      (fun z hz => ⟨hkeepst.assigned z hz.1, hkeepsu.assigned z hz.2⟩) (fun z hz => ?_) hblock.2)
    rcases hkeepst.drawn z hz.1 with ht | hdrawn
    · exact (hkeepsu.drawn z hz.2).imp_left fun hu => ⟨ht, hu⟩
    · exact .inr hdrawn
  | @loop _ test' completion binds body _ _ _ s s₁ t _ selfResults head _ hd hraised _ hbody _ _ ihtrips ihb ih =>
    have hinvalidate := s.grows_invalidateAll (bodyTargets body)
    have hassigns : Assigns names symbol A [(test', completion)] binds s₁ :=
      hd.assigns hplain hA (hstems.mono hinvalidate)
      (hs.forget (forgets_invalidateAll _ _) fun hx => .inl (by rwa [completions_invalidateAll] at hx))
      (fun e he => mem_singleton.1 he ▸ hread hBA hblock.1.1) nofun
    obtain ⟨hA₁, hBA₁, hAB₁, hs₁⟩ := hassigns.start hA hBA hAB
    have hstems₁ : s₁.flush.Stems := ((hstems.mono hinvalidate).mono hd.grows).mono (grows_flush _)
    have hstart : ∀ {selfResults : List String} {head : Table Completion}, (∀ x ∈ head.keys, Covered (Backed names) x) →
        (s₁.flush.tripStart selfResults head).ReadsOnly (Within names (assignedAll A binds))
          (Within names (assignedAll A binds)) (Backed names) := fun hhead =>
      hs₁.forget (forgets_tripStart _ _ _) fun {w} hx =>
        (contains_tripStart hx).symm.imp_right fun hx => hhead _ hx w rfl
    have hhead : ∀ x ∈ head.keys, Covered (Backed names) x := hraised.keys fun trip hmem hkeys x hx w hw =>
      (ihtrips trip hmem hA₁ hstems₁.tripStart (hstart hkeys) hBA₁ hAB₁ hblock.1.2).storage
        (contains_of_inner (hw ▸ hx))
    have hkeeps := ihb hA₁ hstems₁.tripStart (hstart hhead) hBA₁ hAB₁ hblock.1.2
    have hgrows := grows_settled hbody.grows
    exact .cons hassigns.guarded ⟨hassigns.test rfl rfl (by simp) (by simp), hkeeps.guarded⟩
      (ih hA₁ (hstems₁.mono hgrows)
        (hs₁.forget (forgets_settled _ t head) fun hx => (contains_settled hx).symm.imp_right hkeeps.storage)
        hBA₁ hAB₁ hblock.2)

end Phases

theorem Stmt.AlwaysAll.reads (h : AlwaysAll (Guarded names symbol) A block) :
    AlwaysAll Stmt.Reads A block :=
  h.imp (fun hAB h => h.reads.mono hAB) fun _ hz => hz

theorem Stmt.Binds.assigned {T : (String → Prop) → String → Prop} (h : Binds T G N binds N')
    (hN : ∀ z, N z → A z) (hG : ∀ z, G z → A z) : AlwaysAll Reads A binds := by
  induction h generalizing A with
  | nil => trivial
  | cons hy _ hvalue _ ih =>
    refine ⟨ReadsOnly.reads hvalue hN hG, ih (fun z hz => hz.imp (hN z) fun hz => ?_) fun z hz => .inl (hG z hz)⟩
    rw [names_of_symbol hy]
    exact mem_singleton.2 hz

theorem TailCall.mem_names_loopTest {call : TailCall} (h : z ∈ call.loopTest.names) :
    z ∈ call.test.names ∨ isBuiltin z = true := by
  unfold loopTest at h
  split at h
  · exact .inl h
  · rcases negate_names h with h | rfl | h
    · exact .inl h
    · exact .inr (by decide)
    · obtain ⟨opposite, hopposite⟩ := Option.isSome_iff_exists.1 h
      exact .inr (builtin_of_opposite hopposite).1

theorem TailCall.split_assigned {step : List Stmt} {arguments : List Expr}
    (h : split? symbol block = some (step, arguments)) (hblock : AlwaysAll (Guarded names symbol) A block) :
    AlwaysAll (Guarded names symbol) A step ∧ (∀ z ∈ Expr.namesAll arguments, assignedAll A step z) ∧
      ∀ w, Backed names w → assignedAll A step w → assignedAll A step (Name.container w) := by
  have harguments : ∀ {value : Expr} {z : String}, value.callee? = some symbol → z ∈ Expr.namesAll value.arguments →
      z ∈ value.names := by
    intro value z hvalue hz
    cases value with
    | apply => exact mem_append_right _ hz
    | _ => cases hvalue
  rcases split_eq_some h with ⟨value, rfl, hcallee, rfl⟩ | ⟨target, value, result, x, rfl, hx, -, hcallee, rfl⟩
  · obtain ⟨hstep, hret, -⟩ := alwaysAll_append.1 hblock
    exact ⟨hstep, fun z hz => hret.reads z (harguments hcallee hz), hret.storage _ rfl⟩
  · obtain ⟨hstep, hbind, hret, -⟩ := alwaysAll_append.1 hblock
    refine ⟨hstep, fun z hz => hbind.reads z (harguments hcallee hz), fun w hw hassigned => ?_⟩
    -- the result of the call is no storage
    refine (hret.storage _ rfl w hw (.inl hassigned)).resolve_right fun hmem => ?_
    rw [names_of_symbol hx] at hmem
    exact hbind.apart target value rfl w (mem_singleton.1 hmem ▸ hx) hcallee

theorem Procedure.Loops.assigned (h : p.Loops entry p') (hsymbol : p.symbol? = some symbol)
    (hparameters : p.parameterNames? = some parameters) (hbody : AlwaysAll (Guarded names symbol) A p.body)
    (hbuiltin : ∀ z, isBuiltin z = true → A z) (htemporary : ∀ n : Nat, ¬ Backed names ("_iter" ++ toString n))
    (hdeclared : ∀ w, Name.container w ∈ p.declaredNames (symbol = entry) → Backed names w) :
    AlwaysAll Stmt.Reads A p'.body := by
  cases h with
  | same => exact hbody.reads
  | @loop _ call _ _ assigned hsymbol' hcall hstem _ hassigned =>
    cases hsymbol.symm.trans hsymbol'
    obtain ⟨whenTrue, whenFalse, heq, hsplit, hbase, -⟩ := TailCall.ofBody_eq_some hcall
    rw [heq] at hbody
    obtain ⟨hleading, ⟨htest, htrue, hfalse⟩, -⟩ := alwaysAll_append.1 hbody
    have hblocks : ∀ b : Bool, AlwaysAll (Guarded names symbol) (assignedAll A call.leading)
        (if b then whenTrue else whenFalse) := by
      intro b
      cases b with
      | true => exact htrue
      | false => exact hfalse
    obtain ⟨hstep, harguments, hstorage⟩ := TailCall.split_assigned hsplit (hblocks _)
    have hsubset : ∀ z, A z → assignedAll (assignedAll A call.leading) call.step z := fun z hz =>
      subset_assignedAll call.step z (subset_assignedAll call.leading z hz)
    have hstored : TailCall.Stored (p.declaredNames (symbol = entry)) call.arguments
        (assignedAll (assignedAll A call.leading) call.step) := by
      rintro value y (hmem | ⟨n, hn⟩) hy hd
      · exact hstorage y (hdeclared y hd) (harguments y (Expr.mem_namesAll.2 ⟨value, hmem, mem_names_of_symbol hy⟩))
      · cases hn.symm.trans hy
        exact absurd (hdeclared _ hd) (htemporary n)
    obtain ⟨N, hbinds⟩ := (TailCall.reassign_binds hassigned hstem).2 hparameters
      (fun e he => .of_names (fun _ hz => hz) fun z hz => harguments z (Expr.mem_namesAll.2 ⟨e, he, hz⟩)) hstored
    have hassigned := hbinds.assigned (fun _ hz => hz) fun _ hz => hz
    refine alwaysAll_append.2 ⟨hleading.reads, ⟨fun z hz => ?_, ?_⟩, ?_⟩
    · rcases TailCall.mem_names_loopTest hz with hz | hz
      · exact htest.reads z hz
      · exact subset_assignedAll call.leading z (hbuiltin z hz)
    · refine alwaysAll_append.2 ⟨alwaysAll_append.2 ⟨hstep.reads, hassigned⟩, hleading.reads.mono fun z hz => ?_⟩
      rw [assignedAll_append]
      exact subset_assignedAll assigned z (hsubset z hz)
    · have hother : (if call.whenTrue = true then whenFalse else whenTrue) =
          if (!call.whenTrue) = true then whenTrue else whenFalse := by
        cases call.whenTrue <;> rfl
      rw [hbase, hother]
      exact (hblocks _).reads

namespace Name

def IsGiven (z : String) : Prop := IsBase z ∧ ∀ n : Nat, z ≠ "_iter" ++ toString n

theorem isGiven_of_first (h : IsBase z) (hfirst : z.toList.head? ≠ some '_') : IsGiven z := by
  refine ⟨h, ?_⟩
  rintro n rfl
  rw [String.toList_append] at hfirst
  exact hfirst rfl

theorem IsMade.isGiven {n : Nat} (h : IsMade n z) : IsGiven z := by
  have hbase := h.isBase
  rcases h with rfl | ⟨index, rfl⟩ | ⟨k, -, rfl⟩
  · exact isGiven_of_first hbase (by decide)
  · refine isGiven_of_first hbase ?_
    rw [Snippet.project, String.toList_append, String.toList_append, append_assoc, head?_append,
      show Snippet.projectionStem.toList.head? = some 't' from rfl]
    simp
  · refine ⟨hbase, fun m hm => ?_⟩
    have hlist : "_tup".toList ++ (toString k).toList = "_iter".toList ++ (toString m).toList := by
      rw [← String.toList_append, ← String.toList_append, hm]
    obtain ⟨hstem, -⟩ := append_number_inj (by simp) (by simp) hlist
    exact absurd hstem (by decide)

end Name

namespace Procedure
variable {x : String}

theorem parameter_of_name {parameters : List Expr} (h : parameters.mapM Expr.symbol? = some names)
    (hx : x ∈ names) : ∃ parameter ∈ parameters, parameter.symbol? = some x := by
  exact mem_map.1 (map_symbol h ▸ mem_map_of_mem hx)

theorem mem_declaredNames_of_parameter (hnames : p.parameterNames? = some names) (hx : x ∈ names) :
    x ∈ p.declaredNames isEntry := by
  obtain ⟨parameter, hmem, hx⟩ := parameter_of_name hnames hx
  refine mem_append_right _ (mem_flatMap.2 ⟨parameter, hmem, ?_⟩)
  simp only [hx]
  split
  · exact mem_cons_self
  · exact mem_cons_self

theorem declared_given (hnames : p.parameterNames? = some names)
    (hparameters : ∀ z ∈ names, IsGiven z)
    (hflat : ∀ z ∈ namesAll flat, IsGiven z ∧ z ∈ namesAll stored)
    (hstored : ∀ z ∈ namesAll stored, z ∈ namesAll flat ∨
      isEntry = true ∧ ∃ w ∈ namesAll flat, z = container w)
    (hz : z ∈ (p.withBody stored).declaredNames isEntry) : IsGiven z ∨ isEntry = true ∧
      ∃ w, IsGiven w ∧ w ∈ (p.withBody stored).declaredNames isEntry ∧ z = container w := by
  have hnames : (p.withBody stored).parameterNames? = some names := hnames
  rcases mem_declaredNames hnames hz with hz | hz | ⟨hentry, w, hw, rfl⟩
  · rcases hstored z hz with hz | ⟨hentry, w, hw, rfl⟩
    · exact .inl (hflat z hz).1
    · exact .inr ⟨hentry, w, (hflat w hw).1, mem_append_left _ (hflat w hw).2, rfl⟩
  · exact .inl (hparameters z hz)
  · have hw := mem_storedNames hnames hw
    exact .inr ⟨hentry, w, hparameters w hw, mem_declaredNames_of_parameter hnames hw, rfl⟩

end Procedure
variable {provided : String → Prop}

/-- What has been assigned in front of the body of a procedure: what is provided from outside, the
parameters, and the storage that the host supplies to an entry procedure. -/
def Procedure.Supplied (provided : String → Prop) (isEntry : Bool) (p : Procedure) (z : String) : Prop :=
  provided z ∨ z ∈ namesAll p.parameters ∨ isEntry = true ∧ ∃ w ∈ p.storedNames, z = container w

instance {provided : String → Prop} [DecidablePred provided] {isEntry : Bool} {p : Procedure} :
    DecidablePred (p.Supplied provided isEntry) :=
  fun z => inferInstanceAs (Decidable (provided z ∨ z ∈ namesAll p.parameters ∨
    isEntry = true ∧ ∃ w ∈ p.storedNames, z = container w))

/-- Every path through the body of a procedure reads what has been assigned on it. -/
def Procedure.ReadsAssigned (provided : String → Prop) (isEntry : Bool) (p : Procedure) : Prop :=
  ∀ A t, Reaches (p.Supplied provided isEntry) p.body A t → t.Reads A

/-- Where something is handed back, the storage of all that has been assigned has been assigned too,
as far as there is some in `names`. -/
def Stmt.HasStorage (names : List String) (A : String → Prop) : Stmt → Prop
  | .ret _ => ∀ w ∈ names, container w ∈ names → A w → A (container w)
  | _ => True

/-- Wherever an entry procedure hands something back, each view that has been assigned on every path
has its storage assigned on every path, if the procedure mentions it. -/
def Procedure.KeepsStorage (provided : String → Prop) (p : Procedure) : Prop :=
  AlwaysAll (HasStorage (p.declaredNames true)) (p.Supplied provided true) p.body

instance {provided : String → Prop} [DecidablePred provided] {isEntry : Bool} {p : Procedure} :
    Decidable (p.ReadsAssigned provided isEntry) :=
  decidable_of_iff (AlwaysAll Reads (p.Supplied provided isEntry) p.body) reads_iff

instance {provided : String → Prop} [DecidablePred provided] {p : Procedure} : Decidable (p.KeepsStorage provided) :=
  decidableAlwaysAll (fun A _ s => match s with
    | .ret _ => inferInstanceAs (Decidable (∀ w ∈ _, container w ∈ _ → A w → A (container w)))
    | .bind .. | .branch .. | .loop .. | .procedure .. | .structDef .. | .typedef .. | .namespaceDef .. | .header ..
    | .declare _ => isTrue trivial) inferInstance _

structure Provides (provided : String → Prop) : Prop where
  builtin : ∀ z, isBuiltin z = true → provided z
  project : ∀ index, provided (Snippet.project index)

structure Procedure.Extends (isEntry : Bool) (symbol : String) (A : String → Prop)
    (flat stored : List Stmt) : Prop where
  reads : AlwaysAll Reads A stored
  names : ∀ z ∈ namesAll stored, z ∈ namesAll flat ∨
    isEntry = true ∧ ∃ w ∈ namesAll flat, z = container w
  subset : ∀ z ∈ namesAll flat, z ∈ namesAll stored
  apart : AlwaysAll (CallsApart symbol) A stored

theorem Procedure.extends_same (hreads : AlwaysAll Reads A flat)
    (hviews : ∀ z ∈ namesAll flat, IsView z) : Extends false symbol A flat flat := by
  refine ⟨hreads, fun z hz => .inl hz, fun _ hz => hz, ?_⟩
  have hown := (alwaysAll_names (A := A)).2 hviews
  refine hown.zip hown fun {A s} h _ => ?_
  rintro target value rfl w hw
  exact absurd rfl (h (container w) (mem_append_left _ (by simp [names_of_symbol hw])) w)

theorem Procedure.extends_stores
    (hprovided : Provides provided) (hstores : Containers.Stores (p.withBody flat).Known flat stored)
    (hreads : AlwaysAll Reads (p.Supplied provided true) flat) (hsymbol : symbol ≠ Snippet.makeTuple)
    (hviews : ∀ z ∈ (p.withBody flat).toStmt.names, IsView z) :
    Extends true symbol (p.Supplied provided true) flat stored := by
  have hknown : ∀ w, (p.withBody flat).Known w → p.Supplied provided true (container w) := by
    rintro w (hw | hw)
    · exact .inr (.inr ⟨rfl, w, hw, rfl⟩)
    · exact absurd rfl (hviews _ hw w)
  have hbody : ∀ z ∈ namesAll flat, IsView z := fun z hz => hviews z (by simp [toStmt, withBody, hz])
  exact ⟨(hstores.assigned (.inl (hprovided.builtin _ (by decide))) hknown hreads fun _ hz => hz).1,
    fun z hz => (hstores.mentions z hz).imp_right fun hz => ⟨rfl, hz⟩, hstores.subset,
    hstores.callsApart hsymbol hbody⟩

structure Procedure.IsReady (provided : String → Prop) (isEntry : Bool) (symbol : String) (p : Procedure) : Prop where
  guarded : AlwaysAll (Guarded (p.declaredNames isEntry) symbol) (p.Supplied provided isEntry) p.body
  plain : Phases.Plain (p.declaredNames isEntry)
  temporary : ∀ n : Nat, ¬ Backed (p.declaredNames isEntry) ("_iter" ++ toString n)

theorem Procedure.Extends.isReady
    (h : Procedure.Extends isEntry symbol (p.Supplied provided isEntry) flat stored)
    (hparameters : p.parameterNames? = some parameters) (hgiven : ∀ z ∈ parameters, IsGiven z)
    (hflat : ∀ z ∈ Stmt.namesAll flat, IsGiven z)
    (hstorage : isEntry = true → (p.withBody stored).KeepsStorage provided) :
    (p.withBody stored).IsReady provided isEntry symbol := by
  have hnames : ∀ {z : String}, z ∈ (p.withBody stored).declaredNames isEntry → IsGiven z ∨ isEntry = true ∧
      ∃ w, IsGiven w ∧ w ∈ (p.withBody stored).declaredNames isEntry ∧ z = Name.container w :=
    declared_given hparameters hgiven (fun z hz => ⟨hflat z hz, h.subset z hz⟩) h.names
  have hbacked : ∀ w, Backed ((p.withBody stored).declaredNames isEntry) w →
      isEntry = true ∧ IsGiven w ∧ w ∈ (p.withBody stored).declaredNames isEntry := by
    intro w hw
    rcases hnames hw with hgiven | ⟨hentry, w', hgiven, hmem, heq⟩
    · exact absurd rfl (hgiven.1.1 w)
    · rw [container_inj heq]
      exact ⟨hentry, hgiven, hmem⟩
  refine ⟨?_, Containers.plain_of_base fun z hz => ?_, fun n hn => ?_⟩
  · have hown : AlwaysAll (fun _ s => ∀ z ∈ s.ownNames, z ∈ (p.withBody stored).declaredNames isEntry)
        (p.Supplied provided isEntry) stored := alwaysAll_names.2 fun z hz => mem_append_left _ hz
    have hreturns : AlwaysAll (fun A s => ∀ value, s = .ret value → ∀ w,
        Backed ((p.withBody stored).declaredNames isEntry) w → A w → A (Name.container w))
        (p.Supplied provided isEntry) stored := by
      cases isEntry with
      | false => exact hown.zip hown fun _ _ _ _ w hw => absurd (hbacked w hw).1 nofun
      | true =>
        have hkeeps : AlwaysAll _ (p.Supplied provided true) stored := hstorage rfl
        refine hkeeps.zip hown fun {A s} hst _ => ?_
        rintro value rfl w hw
        exact hst w (hbacked w hw).2.2 hw
    refine (h.reads.zip hown And.intro).zip (h.apart.zip hreturns And.intro) fun {A s} hst hst' => ?_
    exact ⟨hst.1, fun z hz w hw => show Name.container w ∈ _ from hw ▸ hst.2 z hz, hst'.2, hst'.1⟩
  · exact (hnames hz).imp And.left fun ⟨_, w, hw, _, hz⟩ => ⟨w, hw.1, hz⟩
  · exact (hbacked _ hn).2.1.2 n rfl

theorem Procedure.IsReady.analyzed {Γ : Phases.Context}
    (h : p.IsReady provided (symbol = Γ.entry) symbol) (hprovided : Provides provided)
    (hsymbol : p.symbol? = some symbol) (hanalyzed : Phases.ProcedureRewritten Γ p p') :
    AlwaysAll (Guarded (p.declaredNames (symbol = Γ.entry)) symbol)
      (p.Supplied provided (symbol = Γ.entry)) p'.body := by
  obtain ⟨-, -, hbody⟩ := hanalyzed
  split at hbody
  · rename_i symbol' hsymbol'
    cases (Option.filter_eq_some_iff.1 hsymbol').1.symm.trans hsymbol
    obtain ⟨phases, temporaries, s', hphases, htemporaries, hbody⟩ := hbody
    refine (hbody.keepsAssigned h.plain ⟨.inl (hprovided.builtin _ (by decide)), .inl (hprovided.builtin _ (by decide))⟩
      (Phases.State.stems_bodyStart hphases htemporaries) (.bodyStart fun w hw => ?_) (fun _ hz => hz)
      (fun _ hz => .inl hz) h.guarded).guarded
    rw [Phases.State.bodyStart, Phases.State.contains_setCompletions] at hw
    rcases hw with hw | hw
    · exact Phases.mem_parameterCompletions hw
    · cases hw
  · rw [hbody]
    exact h.guarded

theorem Procedure.Lowers.assigned {global : String → Prop} {backed : Module}
    {registry : Registry} (h : p.Lowers backed registry entry p') (hp : p.IsRead global)
    (hgiven : ∀ z ∈ p.toStmt.names, IsGiven z) (hprovided : Provides provided)
    (hassigned : p.ReadsAssigned provided false)
    (hstorage : ∀ q : Procedure, q.toStmt ∈ backed → q.symbol? = some entry → q.KeepsStorage provided) :
    p'.symbol? = p.symbol? ∧ p'.ReadsAssigned provided (p'.symbol? = some entry) := by
  obtain ⟨⟨x, ty, hname, hx, -⟩, parameters, hparameters, -, -, -⟩ := hp
  obtain ⟨flat, stored, analyzed, hflattens, hstores, hkept, hmem, hanalyzed, hloops⟩ := h.stages
  have hsymbol : p.symbol? = some x := by rw [Procedure.symbol?, hname]; rfl
  have hlaid : p.laid.parameterNames? = some parameters := parameterNames?_laid hparameters
  have hgivenParameters : ∀ z ∈ parameters, IsGiven z := fun z hz =>
    hgiven z (by simp [toStmt, namesAll_parameters hparameters, hz])
  have hgivenFlat : ∀ z ∈ Stmt.namesAll flat, IsGiven z := by
    refine hflattens.mentions ⟨IsMade.isGiven (n := 0) (.inl rfl), fun index =>
      IsMade.isGiven (n := 0) (.inr (.inl ⟨index, rfl⟩))⟩ (fun n =>
      IsMade.isGiven (n := n + 1) (.inr (.inr ⟨n, Nat.lt_succ_self n, rfl⟩))) fun z hz => ?_
    rw [Stmt.namesAll_laid] at hz
    exact hgiven z (by simp [toStmt, hz])
  have hviews : ∀ z ∈ (p.laid.withBody flat).toStmt.names, IsView z := by
    intro z hz
    simp only [toStmt, withBody, Stmt.names, mem_append] at hz
    rcases hz with (hz | hz) | hz
    · rw [Procedure.laid, Expr.names_laid] at hz
      exact (hgiven z (by simp [toStmt, hz])).1.1
    · rw [namesAll_parameters hlaid] at hz
      exact (hgivenParameters z hz).1.1
    · exact (hgivenFlat z hz).1.1
  have htuples : ∀ isEntry, Stmt.HasTuples (p.laid.Supplied provided isEntry) := fun isEntry =>
    ⟨.inl (hprovided.builtin _ (by decide)), fun index => .inl (hprovided.project index)⟩
  have hsupplied : ∀ isEntry z, p.Supplied provided false z → p.laid.Supplied provided isEntry z := by
    rintro isEntry z (hz | hz | ⟨hfalse, -⟩)
    · exact .inl hz
    · exact .inr (.inl (by rwa [namesAll_parameters hlaid, ← namesAll_parameters hparameters]))
    · cases hfalse
  have hflatReads : ∀ isEntry, AlwaysAll Stmt.Reads (p.laid.Supplied provided isEntry) flat := fun isEntry =>
    (hflattens.assigned (htuples isEntry) (alwaysAll_laid (reads_iff.2 hassigned)) (hsupplied isEntry)).1
  have hextends : Procedure.Extends (x = entry) x (p.laid.Supplied provided (x = entry)) flat stored := by
    by_cases hentry : x = entry
    · rw [decide_eq_true hentry]
      refine extends_stores hprovided (hstores (hsymbol.trans (congrArg some hentry))) (hflatReads true) ?_ hviews
      rintro rfl
      exact absurd (hx.2 ':' (by decide)) (by decide)
    · rw [decide_eq_false hentry, hkept (fun h => hentry (Option.some.inj (hsymbol.symm.trans h)))]
      exact extends_same (hflatReads false) fun z hz => (hgivenFlat z hz).1.1
  have hready := hextends.isReady hlaid hgivenParameters hgivenFlat fun hentry =>
    hstorage _ hmem (p.symbol?_laid.trans (hsymbol.trans (congrArg some (of_decide_eq_true hentry))))
  have hsymbol' : (p.laid.withBody stored).symbol? = some x := p.symbol?_laid.trans hsymbol
  have hguarded := hready.analyzed hprovided hsymbol' hanalyzed
  have hdeclared : ∀ w, Name.container w ∈ (p.laid.withBody analyzed).declaredNames (x = entry) →
      Backed ((p.laid.withBody stored).declaredNames (x = entry)) w := by
    intro w hw
    rcases mem_append.1 hw with hw | hw
    · exact alwaysAll_names.1 (hguarded.imp (fun _ h => h.covered) fun _ hz => hz) _ hw w rfl
    · exact mem_append_right _ hw
  have hreads := hloops.assigned hsymbol' hlaid hguarded (fun z hz => .inl (hprovided.builtin z hz)) hready.temporary
    hdeclared
  refine ⟨h.symbol?_eq, reads_iff.1 (hreads.mono fun z hz => ?_)⟩
  rw [h.symbol?_eq, hsymbol]
  have hz : p.laid.Supplied provided (x = entry) z := hz
  simpa only [Supplied, storedNames, h.header.2, Procedure.laid, Option.some.injEq] using hz

theorem Wrapper.Wraps.assigned {parameters hosted : List Expr}
    (h : Wraps parameters names hosted binds)
    (hA : A Snippet.makeSequence) (hhosted : ∀ z ∈ namesAll hosted, A z) :
    AlwaysAll Reads A binds ∧ ∀ x ∈ names, assignedAll A binds x := by
  induction h generalizing A with
  | nil => exact ⟨trivial, nofun⟩
  | @view parameter _ _ _ _ _ _ binds hx _ _ _ ih =>
    obtain ⟨hbinds, hassigned⟩ := @ih (Also A parameter.names) (.inl hA) fun z hz =>
      .inl (hhosted z (mem_append_right _ hz))
    refine ⟨⟨fun z hz => ?_, hbinds⟩, fun y hy => ?_⟩
    · rcases names_applySnippet.1 hz with rfl | hz
      · exact hA
      · exact hhosted z (mem_append_left _ (by simpa using hz))
    · rcases mem_cons.1 hy with rfl | hy
      · exact subset_assignedAll binds y (.inr (by simp [names_of_symbol hx]))
      · exact hassigned y hy
  | @value _ _ _ _ _ binds hx _ _ ih =>
    obtain ⟨hbinds, hassigned⟩ := ih hA fun z hz => hhosted z (mem_append_right _ hz)
    refine ⟨hbinds, fun y hy => ?_⟩
    rcases mem_cons.1 hy with rfl | hy
    · exact subset_assignedAll binds y (hhosted y (mem_append_left _ (by simp [names_of_symbol hx])))
    · exact hassigned y hy

theorem Wrapper.ofProcedure_assigned {p wrapping : Procedure}
    {wrapper : Wrapper} (h : Wrapper.ofProcedure entry p = .ok (wrapping, wrapper))
    (hsymbol : p.symbol? = some entry) (hentry : provided entry) (hprovided : Provides provided) :
    wrapping.ReadsAssigned provided isEntry := by
  obtain ⟨-, names, binds, typing, hnames, hwraps, hbody⟩ := ofProcedure_wraps h
  have hhosted : ∀ z ∈ namesAll wrapping.parameters, wrapping.Supplied provided isEntry z :=
    fun z hz => .inr (.inl hz)
  obtain ⟨hbinds, hassigned⟩ := hwraps.assigned (.inl (hprovided.builtin _ (by decide))) hhosted
  refine reads_iff.1 ?_
  rw [hbody]
  refine alwaysAll_append.2 ⟨hbinds, fun z hz => ?_, trivial⟩
  rw [Stmt.reads, Expr.names, names_of_symbol hsymbol, namesAll_parameters hnames] at hz
  rcases mem_append.1 hz with hz | hz
  · exact subset_assignedAll binds z (.inl (mem_singleton.1 hz ▸ hentry))
  · exact hassigned z hz

namespace SourceUnit
variable {text : List Char} {unit : SourceUnit} {lowered : Lowered}

/-- The names that are there without an assignment: those of procedures, of operators and of
snippets. -/
def Provided (unit : SourceUnit) (z : String) : Prop :=
  unit.Declares z ∨ isBuiltin z = true ∨ Snippet.projectionStem.toList.isPrefixOf z.toList = true

instance : DecidablePred unit.Provided := fun z =>
  decidable_of_iff (z ∈ unit.declared ∨ isBuiltin z = true ∨
    Snippet.projectionStem.toList.isPrefixOf z.toList = true) (or_congr_left mem_declared)

theorem provides_provided (unit : SourceUnit) : Provides unit.Provided where
  builtin z hz := .inr (.inl hz)
  project index := by
    refine .inr (.inr (List.isPrefixOf_iff_prefix.2 ?_))
    rw [Snippet.project, String.toList_append, String.toList_append, append_assoc]
    exact prefix_append _ _

/-- If every path through a procedure of a unit reads what has been assigned on it, then so does
every path through a procedure of the lowered module. -/
theorem lower_reads_assigned (hread : ofText? text = .ok unit)
    (hlower : unit.module.lower unit.registry entry = .ok lowered)
    (hnames : ∀ x ∈ unit.mentioned, IsView x ∧ ¬ IsRealized x)
    (hassigned : ∀ p ∈ unit.module.procedures, p.ReadsAssigned unit.Provided false)
    (hstorage : ∀ flat backed, unit.module.assignLayouts.flattenTuples = .ok flat → flat.backEntry entry = .ok backed →
      ∀ p ∈ backed.procedures, p.symbol? = some entry → p.KeepsStorage unit.Provided) :
    ∀ p ∈ lowered.module.procedures, p.ReadsAssigned unit.Provided (p.symbol? = some entry) := by
  have hall := ofText?_isRead hread
  obtain ⟨flat, backed, looped, p, wrapping, hflat, hbacked, hlowers, hfound, hwrapping, hmodule⟩ :=
    Module.lower_stages (fun st hst => (hall st hst).imp fun p h =>
      ⟨h.1, h.2.body.elim fun _ h => h.2.2.2.arePatterned⟩) hlower
  have hlooped : ∀ p' ∈ looped.procedures, p'.ReadsAssigned unit.Provided (p'.symbol? = some entry) ∧
      ∃ p ∈ unit.module.procedures, p.symbol? = p'.symbol? := by
    intro p' hp'
    obtain ⟨i, hi⟩ := mem_iff_getElem?.1 (Module.mem_procedures.1 hp')
    obtain ⟨p, q, hq, hi, hlowers⟩ := hlowers.source hi
    cases Module.Rewrites.toStmt_inj hq
    have hmem := mem_iff_getElem?.2 ⟨i, hi⟩
    obtain ⟨q, hq, hp⟩ := hall _ hmem
    cases Module.Rewrites.toStmt_inj hq
    have hgiven : ∀ z ∈ p.toStmt.names, IsGiven z := by
      intro z hz
      obtain ⟨hview, hrealized⟩ := hnames z (mem_mentioned hmem hz)
      have hwritten := hp.written z hz
      exact isGiven_of_first (hwritten.isBase hview hrealized) hwritten.1
    obtain ⟨hsymbol, hreads⟩ := hlowers.assigned hp hgiven unit.provides_provided
      (hassigned p (Module.mem_procedures.2 hmem)) fun q hq =>
        hstorage flat backed hflat hbacked q (Module.mem_procedures.2 hq)
    exact ⟨hreads, p, Module.mem_procedures.2 hmem, hsymbol.symm⟩
  intro p hp
  rw [Module.mem_procedures, hmodule, mem_append, mem_singleton] at hp
  rcases hp with hp | hp
  · exact (hlooped p (Module.mem_procedures.2 hp)).1
  · cases Module.Rewrites.toStmt_inj hp
    have hsymbol : p.symbol? = some entry := by simpa using find?_some hfound
    obtain ⟨-, q, hq, hsame⟩ := hlooped p (mem_of_find?_eq_some hfound)
    exact Wrapper.ofProcedure_assigned hwrapping hsymbol (.inl (.inl ⟨q, hq, hsame.trans hsymbol⟩))
      unit.provides_provided

end SourceUnit

/-- Pairs two rows in one order or the other, and hands back the pair with a number. -/
def switchedText : List Char :=
  ("procedure main(xs: [Int32], zs: [Int32], c: Bool, n: Int32) -> (([Int32], [Int32]), Int32) \x7b " ++
   "if c \x7b p = (xs, zs); \x7d else \x7b p = (zs, xs); \x7d q = (p, n); return q; \x7d").toList

theorem switchedText_reads_assigned : ∃ (unit : SourceUnit) (lowered : Lowered),
    SourceUnit.ofText? switchedText = .ok unit ∧ unit.module.lower unit.registry "main" = .ok lowered ∧
    "p_array" ∈ Stmt.namesAll lowered.module ∧
    ∀ p ∈ lowered.module.procedures, p.ReadsAssigned unit.Provided (p.symbol? = some "main") := by
  have hchecks : ((SourceUnit.ofText? switchedText).toOption.any fun unit =>
      decide (∀ x ∈ unit.mentioned, Name.isStorage x = false ∧ x.toList.getLast?.any Char.isDigit = false) &&
      decide (∀ p ∈ unit.module.procedures, p.ReadsAssigned unit.Provided false) &&
      (unit.module.assignLayouts.flattenTuples.toOption.any fun flat =>
        (flat.backEntry "main").toOption.any fun backed =>
        decide (∀ p ∈ backed.procedures, p.symbol? = some "main" → p.KeepsStorage unit.Provided)) &&
      ((unit.module.lower unit.registry "main").toOption.any fun lowered =>
        decide ("p_array" ∈ Stmt.namesAll lowered.module))) = true := by decide +kernel
  obtain ⟨unit, hread, hchecks⟩ := Except.any_toOption.1 hchecks
  simp only [Bool.and_eq_true, decide_eq_true_eq] at hchecks
  obtain ⟨⟨⟨hnames, hassigned⟩, hstorage⟩, hlower⟩ := hchecks
  obtain ⟨flat, hflat, hstorage⟩ := Except.any_toOption.1 hstorage
  obtain ⟨backed, hbacked, hstorage⟩ := Except.any_toOption.1 hstorage
  obtain ⟨lowered, hlower, hmentioned⟩ := Except.any_toOption.1 hlower
  refine ⟨unit, lowered, hread, hlower, of_decide_eq_true hmentioned, SourceUnit.lower_reads_assigned hread hlower
    (fun x hx => ⟨Name.isView_of_not_storage (hnames x hx).1, fun h => Name.not_drawn_of_last (hnames x hx).2 (.inl h)⟩)
    hassigned fun flat' backed' hflat' hbacked' => ?_⟩
  cases hflat.symm.trans hflat'
  cases hbacked.symm.trans hbacked'
  exact of_decide_eq_true hstorage

/-- Pairs two rows, or takes a pair that comes without storage. -/
def pickedText : List Char :=
  ("declare pick : fn([Int32]) -> ([Int32], [Int32]) opaque; " ++
   "procedure main(xs: [Int32], zs: [Int32], c: Bool, n: Int32) -> (([Int32], [Int32]), Int32) \x7b " ++
   "if c \x7b p = (xs, zs); \x7d else \x7b p = pick(xs); \x7d q = (p, n); return q; \x7d").toList

/-- The storage that one block of a branch binds is read behind the branch. -/
theorem lower_reads_unassigned : ∃ (unit : SourceUnit) (lowered : Lowered) (p : Procedure),
    SourceUnit.ofText? pickedText = .ok unit ∧ unit.module.lower unit.registry "main" = .ok lowered ∧
    (∀ p ∈ unit.module.procedures, p.ReadsAssigned unit.Provided false) ∧
    (∀ x ∈ unit.mentioned, Name.isStorage x = false ∧ x.toList.getLast?.any Char.isDigit = false) ∧
    p ∈ lowered.module.procedures ∧ ¬ p.ReadsAssigned unit.Provided (p.symbol? = some "main") := by
  have hchecks : ((SourceUnit.ofText? pickedText).toOption.any fun unit =>
      (unit.module.lower unit.registry "main").toOption.any fun lowered =>
        decide ((∀ p ∈ unit.module.procedures, p.ReadsAssigned unit.Provided false) ∧
          (∀ x ∈ unit.mentioned, Name.isStorage x = false ∧ x.toList.getLast?.any Char.isDigit = false) ∧
          ∃ p ∈ lowered.module.procedures, ¬ p.ReadsAssigned unit.Provided (p.symbol? = some "main"))) = true := by
    decide +kernel
  obtain ⟨unit, hread, hchecks⟩ := Except.any_toOption.1 hchecks
  obtain ⟨lowered, hlower, hchecks⟩ := Except.any_toOption.1 hchecks
  obtain ⟨hassigned, hnames, p, hp, hnot⟩ := of_decide_eq_true hchecks
  exact ⟨unit, lowered, p, hread, hlower, hassigned, hnames, hp, hnot⟩

end DataParallel
