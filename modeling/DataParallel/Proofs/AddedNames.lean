import DataParallel.Proofs.FreshPasses
import DataParallel.Proofs.Stages

/-! The names that lowering adds to a procedure.

A name that is added is a temporary, or it is another name with a suffix: the storage behind it or
its realized form. None of these is a name of the procedure, as long as no name of it is another one
with such suffixes. -/

namespace DataParallel

open List Name Phases.State Stmt

variable {entry x y : String} {names parameters xs : List String} {binds block out : List Stmt} {G N : String → Prop}
  {p : Procedure}

namespace Name

variable {z : String}

/-- A name with the suffixes of storage and of realized forms added. -/
inductive Extends (z : String) : String → Prop where
  | refl : Extends z z
  | container {x : String} : Extends z x → Extends z (container x)
  | realized {x : String} (n : Nat) : Extends z x → Extends z (x ++ "_phase" ++ toString n)

theorem Extends.container_of (h : Extends (Name.container z) x) : Extends z x := by
  induction h with
  | refl => exact .container .refl
  | container _ ih => exact .container ih
  | realized n _ ih => exact .realized n ih

theorem Extends.realized_of {n : Nat} (h : Extends (z ++ "_phase" ++ toString n) x) : Extends z x := by
  induction h with
  | refl => exact .realized n .refl
  | container _ ih => exact .container ih
  | realized n _ ih => exact .realized n ih

theorem Extends.eq_or_prefix (h : Extends z x) : x = z ∨ z.toList ++ ['_'] <+: x.toList := by
  have step : ∀ {x suffix : String}, x = z ∨ z.toList ++ ['_'] <+: x.toList → ['_'] <+: suffix.toList →
      z.toList ++ ['_'] <+: (x ++ suffix).toList := by
    rintro x suffix (rfl | hx) hsuffix
    · rw [String.toList_append]
      exact (prefix_append_right_inj _).2 hsuffix
    · rw [String.toList_append]
      exact hx.trans (prefix_append _ _)
  induction h with
  | refl => exact .inl rfl
  | container _ ih => exact .inr (step ih (by decide))
  | realized n _ ih =>
    refine .inr ?_
    rw [String.append_assoc]
    refine step ih ?_
    rw [String.toList_append]
    exact (show ['_'] <+: "_phase".toList by decide).trans (prefix_append _ _)

/-- No name of `names` is `z` with suffixes. -/
def Clear (names : List String) (z : String) : Prop := ∀ x ∈ names, Extends z x → x = z

section Clear

theorem Extends.ne_of_prefix (h : Extends y x) (hy : z.toList ++ ['_'] <+: y.toList) : x ≠ z := by
  rintro rfl
  have hlt := hy.length_le
  have hle : y.toList.length ≤ x.toList.length := by
    rcases h.eq_or_prefix with rfl | hprefix
    · exact Nat.le_refl _
    · have := hprefix.length_le
      simp only [length_append, length_singleton] at this
      omega
  simp only [length_append, length_singleton] at hlt
  omega

theorem prefix_container (z : String) : z.toList ++ ['_'] <+: (container z).toList := by
  rw [container, String.toList_append]
  exact (prefix_append_right_inj _).2 (by decide)

theorem prefix_realized (z : String) (n : Nat) : z.toList ++ ['_'] <+: (z ++ "_phase" ++ toString n).toList := by
  rw [String.toList_append, String.toList_append, append_assoc]
  exact (prefix_append_right_inj _).2 ((show ['_'] <+: "_phase".toList by decide).trans (prefix_append _ _))

theorem Clear.not_mem_container (h : Clear names z) : container z ∉ names := fun hmem =>
  Extends.ne_of_prefix .refl (prefix_container z) (h _ hmem (.container .refl))

theorem Clear.not_mem_realized (h : Clear names z) (n : Nat) : z ++ "_phase" ++ toString n ∉ names := fun hmem =>
  Extends.ne_of_prefix .refl (prefix_realized z n) (h _ hmem (.realized n .refl))

theorem Clear.container (h : Clear names z) : Clear names (container z) := fun x hx hextends =>
  absurd (h x hx hextends.container_of) (hextends.ne_of_prefix (prefix_container z))

theorem Clear.realized (h : Clear names z) (n : Nat) : Clear names (z ++ "_phase" ++ toString n) := fun x hx hextends =>
  absurd (h x hx hextends.realized_of) (hextends.ne_of_prefix (prefix_realized z n))

theorem clear_of_not_prefix (h : ∀ x ∈ names, (z.toList ++ ['_']).isPrefixOf x.toList = false) :
    Clear names z := by
  intro x hx hextends
  refine hextends.eq_or_prefix.resolve_right fun hprefix => ?_
  rw [← isPrefixOf_iff_prefix, h x hx] at hprefix
  cases hprefix

variable (hwritten : ∀ x ∈ names, IsWritten x)
include hwritten

theorem clear_of_char {c : Char} (hc : c ∈ z.toList) (hpart : Token.isWordPart c = false) :
    Clear names z := by
  intro x hx hextends
  have hmem : c ∈ x.toList := by
    rcases hextends.eq_or_prefix with rfl | hprefix
    · exact hc
    · exact hprefix.subset (mem_append_left _ hc)
  rw [(hwritten x hx).2 c hmem] at hpart
  cases hpart

theorem clear_of_first (hz : z.toList.head? = some '_') : Clear names z := by
  intro x hx hextends
  rcases hextends.eq_or_prefix with rfl | hprefix
  · rfl
  · obtain ⟨rest, hrest⟩ := hprefix
    refine absurd ?_ (hwritten x hx).1
    rw [← hrest, head?_append, head?_append, hz]
    rfl

theorem not_mem_of_first (hz : z.toList.head? = some '_') : z ∉ names := fun hmem =>
  (hwritten z hmem).1 hz

end Clear

end Name

/-- The marks of an outline: what is bound, and where a block starts or ends. -/
inductive Stmt.Mark where
  | bind (x : String)
  | ret
  | branch
  | otherwise
  | loop
  | close
deriving DecidableEq, Repr

namespace Stmt

mutual

/-- What is left of a statement if nothing is looked at but the binds of some names. -/
def outline (names : List String) : Stmt → List Mark
  | .bind target _ => (target.names.filter (· ∈ names)).map .bind
  | .ret _ => [.ret]
  | .branch _ whenTrue whenFalse =>
    .branch :: outlineAll names whenTrue ++ .otherwise :: outlineAll names whenFalse ++ [.close]
  | .loop _ body => .loop :: outlineAll names body ++ [.close]
  | _ => []

def outlineAll (names : List String) : List Stmt → List Mark
  | [] => []
  | s :: rest => outline names s ++ outlineAll names rest

end

section Outlines
variable {target value : Expr}

theorem outlineAll_append :
    outlineAll names (block ++ out) = outlineAll names block ++ outlineAll names out := by
  induction block with
  | nil => rfl
  | cons s block ih => rw [cons_append, outlineAll, outlineAll, ih, append_assoc]

theorem outline_bind (hx : target.symbol? = some x) :
    outline names (.bind target value) = if x ∈ names then [.bind x] else [] := by
  rw [outline, Expr.names_of_symbol hx]
  by_cases hmem : x ∈ names
  · simp [hmem]
  · simp [hmem]

theorem outline_new (hx : target.symbol? = some x) (hnew : x ∉ names) :
    outline names (.bind target value) = [] := by
  rw [outline_bind hx, if_neg hnew]

theorem outlineAll_laid (block : List Stmt) :
    outlineAll names (laidAll block) = outlineAll names block := by
  induction block using block_induction with
  | nil => rfl
  | cons s rest ihs ih =>
    rw [laidAll, outlineAll, outlineAll, ih]
    cases s <;> simp_all [laid, outline, suites, Expr.names_laid]

theorem hasTuples_clear (hwritten : ∀ x ∈ names, IsWritten x) : HasTuples (Clear names) where
  tuple := clear_of_char hwritten (show ':' ∈ _ by decide) (by decide)
  project index := by
    refine clear_of_char hwritten (c := ':') ?_ (by decide)
    rw [Snippet.project, String.toList_append, String.toList_append]
    exact mem_append_left _ (mem_append_left _ (by decide))

theorem Spreads.outline (h : Spreads G N xs out) (hwritten : ∀ x ∈ names, IsWritten x) :
    outlineAll names out = (xs.filter (· ∈ names)).map .bind := by
  induction h with
  | nil => rfl
  | @target _ x _ _ _ _ hx _ _ ih =>
    rw [outlineAll, outline_bind hx, ih, filter_cons]
    by_cases hmem : x ∈ names
    · simp [hmem]
    · simp [hmem]
  | temporary hx _ _ ih =>
    rw [outlineAll, outline_new hx (not_mem_of_first hwritten (by rw [String.toList_append]; rfl)), ih]
    rfl

theorem FlattensTo.outline (h : FlattensTo block out) (hwritten : ∀ x ∈ names, IsWritten x) :
    outlineAll names out = outlineAll names block := by
  induction h with
  | nil => rfl
  | @bind _ value _ _ _ hspreads _ ih =>
    have hany : value.ReadsOnly (fun _ => True) fun _ => True := .of_names (fun _ _ => trivial) fun _ _ => trivial
    rw [outlineAll_append, ih, (hspreads _ _ ⟨trivial, fun _ => trivial⟩ hany).outline hwritten, outlineAll,
      Stmt.outline]
  | ret _ ih => rw [outlineAll, outlineAll, ih]
  | branch _ _ _ iht ihf ih => rw [outlineAll, outlineAll, Stmt.outline, Stmt.outline, iht, ihf, ih]
  | loop _ _ ihb ih => rw [outlineAll, outlineAll, Stmt.outline, Stmt.outline, ihb, ih]

end Outlines

end Stmt

namespace Containers
variable {S : String → Prop}

theorem Stores.outline (h : Stores S block out) (hclear : ∀ z ∈ namesAll block, Clear names z) :
    outlineAll names out = outlineAll names block := by
  induction h with
  | nil => rfl
  | bind _ ih | ret _ ih => rw [outlineAll, outlineAll, ih fun z hz => hclear z (mem_append_right _ hz)]
  | @view _ x _ _ _ _ _ _ _ hx _ _ _ hs _ _ ih =>
    have hnew := (hclear x (by simp [Expr.names_of_symbol hx])).not_mem_container
    rw [outlineAll, outline_new hs hnew, outlineAll, outlineAll, ih fun z hz => hclear z (mem_append_right _ hz)]
    rfl
  | @tuple S x target storage function arguments arguments' typing typing' rest out hx hs _ _ _ ih =>
    have hnew := (hclear x (by simp [Expr.names_of_symbol hx])).not_mem_container
    rw [outlineAll, outlineAll, outline_new hs hnew, outlineAll, ih fun z hz => hclear z (mem_append_right _ hz)]
    rfl
  | branch _ _ _ iht ihf ih =>
    rw [outlineAll, outlineAll, Stmt.outline, Stmt.outline, iht fun z hz => hclear z (by simp [hz]),
      ihf fun z hz => hclear z (by simp [hz]),
      ih fun z hz => hclear z (mem_append_right _ hz)]
  | loop _ _ ihb ih =>
    rw [outlineAll, outlineAll, Stmt.outline, Stmt.outline, ihb fun z hz => hclear z (by simp [hz]),
      ih fun z hz => hclear z (mem_append_right _ hz)]

end Containers

namespace Phases
variable {Γ : Context} {s s' : State}

theorem readable_clear (hwritten : ∀ x ∈ names, IsWritten x) :
    Readable True (fun _ => True) (fun _ => True) (· = Clear names) where
  boundary := trivial
  tuple := trivial
  drawn := by
    rintro N y rfl hy
    have hclear : Clear names y := by
      rcases hy with ⟨n, rfl⟩ | ⟨x, n, hx, rfl⟩
      · exact clear_of_first hwritten (by rw [String.toList_append]; rfl)
      · exact hx.realized n
    funext z
    exact propext ⟨fun hz => hz.elim id fun hz => hz ▸ hclear, .inl⟩
  stored _ _ := trivial
  storage _ hN _ hw := by
    subst hN
    exact hw.container

theorem DrawnFor.not_mem (h : DrawnFor (Clear names) y) (hwritten : ∀ x ∈ names, IsWritten x) :
    y ∉ names := by
  rcases h with ⟨n, rfl⟩ | ⟨x, n, hx, rfl⟩
  · exact not_mem_of_first hwritten (by rw [String.toList_append]; rfl)
  · exact hx.not_mem_realized n

theorem Derives.outline {task : Task} {results : List (Expr × Completion)}
    (h : Derives Γ task s results binds s') (hwritten : ∀ x ∈ names, IsWritten x) (hstems : s.Stems)
    (hs : s.ReadsOnly (Clear names) (fun _ => True) fun _ => True)
    (htask : ∀ e ∈ task.exprs, ∀ z ∈ e.names, Clear names z) :
    outlineAll names binds = [] ∧ s'.ReadsOnly (Clear names) (fun _ => True) (fun _ => True) ∧
      ∀ r ∈ results, r.1.ReadsOnly (Clear names) fun _ => True := by
  obtain ⟨N, hbinds, rfl, hs', hresults⟩ := h.leaves (readable_clear hwritten) hstems rfl hs
    (fun e he => .of_names (fun _ _ => trivial) (htask e he)) fun _ => trivial
  refine ⟨?_, hs', hresults⟩
  have hnew : ∀ {N N' : String → Prop} {binds : List Stmt}, Binds DrawnFor (fun _ => True) N binds N' →
      N = Clear names → outlineAll names binds = [] := by
    intro N N' binds hbinds hN
    induction hbinds with
    | nil => rfl
    | cons hy hdrawn _ _ ih =>
      subst hN
      rw [outlineAll, outline_new hy (hdrawn.not_mem hwritten), ih ((readable_clear hwritten).drawn rfl hdrawn)]
      rfl
  exact hnew hbinds rfl

/-- An analyzed block keeps the outline it had. -/
theorem Analyzed.outline (h : Analyzed Γ block s out s') (hwritten : ∀ x ∈ names, IsWritten x)
    (hstems : s.Stems) (hs : s.ReadsOnly (Clear names) (fun _ => True) fun _ => True)
    (hclear : ∀ z ∈ namesAll block, Clear names z) :
    outlineAll names out = outlineAll names block := by
  have hforget : ∀ {s t : State} {xs : List String}, s.ReadsOnly (Clear names) (fun _ => True) (fun _ => True) →
      Forgets s xs t → t.ReadsOnly (Clear names) (fun _ => True) fun _ => True :=
    fun hs hf => hs.forget hf fun _ => .inr trivial
  induction h with
  | nil => rfl
  | @bind _ _ value' x completion _ _ _ _ s₁ _ _ hd _ ih =>
    obtain ⟨hbinds, hs₁, hresults⟩ := hd.outline hwritten hstems hs fun e he z hz =>
      hclear z (by simp_all [Stmt.namesAll, Stmt.names, Task.exprs])
    have hgrows := (s₁.grows_record Γ.entry x value' completion).trans (grows_flush _)
    have hrecord : (s₁.record Γ.entry x value' completion).ReadsOnly (Clear names) (fun _ => True)
        fun _ => True := hs₁.record (hresults _ mem_cons_self) fun _ _ => trivial
    rw [outlineAll_append, hbinds, nil_append, outlineAll, outlineAll,
      ih ((hstems.mono hd.grows).mono hgrows) (hforget hrecord (forgets_flush _)) fun z hz =>
        hclear z (mem_append_right _ hz)]
    rfl
  | ret _ hd _ ih | entryRet _ hd _ ih =>
    obtain ⟨hbinds, hs₁, -⟩ := hd.outline hwritten hstems hs fun e he z hz =>
      hclear z (by simp_all [Stmt.namesAll, Stmt.names, Task.exprs])
    rw [outlineAll_append, hbinds, nil_append, outlineAll, outlineAll,
      ih ((hstems.mono hd.grows).mono (grows_flush _)) (hforget hs₁ (forgets_flush _)) fun z hz =>
        hclear z (mem_append_right _ hz)]
    rfl
  | @branch _ _ _ _ _ _ _ _ _ _ _ s₁ t u _ hd ht hu _ iht ihu ih =>
    obtain ⟨hbinds, hs₁, -⟩ := hd.outline hwritten hstems hs fun e he z hz =>
      hclear z (by simp_all [Stmt.namesAll, Stmt.names, Task.exprs])
    have hs₁ := hforget hs₁ (forgets_flush _)
    have hstems₁ : s₁.flush.Stems := (hstems.mono hd.grows).mono (grows_flush _)
    have hstems₂ : (s₁.flush.resume t).Stems := hstems₁.mono (grows_resume ht.grows)
    rw [outlineAll_append, hbinds, nil_append, outlineAll, outlineAll, Stmt.outline, Stmt.outline,
      iht hstems₁ (hforget hs₁ (forgets_enter _)) fun z hz => hclear z (by simp [hz]),
      ihu hstems₂ (hforget (hforget hs₁ (forgets_resume _ t)) (forgets_enter _)) fun z hz => hclear z (by simp [hz]),
      ih (hstems₁.mono (grows_joined ht.grows hu.grows)) (hforget hs₁ (forgets_joined _ t u)) fun z hz =>
        hclear z (mem_append_right _ hz)]
  | @loop _ _ _ _ body _ _ _ s s₁ t _ selfResults head _ hd _ _ htrip _ _ _ iht ih =>
    have hinvalidate := s.grows_invalidateAll (bodyTargets body)
    obtain ⟨hbinds, hs₁, -⟩ := hd.outline hwritten (hstems.mono hinvalidate)
      (hforget hs (forgets_invalidateAll _ _)) fun e he z hz =>
        hclear z (by simp_all [Stmt.namesAll, Stmt.names, Task.exprs])
    have hs₁ := hforget hs₁ (forgets_flush _)
    have hstems₁ : s₁.flush.Stems := ((hstems.mono hinvalidate).mono hd.grows).mono (grows_flush _)
    have hgrows := grows_settled htrip.grows
    rw [outlineAll_append, hbinds, nil_append, outlineAll, outlineAll, Stmt.outline, Stmt.outline,
      iht hstems₁.tripStart (hforget hs₁ (forgets_tripStart _ selfResults head)) fun z hz => hclear z (by simp [hz]),
      ih (hstems₁.mono hgrows) (hforget hs₁ (forgets_settled _ t head)) fun z hz => hclear z (mem_append_right _ hz)]

end Phases

theorem Stmt.Binds.outline {T : (String → Prop) → String → Prop} {N' : String → Prop}
    (h : Binds T G N binds N')
    (hT : ∀ {N : String → Prop} (y : String), T N y → y ∈ xs ∨ y ∉ names) :
    ∀ mark ∈ outlineAll names binds, ∃ x ∈ xs, mark = .bind x := by
  induction h with
  | nil => exact nofun
  | @cons _ _ y _ _ _ hy hassigns _ _ ih =>
    intro mark hmark
    rw [outlineAll, outline_bind hy, mem_append] at hmark
    rcases hmark with hmark | hmark
    · split at hmark
      · exact ⟨y, (hT y hassigns).resolve_right fun hnew => hnew ‹_›, mem_singleton.1 hmark⟩
      · cases hmark
    · exact ih mark hmark

theorem TailCall.Assigns.new (h : TailCall.Assigns parameters N y)
    (hwritten : ∀ x ∈ names, IsWritten x)
    (hclear : ∀ x ∈ parameters, Clear names x) : y ∈ parameters ∨ y ∉ names := by
  rcases h with (hy | ⟨n, rfl⟩) | ⟨w, hw | ⟨n, rfl⟩, rfl⟩
  · exact .inl hy
  · exact .inr (not_mem_of_first hwritten (by rw [String.toList_append]; rfl))
  · exact .inr (hclear w hw).not_mem_container
  · refine .inr (not_mem_of_first hwritten ?_)
    rw [container, String.toList_append, String.toList_append]
    rfl

/-- How a body is given a loop in place of a tail call, if at all: of the names in `names`, nothing
but parameters is bound for the next turn. -/
inductive TailCall.Turns (names parameters : List String) (symbol : String) (body : List Stmt) : List Stmt → Prop where
  | same : Turns names parameters symbol body body
  | loop {call : TailCall} {assigned : List Stmt} : TailCall.ofBody? symbol body = some call →
    (∀ mark ∈ outlineAll names assigned, ∃ x ∈ parameters, mark = .bind x) →
    Turns names parameters symbol body
      (call.leading ++ .loop call.loopTest (call.step ++ assigned ++ call.leading) :: call.base)

theorem Procedure.Loops.turns {symbol : String} {p' : Procedure} (h : p.Loops entry p')
    (hsymbol : p.symbol? = some symbol) (hparameters : p.parameterNames? = some parameters)
    (hwritten : ∀ x ∈ names, IsWritten x) (hclear : ∀ x ∈ parameters, Clear names x) :
    p'.name = p.name ∧ p'.parameters = p.parameters ∧
      TailCall.Turns names parameters symbol p.body p'.body := by
  cases h with
  | same => exact ⟨rfl, rfl, .same⟩
  | @loop _ _ _ _ _ hsymbol' hcall hstem _ hassigned =>
    cases hsymbol.symm.trans hsymbol'
    refine ⟨rfl, rfl, .loop hcall ?_⟩
    obtain ⟨N, hbinds⟩ := (TailCall.reassign_binds hassigned hstem).2 (N := fun _ => True) (G := fun _ => True)
      hparameters (fun e _ => .of_names (fun _ _ => trivial) fun _ _ => trivial) fun _ _ _ _ _ => trivial
    exact hbinds.outline fun y hy => hy.new hwritten hclear

namespace SourceUnit
variable {text : List Char} {unit : SourceUnit} {lowered : Lowered} {i : Nat}

/-- Lowering binds no name of a procedure anew: of the binds of these names, those of the text are
left, in their places. A loop in place of a tail call binds parameters as well. -/
theorem lower_binds_new (hread : ofText? text = .ok unit)
    (hlower : unit.module.lower unit.registry entry = .ok lowered)
    (hi : unit.module[i]? = some p.toStmt)
    (hclear : ∀ z ∈ p.toStmt.names, Clear p.toStmt.names z) :
    ∃ (p' : Procedure) (symbol : String) (parameters : List String) (body : List Stmt),
      lowered.module[i]? = some p'.toStmt ∧ p.symbol? = some symbol ∧ p'.symbol? = some symbol ∧
      p.parameterNames? = some parameters ∧ p'.parameterNames? = some parameters ∧
      outlineAll p.toStmt.names body = outlineAll p.toStmt.names p.body ∧
      TailCall.Turns p.toStmt.names parameters symbol body p'.body := by
  have hall := ofText?_isRead hread
  obtain ⟨q, hq, hp⟩ := hall _ (mem_iff_getElem?.2 ⟨i, hi⟩)
  cases Module.Rewrites.toStmt_inj hq
  obtain ⟨⟨x, ty, hname, -⟩, parameters, hparameters, -⟩ := id hp
  have hsymbol : p.symbol? = some x := by rw [Procedure.symbol?, hname]; rfl
  have hmem : ∀ y ∈ parameters, y ∈ p.toStmt.names := by
    intro y hy
    rw [← Procedure.namesAll_parameters hparameters] at hy
    simp [Procedure.toStmt, names, hy]
  have hwritten := hp.written
  obtain ⟨flat, backed, looped, procedure, wrapping, -, -, hlowers, -, -, hmodule⟩ :=
    Module.lower_stages (fun st hst => (hall st hst).imp fun p h =>
      ⟨h.1, h.2.body.elim fun _ h => h.2.2.2.arePatterned⟩) hlower
  obtain ⟨p', hi', flat, stored, analyzed, hflattens, hstores, hkept, -, ⟨-, -, hanalyzed⟩, hloops⟩ := hlowers.get hi
  have hbodyClear : ∀ z ∈ namesAll (laidAll p.body), Clear p.toStmt.names z := by
    intro z hz
    rw [namesAll_laid] at hz
    exact hclear z (by simp [Procedure.toStmt, names, hz])
  have hflatClear := hflattens.mentions (hasTuples_clear hwritten)
    (fun n => clear_of_first hwritten (by rw [String.toList_append]; rfl)) hbodyClear
  have hstored : outlineAll p.toStmt.names stored = outlineAll p.toStmt.names flat ∧
      ∀ z ∈ namesAll stored, Clear p.toStmt.names z := by
    by_cases hentry : p.symbol? = some entry
    · refine ⟨(hstores hentry).outline hflatClear, fun z hz => ?_⟩
      rcases (hstores hentry).mentions z hz with hz | ⟨w, hw, rfl⟩
      · exact hflatClear z hz
      · exact (hflatClear w hw).container
    · rw [hkept hentry]
      exact ⟨rfl, hflatClear⟩
  have houtline : outlineAll p.toStmt.names analyzed = outlineAll p.toStmt.names p.body := by
    rw [← outlineAll_laid p.body, ← hflattens.outline hwritten, ← hstored.1]
    split at hanalyzed
    · obtain ⟨phases, temporaries, s', hphases, htemporaries, hanalyzed⟩ := hanalyzed
      exact hanalyzed.outline hwritten (Phases.State.stems_bodyStart hphases htemporaries)
        (.bodyStart fun _ _ => trivial) hstored.2
    · exact congrArg _ hanalyzed
  have hsymbolLaid : (p.laid.withBody analyzed).symbol? = some x := p.symbol?_laid.trans hsymbol
  have hparametersLaid : (p.laid.withBody analyzed).parameterNames? = some parameters :=
    Procedure.parameterNames?_laid hparameters
  obtain ⟨hname', hparameters', hturns⟩ := hloops.turns hsymbolLaid hparametersLaid hwritten fun z hz =>
    hclear z (hmem z hz)
  refine ⟨p', x, parameters, analyzed, ?_, hsymbol, ?_, hparameters, ?_, houtline, hturns⟩
  · rw [hmodule, List.getElem?_append_left (List.getElem?_eq_some_iff.1 hi').1, hi']
  · rwa [Procedure.symbol?, hname']
  · rwa [Procedure.parameterNames?, hparameters']

end SourceUnit

/-- Shifts a row before every turn, and sums it up. -/
def turningText : List Char :=
  ("declare shift : fn([Int32]) -> [Int32] propagates; declare sum : fn([Int32]) -> Int32 forces; " ++
   "procedure main(xs: [Int32], n: Int32) -> Int32 \x7b if n == 0 \x7b return n; \x7d else \x7b " ++
   "(ys, m) = (shift(xs), sum(shift(xs))); return main(ys, m); \x7d \x7d").toList

theorem turningText_binds_new :
    ∃ (unit : SourceUnit) (lowered : Lowered) (p p' : Procedure) (body : List Stmt),
    SourceUnit.ofText? turningText = .ok unit ∧ unit.module.lower unit.registry "main" = .ok lowered ∧
    unit.module[0]? = some p.toStmt ∧ lowered.module[0]? = some p'.toStmt ∧
    Stmt.outlineAll p.toStmt.names body = Stmt.outlineAll p.toStmt.names p.body ∧
    TailCall.Turns p.toStmt.names ["xs", "n"] "main" body p'.body := by
  have hchecks : ((SourceUnit.ofText? turningText).toOption.any fun unit =>
      (unit.module.lower unit.registry "main").toOption.any fun _ =>
        (unit.module[0]?.bind Stmt.procedure?).any fun p =>
          decide (p.symbol? = some "main" ∧ p.parameterNames? = some ["xs", "n"]) &&
          p.toStmt.names.all fun z => p.toStmt.names.all fun x => !(z.toList ++ ['_']).isPrefixOf x.toList) = true := by
    decide +kernel
  obtain ⟨unit, hread, hchecks⟩ := Except.any_toOption.1 hchecks
  obtain ⟨lowered, hlower, hchecks⟩ := Except.any_toOption.1 hchecks
  obtain ⟨p, hi, hchecks⟩ := Stmt.getElem?_of_procedure hchecks
  obtain ⟨hp, hnames⟩ := Bool.and_eq_true_iff.1 hchecks
  obtain ⟨hsymbol, hparameters⟩ := of_decide_eq_true hp
  simp only [List.all_eq_true, Bool.not_eq_true'] at hnames
  obtain ⟨p', symbol, parameters, body, hi', hsymbol', -, hparameters', -, hbody, hturns⟩ :=
    SourceUnit.lower_binds_new hread hlower hi fun z hz => Name.clear_of_not_prefix (hnames z hz)
  cases hsymbol.symm.trans hsymbol'
  cases hparameters.symm.trans hparameters'
  exact ⟨unit, lowered, p, p', body, hread, hlower, hi, hi', hbody, hturns⟩

/-- A parameter has the name that is drawn for a row. -/
def takenText : List Char :=
  ("declare shift : fn([Int32]) -> [Int32] propagates; declare fold : fn(Int32, [Int32]) -> Int32 forces; " ++
   "procedure main(xs: [Int32], ys_phase0: Int32) -> Int32 \x7b ys = shift(xs); " ++
   "s = fold(ys_phase0, ys); return s; \x7d").toList

/-- The parameter is bound to the realized row. -/
theorem lower_binds_taken : ∃ (unit : SourceUnit) (lowered : Lowered) (p p' : Procedure),
    SourceUnit.ofText? takenText = .ok unit ∧ unit.module.lower unit.registry "main" = .ok lowered ∧
    unit.module[0]? = some p.toStmt ∧ lowered.module[0]? = some p'.toStmt ∧
    p.parameterNames? = some ["xs", "ys_phase0"] ∧
    Stmt.outlineAll p.toStmt.names p.body = [.bind "ys", .bind "s", .ret] ∧
    Stmt.outlineAll p.toStmt.names p'.body = [.bind "ys", .bind "ys_phase0", .bind "s", .ret] := by
  have hchecks : ((SourceUnit.ofText? takenText).toOption.any fun unit =>
      (unit.module.lower unit.registry "main").toOption.any fun lowered =>
        (unit.module[0]?.bind Stmt.procedure?).any fun p => (lowered.module[0]?.bind Stmt.procedure?).any fun p' =>
          decide (p.parameterNames? = some ["xs", "ys_phase0"] ∧
            Stmt.outlineAll p.toStmt.names p.body = [.bind "ys", .bind "s", .ret] ∧
            Stmt.outlineAll p.toStmt.names p'.body = [.bind "ys", .bind "ys_phase0", .bind "s", .ret])) = true := by
    decide +kernel
  obtain ⟨unit, hread, hchecks⟩ := Except.any_toOption.1 hchecks
  obtain ⟨lowered, hlower, hchecks⟩ := Except.any_toOption.1 hchecks
  obtain ⟨p, hi, hchecks⟩ := Stmt.getElem?_of_procedure hchecks
  obtain ⟨p', hi', hchecks⟩ := Stmt.getElem?_of_procedure hchecks
  exact ⟨unit, lowered, p, p', hread, hlower, hi, hi', of_decide_eq_true hchecks⟩

end DataParallel
