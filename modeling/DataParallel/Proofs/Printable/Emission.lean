import DataParallel.Proofs.Assignment
import DataParallel.Proofs.Frames
import DataParallel.Proofs.Printable.Basic

/-! A printable module has code and a text.

A block declares nothing that is declared in it or around it. A name is declared where it is first
bound, or in front of the branch or loop that binds it if it is mentioned behind that. So a name
that has been assigned on every path to where it is read is declared there, as long as nothing
stands behind a return: no path leads there. -/

namespace DataParallel

open DataParallel.Expr List
open Name (Also)

variable {e : Expr} {s : Stmt} {block rest : List Stmt} {A own : String → Prop} {z : String}

namespace Code

/-- What a piece of code declares for the rest of its block. -/
def declared : Code → List String
  | .declare _ x | .define _ x _ => [x]
  | _ => []

mutual

/-- Code of a body where `D` is declared: it declares nothing of that again, and of the names `own`
it uses only what is declared. -/
def Proper (own D : String → Prop) : Code → Prop
  | .declare _ x => ¬ D x
  | .define _ x value => ¬ D x ∧ ∀ z ∈ value.names, own z → D z
  | .assign x value => ∀ z ∈ x :: value.names, own z → D z
  | .ret value => ∀ z ∈ value.names, own z → D z
  | .branch test whenTrue whenFalse =>
    (∀ z ∈ test.names, own z → D z) ∧ AllProper own D whenTrue ∧ AllProper own D whenFalse
  | .loop test body => (∀ z ∈ test.names, own z → D z) ∧ AllProper own D body
  | .boundary => True
  | _ => False

def AllProper (own D : String → Prop) : List Code → Prop
  | [] => True
  | code :: rest => Proper own D code ∧ AllProper own (Also D code.declared) rest

end

theorem allProper_append {D : String → Prop} {front back : List Code} :
    AllProper own D (front ++ back) ↔
    AllProper own D front ∧ AllProper own (Also D (front.flatMap declared)) back := by
  induction front generalizing D with
  | nil => simp [AllProper]
  | cons code front ih => simp only [cons_append, AllProper, ih, and_assoc, flatMap_cons, Name.also_append]

end Code

namespace Stmt

mutual

/-- No path leads behind a statement. -/
def stops : Stmt → Bool
  | .ret _ => true
  | .branch _ whenTrue whenFalse => stopsAll whenTrue && stopsAll whenFalse
  | _ => false

def stopsAll : List Stmt → Bool
  | [] => false
  | s :: rest => stops s || stopsAll rest

end

mutual

/-- Nothing stands where no path leads. -/
def isLive : Stmt → Bool
  | .branch _ whenTrue whenFalse => areLive whenTrue && areLive whenFalse
  | .loop _ body => areLive body
  | _ => true

def areLive : List Stmt → Bool
  | [] => true
  | s :: rest => isLive s && (!stops s || rest.isEmpty) && areLive rest

end

theorem mem_of_assignedAll (hs : PrintableAll IsTarget block) (hstops : stopsAll block = false)
    (hz : assignedAll A block z) : A z ∨ z ∈ localNames block := by
  induction block using block_induction generalizing A with
  | nil => exact .inl hz
  | cons s rest ihs ih =>
    obtain ⟨hone, hrest⟩ := Bool.or_eq_false_iff.1 hstops
    rcases ih hs.2 hrest hz with hz | hz
    · cases s with
      | bind target value =>
        refine hz.imp_right fun hz => mem_localNames_bind_iff.2 (.inl ?_)
        cases target with
        | name => rw [mem_singleton.1 hz]; rfl
        | _ => cases hs.1.1.1
      | ret => cases hone
      | branch test whenTrue whenFalse =>
        rw [mem_localNames_branch_iff]
        rcases Bool.and_eq_false_iff.1 hone with hone | hone
        · exact (ihs _ (by simp [suites]) hs.1.2.1 hone hz.1).imp_right fun hz => .inl (.inl hz)
        · exact (ihs _ (by simp [suites]) hs.1.2.2 hone hz.2).imp_right fun hz => .inl (.inr hz)
      | loop => exact .inl hz
      | _ => exact hs.1.elim
    · exact .inr (mem_localNames_rest hz)

theorem boundNamesAll_isTarget (h : PrintableAll IsTarget block) (he : e ∈ boundNamesAll block) :
    e.IsTarget := by
  induction block using block_induction with
  | nil => cases he
  | cons s rest ihs ih =>
    rcases mem_append.1 he with he | he
    · cases s with
      | bind target value =>
        rw [boundNames, if_pos h.1.1.1] at he
        cases mem_singleton.1 he
        exact h.1.1
      | branch =>
        rcases mem_append.1 he with he | he
        · exact ihs _ (by simp [suites]) h.1.2.1 he
        · exact ihs _ (by simp [suites]) h.1.2.2 he
      | loop => exact ihs _ (by simp [suites]) h.1.2 he
      | _ => cases he
    · exact ih h.2 he

theorem targets_isTarget (h : Printable IsTarget s) : ∀ e ∈ s.targets, e.IsTarget := by
  have hone : PrintableAll IsTarget [s] := ⟨h, trivial⟩
  exact fun _ he => boundNamesAll_isTarget hone (mem_append_left _ (mem_of_firstOfEachName he))

end Stmt

/-- The names that are declared in some scope. -/
def Scopes.Has (scopes : Scopes Unit) (z : String) : Prop := scopes.contains z = true

namespace Scopes

theorem has_declare (scopes : Scopes Unit) (x : String) :
    (scopes.declare x).Has = Also scopes.Has [x] := by
  funext z
  rw [Has, declare, contains, get?_insert, Also, mem_singleton]
  by_cases hz : z = x
  · simp [hz]
  · simp [hz, Has, contains]

theorem has_enter (scopes : Scopes Unit) : scopes.enter.Has = scopes.Has := by
  funext z
  rw [Has, contains, get?_enter]
  rfl

end Scopes

namespace Emission
open Code (AllProper Proper declared)

variable {scopes scopes' scopes'' : Scopes Unit} {code code' : List Code}

/-- What is emitted from some scopes on. -/
structure Lays (own : String → Prop) (scopes : Scopes Unit) (code : List Code) (scopes' : Scopes Unit) : Prop where
  outer : scopes'.outer = scopes.outer
  has : scopes'.Has = Also scopes.Has (code.flatMap declared)
  proper : AllProper own scopes.Has code

theorem Lays.nil : Lays own scopes [] scopes := ⟨rfl, by simp, trivial⟩

theorem Lays.append (h : Lays own scopes code scopes') (h' : Lays own scopes' code' scopes'') :
    Lays own scopes (code ++ code') scopes'' where
  outer := h'.outer.trans h.outer
  has := by rw [h'.has, h.has, flatMap_append, Name.also_append]
  proper := Code.allProper_append.2 ⟨h.proper, h.has ▸ h'.proper⟩

theorem Lays.grows (h : Lays own scopes code scopes') (hz : scopes.Has z) :
    scopes'.Has z := h.has ▸ .inl hz

/-- A piece of code that declares nothing in its own block. -/
theorem Lays.plain {code : Code} (hnil : code.declared = []) (h : Proper own scopes.Has code) :
    Lays own scopes [code] scopes :=
  ⟨rfl, by simp [hnil], h, trivial⟩

theorem Lays.declares {code : Code} {x : String} (hdeclared : code.declared = [x])
    (h : Proper own scopes.Has code) : Lays own scopes [code] (scopes.declare x) :=
  ⟨rfl, by rw [scopes.has_declare, flatMap_singleton, hdeclared], h, trivial⟩

/-- The steps succeed, and what they emit leads to scopes that are `Q`. -/
def Emits (own : String → Prop) (x : Emitting (List Code)) (scopes : Scopes Unit) (Q : Scopes Unit → Prop) : Prop :=
  ∃ code scopes', x.run scopes = .ok (code, scopes') ∧ Lays own scopes code scopes' ∧ Q scopes'

theorem run_inScope {α : Type} {x : Emitting α} {a : α}
    (hrun : x.run scopes.enter = .ok (a, scopes'))
    (houter : scopes'.outer = scopes.enter.outer) : (inScope x).run scopes = .ok (a, scopes) := by
  show (x.run scopes.enter >>= fun r => .ok (r.1, r.2.leave.2)) = _
  rw [hrun]
  show Except.ok (a, scopes'.leave.2) = _
  rw [Scopes.leave, houter]
  rfl

theorem Emits.inScope {x : Emitting (List Code)} {Q : Scopes Unit → Prop}
    (h : Emits own x scopes.enter Q) :
    ∃ code, (inScope x).run scopes = .ok (code, scopes) ∧ AllProper own scopes.Has code := by
  obtain ⟨code, scopes', hrun, hlays, -⟩ := h
  exact ⟨code, run_inScope hrun hlays.outer, scopes.has_enter ▸ hlays.proper⟩

theorem run_name {x context : String} (hx : e.symbol? = some x) :
    (liftM (e.expectName context) : Emitting String).run scopes = .ok (x, scopes) :=
  Lower.run_lift_ok_iff.2 ⟨expectName_ok.2 hx, rfl⟩

theorem run_layout {layout : Layout} (hlayout : e.layout = some layout) :
    (liftM e.expectLayout : Emitting Layout).run scopes = .ok (layout, scopes) :=
  Lower.run_lift_ok_iff.2 ⟨expectLayout_ok.2 hlayout, rfl⟩

theorem run_term {term : Term} (hterm : e.toTerm = .ok term) :
    (liftM e.toTerm : Emitting Term).run scopes = .ok (term, scopes) :=
  Lower.run_lift_ok_iff.2 ⟨hterm, rfl⟩

theorem run_emitDeclare {x : String} {layout : Layout} (hx : e.symbol? = some x)
    (hlayout : e.layout = some layout) :
    (emitDeclare e).run scopes = .ok (.declare layout x, scopes.declare x) := by
  rw [emitDeclare, Lower.run_bind_of (run_name hx), Lower.run_bind_of (run_layout hlayout)]
  rfl

/-- A target is declared ahead if it is read later and is not declared yet. -/
theorem run_hoist {later : List String} {targets : List Expr} {x : String}
    (hx : e.symbol? = some x) : (hoist later (e :: targets)).run scopes =
      if (decide (x ∈ later) && !scopes.contains x) = true then
        (do return (← emitDeclare e) :: (← hoist later targets) : Emitting (List Code)).run scopes
      else (hoist later targets).run scopes := by
  rw [hoist, Lower.run_bind_of (run_name hx), Lower.run_bind_of Lower.run_get]
  split <;> rfl

theorem hoist_lays {later : List String} {targets : List Expr} (h : ∀ e ∈ targets, e.IsTarget) :
    Emits own (hoist later targets) scopes fun scopes' =>
      ∀ e ∈ targets, ∀ z ∈ later, e.symbol? = some z → scopes'.Has z := by
  induction targets generalizing scopes with
  | nil => exact ⟨_, _, rfl, .nil, by simp⟩
  | cons target rest ih =>
    have htarget := h target mem_cons_self
    have hrest {scopes} := @ih scopes fun e he => h e (mem_cons_of_mem target he)
    obtain ⟨x, hx⟩ := Option.isSome_iff_exists.1 htarget.1
    obtain ⟨layout, hlayout⟩ := htarget.2.layout
    rw [Emits, run_hoist hx]
    by_cases hcond : (decide (x ∈ later) && !scopes.contains x) = true
    · rw [if_pos hcond, Lower.run_bind_of (run_emitDeclare hx hlayout)]
      obtain ⟨code, scopes', hrun, hlays, hhas⟩ := @hrest (scopes.declare x)
      have hdeclare : Lays own scopes [.declare layout x] (scopes.declare x) := .declares rfl fun hhas => by
        simp [show scopes.contains x = true from hhas] at hcond
      refine ⟨.declare layout x :: code, scopes', ?_, hdeclare.append hlays,
        forall_mem_cons.2 ⟨fun z _ hz => ?_, hhas⟩⟩
      · rw [Lower.run_bind_of hrun]
        rfl
      · cases hx.symm.trans hz
        exact hlays.grows (scopes.has_declare x ▸ .inr mem_cons_self)
    · rw [if_neg hcond]
      obtain ⟨code, scopes', hrun, hlays, hhas⟩ := @hrest scopes
      refine ⟨code, scopes', hrun, hlays, forall_mem_cons.2 ⟨fun z hlater hz => ?_, hhas⟩⟩
      cases hx.symm.trans hz
      have hx' : scopes.contains x = true := by simpa [hlater] using hcond
      exact hlays.grows hx'

theorem emitHoisted_lays (own : String → Prop) (hs : s.Printable IsTarget) :
    Emits own (emitHoisted s rest) scopes fun scopes' =>
      s.blocks ≠ [] → ∀ z ∈ Stmt.namesAll rest, z ∈ Stmt.localNames [s] → scopes'.Has z := by
  obtain ⟨code, scopes', hrun, hlays, hhas⟩ :
    Emits own (hoist (Stmt.namesAll rest) s.targets) scopes _ := hoist_lays (Stmt.targets_isTarget hs)
  have htargets : ∀ z ∈ Stmt.namesAll rest, z ∈ Stmt.localNames [s] → scopes'.Has z := by
    intro z hz hlocal
    obtain ⟨e, he, hez⟩ := mem_filterMap.1 hlocal
    rw [Stmt.boundNamesAll, Stmt.boundNamesAll, append_nil] at he
    obtain ⟨e', he', hsame⟩ := @Stmt.mem_firstOfEachName _ [] _ he not_mem_nil
    exact hhas e' he' z hz (hsame.trans hez)
  cases s with
  | branch | loop => exact ⟨code, scopes', hrun, hlays, fun _ => htargets⟩
  | _ => exact ⟨_, _, rfl, .nil, fun hne => absurd rfl hne⟩

/-- Of the names `own`, those that have been assigned and are mentioned in a block are declared in
front of it. The block reads what has been assigned, and nothing stands behind a return. -/
def Ready (own A : String → Prop) (scopes : Scopes Unit) (block : List Stmt) : Prop :=
  ∀ z, own z →
    Stmt.AlwaysAll Stmt.Reads A block ∧ Stmt.areLive block = true ∧ (z ∈ Stmt.namesAll block → A z → scopes.Has z)

namespace Ready

theorem grown (h : Ready own A scopes block) (hgrows : ∀ z, scopes.Has z → scopes'.Has z) :
    Ready own A scopes' block :=
  fun z hown => (h z hown).imp_right (And.imp_right fun hhas hz hA => hgrows z (hhas hz hA))

theorem uses {term : Term} (h : Ready own A scopes (s :: rest)) (hnames : term.names = s.reads) :
    ∀ z ∈ term.names, own z → scopes.Has z := by
  intro z hz hown
  obtain ⟨hreads, -, hhas⟩ := h z hown
  rw [hnames] at hz
  have hmem : z ∈ s.names := Stmt.mem_names_iff.2 (.inl (Stmt.ownNames_of_reads hz))
  exact hhas (mem_append_left _ hmem) ((Stmt.alwaysAll_cons.1 hreads).1 z hz)

theorem inner (h : Ready own A scopes (s :: rest)) (hblock : block ∈ s.blocks) :
    Ready own A scopes.enter block := by
  intro z hown
  obtain ⟨hreads, hlive, hhas⟩ := h z hown
  refine ⟨(Stmt.alwaysAll_cons.1 hreads).2.1 block hblock, ?_, fun hz hA => scopes.has_enter ▸ hhas ?_ hA⟩
  · simp only [Stmt.areLive, Bool.and_eq_true] at hlive
    cases s <;> simp_all [Stmt.isLive, Stmt.blocks]
    rcases hblock with rfl | rfl <;> simp [hlive]
  · exact mem_append_left _ (Stmt.mem_names_iff.2 (.inr ⟨block, hblock, hz⟩))

theorem behind (h : Ready own A scopes (s :: rest)) (hs : s.Printable IsTarget)
    (hgrows : ∀ z, scopes.Has z → scopes'.Has z)
    (hnew : ∀ z ∈ Stmt.namesAll rest, z ∈ Stmt.localNames [s] → scopes'.Has z) :
    Ready own (Stmt.assigned A s) scopes' rest := by
  intro z hown
  obtain ⟨hreads, hlive, hhas⟩ := h z hown
  simp only [Stmt.areLive, Bool.and_eq_true] at hlive
  refine ⟨hreads.2, hlive.2, fun hz hassigned => ?_⟩
  have hstops : Stmt.stopsAll [s] = false := by
    cases rest with
    | nil => cases hz
    | cons => simpa [Stmt.stopsAll] using hlive.1.2
  have hone : Stmt.PrintableAll IsTarget [s] := ⟨hs, trivial⟩
  rcases Stmt.mem_of_assignedAll hone hstops hassigned with hA | hlocal
  · exact hgrows z (hhas (mem_append_right _ hz) hA)
  · exact hnew z hz hlocal

end Ready

theorem emitBind_lays {target value : Expr} {x : String} (htarget : target.IsTarget)
    (hx : target.symbol? = some x)
    (hvalue : value.Printable) (h : ∀ term : Term, term.names = value.names → ∀ z ∈ term.names, own z → scopes.Has z) :
    ∃ code scopes', (emitBind target value).run scopes = .ok (code, scopes') ∧ Lays own scopes [code] scopes' ∧
      scopes'.Has x := by
  obtain ⟨layout, hlayout⟩ := htarget.2.layout
  obtain ⟨term, hterm, hnames⟩ := (toTerm_meets hvalue).exists_ok
  have h := h term hnames
  rw [emitBind, Lower.run_bind_of (run_name hx), Lower.run_bind_of (run_term hterm), Lower.run_bind_of Lower.run_get]
  by_cases hhas : scopes.contains x = true
  · rw [if_pos hhas]
    exact ⟨.assign x term, scopes, rfl, .plain rfl (forall_mem_cons.2 ⟨fun _ => hhas, h⟩), hhas⟩
  · rw [if_neg hhas, Lower.run_bind_of (run_layout hlayout)]
    exact ⟨.define layout x term, scopes.declare x, rfl, .declares rfl ⟨hhas, h⟩,
      scopes.has_declare x ▸ .inr mem_cons_self⟩

mutual

theorem emitStmt_lays : ∀ {s : Stmt} {rest : List Stmt} {A : String → Prop} {scopes : Scopes Unit},
    s.Printable IsTarget → Ready own A scopes (s :: rest) → Emits own (emitStmt s) scopes fun scopes' =>
      s.blocks = [] → ∀ z ∈ Stmt.localNames [s], scopes'.Has z
  | .bind target value, _, A, scopes, hs, h => by
    obtain ⟨x, hx⟩ := Option.isSome_iff_exists.1 hs.1.1
    obtain ⟨code, scopes', hrun, hlays, hhas⟩ := emitBind_lays hs.1 hx hs.2 fun _ hnames => h.uses hnames
    refine ⟨if (Stmt.bind target value).isPhaseBoundary then [code, .boundary] else [code], scopes', ?_, ?_,
      fun _ z hz => ?_⟩
    · rw [emitStmt, StateT.run_bind, hrun]
      rfl
    · split
      · exact hlays.append (.plain rfl trivial)
      · exact hlays
    · rcases Stmt.mem_localNames_bind_iff.1 hz with hz | hz
      · cases hx.symm.trans hz
        exact hhas
      · cases hz
  | .ret value, _, A, scopes, hs, h => by
    obtain ⟨term, hterm, hnames⟩ := (toTerm_meets hs).exists_ok
    exact ⟨[.ret term], scopes, by rw [emitStmt, hterm]; rfl, .plain rfl (h.uses hnames), fun _ z hz => by cases hz⟩
  | .branch test whenTrue whenFalse, _, A, scopes, hs, h => by
    obtain ⟨term, hterm, hnames⟩ := (toTerm_meets hs.1).exists_ok
    obtain ⟨code, hrun, hcode⟩ := (emitStmts_lays hs.2.1 (h.inner (by simp [Stmt.blocks]))).inScope
    obtain ⟨code', hrun', hcode'⟩ := (emitStmts_lays hs.2.2 (h.inner (by simp [Stmt.blocks]))).inScope
    refine ⟨[.branch term code code'], scopes, ?_, .plain rfl ⟨h.uses hnames, hcode, hcode'⟩, by simp [Stmt.blocks]⟩
    rw [emitStmt, Lower.run_bind_of (run_term hterm), Lower.run_bind_of hrun, Lower.run_bind_of hrun']
    rfl
  | .loop test body, _, A, scopes, hs, h => by
    obtain ⟨term, hterm, hnames⟩ := (toTerm_meets hs.1).exists_ok
    obtain ⟨code, hrun, hcode⟩ := (emitStmts_lays hs.2 (h.inner (by simp [Stmt.blocks]))).inScope
    refine ⟨[.loop term code], scopes, ?_, .plain rfl ⟨h.uses hnames, hcode⟩, by simp [Stmt.blocks]⟩
    rw [emitStmt, Lower.run_bind_of (run_term hterm), Lower.run_bind_of hrun]
    rfl

theorem emitStmts_lays : ∀ {block : List Stmt} {A : String → Prop} {scopes : Scopes Unit},
    Stmt.PrintableAll IsTarget block → Ready own A scopes block → Emits own (emitStmts block) scopes fun _ => True
  | [], A, scopes, _, _ => ⟨_, _, rfl, .nil, trivial⟩
  | s :: rest, A, scopes, hs, h => by
    obtain ⟨hoisted, scopes₁, hrun₁, hlays₁, hhas₁⟩ := emitHoisted_lays own hs.1
    obtain ⟨code, scopes₂, hrun₂, hlays₂, hhas₂⟩ := emitStmt_lays hs.1 (h.grown fun _ => hlays₁.grows)
    have hlays := hlays₁.append hlays₂
    obtain ⟨more, scopes₃, hrun₃, hlays₃, -⟩ :=
      emitStmts_lays hs.2 (h.behind hs.1 (fun _ => hlays.grows) fun z hz hlocal => by
        by_cases hblocks : s.blocks = []
        · exact hhas₂ hblocks z hlocal
        · exact hlays₂.grows (hhas₁ hblocks z hz hlocal))
    refine ⟨_, _, ?_, hlays.append hlays₃, trivial⟩
    rw [emitStmts, Lower.run_bind_of hrun₁, Lower.run_bind_of hrun₂, Lower.run_bind_of hrun₃]
    rfl

end

theorem run_declareAll (names : List String) (scopes : Scopes Unit) :
    ∃ scopes', (names.forM declare).run scopes = .ok (⟨⟩, scopes') ∧ scopes'.outer = scopes.outer ∧
      scopes'.Has = Also scopes.Has names := by
  induction names generalizing scopes with
  | nil => exact ⟨_, rfl, rfl, by simp⟩
  | cons name names ih =>
    obtain ⟨scopes', hrun, houter, hhas⟩ := ih (scopes.declare name)
    exact ⟨scopes', hrun, houter, by rw [hhas, Scopes.has_declare, ← Name.also_append, singleton_append]⟩

end Emission

/-- The code of a procedure. Under the declarations of the parameters nothing is declared again, and
the names `own` are declared wherever they are used. -/
def Procedure.Declares (p : Procedure) (own : String → Prop) (code : List Code) : Prop :=
  ∃ binders result symbol parameters body, code = [.procedure binders result symbol parameters body] ∧
    p.name.symbol? = some symbol ∧ p.parameters.map Expr.symbol? = parameters.map (some ∘ Prod.snd) ∧
    Code.AllProper own (· ∈ parameters.map Prod.snd) body

/-- What a procedure may read from the start on: its parameters, and what its body does not bind. -/
def Procedure.Given (p : Procedure) (z : String) : Prop :=
  some z ∈ p.parameters.map Expr.symbol? ∨ z ∉ Stmt.localNames p.body

namespace Emission

/-- Steps that leave the state as they find it, one after the other. -/
theorem run_mapM {γ σ α : Type} {f : γ → Lower σ α} {g : γ → α} {s : σ} {cs : List γ}
    (h : ∀ c ∈ cs, (f c).run s = .ok (g c, s)) : (cs.mapM f).run s = .ok (cs.map g, s) := by
  induction cs with
  | nil => rfl
  | cons c cs ih =>
    simp only [mapM_cons, Lower.run_bind_ok_iff]
    exact ⟨_, _, h c mem_cons_self, _, _, ih fun d hd => h d (mem_cons_of_mem c hd), rfl⟩

/-- The code of a procedure, from the runs that its signature and its body have. -/
theorem run_emitProcedure {name : Expr} {parameters : List Expr} {steps : Emitting (List Code)}
    {symbol : String}
    {layout result : Layout} {layoutOf : Expr → Layout} {nameOf : Expr → String} {body : List Code}
    (hsymbol : name.symbol? = some symbol) (hlayout : name.layout = some layout)
    (hresult : (openLayout layout).2.result? = some result)
    (hlayouts : ∀ e ∈ parameters, e.layout = some (layoutOf e))
    (hnames : ∀ e ∈ parameters, e.symbol? = some (nameOf e))
    (hdeclare : ((parameters.map nameOf).forM declare).run scopes.enter = .ok (⟨⟩, scopes'))
    (houter : scopes'.outer = scopes.enter.outer) (hbody : (inScope steps).run scopes' = .ok (body, scopes')) :
    (emitProcedure name parameters steps).run scopes = .ok (.procedure (openLayout layout).1 result symbol
      ((parameters.map layoutOf).zip (parameters.map nameOf)) body, scopes) := by
  rw [emitProcedure, Lower.run_bind_of (run_name hsymbol), Lower.run_bind_of (run_layout hlayout)]
  simp only [hresult]
  rw [Lower.run_bind_of (run_mapM fun e he => run_layout (hlayouts e he))]
  refine run_inScope ?_ houter
  rw [Lower.run_bind_of (run_mapM fun e he => run_name (hnames e he)), Lower.run_bind_of hdeclare,
    Lower.run_bind_of hbody]
  rfl

theorem emitProcedure_declares {p : Procedure} (hp : p.Printable IsTarget)
    (h : ∀ z, own z → Stmt.AlwaysAll Stmt.Reads p.Given p.body ∧ Stmt.areLive p.body = true ∧
      z ∈ Stmt.localNames p.body) :
    ∃ code, (emitStmt p.toStmt).run ∅ = .ok (code, ∅) ∧ p.Declares own code := by
  obtain ⟨symbol, hsymbol⟩ := Option.isSome_iff_exists.1 hp.name.1
  obtain ⟨layout, hlayout⟩ := hp.name.2.layout
  obtain ⟨result, hresult⟩ := Option.isSome_iff_exists.1 (hp.result layout hlayout)
  choose! layoutOf hlayouts using fun e he => (hp.parameters e he).2.layout
  choose! nameOf hnames using fun e he => Option.isSome_iff_exists.1 (hp.parameters e he).1
  obtain ⟨scopes, hdeclare, houter, hhas⟩ := run_declareAll (p.parameters.map nameOf) (Scopes.enter ∅)
  have hhas : scopes.Has = (· ∈ p.parameters.map nameOf) := by
    rw [hhas, Scopes.has_enter]
    exact funext fun z => propext (or_iff_right Bool.false_ne_true)
  have hready : Ready own p.Given scopes.enter p.body := by
    intro z hown
    obtain ⟨hreads, hlive, hlocal⟩ := h z hown
    refine ⟨hreads, hlive, fun _ hgiven => ?_⟩
    obtain ⟨e, he, hz⟩ := mem_map.1 (hgiven.resolve_right (not_not_intro hlocal))
    rw [Scopes.has_enter, hhas]
    exact mem_map.2 ⟨e, he, Option.some.inj ((hnames e he).symm.trans hz)⟩
  obtain ⟨body, hbody, hproper⟩ := (emitStmts_lays hp.body hready).inScope
  have hzip : ((p.parameters.map layoutOf).zip (p.parameters.map nameOf)).map Prod.snd = p.parameters.map nameOf :=
    map_snd_zip (by simp)
  refine ⟨[.procedure (openLayout layout).1 result symbol
    ((p.parameters.map layoutOf).zip (p.parameters.map nameOf)) body],
    ?_, _, _, _, _, _, rfl, hsymbol, ?_, ?_⟩
  · rw [Procedure.toStmt, emitStmt,
      Lower.run_bind_of (run_emitProcedure hsymbol hlayout hresult hlayouts hnames hdeclare houter hbody)]
    rfl
  · rw [← map_map, hzip, map_map]
    exact map_congr_left hnames
  · rw [hzip, ← hhas]
    exact hproper

theorem emit_declares {procedures : List Procedure} {own : Procedure → String → Prop}
    (hprintable : ∀ p ∈ procedures, p.Printable IsTarget)
    (h : ∀ p ∈ procedures, ∀ z, own p z → Stmt.AlwaysAll Stmt.Reads p.Given p.body ∧ Stmt.areLive p.body = true ∧
      z ∈ Stmt.localNames p.body) :
    ∃ code : Procedure → List Code, Module.emit (procedures.map Procedure.toStmt) = .ok (procedures.map code) ∧
      ∀ p ∈ procedures, p.Declares (own p) (code p) := by
  choose! code hcode using fun p hp => emitProcedure_declares (hprintable p hp) (h p hp)
  refine ⟨code, ?_, fun p hp => (hcode p hp).2⟩
  rw [Module.emit, mapM_map, StateT.run'_eq]
  exact congrArg (Functor.map Prod.fst) (run_mapM fun p hp => (hcode p hp).1)

end Emission

theorem Module.Printable.print {module : Module} (h : module.Printable IsTarget) (style : Style) :
    ∃ text, module.print style = .ok text := by
  have : Nonempty Procedure := ⟨⟨default, [], []⟩⟩
  choose! p hp using h
  obtain ⟨code, hcode, -⟩ := @Emission.emit_declares (module.map p) (fun _ _ => False)
    (forall_mem_map.2 fun s hs => (hp s hs).2) fun _ _ _ => False.elim
  have hmodule : (module.map p).map Procedure.toStmt = module := by
    rw [map_map]
    exact (map_congr_left fun s hs => ((hp s hs).1).symm).trans (map_id _)
  rw [hmodule] at hcode
  rw [Module.print, hcode]
  exact ⟨_, rfl⟩

end DataParallel
