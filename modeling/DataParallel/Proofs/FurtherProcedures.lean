import Mathlib.Data.List.Pairwise
import DataParallel.Proofs.AddedNames
import DataParallel.Proofs.PhaseSafety
import DataParallel.Proofs.Phases.Contexts
import DataParallel.Proofs.Phases.Reachable
import DataParallel.Proofs.TupleLayouts

/-! Procedures behind a unit that it does not mention.

Every step goes through a module from front to back, so it has dealt with the procedures of the unit
before it comes to the others. Only two things are taken from the module as a whole: what is
registered and what is reached. Neither differs for the names of the unit. Storage is the exception,
since it gets its names behind the reader's back. -/

namespace DataParallel

open List Name

variable {entry : String} {p p' : Procedure} {names : List String} {registry : Registry}

section FrontToBack
variable {σ : Type} {all : List Stmt → Lower σ (List Stmt)} {block rest out : List Stmt} {s : σ}

def Lower.FrontToBack (all : List Stmt → Lower σ (List Stmt)) : Prop :=
  all [] = pure [] ∧ ∃ step : Stmt → Lower σ (List Stmt), ∀ s rest, all (s :: rest) = do
    let first ← step s
    let out ← all rest
    return first ++ out

theorem Lower.FrontToBack.append (h : FrontToBack all) (block rest : List Stmt) :
    all (block ++ rest) = do
    let front ← all block
    let back ← all rest
    return front ++ back := by
  obtain ⟨hnil, step, hcons⟩ := h
  induction block with
  | nil => simp [hnil]
  | cons s block ih => simp only [cons_append, hcons, ih, bind_assoc, pure_bind, append_assoc]

theorem Lower.FrontToBack.front (h : FrontToBack all)
    (hrun : (all (block ++ rest)).run' s = .ok out) :
    ∃ front back, (all block).run' s = .ok front ∧ out = front ++ back := by
  obtain ⟨t, hrun⟩ := Lower.run'_ok hrun
  rw [h.append] at hrun
  obtain ⟨front, s₁, hfront, hrun⟩ := Lower.run_bind_ok_iff.1 hrun
  obtain ⟨back, s₂, -, hrun⟩ := Lower.run_bind_ok_iff.1 hrun
  cases hrun
  refine ⟨front, back, ?_, rfl⟩
  rw [StateT.run'_eq, hfront]
  rfl

end FrontToBack

namespace Module
variable {module rest out : Module} {entry : String}

theorem assignLayouts_append :
    (module ++ rest).assignLayouts = module.assignLayouts ++ rest.assignLayouts := by
  rw [assignLayouts_eq, assignLayouts_eq, assignLayouts_eq, Stmt.laidAll_append]

theorem flattenTuples_front (h : (module ++ rest).flattenTuples = .ok out) :
    ∃ front back, module.flattenTuples = .ok front ∧ out = front ++ back :=
  Lower.FrontToBack.front ⟨rfl, Stmt.flattenTuples, fun _ _ => rfl⟩ h

theorem backEntry_eq : module.backEntry entry =
    (Containers.backStmts entry module).run' ⟨false, (∅ : Scopes Unit).enter⟩ := by
  have hscope : (Containers.inScope (Containers.backStmts entry module)).run .initial =
      (Containers.backStmts entry module).run ⟨false, (∅ : Scopes Unit).enter⟩ >>= fun r =>
        .ok (r.1, { r.2 with declared := r.2.declared.leave.2 }) := rfl
  rw [backEntry, StateT.run'_eq, StateT.run'_eq, hscope]
  cases (Containers.backStmts entry module).run ⟨false, (∅ : Scopes Unit).enter⟩ <;> rfl

theorem backEntry_front (h : (module ++ rest).backEntry entry = .ok out) :
    ∃ front back, module.backEntry entry = .ok front ∧ out = front ++ back := by
  rw [backEntry_eq] at h ⊢
  exact Lower.FrontToBack.front ⟨rfl, Containers.backStmt entry, fun _ _ => rfl⟩ h

theorem loopTailCalls_front (h : (module ++ rest).loopTailCalls entry = .ok out) :
    ∃ front back, module.loopTailCalls entry = .ok front ∧ out = front ++ back := by
  refine Lower.FrontToBack.front ⟨rfl, fun s => do return [← s.loopTailCalls entry], fun s rest => ?_⟩ h
  simp [Stmt.loopTailCallsAll]

end Module

theorem Phases.analyzeStmts_frontToBack (Γ : Context) :
    Lower.FrontToBack (analyzeStmts Γ) := by
  refine ⟨rfl, fun s => do
    let s ← analyzeStmt Γ s
    return (← takePending) ++ [s], fun s rest => ?_⟩
  simp only [analyzeStmts, bind_assoc, pure_bind, append_assoc, cons_append, nil_append]

namespace Module.Rewrites
variable {R : Procedure → Procedure → Prop} {module module' rest rest' : Module} {x : String}

theorem length_eq (h : Rewrites R module module') : module'.length = module.length := by
  induction h with
  | nil => rfl
  | cons _ _ ih => rw [length_cons, length_cons, ih]

theorem back (h : Rewrites R (module ++ rest) (module' ++ rest'))
    (hlength : module'.length = module.length) : Rewrites R rest rest' := by
  induction module generalizing module' with
  | nil =>
    cases length_eq_zero_iff.1 hlength
    exact h
  | cons st module ih =>
    cases module' with
    | nil => cases hlength
    | cons st' module' =>
      cases h with
      | cons _ h => exact ih h (Nat.succ.inj hlength)

end Module.Rewrites

namespace Module
variable {module rest flat backed : Module} {entry x : String} {names : List String}

theorem procedures_append : (module ++ rest).procedures = module.procedures ++ rest.procedures :=
  filterMap_append

theorem findProcedure?_append :
    (module ++ rest).findProcedure? x = (module.findProcedure? x).or (rest.findProcedure? x) := by
  rw [findProcedure?, procedures_append, find?_append]
  rfl

/-- A module that defines no other procedures than those with some names. -/
def DefinesOnly (names : List String) (module : Module) : Prop :=
  ∀ p ∈ module.procedures, ∀ x, p.symbol? = some x → x ∈ names

theorem DefinesOnly.findProcedure?_eq_none (h : rest.DefinesOnly names) (hx : x ∉ names) :
    rest.findProcedure? x = none := by
  rw [findProcedure?, find?_eq_none]
  intro p hp hsymbol
  exact hx (h p hp x (of_decide_eq_true hsymbol))

theorem DefinesOnly.findProcedure?_append (h : rest.DefinesOnly names) (hx : x ∉ names) :
    (module ++ rest).findProcedure? x = module.findProcedure? x := by
  rw [Module.findProcedure?_append, h.findProcedure?_eq_none hx, Option.or_none]

end Module

namespace Phases
variable {module rest out : Module} {registry : Registry} {entry x : String} {names : List String}
variable (hrest : rest.DefinesOnly names)
include hrest

theorem isReached_append (hunmentioned : ∀ z ∈ Stmt.namesAll module, z ∉ names)
    (hentry : entry ∉ names) : IsReached (module ++ rest) entry x ↔ IsReached module entry x := by
  have hmention : ∀ {x y procedure}, module.findProcedure? x = some procedure → y ∈ Stmt.namesAll procedure.body →
      y ∉ names := by
    intro x y procedure hprocedure hy
    refine hunmentioned y (Stmt.mem_namesAll.2 ⟨procedure.toStmt, ?_, mem_append_right _ hy⟩)
    exact Module.mem_procedures.1 (mem_of_find?_eq_some hprocedure)
  constructor
  · intro h
    suffices IsReached module entry x ∧ x ∉ names from this.1
    induction h with
    | entry h =>
      rw [hrest.findProcedure?_append hentry] at h
      exact ⟨.entry h, hentry⟩
    | mention _ hprocedure hy hsome ih =>
      rw [hrest.findProcedure?_append ih.2] at hprocedure
      have hnew := hmention hprocedure hy
      rw [hrest.findProcedure?_append hnew] at hsome
      exact ⟨.mention ih.1 hprocedure hy hsome, hnew⟩
  · intro h
    have hfound : ∀ {x}, (module.findProcedure? x).isSome = true →
        ((module ++ rest).findProcedure? x).isSome = true := by
      intro x h
      rw [Module.findProcedure?_append, Option.isSome_or, h, Bool.true_or]
    induction h with
    | entry h => exact .entry (hfound h)
    | mention _ hprocedure hy hsome ih =>
      refine .mention ih ?_ hy (hfound hsome)
      rw [Module.findProcedure?_append, hprocedure, Option.some_or]

theorem withProcedures_append (hx : x ∉ names) :
    (withProcedures registry (module ++ rest)).get? x = (withProcedures registry module).get? x := by
  have hkept : ∀ (procedures : List Procedure) (registry : Registry), (∀ p ∈ procedures, p.symbol? ≠ some x) →
      (procedures.foldl withProcedure registry).get? x = registry.get? x := by
    intro procedures
    induction procedures with
    | nil => exact fun _ _ => rfl
    | cons p procedures ih =>
      intro registry hp
      rw [foldl_cons, ih _ fun q hq => hp q (mem_cons_of_mem p hq), withProcedure_get?, if_neg (hp p mem_cons_self)]
  rw [withProcedures_eq, withProcedures_eq, Module.procedures_append, foldl_append]
  exact hkept _ _ fun p hp hsymbol => hx (hrest p hp x hsymbol)

theorem moduleContext_agrees (hunmentioned : ∀ z ∈ Stmt.namesAll module, z ∉ names)
    (hentry : entry ∉ names) :
    (moduleContext (module ++ rest) registry entry).Agrees (· ∉ names) (moduleContext module registry entry) where
  entry := rfl
  registry _ hz := withProcedures_append hrest hz
  analyzed _ _ := by
    rw [moduleContext, moduleContext, mem_reachable, mem_reachable]
    exact isReached_append hrest hunmentioned hentry

end Phases

theorem Module.insertBoundaries_front {module rest out : Module} (hrest : rest.DefinesOnly names)
    (hunmentioned : ∀ z ∈ Stmt.namesAll module, z ∉ names) (hentry : entry ∉ names)
    (h : (module ++ rest).insertBoundaries registry entry = .ok out) :
    ∃ front back, module.insertBoundaries registry entry = .ok front ∧ out = front ++ back := by
  obtain ⟨front, back, hfront, hout⟩ := (Phases.analyzeStmts_frontToBack _).front h
  have hsame := Phases.analyzeStmts_sameCalls
    (@Phases.moduleContext_agrees module rest registry entry names hrest hunmentioned hentry) module hunmentioned
  refine ⟨front, back, ?_, hout⟩
  rw [StateT.run'_eq] at hfront
  show (Phases.analyzeStmts (Phases.moduleContext module registry entry) module).run' .initial = _
  rwa [StateT.run'_eq, ← hsame.run_eq .initial]

section Unmentioned
variable {z : String} {c : Char}

theorem Name.not_mem_of_char (hwritten : ∀ x ∈ names, IsWritten x) (hc : c ∈ z.toList)
    (hpart : Token.isWordPart c = false) : z ∉ names := by
  intro hz
  rw [(hwritten z hz).2 c hc] at hpart
  cases hpart

/-- A name apart from some others, together with its container form. -/
def Name.Apart (names : List String) (z : String) : Prop := z ∉ names ∧ container z ∉ names

section
variable (hwritten : ∀ x ∈ names, IsWritten x)
include hwritten

theorem Name.apart_of_char (hc : c ∈ z.toList) (hpart : Token.isWordPart c = false) :
    Apart names z := by
  refine ⟨not_mem_of_char hwritten hc hpart, not_mem_of_char hwritten ?_ hpart⟩
  rw [container, String.toList_append]
  exact mem_append_left _ hc

theorem Stmt.hasTuples_apart : Stmt.HasTuples (Apart names) where
  tuple := apart_of_char hwritten (show ':' ∈ _ by decide) (by decide)
  project index := by
    refine apart_of_char hwritten (c := ':') ?_ (by decide)
    rw [Snippet.project, String.toList_append, String.toList_append]
    exact mem_append_left _ (mem_append_left _ (by decide))

theorem Name.apart_temporary (n : Nat) : Apart names ("_tup" ++ toString n) := by
  refine ⟨not_mem_of_first hwritten ?_, not_mem_of_first hwritten ?_⟩
  · rw [String.toList_append]
    rfl
  · rw [container, String.toList_append, String.toList_append]
    rfl

end

theorem Procedure.Backs.unmentioned (h : p.Backs entry p') (hwritten : ∀ x ∈ names, IsWritten x)
    (hnames : ∀ z ∈ p.toStmt.names, z ∉ names)
    (hstorage : p.symbol? = some entry → ∀ w ∈ Stmt.namesAll p.body, container w ∉ names) :
    ∀ z ∈ p'.toStmt.names, z ∉ names := by
  obtain ⟨flat, stored, rfl, hflattens, hstores, hkept⟩ := h
  have hbody : ∀ z ∈ Stmt.namesAll stored, z ∉ names := by
    by_cases hentry : p.symbol? = some entry
    · have hflat : ∀ z ∈ Stmt.namesAll flat, Apart names z := by
        refine hflattens.mentions (Stmt.hasTuples_apart hwritten) (apart_temporary hwritten) fun z hz => ?_
        rw [Stmt.namesAll_laid] at hz
        exact ⟨hnames z (mem_append_right _ hz), hstorage hentry z hz⟩
      intro z hz
      rcases (hstores hentry).mentions z hz with hz | ⟨w, hw, rfl⟩
      · exact (hflat z hz).1
      · exact (hflat w hw).2
    · rw [hkept hentry]
      have htuples := Stmt.hasTuples_apart hwritten
      refine hflattens.mentions ⟨htuples.tuple.1, fun i => (htuples.project i).1⟩
        (fun n => (apart_temporary hwritten n).1) fun z hz => ?_
      rw [Stmt.namesAll_laid] at hz
      exact hnames z (mem_append_right _ hz)
  intro z hz
  simp only [toStmt, withBody, laid, Stmt.names, Expr.names_laid, Expr.namesAll_laid, mem_append] at hz hnames
  rcases hz with hz | hz
  · exact hnames z (.inl hz)
  · exact hbody z hz

end Unmentioned

theorem SourceUnit.ofText?_nodup {text : List Char} {unit : SourceUnit}
    (h : ofText? text = .ok unit) {q : Procedure}
    {x : String} (hp : p ∈ unit.module.procedures) (hq : q ∈ unit.module.procedures) (hpx : p.symbol? = some x)
    (hqx : q.symbol? = some x) : p = q := by
  obtain ⟨items, state, hitems, hmodule, -⟩ := Reading.items?_of_ofText? h
  have hnodup := (Reading.areItems_of_items? hitems).nodup
  rw [Item.map_procedureTypes, Nodup, pairwise_filterMap] at hnodup
  rw [hmodule, Module.procedures_map_toStmt] at hp hq
  have : Std.Symm fun a b : Procedure => ∀ y, a.symbol? = some y → ∀ z, b.symbol? = some z → y ≠ z :=
    ⟨fun a b hab y hy z hz heq => hab z hz y hy heq.symm⟩
  by_contra hne
  exact hnodup.forall hp hq hne x hpx x hqx rfl

namespace Module
variable {module rest backed backed' looped looped' out : Module} {registry : Registry} {entry : String}
  {names : List String} {wrapper : Wrapper} {lowered : Lowered}

theorem Rewrites.unmentioned (h : Rewrites (Procedure.Backs entry) module backed)
    (hwritten : ∀ x ∈ names, IsWritten x) (hunmentioned : ∀ z ∈ Stmt.namesAll module, z ∉ names)
    (hstorage : ∀ p ∈ module.procedures, p.symbol? = some entry →
      ∀ w ∈ Stmt.namesAll p.body, container w ∉ names) : ∀ z ∈ Stmt.namesAll backed, z ∉ names := by
  intro z hz
  obtain ⟨st, hst, hz⟩ := Stmt.mem_namesAll.1 hz
  obtain ⟨i, hi⟩ := mem_iff_getElem?.1 hst
  obtain ⟨p, p', rfl, hp, hbacks⟩ := h.source hi
  have hmem : p.toStmt ∈ module := mem_of_getElem? hp
  exact hbacks.unmentioned hwritten (fun z hz => hunmentioned z (Stmt.mem_namesAll.2 ⟨_, hmem, hz⟩))
    (hstorage p (mem_procedures.2 hmem)) z hz

theorem Rewrites.definesOnly {R : Procedure → Procedure → Prop} (h : Rewrites R rest backed')
    (hR : ∀ p p', R p p' → p'.symbol? = p.symbol?) (hrest : rest.DefinesOnly names) : backed'.DefinesOnly names := by
  intro p' hp' x hx
  obtain ⟨i, hi⟩ := mem_iff_getElem?.1 (mem_procedures.1 hp')
  obtain ⟨p, q', hq', hp, hpq⟩ := h.source hi
  cases toStmt_inj hq'
  exact hrest p (mem_procedures.2 (mem_of_getElem? hp)) x ((hR p p' hpq).symm.trans hx)

theorem wrapEntry_front (hentry : (looped.findProcedure? entry).isSome = true)
    (h : (looped ++ looped').wrapEntry entry = .ok (out, wrapper)) : ∃ wrapping : Procedure,
    out = looped ++ looped' ++ [wrapping.toStmt] ∧
      looped.wrapEntry entry = .ok (looped ++ [wrapping.toStmt], wrapper) := by
  obtain ⟨procedure, wrapping, hfound, hwrapping, hout⟩ := wrapEntry_ok h
  obtain ⟨q, hq⟩ := Option.isSome_iff_exists.1 hentry
  rw [findProcedure?_append, hq, Option.some_or] at hfound
  cases hfound
  refine ⟨wrapping, hout, ?_⟩
  rw [wrapEntry, hq]
  exact Except.bind_ok_iff.2 ⟨_, hwrapping, rfl⟩

theorem lower_of_steps {flat analyzed : Module}
    (hentry : (module.findProcedure? entry).isSome = true)
    (hflat : module.assignLayouts.flattenTuples = .ok flat) (hbacked : flat.backEntry entry = .ok backed)
    (hanalyzed : backed.insertBoundaries registry entry = .ok analyzed)
    (hlooped : analyzed.loopTailCalls entry = .ok looped) (hwrapped : looped.wrapEntry entry = .ok (out, wrapper)) :
    module.lower registry entry = .ok ⟨out, wrapper⟩ := by
  have hsome : ¬(module.findProcedure? entry).isNone = true := by
    rw [Option.isNone_iff_eq_none]
    exact Option.isSome_iff_ne_none.1 hentry
  rw [lower, if_neg hsome, Except.bind_ok_iff]
  refine ⟨flat, hflat, Except.bind_ok_iff.2 ⟨backed, hbacked, Except.bind_ok_iff.2 ⟨analyzed, hanalyzed, ?_⟩⟩⟩
  exact Except.bind_ok_iff.2 ⟨looped, hlooped, Except.bind_ok_iff.2 ⟨(out, wrapper), hwrapped, rfl⟩⟩

/-- A module in front of procedures that it does not mention is lowered as if it were alone. -/
theorem lower_front (hall : (module ++ rest).All fun p => Stmt.arePatterned p.body = true)
    (hwritten : ∀ x ∈ names, IsWritten x) (hrest : rest.DefinesOnly names)
    (hunmentioned : ∀ z ∈ Stmt.namesAll module, z ∉ names)
    (hstorage : ∀ p ∈ module.procedures, p.symbol? = some entry → ∀ w ∈ Stmt.namesAll p.body, container w ∉ names)
    (hentry : (module.findProcedure? entry).isSome = true)
    (hlower : (module ++ rest).lower registry entry = .ok lowered) :
    ∃ (kept others : Module) (wrapping : Procedure), kept.length = module.length ∧ others.length = rest.length ∧
      lowered.module = kept ++ others ++ [wrapping.toStmt] ∧
      module.lower registry entry = .ok ⟨kept ++ [wrapping.toStmt], lowered.wrapper⟩ := by
  have hfront : module.All fun p => Stmt.arePatterned p.body = true := fun st hst => hall st (mem_append_left _ hst)
  have hspared : entry ∉ names := by
    obtain ⟨p, hp⟩ := Option.isSome_iff_exists.1 hentry
    have hsymbol : p.symbol? = some entry := by simpa using find?_some hp
    refine hunmentioned entry (Stmt.mem_namesAll.2 ⟨p.toStmt, mem_procedures.1 (mem_of_find?_eq_some hp), ?_⟩)
    simp [Procedure.toStmt, Expr.names_of_symbol hsymbol]
  obtain ⟨flat, backed, analyzed, looped, hflat, hbacked, hanalyzed, hlooped, hwrapped⟩ := lower_ok hlower
  have hbacksAll := backs_rewrites hall hflat hbacked
  have hlowersAll := lowers_rewrites hall hflat hbacked hanalyzed hlooped
  -- each step, first on the module in front
  rw [assignLayouts_append] at hflat
  obtain ⟨flat₁, flat₂, hflat₁, rfl⟩ := flattenTuples_front hflat
  obtain ⟨backed₁, backed₂, hbacked₁, rfl⟩ := backEntry_front hbacked
  have hbacks := backs_rewrites hfront hflat₁ hbacked₁
  have hdefines : backed₂.DefinesOnly names :=
    (hbacksAll.back hbacks.length_eq).definesOnly (fun _ _ h => h.symbol?_eq) hrest
  obtain ⟨analyzed₁, analyzed₂, hanalyzed₁, rfl⟩ :=
    insertBoundaries_front hdefines (hbacks.unmentioned hwritten hunmentioned hstorage) hspared hanalyzed
  obtain ⟨looped₁, looped₂, hlooped₁, rfl⟩ := loopTailCalls_front hlooped
  have hlowers := lowers_rewrites hfront hflat₁ hbacked₁ hanalyzed₁ hlooped₁
  have hfound : (looped₁.findProcedure? entry).isSome = true := by
    have hrel := hlowers.findProcedure? (x := entry) fun _ _ h => h.symbol?_eq
    generalize module.findProcedure? entry = found, looped₁.findProcedure? entry = found' at hentry hrel ⊢
    cases hrel with
    | none => exact hentry
    | some => rfl
  obtain ⟨wrapping, hmodule, hwrapped₁⟩ := wrapEntry_front hfound hwrapped
  have hlengths := hlowersAll.length_eq
  rw [length_append, length_append, hlowers.length_eq] at hlengths
  exact ⟨looped₁, looped₂, wrapping, hlowers.length_eq, Nat.add_left_cancel hlengths, hmodule,
    lower_of_steps hentry hflat₁ hbacked₁ hanalyzed₁ hlooped₁ hwrapped₁⟩

end Module

/-- Procedures that are added behind a unit, and that it does not mention, leave its lowered form as
it is: the procedures, the wrapper and what the host has to know of it. Their names must not be
those of storage. -/
theorem SourceUnit.lower_spares_unit {text extended : List Char} {unit : SourceUnit}
    {further : List Procedure}
    {entry : String} {procedure : Procedure} {lowered : Lowered} (hread : ofText? text = .ok unit)
    (hextended : ofText? extended = .ok ⟨unit.module ++ further.map Procedure.toStmt, unit.registry⟩)
    (hentry : unit.module.findProcedure? entry = some procedure)
    (hunmentioned : ∀ p ∈ further, ∀ x, p.symbol? = some x → x ∉ Stmt.namesAll unit.module)
    (hstorage : ∀ p ∈ further, ∀ w ∈ Stmt.namesAll procedure.body, p.symbol? ≠ some (Name.container w))
    (hlower : (unit.module ++ further.map Procedure.toStmt).lower unit.registry entry = .ok lowered) :
    ∃ (kept rest : Module) (wrapping : Procedure), kept.length = unit.module.length ∧ rest.length = further.length ∧
      lowered.module = kept ++ rest ++ [wrapping.toStmt] ∧
      unit.module.lower unit.registry entry = .ok ⟨kept ++ [wrapping.toStmt], lowered.wrapper⟩ := by
  have hfurther := Module.procedures_map_toStmt further
  have hmem : procedure ∈ unit.module.procedures := List.mem_of_find?_eq_some hentry
  have hsymbol : procedure.symbol? = some entry := by simpa using List.find?_some hentry
  have hall : Module.All (fun p => Stmt.arePatterned p.body = true) (unit.module ++ further.map Procedure.toStmt) :=
    fun st hst => (ofText?_isRead hextended st hst).imp fun _ hp =>
      ⟨hp.1, hp.2.body.elim fun _ h => h.2.2.2.arePatterned⟩
  have hdefines : Module.DefinesOnly (further.filterMap Procedure.symbol?) (further.map Procedure.toStmt) := by
    intro p hp x hx
    exact List.mem_filterMap.2 ⟨p, hfurther ▸ hp, hx⟩
  have hwritten : ∀ x ∈ further.filterMap Procedure.symbol?, Name.IsWritten x := by
    intro x hx
    obtain ⟨p, hp, hpx⟩ := List.mem_filterMap.1 hx
    refine ofText?_declares hextended x (.inl ⟨p, ?_, hpx⟩)
    rw [Module.procedures_append, hfurther]
    exact List.mem_append_right _ hp
  have hspared : ∀ z ∈ Stmt.namesAll unit.module, z ∉ further.filterMap Procedure.symbol? := by
    intro z hz hx
    obtain ⟨p, hp, hpx⟩ := List.mem_filterMap.1 hx
    exact hunmentioned p hp z hpx hz
  have hcontainers : ∀ p ∈ unit.module.procedures, p.symbol? = some entry →
      ∀ w ∈ Stmt.namesAll p.body, Name.container w ∉ further.filterMap Procedure.symbol? := by
    intro p hp hpx w hw hx
    -- there is one procedure only with the name of the entry
    cases ofText?_nodup hread hp hmem hpx hsymbol
    obtain ⟨q, hq, hqx⟩ := List.mem_filterMap.1 hx
    exact hstorage q hq w hw hqx
  obtain ⟨kept, rest, wrapping, hkept, hrest, hmodule, hunit⟩ :=
    Module.lower_front hall hwritten hdefines hspared hcontainers (by rw [hentry]; rfl) hlower
  exact ⟨kept, rest, wrapping, hkept, hrest.trans (List.length_map _), hmodule, hunit⟩

/-- Sums up one row in place of another. -/
def summingText : List Char :=
  ("declare sum : fn([Int32]) -> Int32 forces; procedure total(xs: [Int32]) -> Int32 \x7b return sum(xs); \x7d " ++
   "procedure main(xs: [Int32], ws: [Int32]) -> Int32 \x7b xs = ws; return total(xs); \x7d ").toList

/-- One more procedure, which uses what is there. -/
def doublingText : List Char :=
  summingText ++ "procedure double(vs: [Int32]) -> Int32 \x7b return total(vs) + sum(vs); \x7d".toList

theorem doublingText_spares_unit :
    ∃ (unit : SourceUnit) (further : List Procedure) (procedure : Procedure)
    (lowered : Lowered) (kept rest : Module) (wrapping : Procedure),
    SourceUnit.ofText? summingText = .ok unit ∧
    SourceUnit.ofText? doublingText = .ok ⟨unit.module ++ further.map Procedure.toStmt, unit.registry⟩ ∧
    further.map Procedure.symbol? = [some "double"] ∧ unit.module.findProcedure? "main" = some procedure ∧
    "double" ∉ Stmt.namesAll unit.module ∧ (∀ w ∈ Stmt.namesAll procedure.body, "double" ≠ container w) ∧
    (unit.module ++ further.map Procedure.toStmt).lower unit.registry "main" = .ok lowered ∧
    kept.length = 2 ∧ lowered.module = kept ++ rest ++ [wrapping.toStmt] ∧
    unit.module.lower unit.registry "main" = .ok ⟨kept ++ [wrapping.toStmt], lowered.wrapper⟩ := by
  have hchecks : ((SourceUnit.ofText? summingText).toOption.any fun unit =>
      (SourceUnit.ofText? doublingText).toOption.any fun unit' =>
        ((unit'.module.lower unit.registry "main").toOption.any fun _ => true) &&
        (unit.module.findProcedure? "main").any fun procedure : Procedure =>
          decide (unit'.module = unit.module ++ (unit'.module.procedures.drop 2).map Procedure.toStmt ∧
            unit'.registry = unit.registry ∧ unit.module.length = 2 ∧
            (unit'.module.procedures.drop 2).map Procedure.symbol? = [some "double"] ∧
            "double" ∉ Stmt.namesAll unit.module ∧
            ∀ w ∈ Stmt.namesAll procedure.body, "double" ≠ container w)) = true := by
    decide +kernel
  obtain ⟨unit, hread, hchecks⟩ := Except.any_toOption.1 hchecks
  obtain ⟨unit', hread', hchecks⟩ := Except.any_toOption.1 hchecks
  obtain ⟨hlowers, hchecks⟩ := Bool.and_eq_true_iff.1 hchecks
  obtain ⟨lowered, hlower, -⟩ := Except.any_toOption.1 hlowers
  obtain ⟨procedure, hentry, hchecks⟩ := (Option.any_eq_true _ _).1 hchecks
  obtain ⟨hmodule, hregistry, hlength, hfurther, hunmentioned, hstorage⟩ := of_decide_eq_true hchecks
  generalize unit'.module.procedures.drop 2 = further at hmodule hfurther
  obtain ⟨module', registry'⟩ := unit'
  dsimp only at hmodule hregistry hlower
  subst hmodule hregistry
  have hsymbol : ∀ p ∈ further, p.symbol? = some "double" := by
    intro p hp
    have hmem := mem_map_of_mem (f := Procedure.symbol?) hp
    rw [hfurther] at hmem
    exact mem_singleton.1 hmem
  obtain ⟨kept, rest, wrapping, hkept, -, hout, hunit⟩ := SourceUnit.lower_spares_unit hread hread' hentry
    (fun p hp x hx => by cases (hsymbol p hp).symm.trans hx; exact hunmentioned)
    (fun p hp w hw hx => hstorage w hw (Option.some.inj ((hsymbol p hp).symm.trans hx))) hlower
  exact ⟨unit, further, procedure, lowered, kept, rest, wrapping, hread, hread', hfurther, hentry, hunmentioned,
    hstorage, hlower, hkept.trans hlength, hout, hunit⟩

/-- Nothing is summed up here, but one row takes the place of another. -/
def replacingText : List Char :=
  ("declare shift : fn([Int32]) -> [Int32] propagates; declare sum : fn([Int32]) -> Int32 forces; " ++
   "procedure total(xs: [Int32]) -> Int32 \x7b ys = shift(xs); return sum(ys); \x7d " ++
   "procedure main(xs: [Int32], ws: [Int32]) -> [Int32] \x7b xs = ws; return xs; \x7d ").toList

/-- One more procedure, with the name that storage will have. -/
def storedText : List Char :=
  replacingText ++ "procedure ws_array(vs: [Int32]) -> Int32 \x7b return total(vs); \x7d".toList

/-- The storage of a row is taken for the procedure with its name, so that `total` is analysed with
it only. -/
theorem lower_spares_not_storage : ∃ (unit unit' : SourceUnit) (lowered lowered' : Lowered),
    SourceUnit.ofText? replacingText = .ok unit ∧ SourceUnit.ofText? storedText = .ok unit' ∧
    unit'.module = unit.module ++ (unit'.module.procedures.drop 2).map Procedure.toStmt ∧
    unit'.registry = unit.registry ∧
    (unit'.module.procedures.drop 2).map Procedure.symbol? = [some "ws_array"] ∧
    "ws_array" ∉ Stmt.namesAll unit.module ∧ unit.module.lower unit.registry "main" = .ok lowered ∧
    unit'.module.lower unit.registry "main" = .ok lowered' ∧
    (lowered.module.findProcedure? "total").map (fun p => Stmt.names p.toStmt) =
      some ["total", "xs", "ys", "shift", "xs", "sum", "ys"] ∧
    (lowered'.module.findProcedure? "total").map (fun p => Stmt.names p.toStmt) =
      some ["total", "xs", "ys", "shift", "xs", "ys_phase0", "phase_boundary", "ys", "sum", "ys_phase0"] := by
  have hchecks : ((SourceUnit.ofText? replacingText).toOption.any fun unit =>
      (SourceUnit.ofText? storedText).toOption.any fun unit' =>
        (unit.module.lower unit.registry "main").toOption.any fun lowered =>
          (unit'.module.lower unit.registry "main").toOption.any fun lowered' =>
            decide (unit'.module = unit.module ++ (unit'.module.procedures.drop 2).map Procedure.toStmt ∧
              unit'.registry = unit.registry ∧
              (unit'.module.procedures.drop 2).map Procedure.symbol? = [some "ws_array"] ∧
              "ws_array" ∉ Stmt.namesAll unit.module ∧
              (lowered.module.findProcedure? "total").map (fun p => Stmt.names p.toStmt) =
                some ["total", "xs", "ys", "shift", "xs", "sum", "ys"] ∧
              (lowered'.module.findProcedure? "total").map (fun p => Stmt.names p.toStmt) =
                some ["total", "xs", "ys", "shift", "xs", "ys_phase0", "phase_boundary", "ys", "sum", "ys_phase0"])) =
      true := by
    decide +kernel
  obtain ⟨unit, hread, hchecks⟩ := Except.any_toOption.1 hchecks
  obtain ⟨unit', hread', hchecks⟩ := Except.any_toOption.1 hchecks
  obtain ⟨lowered, hlower, hchecks⟩ := Except.any_toOption.1 hchecks
  obtain ⟨lowered', hlower', hchecks⟩ := Except.any_toOption.1 hchecks
  obtain ⟨hmodule, hregistry, hfurther, hunmentioned, hwithout, hwith⟩ := of_decide_eq_true hchecks
  exact ⟨unit, unit', lowered, lowered', hread, hread', hmodule, hregistry, hfurther, hunmentioned, hlower, hlower',
    hwithout, hwith⟩

end DataParallel
