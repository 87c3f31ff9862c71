import DataParallel.Lowering.Wrapper
import DataParallel.Proofs.RealizedReads
import DataParallel.Proofs.TailCalls
import Mathlib.Data.List.Forall2

/-! What the wrapper hands to the entry procedure.

The host hands over storage for views and all else as it is. The wrapper binds the views one after
another, under the names of the entry procedure's parameters, and its own parameters are names of
the same frame. So the arguments arrive as long as no view is bound under the name of storage that
is still to be read. -/

namespace DataParallel

open Interpretation List DataParallel.Expr Name

variable {α : Type} {I : Interpretation α} {τ : Store α} {typing : Typing} {v : Value α}

/-- What becomes of the values that the host hands over: a view of storage, and all else unchanged.
-/
def Interpretation.HandsOver (I : Interpretation α) : List Expr → List (Value α) → List (Value α) → Prop
  | [], [], [] => True
  | parameter :: parameters, v :: vs, w :: ws =>
    (if parameter.needsContainer then I.apply (.procedure Snippet.makeSequence) [v] w else w = v) ∧
      I.HandsOver parameters vs ws
  | _, _, _ => False

theorem Interpretation.eval_makeSequence {storage : Expr} {z : String} {w : Value α}
    (hz : storage.symbol? = some z) (hv : τ z = some v) :
    I.Eval τ (.applySnippet Snippet.makeSequence [storage] typing) w ↔
      I.apply (.procedure Snippet.makeSequence) [v] w := by
  have hb : ∀ t, (name Snippet.makeSequence t).builtin? = some Snippet.makeSequence :=
    fun t => by simp [builtin?, symbol?, isBuiltin, Snippet.isSnippet]
  have hread : I.read τ z = some v := read_of_bound hv
  simp only [applySnippet, Eval, hb]
  constructor
  · rintro ⟨_, _, rfl, ⟨u, _, hu, rfl, rfl⟩, hw⟩
    cases hread.symm.trans ((eval_name hz).1 hu)
    exact hw
  · intro hw
    exact ⟨_, [v], rfl, ⟨v, [], (eval_name hz).2 hread, rfl, rfl⟩, hw⟩

namespace Wrapper

variable {vs ws : List (Value α)} {entry : String} {τ' : Store α} {hosts names : List String}
  {hosted parameters : List Expr} {binds : List Stmt} {p : Procedure}

/-- Two parameters, the first of which stands in front of the second, do not get in each other's
way: the first has not the name of storage behind the second, and the second has the name of storage
behind the first only if it is a view itself, which is bound later. -/
def keepsApart (first second : Expr) : Bool :=
  (!second.needsContainer || first.symbol? ≠ second.symbol?.map container) &&
    (!first.needsContainer || second.needsContainer || second.symbol? ≠ first.symbol?.map container)

/-- The names of a frame of the wrapper do not get in each other's way, and none hides the entry
procedure. -/
structure IsClear (entry : String) (parameters : List Expr) : Prop where
  apart : parameters.Pairwise fun first second => keepsApart first second = true
  callee : ∀ parameter ∈ parameters, parameter.symbol? ≠ some entry ∧
    (parameter.needsContainer = true → parameter.symbol?.map container ≠ some entry)

/-- The parameters of an entry procedure and their names, with the parameters of the wrapper and its
binds. -/
inductive Wraps : List Expr → List String → List Expr → List Stmt → Prop where
  | nil : Wraps [] [] [] []
  | view {parameter storage : Expr} {x : String} {typing : Typing} {parameters hosted : List Expr}
      {names : List String} {binds : List Stmt} :
      parameter.symbol? = some x → parameter.needsContainer = true → storage.symbol? = some (container x) →
      Wraps parameters names hosted binds →
      Wraps (parameter :: parameters) (x :: names) (storage :: hosted)
        (.bind parameter (.applySnippet Snippet.makeSequence [storage] typing) :: binds)
  | value {parameter : Expr} {x : String} {parameters hosted : List Expr} {names : List String} {binds : List Stmt} :
      parameter.symbol? = some x → parameter.needsContainer = false → Wraps parameters names hosted binds →
      Wraps (parameter :: parameters) (x :: names) (parameter :: hosted) binds

theorem wraps_of_ok : ∀ {parameters : List Expr} {wrapped : List Parameter},
    parameters.mapM (wrapParameter entry) = .ok wrapped → ∃ names, parameters.mapM symbol? = some names ∧
      Wraps parameters names (wrapped.map Parameter.parameter) (wrapped.flatMap Parameter.binds)
  | [], _, h => by
    cases h
    exact ⟨[], rfl, .nil⟩
  | parameter :: parameters, _, h => by
    rw [mapM_cons] at h
    obtain ⟨w, hw, h⟩ := Except.bind_ok_iff.1 h
    obtain ⟨ws, hws, h⟩ := Except.bind_ok_iff.1 h
    cases h
    obtain ⟨names, hnames, hwraps⟩ := wraps_of_ok hws
    unfold wrapParameter at hw
    split at hw
    · cases hw
    · rename_i x hx
      obtain ⟨layout, -, hw⟩ := Except.bind_ok_iff.1 hw
      refine ⟨x :: names, by simp [mapM_cons, hx, hnames], ?_⟩
      split at hw
      · rename_i hview
        cases hw
        exact .view hx hview rfl hwraps
      · rename_i hview
        cases hw
        exact .value hx (by simpa using hview) hwraps

def Holding (τ : Store α) (names : List String) (vs : List (Value α)) : Prop :=
  Forall₂ (fun x v => τ x = some v) names vs

theorem Holding.of_unchanged (h : Holding τ names vs) (hsame : ∀ x ∈ names, τ' x = τ x) :
    Holding τ' names vs := by
  induction h with
  | nil => exact .nil
  | cons hv _ ih => exact .cons ((hsame _ mem_cons_self).trans hv) (ih fun x hx => hsame x (mem_cons_of_mem _ hx))

namespace Wraps

variable {x : String} {first : Expr}

section
variable (h : Wraps parameters names hosted binds)
include h

theorem localNames_binds (hx : x ∈ Stmt.localNames binds) : x ∈ names := by
  induction h with
  | nil => exact absurd hx (by simp [Stmt.localNames, Stmt.boundNamesAll])
  | @view _ _ _ _ _ _ _ _ hy _ _ _ ih =>
    simp only [Stmt.localNames, Stmt.boundNamesAll, Stmt.boundNames, isName, hy, Option.isSome_some, if_true,
      singleton_append, filterMap_cons] at hx
    rcases mem_cons.1 hx with rfl | hx
    · exact mem_cons_self
    · exact mem_cons_of_mem _ (ih hx)
  | value _ _ _ ih => exact mem_cons_of_mem _ (ih hx)

theorem named (hx : x ∈ names) : ∃ parameter ∈ parameters, parameter.symbol? = some x := by
  induction h with
  | nil => exact absurd hx not_mem_nil
  | view hy _ _ _ ih | value hy _ _ ih =>
    rcases mem_cons.1 hx with rfl | hx
    · exact ⟨_, mem_cons_self, hy⟩
    · obtain ⟨parameter, hp, hx⟩ := ih hx
      exact ⟨parameter, mem_cons_of_mem _ hp, hx⟩

theorem length_hosted : hosted.length = parameters.length := by
  induction h with
  | nil => rfl
  | view _ _ _ _ ih | value _ _ _ ih => rw [length_cons, length_cons, ih]

section
variable (hhosts : hosted.mapM symbol? = some hosts)
include hhosts

theorem hosts_cases (hx : x ∈ hosts) :
    ∃ parameter ∈ parameters, ∃ y ∈ names, parameter.symbol? = some y ∧
      ((parameter.needsContainer = true ∧ x = container y) ∨ (parameter.needsContainer = false ∧ x = y)) := by
  induction h generalizing hosts with
  | nil =>
    cases hhosts
    exact absurd hx not_mem_nil
  | view hy hview hstorage _ ih =>
    obtain ⟨z, hz, rest, hrest, rfl⟩ := mapM_symbol_cons.1 hhosts
    cases hstorage.symm.trans hz
    rcases mem_cons.1 hx with rfl | hx
    · exact ⟨_, mem_cons_self, _, mem_cons_self, hy, .inl ⟨hview, rfl⟩⟩
    · obtain ⟨parameter, hp, y, hmem, hcase⟩ := ih hrest hx
      exact ⟨parameter, mem_cons_of_mem _ hp, y, mem_cons_of_mem _ hmem, hcase⟩
  | value hy hview _ ih =>
    obtain ⟨z, hz, rest, hrest, rfl⟩ := mapM_symbol_cons.1 hhosts
    cases hy.symm.trans hz
    rcases mem_cons.1 hx with rfl | hx
    · exact ⟨_, mem_cons_self, _, mem_cons_self, hy, .inr ⟨hview, rfl⟩⟩
    · obtain ⟨parameter, hp, y, hmem, hcase⟩ := ih hrest hx
      exact ⟨parameter, mem_cons_of_mem _ hp, y, mem_cons_of_mem _ hmem, hcase⟩

theorem not_host (hfirst : first.symbol? = some x) (hx : x ∉ names)
    (hapart : ∀ second ∈ parameters, keepsApart first second = true) : x ∉ hosts := by
  intro hmem
  obtain ⟨second, hsecond, y, hy, hsymbol, ⟨hview, rfl⟩ | ⟨-, rfl⟩⟩ := h.hosts_cases hhosts hmem
  · have hclear := hapart second hsecond
    simp [keepsApart, hview, hfirst, hsymbol] at hclear
  · exact hx hy

theorem storage_not_host (hfirst : first.symbol? = some x) (hx : x ∉ names)
    (hview : first.needsContainer = true)
    (hapart : ∀ second ∈ parameters, keepsApart first second = true) : container x ∉ hosts := by
  intro hmem
  obtain ⟨second, hsecond, y, hy, hsymbol, ⟨-, heq⟩ | ⟨hvalue, heq⟩⟩ := h.hosts_cases hhosts hmem
  · exact hx (container_inj heq ▸ hy)
  · have hclear := hapart second hsecond
    simp [keepsApart, hview, hvalue, hfirst, hsymbol, heq] at hclear

end

theorem hosts_nodup (hnodup : names.Nodup)
    (hapart : parameters.Pairwise fun first second => keepsApart first second = true) :
    ∃ hosts, hosted.mapM symbol? = some hosts ∧ hosts.Nodup := by
  induction h with
  | nil => exact ⟨[], rfl, .nil⟩
  | view hy hview hstorage hrest ih =>
    obtain ⟨hx, hnodup⟩ := nodup_cons.1 hnodup
    obtain ⟨hfirst, hapart⟩ := pairwise_cons.1 hapart
    obtain ⟨hosts, hhosts, hdistinct⟩ := ih hnodup hapart
    exact ⟨_, by simp [mapM_cons, hstorage, hhosts],
      nodup_cons.2 ⟨hrest.storage_not_host hhosts hy hx hview hfirst, hdistinct⟩⟩
  | value hy hview hrest ih =>
    obtain ⟨hx, hnodup⟩ := nodup_cons.1 hnodup
    obtain ⟨hfirst, hapart⟩ := pairwise_cons.1 hapart
    obtain ⟨hosts, hhosts, hdistinct⟩ := ih hnodup hapart
    exact ⟨_, by simp [mapM_cons, hy, hhosts], nodup_cons.2 ⟨hrest.not_host hhosts hy hx hfirst, hdistinct⟩⟩

theorem unchanged (hrun : Exec I.machine τ binds (.falls τ')) (hx : x ∉ names) : τ' x = τ x :=
  Exec.unchanged hrun fun hmem => hx (h.localNames_binds hmem)

theorem holding_update (hhosts : hosted.mapM symbol? = some hosts) (hfirst : first.symbol? = some x)
    (hx : x ∉ names) (hapart : ∀ second ∈ parameters, keepsApart first second = true) (hτ : Holding τ hosts vs)
    (w : Value α) : Holding (Function.update τ x (some w)) hosts vs := by
  refine Holding.of_unchanged hτ fun y hy => Function.update_of_ne ?_ _ _
  rintro rfl
  exact h.not_host hhosts hfirst hx hapart hy

/-- The binds run to hold what the host hands over, and to nothing else. -/
theorem runs (hnodup : names.Nodup)
    (hapart : parameters.Pairwise fun first second => keepsApart first second = true)
    (hhosts : hosted.mapM symbol? = some hosts) (hτ : Holding τ hosts vs) :
    (∀ ws, I.HandsOver parameters vs ws → ∃ τ', Exec I.machine τ binds (.falls τ') ∧ Holding τ' names ws) ∧
      ∀ τ', Exec I.machine τ binds (.falls τ') → ∃ ws, I.HandsOver parameters vs ws ∧ Holding τ' names ws := by
  induction h generalizing hosts τ vs with
  | nil =>
    cases hhosts
    cases hτ
    refine ⟨fun ws hws => ?_, fun τ' hrun => ⟨[], trivial, .nil⟩⟩
    cases ws with
    | nil => exact ⟨τ, .nil τ, .nil⟩
    | cons => exact hws.elim
  | view hx hview hstorage hrest ih =>
    obtain ⟨z, hz, rest, htail, rfl⟩ := mapM_symbol_cons.1 hhosts
    cases hstorage.symm.trans hz
    obtain ⟨hmem, hnodup⟩ := nodup_cons.1 hnodup
    obtain ⟨hfirst, hapart⟩ := pairwise_cons.1 hapart
    cases hτ with
    | cons hv hτ =>
      have hnext := fun w => ih hnodup hapart htail (hrest.holding_update htail hx hmem hfirst hτ w)
      have hbound : ∀ {τ τ'} w, Exec I.machine (Function.update τ _ (some w)) _ (.falls τ') → τ' _ = some w :=
        fun w hrun => (hrest.unchanged hrun hmem).trans (Function.update_self ..)
      constructor
      · intro ws hws
        cases ws with
        | nil => exact hws.elim
        | cons w ws =>
          rw [HandsOver, if_pos hview] at hws
          obtain ⟨τ', hrun, hheld⟩ := (hnext w).1 ws hws.2
          exact ⟨τ', .bind hx ⟨rfl, (eval_makeSequence hstorage hv).2 hws.1⟩ hrun, .cons (hbound w hrun) hheld⟩
      · intro τ' hrun
        rcases hrun.bind_cases with ho | ⟨y, w, c, hy, ⟨rfl, hw⟩, hrun⟩
        · cases ho
        · cases hx.symm.trans hy
          obtain ⟨ws, hws, hheld⟩ := (hnext w).2 τ' hrun
          refine ⟨w :: ws, ?_, .cons (hbound w hrun) hheld⟩
          rw [HandsOver, if_pos hview]
          exact ⟨(eval_makeSequence hstorage hv).1 hw, hws⟩
  | value hx hvalue hrest ih =>
    obtain ⟨z, hz, rest, htail, rfl⟩ := mapM_symbol_cons.1 hhosts
    cases hx.symm.trans hz
    obtain ⟨hmem, hnodup⟩ := nodup_cons.1 hnodup
    cases hτ with
    | cons hv hτ =>
      obtain ⟨hruns, hends⟩ := ih hnodup (pairwise_cons.1 hapart).2 htail hτ
      constructor
      · intro ws hws
        cases ws with
        | nil => exact hws.elim
        | cons w ws =>
          rw [HandsOver, if_neg (by simp [hvalue])] at hws
          obtain ⟨rfl, hws⟩ := hws
          obtain ⟨τ', hrun, hheld⟩ := hruns ws hws
          exact ⟨τ', hrun, .cons ((hrest.unchanged hrun hmem).trans hv) hheld⟩
      · intro τ' hrun
        obtain ⟨ws, hws, hheld⟩ := hends τ' hrun
        refine ⟨_ :: ws, ?_, .cons ((hrest.unchanged hrun hmem).trans hv) hheld⟩
        rw [HandsOver, if_neg (by simp [hvalue])]
        exact ⟨rfl, hws⟩

theorem cut {r : Option (Value α)} (hrun : Exec I.machine τ binds (.leaves r τ')) : r = none := by
  induction h generalizing τ with
  | nil =>
    rcases hrun.nil_cases with ho | ho
    · cases ho
    · cases ho
      rfl
  | view _ _ _ _ ih =>
    rcases hrun.bind_cases with ho | ⟨_, _, _, _, _, hrun⟩
    · cases ho
      rfl
    · exact ih hrun
  | value _ _ _ ih => exact ih hrun

end

end Wraps

theorem evalAll_of_holding : ∀ {es : List Expr} {names : List String}
    {us ws : List (Value α)}, es.mapM symbol? = some names → Holding τ names ws → (I.EvalAll τ es us ↔ us = ws)
  | [], _, _, _, hnames, h => by
    cases hnames
    cases h
    exact Iff.rfl
  | e :: es, _, us, _, hnames, h => by
    obtain ⟨x, hx, rest, hrest, rfl⟩ := mapM_symbol_cons.1 hnames
    cases h with
    | @cons _ w _ ws hw h =>
      have hread : I.read τ x = some w := read_of_bound hw
      constructor
      · rintro ⟨v, vs, hv, hvs, rfl⟩
        cases hread.symm.trans ((eval_name hx).1 hv)
        rw [(evalAll_of_holding hrest h).1 hvs]
      · rintro rfl
        exact ⟨w, ws, (eval_name hx).2 hread, (evalAll_of_holding hrest h).2 rfl, rfl⟩

theorem holding_frame (hnames : p.parameterNames? = some names) (hnodup : names.Nodup)
    (hlength : vs.length = p.parameters.length) : Holding (p.frame false vs) names vs := by
  have hzip : ∀ (names : List String) (vs : List (Value α)), names.Nodup → vs.length = names.length →
      Holding (fun x => (names.zip vs).lookup x) names vs := by
    intro names
    induction names with
    | nil =>
      intro vs _ hlength
      cases length_eq_zero_iff.1 hlength
      exact .nil
    | cons x names ih =>
      intro vs hnodup hlength
      obtain ⟨hx, hnodup⟩ := nodup_cons.1 hnodup
      cases vs with
      | nil => cases hlength
      | cons v vs =>
        refine .cons (by simp) (Holding.of_unchanged (ih vs hnodup (Nat.succ.inj hlength)) fun y hy => ?_)
        have hne : (y == x) = false := beq_false_of_ne fun h => hx (h ▸ hy)
        simp [lookup_cons, hne]
  have hframe : p.frame false vs = fun x => (names.zip vs).lookup x :=
    funext fun x => Procedure.frame_eq hnames nofun
  rw [hframe]
  exact hzip names vs hnodup (hlength.trans (Procedure.parameterNames_length hnames).symm)

theorem ofProcedure_wraps {wrapping : Procedure} {wrapper : Wrapper}
    (h : ofProcedure entry p = .ok (wrapping, wrapper)) :
    wrapping.symbol? = some wrapper.name ∧ ∃ names binds typing, p.parameterNames? = some names ∧
      Wraps p.parameters names wrapping.parameters binds ∧
      wrapping.body = binds ++ [.ret (.apply p.name p.parameters typing)] := by
  simp only [ofProcedure, Except.bind_ok_iff] at h
  obtain ⟨⟨result, layout⟩, -, wrapped, hwrapped, h⟩ := h
  cases h
  obtain ⟨names, hnames, hwraps⟩ := wraps_of_ok hwrapped
  exact ⟨rfl, names, _, _, hnames, hwraps, rfl⟩

theorem eval_entry {function : Expr} {arguments : List Expr}
    (hfunction : function.symbol? = some entry) (hfree : τ entry = none) (hdenotes : I.denotes entry = true)
    (hnames : arguments.mapM symbol? = some names) (hws : Holding τ names ws) :
    I.Eval τ (.apply function arguments typing) v ↔ I.apply (.procedure entry) ws v := by
  constructor
  · intro hv
    have hcallee : (apply function arguments typing).callee? = some entry := hfunction
    obtain ⟨us, hus, hv⟩ := TailCall.eval_call hcallee hdenotes hfree hv
    rwa [(evalAll_of_holding hnames hws).1 hus] at hv
  · intro hv
    refine ⟨.procedure entry, ws, ?_, (evalAll_of_holding hnames hws).2 rfl, hv⟩
    split
    · rename_i symbol hb
      rw [builtin?, hfunction, Option.filter_eq_some_iff] at hb
      cases hb.1
      rfl
    · rw [eval_name hfunction, Interpretation.read, hfree, hdenotes]
      rfl

theorem IsClear.not_named (hclear : IsClear entry parameters)
    (h : Wraps parameters names hosted binds)
    (hhosts : hosted.mapM symbol? = some hosts) : entry ∉ names ∧ entry ∉ hosts := by
  refine ⟨fun hmem => ?_, fun hmem => ?_⟩
  · obtain ⟨parameter, hp, hentry⟩ := h.named hmem
    exact (hclear.callee parameter hp).1 hentry
  · obtain ⟨parameter, hp, y, -, hy, ⟨hview, rfl⟩ | ⟨-, rfl⟩⟩ := h.hosts_cases hhosts hmem
    · exact (hclear.callee parameter hp).2 hview (by rw [hy]; rfl)
    · exact (hclear.callee parameter hp).1 hy

end Wrapper

/-- The parameters of the wrapper are distinct, and it calls the entry procedure with views of the
storage that the host hands over and with all else as the host hands it over. -/
theorem wrapEntry_hands_over {module module' : Module} {entry : String} {wrapper : Wrapper}
    {p : Procedure} {names : List String} (hentry : module.findProcedure? entry = some p)
    (hnames : p.parameterNames? = some names) (hnodup : names.Nodup)
    (hclear : Wrapper.IsClear entry p.parameters) (h : module.wrapEntry entry = .ok (module', wrapper)) :
    ∃ (wrapping : Procedure) (hosts : List String), module' = module ++ [wrapping.toStmt] ∧
      wrapping.symbol? = some wrapper.name ∧ wrapping.parameterNames? = some hosts ∧ hosts.Nodup ∧
      ∀ (I : Interpretation α) (vs : List (Value α)) (v : Value α), I.denotes entry = true →
        vs.length = p.parameters.length →
        (I.Yields (wrapping.frame false vs) wrapping.body v ↔
          ∃ ws, I.HandsOver p.parameters vs ws ∧ I.apply (.procedure entry) ws v) := by
  have hsymbol : p.symbol? = some entry := by
    simpa using find?_some hentry
  simp only [Module.wrapEntry, hentry, Except.bind_ok_iff] at h
  obtain ⟨⟨wrapping, wrapper⟩, hwrapping, h⟩ := h
  cases h
  obtain ⟨hname, names', binds, typing, hnames', hwraps, hbody⟩ := Wrapper.ofProcedure_wraps hwrapping
  cases hnames.symm.trans hnames'
  obtain ⟨hosts, hhosts, hdistinct⟩ := hwraps.hosts_nodup hnodup hclear.apart
  obtain ⟨hfree, hfree'⟩ := hclear.not_named hwraps hhosts
  refine ⟨wrapping, hosts, rfl, hname, hhosts, hdistinct, fun I vs v hdenotes hlength => ?_⟩
  have hframe : Wrapper.Holding (wrapping.frame false vs) hosts vs :=
    Wrapper.holding_frame hhosts hdistinct (hlength.trans hwraps.length_hosted.symm)
  have hunbound : wrapping.frame false vs entry = none := Procedure.frame_unbound hhosts (fun h => by cases h) hfree'
  rw [Yields, hbody]
  constructor
  · rintro ⟨σ, hrun⟩
    rcases hrun.append_cases with ⟨τ, hbinds, hret⟩ | ⟨r, τ, ho, hbinds⟩
    · obtain ⟨ws, hws, hheld⟩ := (hwraps.runs hnodup hclear.apart hhosts hframe).2 _ hbinds
      rcases hret.ret_cases with ho | ⟨u, c, ⟨rfl, hu⟩, ho⟩
      · cases ho
      · have hτ := (hwraps.unchanged hbinds hfree).trans hunbound
        cases ho
        exact ⟨ws, hws, (Wrapper.eval_entry hsymbol hτ hdenotes hnames hheld).1 hu⟩
    · cases ho
      cases hwraps.cut hbinds
  · rintro ⟨ws, hws, hv⟩
    obtain ⟨τ, hbinds, hheld⟩ := (hwraps.runs hnodup hclear.apart hhosts hframe).1 ws hws
    have hτ : τ entry = none := (hwraps.unchanged hbinds hfree).trans hunbound
    exact ⟨τ, hbinds.append_falls (.ret ⟨rfl, (Wrapper.eval_entry hsymbol hτ hdenotes hnames hheld).2 hv⟩)⟩

/-- Every call gives a record of itself. -/
def Interpretation.recording : Interpretation Nat where
  literal _ _ := .datum 0
  denotes _ := true
  apply f vs v := v = .closure f vs
  truth _ := none

def storage (x : String) : Expr := .name x ⟨row.ty, some (.container (.scalar .float32))⟩

def viewed (x : String) : Stmt :=
  .bind (.name x row) (.applySnippet Snippet.makeSequence [storage (container x)] row)

/-- A procedure that does nothing with its parameters. -/
def idle (parameters : List Expr) : Procedure where
  name := .name "main" ⟨.function (parameters.map ty) number.ty,
    some (.function (parameters.filterMap layout) (.scalar .float32))⟩
  parameters := parameters
  body := [.ret (.literal "0.0" number)]

def idleWrapper (parameters hosted : List Expr) (binds : List Stmt) : Procedure where
  name := .name "_wrap_main" ⟨.function (hosted.map ty) number.ty,
    some (.function (hosted.filterMap layout) (.scalar .float32))⟩
  parameters := hosted
  body := binds ++ [.ret (.apply (idle parameters).name parameters number)]

def hosting (hosted : List Expr) : Wrapper where
  name := "_wrap_main"
  result := .scalar .float32
  arguments := (hosted.filterMap symbol?).zip (hosted.filterMap layout)

/-- The last view has the name of storage behind the first. -/
def nestedViews : List Expr := [.name "xs" row, .name "n" number, .name "xs_array" row]

def nestedHosted : List Expr := [storage "xs_array", .name "n" number, storage "xs_array_array"]

def nestedWrapper : Procedure := idleWrapper nestedViews nestedHosted [viewed "xs", viewed "xs_array"]

theorem nestedViews_hands_over :
    Module.wrapEntry [(idle nestedViews).toStmt] "main" =
      .ok ([(idle nestedViews).toStmt, nestedWrapper.toStmt], hosting nestedHosted) ∧
    Interpretation.recording.Yields (nestedWrapper.frame false [.datum 1, .datum 2, .datum 3]) nestedWrapper.body
      (.closure (.procedure "main") [.closure (.procedure "make_sequence") [.datum 1], .datum 2,
        .closure (.procedure "make_sequence") [.datum 3]]) := by
  have hok : Module.wrapEntry [(idle nestedViews).toStmt] "main" =
      .ok ([(idle nestedViews).toStmt, nestedWrapper.toStmt], hosting nestedHosted) := by rfl
  obtain ⟨wrapping, hosts, hmodule, -, -, -, hyields⟩ := @wrapEntry_hands_over Nat _ _ "main" _
    (idle nestedViews) ["xs", "n", "xs_array"] rfl rfl (by decide) ⟨by decide, by decide⟩ hok
  obtain ⟨name, parameters, body⟩ := wrapping
  cases hmodule
  have hhanded : Interpretation.recording.HandsOver nestedViews [.datum 1, .datum 2, .datum 3]
      [.closure (.procedure "make_sequence") [.datum 1], .datum 2,
        .closure (.procedure "make_sequence") [.datum 3]] := ⟨rfl, rfl, rfl, trivial⟩
  exact ⟨hok, (hyields Interpretation.recording _ _ rfl rfl).2 ⟨_, hhanded, rfl⟩⟩

/-- A number has the name of storage: the wrapper has two parameters of this name. -/
def maskedNumber : List Expr := [.name "xs" row, .name "xs_array" number]

def maskedNumberHosted : List Expr := [storage "xs_array", .name "xs_array" number]

/-- A view has the name of storage that is read behind it. -/
def maskedStorage : List Expr := [.name "xs_array" row, .name "xs" row]

def maskedStorageHosted : List Expr := [storage "xs_array_array", storage "xs_array"]

def maskedStorageWrapper : Procedure :=
  idleWrapper maskedStorage maskedStorageHosted [viewed "xs_array", viewed "xs"]

/-- A name of the entry procedure can be one that the wrapper makes of another: two of its
parameters then have one name, or a view is taken of a view. -/
theorem wrapEntry_mixes_names :
    ((idle maskedNumber).parameterNames? = some ["xs", "xs_array"] ∧
      Module.wrapEntry [(idle maskedNumber).toStmt] "main" = .ok ([(idle maskedNumber).toStmt,
        (idleWrapper maskedNumber maskedNumberHosted [viewed "xs"]).toStmt], hosting maskedNumberHosted) ∧
      ∀ hosts, (idleWrapper maskedNumber maskedNumberHosted [viewed "xs"]).parameterNames? = some hosts →
        ¬ hosts.Nodup) ∧
    (idle maskedStorage).parameterNames? = some ["xs_array", "xs"] ∧
      Module.wrapEntry [(idle maskedStorage).toStmt] "main" =
        .ok ([(idle maskedStorage).toStmt, maskedStorageWrapper.toStmt], hosting maskedStorageHosted) ∧
      ¬ recording.Yields (maskedStorageWrapper.frame false [.datum 1, .datum 2])
        maskedStorageWrapper.body (.closure (.procedure "main") [.closure (.procedure "make_sequence") [.datum 1],
          .closure (.procedure "make_sequence") [.datum 2]]) := by
  refine ⟨⟨rfl, rfl, fun hosts hhosts => ?_⟩, rfl, rfl, fun hyields => ?_⟩
  · cases hhosts
    decide
  · have htwice : recording.Yields (maskedStorageWrapper.frame false [.datum 1, .datum 2])
        maskedStorageWrapper.body (.closure (.procedure "main") [.closure (.procedure "make_sequence") [.datum 1],
          .closure (.procedure "make_sequence") [.closure (.procedure "make_sequence") [.datum 1]]]) :=
      ⟨_, .bind rfl ⟨rfl, _, _, rfl, ⟨_, _, rfl, rfl, rfl⟩, rfl⟩ (.bind rfl
        ⟨rfl, _, _, rfl, ⟨_, _, rfl, rfl, rfl⟩, rfl⟩
        (.ret ⟨rfl, _, _, rfl, ⟨_, _, rfl, ⟨_, _, rfl, rfl, rfl⟩, rfl⟩, rfl⟩))⟩
    have hfunctional : recording.Functional := fun _ _ _ _ hv hw => hv.trans hw.symm
    have hsame := Yields.unique hfunctional hyields htwice
    cases hsame

end DataParallel
