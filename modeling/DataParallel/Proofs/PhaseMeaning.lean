import DataParallel.Proofs.FreshPasses
import DataParallel.Proofs.RebuiltValues

/-! Phase analysis keeps the meaning of units that bind every name once.

The steps in front of it leave procedures that bind fresh names and bind storage in step with its
views, so what is read in place of a name has the value of the name. -/

namespace DataParallel

open List Name Procedure Stmt

variable {global : String → Prop} {entry : String} {p : Procedure} {names : List String}
  {α : Type} {module : Module}

namespace Name
variable {z : String}

def IsBase (z : String) : Prop := IsView z ∧ ¬ IsDrawn z

theorem IsMade.isBase {n : Nat} (h : IsMade n z) : IsBase z := by
  rcases h with rfl | ⟨index, rfl⟩ | ⟨k, -, rfl⟩
  · exact ⟨isView_of_last (by decide), not_drawn_of_last (by decide)⟩
  · have hlast : (Snippet.project index).toList.getLast? = some '>' := by
      rw [Snippet.project, String.toList_append, getLast?_append]
      rfl
    exact ⟨isView_of_last (by rw [hlast]; decide), not_drawn_of_last (by rw [hlast]; decide)⟩
  · refine ⟨fun base => append_toString_ne_container _ base k, ?_⟩
    rintro (⟨base, m, h⟩ | ⟨m, h⟩)
    · have hlist : "_tup".toList ++ (toString k).toList = (base ++ "_phase").toList ++ (toString m).toList := by
        rw [← String.toList_append, ← String.toList_append, h]
      have hphase : (base ++ "_phase").toList.getLast? = some 'e' := by
        rw [String.toList_append, getLast?_append]
        rfl
      obtain ⟨hstem, -⟩ := append_number_inj (by simp) (by rw [hphase]; simp) hlist
      rw [← hstem] at hphase
      exact absurd hphase (by decide)
    · have hlist : "_tup".toList ++ (toString k).toList = "_sync".toList ++ (toString m).toList := by
        rw [← String.toList_append, ← String.toList_append, h]
      obtain ⟨hstem, -⟩ := append_number_inj (by simp) (by simp) hlist
      exact absurd hstem (by decide)

theorem IsWritten.isBase (h : IsWritten z) (hview : IsView z) (hrealized : ¬ IsRealized z) :
    IsBase z := by
  refine ⟨hview, ?_⟩
  rintro (hz | ⟨n, rfl⟩)
  · exact hrealized hz
  · exact temporary_not_written (by decide) n h

end Name

/-- A procedure that mentions names of `allowed` only and binds fresh ones. `global` has the names
known outside of it. -/
structure Procedure.IsFresh (global allowed : String → Prop) (p : Procedure) : Prop where
  name : ∃ x, p.symbol? = some x ∧ allowed x
  body : ∃ names, p.parameterNames? = some names ∧ names.Nodup ∧ (∀ x ∈ names, allowed x) ∧
    AreFresh (Also global names) p.body ∧ ∀ z ∈ namesAll p.body, allowed z

def Module.IsFresh (global allowed : String → Prop) (module : Module) : Prop :=
  ∀ st ∈ module, ∃ p : Procedure, st = p.toStmt ∧ p.IsFresh global allowed

namespace SourceUnit
variable {unit : SourceUnit}

/-- The procedures of a unit and those that it may call. -/
def declared (unit : SourceUnit) : List String :=
  unit.module.procedures.filterMap symbol? ++ unit.registry.signatures.keys

theorem mem_declared {x : String} : x ∈ unit.declared ↔ unit.Declares x := by
  rw [declared, mem_append, mem_filterMap, Table.mem_keys]
  rfl

/-- No procedure binds a name twice. Parameters are bound as well. -/
def BindsOnce (unit : SourceUnit) : Prop :=
  ∀ p ∈ unit.module.procedures, (Expr.namesAll p.parameters ++ bindingsAll p.body).Nodup

/-- No bind hides what a unit declares. -/
def HidesNothing (unit : SourceUnit) : Prop :=
  ∀ p ∈ unit.module.procedures, ∀ x ∈ bindingsAll p.body, x ∉ unit.declared

instance : Decidable unit.BindsOnce := inferInstanceAs (Decidable (∀ p ∈ unit.module.procedures, _))

instance : Decidable unit.HidesNothing := inferInstanceAs (Decidable (∀ p ∈ unit.module.procedures, _))

/-- All names of a unit. -/
def mentioned (unit : SourceUnit) : List String := unit.declared ++ namesAll unit.module

theorem mem_mentioned {p : Procedure} (hp : p.toStmt ∈ unit.module) {z : String}
    (hz : z ∈ p.toStmt.names) : z ∈ unit.mentioned :=
  mem_append_right _ (mem_namesAll.2 ⟨_, hp, hz⟩)

theorem assignLayouts_fresh
    (hread : ∀ st ∈ unit.module, ∃ p : Procedure, st = p.toStmt ∧ p.IsRead unit.Declares)
    (honce : unit.BindsOnce) (hhides : unit.HidesNothing)
    (hnames : ∀ x ∈ unit.mentioned, IsView x ∧ ¬ IsRealized x) :
    unit.module.assignLayouts.IsFresh unit.Declares fun z => IsWritten z ∧ IsBase z := by
  intro st hst
  rw [Module.assignLayouts_eq] at hst
  obtain ⟨st, hmem, rfl⟩ := mem_laidAll.1 hst
  obtain ⟨p, rfl, ⟨x, ty, hname, hx, -⟩, names, hparameters, hnodup, hwritten, hbody⟩ := hread st hmem
  have hp : p ∈ unit.module.procedures := mem_filterMap.2 ⟨_, hmem, rfl⟩
  have hbase : ∀ z ∈ p.toStmt.names, IsWritten z → IsWritten z ∧ IsBase z := fun z hz hw =>
    ⟨hw, hw.isBase (hnames z (mem_mentioned hmem hz)).1 (hnames z (mem_mentioned hmem hz)).2⟩
  obtain ⟨-, hbindings, hdisjoint⟩ := nodup_append.1 (honce p hp)
  rw [namesAll_parameters hparameters] at hdisjoint
  refine ⟨⟨p.name.laid, Expr.laidAll p.parameters, laidAll p.body⟩, rfl,
    ⟨x, by rw [symbol?, hname]; rfl, hbase x ?_ hx⟩,
    names, parameterNames?_laid hparameters, hnodup, fun y hy => hbase y ?_ (hwritten y hy), ?_, fun z hz => ?_⟩
  · simp [toStmt, hname]
  · simp [toStmt, namesAll_parameters hparameters, hy]
  · refine AreFresh.laidAll (hbody.areFresh hbindings (fun y hy hknown => ?_) fun _ hy => hy)
    rcases hknown with hknown | hmem
    · exact hhides p hp y hy (mem_declared.2 hknown)
    · exact hdisjoint y hmem y hy rfl
  · rw [namesAll_laid] at hz
    exact hbase z (mem_append_right _ hz) (hbody.written z hz).1

end SourceUnit

theorem Stmt.flattenTuplesAll_procedures (hglobal : ∀ z, global z → IsWritten z) :
    ∀ {module : Module} {n : Nat}, module.IsFresh global (fun z => IsWritten z ∧ IsBase z) →
    Triple (fun _ => True) (· = ⟨"_tup", n⟩) (flattenTuplesAll module) fun out _ => Module.IsFresh global IsBase out
  | [], n, _ => .pure nofun
  | st :: rest, n, h => by
    obtain ⟨p, rfl, hname, names, hparameters, hnodup, hallowed, hfresh, hnames⟩ := h st mem_cons_self
    obtain ⟨x, hx, -, hbase⟩ := hname
    have hknown : ∀ z, Also global names z → IsWritten z := fun z hz => hz.elim (hglobal z) fun hz => (hallowed z hz).1
    have hbody := flattenTuplesAll_fresh (n := n) hfresh hknown (fun z hz => (hnames z hz).1) fun z hz => .inl hz
    rw [flattenTuplesAll]
    refine Triple.bind (m := fun first s => s = ⟨"_tup", s.counter⟩ ∧ Module.IsFresh global IsBase first) ?_
      fun first => ?_
    · rw [toStmt, flattenTuples]
      split
      · exact .throw trivial
      · refine Triple.bind hbody fun body => .pure fun s hs => ⟨?_, fun st hst => ?_⟩
        · rw [← hs.stem]
        · cases mem_singleton.1 hst
          refine ⟨⟨p.name, p.parameters, body⟩, rfl, ⟨x, hx, hbase⟩, names, hparameters, hnodup,
            fun y hy => (hallowed y hy).2, hs.fresh, fun z hz => ?_⟩
          exact (hs.names z hz).elim (fun hz => (hnames z hz).2) fun hz => hz.isBase
    · rintro s ⟨hs, hfirst⟩
      have hrest := flattenTuplesAll_procedures hglobal (n := s.counter) fun st hst => h st (mem_cons_of_mem _ hst)
      have hall : Triple (fun _ => True) (· = ⟨"_tup", s.counter⟩)
          (flattenTuplesAll rest >>= fun out => pure (first ++ out)) fun out _ => Module.IsFresh global IsBase out :=
        hrest.bind fun out => .pure fun _ hout st hst => (mem_append.1 hst).elim (hfirst st) (hout st)
      exact hall s hs

section Declared
variable {z : String}

theorem Procedure.mem_storedNames (hnames : p.parameterNames? = some names)
    (h : z ∈ p.storedNames) : z ∈ names := by
  obtain ⟨parameter, hparameter, hz⟩ := mem_filterMap.1 h
  split at hz
  · rw [← namesAll_parameters hnames, Expr.mem_namesAll]
    exact ⟨parameter, hparameter, by simp [Expr.names_of_symbol hz]⟩
  · cases hz

theorem Procedure.mem_declaredNames {isEntry : Bool} (hnames : p.parameterNames? = some names)
    (h : z ∈ p.declaredNames isEntry) : z ∈ namesAll p.body ∨ z ∈ names ∨
      isEntry = true ∧ ∃ w ∈ p.storedNames, z = container w := by
  refine (mem_append.1 h).imp_right fun h => ?_
  obtain ⟨parameter, hparameter, hz⟩ := mem_flatMap.1 h
  cases hx : parameter.symbol? with
  | none => simp [hx] at hz
  | some x =>
    have hmem : x ∈ names := by
      rw [← namesAll_parameters hnames, Expr.mem_namesAll]
      exact ⟨parameter, hparameter, by simp [Expr.names_of_symbol hx]⟩
    simp only [hx] at hz
    split at hz
    · rename_i hstored
      obtain ⟨hentry, hneeds⟩ := Bool.and_eq_true_iff.1 hstored
      rcases mem_cons.1 hz with rfl | hz
      · exact .inl hmem
      · cases mem_singleton.1 hz
        exact .inr ⟨hentry, x, mem_filterMap.2 ⟨parameter, hparameter, by rw [if_pos hneeds, hx]⟩, rfl⟩
    · cases mem_singleton.1 hz
      exact .inl hmem

end Declared

/-- A procedure that phase analysis is given: it binds fresh names, and an entry procedure binds
storage in step with its views. -/
structure Procedure.IsLowered (global : String → Prop) (isEntry : Bool) (p : Procedure) : Prop where
  plain : Phases.Plain (p.declaredNames isEntry)
  body : ∃ names, p.parameterNames? = some names ∧ names.Nodup ∧ (∀ x ∈ names, IsBase x) ∧
    AreFresh (Also global names) p.body ∧
    (isEntry = true → ∀ w, Backed (p.declaredNames true) w →
      IsView w ∧ (w ∈ p.storedNames ∨ ¬ Also global names w))
  step : isEntry = true → areInStep (p.declaredNames true) p.body none = true

def Module.IsLowered (global : String → Prop) (entry : String) (module : Module) : Prop :=
  ∀ st ∈ module, ∃ p : Procedure, st = p.toStmt ∧ p.IsLowered global (p.symbol? = some entry)

theorem Module.IsLowered.isPlain (h : module.IsLowered global entry) : module.isPlain = true := by
  rw [Module.isPlain, all_eq_true]
  intro st hst
  obtain ⟨p, rfl, hp⟩ := h st hst
  obtain ⟨_, -, -, -, hfresh, -⟩ := hp.body
  exact hfresh.arePlain

namespace Containers

theorem plain_of_base (h : ∀ z ∈ names, IsBase z ∨ ∃ w, IsBase w ∧ z = container w) :
    Phases.Plain names := by
  intro z hz
  rcases h z hz with hbase | ⟨w, hbase, rfl⟩
  · exact ⟨hbase.2, fun w hw => absurd hw (hbase.1 w)⟩
  · refine ⟨container_not_drawn w, fun w' hw => ?_⟩
    cases container_inj hw
    exact hbase

theorem isLowered_of_fresh (h : p.IsFresh global IsBase) : p.IsLowered global false := by
  obtain ⟨-, names, hparameters, hnodup, hbase, hfresh, hnames⟩ := h
  refine ⟨plain_of_base fun z hz => .inl ?_, ⟨names, hparameters, hnodup, hbase, hfresh, nofun⟩, nofun⟩
  rcases mem_declaredNames hparameters hz with hz | hz | ⟨h, -⟩
  · exact hnames z hz
  · exact hbase z hz
  · cases h

theorem isLowered_of_stores {out : List Stmt} (hglobal : ∀ z, global z → IsView z)
    (hparameters : p.parameterNames? = some names) (hnodup : names.Nodup) (hbase : ∀ x ∈ names, IsBase x)
    (hfresh : AreFresh (Also global names) p.body)
    (hnames : ∀ z ∈ namesAll p.body, IsBase z)
    (h : Stores (· ∈ p.storedNames) p.body out) :
    ({ p with body := out } : Procedure).IsLowered global true := by
  have hstored : ∀ w ∈ p.storedNames, w ∈ names := fun w hw => mem_storedNames hparameters hw
  have hseen : ∀ w ∈ p.storedNames, Also global names w := fun w hw => .inr (hstored w hw)
  have hviews : ∀ z ∈ namesAll p.body, IsView z := fun z hz => (hnames z hz).1
  have hopens : Opens (· ∈ p.storedNames) (Also global names) p.body :=
    ⟨hfresh, hseen, fun z hz => hz.elim (hglobal z) fun hz => (hbase z hz).1, hviews⟩
  have hadded : ∀ w, container w ∈ localNames out → IsBase w ∧ ¬ Also global names w := by
    intro w hw
    have hlocal := h.view_of_storage hviews hw
    exact ⟨hnames w (mem_namesAll_of_local hlocal), hfresh.new hlocal⟩
  have hdeclared : ∀ z ∈ ({ p with body := out } : Procedure).declaredNames true, IsBase z ∨
      ∃ w, (w ∈ p.storedNames ∨ container w ∈ localNames out) ∧ z = container w := by
    intro z hz
    rcases @mem_declaredNames { p with body := out } _ _ _ hparameters hz with
      hz | hz | ⟨-, w, hw, rfl⟩
    · exact (h.names z hz).imp_left (hnames z)
    · exact .inl (hbase z hz)
    · exact .inr ⟨w, .inl hw, rfl⟩
  have hbacked : ∀ w, container w ∈ ({ p with body := out } : Procedure).declaredNames true →
      w ∈ p.storedNames ∨ container w ∈ localNames out := by
    intro w hw
    rcases hdeclared _ hw with hbase | ⟨w', hw', heq⟩
    · exact absurd rfl (hbase.1 w)
    · rwa [container_inj heq]
  have hbacks : ∀ w, w ∈ p.storedNames ∨ container w ∈ localNames out → IsBase w := fun w hw =>
    hw.elim (fun hw => hbase w (hstored w hw)) fun hw => (hadded w hw).1
  refine ⟨plain_of_base fun z hz => (hdeclared z hz).imp_right fun ⟨w, hw, hz⟩ => ⟨w, hbacks w hw, hz⟩,
    ⟨names, hparameters, hnodup, hbase, ?_, fun _ w hw => ⟨(hbacks w (hbacked w hw)).1, ?_⟩⟩, fun _ => ?_⟩
  · exact h.areFresh hopens fun z hz => .inl hz
  · exact (hbacked w hw).imp_right fun hw => (hadded w hw).2
  · refine h.inStep hopens (fun z hz => mem_append_left _ hz) fun x hx hmem => ?_
    exact (hbacked x hmem).resolve_left fun hmem => hfresh.new hx (hseen x hmem)

theorem backStmt_procedure {state state' : State} {first : List Stmt}
    (hglobal : ∀ z, global z → IsView z) (h : (backStmt entry p.toStmt).run state = .ok (first, state'))
    (hempty : ∀ w, state.declared.contains (container w) = false)
    (hfresh : p.IsFresh global IsBase) :
    (∃ p : Procedure, first = [p.toStmt] ∧ p.IsLowered global (p.symbol? = some entry)) ∧
      state'.declared = state.declared := by
  obtain ⟨⟨x, hx, hxbase⟩, names, hparameters, hnodup, hbase, hbody, hnames⟩ := id hfresh
  obtain ⟨body, rfl, hdeclared, hstores, hkept⟩ := backStmt_stores_procedure hbody.arePlain h hempty
  refine ⟨⟨{ p with body }, rfl, ?_⟩, hdeclared⟩
  by_cases hentry : p.symbol? = some entry
  · rw [show decide (({ p with body } : Procedure).symbol? = some entry) = true from decide_eq_true hentry]
    -- the storage of parameters is all the storage that is known in front of the body
    have hknown : ∀ w, p.Known w → w ∈ p.storedNames := by
      rintro w (hw | hw)
      · exact hw
      · rw [toStmt, Stmt.names, Expr.names_of_symbol hx, namesAll_parameters hparameters] at hw
        rcases mem_append.1 hw with hw | hw
        · rcases mem_append.1 hw with hw | hw
          · exact absurd (mem_singleton.1 hw).symm (hxbase.1 w)
          · exact absurd rfl ((hbase _ hw).1 w)
        · exact absurd rfl ((hnames _ hw).1 w)
    exact isLowered_of_stores hglobal hparameters hnodup hbase hbody hnames ((hstores hentry).mono hknown)
  · rw [show decide (({ p with body } : Procedure).symbol? = some entry) = false from decide_eq_false hentry]
    rw [hkept hentry]
    exact isLowered_of_fresh hfresh

theorem backStmts_procedures (hglobal : ∀ z, global z → IsView z) :
    ∀ {module : Module} {state state' : State} {out : List Stmt},
    (backStmts entry module).run state = .ok (out, state') →
    (∀ w, state.declared.contains (container w) = false) → module.IsFresh global IsBase →
    Module.IsLowered global entry out
  | [], _, _, _, h, _, _ => by
    cases h
    exact nofun
  | st :: rest, state, state', out, h, hempty, hfresh => by
    rw [backStmts] at h
    obtain ⟨first, state₁, hfirst, h⟩ := Lower.run_bind_ok_iff.1 h
    obtain ⟨out', state₂, hrest, h⟩ := Lower.run_bind_ok_iff.1 h
    cases h
    obtain ⟨p, rfl, hp⟩ := hfresh st mem_cons_self
    obtain ⟨⟨p', rfl, hlowered⟩, hdeclared⟩ := backStmt_procedure hglobal hfirst hempty hp
    intro st hst
    rcases mem_append.1 hst with hst | hst
    · exact ⟨p', mem_singleton.1 hst, hlowered⟩
    · exact backStmts_procedures hglobal hrest (fun w => hdeclared ▸ hempty w)
        (fun st hst => hfresh st (mem_cons_of_mem _ hst)) st hst

end Containers

theorem Module.backEntry_lowered {module' : Module} (hglobal : ∀ z, global z → IsView z)
    (h : module.backEntry entry = .ok module') (hfresh : module.IsFresh global IsBase) :
    module'.IsLowered global entry := by
  obtain ⟨state, hrun⟩ := Lower.run'_ok h
  obtain ⟨inner, hrun, -⟩ := Containers.inScope_ok hrun
  exact Containers.backStmts_procedures hglobal hrun (fun _ => rfl) hfresh

section Frames
variable {vs : List (Value α)} {w : String}

theorem Procedure.frame_container (hnames : p.parameterNames? = some names) (hnodup : names.Nodup)
    (hviews : ∀ x ∈ names, IsView x) : p.frame true vs (container w) =
      if w ∈ p.storedNames then (names.zip vs).lookup w else none := by
  obtain ⟨name, parameters, body⟩ := p
  simp only [parameterNames?] at hnames
  simp only [frame, storedNames]
  induction parameters generalizing names vs with
  | nil => rfl
  | cons parameter parameters ih =>
    obtain ⟨y, hy, rest, hrest, rfl⟩ := Expr.mapM_symbol_cons.1 hnames
    obtain ⟨hnew, hnodup⟩ := nodup_cons.1 hnodup
    have hview : (container w == y) = false := beq_false_of_ne fun h => hviews y mem_cons_self w h.symm
    cases vs with
    | nil => simp
    | cons v vs =>
      rw [zip_cons_cons, zip_cons_cons, flatMap_cons, lookup_append,
        ih hnodup (fun x hx => hviews x (mem_cons_of_mem _ hx)) hrest, lookup_cons]
      have hstored : w ∈ parameters.filterMap (fun p => if p.needsContainer then p.symbol? else none) → w ≠ y := by
        rintro hw rfl
        exact hnew (@mem_storedNames ⟨name, parameters, body⟩ _ _ hrest hw)
      simp only [hy, Bool.true_and, filterMap_cons]
      by_cases hneeds : parameter.needsContainer = true
      · simp only [hneeds, if_true, mem_cons, lookup_cons, hview]
        by_cases hwy : w = y
        · subst hwy
          simp
        · have hstorage : (container w == container y) = false :=
            beq_false_of_ne fun h => hwy (container_inj h)
          have hne : (w == y) = false := beq_false_of_ne hwy
          simp [hstorage, hne, hwy]
      · simp only [Bool.eq_false_iff.2 hneeds, Bool.false_eq_true, if_false, lookup_cons, hview]
        by_cases hmem : w ∈ parameters.filterMap fun p => if p.needsContainer then p.symbol? else none
        · have hne : (w == y) = false := beq_false_of_ne (hstored hmem)
          simp only [hmem, if_true, hne, lookup_nil, Option.none_or]
        · simp only [hmem, if_false, lookup_nil, Option.none_or]

end Frames

theorem Interpretation.machine_watches (I : Interpretation α) :
    I.machine.Watches I id fun _ => True where
  eval h := ⟨h.1, h.2, id⟩
  reads h := ⟨_, rfl, h⟩
  assign _ _ _ := rfl
  good _ _ := trivial

theorem Procedure.IsLowered.start {I : Interpretation α} {vs : List (Value α)}
    (h : p.IsLowered global true)
    (hglobal : ∀ z, global z → IsView z) (hdenotes : ∀ x, I.denotes x = true → global x)
    (hlength : vs.length = p.parameters.length) (x : String) (hx : Backed (p.declaredNames true) x) :
    I.read (p.frame true vs) (container x) = I.read (p.frame true vs) x := by
  obtain ⟨names, hnames, hnodup, hbase, -, hbacked⟩ := h.body
  obtain ⟨hview, hx⟩ := hbacked rfl x hx
  have hviews : ∀ x ∈ names, IsView x := fun x hx => (hbase x hx).1
  have hstorage : I.denotes (container x) = false :=
    Bool.eq_false_iff.2 fun hd => hglobal _ (hdenotes _ hd) x rfl
  rw [Interpretation.read, Interpretation.read, frame_container hnames hnodup hviews,
    frame_eq hnames fun _ => hview, hstorage]
  by_cases hmem : x ∈ p.storedNames
  · have hvalue : ((names.zip vs).lookup x).isSome = true := by
      obtain ⟨k, hk, rfl⟩ := getElem_of_mem (mem_storedNames hnames hmem)
      have hlength' := parameterNames_length hnames
      rw [lookup_isSome_iff]
      exact ⟨(names[k], vs[k]), mem_of_getElem (i := k) (h := by simp; omega) (by simp), by simp⟩
    obtain ⟨v, hv⟩ := Option.isSome_iff_exists.1 hvalue
    rw [if_pos hmem, hv]
    rfl
  · have hnew := hx.resolve_left hmem
    have hunbound : p.frame true vs x = none :=
      frame_unbound hnames (fun _ => hview) fun hmem => hnew (.inr hmem)
    have hfree : I.denotes x = false := Bool.eq_false_iff.2 fun hd => hnew (.inl (hdenotes x hd))
    rw [if_neg hmem, ← frame_eq hnames fun _ => hview, hunbound, hfree]
    rfl

/-- Phase analysis keeps the meaning of every procedure of a unit that binds each name once and
hides nothing that it declares. -/
theorem insertBoundaries_keeps_meaning {text : List Char} {unit : SourceUnit}
    {tupleFree module module' : Module}
    {entry symbol : String} {i : Nat} {p : Procedure} (hread : SourceUnit.ofText? text = .ok unit)
    (honce : unit.BindsOnce) (hhides : unit.HidesNothing)
    (hnames : ∀ x ∈ unit.mentioned, IsView x ∧ ¬ IsRealized x)
    (hflat : unit.module.assignLayouts.flattenTuples = .ok tupleFree)
    (hback : tupleFree.backEntry entry = .ok module)
    (h : module.insertBoundaries unit.registry entry = .ok module')
    (hi : module[i]? = some p.toStmt) (hsymbol : p.symbol? = some symbol)
    (hreach : symbol ∈ Phases.reachable module entry) :
    ∃ p' : Procedure, module'[i]? = some p'.toStmt ∧ p'.name = p.name ∧
      p'.parameters = p.parameters ∧
      ∀ (I : Interpretation α), I.Functional → I.Transparent → (∀ x, I.denotes x = true → unit.Declares x) →
        ∀ vs v, vs.length = p.parameters.length →
          (I.Yields (p'.frame (symbol = entry) vs) p'.body v ↔
            I.Yields (p.frame (symbol = entry) vs) p.body v) := by
  have hviews : ∀ z, unit.Declares z → IsView z := fun z hz =>
    (hnames z (List.mem_append_left _ (SourceUnit.mem_declared.2 hz))).1
  have hfresh := unit.assignLayouts_fresh (SourceUnit.ofText?_isRead hread) honce hhides hnames
  have hflat' := ((Stmt.flattenTuplesAll_procedures (SourceUnit.ofText?_declares hread) hfresh).run' rfl).of_ok hflat
  have hlowered := tupleFree.backEntry_lowered hviews hback hflat'
  obtain ⟨q, hq, hprocedure⟩ := hlowered _ (mem_of_getElem? hi)
  have hq : p = q := Option.some.inj (congrArg procedure? hq)
  subst hq
  have hisEntry : decide (p.symbol? = some entry) = decide (symbol = entry) := by
    rw [hsymbol]
    simp
  rw [hisEntry] at hprocedure
  obtain ⟨names, -, -, -, hfreshBody, -⟩ := hprocedure.body
  obtain ⟨p', hi', hname, hparameters, hbody⟩ :=
    module.insertBoundaries_reached hlowered.isPlain h hi hsymbol hreach
  refine ⟨p', hi', hname, hparameters, fun I hI hT hdenotes vs v hlength => ?_⟩
  have hframe : p'.frame (symbol = entry) vs = p.frame (symbol = entry) vs := by
    unfold frame
    rw [hparameters]
  have hstep : symbol = entry → areInStep (p.declaredNames true) p.body none = true ∧
      ∀ x, Backed (p.declaredNames true) x → I.read (p.frame (symbol = entry) vs) (container x) =
        I.read (p.frame (symbol = entry) vs) x := by
    intro hentry
    rw [decide_eq_true hentry] at hprocedure ⊢
    exact ⟨hprocedure.step rfl, hprocedure.start hviews hdenotes hlength⟩
  obtain ⟨_, hfollows⟩ := hbody.follows (c := p.frame (symbol = entry) vs) hI hT I.machine_watches
    hprocedure.plain (hfreshBody.areSteady fun x hx => absurd hx not_mem_nil) hstep trivial
  rw [hframe]
  constructor
  · rintro ⟨σ, hrun⟩
    obtain ⟨_, hrun, hrel⟩ := hfollows.back ⟨fun _ _ => rfl, trivial⟩ _ hrun
    obtain ⟨τ, rfl, -⟩ := hrel.of_leaves
    exact ⟨τ, hrun⟩
  · rintro ⟨σ, hrun⟩
    obtain ⟨_, hrun, hrel⟩ := hfollows.forth ⟨fun _ _ => rfl, trivial⟩ _ hrun
    obtain ⟨τ, rfl, -⟩ := hrel.of_leaves
    exact ⟨τ, hrun⟩

/-- Hands over a pair of a pending row and another. -/
def pairedText : List Char :=
  ("declare shift : fn([Int32]) -> [Int32] propagates; declare dot : fn(([Int32], [Int32])) -> Int32 forces; " ++
   "procedure main(xs: [Int32]) -> Int32 \x7b ys = shift(xs); p = (ys, xs); d = dot(p); return d; \x7d").toList

theorem pairedText_keeps_meaning : ∃ (unit : SourceUnit) (tupleFree module module' : Module)
    (p p' : Procedure), SourceUnit.ofText? pairedText = .ok unit ∧
    unit.module.assignLayouts.flattenTuples = .ok tupleFree ∧ tupleFree.backEntry "main" = .ok module ∧
    module.insertBoundaries unit.registry "main" = .ok module' ∧ module[0]? = some p.toStmt ∧
    module'[0]? = some p'.toStmt ∧ p'.body ≠ p.body ∧
    ∀ (I : Interpretation Nat), I.Functional → I.Transparent → (∀ x, I.denotes x = true → unit.Declares x) →
      ∀ vs v, vs.length = p.parameters.length →
        (I.Yields (p'.frame ("main" = "main") vs) p'.body v ↔
          I.Yields (p.frame ("main" = "main") vs) p.body v) := by
  have hchecks : ((SourceUnit.ofText? pairedText).toOption.any fun unit =>
      decide (unit.BindsOnce ∧ unit.HidesNothing ∧ ∀ x ∈ unit.mentioned, Name.isStorage x = false ∧
        x.toList.getLast?.any Char.isDigit = false) &&
      unit.module.assignLayouts.flattenTuples.toOption.any fun tupleFree =>
        (tupleFree.backEntry "main").toOption.any fun module =>
          (module.insertBoundaries unit.registry "main").toOption.any fun module' =>
            (module[0]?.bind Stmt.procedure?).any fun p => (module'[0]?.bind Stmt.procedure?).any fun p' =>
              decide (p.symbol? = some "main" ∧ "main" ∈ Phases.reachable module "main" ∧
                p'.body ≠ p.body)) = true := by decide +kernel
  obtain ⟨unit, hread, hunit⟩ := Except.any_toOption.1 hchecks
  obtain ⟨hnames, hsteps⟩ := Bool.and_eq_true_iff.1 hunit
  obtain ⟨honce, hhides, hnames⟩ := of_decide_eq_true hnames
  obtain ⟨tupleFree, hflat, hsteps⟩ := Except.any_toOption.1 hsteps
  obtain ⟨module, hback, hsteps⟩ := Except.any_toOption.1 hsteps
  obtain ⟨module', hok, hsteps⟩ := Except.any_toOption.1 hsteps
  obtain ⟨p, hi, hsteps⟩ := Stmt.getElem?_of_procedure hsteps
  obtain ⟨rewritten, hi', hsteps⟩ := Stmt.getElem?_of_procedure hsteps
  obtain ⟨hsymbol, hreach, hne⟩ := of_decide_eq_true hsteps
  obtain ⟨p', hi'', -, -, hmeaning⟩ := insertBoundaries_keeps_meaning hread honce hhides
    (fun x hx => ⟨Name.isView_of_not_storage (hnames x hx).1, fun h => Name.not_drawn_of_last (hnames x hx).2 (.inl h)⟩)
    hflat hback hok hi hsymbol hreach
  have hsame : rewritten = p' :=
    Option.some.inj (congrArg Stmt.procedure? (Option.some.inj (hi'.symm.trans hi'')))
  subst hsame
  exact ⟨unit, tupleFree, module, module', p, rewritten, hread, hflat, hback, hok, hi, hi', hne, hmeaning⟩

def lookedRow : Typing :=
  ⟨.tuple [pointwise.ty, row.ty], some (.tuple [.function [.scalar .float32] (.scalar .float32),
    .sequence (.scalar .float32)])⟩

def lookedUp (e : Expr) : Expr := .apply (.name "both" ⟨.function [lookedRow.ty] number.ty, none⟩) [e] number

/-- Pairs a declared procedure with a row, and then hides the procedure. -/
def masked : Procedure where
  name := .name "main" number
  parameters := [.name "xs" row]
  body := [.bind (.name "ys" row) (shifted (.name "xs" row)),
    .bind (.name "p" lookedRow) (.applySnippet Snippet.makeTuple [.name "h" pointwise, .name "ys" row] lookedRow),
    .bind (.name "h" pointwise) (looked (.name "xs" row)),
    .bind (.name "d" number) (lookedUp (.name "p" lookedRow)),
    .ret (.name "d" number)]

def maskedRealized : Procedure :=
  { masked with
    body := [.bind (.name "ys" row) (shifted (.name "xs" row)),
      .bind (.name "p" lookedRow) (.applySnippet Snippet.makeTuple [.name "h" pointwise, .name "ys" row] lookedRow),
      .bind (.name "h" pointwise) (looked (.name "xs" row)),
      realizeRow "ys_phase0" (.name "ys" row),
      .bind (.name "p_phase1" lookedRow)
        (.applySnippet Snippet.makeTuple [.name "h" pointwise, stored "ys_phase0"] lookedRow),
      .bind (.name "d" number) (lookedUp (.name "p_phase1" lookedRow)),
      .ret (.name "d" number)] }

def maskedCalls : Registry :=
  ((rowCalls.insert "both" ⟨.function [lookedRow.ty] number.ty, .forces⟩).insert "h" ⟨pointwise.ty, .inert⟩).insert
    "look" ⟨.function [row.ty, number.ty] number.ty, .inert⟩

/-- Every name is bound once, but the pair is rebuilt with what hides a declared name. -/
theorem insertBoundaries_changes_masked :
    Module.insertBoundaries [masked.toStmt] maskedCalls "main" = .ok [maskedRealized.toStmt] ∧
      (Expr.namesAll masked.parameters ++ bindingsAll masked.body).Nodup ∧
      (∀ x ∈ masked.declaredNames false, IsView x ∧ ¬ IsDrawn x) ∧
      ∃ (I : Interpretation Nat) (v : Value Nat), I.Functional ∧ I.Transparent ∧
        (∀ x, I.denotes x = true → maskedCalls.contains x = true) ∧
        I.Yields (masked.frame true [.datum 0]) masked.body v ∧
        ¬ I.Yields (maskedRealized.frame true [.datum 0]) maskedRealized.body v := by
  have hnames : ∀ x ∈ masked.declaredNames false, isStorage x = false ∧
      x.toList.getLast?.any Char.isDigit = false := by decide +kernel
  let I : Interpretation Nat := { Interpretation.echoing with denotes := maskedCalls.contains }
  have hI : I.Functional := Interpretation.echoing_functional
  have hT : I.Transparent := ⟨fun _ _ => Iff.rfl, fun _ _ => Iff.rfl⟩
  have hshift : ∀ {σ : Store Nat} {x : String} {v : Value Nat}, I.read σ "shift" = some (.procedure "shift") →
      I.read σ x = some v → I.Eval σ (shifted (.name x row)) v :=
    fun hf hx => ⟨_, [_], hf, ⟨_, _, hx, rfl, rfl⟩, rfl⟩
  have hpair : ∀ {σ : Store Nat} {e f : Expr} {v w : Value Nat}, I.Eval σ e v → I.Eval σ f w →
      I.Eval σ (.applySnippet Snippet.makeTuple [e, f] lookedRow) (.tuple [v, w]) :=
    fun hv hw => ⟨_, _, rfl, ⟨_, _, hv, ⟨_, _, hw, rfl, rfl⟩, rfl⟩, rfl⟩
  have hboth : ∀ {σ : Store Nat} {x : String} {v : Value Nat}, I.read σ "both" = some (.procedure "both") →
      I.read σ x = some v → I.Eval σ (lookedUp (.name x lookedRow)) v :=
    fun hf hx => ⟨_, [_], hf, ⟨_, _, hx, rfl, rfl⟩, rfl⟩
  have hlook : ∀ {σ : Store Nat} {x : String} {v : Value Nat}, I.read σ "look" = some (.procedure "look") →
      I.read σ x = some v → I.Eval σ (looked (.name x row)) (.closure (.procedure "look") [v]) :=
    fun hf hx => ⟨_, [_], hf, ⟨_, _, hx, rfl, rfl⟩, rfl⟩
  refine ⟨by decide +kernel, by decide +kernel, fun x hx => ⟨isView_of_not_storage (hnames x hx).1,
    not_drawn_of_last (hnames x hx).2⟩, I, .tuple [.procedure "h", .datum 0], hI, hT, fun _ => id, ?_,
    fun hsame => ?_⟩
  · exact ⟨_, .bind (v := .datum 0) rfl ⟨rfl, hshift (by rfl) (by rfl)⟩
      (.bind rfl ⟨rfl, hpair (by rfl) (by rfl)⟩
      (.bind (v := .closure (.procedure "look") [.datum 0]) rfl ⟨rfl, hlook (by rfl) (by rfl)⟩
      (.bind rfl ⟨rfl, hboth (by rfl) (by rfl)⟩ (.ret ⟨rfl, (by rfl)⟩))))⟩
  · have hrebuilt : I.Yields (maskedRealized.frame true [.datum 0]) maskedRealized.body
        (.tuple [.closure (.procedure "look") [.datum 0], .datum 0]) :=
      ⟨_, .bind (v := .datum 0) rfl ⟨rfl, hshift (by rfl) (by rfl)⟩
        (.bind (v := .tuple [.procedure "h", .datum 0]) rfl ⟨rfl, hpair (by rfl) (by rfl)⟩
        (.bind (v := .closure (.procedure "look") [.datum 0]) rfl ⟨rfl, hlook (by rfl) (by rfl)⟩
        (.bind (v := .datum 0) rfl ⟨rfl, (Interpretation.eval_boundary hT).2 (by rfl)⟩
        (.bind rfl ⟨rfl, hpair (by rfl) (by rfl)⟩
        (.bind rfl ⟨rfl, hboth (by rfl) (by rfl)⟩ (.ret ⟨rfl, (by rfl)⟩))))))⟩
    have hne := hsame.unique hI hrebuilt
    simp at hne

end DataParallel
