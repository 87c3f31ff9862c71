import DataParallel.Lowering.Wrapper
import DataParallel.Proofs.Printable.Basic
import DataParallel.Proofs.TailCalls
import DataParallel.Proofs.Unpacking

/-! Every step but phase analysis keeps a module printable and misses no layout. -/

namespace DataParallel

open DataParallel.Expr List Stmt Procedure

variable {es : List Expr} {target : Expr → Prop} {p : Procedure} {parameter value : Expr}
  {σ : Type} {module : Module}

/-- The steps miss no layout, whatever they know, and what they return satisfies `p`. -/
abbrev Tolerates {σ α : Type} (x : Lower σ α) (p : α → Prop) : Prop :=
  Preserves LoweringError.Tolerable (fun _ => True) x p

theorem modifies_tolerates (f : σ → σ) : Tolerates (modify f : Lower σ PUnit) fun _ => True :=
  .modifies fun _ _ => trivial

theorem set_tolerates (t : σ) : Tolerates (set t : Lower σ PUnit) fun _ => True := .set trivial

namespace Expr

def IsPattern (e : Expr) : Prop := e.isBinder = true ∧ e.Printable

theorem areLaidOut_laid (es : List Expr) : areLaidOut (laidAll es) = true := by
  induction es using list_induction with
  | nil => rfl
  | cons e es ihe ih => cases e <;> simp_all [laid, laidAll, areLaidOut, isLaidOut, Typing.laid]

theorem allCallNames_laid (es : List Expr) : allCallNames (laidAll es) = allCallNames es := by
  induction es using list_induction with
  | nil => rfl
  | cons e es ihe ih => cases e <;> simp_all [laid, laidAll, allCallNames, callsNames, isName_laid]

theorem laid_printable {e : Expr} (h : e.callsNames = true) : e.laid.Printable :=
  printable_all.2 ⟨areLaidOut_laid [e], by rw [allCallNames_laid, allCallNames, h]; rfl⟩ _ mem_cons_self

theorem allCallNames_of_areBinders (h : areBinders es = true) : allCallNames es = true := by
  induction es using list_induction with
  | nil => rfl
  | cons e es ihe ih => cases e <;> simp_all [areBinders, isBinder, allCallNames, callsNames]

theorem laid_isPattern {e : Expr} (h : e.isBinder = true) : e.laid.IsPattern := by
  have hcalls := @allCallNames_of_areBinders [e] (by rw [areBinders, h]; rfl)
  exact ⟨(isBinder_laid e).trans h, laid_printable (Bool.and_eq_true_iff.1 hcalls).1⟩

end Expr

namespace Stmt

theorem laidAll_printable {known : String → Prop} (h : AreRead known block) :
    PrintableAll IsPattern (laidAll block) := by
  induction block using block_induction generalizing known with
  | nil => trivial
  | cons s =>
    cases s <;> grind [AreRead, IsRead, Expr.IsRead, suites, PrintableAll, Printable, laid, laidAll,
      laid_isPattern,
      laid_printable]

end Stmt

theorem Ty.IsProcedure.result {ty : Ty} (h : ty.IsProcedure) :
    ((Emission.openLayout (Layout.ofTy ty)).2.result?).isSome = true := by
  obtain ⟨parameters, result, hty⟩ := h
  cases ty with
  | function => simp [Layout.ofTy, Emission.openLayout, Layout.result?]
  | quantified binders body =>
    cases hty
    simp [Layout.ofTy, Emission.openLayout, Layout.result?]
  | _ => cases hty

theorem Expr.isName_of_mapM {names : List String} (h : es.mapM symbol? = some names) :
    ∀ e ∈ es, e.isName = true := by
  intro e he
  obtain ⟨x, -, hx⟩ := exists_symbol h he
  rw [isName, hx]
  rfl

theorem Expr.laidAll_areTargets (h : ∀ e ∈ es, e.isName = true) : ∀ e ∈ laidAll es, e.IsTarget := by
  induction es with
  | nil => exact nofun
  | cons d es ih =>
    intro e he
    rcases mem_cons.1 he with rfl | he
    · have hd := h d mem_cons_self
      cases d with
      | name => exact ⟨rfl, printable_name.2 rfl⟩
      | _ => cases hd
    · exact ih (fun c hc => h c (mem_cons_of_mem d hc)) e he

theorem Module.assignLayouts_printable {global : String → Prop}
    (h : ∀ st ∈ module, ∃ p : Procedure, st = p.toStmt ∧ p.IsRead global) :
    module.assignLayouts.Printable IsPattern := by
  rw [Module.assignLayouts_eq]
  intro s hs
  obtain ⟨t, ht, rfl⟩ := mem_laidAll.1 hs
  obtain ⟨p, rfl, hp⟩ := h t ht
  obtain ⟨x, ty, hname, -, -, hty⟩ := hp.name
  obtain ⟨names, hnames, -, -, hbody⟩ := hp.body
  refine ⟨⟨p.name.laid, laidAll p.parameters, laidAll p.body⟩, rfl, ⟨?_, ?_, ?_, ?_⟩⟩
  · rw [hname]
    exact ⟨rfl, printable_name.2 rfl⟩
  · intro layout hlayout
    rw [hname] at hlayout
    cases hlayout
    exact hty.result
  · exact laidAll_areTargets (isName_of_mapM hnames)
  · exact laidAll_printable hbody

namespace Stmt

def Flattens (x : Lower Supply (List Stmt)) : Prop := Tolerates x (PrintableAll IsTarget)

theorem Flattens.append {x y : Lower Supply (List Stmt)} (hx : Flattens x) (hy : Flattens y) :
    Flattens (x >>= fun first => y >>= fun rest => pure (first ++ rest)) :=
  Preserves.bind hx fun _ hfirst => Preserves.bind hy fun _ hrest => .pure (printableAll_append.2 ⟨hfirst, hrest⟩)

mutual

theorem flattenBind_printable : ∀ {target value : Expr}, target.IsPattern → value.Printable →
    Flattens (flattenBind target value)
  | .name x typing, value, ht, hv => by
    have htarget : (name x typing).IsTarget := ⟨rfl, ht.2⟩
    cases value with
    | tuple values typing' =>
      obtain ⟨htyping, hvalues⟩ := printable_tuple.1 hv
      exact .pure ⟨⟨htarget, printable_applySnippet hvalues htyping⟩, trivial⟩
    | _ => exact .pure ⟨⟨htarget, hv⟩, trivial⟩
  | .tuple targets typing, value, ht, hv => by
    have htargets := (printable_tuple.1 ht.2).2
    have fields : ∀ source : Expr, source.Printable → Flattens (flattenFields source 0 targets) :=
      fun source hsource => flattenFields_printable ht.1 htargets hsource
    cases value with
    | tuple values typing' =>
      rw [flattenBind]
      split
      · exact flattenPairs_printable ht.1 htargets (printable_tuple.1 hv).2
      · exact .throw nofun
    | apply function arguments typing' =>
      refine Preserves.bind (p := fun _ => True) (.modifyGet fun _ _ => ⟨trivial, trivial⟩)
        fun name _ => Preserves.bind (fields _ (hv.renamed name)) fun rest hrest => ?_
      exact .pure ⟨⟨⟨rfl, hv.renamed name⟩, hv⟩, hrest⟩
    | name | literal | closure => exact fields _ hv

theorem flattenPairs_printable : ∀ {targets values : List Expr}, areBinders targets = true →
    (∀ e ∈ targets, e.Printable) → (∀ e ∈ values, e.Printable) → Flattens (flattenPairs targets values)
  | [], _, _, _, _ => .pure trivial
  | _ :: _, [], _, _, _ => .pure trivial
  | target :: targets, value :: values, hb, ht, hv => by
    rw [areBinders, Bool.and_eq_true] at hb
    rw [flattenPairs]
    refine .append (flattenBind_printable ⟨hb.1, ht target mem_cons_self⟩ (hv value mem_cons_self)) ?_
    exact flattenPairs_printable hb.2 (fun e he => ht e (mem_cons_of_mem _ he)) fun e he => hv e (mem_cons_of_mem _ he)

theorem flattenFields_printable : ∀ {targets : List Expr} {source : Expr} {index : Nat},
    areBinders targets = true → (∀ e ∈ targets, e.Printable) → source.Printable →
    Flattens (flattenFields source index targets)
  | [], _, _, _, _, _ => .pure trivial
  | target :: targets, source, index, hb, ht, hs => by
    rw [areBinders, Bool.and_eq_true] at hb
    have htarget := ht target mem_cons_self
    rw [flattenFields]
    refine .append (flattenBind_printable ⟨hb.1, htarget⟩ (printable_applySnippet ?_ htarget.isSome)) ?_
    · exact forall_mem_singleton.2 hs
    · exact flattenFields_printable hb.2 (fun e he => ht e (mem_cons_of_mem _ he)) hs

end

mutual

theorem flattenTuples_printable : ∀ {s : Stmt}, s.Printable IsPattern → Flattens s.flattenTuples
  | .bind target value, h => by
    rw [flattenTuples]
    split
    · exact flattenBind_printable h.1 h.2
    · rename_i hplain
      refine .pure ⟨⟨⟨?_, h.1.2⟩, h.2⟩, trivial⟩
      cases target with
      | name => rfl
      | tuple => simp [isTuple] at hplain
      | _ => cases h.1.1
  | .ret _, h => .pure ⟨h, trivial⟩
  | .branch test whenTrue whenFalse, h => by
    rw [flattenTuples]
    refine Preserves.bind (flattenTuplesAll_printable h.2.1) fun a ha => ?_
    exact Preserves.bind (flattenTuplesAll_printable h.2.2) fun b hb => .pure ⟨⟨h.1, ha, hb⟩, trivial⟩
  | .loop test body, h => by
    rw [flattenTuples]
    exact Preserves.bind (flattenTuplesAll_printable h.2) fun a ha => .pure ⟨⟨h.1, ha⟩, trivial⟩

theorem flattenTuplesAll_printable : ∀ {block : List Stmt}, PrintableAll IsPattern block →
    Flattens (flattenTuplesAll block)
  | [], _ => .pure trivial
  | _ :: _, h => .append (flattenTuples_printable h.1) (flattenTuplesAll_printable h.2)

end

end Stmt

theorem Module.Printable.append {module' : Module} (h : module.Printable target)
    (h' : module'.Printable target) : (module ++ module').Printable target := by
  exact forall_mem_append.2 ⟨h, h'⟩

theorem Module.Printable.singleton (h : p.Printable target) :
    Module.Printable target [p.toStmt] := by
  exact forall_mem_singleton.2 ⟨p, rfl, h⟩

theorem Module.flattenTuples_printable (h : module.Printable IsPattern) :
    Meets LoweringError.Tolerable (Module.Printable IsTarget) module.flattenTuples := by
  refine Preserves.run' (h.pass (K := fun _ => True) flattenTuplesAll rfl fun {p rest} hp hrest => ?_) trivial
  rw [flattenTuplesAll]
  refine Preserves.bind ?_ fun first hfirst => Preserves.bind hrest fun rest hrest =>
    .pure (Module.Printable.append hfirst hrest)
  rw [toStmt, Stmt.flattenTuples]
  split
  · exact .throw (by rintro _ ⟨⟩)
  · refine Preserves.bind (flattenTuplesAll_printable hp.body) fun body hbody => .pure ?_
    exact @Module.Printable.singleton _ ⟨p.name, p.parameters, body⟩ ⟨hp.name, hp.result, hp.parameters, hbody⟩

theorem Stmt.rebindView_printable {isDeclared : String → Bool} {target : Expr}
    (ht : target.IsTarget) (hv : value.Printable) :
    Meets LoweringError.Tolerable (PrintableAll IsTarget) (rebindView isDeclared target value) := by
  refine (expectName_meets _).bind fun x _ => (expectName_meets _).bind fun y _ => ?_
  split
  · refine ht.2.containerOf.bind fun storage hstorage => hv.containerOf.bind fun source hsource => ?_
    exact ⟨⟨hstorage, hsource.2⟩, ⟨ht, hv⟩, trivial⟩
  · exact ⟨⟨ht, hv⟩, trivial⟩

namespace Containers
variable {target : Expr}

theorem declare_tolerates (names : List String) :
    Tolerates (declare names) fun _ => True := modifies_tolerates _

theorem isDeclared_tolerates : Tolerates isDeclared fun _ => True :=
  Preserves.get.bind fun _ _ => .pure trivial

theorem inScope_tolerates {α : Type} {steps : Backing α} {p : α → Prop} (h : Tolerates steps p) :
    Tolerates (inScope steps) p :=
  (modifies_tolerates _).bind fun _ _ => h.bind fun _ ha => (modifies_tolerates _).bind fun _ _ => .pure ha

theorem storages_printable {isDeclared : String → Bool} (h : ∀ e ∈ es, e.Printable) :
    Meets LoweringError.Tolerable (fun found => ∀ ds ∈ found, ∀ d ∈ ds, d.Printable) (storages isDeclared es) := by
  induction es with
  | nil =>
    intro ds hds d hd
    cases hds
    exact absurd hd not_mem_nil
  | cons e es ih =>
    have he := h e mem_cons_self
    have hrest := ih fun d hd => h d (mem_cons_of_mem e hd)
    -- the storage of one argument in front of that of the others
    have cons : ∀ first : Expr, first.Printable → Meets LoweringError.Tolerable
        (fun found => ∀ ds ∈ found, ∀ d ∈ ds, d.Printable)
        (do return (← storages isDeclared es).map (first :: ·)) := by
      intro first hfirst
      refine hrest.bind fun found hfound => ?_
      intro ds hds d hd
      obtain ⟨rest, hsome, rfl⟩ := Option.map_eq_some_iff.1 hds
      rcases mem_cons.1 hd with rfl | hd
      · exact hfirst
      · exact hfound rest hsome d hd
    cases e with
    | literal => exact cons _ he
    | name x typing =>
      rw [storages]
      split
      · exact cons _ he
      · split
        · exact he.containerOf.bind fun storage hstorage => cons storage hstorage.2
        · intro ds hds
          cases hds
    | _ => exact nofun

theorem backTuple_printable (ht : target.IsTarget) (hv : value.Printable) :
    Tolerates (backTuple target value) (PrintableAll IsTarget) := by
  have harguments : ∀ e ∈ value.arguments, e.Printable := by
    cases value with
    | apply => exact (printable_apply.1 hv).2.2.2
    | _ => exact nofun
  refine Preserves.bind (p := fun _ => True) ?_ fun layouts _ => ?_
  · refine (Preserves.mapM (p := fun _ => True) fun e he => .lift ?_).mono fun _ _ => trivial
    exact (harguments e he).expectLayout.mono fun _ _ => trivial
  dsimp only
  split
  · exact .pure ⟨⟨ht, hv⟩, trivial⟩
  · refine isDeclared_tolerates.bind fun isDeclared _ => ?_
    refine Preserves.bind (.lift (storages_printable harguments)) fun found hfound => ?_
    split
    · exact .pure ⟨⟨ht, hv⟩, trivial⟩
    · refine Preserves.bind (.lift (expectName_meets _)) fun name _ => ?_
      refine (declare_tolerates _).bind fun _ _ => .pure ⟨⟨ht, hv⟩, ⟨⟨rfl, printable_name.2 rfl⟩, ?_⟩, trivial⟩
      exact printable_applySnippet (hfound _ rfl) rfl

theorem backBind_printable (ht : target.IsTarget) (hv : value.Printable) :
    Tolerates (backBind target value) (PrintableAll IsTarget) := by
  refine (declare_tolerates _).bind fun _ _ => ?_
  split
  · refine isDeclared_tolerates.bind fun isDeclared _ => ?_
    refine Preserves.bind (.lift (rebindView_printable ht hv)) fun statements hstatements => ?_
    exact (declare_tolerates _).bind fun _ _ => .pure hstatements
  · refine (declare_tolerates _).bind fun _ _ => ?_
    split
    · exact backTuple_printable ht hv
    · exact .pure ⟨⟨ht, hv⟩, trivial⟩

mutual

theorem backStmt_printable (entry : String) : ∀ {s : Stmt}, s.Printable IsTarget →
    Tolerates (backStmt entry s) (PrintableAll IsTarget)
  | .bind target value, h => by
    rw [backStmt]
    refine Preserves.get.bind fun state _ => ?_
    split
    · exact backBind_printable h.1 h.2
    · exact .pure ⟨h, trivial⟩
  | .ret _, h => (declare_tolerates _).bind fun _ _ => .pure ⟨h, trivial⟩
  | .branch .., h => by
    rw [backStmt]
    refine (declare_tolerates _).bind fun _ _ => ?_
    refine (inScope_tolerates (backStmts_printable entry h.2.1)).bind fun a ha => ?_
    refine (inScope_tolerates (backStmts_printable entry h.2.2)).bind fun b hb => ?_
    exact .pure ⟨⟨h.1, ha, hb⟩, trivial⟩
  | .loop .., h => by
    rw [backStmt]
    refine (declare_tolerates _).bind fun _ _ => ?_
    exact (inScope_tolerates (backStmts_printable entry h.2)).bind fun a ha => .pure ⟨⟨h.1, ha⟩, trivial⟩

theorem backStmts_printable (entry : String) : ∀ {block : List Stmt}, PrintableAll IsTarget block →
    Tolerates (backStmts entry block) (PrintableAll IsTarget)
  | [], _ => .pure trivial
  | _ :: _, h => by
    rw [backStmts]
    refine (backStmt_printable entry h.1).bind fun first hfirst => ?_
    refine (backStmts_printable entry h.2).bind fun rest hrest => ?_
    exact .pure (printableAll_append.2 ⟨hfirst, hrest⟩)

end

theorem backProcedure_printable (entry : String) {p : Procedure} (hp : p.Printable IsTarget) :
    Tolerates (backStmt entry p.toStmt) (Module.Printable IsTarget) := by
  rw [toStmt, backStmt]
  refine (modifies_tolerates _).bind fun _ _ => Preserves.get.bind fun state _ => ?_
  split
  · have body : Tolerates (inScope do
        declare (parameterStorages p.parameters ++ p.name.names ++ namesAll p.parameters)
        inScope (backStmts entry p.body)) (PrintableAll IsTarget) :=
      inScope_tolerates ((declare_tolerates _).bind fun _ _ => inScope_tolerates (backStmts_printable entry hp.body))
    refine body.bind fun body hbody => (modifies_tolerates _).bind fun _ _ => .pure ?_
    exact @Module.Printable.singleton _ ⟨p.name, p.parameters, body⟩ ⟨hp.name, hp.result, hp.parameters, hbody⟩
  · exact .pure (.singleton hp)

end Containers

theorem Module.backEntry_printable (entry : String) (h : module.Printable IsTarget) :
    Meets LoweringError.Tolerable (Module.Printable IsTarget) (module.backEntry entry) := by
  refine Preserves.run' (Containers.inScope_tolerates (h.pass (Containers.backStmts entry) rfl fun hp hrest => ?_))
    trivial
  rw [Containers.backStmts]
  refine (Containers.backProcedure_printable entry hp).bind fun first hfirst => ?_
  exact hrest.bind fun rest hrest => .pure (Module.Printable.append hfirst hrest)

namespace TailCall
variable {f : String} {arguments parameters : List Expr} {call : TailCall}

theorem negate_printable {test : Expr} (h : test.Printable) : (negate test).Printable := by
  have snippet : ∀ typing : Typing, typing.layout.isSome = true →
      (applySnippet Name.negation [test] typing).Printable := by
    intro typing htyping
    refine printable_applySnippet (fun e he => ?_) htyping
    cases mem_singleton.1 he
    exact h
  cases test with
  | apply function arguments typing =>
    obtain ⟨htyping, hname, hfunction, harguments⟩ := printable_apply.1 h
    rw [negate]
    split
    · exact printable_apply.2 ⟨htyping, rfl, hfunction.renamed _, harguments⟩
    · exact snippet typing htyping
  | _ => exact snippet _ h.isSome

structure Printable (call : TailCall) : Prop where
  leading : PrintableAll IsTarget call.leading
  test : call.test.Printable
  step : PrintableAll IsTarget call.step
  arguments : ∀ e ∈ call.arguments, e.Printable
  base : PrintableAll IsTarget call.base

theorem split_printable {block step : List Stmt}
    (h : split? f block = some (step, arguments)) (hblock : PrintableAll IsTarget block) :
    PrintableAll IsTarget step ∧ ∀ e ∈ arguments, e.Printable := by
  have called : ∀ {value : Expr}, value.Printable → ∀ e ∈ value.arguments, e.Printable := by
    intro value hvalue
    cases value with
    | apply => exact (printable_apply.1 hvalue).2.2.2
    | _ => exact nofun
  rcases split_eq_some h with ⟨value, rfl, -, rfl⟩ | ⟨target, value, result, x, rfl, -, -, -, rfl⟩
  · obtain ⟨hstep, hret⟩ := printableAll_append.1 hblock
    exact ⟨hstep, called hret.1⟩
  · obtain ⟨hstep, hbind⟩ := printableAll_append.1 hblock
    exact ⟨hstep, called hbind.1.2⟩

theorem ofBody_printable {body : List Stmt}
    (h : ofBody? f body = some call) (hbody : PrintableAll IsTarget body) : call.Printable := by
  obtain ⟨whenTrue, whenFalse, hshape, hsplit, hbase, -⟩ := ofBody_eq_some h
  rw [hshape] at hbody
  obtain ⟨hleading, ⟨htest, htrue, hfalse⟩, -⟩ := printableAll_append.1 hbody
  cases hwhen : call.whenTrue with
  | true =>
    rw [hwhen] at hsplit hbase
    obtain ⟨hstep, harguments⟩ := split_printable hsplit htrue
    exact ⟨hleading, htest, hstep, harguments, hbase ▸ hfalse⟩
  | false =>
    rw [hwhen] at hsplit hbase
    obtain ⟨hstep, harguments⟩ := split_printable hsplit hfalse
    exact ⟨hleading, htest, hstep, harguments, hbase ▸ htrue⟩

theorem reassign_printable (hp : ∀ e ∈ parameters, e.IsTarget) (ha : ∀ e ∈ arguments, e.Printable) :
    Tolerates (reassign parameters arguments) (PrintableAll IsTarget) := by
  have hassignable : Assignable IsTarget Expr.Printable (Stmt.Printable IsTarget) := by
    refine ⟨fun h => Option.isSome_iff_exists.1 h.1, fun y h => ⟨⟨rfl, h.renamed y⟩, h.renamed y⟩, And.intro,
      fun {isDeclared _ _ _} ht hv hy => ?_⟩
    obtain ⟨x, hx⟩ := Option.isSome_iff_exists.1 ht.1
    obtain ⟨statements, h⟩ := rebindView_isOk isDeclared hx hy ht.2.isSome hv.isSome
    rw [h]
    exact printableAll_iff.1 ((rebindView_printable ht hv).of_ok h)
  intro st _
  exact ((hassignable.reassign hp ha st trivial).weaken fun _ => False.elim).mono fun _ => .imp_left printableAll_iff.2

theorem toLoop_printable (h : call.Printable) (hp : ∀ e ∈ parameters, e.IsTarget) :
    Tolerates (call.toLoop parameters) (PrintableAll IsTarget) := by
  refine (reassign_printable hp h.arguments).bind fun assigned hassigned => .pure ?_
  refine printableAll_append.2 ⟨h.leading, ⟨?_, ?_⟩, h.base⟩
  · rw [loopTest]
    split
    · exact h.test
    · exact negate_printable h.test
  · exact printableAll_append.2 ⟨printableAll_append.2 ⟨h.step, hassigned⟩, h.leading⟩

end TailCall

theorem Procedure.loopTailCall_printable (entry : String) (h : p.Printable IsTarget) :
    Tolerates (p.loopTailCall entry) (Printable IsTarget) := by
  rw [loopTailCall]
  split
  · exact .pure h
  · rename_i symbol call hcall
    obtain ⟨f, -, hcall⟩ := Option.bind_eq_some_iff.1 hcall
    obtain ⟨_, hcall, hpair⟩ := Option.map_eq_some_iff.1 hcall
    cases hpair
    have loop := TailCall.toLoop_printable (TailCall.ofBody_printable hcall h.body) h.parameters
    split
    · exact .throw (by rintro _ ⟨⟩)
    · refine Preserves.get.bind fun supply _ => ?_
      refine Preserves.bind (.lift (loop _ trivial)) fun r hr => (set_tolerates _).bind fun _ _ => .pure ?_
      exact ⟨h.name, h.result, h.parameters, hr.1⟩

theorem Module.loopTailCalls_printable (entry : String) (h : module.Printable IsTarget) :
    Meets LoweringError.Tolerable (Module.Printable IsTarget) (module.loopTailCalls entry) := by
  refine Preserves.run' (h.pass (K := fun _ => True) (loopTailCallsAll entry) rfl fun hp hrest => ?_) trivial
  rw [loopTailCallsAll, toStmt, Stmt.loopTailCalls]
  refine Preserves.bind (p := fun s => Module.Printable IsTarget [s]) ?_ fun first hfirst => ?_
  · exact (loopTailCall_printable entry hp).bind fun looped hlooped => .pure (.singleton hlooped)
  · exact hrest.bind fun rest hrest => .pure (Module.Printable.append hfirst hrest)

namespace Wrapper

theorem wrapParameter_printable (entry : String) (h : parameter.IsTarget) :
    Meets LoweringError.Tolerable
      (fun w => w.parameter.IsTarget ∧ PrintableAll IsTarget w.binds) (wrapParameter entry parameter) := by
  rw [wrapParameter]
  split
  · exact nofun
  · refine h.2.expectLayout.bind fun layout _ => ?_
    split
    · refine ⟨⟨rfl, printable_name.2 rfl⟩, ⟨h, printable_applySnippet (fun e he => ?_) rfl⟩, trivial⟩
      cases mem_singleton.1 he
      exact printable_name.2 rfl
    · exact ⟨h, trivial⟩

theorem resultTyping_meets (entry : String) {name : Expr} (h : name.Printable) :
    Meets LoweringError.Tolerable (fun _ => True) (resultTyping entry name) := by
  rw [resultTyping]
  split
  · refine h.expectLayout.bind fun layout _ => ?_
    split
    · trivial
    · rintro _ ⟨⟩
  · rintro _ ⟨⟩

theorem ofProcedure_printable (entry : String) (h : p.Printable IsTarget) :
    Meets LoweringError.Tolerable (fun r => r.1.Printable IsTarget) (ofProcedure entry p) := by
  refine (resultTyping_meets entry h.name.2).bind fun r _ => ?_
  refine (Meets.mapM fun p hp => wrapParameter_printable entry (h.parameters p hp)).bind fun wrapped hw => ?_
  refine ⟨⟨rfl, printable_name.2 rfl⟩, ?_, ?_, ?_⟩
  · intro layout hlayout
    cases hlayout
    rfl
  · intro e he
    obtain ⟨w, hmem, rfl⟩ := mem_map.1 he
    exact (hw w hmem).1
  · refine printableAll_append.2 ⟨printableAll_iff.2 fun s hs => ?_, ?_, trivial⟩
    · obtain ⟨w, hmem, hs⟩ := mem_flatMap.1 hs
      exact printableAll_iff.1 (hw w hmem).2 s hs
    · exact printable_apply.2 ⟨rfl, h.name.1, h.name.2, fun e he => (h.parameters e he).2⟩

end Wrapper

theorem Module.wrapEntry_printable (entry : String) (h : module.Printable IsTarget) :
    Meets LoweringError.Tolerable (fun r => r.1.Printable IsTarget) (module.wrapEntry entry) := by
  rw [Module.wrapEntry]
  split
  · exact nofun
  · rename_i p hfind
    obtain ⟨s, hs, hprocedure⟩ := mem_filterMap.1 (mem_of_find?_eq_some hfind)
    obtain ⟨p, rfl, hp⟩ := h s hs
    cases hprocedure
    refine (Wrapper.ofProcedure_printable entry hp).bind fun r hr => ?_
    exact Module.Printable.append h (.singleton hr)

end DataParallel
