import DataParallel.Proofs.Phases.Steady
import DataParallel.Proofs.RealizedReads
import DataParallel.Proofs.TailCalls

/-! Rebuilt values.

A tuple or closure is rebuilt from what is on record for the name that holds it. Where nothing on
record was built from a name that is bound again, and storage is bound together with the view in
front of it, the rebuilt value is the one that the name holds, on every path. -/

namespace DataParallel

variable {α : Type}

/-- A store that is watched for realized names which are bound to something else than the name they
stand for holds. -/
structure Rebuilding (α : Type) where
  store : Store α
  differs : Prop

namespace Rebuilding

/-- Runs every path through a block: tests may go either way. -/
def machine (I : Interpretation α) : Machine (Rebuilding α) (Value α) where
  eval c e v c' := c' = c ∧ I.Eval c.store e v
  assign x v c := ⟨Function.update c.store x (some v), c.differs ∨
    ∃ (base : String) (n : Nat), x = base ++ "_phase" ++ toString n ∧ I.read c.store base ≠ some v⟩
  decides _ _ := True

theorem machine_watches (I : Interpretation α) :
    (machine I).Watches I store fun c => ¬ c.differs where
  eval := by
    rintro c e v c' ⟨rfl, hv⟩
    exact ⟨rfl, hv, id⟩
  reads hv := ⟨_, rfl, hv⟩
  assign _ _ _ := rfl
  good := by
    rintro c x v hc hbase (hdiffers | ⟨base, n, hx, hne⟩)
    · exact hc hdiffers
    · exact hne (hbase base n hx)

end Rebuilding

/-- Along every path through an analysed procedure that is steady and binds storage in step, a name
that is drawn to be read in place of another is bound to what the other holds. Tuples and closures
are rebuilt field by field. -/
theorem insertBoundaries_rebuilds_values {I : Interpretation α} {module module' : Module}
    {registry : Registry}
    {entry symbol : String} {i : Nat} {p : Procedure} (hI : I.Functional) (hT : I.Transparent)
    (hplain : module.isPlain = true) (h : module.insertBoundaries registry entry = .ok module')
    (hi : module[i]? = some p.toStmt) (hsymbol : p.symbol? = some symbol)
    (hreach : symbol ∈ Phases.reachable module entry)
    (hnames : Phases.Plain (p.declaredNames (symbol = entry)))
    (hsteady : Stmt.areSteady (Phases.withProcedures registry module) [] [] p.body = true)
    (hstep : symbol = entry → Stmt.areInStep (p.declaredNames true) p.body none = true) :
    ∃ p' : Procedure, module'[i]? = some p'.toStmt ∧ p'.name = p.name ∧
      ∀ σ : Store α, (symbol = entry → ∀ x, Backed (p.declaredNames true) x →
        I.read σ (Name.container x) = I.read σ x) →
      ∀ o, Exec (Rebuilding.machine I) ⟨σ, False⟩ p'.body o → ¬ o.config.differs := by
  obtain ⟨p', hi', hname, -, hbody⟩ := module.insertBoundaries_reached hplain h hi hsymbol hreach
  refine ⟨p', hi', hname, fun σ hσ o hrun => ?_⟩
  have hgood : ¬ (⟨σ, False⟩ : Rebuilding α).differs := id
  obtain ⟨_, hfollows⟩ := hbody.follows hI hT (Rebuilding.machine_watches I) hnames hsteady
    (fun hentry => ⟨hstep hentry, hσ hentry⟩) hgood
  exact hfollows.good hgood hrun

/-- Every call hands back its first argument, except those that build tuples. -/
def Interpretation.echoing : Interpretation Nat where
  literal _ _ := .datum 0
  denotes _ := true
  apply f vs v := v = match f with
    | .procedure symbol => if symbol = Name.Snippet.makeTuple then .tuple vs else vs.headD (.datum 0)
    | _ => vs.headD (.datum 0)
  truth _ := some true

theorem Interpretation.echoing_functional : echoing.Functional :=
  fun _ _ _ _ hv hw => hv.trans hw.symm

theorem Interpretation.echoing_transparent : echoing.Transparent where
  boundary _ _ := Iff.rfl
  tuple _ _ := Iff.rfl

def rows : Typing :=
  ⟨.tuple [row.ty, row.ty], some (.tuple [.sequence (.scalar .float32), .sequence (.scalar .float32)])⟩

def pointwise : Typing := ⟨.function [number.ty] number.ty, some (.function [.scalar .float32] (.scalar .float32))⟩

def paired (e f : Expr) : Expr := .applySnippet Name.Snippet.makeTuple [e, f] rows

def dotted (e : Expr) : Expr := .apply (.name "dot" ⟨.function [rows.ty] number.ty, none⟩) [e] number

def looked (e : Expr) : Expr := .closure (.name "look" ⟨.function [row.ty, number.ty] number.ty, none⟩) [e] pointwise

def gathered (f e : Expr) : Expr :=
  .apply (.name "gather" ⟨.function [pointwise.ty, row.ty] number.ty, none⟩) [f, e] number

/-- Calls that need all of a pair of rows, and all that a function has captured. -/
def pairCalls : Registry :=
  (rowCalls.insert "dot" ⟨.function [rows.ty] number.ty, .forces⟩).insert "gather"
    ⟨.function [pointwise.ty, row.ty] number.ty, .forces⟩

/-- Hands over a pair in a branch, and a closure behind it. -/
def gathering : Procedure where
  name := .name "main" number
  parameters := [.name "xs" row, .name "c" flag]
  body := [.bind (.name "ys" row) (shifted (.name "xs" row)),
    .bind (.name "p" rows) (paired (.name "ys" row) (.name "xs" row)),
    .bind (.name "g" pointwise) (looked (.name "ys" row)),
    .branch (.name "c" flag) [.bind (.name "d" number) (dotted (.name "p" rows))] [],
    .bind (.name "t" number) (gathered (.name "g" pointwise) (.name "xs" row)),
    .ret (.name "t" number)]

def gatheringRealized : Procedure :=
  { gathering with
    body := [.bind (.name "ys" row) (shifted (.name "xs" row)),
      .bind (.name "p" rows) (paired (.name "ys" row) (.name "xs" row)),
      .bind (.name "g" pointwise) (looked (.name "ys" row)),
      .branch (.name "c" flag) [realizeRow "ys_phase0" (.name "ys" row),
        .bind (.name "p_phase1" rows) (paired (stored "ys_phase0") (.name "xs" row)),
        .bind (.name "d" number) (dotted (.name "p_phase1" rows))] [],
      realizeRow "ys_phase2" (.name "ys" row),
      .bind (.name "g_phase3" pointwise) (looked (stored "ys_phase2")),
      .bind (.name "t" number) (gathered (.name "g_phase3" pointwise) (.name "xs" row)),
      .ret (.name "t" number)] }

theorem gathering_rebuilds_values :
    Module.insertBoundaries [gathering.toStmt] pairCalls "main" = .ok [gatheringRealized.toStmt] ∧
      ∃ p' : Procedure, [gatheringRealized.toStmt][0]? = some p'.toStmt ∧
        p'.name = gathering.name ∧
        ∀ σ : Store Nat, ("main" = "main" → ∀ x, Backed (gathering.declaredNames true) x →
          Interpretation.echoing.read σ (Name.container x) = Interpretation.echoing.read σ x) →
        ∀ o, Exec (Rebuilding.machine Interpretation.echoing) ⟨σ, False⟩ p'.body o → ¬ o.config.differs := by
  have hok : Module.insertBoundaries [gathering.toStmt] pairCalls "main" = .ok [gatheringRealized.toStmt] := by
    decide +kernel
  refine ⟨hok, insertBoundaries_rebuilds_values Interpretation.echoing_functional Interpretation.echoing_transparent
    rfl hok rfl rfl (by decide +kernel) ?_ (by decide +kernel) fun _ => by decide +kernel⟩
  exact @Phases.Plain.of_views _ (gathering.declaredNames false) (by decide +kernel) (by decide +kernel)

/-- Binds a row again that a pair was built from. -/
def outdated : Procedure where
  name := .name "main" number
  parameters := [.name "xs" row, .name "zs" row]
  body := [.bind (.name "ys" row) (shifted (.name "xs" row)),
    .bind (.name "p" rows) (paired (.name "ys" row) (.name "xs" row)),
    .bind (.name "ys" row) (shifted (.name "zs" row)),
    .bind (.name "d" number) (dotted (.name "p" rows)),
    .ret (.name "d" number)]

def outdatedRealized : Procedure :=
  { outdated with
    body := [.bind (.name "ys" row) (shifted (.name "xs" row)),
      .bind (.name "p" rows) (paired (.name "ys" row) (.name "xs" row)),
      .bind (.name "ys" row) (shifted (.name "zs" row)),
      realizeRow "ys_phase0" (.name "ys" row),
      .bind (.name "p_phase1" rows) (paired (stored "ys_phase0") (.name "xs" row)),
      .bind (.name "d" number) (dotted (.name "p_phase1" rows)),
      .ret (.name "d" number)] }

/-- The pair is rebuilt from the row as it is now: the pair that was bound has the row as it was. -/
theorem insertBoundaries_rebuilds_outdated :
    Module.insertBoundaries [outdated.toStmt] pairCalls "main" = .ok [outdatedRealized.toStmt] ∧
      (∀ x ∈ outdated.declaredNames true, ¬ Name.IsDrawn x) ∧
      Stmt.areInStep (outdated.declaredNames true) outdated.body none = true ∧
      ∃ o, Exec (Rebuilding.machine Interpretation.echoing) ⟨outdated.frame true [.datum 0, .datum 1], False⟩
        outdatedRealized.body o ∧ o.config.differs := by
  refine ⟨by decide +kernel, fun x hx => Name.not_drawn_of_last (by revert x; decide +kernel), by decide +kernel, ?_⟩
  have hshift : ∀ {σ : Store Nat} {x : String} {v : Value Nat}, σ "shift" = none →
      Interpretation.echoing.read σ x = some v → Interpretation.echoing.Eval σ (shifted (.name x row)) v := by
    intro σ x v hfree hx
    refine ⟨.procedure "shift", [v], ?_, ⟨v, [], hx, rfl, rfl⟩, rfl⟩
    show Interpretation.echoing.read σ "shift" = _
    rw [Interpretation.read, hfree]
    rfl
  have hpair : ∀ {σ : Store Nat} {e f : Expr} {v w : Value Nat}, Interpretation.echoing.Eval σ e v →
      Interpretation.echoing.Eval σ f w → Interpretation.echoing.Eval σ (paired e f) (.tuple [v, w]) :=
    fun hv hw => ⟨_, _, rfl, ⟨_, _, hv, ⟨_, _, hw, rfl, rfl⟩, rfl⟩, rfl⟩
  refine ⟨_, .bind (v := .datum 0) rfl ⟨rfl, hshift rfl rfl⟩
    (.bind (v := .tuple [.datum 0, .datum 0]) rfl ⟨rfl, hpair (by rfl) (by rfl)⟩
    (.bind (v := .datum 1) rfl ⟨rfl, hshift rfl rfl⟩
    (.bind (v := .datum 1) rfl ⟨rfl, (Interpretation.eval_boundary Interpretation.echoing_transparent).2 (by rfl)⟩
    (.bind (v := .tuple [.datum 1, .datum 0]) rfl ⟨rfl, hpair (by rfl) (by rfl)⟩ (.pause _ _))))),
    .inr ⟨"p", 1, rfl, fun hp => ?_⟩⟩
  have hrebuilt : (Value.tuple [.datum 0, .datum 0] : Value Nat) = .tuple [.datum 1, .datum 0] := Option.some.inj hp
  simp at hrebuilt

end DataParallel
