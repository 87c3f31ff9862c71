import DataParallel.Proofs.Stages

/-! Procedures whose tail calls have become loops.

A loop is put together from the parts of a body that do not mention the procedure, from assignments
to its parameters, and from a test that may be negated. The procedure is mentioned no longer, unless
one of the names that are added happens to be its own, and nothing is left that a second run could
turn into a loop. -/

namespace DataParallel

open List Lower Name Stmt
open Name (container)

variable {entry f : String} {es : List Expr}

namespace TailCall
variable {x z : String} {st st' : State} {statements : List Stmt} {value test : Expr} {call : TailCall}
  {parameters arguments : List Expr}

/-- The names that assigning can add to those of the expressions `es`: names among them,
temporaries, and the storage behind these. -/
def Adds (es : List Expr) (z : String) : Prop :=
  ∃ w, Of w z ∧ ((∃ e ∈ es, e.symbol? = some w) ∨ ∃ n : Nat, w = "_iter" ++ toString n)

theorem IsStaged.adds (h : IsStaged es value) (hx : value.symbol? = some x) (hz : Of x z) :
    Adds (parameters ++ es) z := by
  refine ⟨x, hz, h.imp (fun hmem => ⟨value, mem_append_right _ hmem, hx⟩) ?_⟩
  rintro ⟨n, hn⟩
  exact ⟨n, Option.some.inj (hx.symm.trans hn)⟩

theorem Assigns.adds {names : List String} {N : String → Prop}
    (hnames : parameters.mapM Expr.symbol? = some names)
    (h : Assigns names N z) : Adds (parameters ++ es) z := by
  have hviews : ∀ {w}, (w ∈ names ∨ ∃ n : Nat, w = "_iter" ++ toString n) →
      (∃ e ∈ parameters ++ es, e.symbol? = some w) ∨ ∃ n : Nat, w = "_iter" ++ toString n := by
    refine .imp_left fun hw => ?_
    obtain ⟨e, he, hsymbol⟩ := mem_map.1 (Expr.map_symbol hnames ▸ mem_map_of_mem hw)
    exact ⟨e, mem_append_left _ he, hsymbol⟩
  rcases h with hw | ⟨w, hw, rfl⟩
  · exact ⟨z, .inl rfl, hviews hw⟩
  · exact ⟨w, .inr rfl, hviews hw⟩

theorem names_of_binds {T : (String → Prop) → String → Prop} {N N' P : String → Prop}
    (h : Binds T P N statements N')
    (hT : ∀ N y, T N y → P y) (hN : ∀ z, N z → P z) : ∀ z ∈ namesAll statements, P z := by
  induction h with
  | nil => exact nofun
  | cons hy hassigns hvalue _ ih =>
    intro z hz
    rw [namesAll, names, Expr.names_of_symbol hy] at hz
    rcases mem_append.1 hz with hz | hz
    · rcases mem_cons.1 hz with rfl | hz
      · exact hT _ _ hassigns
      · exact (hvalue.mono hN).names (fun _ h => h) z hz
    · exact ih (fun w hw => hw.elim (hN w) fun hw => hw ▸ hT _ _ hassigns) z hz

/-- The assignments mention the names of the arguments, and names that are added. -/
theorem reassign_names (h : (reassign parameters arguments).run st = .ok (statements, st'))
    (hstem : st.temporaries.stem = "_iter") (hz : z ∈ namesAll statements) :
    z ∈ Expr.namesAll arguments ∨ Adds (parameters ++ arguments) z := by
  obtain ⟨names, _, _, _, hnames, -⟩ := reassign_ok h
  let P z := z ∈ Expr.namesAll arguments ∨ Adds (parameters ++ arguments) z
  obtain ⟨N', hbinds⟩ := (reassign_binds h hstem).2 (N := P) (G := P) hnames
    (fun e he => .of_names (fun _ h => h) fun z hz => .inl (Expr.mem_namesAll.2 ⟨e, he, hz⟩))
    fun value y hvalue hy _ => .inr (hvalue.adds hy (.inr rfl))
  exact names_of_binds hbinds (fun _ _ h => .inr (h.adds hnames)) (fun _ h => h) z hz

theorem mentions_eq_false : call.mentions f = false ↔
    f ∉ namesAll call.leading ∧ f ∉ call.test.names ∧ f ∉ namesAll call.step ∧
      f ∉ Expr.namesAll call.arguments ∧ f ∉ namesAll call.base := by
  simp [mentions]

/-- A name that the loop is not made with: neither an operator of negated tests nor a name that
assigning adds. -/
structure Spares (call : TailCall) (parameters : List Expr) (f : String) : Prop where
  negation : f ≠ negation
  comparison : oppositeComparison? f = none
  assigned : ¬ Adds (parameters ++ call.arguments) f

theorem loop_names {assigned : List Stmt} (hmentions : call.mentions f = false)
    (hspares : call.Spares parameters f)
    (hstem : st.temporaries.stem = "_iter") (h : (reassign parameters call.arguments).run st = .ok (assigned, st')) :
    f ∉ namesAll (call.leading ++ .loop call.loopTest (call.step ++ assigned ++ call.leading) :: call.base) := by
  obtain ⟨hleading, htest, hstep, harguments, hbase⟩ := mentions_eq_false.1 hmentions
  have hloopTest : f ∉ call.loopTest.names := by
    unfold loopTest
    split
    · exact htest
    · intro hf
      rcases negate_names hf with hf | hf | hf
      · exact htest hf
      · exact hspares.negation hf
      · rw [hspares.comparison] at hf
        cases hf
  have hassigned : f ∉ namesAll assigned := fun hf => (reassign_names h hstem hf).elim harguments hspares.assigned
  simp only [mem_namesAll_append, namesAll, names, mem_append, not_or]
  exact ⟨hleading, ⟨hloopTest, ⟨hstep, hassigned⟩, hleading⟩, hbase⟩

theorem mem_names_of_split {block step : List Stmt} (h : split? f block = some (step, arguments)) :
    f ∈ namesAll block := by
  have hcallee : ∀ {e : Expr}, e.callee? = some f → f ∈ e.names := by
    intro e he
    cases e with
    | apply function arguments typing => exact mem_append_left _ (Expr.mem_names_of_symbol he)
    | _ => cases he
  rcases split_eq_some h with ⟨value, rfl, hvalue, -⟩ | ⟨target, value, result, x, rfl, -, -, hvalue, -⟩
  · refine mem_namesAll_append.2 (.inr ?_)
    simpa using hcallee hvalue
  · refine mem_namesAll_append.2 (.inr ?_)
    simp [hcallee hvalue]

/-- A body that ends in a loop and in statements that do not mention the procedure has no tail call.
-/
theorem ofBody?_loop {leading trip base : List Stmt} (hbase : f ∉ namesAll base) :
    ofBody? f (leading ++ .loop test trip :: base) = none := by
  cases hcall : ofBody? f (leading ++ .loop test trip :: base) with
  | none => rfl
  | some call =>
    obtain ⟨whenTrue, whenFalse, heq, hsplit, -⟩ := ofBody_eq_some hcall
    have hbranch : f ∈ namesAll [.branch call.test whenTrue whenFalse] :=
      mem_namesAll_branch (mem_names_of_split hsplit)
    have hlast := congrArg getLast? heq
    rw [getLast?_append_cons, getLast?_concat] at hlast
    cases base with
    | nil => cases hlast
    | cons s rest =>
      rw [getLast?_cons_cons] at hlast
      obtain ⟨front, hfront⟩ := getLast?_eq_some_iff.1 hlast
      rw [hfront] at hbase
      exact absurd (mem_namesAll_append.2 (.inr hbranch)) hbase

end TailCall

namespace Procedure
variable {p q : Procedure} {supply supply' : Supply}

/-- Nothing to be turned into a loop is recognised in a procedure. -/
def HasNoTailCall (p : Procedure) : Prop := ∀ f, p.symbol? = some f → TailCall.ofBody? f p.body = none

theorem loopTailCall_of_none (h : p.HasNoTailCall) :
    (p.loopTailCall entry).run supply = .ok (p, supply) := by
  have hfound : p.symbol?.bind (fun symbol => (TailCall.ofBody? symbol p.body).map fun call => (symbol, call)) =
      none := by
    refine Option.bind_eq_none_iff.2 fun f hf => ?_
    rw [h f hf]
    rfl
  simp only [loopTailCall, hfound]
  rfl

/-- What becomes of a procedure: without a tail call it stays as it is, with one it no longer
mentions itself. In any case a tail call is no longer there. -/
structure EndsCalls (p q : Procedure) : Prop where
  name : q.name = p.name
  parameters : q.parameters = p.parameters
  kept : p.HasNoTailCall → q = p
  forgets : ∀ f call, p.symbol? = some f → TailCall.ofBody? f p.body = some call → call.Spares p.parameters f →
    f ∉ namesAll q.body
  done : q.HasNoTailCall

theorem loopTailCall_endsCalls (hstem : supply.stem = "_iter")
    (h : (p.loopTailCall entry).run supply = .ok (q, supply')) : p.EndsCalls q ∧ supply'.stem = "_iter" := by
  by_cases hnone : p.HasNoTailCall
  · cases (loopTailCall_of_none hnone).symm.trans h
    refine ⟨⟨rfl, rfl, fun _ => rfl, fun f call hf hcall => ?_, hnone⟩, hstem⟩
    cases (hnone f hf).symm.trans hcall
  · simp only [HasNoTailCall, not_forall] at hnone
    obtain ⟨f, hf, hsome⟩ := hnone
    obtain ⟨call, hcall⟩ := Option.ne_none_iff_exists'.1 hsome
    obtain ⟨-, assigned, st, hassigned, rfl, rfl⟩ := (loopTailCall_ok_iff hf hcall).1 h
    obtain ⟨-, -, -, -, -, hmentions⟩ := TailCall.ofBody_eq_some hcall
    refine ⟨⟨rfl, rfl, fun hnone => absurd (hnone f hf) hsome, fun f' call' hf' hcall' hspares => ?_, fun f' hf' => ?_⟩,
      (TailCall.reassign_binds hassigned hstem).1⟩
    · cases hf.symm.trans hf'
      cases hcall.symm.trans hcall'
      exact TailCall.loop_names hmentions hspares hstem hassigned
    · cases hf.symm.trans hf'
      exact TailCall.ofBody?_loop (TailCall.mentions_eq_false.1 hmentions).2.2.2.2

end Procedure

namespace Stmt

mutual

/-- Statements that differ at most in the procedures they hold, and there as `R` says. The inside of
a procedure is its own affair. -/
def Exchanges (R : Procedure → Procedure → Prop) : Stmt → Stmt → Prop
  | .procedure name parameters body, t => ∃ q : Procedure, t = q.toStmt ∧ R ⟨name, parameters, body⟩ q
  | .branch test whenTrue whenFalse, t => ∃ whenTrue' whenFalse', t = .branch test whenTrue' whenFalse' ∧
    ExchangesAll R whenTrue whenTrue' ∧ ExchangesAll R whenFalse whenFalse'
  | .loop test body, t => ∃ body', t = .loop test body' ∧ ExchangesAll R body body'
  | .structDef name binders body, t => ∃ body', t = .structDef name binders body' ∧ ExchangesAll R body body'
  | .namespaceDef name body, t => ∃ body', t = .namespaceDef name body' ∧ ExchangesAll R body body'
  | s, t => t = s

def ExchangesAll (R : Procedure → Procedure → Prop) : List Stmt → List Stmt → Prop
  | [], ts => ts = []
  | s :: rest, ts => ∃ t rest', ts = t :: rest' ∧ Exchanges R s t ∧ ExchangesAll R rest rest'

end

mutual

theorem loopTailCalls_exchanges : ∀ {s t : Stmt} {supply supply' : Supply}, supply.stem = "_iter" →
    (loopTailCalls entry s).run supply = .ok (t, supply') → s.Exchanges Procedure.EndsCalls t ∧ supply'.stem = "_iter"
  | .procedure name parameters body, _, _, _, hstem, h => by
    obtain ⟨q, supply₁, hq, h⟩ := run_bind_ok_iff.1 h
    cases h
    obtain ⟨hends, hstem₁⟩ := Procedure.loopTailCall_endsCalls hstem hq
    exact ⟨⟨q, rfl, hends⟩, hstem₁⟩
  | .branch test whenTrue whenFalse, _, _, _, hstem, h => by
    obtain ⟨whenTrue', supply₁, htrue, h⟩ := run_bind_ok_iff.1 h
    obtain ⟨whenFalse', supply₂, hfalse, h⟩ := run_bind_ok_iff.1 h
    cases h
    obtain ⟨htrue, hstem₁⟩ := loopTailCallsAll_exchanges hstem htrue
    obtain ⟨hfalse, hstem₂⟩ := loopTailCallsAll_exchanges hstem₁ hfalse
    exact ⟨⟨_, _, rfl, htrue, hfalse⟩, hstem₂⟩
  | .loop .., _, _, _, hstem, h | .structDef .., _, _, _, hstem, h | .namespaceDef .., _, _, _, hstem, h => by
    obtain ⟨body', supply₁, hbody, h⟩ := run_bind_ok_iff.1 h
    cases h
    obtain ⟨hbody, hstem₁⟩ := loopTailCallsAll_exchanges hstem hbody
    exact ⟨⟨_, rfl, hbody⟩, hstem₁⟩
  | .bind .., _, _, _, hstem, h | .ret _, _, _, _, hstem, h | .typedef .., _, _, _, hstem, h
  | .header .., _, _, _, hstem, h | .declare _, _, _, _, hstem, h => by
    cases h
    exact ⟨rfl, hstem⟩

theorem loopTailCallsAll_exchanges : ∀ {block out : List Stmt} {supply supply' : Supply}, supply.stem = "_iter" →
    (loopTailCallsAll entry block).run supply = .ok (out, supply') →
    ExchangesAll Procedure.EndsCalls block out ∧ supply'.stem = "_iter"
  | [], _, _, _, hstem, h => by
    cases h
    exact ⟨rfl, hstem⟩
  | s :: rest, _, _, _, hstem, h => by
    obtain ⟨t, supply₁, hs, h⟩ := run_bind_ok_iff.1 h
    obtain ⟨rest', supply₂, hrest, h⟩ := run_bind_ok_iff.1 h
    cases h
    obtain ⟨hs, hstem₁⟩ := loopTailCalls_exchanges hstem hs
    obtain ⟨hrest, hstem₂⟩ := loopTailCallsAll_exchanges hstem₁ hrest
    exact ⟨⟨_, _, rfl, hs, hrest⟩, hstem₂⟩

end

mutual

theorem Exchanges.loopTailCalls_run :
    ∀ {s t : Stmt}, s.Exchanges Procedure.EndsCalls t → ∀ supply : Supply,
    (loopTailCalls entry t).run supply = .ok (t, supply)
  | .procedure .., _, ⟨q, ht, hq⟩, supply => by
    subst ht
    exact run_bind_ok_iff.2 ⟨q, supply, Procedure.loopTailCall_of_none hq.done, rfl⟩
  | .branch .., _, ⟨_, _, ht, htrue, hfalse⟩, supply => by
    subst ht
    exact run_bind_ok_iff.2 ⟨_, _, htrue.loopTailCalls_run supply,
      run_bind_ok_iff.2 ⟨_, _, hfalse.loopTailCalls_run supply, rfl⟩⟩
  | .loop .., _, ⟨_, ht, hbody⟩, supply | .structDef .., _, ⟨_, ht, hbody⟩, supply
  | .namespaceDef .., _, ⟨_, ht, hbody⟩, supply => by
    subst ht
    exact run_bind_ok_iff.2 ⟨_, _, hbody.loopTailCalls_run supply, rfl⟩
  | .bind .., _, ht, _ | .ret _, _, ht, _ | .typedef .., _, ht, _ | .header .., _, ht, _ | .declare _, _, ht, _ => by
    cases ht
    rfl

theorem ExchangesAll.loopTailCalls_run :
    ∀ {block out : List Stmt}, ExchangesAll Procedure.EndsCalls block out →
    ∀ supply : Supply, (loopTailCallsAll entry out).run supply = .ok (out, supply)
  | [], _, hout, _ => by
    cases hout
    rfl
  | _ :: _, _, ⟨_, _, hout, hs, hrest⟩, supply => by
    subst hout
    exact run_bind_ok_iff.2 ⟨_, _, hs.loopTailCalls_run supply,
      run_bind_ok_iff.2 ⟨_, _, hrest.loopTailCalls_run supply, rfl⟩⟩

end

end Stmt

/-- Turning tail calls into loops leaves every procedure without a recognised call as it is, and
nothing changes outside of procedures. A procedure that gets a loop no longer mentions itself,
unless its name is one that loops are made with. A second run changes nothing. -/
theorem Module.loopTailCalls_ends_recursion {module out : Module} {entry : String}
    (h : module.loopTailCalls entry = .ok out) :
    Stmt.ExchangesAll Procedure.EndsCalls module out ∧ out.loopTailCalls entry = .ok out := by
  obtain ⟨supply, hrun⟩ := Lower.run'_ok h
  obtain ⟨hends, -⟩ := Stmt.loopTailCallsAll_exchanges rfl hrun
  refine ⟨hends, ?_⟩
  rw [Module.loopTailCalls, StateT.run'_eq, hends.loopTailCalls_run]
  rfl

theorem TailCall.not_adds_of_own (hf : IsOwn "_iter" f) (hes : ∀ e ∈ es, e.symbol? ≠ some f) : ¬ Adds es f := by
  rintro ⟨w, rfl | rfl, ⟨e, he, hw⟩ | ⟨n, hw⟩⟩
  · exact hes e he hw
  · exact hf.2 n hw
  · exact hf.1 w rfl
  · exact hf.1 w rfl

def gcdLooped : Procedure := gcd.withBody [.loop gcdCall.loopTest
    [.bind (.name "_iter0" integer) (.apply (.name "op_mod" integer) [.name "a" integer, .name "b" integer] integer),
      .bind (.name "a" integer) (.name "b" integer), .bind (.name "b" integer) (.name "_iter0" integer)],
    .ret (.name "a" integer)]

/-- Euclid's algorithm inside a namespace: the loop does not mention it, and stays as it is. -/
theorem gcd_ends_recursion :
    Module.loopTailCalls [.namespaceDef "numbers" [gcd.toStmt]] "main" =
      .ok [.namespaceDef "numbers" [gcdLooped.toStmt]] ∧
    "gcd" ∉ Stmt.namesAll gcdLooped.body ∧
    Module.loopTailCalls [.namespaceDef "numbers" [gcdLooped.toStmt]] "main" =
      .ok [.namespaceDef "numbers" [gcdLooped.toStmt]] := by
  have hok : Module.loopTailCalls [.namespaceDef "numbers" [gcd.toStmt]] "main" =
      .ok [.namespaceDef "numbers" [gcdLooped.toStmt]] := by rfl
  obtain ⟨hends, hagain⟩ := Module.loopTailCalls_ends_recursion hok
  obtain ⟨_, _, hout, ⟨_, hnamespace, _, _, hbody, ⟨q, hq, hprocedure⟩, -⟩, -⟩ := hends
  cases hout
  cases hnamespace
  cases hbody
  cases Module.Rewrites.toStmt_inj hq
  refine ⟨hok, hprocedure.forgets "gcd" gcdCall rfl rfl
    ⟨by decide, rfl, TailCall.not_adds_of_own ?_ (by decide)⟩, hagain⟩
  exact ⟨Name.isView_of_last (by decide), Name.ne_drawn_of_first (by decide) (by decide)⟩

/-- A procedure with the name that the storage behind its first parameter has. -/
def storageNamedText : List Char :=
  ("procedure xs_array(xs: [Int32], ys: [Int32], n: Int32) -> Int32 \x7b " ++
   "if n == 0 \x7b return n; \x7d else \x7b return xs_array(ys, ys, n - 1); \x7d \x7d").toList

/-- The name is neither a parameter nor an operator, but the loop assigns the storage. -/
theorem loopTailCalls_mentions_storage : ∃ (unit : SourceUnit) (p q : Procedure),
    SourceUnit.ofText? storageNamedText = .ok unit ∧ unit.module.assignLayouts = [p.toStmt] ∧
    p.symbol? = some "xs_array" ∧ p.parameterNames? = some ["xs", "ys", "n"] ∧
    (TailCall.ofBody? "xs_array" p.body).isSome = true ∧ "xs_array" ≠ Name.negation ∧
    TailCall.oppositeComparison? "xs_array" = none ∧
    Module.loopTailCalls [p.toStmt] "xs_array" = .ok [q.toStmt] ∧
    "xs_array" ∈ namesAll q.body := by
  have hchecks : ((SourceUnit.ofText? storageNamedText).toOption.any fun unit =>
      (unit.module.assignLayouts[0]?.bind procedure?).any fun p =>
        (Module.loopTailCalls [p.toStmt] "xs_array").toOption.any fun out =>
          (out[0]?.bind procedure?).any fun q =>
            decide (unit.module.assignLayouts = [p.toStmt] ∧ p.symbol? = some "xs_array" ∧
              p.parameterNames? = some ["xs", "ys", "n"] ∧ (TailCall.ofBody? "xs_array" p.body).isSome = true ∧
              out = [q.toStmt] ∧ "xs_array" ∈ namesAll q.body)) = true := by
    decide +kernel
  obtain ⟨unit, hread, hchecks⟩ := Except.any_toOption.1 hchecks
  obtain ⟨p, -, hchecks⟩ := getElem?_of_procedure hchecks
  obtain ⟨out, hout, hchecks⟩ := Except.any_toOption.1 hchecks
  obtain ⟨q, -, hchecks⟩ := getElem?_of_procedure hchecks
  obtain ⟨hlaid, hsymbol, hparameters, hcall, rfl, hmentions⟩ := of_decide_eq_true hchecks
  exact ⟨unit, p, q, hread, hlaid, hsymbol, hparameters, hcall, by decide, rfl, hout, hmentions⟩

end DataParallel
