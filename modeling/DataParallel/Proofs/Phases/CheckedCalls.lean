import DataParallel.Proofs.PhaseSafety
import DataParallel.Proofs.Phases.AnalyzedProcedures
import DataParallel.Proofs.Printable.Passes
import DataParallel.Proofs.Signatures

/-! Analysis looks at every call of a procedure.

An expression is read, forced or handed back, and whichever it is, the calls in it are looked up and
their signatures instantiated at their arguments. What names stand for was looked at where they were
bound. -/

namespace DataParallel

open List DataParallel.Expr

variable {e : Expr} {module : Module} {target : Expr → Prop}

/-- A call of a snippet, or of a registered procedure whose signature can be instantiated at the
arguments. -/
def Registry.Fits (registry : Registry) (call : Expr × List Expr) : Prop :=
  ∃ callee, call.1.symbol? = some callee ∧ (Name.Snippet.isSnippet callee = true ∨
    ∃ signature, registry.get? callee = some signature ∧ (signature.ty.instantiate? (call.2.map ty)).isSome = true)

theorem Expr.calls_of_isName (h : e.isName = true) : e.calls = [] := by
  cases e with
  | name => rfl
  | _ => cases h

namespace Phases

variable {parts : List Expr} {call : Expr × List Expr}

/-- An expression that a task is about, names apart that stand for others. -/
inductive Task.Reads (e : Expr) : Task → Prop where
  | value : Reads e (.value e)
  | demand (demand : Ty) : Reads e (.demand e demand)
  | returned : Reads e (.returned e)
  | all {task : Task} {tasks : List Task} : task ∈ tasks → Reads e task → Reads e (.all tasks)

theorem Head.mem_calls_build {k : Head} (hnames : (k.build parts).callsNames = true)
    (h : call ∈ (k.build parts).calls) : (∃ f typing, k = .call f typing ∧ call = (f, parts)) ∨
      ∃ e ∈ parts, e.callsNames = true ∧ call ∈ e.calls := by
  have below : allCallNames parts = true → call ∈ callsAll parts →
      ∃ e ∈ parts, e.callsNames = true ∧ call ∈ e.calls := fun hall hcall =>
    (mem_callsAll.1 hcall).imp fun e he => ⟨he.1, allCallNames_iff.1 hall e he.1, he.2⟩
  cases k with
  | tuple typing => exact .inr (below hnames h)
  | closure f typing =>
    rw [build, callsNames, Bool.and_eq_true] at hnames
    rw [build, calls, calls_of_isName hnames.1] at h
    exact .inr (below hnames.2 h)
  | call f typing =>
    rw [build, callsNames, Bool.and_eq_true] at hnames
    rw [build, calls, calls_of_isName hnames.1, nil_append, mem_cons] at h
    exact h.imp (fun h => ⟨f, typing, rfl, h⟩) (below hnames.2)

section
variable {Γ : Context} {s s' : State} {results : List (Expr × Completion)} {binds : List Stmt}
  {completion : Completion}

theorem Joins.fits {f : Expr} {typing : Typing}
    (h : Joins Γ s results (.call f typing) parts completion) :
    Γ.registry.Fits (f, parts) := by
  cases h with
  | makeTuple hf => exact ⟨_, hf, .inl (by decide)⟩
  | project hf _ hindex => exact ⟨_, hf, .inl (by simp [Name.Snippet.isSnippet, hindex])⟩
  | stored hf hstored =>
    refine ⟨_, hf, .inl ?_⟩
    rcases hstored with rfl | rfl
    · decide
    · decide
  | propagates hf _ hget _ hfits => exact ⟨_, hf, .inr ⟨_, hget, hfits⟩⟩
  | inert hf _ hget _ hfits => exact ⟨_, hf, .inr ⟨_, hget, hfits⟩⟩

theorem Task.reads_demands {demands : List Ty} (hlength : demands.length = parts.length)
    (he : e ∈ parts) : (Task.all (zipWith .demand parts demands)).Reads e := by
  obtain ⟨i, hi, rfl⟩ := mem_iff_getElem.1 he
  have hzip : i < (zipWith Task.demand parts demands).length := by
    rw [length_zipWith]
    omega
  exact .all (getElem_mem hzip) (by rw [getElem_zipWith]; exact .demand _)

theorem Derives.fits {task : Task} (h : Derives Γ task s results binds s') :
    ∀ e, task.Reads e → e.callsNames = true → ∀ call ∈ e.calls, Γ.registry.Fits call := by
  induction h with
  | nil =>
    intro e he
    cases he with
    | all htask _ => cases htask
  | cons _ _ ih ih' =>
    intro e he
    cases he with
    | all htask he =>
      rcases mem_cons.1 htask with rfl | htask
      · exact ih e he
      · exact ih' e (.all htask he)
  | name | literal | demandName | demandLiteral | returnedName | returnedRealized | returnedTupleKept
  | returnedTupleRebuilt | returnedLiteral =>
    rintro e ⟨⟩ - call hcall
    cases hcall
  | @node _ _ _ _ _ _ _ _ hjoins ih =>
    rintro e ⟨⟩ hnames call hcall
    rcases Head.mem_calls_build hnames hcall with ⟨f, typing, rfl, rfl⟩ | ⟨d, hd, hnames, hcall⟩
    · exact hjoins.fits
    · exact ih d (.all (mem_map_of_mem hd) .value) hnames call hcall
  | @forcing f _ typing _ _ _ _ _ _ _ _ hf _ hget _ hinstance _ ih =>
    rintro e ⟨⟩ hnames call hcall
    rcases Head.mem_calls_build (k := .call f typing) hnames hcall with
      ⟨_, _, heq, rfl⟩ | ⟨d, hd, hnames, hcall⟩
    · cases heq
      exact ⟨_, hf, .inr ⟨_, hget, Option.isSome_iff_exists.2 ⟨_, hinstance⟩⟩⟩
    · exact ih d (Task.reads_demands (Ty.length_instantiate? hinstance) hd) hnames call hcall
  | @demandNode _ _ _ _ _ _ _ _ hdemands _ ih =>
    rintro e ⟨⟩ hnames call hcall
    rcases Head.mem_calls_build hnames hcall with ⟨f, typing, rfl, rfl⟩ | ⟨d, hd, hnames, hcall⟩
    · cases hdemands
    · exact ih d (Task.reads_demands (Head.length_partDemands hdemands) hd) hnames call hcall
  | demandCall _ _ ih | demandHoisted _ _ _ ih _ | returnedClosure _ ih | returnedCall _ _ ih
  | returnedHoisted _ _ _ _ ih _ =>
    rintro e ⟨⟩
    exact ih _ .value
  | met | closureKept | closureRebuilt | tupleKept | tupleRebuilt | realized => rintro e ⟨⟩
  | @returnedTuple _ _ _ _ _ _ _ ih =>
    rintro e ⟨⟩ hnames call hcall
    obtain ⟨d, hd, hcall⟩ := mem_callsAll.1 hcall
    exact ih d (.all (mem_map_of_mem hd) .returned) (allCallNames_iff.1 hnames d hd) call hcall

theorem Analyzed.fits {block out : List Stmt} (h : Analyzed Γ block s out s')
    (hprintable : Stmt.PrintableAll IsTarget block) :
    ∀ call ∈ Stmt.callsAll block, Γ.registry.Fits call := by
  induction h with
  | nil => exact nofun
  | bind _ hd _ ih =>
    intro call hcall
    rw [Stmt.callsAll, Stmt.calls, calls_of_isName hprintable.1.1.1, nil_append, mem_append] at hcall
    exact hcall.elim (hd.fits _ .value hprintable.1.2.2 call) (ih hprintable.2 call)
  | ret _ hd _ ih =>
    exact fun call hcall => (mem_append.1 hcall).elim (hd.fits _ .value hprintable.1.2 call) (ih hprintable.2 call)
  | entryRet _ hd _ ih =>
    exact fun call hcall => (mem_append.1 hcall).elim (hd.fits _ .returned hprintable.1.2 call) (ih hprintable.2 call)
  | branch hd _ _ _ ihTrue ihFalse ih =>
    intro call hcall
    rw [Stmt.callsAll, Stmt.calls, mem_append, mem_append, mem_append] at hcall
    rcases hcall with ((hcall | hcall) | hcall) | hcall
    · exact hd.fits _ .value hprintable.1.1.2 call hcall
    · exact ihTrue hprintable.1.2.1 call hcall
    · exact ihFalse hprintable.1.2.2 call hcall
    · exact ih hprintable.2 call hcall
  | loop hd _ _ _ _ _ _ ihBody ih =>
    intro call hcall
    rw [Stmt.callsAll, Stmt.calls, mem_append, mem_append] at hcall
    rcases hcall with (hcall | hcall) | hcall
    · exact hd.fits _ .value hprintable.1.1.2 call hcall
    · exact ihBody hprintable.1.2 call hcall
    · exact ih hprintable.2 call hcall

end

theorem withProcedures_get?_cases {registry : Registry} {x : String} {signature : Signature}
    (h : (withProcedures registry module).get? x = some signature) : registry.get? x = some signature ∨
      registry.get? x = none ∧ ∃ p ∈ module.procedures, p.symbol? = some x ∧ signature = ⟨p.name.ty, .forces⟩ := by
  rw [withProcedures_eq] at h
  generalize module.procedures = procedures at h ⊢
  induction procedures generalizing registry with
  | nil => exact .inl h
  | cons p rest ih =>
    have hrest := ih h
    rw [withProcedure_get?] at hrest
    split at hrest
    · rename_i hname
      cases hget : registry.get? x with
      | none =>
        rw [hget] at hrest
        rcases hrest with hrest | ⟨hnone, -⟩
        · cases hrest
          exact .inr ⟨rfl, p, mem_cons_self, hname, rfl⟩
        · cases hnone
      | some =>
        rw [hget] at hrest
        rcases hrest with hrest | ⟨hnone, -⟩
        · exact .inl hrest
        · cases hnone
    · refine hrest.imp_right ?_
      rintro ⟨hnone, q, hq, hfound⟩
      exact ⟨hnone, q, mem_cons_of_mem p hq, hfound⟩

end Phases

namespace Stmt

theorem PrintableAll.arePlain {block : List Stmt} (h : PrintableAll target block) :
    arePlain block = true := by
  induction block using block_induction with
  | nil => rfl
  | cons s rest ihs ih =>
    rw [Stmt.arePlain, ih h.2, Bool.and_true]
    cases s <;> simp_all [PrintableAll, Printable, isPlain, suites]

end Stmt

theorem Module.Printable.isPlain (h : module.Printable target) : module.isPlain = true := by
  refine all_eq_true.2 fun s hs => ?_
  obtain ⟨p, rfl, hp⟩ := h s hs
  exact hp.body.arePlain

/-- A call of a snippet, of a registered procedure, or of one of the module that is not registered,
with a signature that can be instantiated at the arguments. -/
def Module.Resolves (module : Module) (registry : Registry) (call : Expr × List Expr) : Prop :=
  ∃ callee, call.1.symbol? = some callee ∧ (Name.Snippet.isSnippet callee = true ∨
    (∃ signature, registry.get? callee = some signature ∧
      (signature.ty.instantiate? (call.2.map ty)).isSome = true) ∨
    registry.get? callee = none ∧ ∃ p ∈ module.procedures, p.symbol? = some callee ∧
      (p.name.ty.instantiate? (call.2.map ty)).isSome = true)

/-- **No call escapes analysis.** Where boundaries are inserted into a unit, every call in the body
of an analysed procedure can be resolved. -/
theorem insertBoundaries_resolves_calls {text : List Char} {unit : SourceUnit}
    {flat backed analyzed : Module}
    {registry : Registry} {entry : String} (hread : SourceUnit.ofText? text = .ok unit)
    (hflat : unit.module.assignLayouts.flattenTuples = .ok flat) (hbacked : flat.backEntry entry = .ok backed)
    (h : backed.insertBoundaries registry entry = .ok analyzed) :
    ∀ p ∈ backed.procedures, ∀ x ∈ Phases.reachable backed entry, p.symbol? = some x →
      ∀ call ∈ Stmt.callsAll p.body, backed.Resolves registry call := by
  have hprintable : backed.Printable Expr.IsTarget := by
    have hlaid := Module.assignLayouts_printable (SourceUnit.ofText?_isRead hread)
    exact (Module.backEntry_printable entry ((Module.flattenTuples_printable hlaid).of_ok hflat)).of_ok hbacked
  intro p hp x hx hname call hcall
  obtain ⟨i, hi⟩ := List.mem_iff_getElem?.1 (Module.mem_procedures.1 hp)
  obtain ⟨p', -, -, -, _, _, _, -, -, hbody⟩ := backed.insertBoundaries_reached hprintable.isPlain h hi hname hx
  obtain ⟨q, heq, hq⟩ := hprintable _ (Module.mem_procedures.1 hp)
  obtain rfl : p = q := Option.some.inj (congrArg Stmt.procedure? heq)
  obtain ⟨callee, hcallee, hsnippet | ⟨signature, hget, hfits⟩⟩ := hbody.fits hq.body call hcall
  · exact ⟨callee, hcallee, .inl hsnippet⟩
  · refine ⟨callee, hcallee, .inr ?_⟩
    rcases Phases.withProcedures_get?_cases hget with hregistered | ⟨hnone, r, hr, hsymbol, rfl⟩
    · exact .inl ⟨signature, hregistered, hfits⟩
    · exact .inr ⟨hnone, r, hr, hsymbol, hfits⟩

/-- Calls in a test, in arguments, in a tuple, captured, and behind a return. -/
def nestedText : List Char :=
  ("declare shift : fn([Int32]) -> [Int32] propagates; declare sum : fn([Int32]) -> Int32 forces; " ++
   "declare apply : fn(fn(Int32) -> Int32, Int32) -> Int32 opaque; declare add : fn(Int32, Int32) -> Int32 opaque; " ++
   "procedure total(xs: [Int32]) -> Int32 \x7b return sum(shift(xs)); \x7d " ++
   "procedure main(xs: [Int32], n: Int32) -> Int32 \x7b p = (total(xs), n); " ++
   "while sum(shift(xs)) < n \x7b n = apply(closure add [total(xs)], n); \x7d return n; m = total(shift(xs)); \x7d").toList

theorem nestedText_resolves_calls :
    ∃ unit flat backed analyzed, SourceUnit.ofText? nestedText = .ok unit ∧
    unit.module.assignLayouts.flattenTuples = .ok flat ∧ flat.backEntry "main" = .ok backed ∧
    backed.insertBoundaries unit.registry "main" = .ok analyzed ∧
    ∃ p ∈ backed.procedures, p.symbol? = some "main" ∧ "main" ∈ Phases.reachable backed "main" ∧
      ((Stmt.callsAll p.body).filterMap fun call => call.1.symbol?) =
        [Name.Snippet.makeTuple, "total", "op_lt", "sum", "shift", "apply", "total", "total", "shift"] ∧
      ∀ call ∈ Stmt.callsAll p.body, backed.Resolves unit.registry call := by
  have hchecks : ((SourceUnit.ofText? nestedText).toOption.any fun unit =>
      unit.module.assignLayouts.flattenTuples.toOption.any fun flat =>
        (flat.backEntry "main").toOption.any fun backed =>
          (backed.insertBoundaries unit.registry "main").toOption.any fun _ =>
            backed.procedures.any fun p => decide (p.symbol? = some "main" ∧
              "main" ∈ Phases.reachable backed "main" ∧
              ((Stmt.callsAll p.body).filterMap fun call => call.1.symbol?) =
                [Name.Snippet.makeTuple, "total", "op_lt", "sum", "shift", "apply", "total", "total",
                  "shift"])) = true := by
    decide +kernel
  obtain ⟨unit, hread, hchecks⟩ := Except.any_toOption.1 hchecks
  obtain ⟨flat, hflat, hchecks⟩ := Except.any_toOption.1 hchecks
  obtain ⟨backed, hbacked, hchecks⟩ := Except.any_toOption.1 hchecks
  obtain ⟨analyzed, hanalyzed, hchecks⟩ := Except.any_toOption.1 hchecks
  obtain ⟨p, hp, hchecks⟩ := any_eq_true.1 hchecks
  obtain ⟨hname, hreach, hcalls⟩ := of_decide_eq_true hchecks
  exact ⟨unit, flat, backed, analyzed, hread, hflat, hbacked, hanalyzed, p, hp, hname, hreach, hcalls,
    insertBoundaries_resolves_calls hread hflat hbacked hanalyzed p hp "main" hreach hname⟩

end DataParallel
