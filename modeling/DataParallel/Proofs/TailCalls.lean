import DataParallel.Proofs.Reassignment

/-! Loops do what tail calls do.

A procedure that calls itself runs every call in a frame of its own. The loop runs in one frame, in
which the names of earlier trips are still bound, and reaches the same result: at the head of each
trip the parameters are those of the call, and what else is bound is not read before it is bound
again. -/

namespace DataParallel

open Interpretation List Lower Name Procedure Stmt

variable {α : Type} {f op x : String} {p : Procedure} {names : List String} {vs : List (Value α)}
  {I J : Interpretation α} {results : List (Value α) → Value α → Prop} {n : Nat} {v : Value α} {τ : Store α}
  {call : TailCall} {e : Expr}

/-- What a call of a procedure binds. The host also supplies the storage behind the views that it
hands to the entry procedure. -/
def Procedure.frame (p : Procedure) (isEntry : Bool) (vs : List (Value α)) : Store α := fun x =>
  ((p.parameters.zip vs).flatMap fun (parameter, v) =>
    match parameter.symbol? with
    | some symbol =>
      if isEntry && parameter.needsContainer then [(symbol, v), (container symbol, v)]
      else [(symbol, v)]
    | none => []).lookup x

namespace Interpretation

def define (I : Interpretation α) (f : String) (results : List (Value α) → Value α → Prop) : Interpretation α where
  literal := I.literal
  denotes x := x = f || I.denotes x
  apply g vs v := (g = .procedure f ∧ results vs v) ∨ (g ≠ .procedure f ∧ I.apply g vs v)
  truth := I.truth

/-- The results of a procedure whose calls of itself are nested less than `n` deep. Every call runs
in a frame that holds nothing but the parameters. -/
def SelfCall (I : Interpretation α) (f : String) (p : Procedure) : Nat → List (Value α) → Value α → Prop
  | 0, _, _ => False
  | n + 1, vs, v => vs.length = p.parameters.length ∧
    (I.define f (I.SelfCall f p n)).Yields (p.frame false vs) p.body v

/-- The results of a procedure that calls itself. -/
def Computes (I : Interpretation α) (f : String) (p : Procedure) (vs : List (Value α))
    (v : Value α) : Prop := ∃ n, I.SelfCall f p n vs v

/-- The interpretation in which a procedure has the results that it computes. -/
def recursive (I : Interpretation α) (f : String) (p : Procedure) : Interpretation α :=
  I.define f (I.Computes f p)

/-- Comparisons are the negations of their opposites, and `op_not` is negation. -/
structure Negates (I : Interpretation α) : Prop where
  opposite : ∀ op opposite vs v b, TailCall.oppositeComparison? op = some opposite →
    I.apply (.procedure op) vs v → I.truth v = some b →
    ∃ w, I.apply (.procedure opposite) vs w ∧ I.truth w = some (!b)
  negation : ∀ v b, I.truth v = some b → ∃ w, I.apply (.procedure negation) [v] w ∧ I.truth w = some (!b)

end Interpretation

section Frames
variable {isEntry : Bool}

section
variable (hnames : p.parameterNames? = some names)
include hnames

theorem Procedure.frame_eq (hx : isEntry = true → IsView x) :
    p.frame isEntry vs x = (names.zip vs).lookup x := by
  obtain ⟨name, parameters, body⟩ := p
  simp only [parameterNames?] at hnames
  simp only [frame]
  induction parameters generalizing names vs with
  | nil => cases hnames; rfl
  | cons parameter parameters ih =>
    obtain ⟨y, hy, rest, hrest, rfl⟩ := Expr.mapM_symbol_cons.1 hnames
    cases vs with
    | nil => rfl
    | cons v vs =>
      rw [zip_cons_cons, zip_cons_cons, flatMap_cons, lookup_append, ih hrest, lookup_cons]
      simp only [hy]
      split
      · rename_i hentry
        have hstorage : (x == container y) = false :=
          beq_false_of_ne (hx (Bool.and_eq_true_iff.1 hentry).1 y)
        cases hxy : x == y <;> simp [lookup_cons, hxy, hstorage]
      · cases hxy : x == y <;> simp [lookup_cons, hxy]

theorem Procedure.parameterNames_length : names.length = p.parameters.length := by
  simpa using (congrArg length (Expr.map_symbol hnames)).symm

theorem Procedure.frame_unbound (hview : isEntry = true → IsView x) (hx : x ∉ names) :
    p.frame isEntry vs x = none := by
  rw [frame_eq hnames hview, lookup_eq_none_iff]
  intro p hp
  have hne : x ≠ p.1 := fun h => hx (h ▸ (of_mem_zip hp).1)
  simpa using hne

end

theorem Procedure.frame_holds (hlength : vs.length = p.parameters.length)
    (hbody : ∀ x ∈ namesAll p.body, IsView x) :
    Store.Holds (p.declaredNames isEntry) (p.frame isEntry vs) := by
  intro base hbase hnone
  rw [declaredNames, mem_append] at hbase
  rcases hbase with hbase | hbase
  · exact hbody _ hbase base rfl
  · obtain ⟨parameter, hp, hbase⟩ := mem_flatMap.1 hbase
    obtain ⟨i, hi, rfl⟩ := getElem_of_mem hp
    have hmem : (p.parameters[i], vs[i]) ∈ p.parameters.zip vs :=
      mem_of_getElem (i := i) (h := by simp; omega) (by simp)
    rw [frame, lookup_eq_none_iff] at hnone
    have hunbound : ∀ v, (container base, v) ∉ _ := fun v hv =>
      absurd (hnone (container base, v) (mem_flatMap.2 ⟨_, hmem, hv⟩)) (by simp)
    cases hy : p.parameters[i].symbol? with
    | none => simp [hy] at hbase
    | some y =>
      have hunbound' := hunbound (vs[i])
      simp only [hy] at hbase hunbound'
      split at hbase <;> simp_all

end Frames

theorem Interpretation.define_extends {results' : List (Value α) → Value α → Prop}
    (h : ∀ vs v, results vs v → results' vs v) : (I.define f results').Extends (I.define f results) where
  literal := rfl
  denotes := rfl
  truth := rfl
  apply _ vs v := Or.imp (And.imp_right (h vs v)) id

theorem Interpretation.SelfCall.succ : ∀ {vs : List (Value α)} {v : Value α},
    I.SelfCall f p n vs v → I.SelfCall f p (n + 1) vs v := by
  induction n with
  | zero => exact fun h => h.elim
  | succ n ih =>
    rintro vs v ⟨hlength, σ, hrun⟩
    obtain ⟨o, hrun', ho⟩ := hrun.extend (fun _ => True) (define_extends fun vs v => ih)
      (fun _ _ => trivial) (.refl _ _ _)
    cases o with
    | falls => exact ho.elim
    | leaves r τ => exact ⟨hlength, τ, ho.1 ▸ hrun'⟩

theorem Interpretation.SelfCall.mono {m : Nat} (hmn : m ≤ n)
    (h : I.SelfCall f p m vs v) : I.SelfCall f p n vs v := by
  induction hmn with
  | refl => exact h
  | step _ ih => exact ih.succ

theorem Interpretation.define_functional (hI : I.Functional)
    (hresults : ∀ vs v w, results vs v → results vs w → v = w) : (I.define f results).Functional := by
  rintro g vs v w (⟨hg, hv⟩ | ⟨hg, hv⟩) (⟨hg', hw⟩ | ⟨hg', hw⟩)
  · exact hresults vs v w hv hw
  · exact absurd hg hg'
  · exact absurd hg' hg
  · exact hI g vs v w hv hw

theorem Interpretation.recursive_functional (hI : I.Functional) : (I.recursive f p).Functional := by
  have hself : ∀ n vs v w, I.SelfCall f p n vs v → I.SelfCall f p n vs w → v = w := by
    intro n
    induction n with
    | zero => exact fun _ _ _ h => h.elim
    | succ n ih => exact fun vs v w hv hw => hv.2.unique (define_functional hI ih) hw.2
  refine define_functional hI fun vs v w ⟨m, hv⟩ ⟨n, hw⟩ => ?_
  exact hself (max m n) vs v w (hv.mono (Nat.le_max_left m n)) (hw.mono (Nat.le_max_right m n))

namespace TailCall
variable {opposite : String}

theorem builtin_of_opposite (h : oppositeComparison? op = some opposite) :
    isBuiltin op = true ∧ isBuiltin opposite = true := by
  unfold oppositeComparison? at h
  split at h <;> first | (cases h; decide) | cases h

theorem oppositeComparison?_symm (h : oppositeComparison? op = some opposite) :
    oppositeComparison? opposite = some op := by
  unfold oppositeComparison? at h
  split at h <;> cases h <;> rfl

theorem negate_names {test : Expr} {z : String} (h : z ∈ (negate test).names) :
    z ∈ test.names ∨ z = negation ∨ (oppositeComparison? z).isSome = true := by
  have hnegation : ∀ {typing : Typing}, z ∈ (Expr.applySnippet negation [test] typing).names →
      z ∈ test.names ∨ z = negation ∨ (oppositeComparison? z).isSome = true := by
    intro typing hz
    rcases names_applySnippet.1 hz with rfl | hz
    · exact .inr (.inl rfl)
    · exact .inl (by simpa using hz)
  cases test with
  | apply function arguments typing =>
    rw [negate] at h
    split at h
    · rename_i opposite hopposite
      obtain ⟨op, -, hopposite⟩ := Option.bind_eq_some_iff.1 hopposite
      rcases mem_append.1 h with h | h
      · rw [mem_singleton.1 h, oppositeComparison?_symm hopposite]
        exact .inr (.inr rfl)
      · exact .inl (mem_append_right _ h)
    · exact hnegation h
  | _ => exact hnegation h

end TailCall

namespace Interpretation

variable {w : Value α} {b : Bool}

theorem Negates.negate (hJ : J.Negates) {test : Expr} (hv : J.Eval τ test v)
    (hb : J.truth v = some b) : ∃ w, J.Eval τ (TailCall.negate test) w ∧ J.truth w = some !b := by
  have hnot : ∀ typing, ∃ w, J.Eval τ (.applySnippet Name.negation [test] typing) w ∧ J.truth w = some !b := by
    intro typing
    obtain ⟨w, hw, ht⟩ := hJ.negation v b hb
    exact ⟨w, ⟨.procedure Name.negation, [v], rfl, ⟨v, [], hv, rfl, rfl⟩, hw⟩, ht⟩
  cases test with
  | apply function arguments typing =>
    simp only [TailCall.negate]
    split
    · rename_i opposite hopposite
      obtain ⟨op, hop, hopposite⟩ := Option.bind_eq_some_iff.1 hopposite
      obtain ⟨g, vs, hg, hvs, happly⟩ := hv
      have hbuiltin := TailCall.builtin_of_opposite hopposite
      simp only [Expr.builtin?, hop, Option.filter, hbuiltin.1] at hg
      obtain rfl : g = .procedure op := hg
      obtain ⟨w, hw, ht⟩ := hJ.opposite op opposite vs v b hopposite happly hb
      refine ⟨w, ⟨.procedure opposite, vs, ?_, hvs, hw⟩, ht⟩
      simp [Expr.renamed, Expr.builtin?, Expr.symbol?, Option.filter, hbuiltin.2]
    · exact hnot typing
  | _ => exact hnot _

theorem Negates.loopTest (hJ : J.Negates) (call : TailCall) (hv : J.Eval τ call.test v)
    (hb : J.truth v = some b) :
    ∃ w, J.Eval τ call.loopTest w ∧ J.truth w = some (b == call.whenTrue) := by
  unfold TailCall.loopTest
  cases call.whenTrue with
  | true => exact ⟨v, hv, by simpa using hb⟩
  | false => simpa using hJ.negate hv hb

end Interpretation

namespace TailCall

variable {block body step : List Stmt} {arguments : List Expr} {σ σ' : Store α}

theorem eq_dropLast_append {xs : List Stmt} {x : Stmt} (h : xs.getLast? = some x) :
    xs = xs.dropLast ++ [x] := by
  obtain ⟨ys, rfl⟩ := getLast?_eq_some_iff.1 h
  simp

theorem guard_bind_eq_some {β : Type} {p : Bool} {b c : β}
    (h : (do guard (p = true); pure b : Option β) = some c) : p = true ∧ b = c := by
  cases p with
  | false => cases h
  | true => exact ⟨rfl, Option.some.inj h⟩

/-- A block that ends in a call of `f`: the call is returned at once, or bound and then returned. -/
theorem split_eq_some (h : split? f block = some (step, arguments)) :
    (∃ value, block = step ++ [.ret value] ∧ value.callee? = some f ∧ value.arguments = arguments) ∨
    (∃ target value result x, block = step ++ [.bind target value, .ret result] ∧
      target.symbol? = some x ∧ result.symbol? = some x ∧ value.callee? = some f ∧
      value.arguments = arguments) := by
  unfold split? at h
  obtain ⟨last, hlast, h⟩ := Option.bind_eq_some_iff.1 h
  cases last with
  | ret value =>
    dsimp only at h
    have hblock := eq_dropLast_append hlast
    by_cases hcallee : value.callee? = some f
    · rw [if_pos hcallee] at h
      cases h
      exact .inl ⟨value, hblock, hcallee, rfl⟩
    · rw [if_neg hcallee] at h
      obtain ⟨x, hx, h⟩ := Option.bind_eq_some_iff.1 h
      obtain ⟨bound, hbound, h⟩ := Option.bind_eq_some_iff.1 h
      cases bound with
      | bind target call =>
        obtain ⟨hguard, h⟩ := guard_bind_eq_some h
        cases h
        simp only [Bool.and_eq_true, decide_eq_true_eq] at hguard
        refine .inr ⟨target, call, value, x, ?_, hguard.1, hx, hguard.2, rfl⟩
        rwa [append_cons, ← eq_dropLast_append hbound]
      | _ => cases h
  | _ => cases h

/-- A body with a tail call: the branch stands last, one of its blocks ends in the call, and nothing
else mentions the procedure. -/
theorem ofBody_eq_some (h : ofBody? f body = some call) :
    ∃ whenTrue whenFalse, body = call.leading ++ [.branch call.test whenTrue whenFalse] ∧
      split? f (if call.whenTrue then whenTrue else whenFalse) = some (call.step, call.arguments) ∧
      call.base = (if call.whenTrue then whenFalse else whenTrue) ∧ call.mentions f = false := by
  unfold ofBody? at h
  obtain ⟨last, hlast, h⟩ := Option.bind_eq_some_iff.1 h
  cases last with
  | branch test whenTrue whenFalse =>
    dsimp only at h
    refine ⟨whenTrue, whenFalse, ?_⟩
    have hbody := eq_dropLast_append hlast
    cases htrue : split? f whenTrue with
    | none =>
      cases hfalse : split? f whenFalse with
      | none => rw [htrue, hfalse] at h; cases h
      | some found =>
        rw [htrue, hfalse] at h
        obtain ⟨hguard, h⟩ := guard_bind_eq_some h
        cases h
        exact ⟨hbody, hfalse, rfl, by simpa using hguard⟩
    | some found =>
      cases hfalse : split? f whenFalse with
      | none =>
        rw [htrue, hfalse] at h
        obtain ⟨hguard, h⟩ := guard_bind_eq_some h
        cases h
        exact ⟨hbody, htrue, rfl, by simpa using hguard⟩
      | some => rw [htrue, hfalse] at h; cases h
  | _ => cases h

theorem eval_call (hcallee : e.callee? = some f) (hdenotes : J.denotes f = true)
    (hunbound : σ f = none)
    (hv : J.Eval σ e v) : ∃ vs, J.EvalAll σ e.arguments vs ∧ J.apply (.procedure f) vs v := by
  cases e with
  | apply function arguments typing =>
    obtain ⟨g, vs, hg, hvs, happly⟩ := hv
    have hsymbol : function.symbol? = some f := hcallee
    suffices g = .procedure f from ⟨vs, hvs, this ▸ happly⟩
    cases hb : function.builtin? with
    | some symbol =>
      have hsame := (Option.filter_eq_some_iff.1 hb).1
      rw [hsymbol] at hsame
      cases hsame
      simpa [hb] using hg
    | none =>
      simp only [hb] at hg
      rw [eval_name hsymbol, Interpretation.read, hunbound] at hg
      simpa [hdenotes, eq_comm] using hg
  | _ => cases hcallee

section
variable (h : split? f block = some (step, arguments))
include h

theorem split_run (hdenotes : J.denotes f = true) (hunbound : σ f = none)
    (hlocal : f ∉ localNames step) (hrun : Exec J.machine σ block (.leaves (some v) σ')) :
    (∃ σ₁, Exec J.machine σ step (.leaves (some v) σ₁)) ∨
    (∃ σ₁ vs, Exec J.machine σ step (.falls σ₁) ∧ J.EvalAll σ₁ arguments vs ∧ J.apply (.procedure f) vs v) := by
  rcases split_eq_some h with ⟨value, rfl, hcallee, rfl⟩ | ⟨target, value, result, x, rfl, hx, hr, hcallee, rfl⟩
  · rcases hrun.append_cases with ⟨σ₁, hstep, hlast⟩ | ⟨r, σ₁, ho, hstep⟩
    · have hfree : σ₁ f = none := (hstep.unchanged hlocal).trans hunbound
      cases hlast with
      | ret he =>
        obtain ⟨vs, hvs, happly⟩ := eval_call hcallee hdenotes hfree he.2
        exact .inr ⟨σ₁, vs, hstep, hvs, happly⟩
      | define hd => cases hd
    · cases ho
      exact .inl ⟨_, hstep⟩
  · rcases hrun.append_cases with ⟨σ₁, hstep, hlast⟩ | ⟨r, σ₁, ho, hstep⟩
    · have hfree : σ₁ f = none := (hstep.unchanged hlocal).trans hunbound
      cases hlast with
      | bind hy he hret =>
        cases hx.symm.trans hy
        cases hret with
        | ret hresult =>
          obtain ⟨vs, hvs, happly⟩ := eval_call hcallee hdenotes hfree he.2
          have hv := (eval_name hr).1 hresult.2
          simp [Interpretation.read, Interpretation.machine] at hv
          exact .inr ⟨σ₁, vs, hstep, hvs, hv ▸ happly⟩
        | define hd => cases hd
      | define hd => cases hd
    · cases ho
      exact .inl ⟨_, hstep⟩

theorem split_names (hx : x ∈ namesAll step ∨ x ∈ Expr.namesAll arguments) :
    x ∈ namesAll block := by
  have hcall : ∀ {e : Expr}, e.callee? = some f → x ∈ Expr.namesAll e.arguments → x ∈ e.names := by
    intro e he hx
    cases e with
    | apply => simp only [Expr.names, mem_append]; exact .inr hx
    | _ => cases he
  rcases split_eq_some h with ⟨value, rfl, hcallee, rfl⟩ | ⟨target, value, result, y, rfl, -, -, hcallee, rfl⟩
  · rw [mem_namesAll_append]
    refine hx.imp id fun hx => ?_
    simpa using hcall hcallee hx
  · rw [mem_namesAll_append]
    refine hx.imp id fun hx => ?_
    have := hcall hcallee hx
    simp [this]

theorem split_localNames (hx : x ∈ localNames step) : x ∈ localNames block := by
  rcases split_eq_some h with ⟨value, rfl, -⟩ | ⟨target, value, result, y, rfl, -⟩
  · exact mem_localNames_append.2 (.inl hx)
  · exact mem_localNames_append.2 (.inl hx)

end

theorem ofBody_names (h : ofBody? f body = some call)
    (hx : x ∈ namesAll call.leading ∨ x ∈ call.test.names ∨ x ∈ namesAll call.step ∨
      x ∈ Expr.namesAll call.arguments ∨ x ∈ namesAll call.base) : x ∈ namesAll body := by
  obtain ⟨whenTrue, whenFalse, rfl, hsplit, hbase, -⟩ := ofBody_eq_some h
  have hblocks : ∀ {b : Bool}, x ∈ namesAll (if b then whenTrue else whenFalse) →
      x ∈ namesAll [.branch call.test whenTrue whenFalse] := mem_namesAll_branch
  rw [mem_namesAll_append]
  rcases hx with hx | hx | hx | hx | hx
  · exact .inl hx
  · exact .inr (by simp [hx])
  · exact .inr (hblocks (split_names hsplit (.inl hx)))
  · exact .inr (hblocks (split_names hsplit (.inr hx)))
  · refine .inr (hblocks (b := !call.whenTrue) ?_)
    rw [hbase] at hx
    cases hb : call.whenTrue <;> simpa [hb] using hx

theorem ofBody_localNames (h : ofBody? f body = some call)
    (hx : x ∈ localNames call.leading ∨ x ∈ localNames call.step ∨
      x ∈ localNames call.base) : x ∈ localNames body := by
  obtain ⟨whenTrue, whenFalse, rfl, hsplit, hbase, -⟩ := ofBody_eq_some h
  have hblocks : ∀ {b : Bool}, x ∈ localNames (if b then whenTrue else whenFalse) →
      x ∈ localNames [.branch call.test whenTrue whenFalse] := mem_localNames_branch
  rw [mem_localNames_append]
  rcases hx with hx | hx | hx
  · exact .inl hx
  · exact .inr (hblocks (split_localNames hsplit hx))
  · refine .inr (hblocks (b := !call.whenTrue) ?_)
    rw [hbase] at hx
    cases hb : call.whenTrue <;> simpa [hb] using hx

section Loop
variable {st st' : State} {assigned : List Stmt}
variable (hcall : ofBody? f p.body = some call)
variable (hnames : p.parameterNames? = some names) (hnodup : names.Nodup)
variable (harity : call.arguments.length = names.length)
variable (hviews : ∀ x ∈ namesAll p.body, IsView x)
variable (hfresh : ∀ x ∈ names ++ namesAll p.body, ∀ n : Nat, x ≠ st.temporaries.stem ++ toString n)
variable (hreassign : (reassign p.parameters call.arguments).run st = .ok (assigned, st'))
variable (hnegates : (I.recursive f p).Negates)
variable (hlocal : ∀ x ∈ names ++ localNames p.body, (I.recursive f p).denotes x = false)

include hcall hviews hfresh in
theorem own_names (hx : x ∈ namesAll call.leading ∨ x ∈ call.test.names ∨
      x ∈ namesAll call.step ∨ x ∈ Expr.namesAll call.arguments ∨ x ∈ namesAll call.base) :
    IsOwn st.temporaries.stem x :=
  have hbody := ofBody_names hcall hx
  ⟨hviews x hbody, hfresh x (mem_append_right _ hbody)⟩

section Parts
variable {part : List Stmt}
variable (hpart : part = call.leading ∨ part = call.step ∨ part = call.base)
variable (hbelow : Store.Below (I.recursive f p) (IsOwn st.temporaries.stem) σ τ)
include hcall hviews hfresh hpart hbelow

theorem part_run {o : Outcome (Store α) (Value α)}
    (hrun : Exec (I.define f (I.SelfCall f p n)).machine σ part o) :
    ∃ o', Exec (I.recursive f p).machine τ part o' ∧
      Outcome.Rel (Store.Below (I.recursive f p) (IsOwn st.temporaries.stem)) (fun _ _ => True) o o' := by
  refine hrun.extend _ (define_extends fun vs v h => ⟨n, h⟩) (fun x hx => ?_) hbelow
  exact own_names hcall hviews hfresh (by rcases hpart with rfl | rfl | rfl <;> simp [hx])

theorem part_falls (hrun : Exec (I.define f (I.SelfCall f p n)).machine σ part (.falls σ')) :
    ∃ τ', Exec (I.recursive f p).machine τ part (.falls τ') ∧
      Store.Below (I.recursive f p) (IsOwn st.temporaries.stem) σ' τ' := by
  obtain ⟨_, hrun', ho⟩ := part_run hcall hviews hfresh hpart hbelow hrun
  obtain ⟨τ', rfl, hbelow', -⟩ := ho.of_falls
  exact ⟨τ', hrun', hbelow'⟩

theorem part_leaves
    (hrun : Exec (I.define f (I.SelfCall f p n)).machine σ part (.leaves (some v) σ')) :
    ∃ τ', Exec (I.recursive f p).machine τ part (.leaves (some v) τ') := by
  obtain ⟨_, hrun', ho⟩ := part_run hcall hviews hfresh hpart hbelow hrun
  obtain ⟨τ', rfl, -⟩ := ho.of_leaves
  exact ⟨τ', hrun'⟩

end Parts

include hcall hnames hlocal in
theorem selfCall_cases (h : I.SelfCall f p (n + 1) vs v) : let K := I.define f (I.SelfCall f p n)
    (∃ σ, Exec K.machine (p.frame false vs) call.leading (.leaves (some v) σ)) ∨
    ∃ σ w, Exec K.machine (p.frame false vs) call.leading (.falls σ) ∧ K.Eval σ call.test w ∧
      ((K.truth w = some (!call.whenTrue) ∧ ∃ σ', Exec K.machine σ call.base (.leaves (some v) σ')) ∨
        (K.truth w = some call.whenTrue ∧ ((∃ σ', Exec K.machine σ call.step (.leaves (some v) σ')) ∨
            ∃ σ' ws, Exec K.machine σ call.step (.falls σ') ∧ K.EvalAll σ' call.arguments ws ∧
              I.SelfCall f p n ws v))) := by
  intro K
  obtain ⟨-, σ', hrun⟩ := h
  obtain ⟨whenTrue, whenFalse, hbody, hsplit, hbase, -⟩ := ofBody_eq_some hcall
  have hself : K.denotes f = true := by simp [K, define]
  have hfree : f ∉ names ++ localNames p.body := fun hf => by
    simp [recursive, define] at hlocal
    exact (hlocal f (by simpa using hf)).1 rfl
  have hstart : p.frame false vs f = none :=
    frame_unbound hnames (by simp) fun h => hfree (mem_append_left _ h)
  have hunread : ∀ {part}, part = call.leading ∨ part = call.step ∨ part = call.base →
      f ∉ localNames part := fun hpart hf => hfree (mem_append_right _
    (ofBody_localNames hcall (by rcases hpart with rfl | rfl | rfl <;> simp [hf])))
  rw [hbody] at hrun
  rcases hrun.append_cases with ⟨σ, hleading, hbranch⟩ | ⟨r, σ, ho, hleading⟩
  · have hunbound : σ f = none := (hleading.unchanged (hunread (.inl rfl))).trans hstart
    cases hbranch with
    | branch _ _ _ hrest => cases hrest
    | define hd => cases hd
    | @branchLeaves _ _ _ _ w b _ _ _ _ he hd hblock =>
      obtain ⟨rfl, he⟩ := he
      refine .inr ⟨_, w, hleading, he, ?_⟩
      by_cases hb : b = call.whenTrue
      · subst hb
        refine .inr ⟨hd, ?_⟩
        rcases split_run hsplit hself hunbound (hunread (.inr (.inl rfl))) hblock with
          hstep | ⟨σ₁, ws, hstep, hws, happly⟩
        · exact .inl hstep
        · refine .inr ⟨σ₁, ws, hstep, hws, ?_⟩
          rcases happly with ⟨-, h⟩ | ⟨hne, -⟩
          · exact h
          · exact absurd rfl hne
      · obtain rfl : b = !call.whenTrue := by cases b <;> cases hw : call.whenTrue <;> simp_all
        refine .inl ⟨hd, σ', ?_⟩
        rw [hbase]
        cases hw : call.whenTrue <;> simpa [hw] using hblock
  · cases ho
    exact .inl ⟨_, hleading⟩

include hcall hnames hnodup harity hviews hfresh hreassign hnegates hlocal in
theorem loop_yields (n : Nat) (h : I.SelfCall f p n vs v)
    (hbelow : Store.Below (I.recursive f p) (IsOwn st.temporaries.stem) (p.frame false vs) τ)
    (hclear : ∀ x, IsOwn st.temporaries.stem x → (I.recursive f p).denotes x = true → τ x = none)
    (hholds : Store.Holds st.declared τ) : (I.recursive f p).Yields τ (call.leading ++
      .loop call.loopTest (call.step ++ assigned ++ call.leading) :: call.base) v := by
  induction n generalizing vs τ with
  | zero => exact h.elim
  | succ n ih =>
    have hK : (I.recursive f p).Extends (I.define f (I.SelfCall f p n)) :=
      define_extends fun vs v h => ⟨n, h⟩
    rcases selfCall_cases hcall hnames hlocal h with ⟨σ, hleading⟩ | ⟨σ, w, hleading, htest, hcases⟩
    · obtain ⟨τ', hrun⟩ := part_leaves hcall hviews hfresh (.inl rfl) hbelow hleading
      exact ⟨τ', hrun.append_leaves⟩
    obtain ⟨τ₁, hrun₁, hbelow₁⟩ := part_falls hcall hviews hfresh (.inl rfl) hbelow hleading
    have htest₁ := hbelow₁.eval hK (fun x hx => own_names hcall hviews hfresh (by simp [hx])) htest
    rcases hcases with ⟨hw, σ', hbase⟩ | ⟨hw, hcases⟩
    · obtain ⟨u, hu, htruth⟩ := hnegates.loopTest call htest₁ hw
      obtain ⟨τ', hrun⟩ := part_leaves hcall hviews hfresh (.inr (.inr rfl)) hbelow₁ hbase
      refine ⟨τ', hrun₁.append_falls (.loopEnd ⟨rfl, hu⟩ ?_ hrun)⟩
      simpa [Interpretation.machine] using htruth
    · obtain ⟨u, hu, htruth⟩ := hnegates.loopTest call htest₁ hw
      have hstays : (I.recursive f p).machine.decides u true := by simpa [Interpretation.machine] using htruth
      rcases hcases with ⟨σ', hstep⟩ | ⟨σ₂, ws, hstep, hws, hnext⟩
      · obtain ⟨τ', hrun⟩ := part_leaves hcall hviews hfresh (.inr (.inl rfl)) hbelow₁ hstep
        exact ⟨τ', hrun₁.append_falls (.loopLeaves ⟨rfl, hu⟩ hstays (append_assoc _ _ _ ▸ hrun.append_leaves))⟩
      · obtain ⟨τ₂, hrun₂, hbelow₂⟩ := part_falls hcall hviews hfresh (.inr (.inl rfl)) hbelow₁ hstep
        have hws₂ := hbelow₂.evalAll hK (fun x hx => own_names hcall hviews hfresh (by simp [hx])) hws
        have hholds₂ : Store.Holds st.declared τ₂ := fun base hb =>
          hrun₂.stays_bound (hrun₁.stays_bound (hholds base hb))
        have hown : ∀ e ∈ call.arguments, ∀ x ∈ e.names, IsOwn st.temporaries.stem x := fun e he x hx =>
          own_names hcall hviews hfresh (by simp [Expr.mem_namesAll.2 ⟨e, he, hx⟩])
        obtain ⟨τ₃, hrun₃, hupdates, hassigned, -⟩ := reassign_run hreassign hnames hnodup harity
          (fun x hx h => h.eq_drawn.elim fun n hn => hfresh x (mem_append_left _ hx) n hn.2)
          (fun e he x hx => Supply.not_draws_of_own (hown e he x hx))
          (fun x _ e he h => (hown e he _ (Expr.mem_names_of_symbol h)).1 x rfl)
          (pairwise_of_forall_mem_list fun p _ q hq h => (hown _ (of_mem_zip hq).2 _ h).1 p.1 rfl) hws₂ hholds₂
        have hsame : ∀ x, IsOwn st.temporaries.stem x → x ∉ names → τ₃ x = τ₂ x := by
          intro x hx hfree
          refine hupdates.same x ?_
          rintro (h | ⟨y, hy, rfl | rfl⟩)
          · exact Supply.not_draws_of_own hx h
          · exact hfree hy
          · exact hx.1 y rfl
        have hclear₃ : ∀ x, IsOwn st.temporaries.stem x → (I.recursive f p).denotes x = true → τ₃ x = none := by
          intro x hx hd
          have hfree : x ∉ names ++ localNames p.body := fun h =>
            Bool.false_ne_true ((hlocal x h).symm.trans hd)
          rw [mem_append, not_or] at hfree
          rw [hsame x hx hfree.1, ← hclear x hx hd,
            ← hrun₁.unchanged fun h => hfree.2 (ofBody_localNames hcall (.inl h))]
          exact hrun₂.unchanged fun h => hfree.2 (ofBody_localNames hcall (.inr (.inl h)))
        have hbelow₃ : Store.Below (I.recursive f p) (IsOwn st.temporaries.stem)
            (p.frame false ws) τ₃ := by
          refine ⟨fun x u hx hu => ?_, fun x hx hd _ => hclear₃ x hx hd⟩
          rw [frame_eq hnames fun _ => hx.1] at hu
          obtain ⟨before, behind, hzip, -⟩ := lookup_eq_some_iff.1 hu
          have hmem : (x, u) ∈ names.zip ws := by simp [hzip]
          simpa [Interpretation.read, hlocal x (mem_append_left _ (of_mem_zip hmem).1)] using
            hassigned x u hmem fun y _ => hx.1 y
        -- the next trip begins where the next call does
        obtain ⟨τ', hloop⟩ := ih hnext hbelow₃ hclear₃ (hupdates.holds hholds₂)
        have htrip := hrun₂.append_falls hrun₃
        rcases hloop.append_cases with ⟨τ₄, hrun₄, hloop⟩ | ⟨r, τ₄, ho, hrun₄⟩
        · exact ⟨τ', hrun₁.append_falls (.loopStep ⟨rfl, hu⟩ hstays (htrip.append_falls hrun₄) hloop)⟩
        · cases ho
          exact ⟨_, hrun₁.append_falls (.loopLeaves ⟨rfl, hu⟩ hstays (htrip.append_falls hrun₄))⟩

end Loop

end TailCall

theorem Procedure.loopTailCall_ok_iff {entry : String} {looped : Procedure}
    {supply supply' : Supply}
    (hsymbol : p.symbol? = some f) (hcall : TailCall.ofBody? f p.body = some call) :
    (p.loopTailCall entry).run supply = .ok (looped, supply') ↔
      call.arguments.length = p.parameters.length ∧
      ∃ assigned st, (TailCall.reassign p.parameters call.arguments).run
          ⟨supply, p.declaredNames (f = entry)⟩ = .ok (assigned, st) ∧ supply' = st.temporaries ∧
        looped = ⟨p.name, p.parameters, call.leading ++
          .loop call.loopTest (call.step ++ assigned ++ call.leading) :: call.base⟩ := by
  have hfound : p.symbol?.bind (fun symbol => (TailCall.ofBody? symbol p.body).map
      fun call => (symbol, call)) = some (f, call) := by simp [hsymbol, hcall]
  simp only [loopTailCall, hfound]
  split
  · rename_i harity
    simp only [run_bind_ok_iff, run_throw, reduceCtorEq, false_and, exists_false, harity]
  · rename_i harity
    rw [ne_eq, not_not] at harity
    simp only [TailCall.toLoop, run_bind_ok_iff, run_pure_ok, run_get, harity, true_and]
    constructor
    · rintro ⟨_, _, hget, ⟨body, st⟩, _, hlift, _, _, hset, h⟩
      cases hget
      cases hset
      cases h
      obtain ⟨hrun, hsame⟩ := run_lift_ok_iff.1 hlift
      obtain ⟨assigned, st₁, hassigned, h⟩ := run_bind_ok_iff.1 hrun
      cases h
      exact ⟨assigned, _, hassigned, rfl, rfl⟩
    · rintro ⟨assigned, st, hassigned, rfl, rfl⟩
      refine ⟨_, _, rfl, (_, st), supply, run_lift_ok_iff.2 ⟨?_, rfl⟩, _, _, rfl, rfl⟩
      exact run_bind_ok_iff.2 ⟨assigned, st, hassigned, rfl⟩

/-- Turning the tail call of a procedure into a loop keeps its results. It goes through for a call
of the right number of arguments whose layouts are known. -/
theorem loopTailCall_keeps_results {entry f : String} {p : Procedure} {names : List String}
    {call : TailCall} (supply : Supply) (hsymbol : p.symbol? = some f)
    (hnames : p.parameterNames? = some names) (hnodup : names.Nodup)
    (hcall : TailCall.ofBody? f p.body = some call)
    (hviews : ∀ x ∈ Stmt.namesAll p.body, Name.IsView x)
    (hfresh : ∀ x ∈ names ++ Stmt.namesAll p.body, ∀ n : Nat, x ≠ supply.stem ++ toString n) :
    (call.arguments.length = p.parameters.length →
      (∀ e ∈ p.parameters ++ call.arguments, e.layout.isSome = true) →
      ∃ looped supply', (p.loopTailCall entry).run supply = .ok (looped, supply')) ∧
    ∀ looped supply', (p.loopTailCall entry).run supply = .ok (looped, supply') →
      ∀ {α : Type} (I : Interpretation α), (I.recursive f p).Negates →
        (∀ x ∈ names ++ Stmt.localNames p.body, (I.recursive f p).denotes x = false) →
        ∀ vs v, I.Computes f p vs v →
          (I.recursive f p).Yields (looped.frame (f = entry) vs) looped.body v := by
  refine ⟨fun harity hlayouts => ?_, fun looped supply' hrun α I hnegates hlocal vs v hv => ?_⟩
  · obtain ⟨assigned, st, hassigned⟩ := TailCall.reassign_isOk hnames hlayouts
      ⟨supply, p.declaredNames (f = entry)⟩
    exact ⟨_, _, (Procedure.loopTailCall_ok_iff hsymbol hcall).2
      ⟨harity, assigned, st, hassigned, rfl, rfl⟩⟩
  · obtain ⟨harity, assigned, st, hassigned, -, rfl⟩ := (Procedure.loopTailCall_ok_iff hsymbol hcall).1 hrun
    have hlength : names.length = p.parameters.length := Procedure.parameterNames_length hnames
    obtain ⟨n, hn⟩ := hv
    cases n with
    | zero => exact hn.elim
    | succ n =>
      have hclear : ∀ x, Name.IsOwn supply.stem x → (I.recursive f p).denotes x = true →
          p.frame (f = entry) vs x = none := fun x hx hd =>
        Procedure.frame_unbound hnames (fun _ => hx.1) fun h =>
          Bool.false_ne_true ((hlocal x (List.mem_append_left _ h)).symm.trans hd)
      refine TailCall.loop_yields hcall hnames hnodup (by omega) hviews hfresh hassigned hnegates hlocal
        (n + 1) hn ⟨fun x w hx hw => ?_, fun x hx hd _ => hclear x hx hd⟩ hclear
        (Procedure.frame_holds hn.1 hviews)
      rw [Procedure.frame_eq hnames fun _ => hx.1] at hw
      exact (Procedure.frame_eq hnames fun _ => hx.1).trans hw

def Interpretation.integerResult (op : String) (a b : Int) : Option Int :=
  match op with
  | "op_eq" => some (if a = b then 1 else 0)
  | "op_ne" => some (if a = b then 0 else 1)
  | "op_lt" => some (if a < b then 1 else 0)
  | "op_ge" => some (if a < b then 0 else 1)
  | "op_gt" => some (if b < a then 1 else 0)
  | "op_le" => some (if b < a then 0 else 1)
  | "op_mod" => some (a % b)
  | _ => none

/-- Integers, of which all but zero are true. -/
def Interpretation.integers : Interpretation Int where
  literal text _ := .datum (Snippet.decimal text.toList)
  denotes _ := false
  apply f vs v := (∃ op a b r, f = .procedure op ∧ vs = [.datum a, .datum b] ∧
      integerResult op a b = some r ∧ v = .datum r) ∨
    (f = .procedure negation ∧ ∃ a, vs = [.datum a] ∧ v = .datum (if a = 0 then 1 else 0))
  truth
    | .datum n => some (n ≠ 0)
    | _ => none

theorem Interpretation.integers_functional : integers.Functional := by
  rintro g vs v w (⟨op, a, b, r, rfl, rfl, hr, rfl⟩ | ⟨rfl, a, rfl, rfl⟩)
    (⟨op', a', b', r', hop, hvs, hr', rfl⟩ | ⟨hop, a', hvs, rfl⟩)
  · cases hop
    cases hvs
    rw [Option.some.inj (hr.symm.trans hr')]
  · cases hvs
  · cases hvs
  · cases hvs
    rfl

theorem Interpretation.integers_negates (hf : isBuiltin f = false) :
    (integers.recursive f p).Negates := by
  have hne : ∀ op, isBuiltin op = true → Value.procedure (α := Int) op ≠ .procedure f := by
    rintro op hop h
    cases h
    exact Bool.false_ne_true (hf.symm.trans hop)
  constructor
  · intro op opposite vs v b hopposite happly hb
    obtain ⟨hop, hop'⟩ := TailCall.builtin_of_opposite hopposite
    rcases happly with ⟨h, -⟩ | ⟨-, ⟨op', x, y, r, hsame, rfl, hr, rfl⟩ | ⟨hnot, -⟩⟩
    · exact absurd h (hne op hop)
    · cases hsame
      have hresult : ∃ r', integerResult opposite x y = some r' ∧ integers.truth (.datum r') = some !b := by
        have hb' : b = decide (r ≠ 0) := (Option.some.inj hb).symm
        unfold TailCall.oppositeComparison? at hopposite
        split at hopposite <;> cases hopposite <;> cases hr <;>
          exact ⟨_, rfl, by subst hb'; simp only [integers]; split <;> simp_all⟩
      obtain ⟨r', hr', ht⟩ := hresult
      exact ⟨.datum r', .inr ⟨hne _ hop', .inl ⟨opposite, x, y, r', rfl, rfl, hr', rfl⟩⟩, ht⟩
    · cases hnot
      cases hopposite
  · intro v b hb
    cases v with
    | datum n =>
      refine ⟨.datum (if n = 0 then 1 else 0), .inr ⟨hne _ rfl, .inr ⟨rfl, n, rfl, rfl⟩⟩, ?_⟩
      have hb' : b = decide (n ≠ 0) := (Option.some.inj hb).symm
      subst hb'
      by_cases hn : n = 0 <;> simp [recursive, define, integers, hn]
    | _ => cases hb

theorem Interpretation.integers_eval {results : List (Value Int) → Value Int → Prop} {σ : Store Int}
    {e' : Expr} {a b r : Int} {t t' : Typing} (hop : isBuiltin op = true) (hf : op ≠ f)
    (ha : (integers.define f results).Eval σ e (.datum a)) (hb : (integers.define f results).Eval σ e' (.datum b))
    (hr : integerResult op a b = some r) :
    (integers.define f results).Eval σ (.apply (.name op t) [e, e'] t') (.datum r) := by
  refine ⟨.procedure op, [.datum a, .datum b], ?_, ⟨_, _, ha, ⟨_, _, hb, rfl, rfl⟩, rfl⟩,
    .inr ⟨fun h => hf (Value.procedure.inj h), .inl ⟨op, a, b, r, rfl, rfl, hr, rfl⟩⟩⟩
  simp [Expr.builtin?, Expr.symbol?, Option.filter, hop]

def integer : Typing := ⟨.scalar .int32, none⟩

def gcdCall : TailCall where
  leading := []
  test := .apply (.name "op_eq" integer) [.name "b" integer, .literal "0" integer] integer
  whenTrue := false
  step := []
  arguments := [.name "b" integer, .apply (.name "op_mod" integer) [.name "a" integer, .name "b" integer] integer]
  base := [.ret (.name "a" integer)]

/-- Euclid's algorithm. Its second argument reads the first parameter. -/
def gcd : Procedure where
  name := .name "gcd" integer
  parameters := [.name "a" integer, .name "b" integer]
  body := [.branch gcdCall.test gcdCall.base [.ret (.apply (.name "gcd" integer) gcdCall.arguments integer)]]

theorem gcd_computes : integers.Computes "gcd" gcd [.datum 2, .datum 1] (.datum 1) := by
  have htest : ∀ {n : Nat} {a b r : Int}, integerResult "op_eq" b 0 = some r →
      (integers.define "gcd" (integers.SelfCall "gcd" gcd n)).Eval
        (gcd.frame false [.datum a, .datum b]) gcdCall.test (.datum r) := fun h =>
    integers_eval rfl (by decide) (by rfl) (by rfl) h
  have hbase : integers.SelfCall "gcd" gcd 1 [.datum 1, .datum 0] (.datum 1) :=
    ⟨rfl, _, .branchLeaves (b := true) ⟨rfl, htest rfl⟩ (by rfl) (.ret ⟨rfl, by rfl⟩)⟩
  refine ⟨2, rfl, _, .branchLeaves (b := false) ⟨rfl, htest rfl⟩ (by rfl)
    (.ret ⟨rfl, .procedure "gcd", [.datum 1, .datum 0], by rfl, ?_, .inl ⟨rfl, hbase⟩⟩)⟩
  refine ⟨_, _, by rfl, ⟨_, _, ?_, by rfl, by rfl⟩, by rfl⟩
  exact integers_eval (a := 2) (b := 1) rfl (by decide) (by rfl) (by rfl) rfl

/-- The loop finds that 2 and 1 have the common divisor 1, as the calls do. -/
theorem gcd_loop_keeps_results :
    (gcd.parameterNames? = some ["a", "b"] ∧ TailCall.ofBody? "gcd" gcd.body = some gcdCall ∧
      integers.Computes "gcd" gcd [.datum 2, .datum 1] (.datum 1)) ∧
    ∃ looped, (gcd.loopTailCall "main").run (.ofStem "_iter") = .ok (looped, ⟨"_iter", 1⟩) ∧
      (integers.recursive "gcd" gcd).Yields
        (looped.frame false [.datum 2, .datum 1]) looped.body (.datum 1) := by
  refine ⟨⟨rfl, rfl, gcd_computes⟩, _, rfl, ?_⟩
  have h := (@loopTailCall_keeps_results "main" "gcd" gcd ["a", "b"] gcdCall (.ofStem "_iter")
    rfl rfl (by decide) rfl
    (fun x hx => isView_of_last (by revert x; decide))
    (fun x hx => ne_drawn_of_first (by revert x; decide) (by decide))).2 _ _ rfl
    integers (integers_negates (by decide)) (by decide) _ _ gcd_computes
  exact h

def swapCall : TailCall where
  leading := []
  test := .apply (.name "op_eq" integer) [.name "a" integer, .literal "0" integer] integer
  whenTrue := false
  step := []
  arguments := [.literal "7" integer, .name "b" integer, .name "a" integer]
  base := [.ret (.name "b" integer)]

/-- Exchanges two parameters behind one that has a drawn name. -/
def swap : Procedure where
  name := .name "swap" integer
  parameters := [.name "_iter0" integer, .name "a" integer, .name "b" integer]
  body := [.branch swapCall.test swapCall.base [.ret (.apply (.name "swap" integer) swapCall.arguments integer)]]

theorem swap_computes : integers.Computes "swap" swap [.datum 5, .datum 1, .datum 0] (.datum 1) := by
  have htest : ∀ {n : Nat} {x a b r : Int}, integerResult "op_eq" a 0 = some r →
      (integers.define "swap" (integers.SelfCall "swap" swap n)).Eval
        (swap.frame false [.datum x, .datum a, .datum b]) swapCall.test (.datum r) := fun h =>
    integers_eval rfl (by decide) (by rfl) (by rfl) h
  have hbase : integers.SelfCall "swap" swap 1 [.datum 7, .datum 0, .datum 1] (.datum 1) :=
    ⟨rfl, _, .branchLeaves (b := true) ⟨rfl, htest rfl⟩ (by rfl) (.ret ⟨rfl, by rfl⟩)⟩
  refine ⟨2, rfl, _, .branchLeaves (b := false) ⟨rfl, htest rfl⟩ (by rfl)
    (.ret ⟨rfl, .procedure "swap", [.datum 7, .datum 0, .datum 1], by rfl, ?_, .inl ⟨rfl, hbase⟩⟩)⟩
  exact ⟨_, _, by rfl, ⟨_, _, by rfl, ⟨_, _, by rfl, by rfl, by rfl⟩, by rfl⟩, by rfl⟩

/-- The stored argument is lost when the parameter that shares its name is assigned: the loop hands
back 7 where the calls hand back 1, although the body mentions no drawn name. -/
theorem loopTailCall_drawn_parameter :
    TailCall.ofBody? "swap" swap.body = some swapCall ∧ swap.parameterNames? = some ["_iter0", "a", "b"] ∧
    (∀ x ∈ namesAll swap.body, IsOwn "_iter" x) ∧
    (Interpretation.integers.recursive "swap" swap).Negates ∧
    integers.Computes "swap" swap [.datum 5, .datum 1, .datum 0] (.datum 1) ∧
    ∃ looped, (swap.loopTailCall "main").run (.ofStem "_iter") = .ok (looped, ⟨"_iter", 1⟩) ∧
      ¬ (integers.recursive "swap" swap).Yields
        (looped.frame false [.datum 5, .datum 1, .datum 0]) looped.body (.datum 1) := by
  refine ⟨rfl, rfl, fun x hx => ⟨isView_of_last (by revert x; decide),
    ne_drawn_of_first (by revert x; decide) (by decide)⟩,
    Interpretation.integers_negates (by decide), swap_computes, _, rfl, fun h => ?_⟩
  have hseven : (integers.recursive "swap" swap).Yields
      (swap.frame false [.datum 5, .datum 1, .datum 0])
      [.loop swapCall.loopTest [.bind (.name "_iter0" integer) (.name "a" integer),
          .bind (.name "_iter0" integer) (.literal "7" integer), .bind (.name "a" integer) (.name "b" integer),
          .bind (.name "b" integer) (.name "_iter0" integer)],
        .ret (.name "b" integer)] (.datum 7) := by
    refine ⟨_, .loopStep (v := .datum 1) ⟨rfl, ?_⟩ (by rfl)
      (.bind rfl ⟨rfl, by rfl⟩ (.bind rfl ⟨rfl, by rfl⟩ (.bind rfl ⟨rfl, by rfl⟩
        (.bind rfl ⟨rfl, by rfl⟩ (.nil _)))))
      (.loopEnd (v := .datum 0) ⟨rfl, ?_⟩ (by rfl) (.ret ⟨rfl, by rfl⟩))⟩
    · exact integers_eval (a := 1) (b := 0) rfl (by decide) (by rfl) (by rfl) rfl
    · exact integers_eval (a := 0) (b := 0) rfl (by decide) (by rfl) (by rfl) rfl
  have hsame := Yields.unique
    (recursive_functional integers_functional) h hseven
  cases hsame

end DataParallel
