import DataParallel.Proofs.TupleBinds

/-! What unpacking does to a bind and to a module.

A bind is unpacked into binds of names that evaluate every call once. A module is unpacked unless a
tuple is bound to one of another length or a parameter is no name, and then nothing is left to
unpack. -/

namespace DataParallel

open List Name

variable {target value : Expr}

namespace Expr

theorem callsAll_append (es fs : List Expr) : callsAll (es ++ fs) = callsAll es ++ callsAll fs := by
  induction es with
  | nil => rfl
  | cons e es ih => rw [cons_append, callsAll, callsAll, ih, append_assoc]

/-- Somewhere a tuple of targets stands against a closure. -/
def UnpacksClosure (target value : Expr) : Prop :=
  ∃ targets t function captured u, Faces (.tuple targets t) (.closure function captured u) target value

theorem not_unpacksClosure_of_isApply (h : value.isApply = true) :
    ¬ target.UnpacksClosure value := by
  rintro ⟨_, _, _, _, _, hfaces⟩
  cases hfaces with
  | here => cases h
  | inside => cases h

def IsSource (e : Expr) : Prop := e.isName = true ∨ ∃ text typing, e = .literal text typing

/-- A call that unpacking adds: one that builds a tuple, or a projection of a name or a literal. -/
def IsAdded (call : Expr × List Expr) : Prop :=
  call.1.symbol? = some Snippet.makeTuple ∨
    ∃ index source, call.1.symbol? = some (Snippet.project index) ∧ call.2 = [source] ∧ source.IsSource

theorem IsSource.calls {e : Expr} (h : e.IsSource) : e.calls = [] := by
  rcases h with h | ⟨text, typing, rfl⟩
  · cases e with
    | name => rfl
    | _ => cases h
  · rfl

end Expr

namespace Stmt

variable {s : Stmt} {x : String} {typing : Typing} {source : Expr} {targets : List Expr}
  {work : List (Expr × Expr)} {bound : List String} {block block' out out' : List Stmt}

theorem localNames_bind {rest : List Stmt} :
    localNames (.bind (.name x typing) value :: rest) = x :: localNames rest := rfl

section Fields
variable {index : Nat}

theorem fieldBinds_added (hsource : source.IsSource) (index : Nat) (targets : List Expr) :
    ∀ call ∈ Expr.callsAll ((fieldBinds source index targets).map Prod.snd), Expr.IsAdded call := by
  induction targets generalizing index with
  | nil => exact nofun
  | cons target targets ih =>
    intro call hcall
    rw [fieldBinds, map_cons, Expr.callsAll, mem_append] at hcall
    rcases hcall with hcall | hcall
    · simp only [Expr.applySnippet, Expr.calls, Expr.callsAll, hsource.calls, append_nil, mem_singleton] at hcall
      subst hcall
      exact .inr ⟨index, source, rfl, rfl, hsource⟩
    · exact ih _ call hcall

theorem fieldBinds_isApply {pair : Expr × Expr} (hpair : pair ∈ fieldBinds source index targets) :
    pair.2.isApply = true := by
  induction targets generalizing index with
  | nil => cases hpair
  | cons target targets ih =>
    rcases mem_cons.1 hpair with rfl | hpair
    · rfl
    · exact ih hpair

theorem fieldBinds_open (h : ∀ pair ∈ work, ¬ pair.1.UnpacksClosure pair.2) :
    ∀ pair ∈ fieldBinds source index targets ++ work, ¬ pair.1.UnpacksClosure pair.2 := by
  intro pair hpair
  rcases mem_append.1 hpair with hpair | hpair
  · exact Expr.not_unpacksClosure_of_isApply (fieldBinds_isApply hpair)
  · exact h pair hpair

end Fields

section Unpacked
variable {supply supply' : Supply} {binds : List Stmt}

theorem Unpacks.bindsNames (h : Unpacks supply work binds supply')
    (hbinders : Expr.areBinders (work.map Prod.fst) = true) :
    ∀ s ∈ binds, ∃ x typing e, s = .bind (.name x typing) e := by
  induction h with
  | nil => exact nofun
  | pairs hlength _ ih =>
    simp only [map_append, map_fst_zip (Nat.le_of_eq hlength), Expr.areBinders_append] at ih
    exact ih hbinders
  | call _ _ ih =>
    simp only [map_append, fieldBinds_fst, Expr.areBinders_append] at ih
    exact forall_mem_cons.2 ⟨⟨_, _, _, rfl⟩, ih hbinders⟩
  | fields _ _ _ ih =>
    simp only [map_append, fieldBinds_fst, Expr.areBinders_append] at ih
    exact ih hbinders
  | @bind target _ _ _ _ _ _ _ ih =>
    cases target with
    | name => exact forall_mem_cons.2 ⟨⟨_, _, _, rfl⟩, ih hbinders⟩
    | tuple => contradiction
    | _ => cases hbinders

/-- Every target is bound in its place, and what is bound besides is drawn from the supply, name by
name. -/
theorem Unpacks.localNames (own : String → Bool) (h : Unpacks supply work binds supply')
    (hbinders : Expr.areBinders (work.map Prod.fst) = true)
    (hown : ∀ x ∈ Expr.namesAll (work.map Prod.fst), own x = true)
    (hdrawn : ∀ n : Nat, own (supply.stem ++ toString n) = false) :
    (localNames binds).filter own = Expr.namesAll (work.map Prod.fst) ∧
    ∃ count, supply' = ⟨supply.stem, supply.counter + count⟩ ∧ (localNames binds).filter (!own ·) =
        (List.range' supply.counter count).map fun n => supply.stem ++ toString n := by
  induction h with
  | nil => exact ⟨rfl, 0, rfl, rfl⟩
  | pairs hlength _ ih =>
    simp only [map_cons, map_append, map_fst_zip (Nat.le_of_eq hlength), Expr.namesAll_append,
      Expr.areBinders_append] at ih hbinders hown ⊢
    exact ih hbinders hown hdrawn
  | @call _ _ _ _ _ supply _ _ _ ih =>
    simp only [map_cons, map_append, fieldBinds_fst, Expr.namesAll_append, Expr.areBinders_append] at ih hbinders hown ⊢
    obtain ⟨hnames, count, hsupply, htemporaries⟩ := ih hbinders hown hdrawn
    have hfirst : own supply.next.1 = false := hdrawn _
    refine ⟨?_, count + 1, ?_, ?_⟩
    · rw [Expr.renamed, localNames_bind, filter_cons_of_neg (by simp [hfirst])]
      exact hnames
    · rw [hsupply]
      simp only [Supply.next]
      congr 1
      omega
    · rw [Expr.renamed, localNames_bind, filter_cons_of_pos (by simp [hfirst]), htemporaries, range'_succ]
      rfl
  | fields _ _ _ ih =>
    simp only [map_cons, map_append, fieldBinds_fst, Expr.namesAll_append, Expr.areBinders_append] at ih hbinders hown ⊢
    exact ih hbinders hown hdrawn
  | @bind target _ _ _ _ _ htarget _ ih =>
    cases target with
    | name x typing =>
      obtain ⟨hnames, count, hsupply, htemporaries⟩ :=
        ih hbinders (fun x hx => hown x (mem_cons_of_mem _ hx)) hdrawn
      have hx : own x = true := hown x mem_cons_self
      refine ⟨?_, count, hsupply, ?_⟩
      · rw [localNames_bind, filter_cons_of_pos hx, hnames]
        rfl
      · rw [localNames_bind, filter_cons_of_neg (by simp [hx]), htemporaries]
    | tuple => cases htarget
    | _ => cases hbinders

/-- The binds evaluate each of the calls once, and besides only calls that unpacking adds. -/
def EvaluateOnce (binds : List Stmt) (calls : List (Expr × List Expr)) : Prop :=
  ∃ added, (callsAll binds).Perm (calls ++ added) ∧ ∀ call ∈ added, Expr.IsAdded call

theorem EvaluateOnce.drop {added calls : List (Expr × List Expr)}
    (h : EvaluateOnce binds (added ++ calls))
    (hadded : ∀ call ∈ added, Expr.IsAdded call) : EvaluateOnce binds calls := by
  obtain ⟨others, hperm, hothers⟩ := h
  refine ⟨added ++ others, ?_, forall_mem_append.2 ⟨hadded, hothers⟩⟩
  rw [← append_assoc]
  exact hperm.trans (perm_append_comm.append_right _)

theorem EvaluateOnce.bind {calls : List (Expr × List Expr)} (h : EvaluateOnce binds calls)
    (htarget : target.isBinder = true) : EvaluateOnce (.bind target value :: binds) (value.calls ++ calls) := by
  obtain ⟨others, hperm, hothers⟩ := h
  refine ⟨others, ?_, hothers⟩
  rw [callsAll, Stmt.calls, Expr.calls_of_isBinder htarget, nil_append, append_assoc]
  exact hperm.append_left _

theorem Unpacks.evaluateOnce (h : Unpacks supply work binds supply')
    (hbinders : Expr.areBinders (work.map Prod.fst) = true)
    (hopen : ∀ pair ∈ work, ¬ pair.1.UnpacksClosure pair.2) :
    EvaluateOnce binds (Expr.callsAll (work.map Prod.snd)) := by
  induction h with
  | nil => exact ⟨[], .refl _, nofun⟩
  | pairs hlength _ ih =>
    simp only [map_append, map_fst_zip (Nat.le_of_eq hlength), map_snd_zip (Nat.le_of_eq hlength.symm),
      Expr.callsAll_append, Expr.areBinders_append] at ih
    refine ih hbinders fun pair hpair => ?_
    rcases mem_append.1 hpair with hpair | hpair
    · rintro ⟨targets, t, function, captured, u, hfaces⟩
      exact hopen _ mem_cons_self ⟨targets, t, function, captured, u, .inside hpair hfaces⟩
    · exact hopen pair (mem_cons_of_mem _ hpair)
  | call _ _ ih =>
    simp only [map_append, fieldBinds_fst, Expr.callsAll_append, Expr.areBinders_append] at ih
    have hfields := ih hbinders (fieldBinds_open fun pair hpair => hopen pair (mem_cons_of_mem _ hpair))
    exact (hfields.drop (fieldBinds_added (.inl rfl) 0 _)).bind rfl
  | @fields targets t value _ _ _ _ happly htuple _ ih =>
    simp only [map_append, fieldBinds_fst, Expr.callsAll_append, Expr.areBinders_append] at ih
    have hfields := ih hbinders (fieldBinds_open fun pair hpair => hopen pair (mem_cons_of_mem _ hpair))
    have hsource : value.IsSource := by
      cases value with
      | name => exact .inl rfl
      | literal text typing => exact .inr ⟨text, typing, rfl⟩
      | tuple => cases htuple
      | apply => cases happly
      | closure function captured u => exact absurd ⟨targets, t, function, captured, u, .here⟩ (hopen _ mem_cons_self)
    rw [map_cons, Expr.callsAll, hsource.calls]
    exact hfields.drop (fieldBinds_added hsource 0 _)
  | @bind target value _ _ _ _ _ _ ih =>
    rw [map_cons, Expr.areBinders, Bool.and_eq_true] at hbinders
    have hrest : EvaluateOnce (.bind target value.packed :: _) _ :=
      (ih hbinders.2 fun pair hpair => hopen pair (mem_cons_of_mem _ hpair)).bind hbinders.1
    cases value with
    | tuple values typing =>
      have hbuilt : EvaluateOnce _ ([(_, values)] ++ _) := hrest
      refine hbuilt.drop (forall_mem_singleton.2 (.inl ?_))
      rfl
    | _ => exact hrest

/-- Temporaries are bound before they are read, but for those of `bound`. -/
def BoundFirst (bound : List String) (binds : List Stmt) : Prop :=
  ∀ front target value rest, binds = front ++ .bind target value :: rest →
    ∀ x ∈ value.names, ∀ n : Nat, x = "_tup" ++ toString n → x ∈ bound ∨ x ∈ localNames front

theorem BoundFirst.bind (h : BoundFirst (x :: bound) binds)
    (hvalue : ∀ y ∈ value.names, ∀ n : Nat, y = "_tup" ++ toString n → y ∈ bound) :
    BoundFirst bound (.bind (.name x typing) value :: binds) := by
  intro front target e rest hbinds y hy n hn
  cases front with
  | nil =>
    cases hbinds
    exact .inl (hvalue y hy n hn)
  | cons s front =>
    cases hbinds
    rw [localNames_bind, mem_cons]
    rcases h front target e rest rfl y hy n hn with h | h
    · exact (mem_cons.1 h).elim (fun h => .inr (.inl h)) .inl
    · exact .inr (.inr h)

theorem fieldBinds_boundFirst (hsource : ∀ x ∈ source.names, ∀ n : Nat, x = "_tup" ++ toString n → x ∈ bound)
    (hwork : ∀ pair ∈ work, ∀ x ∈ pair.2.names, ∀ n : Nat, x = "_tup" ++ toString n → x ∈ bound) :
    ∀ pair ∈ fieldBinds source 0 targets ++ work, ∀ x ∈ pair.2.names, ∀ n : Nat, x = "_tup" ++ toString n →
      x ∈ bound := by
  intro pair hpair x hx n hn
  rcases mem_append.1 hpair with hpair | hpair
  · rcases fieldBinds_reads hpair hx with ⟨index, hindex⟩ | hx
    · have hfirst : (Snippet.project index).toList.head? ≠ "_tup".toList.head? := by
        rw [Snippet.head?_project]
        decide
      exact absurd (hindex.symm.trans hn) (ne_drawn_of_first hfirst (by decide) n)
    · exact hsource x hx n hn
  · exact hwork pair hpair x hx n hn

theorem Unpacks.boundFirst (h : Unpacks supply work binds supply') (hstem : supply.stem = "_tup")
    (hbinders : Expr.areBinders (work.map Prod.fst) = true)
    (hreads : ∀ pair ∈ work, ∀ x ∈ pair.2.names, ∀ n : Nat, x = "_tup" ++ toString n → x ∈ bound) :
    BoundFirst bound binds := by
  induction h generalizing bound with
  | nil => exact fun front target value rest h => absurd h (by simp)
  | pairs hlength _ ih =>
    simp only [map_append, map_fst_zip (Nat.le_of_eq hlength), Expr.areBinders_append] at ih
    refine ih hstem hbinders fun pair hpair => ?_
    rcases mem_append.1 hpair with hpair | hpair
    · intro x hx
      exact hreads _ mem_cons_self x (Expr.mem_namesAll.2 ⟨_, (of_mem_zip hpair).2, hx⟩)
    · exact hreads pair (mem_cons_of_mem _ hpair)
  | call _ _ ih =>
    simp only [map_append, fieldBinds_fst, Expr.areBinders_append] at ih
    refine BoundFirst.bind (ih hstem hbinders (fieldBinds_boundFirst (fun x hx n _ => ?_)
      fun pair hpair x hx n hn => mem_cons_of_mem _ (hreads pair (mem_cons_of_mem _ hpair) x hx n hn)))
      (hreads _ mem_cons_self)
    rw [mem_singleton.1 hx]
    exact mem_cons_self
  | fields _ _ _ ih =>
    simp only [map_append, fieldBinds_fst, Expr.areBinders_append] at ih
    exact ih hstem hbinders (fieldBinds_boundFirst (hreads _ mem_cons_self)
      fun pair hpair => hreads pair (mem_cons_of_mem _ hpair))
  | @bind target _ _ _ _ _ _ _ ih =>
    cases target with
    | name x typing =>
      refine BoundFirst.bind (ih hstem hbinders fun pair hpair y hy n hn => ?_) fun y hy n hn => ?_
      · exact mem_cons_of_mem _ (hreads pair (mem_cons_of_mem _ hpair) y hy n hn)
      · rcases names_packed hy with hy | hy
        · exact absurd (hy.symm.trans hn) (ne_drawn_of_first (by decide) (by decide) n)
        · exact hreads _ mem_cons_self y hy n hn
    | tuple => contradiction
    | _ => cases hbinders

end Unpacked

/-- The binds of a tuple bind every target once and in order, evaluate every call of the value once,
and otherwise only build tuples and take projections of names and literals. Temporaries differ from
each other and are bound before they are read. -/
theorem flattenBind_evaluates_once {target value : Expr} {supply supply' : Supply}
    {binds : List Stmt}
    (hbinder : target.isBinder = true) (hopen : ¬ target.UnpacksClosure value) (hstem : supply.stem = "_tup")
    (hnames : ∀ x ∈ target.names ++ value.names, ∀ n : Nat, x ≠ "_tup" ++ toString n)
    (h : (flattenBind target value).run supply = .ok (binds, supply')) :
    (∀ s ∈ binds, ∃ x typing e, s = .bind (.name x typing) e) ∧
    (localNames binds).filter (· ∈ target.names) = target.names ∧
    (∃ added, (callsAll binds).Perm (value.calls ++ added) ∧ ∀ call ∈ added, Expr.IsAdded call) ∧
    ((localNames binds).filter (· ∉ target.names)).Nodup ∧
    ∀ x ∈ (localNames binds).filter (· ∉ target.names),
      (∃ n : Nat, x = "_tup" ++ toString n) ∧
      ∀ front target value rest, binds = front ++ .bind target value :: rest → x ∈ value.names →
        x ∈ localNames front := by
  have hunpacks := (flattenBind_unpacks target value supply).unpacks h
  have hbinders : Expr.areBinders [target] = true := by rw [Expr.areBinders, hbinder]; rfl
  have hown : ∀ n : Nat, decide (supply.stem ++ toString n ∈ target.names) = false := by
    intro n
    rw [hstem]
    exact decide_eq_false fun hmem => hnames _ (List.mem_append_left _ hmem) n rfl
  obtain ⟨htargets, count, -, htemporaries⟩ := hunpacks.localNames (· ∈ target.names) hbinders
    (by simp [Expr.namesAll]) hown
  rw [List.map_singleton, Expr.namesAll, Expr.namesAll, List.append_nil] at htargets
  simp only [← decide_not, hstem] at htemporaries
  have hfirst : BoundFirst [] binds := by
    refine hunpacks.boundFirst hstem hbinders (List.forall_mem_singleton.2 fun x hx n hn => ?_)
    exact absurd hn (hnames x (List.mem_append_right _ hx) n)
  refine ⟨hunpacks.bindsNames hbinders, htargets, ?_, ?_, fun x hx => ?_⟩
  · have honce := hunpacks.evaluateOnce hbinders (List.forall_mem_singleton.2 hopen)
    rwa [List.map_singleton, Expr.callsAll, Expr.callsAll, List.append_nil] at honce
  · rw [htemporaries]
    refine List.Nodup.map (fun m n hmn => ?_) List.nodup_range'
    exact Name.toString_inj ((String.append_right_inj "_tup").1 hmn)
  · rw [htemporaries] at hx
    obtain ⟨n, -, rfl⟩ := List.mem_map.1 hx
    refine ⟨⟨n, rfl⟩, fun front target value rest hbinds hread => ?_⟩
    exact (hfirst front target value rest hbinds _ hread n rfl).resolve_left List.not_mem_nil

/-- A pair of targets, the first of which is itself a pair, and a call whose result is unpacked. -/
def nestedTargets : Expr := .tuple [pairOf (named "a") (named "b"), named "c"] pairing

def nestedCalls : Expr :=
  .tuple [.apply (named "f") [.apply (named "g") [named "x"] integer] pairing, pairOf (named "a") (named "y")] pairing

def nestedBinds : List Stmt :=
  [.bind (.name "_tup0" pairing) (.apply (named "f") [.apply (named "g") [named "x"] integer] pairing),
    .bind (named "a") (.applySnippet (Snippet.project 0) [.name "_tup0" pairing] integer),
    .bind (named "b") (.applySnippet (Snippet.project 1) [.name "_tup0" pairing] integer),
    .bind (named "c") (.applySnippet Snippet.makeTuple [named "a", named "y"] pairing)]

theorem nested_evaluates_once :
    (flattenBind nestedTargets nestedCalls).run (.ofStem "_tup") = .ok (nestedBinds, ⟨"_tup", 1⟩) ∧
    (∃ added, (callsAll nestedBinds).Perm (nestedCalls.calls ++ added) ∧ ∀ call ∈ added, Expr.IsAdded call) ∧
    (localNames nestedBinds).filter (· ∉ nestedTargets.names) = ["_tup0"] := by
  have hok : (flattenBind nestedTargets nestedCalls).run (.ofStem "_tup") = .ok (nestedBinds, ⟨"_tup", 1⟩) := by rfl
  have hopen : ¬ nestedTargets.UnpacksClosure nestedCalls := by
    rintro ⟨ts, t, f, c, u, hfaces⟩
    cases hfaces with
    | inside hpair hfaces =>
      rcases mem_cons.1 hpair with rfl | hpair
      · cases hfaces
      · cases mem_singleton.1 hpair
        cases hfaces
  obtain ⟨-, -, honce, -, -⟩ := flattenBind_evaluates_once (by decide) hopen rfl
    (fun x hx => ne_drawn_of_first (by revert x; decide) (by decide)) hok
  exact ⟨hok, honce, by decide⟩

/-- A target with the name of a temporary is bound twice. -/
theorem flattenBind_binds_temporary_twice :
    (pairOf (named "_tup0") (named "b")).isBinder = true ∧
    ¬ (pairOf (named "_tup0") (named "b")).UnpacksClosure (.apply (named "f") [named "x"] pairing) ∧
    ∃ binds, (flattenBind (pairOf (named "_tup0") (named "b")) (.apply (named "f") [named "x"] pairing)).run
        (.ofStem "_tup") = .ok (binds, ⟨"_tup", 1⟩) ∧
      (localNames binds).filter (· ∈ (pairOf (named "_tup0") (named "b")).names) = ["_tup0", "_tup0", "b"] ∧
      (pairOf (named "_tup0") (named "b")).names = ["_tup0", "b"] :=
  ⟨rfl, Expr.not_unpacksClosure_of_isApply rfl, _, rfl, by decide, rfl⟩

/-- A statement stands in a block or, at any depth, in a suite of one that does. -/
inductive StandsIn (s : Stmt) : List Stmt → Prop where
  | here {block : List Stmt} : s ∈ block → StandsIn s block
  | inside {block suite : List Stmt} {t : Stmt} : t ∈ block → suite ∈ t.suites → StandsIn s suite → StandsIn s block

/-- A procedure with a parameter that is no name, or a bind of a tuple to one of another length. -/
def IsFaulty : Stmt → Prop
  | .bind target value => target.IsUneven value
  | .procedure _ parameters _ => ∃ parameter ∈ parameters, parameter.isName = false
  | _ => False

def HasTuple : Stmt → Prop
  | .bind target value => target.isTuple = true ∨ value.isTuple = true
  | _ => False

/-- Binds are replaced by binds, and all other statements stay where they are. -/
inductive KeepsPlaces : List Stmt → List Stmt → Prop where
  | nil : KeepsPlaces [] []
  | bind {target value : Expr} {binds rest out : List Stmt} : (∀ s ∈ binds, ∃ target value, s = .bind target value) →
      KeepsPlaces rest out → KeepsPlaces (.bind target value :: rest) (binds ++ out)
  | leaf {s : Stmt} {rest out : List Stmt} : (∀ target value, s ≠ .bind target value) → s.suites = [] →
      KeepsPlaces rest out → KeepsPlaces (s :: rest) (s :: out)
  | procedure {name : Expr} {parameters : List Expr} {body body' rest out : List Stmt} : KeepsPlaces body body' →
      KeepsPlaces rest out →
      KeepsPlaces (.procedure name parameters body :: rest) (.procedure name parameters body' :: out)
  | branch {test : Expr} {whenTrue whenFalse whenTrue' whenFalse' rest out : List Stmt} :
      KeepsPlaces whenTrue whenTrue' → KeepsPlaces whenFalse whenFalse' → KeepsPlaces rest out →
      KeepsPlaces (.branch test whenTrue whenFalse :: rest) (.branch test whenTrue' whenFalse' :: out)
  | loop {test : Expr} {body body' rest out : List Stmt} : KeepsPlaces body body' → KeepsPlaces rest out →
      KeepsPlaces (.loop test body :: rest) (.loop test body' :: out)
  | structDef {name : String} {binders : List String} {body body' rest out : List Stmt} : KeepsPlaces body body' →
      KeepsPlaces rest out → KeepsPlaces (.structDef name binders body :: rest) (.structDef name binders body' :: out)
  | namespaceDef {name : String} {body body' rest out : List Stmt} : KeepsPlaces body body' → KeepsPlaces rest out →
      KeepsPlaces (.namespaceDef name body :: rest) (.namespaceDef name body' :: out)

theorem KeepsPlaces.append (h : KeepsPlaces block out) (h' : KeepsPlaces block' out') :
    KeepsPlaces (block ++ block') (out ++ out') := by
  induction h with
  | nil => exact h'
  | bind hbinds _ ih =>
    rw [append_assoc]
    exact .bind hbinds ih
  | leaf hbind hs _ ih => exact .leaf hbind hs ih
  | procedure h _ _ ih => exact .procedure h ih
  | branch h₁ h₂ _ _ _ ih => exact .branch h₁ h₂ ih
  | loop h _ _ ih => exact .loop h ih
  | structDef h _ _ ih => exact .structDef h ih
  | namespaceDef h _ _ ih => exact .namespaceDef h ih

section StandsIn
variable {t : Stmt} {block rest suite : List Stmt}

theorem not_standsIn_nil : ¬ StandsIn t [] := by
  rintro (h | ⟨h, -, -⟩)
  · cases h
  · cases h

theorem standsIn_append : StandsIn t (block ++ rest) ↔ StandsIn t block ∨ StandsIn t rest := by
  constructor
  · rintro (h | ⟨h, hsuite, ht⟩)
    · exact (mem_append.1 h).imp .here .here
    · exact (mem_append.1 h).imp (.inside · hsuite ht) (.inside · hsuite ht)
  · rintro ((h | ⟨h, hsuite, ht⟩) | (h | ⟨h, hsuite, ht⟩))
    · exact .here (mem_append_left _ h)
    · exact .inside (mem_append_left _ h) hsuite ht
    · exact .here (mem_append_right _ h)
    · exact .inside (mem_append_right _ h) hsuite ht

theorem standsIn_cons :
    StandsIn t (s :: rest) ↔ StandsIn t [s] ∨ StandsIn t rest := @standsIn_append t [s] rest

theorem standsIn_single : StandsIn t [s] ↔ t = s ∨ ∃ suite ∈ s.suites, StandsIn t suite := by
  constructor
  · rintro (h | ⟨h, hsuite, ht⟩)
    · exact .inl (mem_singleton.1 h)
    · cases mem_singleton.1 h
      exact .inr ⟨_, hsuite, ht⟩
  · rintro (rfl | ⟨suite, hsuite, ht⟩)
    · exact .here mem_cons_self
    · exact .inside mem_cons_self hsuite ht

end StandsIn

/-- A block without a fault, and the block of plain binds that stands for it. -/
structure TakenApart (block out : List Stmt) : Prop where
  faultless : ∀ t, StandsIn t block → ¬ t.IsFaulty
  places : KeepsPlaces block out
  flat : ∀ t, StandsIn t out → ¬ t.IsFaulty ∧ ¬ t.HasTuple

theorem TakenApart.append (h : TakenApart block out) (h' : TakenApart block' out') :
    TakenApart (block ++ block') (out ++ out') where
  faultless t ht := (standsIn_append.1 ht).elim (h.faultless t) (h'.faultless t)
  places := h.places.append h'.places
  flat t ht := (standsIn_append.1 ht).elim (h.flat t) (h'.flat t)

theorem TakenApart.around {s' : Stmt} (hplaces : KeepsPlaces [s] [s']) (hs : ¬ s.IsFaulty)
    (hs' : ¬ s'.IsFaulty ∧ ¬ s'.HasTuple) (hsuites : ∀ suite ∈ s.suites, ∃ suite', TakenApart suite suite')
    (hsuites' : ∀ suite' ∈ s'.suites, ∃ suite, TakenApart suite suite') : TakenApart [s] [s'] where
  faultless t ht := by
    rcases standsIn_single.1 ht with rfl | ⟨suite, hsuite, ht⟩
    · exact hs
    · obtain ⟨suite', h⟩ := hsuites suite hsuite
      exact h.faultless t ht
  places := hplaces
  flat t ht := by
    rcases standsIn_single.1 ht with rfl | ⟨suite, hsuite, ht⟩
    · exact hs'
    · obtain ⟨suite', h⟩ := hsuites' suite hsuite
      exact h.flat t ht

/-- Steps that fail only at a fault in `block`, and otherwise flatten it. -/
def TakesApart (block : List Stmt) (result : Except LoweringError (List Stmt × Supply)) : Prop :=
  Meets (fun _ => ∃ t, StandsIn t block ∧ t.IsFaulty) (fun r => TakenApart block r.1) result

theorem TakesApart.within {suite : List Stmt} {result : Except LoweringError (List Stmt × Supply)}
    {f : List Stmt × Supply → Except LoweringError (List Stmt × Supply)} (h : TakesApart suite result)
    (hsuite : suite ∈ s.suites) (hf : ∀ r, TakenApart suite r.1 → TakesApart [s] (f r)) :
    TakesApart [s] (result >>= f) := by
  refine Meets.bind (Meets.weaken h ?_) hf
  rintro e ⟨t, ht, hfaulty⟩
  exact ⟨t, .inside mem_cons_self hsuite ht, hfaulty⟩

theorem flattenBind_takesApart (target value : Expr) (supply : Supply) :
    TakesApart [.bind target value] ((flattenBind target value).run supply) := by
  refine (Meets.weaken (flattenBind_unpacks target value supply) fun e h => ?_).mono fun r hr => ?_
  · exact ⟨_, .here mem_cons_self, h⟩
  have hunpacks := hr [] [] r.2 (.nil r.2)
  simp only [append_nil] at hunpacks
  have hbinds := hunpacks.isBind
  refine ⟨fun t ht => ?_, ?_, fun t ht => ?_⟩
  · rcases standsIn_single.1 ht with rfl | ⟨suite, hsuite, -⟩
    · exact hunpacks.even _ mem_cons_self
    · cases hsuite
  · have hplaces := @KeepsPlaces.bind target value _ _ _ hbinds .nil
    rwa [append_nil] at hplaces
  · rcases ht with ht | ⟨ht, hsuite, -⟩
    · obtain ⟨target, value, rfl⟩ := hbinds t ht
      obtain ⟨htarget, hvalue⟩ := hunpacks.noTuples target value ht
      exact ⟨not_isUneven_of_isTuple hvalue, by simp [HasTuple, htarget, hvalue]⟩
    · obtain ⟨target, value, rfl⟩ := hbinds _ ht
      cases hsuite

mutual

theorem flattenTuples_takesApart :
    ∀ (s : Stmt) (supply : Supply), TakesApart [s] (s.flattenTuples.run supply)
  | .bind target value, supply => by
    rw [flattenTuples]
    split
    · exact flattenBind_takesApart target value supply
    · rename_i h
      simp only [Bool.or_eq_true, not_or, Bool.not_eq_true] at h
      refine .around (@KeepsPlaces.bind _ _ [_] _ _ ?_ .nil) (not_isUneven_of_isTuple h.2)
        ⟨not_isUneven_of_isTuple h.2, ?_⟩ (by simp [suites]) (by simp [suites])
      · exact forall_mem_singleton.2 ⟨_, _, rfl⟩
      · simp [HasTuple, h.1, h.2]
  | .procedure name parameters body, supply => by
    rw [flattenTuples]
    split
    · rename_i parameter hfind
      have hname := find?_some hfind
      exact ⟨_, .here mem_cons_self, parameter, mem_of_find?_eq_some hfind, by simpa using hname⟩
    · rename_i hfind
      have hnames : ¬ ∃ parameter ∈ parameters, parameter.isName = false := by simpa using find?_eq_none.1 hfind
      refine TakesApart.within (flattenTuplesAll_takesApart body supply) mem_cons_self fun r hr => ?_
      exact .around (.procedure hr.places .nil) hnames ⟨hnames, id⟩ (forall_mem_singleton.2 ⟨_, hr⟩)
        (forall_mem_singleton.2 ⟨_, hr⟩)
  | .branch test whenTrue whenFalse, supply => by
    rw [flattenTuples]
    refine TakesApart.within (flattenTuplesAll_takesApart whenTrue supply) mem_cons_self fun r hr => ?_
    refine TakesApart.within (flattenTuplesAll_takesApart whenFalse r.2) (mem_cons_of_mem _ mem_cons_self)
      fun r' hr' => ?_
    exact .around (.branch hr.places hr'.places .nil) id ⟨id, id⟩
      (forall_mem_cons.2 ⟨⟨_, hr⟩, forall_mem_singleton.2 ⟨_, hr'⟩⟩)
      (forall_mem_cons.2 ⟨⟨_, hr⟩, forall_mem_singleton.2 ⟨_, hr'⟩⟩)
  | .loop test body, supply => by
    rw [flattenTuples]
    refine TakesApart.within (flattenTuplesAll_takesApart body supply) mem_cons_self fun r hr => ?_
    exact .around (.loop hr.places .nil) id ⟨id, id⟩ (forall_mem_singleton.2 ⟨_, hr⟩) (forall_mem_singleton.2 ⟨_, hr⟩)
  | .structDef name binders body, supply => by
    rw [flattenTuples]
    refine TakesApart.within (flattenTuplesAll_takesApart body supply) mem_cons_self fun r hr => ?_
    exact .around (.structDef hr.places .nil) id ⟨id, id⟩ (forall_mem_singleton.2 ⟨_, hr⟩)
      (forall_mem_singleton.2 ⟨_, hr⟩)
  | .namespaceDef name body, supply => by
    rw [flattenTuples]
    refine TakesApart.within (flattenTuplesAll_takesApart body supply) mem_cons_self fun r hr => ?_
    exact .around (.namespaceDef hr.places .nil) id ⟨id, id⟩ (forall_mem_singleton.2 ⟨_, hr⟩)
      (forall_mem_singleton.2 ⟨_, hr⟩)
  | .ret _, _ | .typedef .., _ | .header .., _ | .declare _, _ =>
    TakenApart.around (.leaf (by simp) rfl .nil) id ⟨id, id⟩ (by simp [suites]) (by simp [suites])

theorem flattenTuplesAll_takesApart : ∀ (block : List Stmt) (supply : Supply),
    TakesApart block ((flattenTuplesAll block).run supply)
  | [], _ => ⟨fun _ ht => absurd ht not_standsIn_nil, .nil, fun _ ht => absurd ht not_standsIn_nil⟩
  | s :: rest, supply => by
    rw [flattenTuplesAll, StateT.run_bind]
    refine Meets.bind (Meets.weaken (flattenTuples_takesApart s supply) ?_) fun r hr => ?_
    · rintro e ⟨t, ht, hfaulty⟩
      exact ⟨t, standsIn_cons.2 (.inl ht), hfaulty⟩
    rw [StateT.run_bind]
    refine Meets.bind (Meets.weaken (flattenTuplesAll_takesApart rest r.2) ?_) fun r' hr' => hr.append hr'
    rintro e ⟨t, ht, hfaulty⟩
    exact ⟨t, standsIn_cons.2 (.inr ht), hfaulty⟩

end

mutual

theorem flattenTuples_of_flat : ∀ {s : Stmt}, (∀ t, StandsIn t [s] → ¬ t.IsFaulty ∧ ¬ t.HasTuple) →
    ∀ supply, s.flattenTuples.run supply = .ok ([s], supply)
  | .bind target value, h, supply => by
    have hflat := (h _ (.here mem_cons_self)).2
    simp only [HasTuple, not_or, Bool.not_eq_true] at hflat
    rw [flattenTuples, hflat.1, hflat.2]
    rfl
  | .procedure name parameters body, h, supply => by
    have hnames : parameters.find? (fun parameter => !parameter.isName) = none := by
      simpa [IsFaulty] using (h _ (.here mem_cons_self)).1
    rw [flattenTuples, hnames]
    exact Lower.run_bind_ok_iff.2 ⟨_, _, flattenTuplesAll_of_flat (fun t ht =>
      h t (.inside mem_cons_self mem_cons_self ht)) supply, rfl⟩
  | .branch test whenTrue whenFalse, h, supply => by
    have htrue := flattenTuplesAll_of_flat (fun t ht => h t (.inside mem_cons_self mem_cons_self ht)) supply
    have hfalse := flattenTuplesAll_of_flat (fun t ht =>
      h t (.inside mem_cons_self (mem_cons_of_mem _ mem_cons_self) ht)) supply
    exact Lower.run_bind_ok_iff.2 ⟨_, _, htrue, Lower.run_bind_ok_iff.2 ⟨_, _, hfalse, rfl⟩⟩
  | .loop test body, h, supply | .structDef name binders body, h, supply | .namespaceDef name body, h, supply =>
    Lower.run_bind_ok_iff.2 ⟨_, _, flattenTuplesAll_of_flat (fun t ht =>
      h t (.inside mem_cons_self mem_cons_self ht)) supply, rfl⟩
  | .ret _, _, _ | .typedef .., _, _ | .header .., _, _ | .declare _, _, _ => rfl

theorem flattenTuplesAll_of_flat :
    ∀ {block : List Stmt}, (∀ t, StandsIn t block → ¬ t.IsFaulty ∧ ¬ t.HasTuple) →
    ∀ supply, (flattenTuplesAll block).run supply = .ok (block, supply)
  | [], _, _ => rfl
  | s :: rest, h, supply => by
    have hfirst := flattenTuples_of_flat (fun t ht => h t (standsIn_cons.2 (.inl ht))) supply
    have hrest := flattenTuplesAll_of_flat (fun t ht => h t (standsIn_cons.2 (.inr ht))) supply
    simp only [flattenTuplesAll, Lower.run_bind_ok_iff]
    exact ⟨_, _, hfirst, _, _, hrest, rfl⟩

end

end Stmt

/-- Taking tuples out of binds fails at exactly the parameters that are no names and the tuples
bound to tuples of another length. Otherwise binds are replaced by binds without tuples, nothing
else moves, and a second pass changes nothing. -/
theorem Module.flattenTuples_outcome (module : Module) :
    ((∃ e, module.flattenTuples = .error e) ↔
      (∃ name parameters body, Stmt.StandsIn (.procedure name parameters body) module ∧
        ∃ parameter ∈ parameters, parameter.isName = false) ∨
      ∃ target value, Stmt.StandsIn (.bind target value) module ∧ target.IsUneven value) ∧
    ∀ module', module.flattenTuples = .ok module' →
      (∀ target value, Stmt.StandsIn (.bind target value) module' → target.isTuple = false ∧ value.isTuple = false) ∧
      Stmt.KeepsPlaces module module' ∧ Module.flattenTuples module' = .ok module' := by
  have houtcome := Stmt.flattenTuplesAll_takesApart module (Supply.ofStem "_tup")
  have hrun : module.flattenTuples = (·.1) <$> (Stmt.flattenTuplesAll module).run (Supply.ofStem "_tup") :=
    StateT.run'_eq ..
  cases hresult : (Stmt.flattenTuplesAll module).run (Supply.ofStem "_tup") with
  | error e =>
    rw [hresult] at houtcome hrun
    refine ⟨⟨fun _ => ?_, fun _ => ⟨e, hrun⟩⟩, fun module' h => ?_⟩
    · obtain ⟨t, ht, hfaulty⟩ := houtcome
      cases t with
      | bind target value => exact .inr ⟨target, value, ht, hfaulty⟩
      | procedure name parameters body => exact .inl ⟨name, parameters, body, ht, hfaulty⟩
      | _ => exact hfaulty.elim
    · cases hrun.symm.trans h
  | ok r =>
    rw [hresult] at houtcome hrun
    refine ⟨⟨?_, ?_⟩, fun module' h => ?_⟩
    · rintro ⟨e, he⟩
      cases hrun.symm.trans he
    · rintro (⟨name, parameters, body, ht, hfaulty⟩ | ⟨target, value, ht, hfaulty⟩)
      · exact absurd hfaulty (houtcome.faultless _ ht)
      · exact absurd hfaulty (houtcome.faultless _ ht)
    · cases hrun.symm.trans h
      refine ⟨fun target value ht => ?_, houtcome.places, ?_⟩
      · simpa [Stmt.HasTuple] using (houtcome.flat _ ht).2
      · rw [Module.flattenTuples, StateT.run'_eq, Stmt.flattenTuplesAll_of_flat houtcome.flat]
        rfl

end DataParallel
