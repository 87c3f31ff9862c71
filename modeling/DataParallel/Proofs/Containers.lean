import DataParallel.Proofs.Reading.Units
import DataParallel.Proofs.Storage

/-! How storage is added to the entry procedure.

The storage behind a name is known from its bind on, to the end of the block. A view that is bound
to another brings its storage along if both have one, and a tuple gets storage where all its parts
have some. -/

namespace DataParallel

open List Lower Procedure

variable {p : Procedure} {names : List String}

theorem Procedure.namesAll_parameters (h : p.parameterNames? = some names) :
    Expr.namesAll p.parameters = names := by
  obtain ⟨name, parameters, body⟩ := p
  simp only [parameterNames?] at h ⊢
  induction parameters generalizing names with
  | nil =>
    cases h
    rfl
  | cons parameter parameters ih =>
    obtain ⟨x, hx, rest, hrest, rfl⟩ := Expr.mapM_symbol_cons.1 h
    rw [Expr.namesAll, Expr.names_of_symbol hx, ih hrest]
    rfl

/-- The parameters whose storage the host supplies to an entry procedure. -/
def Procedure.storedNames (p : Procedure) : List String :=
  p.parameters.filterMap fun parameter => if parameter.needsContainer then parameter.symbol? else none

/-- The names whose storage a procedure may know of in front of its body: the host supplies it, or
it is mentioned somewhere. -/
def Procedure.Known (p : Procedure) (w : String) : Prop :=
  w ∈ p.storedNames ∨ Name.container w ∈ p.toStmt.names

namespace Containers

variable {entry : String} {S : String → Prop} {declared : Scopes Unit} {state state' : State}
  {outer : List (Table Unit)} {target value : Expr} {first : List Stmt} {S' : String → Prop}
  {e e' : Expr} {es es' : List Expr}

theorem parameterStorages_eq (p : Procedure) :
    parameterStorages p.parameters = p.storedNames.map Name.container := by
  rw [parameterStorages, storedNames, map_filterMap]
  congr 1
  funext parameter
  split
  · rfl
  · rfl

/-- What stands for an argument in a tuple of storage: the storage of a name that carries sequences,
where it is known, and any other argument itself. -/
def StoredAs (S : String → Prop) (e e' : Expr) : Prop :=
  (∃ w, e.symbol? = some w ∧ e.needsContainer = true ∧ S w ∧ e.containerOf = .ok e') ∨
    (e.isName = true → e.needsContainer = false) ∧ e' = e

theorem StoredAs.mono (h : StoredAs S e e') (hS : ∀ w, S w → S' w) : StoredAs S' e e' :=
  h.imp_left fun hw => hw.imp fun w hw => ⟨hw.1, hw.2.1, hS w hw.2.2.1, hw.2.2.2⟩

theorem StoredAs.isStorageOf (h : StoredAs S e e') : e.isStorageOf e' = true := by
  rcases h with ⟨w, hw, -, -, hstorage⟩ | ⟨-, rfl⟩
  · obtain ⟨x, hx, hstorage⟩ := Expr.containerOf_ok hstorage
    simp [Expr.isStorageOf, hx, hstorage]
  · simp [Expr.isStorageOf]

theorem StoredAs.reads (h : StoredAs S e e') :
    ∀ z ∈ e'.names, z ∈ e.names ∨ ∃ w, S w ∧ z = Name.container w := by
  intro z hz
  rcases h with ⟨w, hw, -, hS, hstorage⟩ | ⟨-, rfl⟩
  · obtain ⟨x, hx, hstorage⟩ := Expr.containerOf_ok hstorage
    cases hw.symm.trans hx
    rw [Expr.names_of_symbol hstorage, mem_singleton] at hz
    exact .inr ⟨w, hS, hz⟩
  · exact .inl hz

theorem areStoragesOf_of_storedAs (h : Forall₂ (StoredAs S) es es') :
    Expr.areStoragesOf es es' = true := by
  induction h with
  | nil => rfl
  | cons he _ ih => rw [Expr.areStoragesOf, he.isStorageOf, ih]; rfl

theorem names_of_storedAs (h : Forall₂ (StoredAs S) es es') :
    ∀ z ∈ Expr.namesAll es', z ∈ Expr.namesAll es ∨ ∃ w, S w ∧ z = Name.container w := by
  induction h with
  | nil => exact nofun
  | cons he _ ih =>
    intro z hz
    rcases mem_append.1 hz with hz | hz
    · exact (he.reads z hz).imp_left (mem_append_left _)
    · exact (ih z hz).imp_left (mem_append_right _)

/-- How storage is added to a block, where `S` has the names whose storage is known in front of it.
-/
inductive Stores : (String → Prop) → List Stmt → List Stmt → Prop
  | nil {S : String → Prop} : Stores S [] []
  | bind {S : String → Prop} {target value : Expr} {rest out : List Stmt} :
    Stores S rest out → Stores S (.bind target value :: rest) (.bind target value :: out)
  | view {S : String → Prop} {x y : String} {target value storage storage' : Expr} {rest out : List Stmt} :
    target.symbol? = some x → value.symbol? = some y → S x → S y → storage.symbol? = some (Name.container x) →
    storage'.symbol? = some (Name.container y) → Stores S rest out →
    Stores S (.bind target value :: rest) (.bind storage storage' :: .bind target value :: out)
  | tuple {S : String → Prop} {x : String} {target storage function : Expr} {arguments arguments' : List Expr}
    {typing typing' : Typing} {rest out : List Stmt} :
    target.symbol? = some x → storage.symbol? = some (Name.container x) →
    function.symbol? = some Name.Snippet.makeTuple → Forall₂ (StoredAs S) arguments arguments' →
    Stores (Name.Also S [x]) rest out →
    Stores S (.bind target (.apply function arguments typing) :: rest)
      (.bind target (.apply function arguments typing) ::
        .bind storage (.applySnippet Name.Snippet.makeTuple arguments' typing') :: out)
  | ret {S : String → Prop} {value : Expr} {rest out : List Stmt} :
    Stores S rest out → Stores S (.ret value :: rest) (.ret value :: out)
  | branch {S : String → Prop} {test : Expr} {whenTrue whenTrue' whenFalse whenFalse' rest out : List Stmt} :
    Stores S whenTrue whenTrue' → Stores S whenFalse whenFalse' → Stores S rest out →
    Stores S (.branch test whenTrue whenFalse :: rest) (.branch test whenTrue' whenFalse' :: out)
  | loop {S : String → Prop} {test : Expr} {body body' rest out : List Stmt} : Stores S body body' → Stores S rest out →
    Stores S (.loop test body :: rest) (.loop test body' :: out)

theorem Stores.mono {block out : List Stmt} (h : Stores S block out) (hS : ∀ w, S w → S' w) :
    Stores S' block out := by
  induction h generalizing S' with
  | nil => exact .nil
  | bind _ ih => exact .bind (ih hS)
  | view hx hy hstored hstored' hs hs' _ ih => exact .view hx hy (hS _ hstored) (hS _ hstored') hs hs' (ih hS)
  | tuple hx hs hf hstored _ ih =>
    exact .tuple hx hs hf (hstored.imp fun _ _ he => he.mono hS) (ih fun w hw => hw.imp_left (hS w))
  | ret _ ih => exact .ret (ih hS)
  | branch _ _ _ iht ihf ih => exact .branch (iht hS) (ihf hS) (ih hS)
  | loop _ _ ihb ih => exact .loop (ihb hS) (ih hS)

theorem contains_declare {z : String} :
    (names.foldl Scopes.declare declared).contains z = true ↔ declared.contains z = true ∨ z ∈ names := by
  induction names generalizing declared with
  | nil => simp
  | cons name names ih =>
    rw [foldl_cons, ih, Scopes.declare, Scopes.contains, Scopes.get?_insert, mem_cons]
    by_cases hz : z = name
    · simp [hz]
    · simp [hz, Scopes.contains]

theorem outer_declare : (names.foldl Scopes.declare declared).outer = declared.outer := by
  induction names generalizing declared with
  | nil => rfl
  | cons name names ih => rw [foldl_cons, ih]; rfl

/-- The storage that a state knows, between two statements of the entry procedure. -/
structure State.Knows (state : State) (S : String → Prop) (outer : List (Table Unit)) : Prop where
  inEntry : state.inEntry = true
  stored : ∀ w, state.declared.contains (Name.container w) = true → S w
  outer : state.declared.outer = outer

theorem State.Knows.declare (h : state.Knows S outer)
    (hnames : ∀ w, Name.container w ∈ names → S w) :
    ({ state with declared := names.foldl Scopes.declare state.declared } : State).Knows S outer where
  inEntry := h.inEntry
  stored w hw := by
    rcases contains_declare.1 hw with hw | hw
    · exact h.stored w hw
    · exact hnames w hw
  outer := outer_declare.trans h.outer

structure Adds (S : String → Prop) (outer : List (Table Unit)) (s : Stmt) (first : List Stmt) (state : State)
    (S' : String → Prop) : Prop where
  knows : state.Knows S' outer
  known : ∀ w, S w → S' w
  stores : ∀ {rest out}, Stores S' rest out → Stores S (s :: rest) (first ++ out)

theorem storages_ok {isDeclared : String → Bool}
    (hS : ∀ w, isDeclared (Name.container w) = true → S w)
    {storages : List Expr} (h : Containers.storages isDeclared es = .ok (some storages)) :
    Forall₂ (StoredAs S) es storages := by
  induction es generalizing storages with
  | nil =>
    cases h
    exact .nil
  | cons e es ih =>
    have step : ∀ {e' : Expr}, (do return (← Containers.storages isDeclared es).map (e' :: ·)) = .ok (some storages) →
        StoredAs S e e' → Forall₂ (StoredAs S) (e :: es) storages := by
      intro e' h he
      obtain ⟨rest, hrest, h⟩ := Except.bind_ok_iff.1 h
      obtain ⟨storages', rfl, rfl⟩ := Option.map_eq_some_iff.1 (Except.ok.inj h)
      exact .cons he (ih hrest)
    rw [Containers.storages.eq_def] at h
    cases e with
    | literal => exact step h (.inr ⟨fun hname => absurd hname Bool.false_ne_true, rfl⟩)
    | name symbol typing =>
      dsimp only at h
      split at h
      · rename_i hview
        exact step h (.inr ⟨fun _ => by simpa using hview, rfl⟩)
      · rename_i hview
        split at h
        · rename_i hdeclared
          obtain ⟨storage, hstorage, h⟩ := Except.bind_ok_iff.1 h
          exact step h (.inl ⟨symbol, rfl, by simpa using hview, hS symbol hdeclared, hstorage⟩)
        · cases h
    | _ => cases h

theorem Adds.plain (hk : state.Knows S outer) :
    Adds S outer (.bind target value) [.bind target value] state S :=
  ⟨hk, fun _ hw => hw, .bind⟩

theorem inScope_ok {α : Type} {steps : Backing α} {a : α}
    (h : (inScope steps).run state = .ok (a, state')) : ∃ inner : State,
    steps.run { state with declared := state.declared.enter } = .ok (a, inner) ∧
      (inner.inEntry = state.inEntry → inner.declared.outer = state.declared.enter.outer → state' = state) := by
  obtain ⟨_, state₁, henter, hsteps⟩ := run_bind_ok_iff.1 h
  cases henter
  obtain ⟨a', inner, hrun, hleave⟩ := run_bind_ok_iff.1 hsteps
  obtain ⟨_, state₂, hmodify, hreturn⟩ := run_bind_ok_iff.1 hleave
  cases hmodify
  cases hreturn
  refine ⟨inner, hrun, fun hentry houter => ?_⟩
  obtain ⟨inEntry, declared⟩ := state
  obtain ⟨inEntry', ⟨table, outer⟩⟩ := inner
  cases hentry
  cases houter
  rfl

theorem State.Knows.enter (h : state.Knows S outer) :
    ({ state with declared := state.declared.enter } : State).Knows S (state.declared.inner :: outer) where
  inEntry := h.inEntry
  stored w hw := h.stored w (by simpa [Scopes.contains] using hw)
  outer := by rw [← h.outer]; rfl

theorem backTuple_stores (h : (backTuple target value).run state = .ok (first, state'))
    (hk : state.Knows S outer) (hcallee : value.callee? = some Name.Snippet.makeTuple) :
    ∃ S', Adds S outer (.bind target value) first state' S' := by
  obtain ⟨layouts, state₁, hlayouts, hsteps⟩ := run_bind_ok_iff.1 h
  obtain ⟨-, rfl⟩ := (run_mapM_lift_ok_iff Expr.expectLayout).1 hlayouts
  dsimp only at hsteps
  split at hsteps
  · cases hsteps
    exact ⟨S, .plain hk⟩
  · obtain ⟨isDeclared, state₂, hget, hstorages⟩ := run_bind_ok_iff.1 hsteps
    cases hget
    obtain ⟨stored, state₃, hlift, hbind⟩ := run_bind_ok_iff.1 hstorages
    obtain ⟨hstored, rfl⟩ := run_lift_ok_iff.1 hlift
    cases stored with
    | none =>
      cases hbind
      exact ⟨S, .plain hk⟩
    | some arguments' =>
      obtain ⟨x, state₄, hname, hdeclare⟩ := run_bind_ok_iff.1 hbind
      obtain ⟨hx, rfl⟩ := run_lift_ok_iff.1 hname
      have hx := Expr.expectName_ok.1 hx
      obtain ⟨_, state₅, hmodify, hreturn⟩ := run_bind_ok_iff.1 hdeclare
      cases hmodify
      cases hreturn
      cases value with
      | apply function arguments typing =>
        refine ⟨Name.Also S [x], ⟨hk.inEntry, fun w hw => ?_, outer_declare.trans hk.outer⟩, fun _ hw => .inl hw,
          .tuple hx rfl hcallee (storages_ok hk.stored hstored)⟩
        rcases contains_declare.1 hw with hw | hw
        · exact .inl (hk.stored w hw)
        · exact .inr (mem_singleton.2 (Name.container_inj (mem_singleton.1 hw)))
      | _ => cases hcallee

theorem backBind_stores (h : (backBind target value).run state = .ok (first, state'))
    (hk : state.Knows S outer)
    (hnames : ∀ w, Name.container w ∈ (Stmt.bind target value).names → S w) :
    ∃ S', Adds S outer (.bind target value) first state' S' := by
  have htarget := hk.declare (fun w hw => hnames w (mem_append_left _ hw) : ∀ w, _ ∈ target.names → S w)
  have hboth := htarget.declare (fun w hw => hnames w (mem_append_right _ hw) : ∀ w, _ ∈ value.names → S w)
  obtain ⟨_, state₁, hdeclare, h⟩ := run_bind_ok_iff.1 h
  cases hdeclare
  split at h
  · obtain ⟨isDeclared, state₂, hget, h⟩ := run_bind_ok_iff.1 h
    cases hget
    obtain ⟨statements, state₃, hlift, h⟩ := run_bind_ok_iff.1 h
    obtain ⟨hrebind, rfl⟩ := run_lift_ok_iff.1 hlift
    obtain ⟨_, state₄, hdeclare, hreturn⟩ := run_bind_ok_iff.1 h
    cases hdeclare
    cases hreturn
    obtain ⟨x, y, hx, hy, ⟨-, rfl⟩ | ⟨hstored, hstored', storage, storage', hs, hs', rfl⟩⟩ := Stmt.rebindView_ok hrebind
    · exact ⟨S, .plain hboth⟩
    · exact ⟨S, hboth, fun _ hw => hw, .view hx hy (htarget.stored x hstored) (htarget.stored y hstored') hs hs'⟩
  · obtain ⟨_, state₂, hdeclare, h⟩ := run_bind_ok_iff.1 h
    cases hdeclare
    split at h
    · exact backTuple_stores h hboth ‹_›
    · cases h
      exact ⟨S, .plain hboth⟩

mutual

theorem backStmt_stores : ∀ {s : Stmt} {S : String → Prop} {outer : List (Table Unit)}
    {state state' : State} {first : List Stmt}, (backStmt entry s).run state = .ok (first, state') →
    state.Knows S outer → s.isPlain = true → (∀ w, Name.container w ∈ s.names → S w) →
    ∃ S', Adds S outer s first state' S'
  | .bind target value, S, outer, state, state', first, h, hk, _, hnames => by
    rw [backStmt] at h
    obtain ⟨_, state₁, hget, h⟩ := run_bind_ok_iff.1 h
    cases hget
    rw [if_pos hk.inEntry] at h
    exact backBind_stores h hk hnames
  | .ret value, S, outer, state, state', first, h, hk, _, hnames => by
    rw [backStmt] at h
    obtain ⟨_, state₁, hdeclare, h⟩ := run_bind_ok_iff.1 h
    cases hdeclare
    cases h
    exact ⟨S, hk.declare hnames, fun _ hw => hw, .ret⟩
  | .branch test whenTrue whenFalse, S, outer, state, state', first, h, hk, hplain, hnames => by
    rw [Stmt.isPlain, Bool.and_eq_true] at hplain
    rw [backStmt] at h
    obtain ⟨_, state₁, hdeclare, h⟩ := run_bind_ok_iff.1 h
    cases hdeclare
    have htest := hk.declare (fun w hw => hnames w (by simp [hw]) : ∀ w, _ ∈ test.names → S w)
    obtain ⟨whenTrue', state₂, htrue, h⟩ := run_bind_ok_iff.1 h
    obtain ⟨whenFalse', state₃, hfalse, h⟩ := run_bind_ok_iff.1 h
    cases h
    obtain ⟨inner, htrue, hleave⟩ := inScope_ok htrue
    obtain ⟨hstores₁, hentry, houter⟩ := backStmts_stores htrue htest.enter hplain.1 fun w hw => hnames w (by simp [hw])
    cases hleave (hentry.trans htest.inEntry.symm) (houter.trans htest.enter.outer.symm)
    obtain ⟨inner, hfalse, hleave⟩ := inScope_ok hfalse
    obtain ⟨hstores₂, hentry, houter⟩ := backStmts_stores hfalse htest.enter hplain.2
      fun w hw => hnames w (by simp [hw])
    cases hleave (hentry.trans htest.inEntry.symm) (houter.trans htest.enter.outer.symm)
    exact ⟨S, htest, fun _ hw => hw, .branch hstores₁ hstores₂⟩
  | .loop test body, S, outer, state, state', first, h, hk, hplain, hnames => by
    rw [backStmt] at h
    obtain ⟨_, state₁, hdeclare, h⟩ := run_bind_ok_iff.1 h
    cases hdeclare
    have htest := hk.declare (fun w hw => hnames w (by simp [hw]) : ∀ w, _ ∈ test.names → S w)
    obtain ⟨body', state₂, hbody, h⟩ := run_bind_ok_iff.1 h
    cases h
    obtain ⟨inner, hbody, hleave⟩ := inScope_ok hbody
    obtain ⟨hstores, hentry, houter⟩ := backStmts_stores hbody htest.enter hplain
      fun w hw => hnames w (mem_append_right _ hw)
    cases hleave (hentry.trans htest.inEntry.symm) (houter.trans htest.enter.outer.symm)
    exact ⟨S, htest, fun _ hw => hw, .loop hstores⟩

theorem backStmts_stores : ∀ {block : List Stmt} {S : String → Prop} {outer : List (Table Unit)}
    {state state' : State} {out : List Stmt}, (backStmts entry block).run state = .ok (out, state') →
    state.Knows S outer → Stmt.arePlain block = true → (∀ w, Name.container w ∈ Stmt.namesAll block → S w) →
    Stores S block out ∧ state'.inEntry = true ∧ state'.declared.outer = outer
  | [], _, _, _, _, _, h, hk, _, _ => by
    cases h
    exact ⟨.nil, hk.inEntry, hk.outer⟩
  | s :: rest, S, outer, state, state', out, h, hk, hplain, hnames => by
    rw [Stmt.arePlain, Bool.and_eq_true] at hplain
    rw [backStmts] at h
    obtain ⟨first, state₁, hfirst, h⟩ := run_bind_ok_iff.1 h
    obtain ⟨out', state₂, hrest, h⟩ := run_bind_ok_iff.1 h
    cases h
    obtain ⟨S', hadds⟩ := backStmt_stores hfirst hk hplain.1 fun w hw => hnames w (mem_append_left _ hw)
    obtain ⟨hstores, hentry, houter⟩ := backStmts_stores hrest hadds.knows hplain.2
      fun w hw => hadds.known w (hnames w (mem_append_right _ hw))
    exact ⟨hadds.stores hstores, hentry, houter⟩

end

theorem backStmt_stores_procedure (hplain : Stmt.arePlain p.body = true)
    (h : (backStmt entry p.toStmt).run state = .ok (first, state'))
    (hempty : ∀ w, state.declared.contains (Name.container w) = false) :
    ∃ body, first = [({ p with body } : Procedure).toStmt] ∧ state'.declared = state.declared ∧
      (p.symbol? = some entry → Stores p.Known p.body body) ∧
      (p.symbol? ≠ some entry → body = p.body) := by
  rw [toStmt, backStmt] at h
  obtain ⟨_, state₁, hmodify, h⟩ := run_bind_ok_iff.1 h
  cases hmodify
  obtain ⟨_, state₁, hget, h⟩ := run_bind_ok_iff.1 h
  cases hget
  by_cases hentry : p.symbol? = some entry
  · have hin : decide (p.name.symbol? = some entry) = true := decide_eq_true hentry
    rw [if_pos hin] at h
    obtain ⟨body, state₂, hbody, h⟩ := run_bind_ok_iff.1 h
    obtain ⟨_, state₃, hmodify, h⟩ := run_bind_ok_iff.1 h
    cases hmodify
    cases h
    obtain ⟨inner, hbody, hleave⟩ := inScope_ok hbody
    obtain ⟨_, state₃, hdeclare, hbody⟩ := run_bind_ok_iff.1 hbody
    cases hdeclare
    have hknows : State.Knows
        ⟨decide (p.name.symbol? = some entry),
          (parameterStorages p.parameters ++ p.name.names ++
          Expr.namesAll p.parameters).foldl Scopes.declare state.declared.enter⟩
        p.Known (state.declared.inner :: state.declared.outer) := by
      refine ⟨hin, fun w hw => ?_, outer_declare⟩
      rw [contains_declare, parameterStorages_eq, Scopes.contains, Scopes.get?_enter] at hw
      rcases hw with hw | hw
      · have hnone := hempty w
        rw [Scopes.contains, hw] at hnone
        cases hnone
      · simp only [mem_append] at hw
        rcases hw with (hw | hw) | hw
        · obtain ⟨w', hw', heq⟩ := mem_map.1 hw
          exact .inl (Name.container_inj heq ▸ hw')
        · exact .inr (by simp [toStmt, hw])
        · exact .inr (by simp [toStmt, hw])
    obtain ⟨inner', hbody, hleave'⟩ := inScope_ok hbody
    obtain ⟨hstores, hinner, houter⟩ := backStmts_stores hbody hknows.enter hplain fun w hw => .inr (by
      simp [toStmt, hw])
    cases hleave' (hinner.trans hin.symm) (houter.trans hknows.enter.outer.symm)
    cases hleave rfl hknows.outer
    exact ⟨body, rfl, rfl, fun _ => hstores, absurd hentry⟩
  · have hin : decide (p.name.symbol? = some entry) = false := decide_eq_false hentry
    rw [if_neg (Bool.eq_false_iff.1 hin)] at h
    cases h
    exact ⟨p.body, rfl, rfl, fun he => absurd he hentry, fun _ => rfl⟩

end Containers

end DataParallel
