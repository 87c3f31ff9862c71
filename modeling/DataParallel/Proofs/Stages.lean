import DataParallel.Lowering.Lowered
import DataParallel.Proofs.Containers
import DataParallel.Proofs.Layouts
import DataParallel.Proofs.Phases.Reads
import DataParallel.Proofs.TailCalls
import DataParallel.Proofs.Unpacking

/-! What becomes of one procedure, from the text to the lowered module.

Every step rewrites the procedures of a module where they stand. Tuples are taken out of binds,
storage is added to the entry procedure, boundaries are put in front of statements, and a tail call
becomes a loop. -/

namespace DataParallel

open DataParallel.Expr List Lower DataParallel.Module Procedure Name Stmt
open Name (With)
variable {S : String → Prop} {block out : List Stmt}

namespace Expr

theorem ReadOnly.names {N G : String → Prop} (hG : ∀ z, G z → N z) (h : ReadOnly N G es) :
    ∀ z ∈ namesAll es, N z := by
  induction es using list_induction with
  | nil => simp
  | cons e es ihe ih => cases e <;> simp_all [ReadOnly, ReadsOnly, or_imp, forall_and]

theorem ReadsOnly.names {e : Expr} {N G : String → Prop} (hG : ∀ z, G z → N z)
    (h : e.ReadsOnly N G) : ∀ z ∈ e.names, N z := by
  simpa using @ReadOnly.names [e] N G hG ⟨h, trivial⟩

theorem ReadOnly.of_names {N G : String → Prop} (hG : ∀ z, N z → G z) (h : ∀ z ∈ namesAll es, N z) :
    ReadOnly N G es := by
  induction es using list_induction with
  | nil => trivial
  | cons e es ihe ih => cases e <;> simp_all [ReadOnly, ReadsOnly, or_imp, forall_and]

theorem ReadsOnly.of_names {e : Expr} {N G : String → Prop} (hG : ∀ z, N z → G z)
    (h : ∀ z ∈ e.names, N z) : e.ReadsOnly N G :=
  (@ReadOnly.of_names [e] N G hG (by simpa using h)).1

end Expr

namespace Stmt

mutual

/-- Whether a statement is one of a procedure, where binds have names and tuples of names as
targets. -/
def isPatterned : Stmt → Bool
  | .bind target _ => target.isBinder
  | .ret _ => true
  | .branch _ whenTrue whenFalse => arePatterned whenTrue && arePatterned whenFalse
  | .loop _ body => arePatterned body
  | _ => false

def arePatterned : List Stmt → Bool
  | [] => true
  | s :: rest => isPatterned s && arePatterned rest

end

theorem AreRead.arePatterned {known : String → Prop} (h : AreRead known block) :
    arePatterned block = true := by
  induction block using block_induction generalizing known with
  | nil => rfl
  | cons s => cases s <;> grind [AreRead, IsRead, suites, isPatterned, arePatterned]

theorem arePatterned_laid (block : List Stmt) :
    arePatterned (laidAll block) = arePatterned block := by
  induction block using block_induction with
  | nil => rfl
  | cons s rest ihs ih =>
    rw [laidAll, arePatterned, arePatterned, ih]
    cases s <;> simp_all [laid, isPatterned, suites, isBinder_laid]

/-- Binds that stand for one bind of some targets to a value, where `N` can be read in front of
them. -/
inductive Spreads (G : String → Prop) : (String → Prop) → List String → List Stmt → Prop
  | nil {N : String → Prop} : Spreads G N [] []
  | target {N : String → Prop} {x : String} {xs : List String} {target value : Expr} {rest : List Stmt} :
    target.symbol? = some x → value.ReadsOnly N G → Spreads G N xs rest →
    Spreads G N (x :: xs) (.bind target value :: rest)
  | temporary {N : String → Prop} {n : Nat} {xs : List String} {target value : Expr} {rest : List Stmt} :
    target.symbol? = some ("_tup" ++ toString n) → value.ReadsOnly N G →
    Spreads G (With N ("_tup" ++ toString n)) xs rest → Spreads G N xs (.bind target value :: rest)

section Spreads
variable {N N' G : String → Prop} {xs xs' : List String} {out out' : List Stmt}

/-- The snippets that take tuples apart and put them together. -/
structure HasTuples (G : String → Prop) : Prop where
  tuple : G Snippet.makeTuple
  project : ∀ index, G (Snippet.project index)

theorem readsOnly_fieldBinds {source : Expr} {pair : Expr × Expr} (hG : HasTuples G)
    (hsource : source.ReadsOnly N G)
    {index : Nat} {targets : List Expr} (hpair : pair ∈ fieldBinds source index targets) : pair.2.ReadsOnly N G := by
  induction targets generalizing index with
  | nil => cases hpair
  | cons target targets ih =>
    rcases mem_cons.1 hpair with rfl | hpair
    · exact readsOnly_applySnippet (hG.project index) fun e he => mem_singleton.1 he ▸ hsource
    · exact ih hpair

theorem Unpacks.spreads {supply supply' : Supply} {work : List (Expr × Expr)} {binds : List Stmt}
    (hG : HasTuples G) (h : Unpacks supply work binds supply') (hstem : supply.stem = "_tup")
    (hbinders : areBinders (work.map Prod.fst) = true) (hreads : ∀ pair ∈ work, pair.2.ReadsOnly N G) :
    Spreads G N (Expr.namesAll (work.map Prod.fst)) binds ∧ supply'.stem = "_tup" := by
  induction h generalizing N with
  | nil => exact ⟨.nil, hstem⟩
  | pairs hlength _ ih =>
    simp only [map_append, map_fst_zip (Nat.le_of_eq hlength), namesAll_append, areBinders_append] at ih
    obtain ⟨hvalue, hwork⟩ := forall_mem_cons.1 hreads
    exact ih hstem hbinders (forall_mem_append.2
      ⟨fun pair hpair => readOnly_iff.1 hvalue pair.2 (of_mem_zip hpair).2, hwork⟩)
  | @call _ _ value _ _ supply _ _ _ ih =>
    simp only [map_append, fieldBinds_fst, namesAll_append, areBinders_append] at ih
    obtain ⟨hvalue, hwork⟩ := forall_mem_cons.1 hreads
    have hnext : supply.next.1 = "_tup" ++ toString supply.counter := by rw [← hstem]; rfl
    have hsource : (value.renamed supply.next.1).ReadsOnly (With N supply.next.1) G := .inr rfl
    have hrest := ih hstem hbinders (forall_mem_append.2
      ⟨fun pair => readsOnly_fieldBinds hG hsource, fun pair hpair => (hwork pair hpair).mono fun _ hz => .inl hz⟩)
    rw [hnext] at hrest ⊢
    exact hrest.imp_left (.temporary rfl hvalue)
  | fields _ _ _ ih =>
    simp only [map_append, fieldBinds_fst, namesAll_append, areBinders_append] at ih
    obtain ⟨hvalue, hwork⟩ := forall_mem_cons.1 hreads
    exact ih hstem hbinders (forall_mem_append.2 ⟨fun pair => readsOnly_fieldBinds hG hvalue, hwork⟩)
  | @bind target value _ _ _ _ _ _ ih =>
    obtain ⟨hvalue, hwork⟩ := forall_mem_cons.1 hreads
    have hpacked : value.packed.ReadsOnly N G := by
      cases value with
      | tuple => exact readsOnly_applySnippet hG.tuple (readOnly_iff.1 hvalue)
      | _ => exact hvalue
    cases target with
    | name => exact (ih hstem hbinders hwork).imp_left (.target rfl hpacked)
    | tuple => contradiction
    | _ => cases hbinders

end Spreads
variable {xs : List String} {G N : String → Prop} {out block : List Stmt}

theorem Spreads.mentions (h : Spreads G N xs out) (hG : ∀ z, G z → N z)
    (hxs : ∀ x ∈ xs, N x) (hN : ∀ n : Nat, N ("_tup" ++ toString n)) : ∀ z ∈ namesAll out, N z := by
  induction h with
  | nil => exact nofun
  | @target _ x _ _ _ _ hx hvalue _ ih =>
    intro z hz
    simp only [namesAll, names, names_of_symbol hx, mem_append, mem_singleton] at hz
    rcases hz with (rfl | hz) | hz
    · exact hxs z mem_cons_self
    · exact hvalue.names hG z hz
    · exact ih hG (fun x hx => hxs x (mem_cons_of_mem _ hx)) hN z hz
  | @temporary N n _ _ _ _ hx hvalue _ ih =>
    have hsame : ∀ z, With N ("_tup" ++ toString n) z → N z := by
      rintro z (hz | rfl)
      · exact hz
      · exact hN n
    intro z hz
    simp only [namesAll, names, names_of_symbol hx, mem_append, mem_singleton] at hz
    rcases hz with (rfl | hz) | hz
    · exact hN n
    · exact hvalue.names hG z hz
    · exact hsame z (ih (fun z hz => .inl (hG z hz)) (fun x hx => .inl (hxs x hx)) (fun n => .inl (hN n)) z hz)

inductive FlattensTo : List Stmt → List Stmt → Prop
  | nil : FlattensTo [] []
  | bind {target value : Expr} {rest first out : List Stmt} :
    (∀ G N, HasTuples G → value.ReadsOnly N G → Spreads G N target.names first) → FlattensTo rest out →
    FlattensTo (.bind target value :: rest) (first ++ out)
  | ret {value : Expr} {rest out : List Stmt} : FlattensTo rest out →
    FlattensTo (.ret value :: rest) (.ret value :: out)
  | branch {test : Expr} {whenTrue whenTrue' whenFalse whenFalse' rest out : List Stmt} :
    FlattensTo whenTrue whenTrue' → FlattensTo whenFalse whenFalse' → FlattensTo rest out →
    FlattensTo (.branch test whenTrue whenFalse :: rest) (.branch test whenTrue' whenFalse' :: out)
  | loop {test : Expr} {body body' rest out : List Stmt} : FlattensTo body body' → FlattensTo rest out →
    FlattensTo (.loop test body :: rest) (.loop test body' :: out)

theorem arePlain_append {block' : List Stmt} :
    arePlain (block ++ block') = (arePlain block && arePlain block') := by
  induction block with
  | nil => rfl
  | cons s block ih => rw [cons_append, arePlain, arePlain, ih, Bool.and_assoc]

theorem Spreads.arePlain (h : Spreads G N xs out) : arePlain out = true := by
  induction h with
  | nil => rfl
  | target _ _ _ ih | temporary _ _ _ ih => rw [Stmt.arePlain, ih]; rfl

theorem FlattensTo.arePlain (h : FlattensTo block out) : arePlain out = true := by
  induction h with
  | nil => rfl
  | @bind _ value _ _ _ hspreads _ ih =>
    have hany : value.ReadsOnly (fun _ => True) fun _ => True := .of_names (fun _ _ => trivial) fun _ _ => trivial
    rw [arePlain_append, (hspreads _ _ ⟨trivial, fun _ => trivial⟩ hany).arePlain, ih]
    rfl
  | ret _ ih => rw [Stmt.arePlain, ih]; rfl
  | branch _ _ _ iht ihf ih => rw [Stmt.arePlain, isPlain, iht, ihf, ih]; rfl
  | loop _ _ ihb ih => rw [Stmt.arePlain, isPlain, ihb, ih]; rfl

theorem FlattensTo.mentions {Q : String → Prop} (h : FlattensTo block out) (hQ : HasTuples Q)
    (htemporary : ∀ n : Nat, Q ("_tup" ++ toString n)) (hnames : ∀ z ∈ namesAll block, Q z) :
    ∀ z ∈ namesAll out, Q z := by
  induction h with
  | nil => exact hnames
  | @bind _ value _ _ _ hspreads _ ih =>
    intro z hz
    have hvalue : ∀ z ∈ value.names, Q z := fun z hz => hnames z (by simp [hz])
    rcases mem_namesAll_append.1 hz with hz | hz
    · exact (hspreads _ _ hQ (.of_names (fun _ hz => hz) hvalue)).mentions (fun _ hz => hz)
        (fun x hx => hnames x (by simp [hx])) htemporary z hz
    · exact ih (fun z hz => hnames z (mem_append_right _ hz)) z hz
  | ret _ ih | branch _ _ _ iht ihf ih | loop _ _ ihb ih =>
    simp only [namesAll, names, mem_append] at hnames ⊢
    grind

theorem flattenTuples_bind {target value : Expr} (hbinder : target.isBinder = true)
    {supply supply' : Supply} {first : List Stmt} (hstem : supply.stem = "_tup")
    (h : (flattenTuples (.bind target value)).run supply = .ok (first, supply')) :
    (∀ G N, HasTuples G → value.ReadsOnly N G → Spreads G N target.names first) ∧ supply'.stem = "_tup" := by
  have hspreads : ∀ {G N}, HasTuples G → value.ReadsOnly N G →
      Spreads G N target.names first ∧ supply'.stem = "_tup" := by
    intro G N hG hvalue
    rw [flattenTuples] at h
    split at h
    · simpa using ((flattenBind_unpacks target value supply).unpacks h).spreads hG hstem
        (by simpa [areBinders] using hbinder) (forall_mem_singleton.2 hvalue)
    · cases h
      cases target with
      | name x typing => exact ⟨.target rfl hvalue .nil, hstem⟩
      | tuple => simp_all [Expr.isTuple]
      | _ => cases hbinder
  have hany : value.ReadsOnly (fun _ => True) fun _ => True := .of_names (fun _ _ => trivial) fun _ _ => trivial
  exact ⟨fun G N hG hvalue => (hspreads hG hvalue).1, (hspreads ⟨trivial, fun _ => trivial⟩ hany).2⟩

mutual

theorem flattenTuples_flattens :
    ∀ {s : Stmt}, s.isPatterned = true → ∀ {supply supply' : Supply} {first : List Stmt},
    supply.stem = "_tup" → s.flattenTuples.run supply = .ok (first, supply') →
    (∀ {rest out}, FlattensTo rest out → FlattensTo (s :: rest) (first ++ out)) ∧ supply'.stem = "_tup"
  | .bind target value, hnames, _, _, _, hstem, h => by
    obtain ⟨hspreads, hstem'⟩ := flattenTuples_bind hnames hstem h
    exact ⟨.bind hspreads, hstem'⟩
  | .ret value, _, _, _, _, hstem, h => by
    cases h
    exact ⟨.ret, hstem⟩
  | .branch test whenTrue whenFalse, hnames, supply, supply', first, hstem, h => by
    rw [isPatterned, Bool.and_eq_true] at hnames
    rw [flattenTuples] at h
    obtain ⟨whenTrue', supply₁, htrue, h⟩ := run_bind_ok_iff.1 h
    obtain ⟨whenFalse', supply₂, hfalse, h⟩ := run_bind_ok_iff.1 h
    cases h
    obtain ⟨htrue, hstem₁⟩ := flattenTuplesAll_flattens hnames.1 hstem htrue
    obtain ⟨hfalse, hstem₂⟩ := flattenTuplesAll_flattens hnames.2 hstem₁ hfalse
    exact ⟨.branch htrue hfalse, hstem₂⟩
  | .loop test body, hnames, supply, supply', first, hstem, h => by
    rw [flattenTuples] at h
    obtain ⟨body', supply₁, hbody, h⟩ := run_bind_ok_iff.1 h
    cases h
    obtain ⟨hbody, hstem₁⟩ := flattenTuplesAll_flattens hnames hstem hbody
    exact ⟨.loop hbody, hstem₁⟩

theorem flattenTuplesAll_flattens : ∀ {block : List Stmt}, arePatterned block = true →
    ∀ {supply supply' : Supply} {out : List Stmt}, supply.stem = "_tup" →
    (flattenTuplesAll block).run supply = .ok (out, supply') → FlattensTo block out ∧ supply'.stem = "_tup"
  | [], _, _, _, _, hstem, h => by
    cases h
    exact ⟨.nil, hstem⟩
  | s :: rest, hnames, supply, supply', out, hstem, h => by
    rw [arePatterned, Bool.and_eq_true] at hnames
    rw [flattenTuplesAll] at h
    obtain ⟨first, supply₁, hfirst, h⟩ := run_bind_ok_iff.1 h
    obtain ⟨out', supply₂, hrest, h⟩ := run_bind_ok_iff.1 h
    cases h
    obtain ⟨hfirst, hstem₁⟩ := flattenTuples_flattens hnames.1 hstem hfirst
    obtain ⟨hrest, hstem₂⟩ := flattenTuplesAll_flattens hnames.2 hstem₁ hrest
    exact ⟨hfirst hrest, hstem₂⟩

end

end Stmt

theorem Containers.Stores.arePlain (h : Stores S block out) : arePlain out = true := by
  induction h with
  | nil => rfl
  | bind _ ih | ret _ ih => rw [Stmt.arePlain, ih]; rfl
  | view _ _ _ _ _ _ _ ih | tuple _ _ _ _ _ ih => rw [Stmt.arePlain, Stmt.arePlain, ih]; rfl
  | branch _ _ _ iht ihf ih => rw [Stmt.arePlain, Stmt.isPlain, iht, ihf, ih]; rfl
  | loop _ _ ihb ih => rw [Stmt.arePlain, Stmt.isPlain, ihb, ih]; rfl

theorem Expr.names_of_storages : ∀ {es es' : List Expr}, areStoragesOf es es' = true →
    ∀ z ∈ namesAll es', z ∈ namesAll es ∨ ∃ w ∈ namesAll es, z = container w
  | [], [], _, z, hz => absurd hz not_mem_nil
  | e :: es, e' :: es', h, z, hz => by
    rw [areStoragesOf, Bool.and_eq_true] at h
    rcases mem_append.1 hz with hz | hz
    · obtain ⟨hstorage, -⟩ := h
      rw [isStorageOf, Bool.or_eq_true, decide_eq_true_eq] at hstorage
      rcases hstorage with rfl | hstorage
      · exact .inl (mem_append_left _ hz)
      · cases hx : e.symbol? with
        | none => rw [hx] at hstorage; cases hstorage
        | some x =>
          rw [hx, Option.any_some, decide_eq_true_eq] at hstorage
          rw [names_of_symbol hstorage] at hz
          exact .inr ⟨x, by simp [names_of_symbol hx], mem_singleton.1 hz⟩
    · refine (names_of_storages h.2 z hz).imp (mem_append_right _) ?_
      exact fun hw => hw.imp fun w hw => hw.imp_left (mem_append_right _)

theorem Containers.Stores.mentions (h : Stores S block out) :
    ∀ z ∈ namesAll out, z ∈ namesAll block ∨ ∃ w ∈ namesAll block, z = container w := by
  induction h with
  | nil => exact fun z hz => .inl hz
  | bind _ ih | ret _ ih =>
    intro z hz
    simp only [Stmt.namesAll, mem_append] at hz ⊢
    grind
  | view hx hy _ _ hs hs' _ _ =>
    intro z hz
    simp only [Stmt.namesAll, Stmt.names, names_of_symbol hx, names_of_symbol hy, names_of_symbol hs,
      names_of_symbol hs', mem_append, mem_singleton] at hz ⊢
    grind
  | @tuple S x target storage function arguments arguments' typing typing' rest out hx hs hf hstored _ ih =>
    intro z hz
    simp only [Stmt.namesAll, Stmt.names, Expr.names, names_of_symbol hx, names_of_symbol hf,
      names_of_symbol hs, names_applySnippet, mem_append, mem_singleton] at hz ⊢
    have := names_of_storages (areStoragesOf_of_storedAs hstored)
    grind
  | branch _ _ _ iht ihf ih | loop _ _ iht ih =>
    intro z hz
    simp only [Stmt.namesAll, Stmt.names, mem_append] at hz ⊢
    grind

/-- A procedure with the layouts of its types. -/
def Procedure.laid (p : Procedure) : Procedure :=
  ⟨p.name.laid, laidAll p.parameters, laidAll p.body⟩

def Procedure.withBody (p : Procedure) (body : List Stmt) : Procedure := { p with body }

theorem Procedure.symbol?_laid (p : Procedure) : p.laid.symbol? = p.symbol? := by
  obtain ⟨name, parameters, body⟩ := p
  cases name <;> rfl

namespace Module
variable {module module' : Module} {entry : String} {Q : Procedure → Prop}

def All (Q : Procedure → Prop) (module : Module) : Prop := ∀ st ∈ module, ∃ p : Procedure, st = p.toStmt ∧ Q p

theorem Rewrites.all {R : Procedure → Procedure → Prop} {Q' : Procedure → Prop}
    (h : Rewrites R module module')
    (hall : module.All Q) (hR : ∀ p p', Q p → R p p' → Q' p') : module'.All Q' := by
  intro st hst
  obtain ⟨i, hi⟩ := mem_iff_getElem?.1 hst
  obtain ⟨p, p', rfl, hp, hrewritten⟩ := h.source hi
  obtain ⟨q, hq, hQ⟩ := hall _ (mem_iff_getElem?.2 ⟨i, hp⟩)
  cases Rewrites.toStmt_inj hq
  exact ⟨p', rfl, hR p p' hQ hrewritten⟩

theorem Rewrites.findProcedure? {R : Procedure → Procedure → Prop} {x : String}
    (h : Rewrites R module module') (hR : ∀ p p', R p p' → p'.symbol? = p.symbol?) :
    Option.Rel R (module.findProcedure? x) (module'.findProcedure? x) := by
  induction h with
  | nil => exact .none
  | @cons p p' rest rest' hp _ ih =>
    show Option.Rel R (find? _ (p :: procedures rest)) (find? _ (p' :: procedures rest'))
    rw [find?_cons, find?_cons, hR p p' hp]
    split
    · exact .some hp
    · exact ih

theorem All.isPlain (h : module.All Q) (hQ : ∀ p, Q p → Stmt.arePlain p.body = true) :
    module.isPlain = true := by
  rw [Module.isPlain, all_eq_true]
  intro st hst
  obtain ⟨p, rfl, hp⟩ := h st hst
  exact hQ p hp

theorem assignLayouts_rewrites (hall : module.All fun _ => True) :
    Rewrites (fun p p' => p' = p.laid) module module.assignLayouts := by
  rw [assignLayouts_eq]
  induction module with
  | nil => exact .nil
  | cons st rest ih =>
    obtain ⟨p, rfl, -⟩ := hall _ mem_cons_self
    exact @Rewrites.cons _ p p.laid _ _ rfl (ih fun st hst => hall st (mem_cons_of_mem _ hst))

/-- A pass that takes the procedures of a module one after the other rewrites them one by one. `K`
is what it keeps true of its state. -/
theorem Rewrites.of_run {σ : Type} (pass : Module → Lower σ Module) (K : σ → Prop)
    {R : Procedure → Procedure → Prop} {s s' : σ} {out : Module} (hnil : pass [] = pure [])
    (hcons : ∀ {p : Procedure} {rest s s' out}, Q p → K s → (pass (p.toStmt :: rest)).run s = .ok (out, s') →
      ∃ p' out' t t', R p p' ∧ K t ∧ (pass rest).run t = .ok (out', t') ∧ out = p'.toStmt :: out')
    (hall : module.All Q) (hs : K s) (h : (pass module).run s = .ok (out, s')) : Rewrites R module out := by
  induction module generalizing s s' out with
  | nil =>
    rw [hnil] at h
    cases h
    exact .nil
  | cons st rest ih =>
    obtain ⟨p, rfl, hp⟩ := hall _ mem_cons_self
    obtain ⟨p', out', t, t', hR, ht, hrest, rfl⟩ := hcons hp hs h
    exact .cons hR (ih (fun st hst => hall st (mem_cons_of_mem _ hst)) ht hrest)

theorem flattenTuples_rewrites (hall : module.All fun p => arePatterned p.body = true)
    (h : module.flattenTuples = .ok module') :
    Rewrites (fun p p' => ∃ body, p' = p.withBody body ∧ FlattensTo p.body body) module module' := by
  obtain ⟨supply', h⟩ := run'_ok h
  refine .of_run flattenTuplesAll (·.stem = "_tup") rfl (fun {p rest supply _ out} hp hstem h => ?_) hall rfl h
  rw [flattenTuplesAll] at h
  obtain ⟨first, supply₁, hfirst, h⟩ := run_bind_ok_iff.1 h
  obtain ⟨out', supply₂, hrest, h⟩ := run_bind_ok_iff.1 h
  cases h
  rw [toStmt, Stmt.flattenTuples] at hfirst
  split at hfirst
  · cases hfirst
  · obtain ⟨body, supply₃, hbody, hfirst⟩ := run_bind_ok_iff.1 hfirst
    cases hfirst
    obtain ⟨hflattens, hstem₁⟩ := flattenTuplesAll_flattens hp hstem hbody
    exact ⟨p.withBody body, out', _, _, ⟨body, rfl, hflattens⟩, hstem₁, hrest, rfl⟩

theorem backEntry_rewrites (hall : module.All fun p => arePlain p.body = true)
    (h : module.backEntry entry = .ok module') :
    Rewrites (fun p p' => ∃ body, p' = p.withBody body ∧
      (p.symbol? = some entry → Containers.Stores p.Known p.body body) ∧
      (p.symbol? ≠ some entry → body = p.body)) module module' := by
  obtain ⟨state', h⟩ := run'_ok h
  obtain ⟨inner, h, -⟩ := Containers.inScope_ok h
  refine .of_run (Containers.backStmts entry) (fun state => ∀ w, state.declared.contains (container w) = false) rfl
    (fun {p rest state _ out} hp hempty h => ?_) hall (fun _ => rfl) h
  rw [Containers.backStmts] at h
  obtain ⟨first, state₁, hfirst, h⟩ := run_bind_ok_iff.1 h
  obtain ⟨out', state₂, hrest, h⟩ := run_bind_ok_iff.1 h
  cases h
  obtain ⟨body, rfl, hdeclared, hstores, hkept⟩ := Containers.backStmt_stores_procedure hp hfirst hempty
  exact ⟨p.withBody body, out', _, _, ⟨body, rfl, hstores, hkept⟩, fun w => hdeclared ▸ hempty w, hrest, rfl⟩

end Module

/-- How a procedure is given a loop in place of its tail call, if it has one. -/
inductive Procedure.Loops (entry : String) : Procedure → Procedure → Prop where
  | same {p : Procedure} : Loops entry p p
  | loop {p : Procedure} {symbol : String} {call : TailCall} {supply : Supply} {state : TailCall.State}
    {assigned : List Stmt} : p.symbol? = some symbol → TailCall.ofBody? symbol p.body = some call →
    supply.stem = "_iter" → call.arguments.length = p.parameters.length →
    (TailCall.reassign p.parameters call.arguments).run ⟨supply, p.declaredNames (symbol = entry)⟩ =
      .ok (assigned, state) →
    Loops entry p (p.withBody (call.leading ++
      .loop call.loopTest (call.step ++ assigned ++ call.leading) :: call.base))

namespace TailCall
variable {names : List String} {N N' G : String → Prop} {st st' : State} {stored : List Stmt}
  {value : Expr} {declared : List String} {x : String} {statements : List Stmt} {es : List Expr}

/-- The names that are bound where the arguments of a call are assigned to the parameters `names`:
parameters, temporaries, and the storage behind these. -/
def Assigns (names : List String) (_ : String → Prop) (y : String) : Prop :=
  (y ∈ names ∨ ∃ n : Nat, y = "_iter" ++ toString n) ∨
    ∃ w, (w ∈ names ∨ ∃ n : Nat, w = "_iter" ++ toString n) ∧ y = container w

/-- What stands for an argument where the parameters are assigned: itself, or a temporary. -/
def IsStaged (es : List Expr) (value : Expr) : Prop :=
  value ∈ es ∨ ∃ n : Nat, value.symbol? = some ("_iter" ++ toString n)

/-- Storage that is declared can be read together with the view in front of it. -/
def Stored (declared : List String) (es : List Expr) (N : String → Prop) : Prop :=
  ∀ value y, IsStaged es value → value.symbol? = some y → container y ∈ declared → N (container y)

theorem Stored.mono (h : Stored declared es N) (hsubset : ∀ z, N z → N' z) :
    Stored declared es N' :=
  fun value y hvalue hy hd => hsubset _ (h value y hvalue hy hd)

theorem rebindView_binds {isDeclared : String → Bool} {target : Expr} {x y : String}
    (h : rebindView isDeclared target value = .ok statements) (hx : target.symbol? = some x)
    (hy : value.symbol? = some y) (hview : x ∈ names ∨ ∃ n : Nat, x = "_iter" ++ toString n) (hvalue : N y)
    (hstorage : isDeclared (container y) = true → N (container y)) :
    ∃ N', Binds (Assigns names) G N statements N' ∧ N' x ∧
      (isDeclared (container x) = true → isDeclared (container y) = true → N' (container x)) := by
  obtain ⟨x', y', hx', hy', hcases⟩ := rebindView_ok h
  cases hx.symm.trans hx'
  cases hy.symm.trans hy'
  rcases hcases with ⟨hnot, rfl⟩ | ⟨hxd, hyd, storage, storage', hs, hs', rfl⟩
  · exact ⟨_, .cons hx (.inl hview) ((readsOnly_of_symbol hy).2 hvalue) .nil, .inr rfl,
      fun hxd hyd => absurd ⟨hxd, hyd⟩ hnot⟩
  · exact ⟨_, .cons hs (.inr ⟨x, hview, rfl⟩) ((readsOnly_of_symbol hs').2 (hstorage hyd))
      (.cons hx (.inl hview) ((readsOnly_of_symbol hy).2 (.inl hvalue)) .nil), .inr rfl, fun _ _ => .inl (.inr rfl)⟩

theorem stash_binds {argument : Expr} (h : (stash argument).run st = .ok ((value, stored), st'))
    (hstem : st.temporaries.stem = "_iter") (hmem : argument ∈ es) (hargument : argument.ReadsOnly N G)
    (hstored : Stored st.declared es N) :
    st'.temporaries.stem = "_iter" ∧ ∃ N', Binds (Assigns names) G N stored N' ∧ Stored st'.declared es N' ∧
      IsStaged es value ∧ value.ReadsOnly N' G := by
  have htemporary : ∃ n : Nat, st.temporaries.next.1 = "_iter" ++ toString n := ⟨st.temporaries.counter, by
    rw [← hstem]
    rfl⟩
  have hstaged : IsStaged es (argument.renamed st.temporaries.next.1) := .inr (htemporary.imp fun _ => congrArg some)
  obtain ⟨rfl, hsupply, ⟨y, hy, hd, hdeclared, hrebind⟩ | ⟨-, hdeclared, rfl⟩⟩ := stash_cases h
  · obtain ⟨N', hbinds, hx, hcontainer⟩ := @rebindView_binds names N G _ _ _ _ _ _ hrebind rfl hy (.inr htemporary)
      ((readsOnly_of_symbol hy).1 hargument) fun _ => hstored argument y (.inl hmem) hy hd
    rw [hdeclared] at hcontainer ⊢
    refine ⟨hsupply ▸ hstem, N', hbinds, fun value z hvalue hz hd' => ?_, hstaged, hx⟩
    rcases mem_cons.1 hd' with hd' | hd'
    · rw [hd']
      exact hcontainer (by simp) (by simp [hd])
    · exact hstored.mono hbinds.subset value z hvalue hz hd'
  · have hbinds : Binds (Assigns names) G N [.bind (argument.renamed st.temporaries.next.1) argument] _ :=
      .cons rfl (.inl (.inr htemporary)) hargument .nil
    exact ⟨hsupply ▸ hstem, _, hbinds, hdeclared ▸ hstored.mono hbinds.subset, hstaged, .inr rfl⟩

theorem stage_binds :
    ∀ {pairs : List (String × Expr)} {assigned : List String} {st st' : State} {N : String → Prop}
    {values : List Expr} {stored : List Stmt}, (stage assigned pairs).run st = .ok ((values, stored), st') →
    st.temporaries.stem = "_iter" → (∀ p ∈ pairs, p.2 ∈ es ∧ p.2.ReadsOnly N G) → Stored st.declared es N →
    st'.temporaries.stem = "_iter" ∧ ∃ N', Binds (Assigns names) G N stored N' ∧ Stored st'.declared es N' ∧
      ∀ e ∈ values, IsStaged es e ∧ e.ReadsOnly N' G
  | [], assigned, st, st', N, values, stored, h, hstem, _, hstored => by
    cases h
    exact ⟨hstem, N, .nil, hstored, by simp⟩
  | (x, argument) :: rest, assigned, st, st', N, values, stored, h, hstem, harguments, hstored => by
    obtain ⟨value, first, st₁, values', stored', rfl, rfl, hrest, hfirst⟩ := stage_cons h
    obtain ⟨⟨hmem, hargument⟩, harguments⟩ := forall_mem_cons.1 harguments
    have hone : st₁.temporaries.stem = "_iter" ∧ ∃ N', Binds (Assigns names) G N first N' ∧
        Stored st₁.declared es N' ∧ IsStaged es value ∧ value.ReadsOnly N' G := by
      rcases hfirst with hfirst | ⟨-, rfl, rfl, rfl⟩
      · exact stash_binds hfirst hstem hmem hargument hstored
      · exact ⟨hstem, N, .nil, hstored, .inl hmem, hargument⟩
    obtain ⟨hstem₁, N₁, hbinds₁, hstored₁, hstaged, hvalue⟩ := hone
    obtain ⟨hstem₂, N₂, hbinds₂, hstored₂, hvalues⟩ := stage_binds hrest hstem₁
      (fun p hp => (harguments p hp).imp_right (·.mono hbinds₁.subset)) hstored₁
    exact ⟨hstem₂, N₂, hbinds₁.append hbinds₂, hstored₂,
      forall_mem_cons.2 ⟨⟨hstaged, hvalue.mono hbinds₂.subset⟩, hvalues⟩⟩

theorem assign_binds {parameter : Expr} (h : assign declared parameter x value = .ok statements)
    (hx : parameter.symbol? = some x) (hmem : x ∈ names) (hstaged : IsStaged es value) (hvalue : value.ReadsOnly N G)
    (hstored : Stored declared es N) : ∃ N', Binds (Assigns names) G N statements N' := by
  unfold assign at h
  split at h
  · rename_i source hsource
    split at h
    · cases h
      exact ⟨N, .nil⟩
    · obtain ⟨N', hbinds, -⟩ := @rebindView_binds names N G _ _ _ _ _ _ h hx hsource (.inl hmem)
        ((readsOnly_of_symbol hsource).1 hvalue) fun hd => hstored value source hstaged hsource (by simpa using hd)
      exact ⟨N', hbinds⟩
  · cases h
    exact ⟨_, .cons hx (.inl (.inl hmem)) hvalue .nil⟩

theorem assignAll_binds : ∀ {parameters values : List Expr} {xs : List String}
    {statements : List (List Stmt)} {N : String → Prop},
    ((parameters.zip xs).zip values).mapM (fun p => assign declared p.1.1 p.1.2 p.2) = .ok statements →
    parameters.mapM Expr.symbol? = some xs → (∀ x ∈ xs, x ∈ names) →
    (∀ e ∈ values, IsStaged es e ∧ e.ReadsOnly N G) → Stored declared es N →
    ∃ N', Stmt.Binds (Assigns names) G N statements.flatten N'
  | [], _, _, _, N, h, _, _, _, _ => by
    cases h
    exact ⟨N, .nil⟩
  | _ :: _, [], _, _, N, h, _, _, _, _ => by
    rw [zip_nil_right] at h
    cases h
    exact ⟨N, .nil⟩
  | parameter :: parameters, value :: values, _, statements, N, h, hxs, hnames, hvalues, hstored => by
    obtain ⟨x, hx, xs, hrest, rfl⟩ := mapM_symbol_cons.1 hxs
    simp only [zip_cons_cons, mapM_cons, Except.bind_ok_iff] at h
    obtain ⟨first, hfirst, others, hothers, h⟩ := h
    cases h
    obtain ⟨⟨hstaged, hvalue⟩, hvalues⟩ := forall_mem_cons.1 hvalues
    obtain ⟨N₁, hbinds₁⟩ := assign_binds hfirst hx (hnames x mem_cons_self) hstaged hvalue hstored
    obtain ⟨N₂, hbinds₂⟩ := assignAll_binds hothers hrest (fun y hy => hnames y (mem_cons_of_mem _ hy))
      (fun e he => (hvalues e he).imp_right (·.mono hbinds₁.subset)) (hstored.mono hbinds₁.subset)
    exact ⟨N₂, hbinds₁.append hbinds₂⟩

theorem reassign_binds {parameters arguments : List Expr}
    (h : (reassign parameters arguments).run st = .ok (statements, st')) (hstem : st.temporaries.stem = "_iter") :
    st'.temporaries.stem = "_iter" ∧ ∀ {names : List String} {N G : String → Prop},
      parameters.mapM Expr.symbol? = some names → (∀ e ∈ arguments, e.ReadsOnly N G) →
      Stored st.declared arguments N → ∃ N', Stmt.Binds (Assigns names) G N statements N' := by
  obtain ⟨names', values, stored, assigned, hnames', hstage, hassign, rfl⟩ := reassign_ok h
  have hany : ∀ e : Expr, e.ReadsOnly (fun _ => True) fun _ => True := fun e =>
    .of_names (fun _ _ => trivial) fun _ _ => trivial
  refine ⟨(@stage_binds [] (fun _ => True) arguments _ _ _ _ (fun _ => True) _ _ hstage hstem
    (fun p hp => ⟨(of_mem_zip hp).2, hany p.2⟩) fun _ _ _ _ _ => trivial).1,
    fun {names N G} hnames harguments hstored => ?_⟩
  cases hnames.symm.trans hnames'
  obtain ⟨-, N₁, hbinds₁, hstored₁, hvalues⟩ := @stage_binds _ G arguments _ _ _ _ N _ _ hstage hstem
    (fun p hp => ⟨(of_mem_zip hp).2, harguments p.2 (of_mem_zip hp).2⟩) hstored
  obtain ⟨N₂, hbinds₂⟩ := assignAll_binds hassign hnames (fun _ hx => hx) hvalues hstored₁
  exact ⟨N₂, hbinds₁.append hbinds₂⟩

end TailCall
variable {entry : String} {p p' : Procedure} {module module' flat backed : Module} {registry : Registry}
  {lowered : Lowered}

theorem Procedure.loopTailCall_loops {supply supply' : Supply}
    (hstem : supply.stem = "_iter") (h : (p.loopTailCall entry).run supply = .ok (p', supply')) :
    p.Loops entry p' ∧ supply'.stem = "_iter" := by
  cases hfound : p.symbol?.bind fun symbol => (TailCall.ofBody? symbol p.body).map fun call => (symbol, call) with
  | none =>
    simp only [loopTailCall, hfound] at h
    cases h
    exact ⟨.same, hstem⟩
  | some found =>
    obtain ⟨symbol, hsymbol, hcall⟩ := Option.bind_eq_some_iff.1 hfound
    obtain ⟨call, hcall, -⟩ := Option.map_eq_some_iff.1 hcall
    obtain ⟨harity, assigned, state, hassigned, rfl, rfl⟩ := (loopTailCall_ok_iff hsymbol hcall).1 h
    exact ⟨.loop hsymbol hcall hstem harity hassigned, (TailCall.reassign_binds hassigned hstem).1⟩

theorem Module.loopTailCalls_rewrites (hall : module.All fun _ => True)
    (h : module.loopTailCalls entry = .ok module') : Rewrites (Loops entry) module module' := by
  obtain ⟨supply', h⟩ := run'_ok h
  refine .of_run (loopTailCallsAll entry) (·.stem = "_iter") rfl (fun {p rest supply _ out} _ hstem h => ?_) hall rfl h
  rw [loopTailCallsAll] at h
  obtain ⟨first, supply₁, hfirst, h⟩ := run_bind_ok_iff.1 h
  obtain ⟨out', supply₂, hrest, h⟩ := run_bind_ok_iff.1 h
  cases h
  rw [toStmt, Stmt.loopTailCalls] at hfirst
  obtain ⟨p', supply₃, hp, hfirst⟩ := run_bind_ok_iff.1 hfirst
  cases hfirst
  obtain ⟨hloops, hstem₁⟩ := loopTailCall_loops hstem hp
  exact ⟨p', out', _, _, hloops, hstem₁, hrest, rfl⟩

theorem Module.lower_ok (h : module.lower registry entry = .ok lowered) :
    ∃ flat backed analyzed looped : Module,
    module.assignLayouts.flattenTuples = .ok flat ∧ flat.backEntry entry = .ok backed ∧
      backed.insertBoundaries registry entry = .ok analyzed ∧ analyzed.loopTailCalls entry = .ok looped ∧
      looped.wrapEntry entry = .ok (lowered.module, lowered.wrapper) := by
  rw [lower] at h
  split at h
  · cases h
  · obtain ⟨flat, hflat, h⟩ := Except.bind_ok_iff.1 h
    obtain ⟨backed, hbacked, h⟩ := Except.bind_ok_iff.1 h
    obtain ⟨analyzed, hanalyzed, h⟩ := Except.bind_ok_iff.1 h
    obtain ⟨looped, hlooped, h⟩ := Except.bind_ok_iff.1 h
    obtain ⟨wrapped, hwrapped, h⟩ := Except.bind_ok_iff.1 h
    cases h
    exact ⟨flat, backed, analyzed, looped, hflat, hbacked, hanalyzed, hlooped, hwrapped⟩

theorem Module.wrapEntry_ok {wrapper : Wrapper}
    (h : module.wrapEntry entry = .ok (module', wrapper)) :
    ∃ p wrapping, module.findProcedure? entry = some p ∧
      Wrapper.ofProcedure entry p = .ok (wrapping, wrapper) ∧ module' = module ++ [wrapping.toStmt] := by
  rw [wrapEntry] at h
  split at h
  · cases h
  · rename_i p hfound
    obtain ⟨⟨wrapping, wrapper'⟩, hwrapping, h⟩ := Except.bind_ok_iff.1 h
    cases h
    exact ⟨p, wrapping, hfound, hwrapping, rfl⟩

/-- What a procedure of a text is once tuples have been taken out of its binds and storage has been
added. -/
def Procedure.Backs (entry : String) (p p' : Procedure) : Prop :=
  ∃ flat stored : List Stmt, p' = p.laid.withBody stored ∧ FlattensTo (laidAll p.body) flat ∧
    (p.symbol? = some entry → Containers.Stores (p.laid.withBody flat).Known flat stored) ∧
    (p.symbol? ≠ some entry → stored = flat)

theorem Procedure.Backs.arePlain (h : p.Backs entry p') : arePlain p'.body = true := by
  obtain ⟨flat, stored, rfl, hflattens, hentry, hother⟩ := h
  show arePlain stored = true
  by_cases hsymbol : p.symbol? = some entry
  · exact (hentry hsymbol).arePlain
  · rw [hother hsymbol]
    exact hflattens.arePlain

theorem Procedure.Backs.symbol?_eq (h : p.Backs entry p') : p'.symbol? = p.symbol? := by
  obtain ⟨flat, stored, rfl, -⟩ := h
  exact p.symbol?_laid

theorem Module.backs_rewrites (hall : module.All fun p => arePatterned p.body = true)
    (hflat : module.assignLayouts.flattenTuples = .ok flat) (hbacked : flat.backEntry entry = .ok backed) :
    Rewrites (Backs entry) module backed := by
  have hlaid := assignLayouts_rewrites fun st hst => (hall st hst).imp fun _ h => ⟨h.1, trivial⟩
  have hpatterned : module.assignLayouts.All fun p => arePatterned p.body = true := by
    refine hlaid.all hall fun p p' hp hp' => ?_
    rwa [hp', Procedure.laid, arePatterned_laid]
  have hflattens := flattenTuples_rewrites hpatterned hflat
  have hplain : flat.All fun p => arePlain p.body = true :=
    hflattens.all hpatterned fun p p' _ ⟨body, hp', hbody⟩ => by rw [hp']; exact hbody.arePlain
  refine ((hlaid.trans hflattens).trans (backEntry_rewrites hplain hbacked)).mono ?_
  rintro p p' ⟨r₂, ⟨r₁, hr₁, -, body, hr₂, hflattens⟩, -, stored, hr₃, hentry, hother⟩
  subst hr₁ hr₂ hr₃
  have hsymbol : (p.laid.withBody body).symbol? = p.symbol? := p.symbol?_laid
  rw [hsymbol] at hentry hother
  exact ⟨body, stored, rfl, hflattens, hentry, hother⟩

/-- What becomes of a procedure of a text. The module `backed` is the one to which storage has been
added. -/
structure Procedure.Lowers (backed : Module) (registry : Registry) (entry : String) (p p' : Procedure) : Prop where
  stages : ∃ flat stored analyzed : List Stmt, FlattensTo (Stmt.laidAll p.body) flat ∧
    (p.symbol? = some entry → Containers.Stores (p.laid.withBody flat).Known flat stored) ∧
    (p.symbol? ≠ some entry → stored = flat) ∧ (p.laid.withBody stored).toStmt ∈ backed ∧
    Phases.ProcedureRewritten (Phases.moduleContext backed registry entry) (p.laid.withBody stored)
      (p.laid.withBody analyzed) ∧
    (p.laid.withBody analyzed).Loops entry p'

theorem Procedure.Lowers.header
    (h : p.Lowers backed registry entry p') : p'.name = p.name.laid ∧ p'.parameters = laidAll p.parameters := by
  obtain ⟨flat, stored, analyzed, -, -, -, -, -, hloops⟩ := h.stages
  cases hloops with
  | same => exact ⟨rfl, rfl⟩
  | loop => exact ⟨rfl, rfl⟩

theorem Procedure.Lowers.symbol?_eq (h : p.Lowers backed registry entry p') :
    p'.symbol? = p.symbol? := by
  rw [symbol?, h.header.1]
  exact p.symbol?_laid

theorem Module.lowers_rewrites {analyzed looped : Module}
    (hall : module.All fun p => arePatterned p.body = true)
    (hflat : module.assignLayouts.flattenTuples = .ok flat) (hbacked : flat.backEntry entry = .ok backed)
    (hanalyzed : backed.insertBoundaries registry entry = .ok analyzed)
    (hlooped : analyzed.loopTailCalls entry = .ok looped) :
    Rewrites (Lowers backed registry entry) module looped := by
  have hbacks := backs_rewrites hall hflat hbacked
  have hplain : backed.All fun p => Stmt.arePlain p.body = true := hbacks.all hall fun _ _ _ h => h.arePlain
  have hrewritten := insertBoundaries_rewrites (hplain.isPlain fun _ hp => hp) hanalyzed
  have hprocedures : analyzed.All fun _ => True := hrewritten.all hplain fun _ _ _ _ => trivial
  refine ((hbacks.trans hrewritten).trans (loopTailCalls_rewrites hprocedures hlooped)).mono ?_
  rintro p p' ⟨r₄, ⟨r₃, ⟨body, stored, hr₃, hflattens, hentry, hother⟩, hmem, hr₄⟩, -, hloops⟩
  subst hr₃
  obtain ⟨hname, hparameters, -⟩ := id hr₄
  have hsame : r₄ = p.laid.withBody r₄.body := by
    cases r₄
    cases hname
    cases hparameters
    rfl
  rw [hsame] at hr₄ hloops
  exact ⟨body, stored, r₄.body, hflattens, hentry, hother, hmem, hr₄, hloops⟩

/-- Lowering takes every procedure of a text through all steps, and puts the wrapper behind them. -/
theorem Module.lower_stages
    (hall : module.All fun p => arePatterned p.body = true) (h : module.lower registry entry = .ok lowered) :
    ∃ (flat backed looped : Module) (p wrapping : Procedure),
      module.assignLayouts.flattenTuples = .ok flat ∧ flat.backEntry entry = .ok backed ∧
      Rewrites (Lowers backed registry entry) module looped ∧
      looped.findProcedure? entry = some p ∧
      Wrapper.ofProcedure entry p = .ok (wrapping, lowered.wrapper) ∧
      lowered.module = looped ++ [wrapping.toStmt] := by
  obtain ⟨flat, backed, analyzed, looped, hflat, hbacked, hanalyzed, hlooped, hwrapped⟩ := lower_ok h
  obtain ⟨p, wrapping, hfound, hwrapping, hmodule⟩ := wrapEntry_ok hwrapped
  exact ⟨flat, backed, looped, p, wrapping, hflat, hbacked,
    lowers_rewrites hall hflat hbacked hanalyzed hlooped, hfound, hwrapping, hmodule⟩

end DataParallel
