import Mathlib.Algebra.Group.Action.Defs
import Mathlib.Algebra.Order.BigOperators.Group.Finset
import Mathlib.Data.Finite.Prod
import Mathlib.Data.Set.Finite.Lattice
import DataParallel.Proofs.Phases.AnalyzedProcedures
import DataParallel.Proofs.Phases.Completions

/-! Loops settle.

What the analysis does depends on completions by finitely many tests only: a completion has three
values, and apart from that it is asked whether a name has one. So all trips through the body of a
loop together, which start from the same tables, have finitely many outcomes, and insert completions
for names in a finite set. Every trip but the last raises the completion of one of them. -/

namespace DataParallel

open List Phases.State Lower

namespace Completion
variable {a b : Completion}

/-- The place of a completion in the order `complete`, `unknown`, `incomplete`. -/
def rank : Completion → Nat
  | .complete => 0
  | .unknown => 1
  | .incomplete => 2

theorem rank_merge (a b : Completion) :
    (a.merge b).rank = max a.rank b.rank := by cases a <;> cases b <;> rfl

theorem rank_le_of_merge (h : a.merge b = a) : b.rank ≤ a.rank := by
  rw [← h, rank_merge]
  exact Nat.le_max_right _ _

theorem rank_lt_of_merge (h : a.merge b ≠ a) : a.rank < (a.merge b).rank := by
  cases a <;> cases b <;> simp_all [merge, rank]

theorem rank_le_two (a : Completion) : a.rank ≤ 2 := by cases a <;> decide

instance : Finite Completion :=
  .of_injective (fun c => (decide (c = .complete), decide (c = .incomplete))) fun a b h => by
    cases a <;> cases b <;> simp_all

end Completion

namespace Phases

variable {Γ : Context} {s t u : State} {names : Set String} {x : String} {α : Type} {m : Analysis α} {n : Nat}
  {steps : Analysis (List Stmt)} {test : Expr} {head : Table Completion} {out : List Stmt}
  {joined : List (String × Completion)}

namespace State
variable {names' : Set String}

/-- A state without completions and what else has finitely many values that matter. -/
def frame (s : State) : State :=
  { s with active := false, inEntry := false, completions := ∅, selfResults := [] }

def below (s : State) : List (Table (Option Expr)) × List (Table (Option (List Expr))) × List (Table (Option Expr)) ×
    List (Table Unit) :=
  (s.substitutions.outer, s.components.outer, s.closures.outer, s.bound.outer)

theorem Grows.below (h : Grows s t) : t.below = s.below := by
  have houtside : State.below t.outside = State.below s.outside := by rw [h.outside]
  exact houtside

/-- `t` has the outer scopes of `s`, and completions were inserted for some of the names. -/
structure Extends (names : Set String) (s t : State) : Prop where
  below : t.below = s.below
  completions : ∃ entries : List (String × Completion), (∀ entry ∈ entries, entry.1 ∈ names) ∧
    t.completions = entries.foldl (fun scopes entry => scopes.insert entry.1 entry.2) s.completions

namespace Extends

theorem of_eq (hbelow : t.below = s.below) (h : t.completions = s.completions) :
    Extends names s t :=
  ⟨hbelow, [], nofun, h⟩

theorem refl (s : State) : Extends names s s := of_eq rfl rfl

theorem trans (h : Extends names s t) (h' : Extends names t u) : Extends names s u := by
  obtain ⟨hbelow, entries, hnames, hentries⟩ := h
  obtain ⟨hbelow', entries', hnames', hentries'⟩ := h'
  refine ⟨hbelow'.trans hbelow, entries ++ entries', fun entry hentry => ?_, ?_⟩
  · exact (mem_append.1 hentry).elim (hnames entry) (hnames' entry)
  · rw [hentries', hentries, foldl_append]

theorem mono (h : Extends names s t) (hnames : names ⊆ names') : Extends names' s t := by
  obtain ⟨hbelow, entries, hentries, hcompletions⟩ := h
  exact ⟨hbelow, entries, fun entry hentry => hnames (hentries entry hentry), hcompletions⟩

theorem inserts (h : Extends names s t) :
    Inserts s t := h.completions.imp fun _ hentries => hentries.2

theorem keys (h : Extends names s t) (hx : x ∈ t.completions.inner.keys) :
    x ∈ s.completions.inner.keys ∨ x ∈ names := by
  obtain ⟨-, entries, hnames, hentries⟩ := h
  rw [hentries] at hx
  generalize s.completions = scopes at hx ⊢
  clear hentries
  induction entries generalizing scopes with
  | nil => exact .inl hx
  | cons entry rest ih =>
    rcases ih (fun e he => hnames e (mem_cons_of_mem entry he)) _ hx with hx | hx
    · rcases Table.mem_keys_put.1 hx with rfl | hx
      · exact .inr (hnames entry mem_cons_self)
      · exact .inl hx
    · exact .inr hx

theorem setCompletions (s : State) {completions : List (String × Completion)}
    (h : ∀ entry ∈ completions, entry.1 ∈ names) : Extends names s (s.setCompletions completions) :=
  ⟨(grows_setCompletions s completions).below, completions, h, completions_setCompletions completions⟩

theorem invalidateAll (s : State) (xs : List String) : Extends names s (s.invalidateAll xs) :=
  .of_eq (grows_invalidateAll s xs).below (completions_invalidateAll xs)

end Extends

section Frames
variable (h : s.frame = t.frame)
include h

theorem current_of_frame (e : Expr) : s.current e = t.current e :=
  show s.frame.current e = t.frame.current e by rw [h]

theorem closureOf?_of_frame (x : String) : s.closureOf? x = t.closureOf? x :=
  show s.frame.closureOf? x = t.frame.closureOf? x by rw [h]

theorem componentsOf?_of_frame (x : String) : s.componentsOf? x = t.componentsOf? x :=
  show s.frame.componentsOf? x = t.frame.componentsOf? x by rw [h]

theorem budget_of_frame (e : Expr) : s.budget e = t.budget e :=
  show s.frame.budget e = t.frame.budget e by rw [h]

end Frames

theorem frame_setCompletions (s : State) (completions : List (String × Completion)) :
    (s.setCompletions completions).frame = s.frame := by
  induction completions generalizing s with
  | nil => rfl
  | cons entry rest ih => exact ih _

theorem frame_invalidateAll (s : State) (names : List String) :
    (s.invalidateAll names).frame = s.frame.invalidateAll names := by
  induction names generalizing s with
  | nil => rfl
  | cons name rest ih => exact ih _

end State

/-- From states with the same frame there are finitely many outcomes, and completions are inserted
for finitely many names. -/
def Finitary {α : Type} (m : Analysis α) : Prop :=
  ∀ f, ∃ (outcomes : Set (α × State)) (names : Set String), outcomes.Finite ∧ names.Finite ∧
    ∀ {s a t}, s.frame = f → m.run s = .ok (a, t) → (a, t.frame) ∈ outcomes ∧ s.Extends names t

namespace Finitary
variable {β γ : Type}

theorem step (outcome : State → α × State) (names : State → List String)
    (h : ∀ {s a t}, m.run s = .ok (a, t) → (a, t.frame) = outcome s.frame ∧ s.Extends {x | x ∈ names s.frame} t) :
    Finitary m := by
  refine fun f => ⟨{outcome f}, {x | x ∈ names f}, Set.finite_singleton _, (names f).finite_toSet, ?_⟩
  rintro s a t rfl hrun
  exact h hrun

protected theorem pure (a : α) : Finitary (pure a : Analysis α) := by
  refine .step (fun f => (a, f)) (fun _ => []) fun hrun => ?_
  cases hrun
  exact ⟨rfl, .refl _⟩

protected theorem throw (e : LoweringError) : Finitary (throw e : Analysis α) := by
  refine fun f => ⟨∅, ∅, Set.finite_empty, Set.finite_empty, fun _ hrun => ?_⟩
  cases hrun

theorem lift (x : Except LoweringError α) : Finitary (liftM x : Analysis α) := by
  cases x with
  | error e => exact .throw e
  | ok a => exact .pure a

protected theorem bind {k : α → Analysis β} (hm : Finitary m) (hk : ∀ a, Finitary (k a)) : Finitary (m >>= k) := by
  intro f
  obtain ⟨outcomes, names, hfinite, hnames, h⟩ := hm f
  choose outcomes' names' hfinite' hnames' h' using fun p : α × State => hk p.1 p.2
  refine ⟨⋃ p ∈ outcomes, outcomes' p, names ∪ ⋃ p ∈ outcomes, names' p, hfinite.biUnion fun p _ => hfinite' p,
    hnames.union (hfinite.biUnion fun p _ => hnames' p), fun hs hrun => ?_⟩
  obtain ⟨a, t, ha, hrun⟩ := run_bind_ok_iff.1 hrun
  obtain ⟨hmem, hextends⟩ := h hs ha
  obtain ⟨hmem', hextends'⟩ := h' (a, t.frame) rfl hrun
  refine ⟨Set.mem_biUnion hmem hmem', (hextends.mono Set.subset_union_left).trans (hextends'.mono ?_)⟩
  exact (Set.subset_biUnion_of_mem hmem).trans Set.subset_union_right

theorem get_bind {k : State → Analysis α} (view : State → γ) (hview : (Set.range view).Finite)
    (hk : ∀ s, Finitary (k s)) (hsame : ∀ s s' : State, s.frame = s'.frame → view s = view s' → k s = k s') :
    Finitary (get >>= k) := by
  intro f
  have : Nonempty State := ⟨.initial⟩
  choose outcomes names hfinite hnames h using fun s => hk s f
  -- one state stands for all that give the same answer
  have hanswers : (view '' {s | s.frame = f}).Finite := hview.subset (Set.image_subset_range _ _)
  let states := Function.invFunOn view {s | s.frame = f}
  refine ⟨⋃ c ∈ view '' {s | s.frame = f}, outcomes (states c), ⋃ c ∈ view '' {s | s.frame = f}, names (states c),
    hanswers.biUnion fun c _ => hfinite _, hanswers.biUnion fun c _ => hnames _, fun {s a t} hs hrun => ?_⟩
  have hmem : view s ∈ view '' {s | s.frame = f} := ⟨s, hs, rfl⟩
  have hstate : (states (view s)).frame = f := Function.invFunOn_mem hmem
  have hequal : k s = k (states (view s)) := hsame _ _ (hs.trans hstate.symm) (Function.invFunOn_eq hmem).symm
  have hrun : (k s).run s = .ok (a, t) := hrun
  rw [hequal] at hrun
  obtain ⟨houtcome, hextends⟩ := h _ hs hrun
  exact ⟨Set.mem_biUnion hmem houtcome, hextends.mono (Set.subset_biUnion_of_mem (u := fun c => names (states c)) hmem)⟩

theorem mapM {f : γ → Analysis α} (hf : ∀ x, Finitary (f x)) (xs : List γ) :
    Finitary (xs.mapM f) := by
  induction xs with
  | nil => exact .pure []
  | cons x xs ih =>
    rw [mapM_cons]
    exact (hf x).bind fun y => ih.bind fun ys => .pure _

theorem modifies {g : State → State} (names : List String)
    (hframe : ∀ s, (g s).frame = (g s.frame).frame)
    (hg : ∀ s : State, s.Extends {x | x ∈ names} (g s)) : Finitary (modify g : Analysis PUnit) := by
  refine .step (fun f => (⟨⟩, (g f).frame)) (fun _ => names) fun hrun => ?_
  cases hrun
  exact ⟨congrArg _ (hframe _), hg _⟩

theorem modifyGet {g : State → α × State} (hresult : ∀ s, (g s).1 = (g s.frame).1)
    (hframe : ∀ s, (g s).2.frame = (g s.frame).2.frame)
    (hg : ∀ s, (g s).2.below = s.below ∧ (g s).2.completions = s.completions) :
    Finitary (modifyGet g : Analysis α) := by
  refine .step (fun f => ((g f).1, (g f).2.frame)) (fun _ => []) fun {s a t} hrun => ?_
  obtain ⟨rfl, rfl⟩ := Prod.ext_iff.1 (Except.ok.inj hrun)
  exact ⟨Prod.ext (hresult s) (hframe s), .of_eq (hg s).1 (hg s).2⟩

end Finitary

theorem realize_finitary (value : Expr) : Finitary (realize value) := by
  refine Finitary.bind (.lift _) fun x => .bind (.lift _) fun layout => .bind (.modifyGet (fun _ => rfl)
    (fun _ => rfl) fun _ => ⟨rfl, rfl⟩) fun name => ?_
  refine Finitary.bind (.modifies [name, x] (fun _ => rfl) fun s => ?_) fun _ => .pure _
  exact ⟨rfl, [(name, .complete), (x, .complete)], by simp, rfl⟩

theorem rebuildTuple_finitary (x : String) (fields : List Expr) (typing : Typing) :
    Finitary (rebuildTuple x fields typing) := by
  refine Finitary.bind (.modifyGet (fun _ => rfl) (fun _ => rfl) fun _ => ⟨rfl, rfl⟩) fun name => ?_
  refine Finitary.bind (.modifies [name, x] (fun _ => rfl) fun s => ?_) fun _ => .pure _
  exact ⟨rfl, [(name, Completion.all (s.completionsOfValues fields)),
    (x, Completion.all (s.completionsOfValues fields))], by simp, rfl⟩

theorem rebuildClosure_finitary (x : String) (like closure : Expr) :
    Finitary (rebuildClosure x like closure) := by
  refine Finitary.bind (.modifyGet (fun _ => rfl) (fun _ => rfl) fun _ => ⟨rfl, rfl⟩) fun name => ?_
  refine Finitary.bind (.modifies [name] (fun _ => rfl) fun s => ?_) fun _ => .pure _
  exact ⟨rfl, [(name, .complete)], by simp, rfl⟩

theorem bindTemporary_finitary (entry : String) (value : Expr) (completion : Completion) :
    Finitary (bindTemporary entry value completion) := by
  refine Finitary.bind (.modifyGet (fun _ => rfl) (fun _ => rfl) fun _ => ⟨rfl, rfl⟩) fun name => ?_
  refine Finitary.bind (.modifies [name] (fun _ => rfl) fun s => ?_) fun _ => .pure _
  exact ⟨(grows_record _ entry name value completion).below, [(name, completion)], by simp, rfl⟩

structure FinitaryExprs (Γ : Context) (n : Nat) : Prop where
  analyze (e : Expr) : Finitary (analyze Γ n e)
  call (f : Expr) (es : List Expr) (typing : Typing) : Finitary (analyzeCall Γ n f es typing)
  force (e : Expr) (demand : Ty) : Finitary (force Γ n e demand)
  named (e : Expr) (demand : Ty) : Finitary (forceName Γ n e demand)

namespace FinitaryExprs

theorem zero : FinitaryExprs Γ 0 :=
  ⟨fun _ => .throw _, fun _ _ _ => .throw _, fun _ _ => .throw _, fun _ _ => .throw _⟩

section
variable (h : FinitaryExprs Γ n)
include h

theorem succ_analyze (e : Expr) : Finitary (Phases.analyze Γ (n + 1) e) := by
  cases e with
  | name x typing =>
    refine .get_bind (fun s => s.completionOfValue (s.current (.name x typing))) (Set.toFinite _) (fun _ => .pure _)
      fun s s' hframe hview => ?_
    exact congrArg pure (Prod.ext (current_of_frame hframe (.name x typing)) hview)
  | literal => exact .pure _
  | tuple | closure => exact (Finitary.mapM h.analyze _).bind fun _ => .pure _
  | apply f es typing => exact h.call f es typing

theorem succ_call (f : Expr) (es : List Expr) (typing : Typing) :
    Finitary (analyzeCall Γ (n + 1) f es typing) := by
  rw [analyzeCall]
  split
  · exact .throw _
  split
  · exact (Finitary.mapM h.analyze _).bind fun _ => .pure _
  split
  · rename_i index _
    refine (Finitary.mapM h.analyze _).bind fun results => ?_
    refine .get_bind (fun s => (((joinAll results).1.head?.bind fun source => source.symbol?.bind fun symbol =>
      (s.componentsOf? symbol).bind (·[index]?)).map s.completionOfValue).getD (joinAll results).2) (Set.toFinite _)
      (fun _ => .pure _) fun s s' _ hview => ?_
    exact congrArg (fun c => pure (Expr.apply f (joinAll results).1 typing, c)) hview
  split
  · exact (Finitary.mapM h.analyze _).bind fun _ => .pure _
  refine Finitary.bind (.lift _) fun signature => ?_
  split
  · exact .throw _
  split
  · exact (Finitary.mapM (fun p : Expr × Ty => h.force p.1 p.2) _).bind fun _ => .pure _
  · exact (Finitary.mapM h.analyze _).bind fun _ => .pure _
  · exact (Finitary.mapM h.analyze _).bind fun _ => .pure _

theorem succ_force (e : Expr) (demand : Ty) : Finitary (Phases.force Γ (n + 1) e demand) := by
  cases e with
  | name x typing =>
    refine .get_bind (fun _ => ()) (Set.toFinite _) (fun s => (h.named _ demand).bind fun forced => ?_)
      fun s s' hframe _ => ?_
    · split
      · exact Finitary.bind (.modifies [] (fun _ => rfl) fun s => .of_eq rfl rfl) fun _ => .pure _
      · exact .pure _
    · simp only [current_of_frame hframe]
  | literal => exact .pure _
  | tuple => exact (Finitary.mapM (fun p : Expr × Ty => h.force p.1 p.2) _).bind fun _ => .pure _
  | closure => exact (Finitary.mapM (fun e : Expr => h.force e e.ty) _).bind fun _ => .pure _
  | apply f es typing =>
    refine (h.call f es typing).bind fun r => ?_
    dsimp only
    split
    · exact (bindTemporary_finitary _ _ _).bind fun _ => h.named _ _
    · exact .pure _

theorem succ_named (e : Expr) (demand : Ty) : Finitary (forceName Γ (n + 1) e demand) := by
  rw [forceName]
  split
  · exact .pure _
  rename_i x _
  refine .get_bind (fun s => s.completionOf x) (Set.toFinite _) (fun s => ?_) fun s s' hframe hview => ?_
  · split
    · refine (h.force _ _).bind fun forced => ?_
      split
      · exact .pure _
      · exact rebuildClosure_finitary _ _ _
    dsimp only
    split
    · exact .pure _
    split
    · refine (Finitary.mapM (fun p : Expr × Ty => h.force p.1 p.2) _).bind fun forced => ?_
      split
      · exact .pure _
      · exact rebuildTuple_finitary _ _ _
    split
    · exact realize_finitary e
    · exact .pure _
  · simp only [closureOf?_of_frame hframe, componentsOf?_of_frame hframe, hview]

end

theorem all (Γ : Context) (n : Nat) : FinitaryExprs Γ n := by
  induction n with
  | zero => exact zero
  | succ n ih => exact ⟨ih.succ_analyze, ih.succ_call, ih.succ_force, ih.succ_named⟩

end FinitaryExprs

theorem storages_finite (es : List Expr) :
    (Set.range fun s : State => es.map (storageOf s)).Finite := by
  induction es with
  | nil => exact Set.finite_range_const
  | cons e es ih =>
    have hone : (Set.range fun s : State => storageOf s e).Finite := by
      refine (Set.toFinite {e.containerOf, .ok e}).subset ?_
      rintro _ ⟨s, rfl⟩
      dsimp only [storageOf]
      split
      · exact .inl rfl
      · exact .inr rfl
    refine (Set.Finite.image2 cons hone ih).subset ?_
    rintro _ ⟨s, rfl⟩
    exact ⟨_, ⟨s, rfl⟩, _, ⟨s, rfl⟩, rfl⟩

theorem forceReturned_finitary : ∀ (n : Nat) (e : Expr), Finitary (forceReturned Γ n e)
  | 0, _ => .throw _
  | n + 1, .name x typing => by
    rw [forceReturned]
    refine .get_bind (fun s => (decide (x ∈ s.selfResults), (s.current (.name x typing)).symbol?.map s.completionOf,
      s.isBacked (s.current (.name x typing)))) (Set.toFinite _) (fun s => ?_) fun s s' hframe hview => ?_
    · dsimp only
      split
      · exact .pure _
      split
      · exact .pure _
      split
      · refine (Finitary.mapM (forceReturned_finitary n) _).bind fun forced => ?_
        refine .get_bind (fun s' => (s'.isBacked (s.current (.name x typing)), forced.map (storageOf s')))
          (((Set.toFinite Set.univ).prod (storages_finite forced)).subset ?_) (fun s' => ?_) fun t t' _ hview => ?_
        · rintro _ ⟨s', rfl⟩
          exact ⟨trivial, s', rfl⟩
        · split
          · exact .pure _
          · exact (Finitary.mapM (fun _ => .lift _) _).bind fun _ => rebuildTuple_finitary _ _ _
        · obtain ⟨hbacked, hstorages⟩ := Prod.ext_iff.1 hview
          dsimp only at hbacked hstorages
          have hlifted : (forced.mapM fun e => (liftM (storageOf t e) : Analysis Expr)) =
              forced.mapM fun e => (liftM (storageOf t' e) : Analysis Expr) := by
            rw [← Function.comp_def, ← mapM_map, hstorages, mapM_map]
            rfl
          simp only [hbacked, hlifted]
      split
      · exact realize_finitary _
      · exact .pure _
    · simp only [current_of_frame hframe, Prod.mk.injEq, decide_eq_decide] at hview ⊢
      obtain ⟨hself, hcompletion, hbacked⟩ := hview
      cases hy : (s'.current (.name x typing)).symbol? with
      | none => simp only [hself]
      | some y =>
        rw [hy, Option.map_some, Option.map_some, Option.some.injEq] at hcompletion
        simp only [hself, componentsOf?_of_frame hframe, hcompletion, hbacked]
  | _ + 1, .literal .. => .pure _
  | n + 1, .tuple .. => (Finitary.mapM (forceReturned_finitary n) _).bind fun _ => .pure _
  | n + 1, .closure .. => ((FinitaryExprs.all Γ n).analyze _).bind fun _ => .pure _
  | n + 1, .apply f es typing => by
    refine ((FinitaryExprs.all Γ n).call f es typing).bind fun r => ?_
    dsimp only
    split
    · exact .pure _
    · exact (bindTemporary_finitary _ _ _).bind (forceReturned_finitary n)

theorem analyzeValue_finitary (e : Expr) : Finitary (analyzeValue Γ e) := by
  refine .get_bind (fun _ => ()) (Set.toFinite _) (fun s => (FinitaryExprs.all Γ _).analyze e)
    fun s s' hframe _ => ?_
  rw [budget_of_frame hframe]

theorem analyzeBind_finitary (target value : Expr) : Finitary (analyzeBind Γ target value) := by
  refine Finitary.bind (.lift _) fun x => (analyzeValue_finitary value).bind fun r => ?_
  refine Finitary.bind (.modifies [x] (fun _ => rfl) fun s => ?_) fun _ => .pure _
  exact ⟨(s.grows_record _ _ _ _).below, [(x, r.2)], by simp, rfl⟩

theorem analyzeReturn_finitary (value : Expr) : Finitary (analyzeReturn Γ value) := by
  refine .get_bind (fun s => s.inEntry) (Set.toFinite _) (fun s => ?_) fun s s' hframe hview => ?_
  · split
    · exact (forceReturned_finitary _ value).bind fun _ => .pure _
    · exact (analyzeValue_finitary value).bind fun _ => .pure _
  · simp only [hview, budget_of_frame hframe]

theorem takePending_finitary : Finitary takePending :=
  .modifyGet (fun _ => rfl) (fun _ => rfl) fun _ => ⟨rfl, rfl⟩

namespace State

structure Mirrors (s u : State) : Prop where
  completions : u.completions = s.completions
  substitutions : u.substitutions = s.substitutions
  components : u.components = s.components
  closures : u.closures = s.closures
  bound : u.bound = s.bound

theorem Extends.leave (h : Extends names s.enter t) : Mirrors s t.leave := by
  have hbelow := h.below
  have hcompletions := h.inserts.inner_keys.2.2
  simp only [State.below, enter, Scopes.enter, Prod.mk.injEq] at hbelow hcompletions
  obtain ⟨hsubstitutions, hcomponents, hclosures, hbound⟩ := hbelow
  constructor <;> simp [State.leave, Scopes.leave, *]

theorem Mirrors.extends (h : Mirrors s u) : Extends names s u :=
  .of_eq (by simp only [below, h.substitutions, h.components, h.closures, h.bound]) h.completions

end State

theorem Finitary.inScope (hm : Finitary m) (f : State) :
    ∃ (outcomes : Set ((α × List String) × State)) (names : Set String), outcomes.Finite ∧ names.Finite ∧
      ∀ {s r t}, s.frame = f → (inScope m).run s = .ok (r, t) →
        ((r.1, r.2.2), t.frame) ∈ outcomes ∧ s.Mirrors t ∧ ∀ x ∈ r.2.1.keys, x ∈ names := by
  obtain ⟨outcomes, names, hfinite, hnames, h⟩ := hm f.enter.frame
  refine ⟨(fun p => ((p.1, p.2.bound.inner.keys), p.2.leave.frame)) '' outcomes, names, hfinite.image _, hnames, ?_⟩
  rintro s r t rfl hrun
  obtain ⟨a, u, hsteps, rfl, rfl⟩ := run_inScope hrun
  obtain ⟨houtcome, hextends⟩ := h (s := s.enter) rfl hsteps
  exact ⟨⟨_, houtcome, rfl⟩, hextends.leave, fun x hx => (hextends.keys hx).resolve_left not_mem_nil⟩

theorem analyzeBranch_finitary (test : Expr) {whenTrue whenFalse : Analysis (List Stmt)}
    (htrue : Finitary whenTrue)
    (hfalse : Finitary whenFalse) : Finitary (analyzeBranch Γ test whenTrue whenFalse) := by
  refine (analyzeValue_finitary test).bind fun r => takePending_finitary.bind fun pending f => ?_
  obtain ⟨outcomes, names, hfinite, hnames, h⟩ := htrue.inScope f
  choose outcomes' names' hfinite' hnames' h' using hfalse.inScope
  refine ⟨⋃ p ∈ outcomes, (fun q => (.branch r.1 p.1.1 q.1.1,
      { q.2.invalidateAll (p.1.2 ++ q.1.2) with pending })) '' outcomes' p.2,
    names ∪ ⋃ p ∈ outcomes, names' p.2, hfinite.biUnion fun p _ => (hfinite' p.2).image _,
    hnames.union (hfinite.biUnion fun p _ => hnames' p.2), fun {s a t} hs hrun => ?_⟩
  simp only [run_bind_ok_iff] at hrun
  obtain ⟨r₁, s₁, hfirst, r₂, s₂, hsecond, _, _, hmodify, hrun⟩ := hrun
  cases hmodify
  cases hrun
  obtain ⟨hmem, hmirrors, hkeys⟩ := h hs hfirst
  obtain ⟨hmem', hmirrors', hkeys'⟩ := h' _ rfl hsecond
  have hframe : ((s₂.setCompletions (joinBranches s₂ r₁.2.1 r₂.2.1)).invalidateAll (r₁.2.2 ++ r₂.2.2)).frame =
      s₂.frame.invalidateAll (r₁.2.2 ++ r₂.2.2) := by
    rw [frame_invalidateAll, frame_setCompletions]
  refine ⟨Set.mem_biUnion hmem ⟨_, hmem', ?_⟩, ?_⟩
  · exact congrArg (fun f => (Stmt.branch r.1 r₁.1 r₂.1, { f with pending })) hframe.symm
  · refine (hmirrors.extends.trans hmirrors'.extends).trans ((Extends.setCompletions s₂ ?_).trans
      ((Extends.invalidateAll _ _).trans (.of_eq rfl rfl)))
    intro entry hentry
    obtain ⟨x, hx, rfl⟩ := mem_map.1 hentry
    exact (mem_append.1 hx).imp (hkeys x) fun hx => Set.mem_biUnion hmem (hkeys' x hx)

/-- The state in front of a trip that is made from `u` through a loop that was met in `s`. -/
def State.tripFrom (s u : State) (head : Table Completion) : State :=
  { u with phases := s.phases, temporaries := s.temporaries }.tripStart u.selfResults head

section Trips

theorem run_settle_succ (h : steps.run (s.tripFrom u head) = .ok (out, t)) :
    (settle test s.phases s.temporaries steps (n + 1) head).run u =
      if isSettled t.leave head (joinHead t.leave head t.completions.inner) = true then
        .ok ((out, joinHead t.leave head t.completions.inner), t.leave)
      else (settle test s.phases s.temporaries steps n
        (raiseHead t.leave head (joinHead t.leave head t.completions.inner))).run t.leave := by
  have hscope : (inScope (do modify (·.setCompletions head.entries); steps)).run
      { u with phases := s.phases, temporaries := s.temporaries } =
      .ok ((out, t.completions.inner, t.bound.inner.keys), t.leave) := by
    simp only [inScope, StateT.run_bind, run_modify]
    show (steps.run (s.tripFrom u head) >>= _) = _
    rw [h]
    rfl
  rw [settle]
  simp only [StateT.run_bind, run_modify]
  show ((inScope (do modify (·.setCompletions head.entries); steps)).run
      { u with phases := s.phases, temporaries := s.temporaries } >>= _) = _
  rw [hscope]
  show StateT.run (ite _ _ _) _ = _
  split
  · rfl
  · rfl

theorem run_settle_ok {r : (List Stmt × List (String × Completion)) × State}
    (h : (settle test s.phases s.temporaries steps (n + 1) head).run u = .ok r) :
    ∃ out t, steps.run (s.tripFrom u head) = .ok (out, t) := by
  simp only [settle, run_bind_ok_iff] at h
  obtain ⟨_, _, hsupplies, _, _, hscope, -⟩ := h
  cases hsupplies
  obtain ⟨out, t, hrun, -⟩ := run_inScope hscope
  obtain ⟨_, _, hset, hrun⟩ := run_bind_ok_iff.1 hrun
  cases hset
  exact ⟨out, t, hrun⟩

theorem keys_raiseHead (h : x ∈ (raiseHead s head joined).keys) :
    x ∈ head.keys ∨ x ∈ joined.map Prod.fst := by
  refine raiseHead_induction (P := fun raised => x ∈ raised.keys → x ∈ head.keys ∨ x ∈ joined.map Prod.fst) .inl
    (fun raised entry hentry hr hx => ?_) h
  rcases Table.mem_keys_put.1 hx with rfl | hx
  · exact .inr (mem_map_of_mem hentry)
  · exact hr hx

theorem joinHead_keys (s : State) (head trip : Table Completion) :
    (joinHead s head trip).map Prod.fst = trip.keys := by
  rw [joinHead, map_map]
  rfl

theorem State.frame_tripFrom (hu : s.Mirrors u) (hpending : u.pending = s.pending) :
    (s.tripFrom u head).frame = s.frame.enter.frame := by
  rw [tripFrom, tripStart, frame_setCompletions]
  simp only [frame, enter, hu.substitutions, hu.components, hu.closures, hu.bound, hpending]

theorem State.extends_tripFrom (hu : s.Mirrors u) (head : Table Completion) :
    s.enter.Extends {x | x ∈ head.keys} (s.tripFrom u head) := by
  refine .trans (t := { u with phases := s.phases, temporaries := s.temporaries }.enter) (.of_eq ?_ ?_)
    (.setCompletions _ fun entry hentry => mem_map_of_mem hentry)
  · simp only [below, enter, hu.substitutions, hu.components, hu.closures, hu.bound]
  · simp only [enter, hu.completions]

variable (hsteps : Finitary steps) (hpends : ∀ {v out t}, v.pending = [] → steps.run v = .ok (out, t) → t.pending = [])
include hsteps hpends

theorem Finitary.trips (f : State) : ∃ (outcomes : Set (List Stmt × State)) (names : Set String),
    outcomes.Finite ∧ names.Finite ∧ ∀ {s u : State} {head : Table Completion} {out t}, s.frame = f → s.pending = [] →
      s.Mirrors u → u.pending = [] →
      steps.run (s.tripFrom u head) = .ok (out, t) → (out, t.leave.frame) ∈ outcomes ∧ s.Mirrors t.leave ∧
        t.leave.pending = [] ∧ (s.tripFrom u head).Inserts t ∧
        ((∀ x ∈ head.keys, x ∈ names) → ∀ x ∈ t.completions.inner.keys, x ∈ names) := by
  obtain ⟨outcomes, names, hfinite, hnames, h⟩ := hsteps f.enter.frame
  refine ⟨(fun p => (p.1, p.2.leave.frame)) '' outcomes, names, hfinite.image _, hnames, ?_⟩
  rintro s u head out t rfl hs hu hpending hrun
  obtain ⟨houtcome, hextends⟩ := h (frame_tripFrom hu (hpending.trans hs.symm)) hrun
  have hstart := extends_tripFrom hu head
  have hleave : s.Mirrors t.leave :=
    ((hstart.mono (Set.subset_univ _)).trans (hextends.mono (Set.subset_univ _))).leave
  have hpendings : (s.tripFrom u head).pending = [] := (pending_setCompletions _ _).trans hpending
  have hleft : t.pending = [] := hpends hpendings hrun
  refine ⟨⟨_, houtcome, rfl⟩, hleave, hleft, hextends.inserts, fun hhead x hx => ?_⟩
  rcases hextends.keys hx with hx | hx
  · exact hhead x ((hstart.keys hx).resolve_left not_mem_nil)
  · exact hx

theorem Finitary.settle (test : Expr) (f : State) :
    ∃ (outcomes : Set (List Stmt × State)) (names : Set String),
    outcomes.Finite ∧ names.Finite ∧ ∀ {n : Nat} {s : State} {r t}, s.frame = f → s.pending = [] →
      (Phases.settle test s.phases s.temporaries steps n ∅).run s = .ok (r, t) →
        (r.1, t.frame) ∈ outcomes ∧ s.Mirrors t ∧ ∀ entry ∈ r.2, entry.1 ∈ names := by
  obtain ⟨outcomes, names, hfinite, hnames, h⟩ := Finitary.trips hsteps hpends f
  refine ⟨outcomes, names, hfinite, hnames, fun {n s r t} hs hpending hrun => ?_⟩
  suffices hall : ∀ n u head, s.Mirrors u → u.pending = [] → (∀ x ∈ head.keys, x ∈ names) →
      (Phases.settle test s.phases s.temporaries steps n head).run u = .ok (r, t) →
      (r.1, t.frame) ∈ outcomes ∧ s.Mirrors t ∧ ∀ entry ∈ r.2, entry.1 ∈ names from
    hall n s ∅ ⟨rfl, rfl, rfl, rfl, rfl⟩ hpending nofun hrun
  intro n
  induction n with
  | zero =>
    intro u head _ _ _ hrun
    cases hrun
  | succ n ih =>
    intro u head hu hpendingu hhead hrun
    obtain ⟨out, v, htrip⟩ := run_settle_ok hrun
    obtain ⟨houtcome, hmirrors, hleft, -, hkeys⟩ := h hs hpending hu hpendingu htrip
    have hkeys := hkeys hhead
    rw [run_settle_succ htrip] at hrun
    split at hrun
    · cases hrun
      refine ⟨houtcome, hmirrors, fun entry hentry => hkeys _ ?_⟩
      rw [← joinHead_keys v.leave head]
      exact mem_map_of_mem hentry
    · refine ih _ _ hmirrors hleft (fun x hx => ?_) hrun
      rcases keys_raiseHead hx with hx | hx
      · exact hhead x hx
      · rw [joinHead_keys] at hx
        exact hkeys x hx

theorem analyzeLoop_finitary (test : Expr) (body : List Stmt) :
    Finitary (analyzeLoop Γ test body steps) := by
  refine Finitary.bind (.modifies [] (fun s => ?_) fun s => .invalidateAll _ _) fun _ =>
    (analyzeValue_finitary test).bind fun r f => ?_
  · rw [frame_invalidateAll, frame_invalidateAll]
    rfl
  obtain ⟨outcomes, names, hfinite, hnames, h⟩ := Finitary.settle hsteps hpends r.1 f.flush
  refine ⟨(fun p => (.loop r.1 p.1, { p.2 with pending := f.pending })) '' outcomes, names, hfinite.image _, hnames, ?_⟩
  rintro s a t rfl hrun
  simp only [run_bind_ok_iff] at hrun
  obtain ⟨_, _, htake, _, _, hget, r', s', hsettle, _, _, hmodify, hrun⟩ := hrun
  obtain ⟨rfl, rfl⟩ := run_takePending htake
  cases hget
  cases hmodify
  cases hrun
  obtain ⟨houtcome, hmirrors, hjoined⟩ := h (s := s.flush) rfl rfl hsettle
  refine ⟨⟨_, houtcome, ?_⟩, ?_⟩
  · exact congrArg (fun f => (Stmt.loop r.1 r'.1, { f with pending := s.pending })) (frame_setCompletions s' r'.2).symm
  · have hflush : s.Extends names s.flush := .of_eq rfl rfl
    exact (hflush.trans hmirrors.extends).trans ((State.Extends.setCompletions s' hjoined).trans (.of_eq rfl rfl))

end Trips

theorem analyzeProcedure_finitary (symbol : String) (parameters : List Expr)
    {body : Analysis (List Stmt)}
    (hbody : Finitary body) : Finitary (analyzeProcedure Γ symbol parameters body) := by
  refine Finitary.bind (.modifies [] (fun _ => rfl) fun _ => .of_eq rfl rfl) fun _ f => ?_
  have hblock : Finitary (do
      modify (·.setCompletions (parameterCompletions (decide (symbol = Γ.entry)) parameters))
      body) := by
    refine Finitary.bind (.modifies ((parameterCompletions (decide (symbol = Γ.entry)) parameters).map Prod.fst)
      (fun s => ?_) fun s => .setCompletions s fun entry hentry => mem_map_of_mem hentry) fun _ => hbody
    rw [frame_setCompletions, frame_setCompletions]
    rfl
  obtain ⟨outcomes, names, hfinite, hnames, h⟩ := hblock.inScope f
  refine ⟨(fun p => (p.1.1, p.2)) '' outcomes, names, hfinite.image _, hnames, fun hs hrun => ?_⟩
  simp only [run_bind_ok_iff] at hrun
  obtain ⟨r, s₁, hscope, _, _, hmodify, hrun⟩ := hrun
  cases hmodify
  cases hrun
  obtain ⟨houtcome, hmirrors, -⟩ := h hs hscope
  exact ⟨⟨_, houtcome, rfl⟩, hmirrors.extends.trans (.of_eq rfl rfl)⟩

theorem Finitary.whenActive {stmt : Stmt} {m : Analysis Stmt} (hm : Finitary m) :
    Finitary (do if (← get).active then m else return stmt) := by
  refine .get_bind (fun s => s.active) (Set.toFinite _) (fun s => ?_) fun s s' _ hview => ?_
  · split
    · exact hm
    · exact .pure _
  · simp only [hview]

mutual

theorem analyzeStmt_finitary : ∀ stmt : Stmt, Finitary (analyzeStmt Γ stmt)
  | .bind target value => .whenActive (analyzeBind_finitary target value)
  | .ret value => .whenActive (analyzeReturn_finitary value)
  | .procedure name parameters body => by
    rw [analyzeStmt]
    split
    · exact (analyzeProcedure_finitary _ _ (analyzeStmts_finitary body)).bind fun _ => .pure _
    · exact .pure _
  | .branch test whenTrue whenFalse =>
    .whenActive (analyzeBranch_finitary test (analyzeStmts_finitary whenTrue) (analyzeStmts_finitary whenFalse))
  | .loop test body => .whenActive (analyzeLoop_finitary (analyzeStmts_finitary body) analyzeStmts_pending test body)
  | .structDef _ _ body | .namespaceDef _ body => (analyzeStmts_finitary body).bind fun _ => .pure _
  | .typedef .. | .header .. | .declare _ => .pure _

theorem analyzeStmts_finitary : ∀ block : List Stmt, Finitary (analyzeStmts Γ block)
  | [] => .pure _
  | stmt :: rest =>
    (analyzeStmt_finitary stmt).bind fun _ => takePending_finitary.bind fun _ =>
      (analyzeStmts_finitary rest).bind fun _ => .pure _

end

def State.assumed (s : State) (head : Table Completion) (x : String) : Completion :=
  (head.get? x).getD (s.completionOf x)

theorem rank_raiseHead
    (hjoined : ∀ entry ∈ joined, entry.2 ≠ s.assumed head entry.1 → (s.assumed head entry.1).rank < entry.2.rank)
    (x : String) : (s.assumed head x).rank ≤ (s.assumed (raiseHead s head joined) x).rank ∧
      ∀ entry ∈ joined, entry.1 = x → entry.2 ≠ s.assumed head x →
        (s.assumed head x).rank < (s.assumed (raiseHead s head joined) x).rank := by
  -- an entry raises its name, or leaves everything as it is
  have hstep : ∀ {raised raised' : Table Completion}, ∀ entry ∈ joined,
      raised' = (if entry.2 = s.assumed head entry.1 then raised else raised.insert entry.1 entry.2) →
      (s.assumed head x).rank < (s.assumed raised' x).rank ∨
        s.assumed raised' x = s.assumed raised x ∧ (entry.1 = x → entry.2 = s.assumed head x) := by
    rintro raised _ entry hentry rfl
    by_cases hsame : entry.2 = s.assumed head entry.1
    · rw [if_pos hsame]
      exact .inr ⟨rfl, fun hx => hx ▸ hsame⟩
    · have hraised : s.assumed (raised.insert entry.1 entry.2) x =
          if x = entry.1 then entry.2 else s.assumed raised x := by
        rw [assumed, Table.get?_insert]
        split <;> rfl
      rw [if_neg hsame, hraised]
      split
      · rename_i hx
        exact .inl (hx ▸ hjoined entry hentry hsame)
      · rename_i hx
        exact .inr ⟨rfl, fun hname => absurd hname.symm hx⟩
  refine ⟨?_, fun entry hentry hx hne => ?_⟩
  · refine foldlRecOn joined _ (motive := fun raised => (s.assumed head x).rank ≤ (s.assumed raised x).rank)
      (Nat.le_refl _) fun raised hle entry hentry => ?_
    exact (hstep entry hentry rfl).elim Nat.le_of_lt fun hkept => hkept.1 ▸ hle
  · obtain ⟨front, back, rfl⟩ := append_of_mem hentry
    rw [raiseHead, foldl_append, foldl_cons]
    refine foldlRecOn back _ (motive := fun raised => (s.assumed head x).rank < (s.assumed raised x).rank) ?_
      fun raised hlt e he => ?_
    · exact (hstep entry hentry rfl).resolve_right fun hkept => hne (hkept.2 hx)
    · exact (hstep e (mem_append_right _ (mem_cons_of_mem _ he)) rfl).elim id fun hkept => hkept.1 ▸ hlt

/-- The state and the head in front of a trip, after `n` trips that did not settle. -/
inductive Trips (steps : Analysis (List Stmt)) (s : State) : Nat → State → Table Completion → Prop where
  | first : Trips steps s 0 s ∅
  | again {n : Nat} {u t : State} {head : Table Completion} {out : List Stmt} : Trips steps s n u head →
    steps.run (s.tripFrom u head) = .ok (out, t) →
    isSettled t.leave head (joinHead t.leave head t.completions.inner) = false →
    Trips steps s (n + 1) t.leave (raiseHead t.leave head (joinHead t.leave head t.completions.inner))

section Settles

theorem head_congr (h : u.completions = s.completions) (head trip : Table Completion)
    (joined : List (String × Completion)) : joinHead u head trip = joinHead s head trip ∧
      isSettled u head joined = isSettled s head joined ∧ raiseHead u head joined = raiseHead s head joined := by
  have hcompletions : u.completionOf = s.completionOf := funext fun x => completionOf_congr h
  unfold joinHead isSettled raiseHead
  rw [hcompletions]
  exact ⟨rfl, rfl, rfl⟩

theorem Trips.settle (h : Trips steps s n u head) (test : Expr) :
    (∀ m, (settle test s.phases s.temporaries steps (m + n) ∅).run s =
      (settle test s.phases s.temporaries steps m head).run u) ∧
    ∀ m ≤ n, (settle test s.phases s.temporaries steps m ∅).run s = .error (.unsettledLoop test.render) := by
  induction h with
  | first =>
    refine ⟨fun m => rfl, fun m hm => ?_⟩
    cases Nat.le_zero.1 hm
    rfl
  | @again n _ t head _ _ hrun hsettled ih =>
    have hlater : ∀ m, (Phases.settle test s.phases s.temporaries steps (m + (n + 1)) ∅).run s =
        (Phases.settle test s.phases s.temporaries steps m
          (raiseHead t.leave head (joinHead t.leave head t.completions.inner))).run t.leave := by
      intro m
      rw [Nat.add_comm n, ← Nat.add_assoc, ih.1, run_settle_succ hrun, hsettled]
      rfl
    refine ⟨hlater, fun m hm => ?_⟩
    rcases Nat.le_succ_iff.1 hm with hm | rfl
    · exact ih.2 m hm
    · have hlast := hlater 0
      rwa [Nat.zero_add] at hlast

variable (hsteps : Finitary steps) (hpends : ∀ {v out t}, v.pending = [] → steps.run v = .ok (out, t) → t.pending = [])
  (hpending : s.pending = [])
include hsteps hpends hpending

/-- Every trip but the last raises the completion of one of finitely many names. -/
theorem Trips.bounded :
    ∃ names : Finset String, ∀ {n u head}, Trips steps s n u head → s.Mirrors u ∧
    u.pending = [] ∧ s.Covers head ∧ (∀ x ∈ head.keys, x ∈ names) ∧ n ≤ ∑ x ∈ names, (s.assumed head x).rank := by
  obtain ⟨outcomes, names, -, hnames, h⟩ := Finitary.trips hsteps hpends s.frame
  refine ⟨hnames.toFinset, fun htrips => ?_⟩
  induction htrips with
  | first => exact ⟨⟨rfl, rfl, rfl, rfl, rfl⟩, hpending, .empty s, nofun, Nat.zero_le _⟩
  | @again _ _ t head _ _ hrun hsettled ih =>
    obtain ⟨hmirrors, hpendingu, hcovers, hkeys, hn⟩ := ih
    obtain ⟨-, hmirrors', hpending', -, hkeys'⟩ := h rfl hpending hmirrors hpendingu hrun
    simp only [Set.Finite.mem_toFinset] at hkeys
    have hinner := hkeys' hkeys
    obtain ⟨hjoin, hsame, hraise⟩ := head_congr hmirrors'.completions head t.completions.inner
      (joinHead s head t.completions.inner)
    rw [hjoin, hsame] at hsettled
    rw [hjoin, hraise]
    refine ⟨hmirrors', hpending', hcovers.raise, fun x hx => hnames.mem_toFinset.2 ?_, ?_⟩
    · rcases keys_raiseHead hx with hx | hx
      · exact hkeys x hx
      · rw [joinHead_keys] at hx
        exact hinner x hx
    · have hjoined : ∀ entry ∈ joinHead s head t.completions.inner, entry.2 ≠ s.assumed head entry.1 →
          (s.assumed head entry.1).rank < entry.2.rank := by
        intro entry hentry hne
        obtain ⟨e, -, rfl⟩ := mem_map.1 hentry
        exact Completion.rank_lt_of_merge hne
      obtain ⟨entry, hentry, hne⟩ := all_eq_false.1 hsettled
      have hname : entry.1 ∈ names := hinner _ (by
        rw [← joinHead_keys s head]
        exact mem_map_of_mem hentry)
      refine Nat.succ_le_of_lt (Nat.lt_of_le_of_lt hn (Finset.sum_lt_sum (fun x _ => (rank_raiseHead hjoined x).1)
        ⟨entry.1, hnames.mem_toFinset.2 hname, (rank_raiseHead hjoined entry.1).2 entry hentry rfl ?_⟩))
      simpa [assumed] using hne

end Settles

/-- **Loops settle.** If every trip through the body of a loop returns, then some trip settles,
after `n` others. With a limit above `n` that trip is the result, whatever the limit. What is
assumed at its head is at least what holds in front of the loop, and at least what holds at its end.
-/
theorem settle_stable (Γ : Context) (test : Expr) (body : List Stmt) (s : State)
    (hreturns : ∀ n u head, Trips (analyzeStmts Γ body) s.flush n u head →
      ∃ out t, (analyzeStmts Γ body).run (s.flush.tripFrom u head) = .ok (out, t)) :
    ∃ n u head out t, Trips (analyzeStmts Γ body) s.flush n u head ∧
      (analyzeStmts Γ body).run (s.flush.tripFrom u head) = .ok (out, t) ∧
      (∀ m, (settle test s.phases s.temporaries (analyzeStmts Γ body) m ∅).run s.flush =
        if n < m then .ok ((out, joinHead t.leave head t.completions.inner), t.leave)
        else .error (.unsettledLoop test.render)) ∧
      ∀ x, (s.completionOf x).rank ≤ ((s.flush.tripFrom u head).completionOf x).rank ∧
        (t.completionOf x).rank ≤ ((s.flush.tripFrom u head).completionOf x).rank := by
  have hsteps : Finitary (analyzeStmts Γ body) := analyzeStmts_finitary body
  obtain ⟨names, hbounded⟩ := Trips.bounded (s := s.flush) hsteps analyzeStmts_pending rfl
  -- otherwise there would be a trip for every number
  have hsettles : ∃ n u head out t, Trips (analyzeStmts Γ body) s.flush n u head ∧
      (analyzeStmts Γ body).run (s.flush.tripFrom u head) = .ok (out, t) ∧
      isSettled t.leave head (joinHead t.leave head t.completions.inner) = true := by
    by_contra hnone
    have hall : ∀ n, ∃ u head, Trips (analyzeStmts Γ body) s.flush n u head := by
      intro n
      induction n with
      | zero => exact ⟨_, _, .first⟩
      | succ n ih =>
        obtain ⟨u, head, htrips⟩ := ih
        obtain ⟨out, t, hrun⟩ := hreturns n u head htrips
        refine ⟨_, _, .again htrips hrun (Bool.eq_false_iff.2 fun hsettled => hnone ?_)⟩
        exact ⟨n, u, head, out, t, htrips, hrun, hsettled⟩
    obtain ⟨u, head, htrips⟩ := hall (names.card * 2 + 1)
    have hsum := Finset.sum_le_card_nsmul names (fun x => (s.flush.assumed head x).rank) 2
      fun x _ => Completion.rank_le_two _
    have hn := (hbounded htrips).2.2.2.2
    rw [smul_eq_mul] at hsum
    omega
  obtain ⟨n, u, head, out, t, htrips, hrun, hsettled⟩ := hsettles
  refine ⟨n, u, head, out, t, htrips, hrun, fun m => ?_, fun x => ?_⟩
  · split
    · rename_i hm
      obtain ⟨k, rfl⟩ := Nat.exists_eq_add_of_lt hm
      have hrest := (htrips.settle test).1 (k + 1)
      rw [show n + k + 1 = k + 1 + n by omega]
      exact hrest.trans ((run_settle_succ hrun).trans (if_pos hsettled))
    · rename_i hm
      exact (htrips.settle test).2 m (Nat.le_of_not_lt hm)
  · obtain ⟨hmirrors, hpending, hcovers, -, -⟩ := hbounded htrips
    obtain ⟨_, _, -, -, htrip⟩ := Finitary.trips hsteps analyzeStmts_pending s.flush.frame
    obtain ⟨-, hmirrors', -, hinserts, -⟩ := htrip rfl rfl hmirrors hpending hrun
    obtain ⟨hjoin, hsame, -⟩ := head_congr (s := { u with phases := s.phases, temporaries := s.temporaries })
      (hmirrors'.completions.trans hmirrors.completions.symm) head t.completions.inner
      (joinHead t.leave head t.completions.inner)
    rw [hsame, hjoin] at hsettled
    have hfront : ∀ y, u.completionOf y = s.completionOf y := fun y => completionOf_congr hmirrors.completions
    have hcovered : Covers { u with phases := s.phases, temporaries := s.temporaries } head :=
      ⟨hcovers.nodup, fun y c hy => (congrArg c.merge (hfront y)).trans (hcovers.merge y c hy)⟩
    refine ⟨?_, Completion.rank_le_of_merge (State.completionOf_trip hcovered hinserts hsettled)⟩
    rw [tripFrom, completionOf_tripStart hcovered.nodup]
    cases hx : head.get? x with
    | none => exact (congrArg Completion.rank (hfront x)).ge
    | some c => exact Completion.rank_le_of_merge (hcovers.merge x c hx)

/-- The body of a loop that hands a pending row on, from `zs` to `ys` and from there to `xs`. -/
def handingBody : List Stmt :=
  let row : Typing := ⟨.sequence (.scalar .int32), none⟩
  [.bind (.name "xs" row) (.name "ys" row), .bind (.name "ys" row) (.name "zs" row)]

/-- In front of the loop only `zs` is pending. -/
def handingStart : State :=
  { initial with active := true }.setCompletions [("xs", .complete), ("ys", .complete), ("zs", .incomplete)]

theorem handingBody_settles :
    (∀ n u head, Trips (analyzeStmts ⟨.empty, "main", []⟩ handingBody) handingStart.flush n u head →
      ∃ out t, (analyzeStmts ⟨.empty, "main", []⟩ handingBody).run
        (handingStart.flush.tripFrom u head) = .ok (out, t)) ∧
    ∃ u head out t, Trips (analyzeStmts ⟨.empty, "main", []⟩ handingBody) handingStart.flush 2 u head ∧
      (analyzeStmts ⟨.empty, "main", []⟩ handingBody).run (handingStart.flush.tripFrom u head) = .ok (out, t) ∧
      ∀ x, (handingStart.completionOf x).rank ≤ ((handingStart.flush.tripFrom u head).completionOf x).rank ∧
        (t.completionOf x).rank ≤ ((handingStart.flush.tripFrom u head).completionOf x).rank := by
  have hone : ∀ (x y : String) (a b : Typing) (v : State), ∃ stmt t,
      (analyzeStmt ⟨.empty, "main", []⟩ (.bind (.name x a) (.name y b))).run v = .ok (stmt, t) := by
    intro x y a b v
    obtain ⟨n, hn⟩ : ∃ n, v.budget (.name y b) = n + 1 := Nat.exists_eq_succ_of_ne_zero (by simp [budget])
    have hvalue : (analyzeValue ⟨.empty, "main", []⟩ (.name y b)).run v =
        .ok ((v.current (.name y b), v.completionOfValue (v.current (.name y b))), v) := by
      show (analyze ⟨.empty, "main", []⟩ (v.budget (.name y b)) (.name y b)).run v = _
      rw [hn, analyze]
      rfl
    have hrun : (analyzeStmt ⟨.empty, "main", []⟩ (.bind (.name x a) (.name y b))).run v = (if v.active = true then
        analyzeBind ⟨.empty, "main", []⟩ (.name x a) (.name y b) else pure (.bind (.name x a) (.name y b))).run v := rfl
    rw [hrun]
    split
    · exact ⟨_, _, run_bind_ok_iff.2 ⟨x, v, rfl, run_bind_ok_iff.2 ⟨_, _, hvalue, rfl⟩⟩⟩
    · exact ⟨_, _, rfl⟩
  have hreturns : ∀ v : State, ∃ out t, (analyzeStmts ⟨.empty, "main", []⟩ handingBody).run v = .ok (out, t) := by
    intro v
    obtain ⟨stmt, t, hfirst⟩ := hone "xs" "ys" _ _ v
    obtain ⟨stmt', t', hsecond⟩ := hone "ys" "zs" _ _ t.flush
    exact ⟨_, _, run_bind_ok_iff.2 ⟨stmt, t, hfirst, run_bind_ok_iff.2 ⟨_, _, rfl,
      run_bind_ok_iff.2 ⟨_, _, run_bind_ok_iff.2 ⟨stmt', t', hsecond, rfl⟩, rfl⟩⟩⟩⟩
  refine ⟨fun n u head _ => hreturns _, ?_⟩
  obtain ⟨n, u, head, out, t, htrips, hrun, hsettle, hstable⟩ := settle_stable ⟨.empty, "main", []⟩ (.literal "true"
    default) handingBody handingStart fun n u head _ => hreturns _
  have htwo : ((settle (.literal "true" default) handingStart.phases handingStart.temporaries
      (analyzeStmts ⟨.empty, "main", []⟩ handingBody) 2 ∅).run handingStart.flush).toOption.isSome = false := by
    decide +kernel
  have hthree : ((settle (.literal "true" default) handingStart.phases handingStart.temporaries
      (analyzeStmts ⟨.empty, "main", []⟩ handingBody) 3 ∅).run handingStart.flush).toOption.isSome = true := by
    decide +kernel
  rw [hsettle] at htwo hthree
  obtain rfl : n = 2 := by
    split at htwo
    · cases htwo
    split at hthree
    · omega
    · cases hthree
  exact ⟨u, head, out, t, htrips, hrun, hstable⟩

end Phases
end DataParallel
