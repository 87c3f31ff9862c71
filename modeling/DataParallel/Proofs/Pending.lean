import DataParallel.Proofs.Frames
import DataParallel.Registry
import DataParallel.Ty.Instance

/-! Pending values along a run.

A call that composes views leaves its aggregate result pending, until a phase boundary is run on it.
Each such result gets a key of its own, and so does each field of it: the key of the tuple with the
index in front. A value is told by the keys that it holds, whatever the computed values in it are.
-/

namespace DataParallel

open List

variable {registry : Registry} {c c' : Progress} {key : List Nat} {f : Expr} {es : List Expr}
  {typing : Typing} {vs : List Content} {v : Content} {C : String → Prop}

inductive Content where
  /-- Nothing that was ever pending. -/
  | plain
  /-- The aggregate result of a call that composes views, or a field of it. -/
  | view (key : List Nat)
  | tuple (parts : List Content)
  /-- A closure with the types at which it captured values. -/
  | closure (demands : List Ty) (captured : List Content)

namespace Content

mutual

def keys : Content → List (List Nat)
  | .plain | .closure .. => []
  | .view key => [key]
  | .tuple parts => keysAll parts

def keysAll : List Content → List (List Nat)
  | [] => []
  | v :: rest => keys v ++ keysAll rest

end

mutual

/-- All views in a value, those that closures have captured included. -/
def views : Content → List (List Nat)
  | .plain => []
  | .view key => [key]
  | .tuple parts | .closure _ parts => viewsAll parts

def viewsAll : List Content → List (List Nat)
  | [] => []
  | v :: rest => views v ++ viewsAll rest

end

mutual

/-- The views in the parts of a value that a type treats as aggregates. -/
def demanded : Content → Ty → List (List Nat)
  | .plain, _ | .closure .., _ => []
  | .view key, demand => if demand.isAggregate then [key] else []
  | .tuple parts, demand =>
    match demand.fields? with
    | some demands => if demands.length = parts.length then demandedAll parts demands else []
    | none => []

def demandedAll : List Content → List Ty → List (List Nat)
  | v :: rest, demand :: demands => demanded v demand ++ demandedAll rest demands
  | _, _ => []

end

mutual

/-- The views that closures in a value have captured at types that treat them as aggregates. -/
def captures : Content → List (List Nat)
  | .plain | .view _ => []
  | .tuple parts => capturesAll parts
  | .closure demands captured => demandedAll captured demands ++ capturesAll captured

def capturesAll : List Content → List (List Nat)
  | [] => []
  | v :: rest => captures v ++ capturesAll rest

end

def field (index : Nat) (ty : Ty) : Content → Content
  | .tuple parts => parts[index]?.getD .plain
  | .view key => if ty.isAggregate then .view (index :: key) else .plain
  | .plain | .closure .. => .plain

end Content

inductive Role where
  | tuple
  | project (index : Nat)
  | boundary
  /-- Reads all of its arguments; the type is the one that it is registered with. -/
  | forces (ty : Ty)
  /-- Composes views. -/
  | composes
  | other
deriving DecidableEq

def Role.handsOn : Role → Bool
  | .tuple | .project _ | .boundary => true
  | .forces _ | .composes | .other => false

def Expr.role (registry : Registry) (f : Expr) : Role :=
  match f.symbol? with
  | none => .other
  | some callee =>
    if callee = Name.Snippet.makeTuple then .tuple
    else match Name.Snippet.projection? callee with
      | some index => .project index
      | none =>
        if callee = Name.Snippet.phaseBoundary then .boundary
        else if callee = Name.Snippet.makeSequence then .other
        else match registry.get? callee with
          | some signature =>
            match signature.synchronization with
            | .forces => .forces signature.ty
            | .propagates => .composes
            | .inert => .other
          | none => .other

/-- A point of a run: what names hold and which views were realized. -/
structure Progress where
  store : String → Content
  /-- The number of keys in use. -/
  drawn : Nat
  realized : List (List Nat)
  /-- Whether a call that reads all of its arguments was given a pending view. -/
  breached : Bool

namespace Progress

/-- The start of a procedure: nothing that its parameters hold is pending. -/
def start : Progress := ⟨fun _ => .plain, 0, [], false⟩

/-- A view is done as soon as it or a tuple that it is a field of was realized. -/
def IsDone (c : Progress) (key : List Nat) : Prop := ∃ k ∈ c.realized, k <:+ key

instance (c : Progress) (key : List Nat) : Decidable (c.IsDone key) :=
  inferInstanceAs (Decidable (∃ k ∈ c.realized, k <:+ key))

def given (ty : Ty) (es : List Expr) (vs : List Content) : List (List Nat) :=
  let types := es.map Expr.ty
  Content.demandedAll vs (((ty.instantiate? types).map Prod.fst).getD types) ++ Content.capturesAll vs

/-- Runs a call on the values of its arguments. -/
def call (registry : Registry) (c : Progress) (f : Expr) (es : List Expr) (typing : Typing)
    (vs : List Content) : Content × Progress :=
  match f.role registry with
  | .tuple => (.tuple vs, c)
  | .project index => ((vs.headD .plain).field index typing.ty, c)
  | .boundary => (vs.headD .plain, { c with realized := Content.keysAll vs ++ c.realized })
  | .forces ty => (.plain, { c with breached := c.breached || !decide (∀ key ∈ given ty es vs, c.IsDone key) })
  | .composes => if typing.ty.isAggregate then (.view [c.drawn], { c with drawn := c.drawn + 1 }) else (.plain, c)
  | .other => (.plain, c)

mutual

/-- Reads an expression. -/
def read (registry : Registry) (c : Progress) : Expr → Content × Progress
  | .name symbol _ => (c.store symbol, c)
  | .literal .. => (.plain, c)
  | .tuple elements _ =>
    let (vs, c) := readAll registry c elements
    (.tuple vs, c)
  | .closure _ captured _ =>
    let (vs, c) := readAll registry c captured
    (.closure (captured.map Expr.ty) vs, c)
  | .apply f es typing =>
    let (vs, c) := readAll registry c es
    c.call registry f es typing vs

def readAll (registry : Registry) (c : Progress) : List Expr → List Content × Progress
  | [] => ([], c)
  | e :: rest =>
    let (v, c) := read registry c e
    let (vs, c) := readAll registry c rest
    (v :: vs, c)

end

/-- Runs every path through a block: tests may go either way. -/
def machine (registry : Registry) : Machine Progress Content where
  eval c e v c' := c.read registry e = (v, c')
  assign x v c := { c with store := Function.update c.store x v }
  decides _ _ := True

theorem IsDone.mono (h : c.IsDone key) (hr : c.realized ⊆ c'.realized) : c'.IsDone key := by
  obtain ⟨k, hk, hkey⟩ := h
  exact ⟨k, hr hk, hkey⟩

theorem IsDone.cons (h : c.IsDone key) (index : Nat) : c.IsDone (index :: key) := by
  obtain ⟨k, hk, hkey⟩ := h
  exact ⟨k, hk, hkey.trans (suffix_cons index key)⟩

theorem isDone_of_mem (h : key ∈ c.realized) : c.IsDone key := ⟨key, h, suffix_refl key⟩

theorem store_call : (c.call registry f es typing vs).2.store = c.store := by
  unfold call
  split
  · rfl
  · rfl
  · rfl
  · rfl
  · split <;> rfl
  · rfl

theorem realized_call : c.realized ⊆ (c.call registry f es typing vs).2.realized := by
  unfold call
  split
  · exact Subset.refl _
  · exact Subset.refl _
  · exact subset_append_right _ _
  · exact Subset.refl _
  · split <;> exact Subset.refl _
  · exact Subset.refl _

mutual

theorem store_read : ∀ (c : Progress) (e : Expr), (c.read registry e).2.store = c.store
  | _, .name .. | _, .literal .. => rfl
  | c, .tuple elements _ => store_readAll c elements
  | c, .closure _ captured _ => store_readAll c captured
  | c, .apply _ es _ => store_call.trans (store_readAll c es)

theorem store_readAll : ∀ (c : Progress) (es : List Expr), (c.readAll registry es).2.store = c.store
  | _, [] => rfl
  | c, e :: rest => (store_readAll _ rest).trans (store_read c e)

end

mutual

theorem realized_read : ∀ (c : Progress) (e : Expr), c.realized ⊆ (c.read registry e).2.realized
  | _, .name .. | _, .literal .. => Subset.refl _
  | c, .tuple elements _ => realized_readAll c elements
  | c, .closure _ captured _ => realized_readAll c captured
  | c, .apply _ es _ => Subset.trans (realized_readAll c es) realized_call

theorem realized_readAll :
    ∀ (c : Progress) (es : List Expr), c.realized ⊆ (c.readAll registry es).2.realized
  | _, [] => Subset.refl _
  | c, e :: rest => Subset.trans (realized_read c e) (realized_readAll _ rest)

end

end Progress

namespace Content

theorem mem_viewsAll : key ∈ viewsAll vs ↔ ∃ v ∈ vs, key ∈ v.views := by
  induction vs with
  | nil => simp [viewsAll]
  | cons v vs ih => simp [viewsAll, ih]

theorem views_field {P : List Nat → Prop} (hP : ∀ index key, P key → P (index :: key))
    (h : ∀ key ∈ v.views, P key)
    (index : Nat) (ty : Ty) : ∀ key ∈ (v.field index ty).views, P key := by
  cases v with
  | plain | closure => simp [field, views]
  | view key =>
    simp only [views, mem_singleton, forall_eq] at h
    simp only [field]
    split
    · simpa [views] using hP index key h
    · simp [views]
  | tuple parts =>
    rw [field]
    cases hpart : parts[index]? with
    | none => simp [views]
    | some part => exact fun key hkey => h key (mem_viewsAll.2 ⟨part, mem_of_getElem? hpart, hkey⟩)

end Content

namespace Expr

mutual

/-- Whether an expression holds nothing pending as long as the names `C` hold nothing pending. -/
def Computed (registry : Registry) (C : String → Prop) : Expr → Prop
  | .name symbol _ => C symbol
  | .literal .. => True
  | .tuple parts _ | .closure _ parts _ => ComputedAll registry C parts
  | .apply f es typing =>
    ((f.role registry).handsOn = true → ComputedAll registry C es) ∧
      (f.role registry = .composes → typing.ty.isAggregate = false)

def ComputedAll (registry : Registry) (C : String → Prop) : List Expr → Prop
  | [] => True
  | e :: rest => Computed registry C e ∧ ComputedAll registry C rest

end

theorem computedAll_iff {es : List Expr} :
    ComputedAll registry C es ↔ ∀ e ∈ es, e.Computed registry C := by
  induction es with
  | nil => simp [ComputedAll]
  | cons e es ih => simp [ComputedAll, ih]

mutual

@[reducible] def decideComputed (registry : Registry) (C : String → Prop) [DecidablePred C] :
    (e : Expr) → Decidable (e.Computed registry C)
  | .name symbol _ => inferInstanceAs (Decidable (C symbol))
  | .literal .. => inferInstanceAs (Decidable True)
  | .tuple parts _ | .closure _ parts _ => decideComputedAll registry C parts
  | .apply _ es _ =>
    have := decideComputedAll registry C es
    inferInstanceAs (Decidable ((_ → _) ∧ (_ → _)))

@[reducible] def decideComputedAll (registry : Registry) (C : String → Prop) [DecidablePred C] :
    (es : List Expr) → Decidable (ComputedAll registry C es)
  | [] => inferInstanceAs (Decidable True)
  | e :: rest =>
    have := decideComputed registry C e
    have := decideComputedAll registry C rest
    inferInstanceAs (Decidable (_ ∧ _))

end

end Expr

namespace Progress

def AllDone (c : Progress) (v : Content) : Prop := ∀ key ∈ v.views, c.IsDone key

theorem AllDone.mono (h : c.AllDone v) (hr : c.realized ⊆ c'.realized) : c'.AllDone v :=
  fun key hkey => (h key hkey).mono hr

def Clears (C : String → Prop) (c : Progress) : Prop := ∀ x, C x → c.AllDone (c.store x)

theorem Clears.read (h : c.Clears C) (e : Expr) : (c.read registry e).2.Clears C := by
  intro x hx
  rw [store_read]
  exact (h x hx).mono (realized_read c e)

theorem call_done (harguments : (f.role registry).handsOn = true → ∀ v ∈ vs, c.AllDone v)
    (hcomposes : f.role registry = .composes → typing.ty.isAggregate = false) :
    (c.call registry f es typing vs).2.AllDone (c.call registry f es typing vs).1 := by
  have hfirst : (f.role registry).handsOn = true → c.AllDone (vs.headD .plain) := by
    intro hrole
    cases vs with
    | nil => simp [AllDone, Content.views]
    | cons v vs => exact harguments hrole v mem_cons_self
  unfold call
  split
  · rename_i hrole
    rw [hrole] at harguments
    intro key hkey
    obtain ⟨v, hv, hkey⟩ := Content.mem_viewsAll.1 hkey
    exact harguments rfl v hv key hkey
  · rename_i index hrole
    rw [hrole] at hfirst
    exact Content.views_field (fun index key hkey => hkey.cons index) (hfirst rfl) index typing.ty
  · rename_i hrole
    rw [hrole] at hfirst
    exact (hfirst rfl).mono (subset_append_right _ _)
  · simp [AllDone, Content.views]
  · rename_i hrole
    rw [hcomposes hrole]
    simp [AllDone, Content.views]
  · simp [AllDone, Content.views]

mutual

theorem read_done : ∀ {c : Progress} {e : Expr}, c.Clears C → e.Computed registry C →
    (c.read registry e).2.AllDone (c.read registry e).1
  | _, .name symbol _, hc, he => hc symbol he
  | _, .literal .., _, _ => by simp [read, AllDone, Content.views]
  | c, .tuple elements _, hc, he => by
    intro key hkey
    obtain ⟨v, hv, hkey⟩ := Content.mem_viewsAll.1 hkey
    exact readAll_done hc he v hv key hkey
  | c, .closure _ captured _, hc, he => by
    intro key hkey
    obtain ⟨v, hv, hkey⟩ := Content.mem_viewsAll.1 hkey
    exact readAll_done hc he v hv key hkey
  | c, .apply f es typing, hc, he => call_done (fun hrole => readAll_done hc (he.1 hrole)) he.2

theorem readAll_done :
    ∀ {c : Progress} {es : List Expr}, c.Clears C → Expr.ComputedAll registry C es →
    ∀ v ∈ (c.readAll registry es).1, (c.readAll registry es).2.AllDone v
  | _, [], _, _ => by simp [readAll]
  | c, e :: rest, hc, hes => by
    exact forall_mem_cons.2 ⟨(read_done hc hes.1).mono (realized_readAll _ rest), readAll_done (hc.read e) hes.2⟩

end

end Progress

namespace Stmt

mutual

/-- Whether a statement binds the names `C` to computed expressions only, and hands back nothing
else. -/
def Computes (registry : Registry) (C : String → Prop) : Stmt → Prop
  | .bind target value => ∀ x ∈ target.symbol?, C x → value.Computed registry C
  | .ret value => value.Computed registry C
  | .branch _ whenTrue whenFalse => ComputesAll registry C whenTrue ∧ ComputesAll registry C whenFalse
  | .loop _ body => ComputesAll registry C body
  | _ => True

def ComputesAll (registry : Registry) (C : String → Prop) : List Stmt → Prop
  | [] => True
  | s :: rest => Computes registry C s ∧ ComputesAll registry C rest

end

mutual

@[reducible] def decideComputes (registry : Registry) (C : String → Prop) [DecidablePred C] :
    (s : Stmt) → Decidable (s.Computes registry C)
  | .bind target value =>
    have := Expr.decideComputed registry C value
    inferInstanceAs (Decidable (∀ x ∈ target.symbol?, C x → value.Computed registry C))
  | .ret value => Expr.decideComputed registry C value
  | .branch _ whenTrue whenFalse =>
    have := decideComputesAll registry C whenTrue
    have := decideComputesAll registry C whenFalse
    inferInstanceAs (Decidable (_ ∧ _))
  | .loop _ body => decideComputesAll registry C body
  | .procedure .. | .structDef .. | .typedef .. | .namespaceDef .. | .header .. | .declare .. =>
    inferInstanceAs (Decidable True)

@[reducible] def decideComputesAll (registry : Registry) (C : String → Prop) [DecidablePred C] :
    (ss : List Stmt) → Decidable (ComputesAll registry C ss)
  | [] => inferInstanceAs (Decidable True)
  | s :: rest =>
    have := decideComputes registry C s
    have := decideComputesAll registry C rest
    inferInstanceAs (Decidable (_ ∧ _))

end

instance (registry : Registry) (C : String → Prop) [DecidablePred C] (ss : List Stmt) :
    Decidable (ComputesAll registry C ss) := decideComputesAll registry C ss

theorem computesAll_append {ss ts : List Stmt} (hs : ComputesAll registry C ss)
    (ht : ComputesAll registry C ts) : ComputesAll registry C (ss ++ ts) := by
  induction ss with
  | nil => exact ht
  | cons s ss ih => exact ⟨hs.1, ih hs.2⟩

end Stmt

/-- A run of a block that binds some names to computed expressions only leaves nothing pending in
them, and hands back nothing pending. -/
theorem Exec.clears {block : List Stmt} {o : Outcome Progress Content}
    (h : Exec (Progress.machine registry) c block o)
    (hblock : Stmt.ComputesAll registry C block) (hc : c.Clears C) :
    o.config.Clears C ∧ ∀ v c', o = .leaves (some v) c' → c'.AllDone v := by
  have hread : ∀ {c c' : Progress} {e : Expr} {v : Content}, c.Clears C →
      (Progress.machine registry).eval c e v c' → c'.Clears C := by
    intro c c' e v hc heval
    have hsame : (c.read registry e).2 = c' := congrArg Prod.snd heval
    exact hsame ▸ hc.read e
  have hdone : ∀ {c c' : Progress} {e : Expr} {v : Content}, c.Clears C → e.Computed registry C →
      (Progress.machine registry).eval c e v c' → c'.AllDone v := by
    intro c c' e v hc he heval
    have hvalue := @Progress.read_done registry C c e hc he
    rwa [show c.read registry e = (v, c') from heval] at hvalue
  induction h with
  | nil => exact ⟨hc, nofun⟩
  | pause => exact ⟨hc, nofun⟩
  | @bind _ c' _ _ x v _ _ hx heval _ ih =>
    refine ih hblock.2 fun z hz => ?_
    show c'.AllDone (Function.update c'.store x v z)
    by_cases hzx : z = x
    · subst hzx
      rw [Function.update_self]
      exact hdone hc (hblock.1 z hx hz) heval
    · rw [Function.update_of_ne hzx]
      exact hread hc heval z hz
  | ret heval =>
    refine ⟨hread hc heval, fun v c' ho => ?_⟩
    cases ho
    exact hdone hc hblock.1 heval
  | @branch _ _ _ _ _ b whenTrue whenFalse _ _ heval _ _ _ ihb ih =>
    have hchosen : Stmt.ComputesAll registry C (if b then whenTrue else whenFalse) := by
      cases b
      · exact hblock.1.2
      · exact hblock.1.1
    exact ih hblock.2 (ihb hchosen (hread hc heval)).1
  | @branchLeaves _ _ _ _ _ b whenTrue whenFalse _ _ heval _ _ ihb =>
    have hchosen : Stmt.ComputesAll registry C (if b then whenTrue else whenFalse) := by
      cases b
      · exact hblock.1.2
      · exact hblock.1.1
    exact ihb hchosen (hread hc heval)
  | loopEnd heval _ _ ih => exact ih hblock.2 (hread hc heval)
  | loopStep heval _ _ _ ihb ih => exact ih hblock (ihb hblock.1 (hread hc heval)).1
  | loopLeaves heval _ _ ihb => exact ihb hblock.1 (hread hc heval)
  | define _ _ ih => exact ih hblock.2 hc

end DataParallel
