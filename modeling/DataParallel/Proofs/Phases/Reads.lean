import DataParallel.Proofs.Phases.Mentions

/-! What a task reads, one bind after another.

The tables, the task and the binds that it puts in front of a statement read names of one set only.
A bind adds its target to the set, and the target is a temporary or was drawn for a name of the set.
-/

namespace DataParallel

open DataParallel.Expr List Name

variable {G G' N N' N₁ : String → Prop} {e : Expr} {x : String} {typing : Typing} {binds binds' : List Stmt}

namespace Expr

mutual

/-- An expression reads names in `N` only and calls names in `G` only. -/
def ReadsOnly (N G : String → Prop) : Expr → Prop
  | .name x _ => N x
  | .literal .. => True
  | .tuple parts _ => ReadOnly N G parts
  | .apply function parts _ | .closure function parts _ => (∀ z ∈ function.names, G z) ∧ ReadOnly N G parts

def ReadOnly (N G : String → Prop) : List Expr → Prop
  | [] => True
  | e :: rest => ReadsOnly N G e ∧ ReadOnly N G rest

end

section
variable {es : List Expr}

theorem readOnly_iff : ReadOnly N G es ↔ ∀ e ∈ es, e.ReadsOnly N G := by
  induction es with
  | nil => simp [ReadOnly]
  | cons e es ih => simp [ReadOnly, ih]

theorem readsOnly_of_symbol (h : e.symbol? = some x) : e.ReadsOnly N G ↔ N x := by
  cases e with
  | name => cases h; rfl
  | _ => cases h

mutual

theorem ReadsOnly.imp (hN : ∀ z, N z → N' z) (hG : ∀ z, G z → G' z) :
    ∀ {e : Expr}, e.ReadsOnly N G → e.ReadsOnly N' G'
  | .name x _, h => hN x h
  | .literal .., _ => trivial
  | .tuple _ _, h => ReadOnly.imp hN hG h
  | .apply .., h | .closure .., h => ⟨fun z hz => hG z (h.1 z hz), ReadOnly.imp hN hG h.2⟩

theorem ReadOnly.imp (hN : ∀ z, N z → N' z) (hG : ∀ z, G z → G' z) :
    ∀ {es : List Expr}, ReadOnly N G es → ReadOnly N' G' es
  | [], _ => trivial
  | _ :: _, h => ⟨h.1.imp hN hG, h.2.imp hN hG⟩

end

theorem ReadsOnly.mono (h : e.ReadsOnly N G) (hN : ∀ z, N z → N' z) :
    e.ReadsOnly N' G := h.imp hN fun _ hz => hz

theorem readsOnly_applySnippet {snippet : String} (hG : G snippet)
    (h : ∀ e ∈ es, e.ReadsOnly N G) : (applySnippet snippet es typing).ReadsOnly N G :=
  ⟨fun _ hz => mem_singleton.1 hz ▸ hG, readOnly_iff.2 h⟩

end

end Expr

def Name.With (N : String → Prop) (y z : String) : Prop := N z ∨ z = y

namespace Stmt

/-- Binds that read names in `N` and what was bound before them, where `N'` is what can be read
behind them. `T` says which targets they may have. -/
inductive Binds (T : (String → Prop) → String → Prop) (G : String → Prop) :
    (String → Prop) → List Stmt → (String → Prop) → Prop where
  | nil {N : String → Prop} : Binds T G N [] N
  | cons {N N' : String → Prop} {y : String} {target value : Expr} {rest : List Stmt} :
      target.symbol? = some y → T N y → value.ReadsOnly N G → Binds T G (With N y) rest N' →
      Binds T G N (.bind target value :: rest) N'

section
variable {T : (String → Prop) → String → Prop}

theorem Binds.append (h : Binds T G N binds N₁) (h' : Binds T G N₁ binds' N') :
    Binds T G N (binds ++ binds') N' := by
  induction h with
  | nil => exact h'
  | cons hy hdrawn hvalue _ ih => exact .cons hy hdrawn hvalue (ih h')

theorem Binds.subset (h : Binds T G N binds N') : ∀ z, N z → N' z := by
  induction h with
  | nil => exact fun _ hz => hz
  | cons _ _ _ _ ih => exact fun z hz => ih z (.inl hz)

end

end Stmt

namespace Phases
open Name (With)

variable {R : Prop} {S : String → Prop} {P : (String → Prop) → Prop} {Γ : Context} {s s' t : State} {task : Task}
  {results : List (Expr × Completion)} {entry y : String} {value : Expr} {fields parts : List Expr} {k : Head}
  {completion : Completion}

theorem Head.readsOnly_build :
    (k.build parts).ReadsOnly N G ↔ (∀ z ∈ k.names, G z) ∧ ∀ e ∈ parts, e.ReadsOnly N G := by
  cases k with
  | tuple => simp [build, names, ReadsOnly, readOnly_iff]
  | _ => simp [build, names, ReadsOnly, readOnly_iff]

/-- A name that analysis draws for a name in `N`, or a temporary. -/
def DrawnFor (N : String → Prop) (y : String) : Prop :=
  (∃ n : Nat, y = "_sync" ++ toString n) ∨ ∃ (x : String) (n : Nat), N x ∧ y = x ++ "_phase" ++ toString n

theorem DrawnFor.ne_container (h : DrawnFor N y) (w : String) : y ≠ container w := by
  rcases h with ⟨n, rfl⟩ | ⟨x, n, -, rfl⟩
  · exact append_toString_ne_container _ w n
  · exact append_toString_ne_container _ w n

/-- The tables read names in `N` and call names in `G`, and storage is on record for names in `S`.
-/
structure State.ReadsOnly (N G S : String → Prop) (s : State) : Prop where
  standIns : ∀ {x e}, s.standIn? x = some e → ∃ y, e.symbol? = some y ∧ N y
  fields : ∀ {x fields}, s.componentsOf? x = some fields → ∀ e ∈ fields, e.ReadsOnly N G
  closures : ∀ {x e}, s.closureOf? x = some e → e.ReadsOnly N G
  storage : ∀ {w}, s.completions.contains (container w) = true → S w

namespace State.ReadsOnly

section
variable (h : s.ReadsOnly N G S)
include h

theorem tables (hN : ∀ z, N z → N' z) : s.Tables (fun _ e => ∃ y, e.symbol? = some y ∧ N' y)
    (fun _ fields => ∀ e ∈ fields, e.ReadsOnly N' G) (fun _ e => e.ReadsOnly N' G) where
  standIns hx := (h.standIns hx).imp fun y hy => hy.imp_right (hN y)
  fields hx e he := (h.fields hx e he).mono hN
  closures hx := (h.closures hx).mono hN

theorem mono (hN : ∀ z, N z → N' z) : s.ReadsOnly N' G S :=
  have ht := h.tables hN
  ⟨ht.standIns, ht.fields, ht.closures, h.storage⟩

theorem imp (hN : ∀ z, N z → N' z) (hG : ∀ z, G z → G' z) : s.ReadsOnly N' G' S where
  standIns hx := (h.standIns hx).imp fun y hy => hy.imp_right (hN y)
  fields hx e he := (h.fields hx e he).imp hN hG
  closures hx := (h.closures hx).imp hN hG
  storage := h.storage

theorem forget {names : List String} (hf : Forgets s names t)
    (hstorage : ∀ {w}, t.completions.contains (container w) = true →
      s.completions.contains (container w) = true ∨ S w) :
    t.ReadsOnly N G S :=
  have ht := (h.tables fun _ => id).forget hf
  ⟨ht.standIns, ht.fields, ht.closures, fun hw => (hstorage hw).elim h.storage id⟩

theorem substitute (he : e.symbol? = some y) (hy : N y) : (s.substitute x e).ReadsOnly N G S :=
  have ht := (h.tables fun _ => id).substitute ⟨y, he, hy⟩
  ⟨ht.standIns, ht.fields, ht.closures, h.storage⟩

section
variable (hy : ∀ w, (s.phases.derive x).1 ≠ container w)
include hy

theorem realized (hx : ∀ w, x = container w → S w) :
    (s.realized x value typing).ReadsOnly (With N (s.phases.derive x).1) G S :=
  have ht : (s.realized x value typing).Tables _ _ _ := (h.tables fun _ => .inl).realized ⟨_, rfl, .inr rfl⟩
  ⟨ht.standIns, ht.fields, ht.closures, storage_drawn h.storage hy hx⟩

theorem rebuilt (hx : ∀ w, x = container w → S w) (hfields : ∀ e ∈ fields, e.ReadsOnly N G) :
    (s.rebuilt x fields typing).ReadsOnly (With N (s.phases.derive x).1) G S :=
  have ht := (h.tables fun _ => .inl).rebuilt ⟨_, rfl, .inr rfl⟩ fun e he => (hfields e he).mono fun _ => .inl
  ⟨ht.standIns, ht.fields, ht.closures, storage_drawn h.storage hy hx⟩

theorem reclosed (hvalue : value.ReadsOnly N G) :
    (s.reclosed x e value).ReadsOnly (With N (s.phases.derive x).1) G S := by
  have hN : ∀ z, N z → With N (s.phases.derive x).1 z := fun _ => .inl
  have ht : (s.reclosed x e value).Tables _ _ _ := (h.tables hN).reclosed (hvalue.mono hN)
  refine ⟨ht.standIns, ht.fields, ht.closures, fun {w} hw => ?_⟩
  exact h.storage ((contains_setCompletion.1 hw).resolve_left (hy w).symm)

end

theorem record (hvalue : value.ReadsOnly N G) (hx : ∀ w, x = container w → S w) :
    (s.record entry x value completion).ReadsOnly N G S := by
  have ht : (s.record entry x value completion).Tables _ _ _ := ((h.tables fun _ => id).but x).record
    (fun fields hf => ?_) fun e he => ?_
  · refine ⟨ht.standIns, ht.fields, ht.closures, fun {w} hw => ?_⟩
    exact ((contains_setCompletion (s := s) (c := completion)).1 hw).elim (fun hw => hx w hw.symm) h.storage
  · rcases recordedFields_cases hf with ⟨function, typing, rfl, -⟩ | ⟨y, typing, rfl, hy⟩
    · exact readOnly_iff.1 hvalue.2
    · exact h.fields hy
  · rcases recordedClosure_cases he with ⟨rfl, -⟩ | ⟨y, typing, rfl, hy⟩
    · exact hvalue
    · exact h.closures hy

theorem hoisted (hvalue : value.ReadsOnly N G) (hy : ∀ w, s.temporaries.next.1 ≠ container w) :
    (s.hoisted entry value completion).ReadsOnly (With N s.temporaries.next.1) G S := by
  have hpend : (s.freshTemporary.2.pend (value.renamed s.temporaries.next.1) value).ReadsOnly
      (With N s.temporaries.next.1) G S :=
    (h.mono fun _ => .inl).forget (.none (fun _ => rfl) (fun _ => rfl) (fun _ => rfl)) .inl
  exact hpend.record (hvalue.mono fun _ hz => .inl hz) fun w hw => absurd hw (hy w)

theorem current_symbol (x : String) (typing : Typing) :
    ∃ y, (s.current (.name x typing)).symbol? = some y := by
  rw [current_name]
  cases he : s.standIn? x with
  | none => exact ⟨x, rfl⟩
  | some e => exact (h.standIns he).imp fun _ hy => hy.1

theorem current (hx : N x) : (s.current (.name x typing)).ReadsOnly N G := by
  rw [current_name]
  cases he : s.standIn? x with
  | none => exact hx
  | some e =>
    obtain ⟨y, hy, hN⟩ := h.standIns he
    exact (readsOnly_of_symbol hy).2 hN

end

theorem bodyStart {inEntry : Bool} {parameters : List Expr} {phases temporaries : Supply}
    (hstorage : ∀ w,
      (bodyStart inEntry parameters phases temporaries).completions.contains (container w) = true →
      S w) : (bodyStart inEntry parameters phases temporaries).ReadsOnly N G S :=
  ⟨fun hx => (bare_bodyStart.standIns hx).elim, fun hx => (bare_bodyStart.fields hx).elim,
    fun hx => (bare_bodyStart.closures hx).elim,
    fun {w} hw => hstorage w hw⟩

end State.ReadsOnly

/-- The sets of names that can be read at some point: what was drawn can be added, and where
something is handed back, storage that is on record can be read together with the view in front of
it. -/
structure Readable (R : Prop) (G S : String → Prop) (P : (String → Prop) → Prop) : Prop where
  boundary : G Snippet.phaseBoundary
  tuple : G Snippet.makeTuple
  drawn : ∀ {N y}, P N → DrawnFor N y → P (With N y)
  stored : ∀ {N w}, P N → N (container w) → S w
  storage : ∀ {N w}, R → P N → S w → N w → N (container w)

def Leaves (G S : String → Prop) (P : (String → Prop) → Prop) (N : String → Prop)
    (results : List (Expr × Completion)) (binds : List Stmt) (s' : State) : Prop :=
  ∃ N', Stmt.Binds DrawnFor G N binds N' ∧ P N' ∧ s'.ReadsOnly N' G S ∧ ∀ r ∈ results, r.1.ReadsOnly N' G

theorem Leaves.nothing (hP : P N) (hs : s.ReadsOnly N G S) (he : ∀ r ∈ results, r.1.ReadsOnly N G) :
    Leaves G S P N results [] s :=
  ⟨N, .nil, hP, hs, he⟩

theorem Leaves.one (hP : P N) (hs : s.ReadsOnly N G S) (he : e.ReadsOnly N G) :
    Leaves G S P N [(e, completion)] [] s :=
  .nothing hP hs fun _ hr => mem_singleton.1 hr ▸ he

theorem Leaves.kept (h : Leaves G S P N results binds s) (he : e.ReadsOnly N G) :
    Leaves G S P N [(e, completion)] binds s := by
  obtain ⟨N', hbinds, hP, hs, -⟩ := h
  refine ⟨N', hbinds, hP, hs, fun r hr => ?_⟩
  cases mem_singleton.1 hr
  exact he.mono hbinds.subset

theorem Leaves.bind {target : Expr} {result : Expr} (hreadable : Readable R G S P)
    (h : Leaves G S P N results binds s)
    (hbind : ∀ N', P N' → s.ReadsOnly N' G S → (∀ r ∈ results, r.1.ReadsOnly N' G) → (∀ z, N z → N' z) →
      target.symbol? = some y ∧ DrawnFor N' y ∧ value.ReadsOnly N' G ∧ t.ReadsOnly (With N' y) G S)
    (hresult : result.symbol? = some y) :
    Leaves G S P N [(result, completion)] (binds ++ [.bind target value]) t := by
  obtain ⟨N', hbinds, hP, hs, hr⟩ := h
  obtain ⟨hy, hdrawn, hvalue, ht⟩ := hbind N' hP hs hr hbinds.subset
  refine ⟨_, hbinds.append (.cons hy hdrawn hvalue .nil), hreadable.drawn hP hdrawn, ht, fun r hr => ?_⟩
  cases mem_singleton.1 hr
  exact (readsOnly_of_symbol hresult).2 (.inr rfl)

theorem Leaves.build (h : Leaves G S P N results binds s)
    (hk : ∀ z ∈ k.names, G z) : Leaves G S P N [(k.build (results.map Prod.fst), completion)] binds s := by
  obtain ⟨N', hbinds, hP, hs, hr⟩ := h
  refine ⟨N', hbinds, hP, hs, fun r hmem => ?_⟩
  cases mem_singleton.1 hmem
  refine Head.readsOnly_build.2 ⟨hk, fun e he => ?_⟩
  obtain ⟨r, hmem, rfl⟩ := mem_map.1 he
  exact hr r hmem

theorem Leaves.recast {completion' : Completion} (h : Leaves G S P N [(e, completion)] binds s) :
    Leaves G S P N [(e, completion')] binds s := by
  obtain ⟨N', hbinds, hP, hs, hr⟩ := h
  refine ⟨N', hbinds, hP, hs, fun r hmem => ?_⟩
  cases mem_singleton.1 hmem
  exact hr (e, completion) mem_cons_self

theorem drawnFor_derived (hs : s.Stems) (hx : N x) : DrawnFor N (s.phases.derive x).1 :=
  .inr ⟨x, s.phases.counter, hx, hs.derive x⟩

theorem drawnFor_temporary (hs : s.Stems) : DrawnFor N s.temporaries.next.1 :=
  .inl ⟨s.temporaries.counter, hs.next⟩

theorem Leaves.hoist (hreadable : Readable R G S P)
    (h : Leaves G S P N [(value, completion)] binds s) (hstems : s.Stems)
    (hnext : ∀ N', P N' → (s.hoisted entry value completion).ReadsOnly N' G S → N' s.temporaries.next.1 →
      Leaves G S P N' results binds' t) :
    Leaves G S P N results (binds ++ s.hoist value :: binds') t := by
  obtain ⟨N', hbinds, hP, hs, hr⟩ := h
  have hdrawn : DrawnFor N' s.temporaries.next.1 := drawnFor_temporary hstems
  have hvalue : value.ReadsOnly N' G := hr (value, completion) mem_cons_self
  obtain ⟨N'', hbinds', hrest⟩ := hnext _ (hreadable.drawn hP hdrawn) (hs.hoisted hvalue hdrawn.ne_container) (.inr rfl)
  exact ⟨N'', hbinds.append (.cons rfl hdrawn hvalue hbinds'), hrest⟩

theorem Leaves.realize (hreadable : Readable R G S P) (hstems : s.Stems) (hP : P N)
    (hs : s.ReadsOnly N G S) (hx : e.symbol? = some x) (he : e.ReadsOnly N G) :
    Leaves G S P N [(.name (s.phases.derive x).1 typing, completion)] [s.boundary x e typing]
      (s.realized x e typing) := by
  have hN := (readsOnly_of_symbol hx).1 he
  have hdrawn : DrawnFor N (s.phases.derive x).1 := drawnFor_derived hstems hN
  have hvalue : (applySnippet Snippet.phaseBoundary [e] typing).ReadsOnly N G :=
    readsOnly_applySnippet hreadable.boundary fun f hf => mem_singleton.1 hf ▸ he
  refine ⟨_, .cons rfl hdrawn hvalue .nil, hreadable.drawn hP hdrawn,
    hs.realized hdrawn.ne_container fun w hw => hreadable.stored hP (hw ▸ hN), fun r hr => ?_⟩
  cases mem_singleton.1 hr
  exact .inr rfl

theorem Leaves.rebuild (hreadable : Readable R G S P) (hstems : s.Stems)
    (h : Leaves G S P N results binds s) (hx : N x)
    (hparts : ∀ N', P N' → s.ReadsOnly N' G S → (∀ e ∈ results.map Prod.fst, e.ReadsOnly N' G) →
      ∀ e ∈ parts, e.ReadsOnly N' G) :
    Leaves G S P N [(.name (s.phases.derive x).1 typing, completion)] (binds ++ [s.tupleBind x parts typing])
      (s.rebuilt x parts typing) := by
  refine h.bind hreadable (fun N' hP hs hr hsub => ?_) rfl
  have hdrawn : DrawnFor N' (s.phases.derive x).1 := drawnFor_derived hstems (hsub x hx)
  have hread := hparts N' hP hs (forall_mem_map.2 hr)
  exact ⟨rfl, hdrawn, readsOnly_applySnippet hreadable.tuple hread,
    hs.rebuilt hdrawn.ne_container (fun w hw => hreadable.stored hP (hw ▸ hsub x hx)) hread⟩

theorem Derives.named_symbol {demand : Ty} {result : Expr × Completion}
    (h : Derives Γ (.named e demand) s [result] binds s') (he : e.symbol? = some x) :
    ∃ y, result.1.symbol? = some y := by
  cases h with
  | met | closureKept | tupleKept => exact ⟨x, he⟩
  | closureRebuilt | tupleRebuilt | realized => exact ⟨_, rfl⟩

/-- The binds of a task read what is readable, and each adds a drawn name to that. -/
theorem Derives.leaves (hreadable : Readable R G S P) (h : Derives Γ task s results binds s')
    (hstems : s.Stems)
    (hP : P N) (hs : s.ReadsOnly N G S) (htask : ∀ e ∈ task.exprs, e.ReadsOnly N G)
    (hR : task.returns = true → R) : Leaves G S P N results binds s' := by
  induction h generalizing N with
  | nil => exact .nothing hP hs (by simp)
  | cons h₁ _ ih₁ ih₂ =>
    obtain ⟨N₁, hbinds₁, hP₁, hs₁, hr₁⟩ := ih₁ hstems hP hs
      (fun e he => htask e (mem_append_left _ he)) fun h => hR (by simp [h])
    obtain ⟨N₂, hbinds₂, hP₂, hs₂, hr₂⟩ := ih₂ (hstems.mono h₁.grows) hP₁ hs₁
      (fun e he => (htask e (mem_append_right _ he)).mono hbinds₁.subset) fun h =>
        hR (by simp_all [Task.returns, Task.anyReturns])
    refine ⟨N₂, hbinds₁.append hbinds₂, hP₂, hs₂, fun r hr => ?_⟩
    rcases mem_cons.1 hr with rfl | hr
    · exact (hr₁ _ mem_cons_self).mono hbinds₂.subset
    · exact hr₂ r hr
  | name | returnedName => exact .one hP hs (hs.current (htask _ mem_cons_self))
  | literal | demandLiteral | returnedLiteral => exact .one hP hs trivial
  | node _ _ ih =>
    have hparts := Head.readsOnly_build.1 (htask _ mem_cons_self)
    exact (ih hstems hP hs (by simpa using hparts.2) (by simp)).build hparts.1
  | @forcing function _ typing _ _ _ _ _ _ _ _ _ _ _ _ _ _ ih =>
    obtain ⟨hf, hparts⟩ := htask _ mem_cons_self
    exact @Leaves.build _ _ _ _ _ _ _ (.call function typing) _ (ih hstems hP hs (fun e he =>
      readOnly_iff.1 hparts e (Task.mem_exprsAll_demands he)) (by simp)) hf
  | @demandName x typing _ s _ _ _ h ih =>
    have hcurrent : (s.current (.name x typing)).ReadsOnly N G := hs.current (htask _ mem_cons_self)
    obtain ⟨N', hbinds, hP', hs', hr⟩ := ih hstems hP hs (fun f hf => mem_singleton.1 hf ▸ hcurrent) nofun
    refine ⟨N', hbinds, hP', ?_, hr⟩
    split
    · obtain ⟨y, hy⟩ := hs.current_symbol x typing
      obtain ⟨z, hz⟩ := h.named_symbol hy
      exact hs'.substitute hz ((readsOnly_of_symbol hz).1 (hr _ mem_cons_self))
    · exact hs'
  | demandNode _ _ ih =>
    have hparts := Head.readsOnly_build.1 (htask _ mem_cons_self)
    exact (ih hstems hP hs (fun e he => hparts.2 e (Task.mem_exprsAll_demands he)) (by simp)).build hparts.1
  | demandCall _ _ ih | returnedClosure _ ih | returnedCall _ _ ih => exact (ih hstems hP hs htask nofun).recast
  | @demandHoisted _ _ _ _ _ s₁ _ _ _ _ _ h₁ _ _ ih₁ ih₂ | @returnedHoisted _ _ _ _ s₁ _ _ _ _ _ _ h₁ _ _ _ ih₁ ih₂ =>
    have hstems₁ := hstems.mono h₁.grows
    refine (ih₁ hstems hP hs htask nofun).hoist hreadable hstems₁ fun N' hP' hs' hy =>
      ih₂ (hstems₁.mono (s₁.grows_hoisted _ _ _)) hP' hs' (fun f hf => ?_) hR
    cases mem_singleton.1 hf
    exact hy
  | met => exact .one hP hs (htask _ mem_cons_self)
  | closureKept _ hclosure _ ih =>
    exact (ih hstems hP hs (fun f hf => mem_singleton.1 hf ▸ hs.closures hclosure) nofun).kept (htask _ mem_cons_self)
  | @closureRebuilt _ _ _ _ x _ s' _ hx hclosure hd _ ih =>
    have hN := (readsOnly_of_symbol hx).1 (htask _ mem_cons_self)
    refine (ih hstems hP hs (fun f hf => mem_singleton.1 hf ▸ hs.closures hclosure) nofun).bind hreadable
      (fun N' hP' hs' hr hsub => ?_) rfl
    have hdrawn : DrawnFor N' (s'.phases.derive x).1 := drawnFor_derived (hstems.mono hd.grows) (hsub x hN)
    exact ⟨rfl, hdrawn, hr _ mem_cons_self, hs'.reclosed hdrawn.ne_container (hr _ mem_cons_self)⟩
  | tupleKept _ _ _ hfields _ _ ih =>
    exact (ih hstems hP hs (fun f hf => hs.fields hfields f (Task.mem_exprsAll_demands hf)) (by simp)).kept
      (htask _ mem_cons_self)
  | tupleRebuilt hx _ _ hfields hd _ ih =>
    exact (ih hstems hP hs (fun f hf => hs.fields hfields f (Task.mem_exprsAll_demands hf)) (by simp)).rebuild
      hreadable (hstems.mono hd.grows) ((readsOnly_of_symbol hx).1 (htask _ mem_cons_self)) fun _ _ _ hr => hr
  | realized hx _ _ _ _ _ => exact .realize hreadable hstems hP hs hx (htask _ mem_cons_self)
  | returnedRealized _ hy _ _ _ => exact .realize hreadable hstems hP hs hy (hs.current (htask _ mem_cons_self))
  | returnedTupleKept _ _ hfields _ _ _ ih =>
    exact (ih hstems hP hs (by simpa using hs.fields hfields) fun _ => hR rfl).kept (hs.current (htask _ mem_cons_self))
  | returnedTupleRebuilt _ hy hfields hd _ hstored ih =>
    refine (ih hstems hP hs (by simpa using hs.fields hfields) fun _ => hR rfl).rebuild hreadable
      (hstems.mono hd.grows) ((readsOnly_of_symbol hy).1 (hs.current (htask _ mem_cons_self)))
      fun N' hP' hs' hr e he => ?_
    obtain ⟨f, hf, hstorage⟩ := mem_storages hstored e he
    rcases storageOf_cases hstorage with rfl | ⟨w, hw, hw', hcontains⟩
    · exact hr e hf
    · refine (readsOnly_of_symbol hw').2 (hreadable.storage (hR rfl) hP' (hs'.storage hcontains) ?_)
      exact (readsOnly_of_symbol hw).1 (hr f hf)
  | @returnedTuple elements typing _ _ _ _ _ ih =>
    have hparts : ∀ e ∈ elements, e.ReadsOnly N G := readOnly_iff.1 (htask _ mem_cons_self)
    exact @Leaves.build _ _ _ _ _ _ _ (.tuple typing) _ (ih hstems hP hs (by simpa using hparts)
      fun _ => hR rfl) (by simp [Head.names])

end Phases
end DataParallel
