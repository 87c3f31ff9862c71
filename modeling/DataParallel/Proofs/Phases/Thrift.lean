import DataParallel.Proofs.Phases.Surveys
import DataParallel.Proofs.RebuiltValues

/-! Realizations are not repeated.

A name of the text that was realized is read through another one until it is bound again, in all
blocks inside. So behind its boundary there is no other one, unless the name is bound in between.
That a loop forgets what its body binds before its test is read does no harm: the name still counts
as complete. -/

namespace DataParallel

open List Name Phases.State Stmt

variable {x y : String} {block suite : List Stmt}

namespace Stmt

/-- `suite` is a block, or one inside of it. -/
inductive IsSuite (suite : List Stmt) : List Stmt → Prop where
  | self : IsSuite suite suite
  | inside {s : Stmt} {block inner : List Stmt} :
    s ∈ block → inner ∈ s.blocks → IsSuite suite inner → IsSuite suite block

/-- The bind of a realized name to a phase boundary on `x`. -/
def Realizes (x : String) (s : Stmt) : Prop :=
  ∃ y typing value typing', s = .bind (.name y typing) (.applySnippet Snippet.phaseBoundary [value] typing') ∧
    IsRealized y ∧ value.symbol? = some x

/-- A statement realizes `x`, or one inside of it. -/
inductive RealizesInside (x : String) : Stmt → Prop where
  | self {s : Stmt} : s.Realizes x → RealizesInside x s
  | inside {s t : Stmt} {block : List Stmt} : block ∈ s.blocks → t ∈ block → RealizesInside x t → RealizesInside x s

/-- Behind a statement `x` is realized: it was before or is by the statement, and it is not bound
there. -/
def Keeps (x : String) (p : Prop) (s : Stmt) : Prop := x ∉ localNames [s] ∧ (p ∨ s.Realizes x)

/-- No statement realizes `x` where it is realized; `p` says whether it is in front of a block. -/
inductive Thrifty (x : String) : Prop → List Stmt → Prop where
  | nil (p : Prop) : Thrifty x p []
  | cons {p : Prop} {s : Stmt} {rest : List Stmt} : (p → ¬ s.Realizes x) →
    (∀ block ∈ s.blocks, Thrifty x (p ∧ x ∉ localNames [s]) block) → Thrifty x (s.Keeps x p) rest →
    Thrifty x p (s :: rest)

section
variable {p : Prop} {s : Stmt} {rest : List Stmt}

theorem mem_localNames_cons :
    x ∈ localNames (s :: rest) ↔ x ∈ localNames [s] ∨ x ∈ localNames rest := by
  rw [← singleton_append, mem_localNames_append]

theorem mem_localNames_of_mem (hs : s ∈ block) (h : x ∈ localNames [s]) : x ∈ localNames block := by
  obtain ⟨before, after, rfl⟩ := append_of_mem hs
  exact mem_localNames_append.2 (.inr (mem_localNames_cons.2 (.inl h)))

theorem mem_localNames_of_blocks (hblock : block ∈ s.blocks) (h : x ∈ localNames block) :
    x ∈ localNames [s] := by
  cases s with
  | branch =>
    simp only [blocks, mem_cons, not_mem_nil, or_false] at hblock
    rcases hblock with rfl | rfl
    · exact mem_localNames_branch_iff.2 (.inl (.inl h))
    · exact mem_localNames_branch_iff.2 (.inl (.inr h))
  | loop =>
    cases mem_singleton.1 hblock
    exact mem_localNames_loop h
  | _ => cases hblock

theorem keeps_of_unbound (hp : p) (h : x ∉ localNames block) : block.foldl (Keeps x) p := by
  induction block generalizing p with
  | nil => exact hp
  | cons s rest ih =>
    rw [mem_localNames_cons, not_or] at h
    exact ih ⟨h.1, .inl hp⟩ h.2

namespace Thrifty

variable {j : Nat} {last : Stmt}

theorem append (h : Thrifty x p block) (hrest : Thrifty x (block.foldl (Keeps x) p) rest) :
    Thrifty x p (block ++ rest) := by
  induction h with
  | nil => exact hrest
  | cons hone hblocks _ _ ih => exact .cons hone hblocks (ih hrest)

theorem bound_before (h : Thrifty x p block) (hp : p) (hj : block[j]? = some last)
    (hlast : last.RealizesInside x) : ∃ k ≤ j, ∃ s, block[k]? = some s ∧ x ∈ localNames [s] := by
  induction h generalizing j last with
  | nil => simp at hj
  | @cons _ s _ hone _ _ ihblocks ih =>
    by_cases hx : x ∈ localNames [s]
    · exact ⟨0, Nat.zero_le j, s, rfl, hx⟩
    · cases j with
      | zero =>
        cases hj
        cases hlast with
        | self hself => exact absurd hself (hone hp)
        | inside hblock ht hinside =>
          obtain ⟨i, hi⟩ := mem_iff_getElem?.1 ht
          obtain ⟨k, -, t, hk, hbound⟩ := ihblocks _ hblock ⟨hp, hx⟩ hi hinside
          exact absurd (mem_localNames_of_blocks hblock (mem_localNames_of_mem (mem_of_getElem? hk) hbound)) hx
      | succ j =>
        obtain ⟨k, hkj, t, hk, hbound⟩ := ih ⟨hx, .inl hp⟩ hj hlast
        exact ⟨k + 1, Nat.succ_le_succ hkj, t, hk, hbound⟩

/-- Between two boundaries on `x` in a block, the second one possibly inside of a statement, `x` is
bound. -/
theorem between {i : Nat} {first : Stmt} (hx : ¬ IsRealized x) (h : Thrifty x p block)
    (hi : block[i]? = some first)
    (hj : block[j]? = some last) (hij : i < j) (hfirst : first.Realizes x) (hlast : last.RealizesInside x) :
    ∃ k, i < k ∧ k ≤ j ∧ ∃ s, block[k]? = some s ∧ x ∈ localNames [s] := by
  induction h generalizing i j with
  | nil => simp at hi
  | cons _ _ hrest _ ih =>
    obtain ⟨j, rfl⟩ := Nat.exists_eq_add_of_lt (Nat.zero_lt_of_lt hij)
    rw [Nat.zero_add] at hij hj ⊢
    cases i with
    | zero =>
      cases hi
      have hkept : x ∉ localNames [first] := by
        obtain ⟨y, _, _, _, rfl, hy, -⟩ := hfirst
        intro hmem
        cases Phases.mem_localNames_one hmem
        exact hx hy
      obtain ⟨k, hkj, t, hk, hbound⟩ := hrest.bound_before ⟨hkept, .inr hfirst⟩ hj hlast
      exact ⟨k + 1, Nat.succ_pos k, Nat.succ_le_succ hkj, t, hk, hbound⟩
    | succ i =>
      obtain ⟨k, hik, hkj, t, hk, hbound⟩ := ih hi hj (Nat.lt_of_succ_lt_succ hij)
      exact ⟨k + 1, Nat.succ_lt_succ hik, Nat.succ_le_succ hkj, t, hk, hbound⟩

theorem of_mem (h : Thrifty x p block) (hs : s ∈ block) (hinner : suite ∈ s.blocks) :
    ∃ q, Thrifty x q suite := by
  induction h with
  | nil => cases hs
  | cons _ hblocks _ _ ih =>
    rcases mem_cons.1 hs with rfl | hs
    · exact ⟨_, hblocks _ hinner⟩
    · exact ih hs

theorem inside (hsuite : IsSuite suite block) (h : Thrifty x p block) : ∃ q, Thrifty x q suite := by
  induction hsuite generalizing p with
  | self => exact ⟨p, h⟩
  | inside hs hinner _ ih =>
    obtain ⟨q, hq⟩ := h.of_mem hs hinner
    exact ih hq

end Thrifty

end

end Stmt

namespace Phases

variable {s s' t : State} {returns : Bool} {target value : Expr} {completion : Completion} {binds out : List Stmt}
  {typing : Typing} {Γ : Context} {task : Task} {results : List (Expr × Completion)}

/-- `x` is not to be realized. A name that is handed back is realized for want of storage as well,
so for that it is not enough that it counts as complete. -/
structure State.Guards (s : State) (x : String) (returns : Bool) : Prop where
  fields : s.componentsOf? x = none
  complete : s.completionOf x ≠ .incomplete
  stands : returns = true → s.standIn? x ≠ none

section
variable {names : List String}

theorem State.Guards.congr (h : s.Guards x returns)
    (hfields : t.componentsOf? x = s.componentsOf? x)
    (hcompletion : t.completionOf x = s.completionOf x) (hstand : t.standIn? x = s.standIn? x) : t.Guards x returns :=
  ⟨hfields.trans h.fields, by rw [hcompletion]; exact h.complete, fun hr => by rw [hstand]; exact h.stands hr⟩

theorem State.Guards.record (entry : String) (h : s.Guards x returns) (hxy : x ≠ y) :
    (s.record entry y value completion).Guards x returns := by
  refine h.congr ?_ ?_ ?_
  · rw [componentsOf?_record, if_neg hxy]
  · rw [completionOf_record, if_neg hxy]
  · rw [standIn?_record, if_neg hxy]

theorem State.Guards.forget (h : s.Guards x true) (hf : Forgets s names t)
    (hx : returns = true → x ∉ names)
    (hcomplete : t.completionOf x ≠ .incomplete) : t.Guards x returns := by
  refine ⟨?_, hcomplete, fun hr => ?_⟩
  · rw [hf.fields, h.fields, ite_self]
  · rw [hf.standIns, if_neg (hx hr)]
    exact h.stands rfl

end

/-- If `x` is not to be realized where `P` holds, then it is not realized in a block where it is,
and `Q` holds behind the block where it still is. -/
def Holds (x : String) (P : Prop) (out : List Stmt) (Q : Prop) : Prop :=
  ∀ p : Prop, (p → P) → Thrifty x p out ∧ (out.foldl (Stmt.Keeps x) p → Q)

section
variable {P Q R : Prop} {out' : List Stmt} {stmt : Stmt}

theorem Holds.nil (h : P → Q) : Holds x P [] Q := fun p hp => ⟨.nil p, fun hkeeps => h (hp hkeeps)⟩

theorem Holds.trans (h : Holds x P out Q) (h' : Holds x Q out' R) : Holds x P (out ++ out') R := by
  intro p hp
  obtain ⟨hout, hQ⟩ := h p hp
  obtain ⟨hout', hR⟩ := h' _ hQ
  exact ⟨hout.append hout', fun hkeeps => hR (by rwa [foldl_append] at hkeeps)⟩

theorem Holds.cons (h : Holds x P [stmt] Q) (h' : Holds x Q out R) :
    Holds x P (stmt :: out) R := h.trans h'

theorem Holds.step (h : Holds x P out Q) (hstep : Q → R) : Holds x P out R :=
  fun p hp => ⟨(h p hp).1, fun hkeeps => hstep ((h p hp).2 hkeeps)⟩

theorem Holds.behind (h : Holds x P out Q) (hP : P) (hx : x ∉ localNames out) : Q :=
  (h True fun _ => hP).2 (keeps_of_unbound trivial hx)

theorem Holds.one (hstmt : ¬ stmt.Realizes x)
    (hblocks : ∀ block ∈ stmt.blocks, ∃ P' Q', Holds x P' block Q' ∧
      (x ∉ localNames [stmt] → P → P')) (hbehind : x ∉ localNames [stmt] → P → Q) :
    Holds x P [stmt] Q := by
  intro p hp
  refine ⟨.cons (fun _ => hstmt) (fun block hblock => ?_) (.nil _), fun hkeeps => ?_⟩
  · obtain ⟨P', Q', hholds, hP'⟩ := hblocks block hblock
    exact (hholds _ fun hinside => hP' hinside.2 (hp hinside.1)).1
  · exact hbehind hkeeps.1 (hp (hkeeps.2.resolve_right hstmt))

theorem not_realizes_of_callee (h : value.callee? ≠ some Snippet.phaseBoundary) :
    ¬ (bind target value).Realizes x := by
  rintro ⟨_, _, _, _, heq, -, -⟩
  exact h (congrArg Expr.callee? (bind.inj heq).2)

theorem not_realizes_of_target (hy : target.symbol? = some y) (h : ¬ IsRealized y) :
    ¬ (bind target value).Realizes x := by
  rintro ⟨z, _, _, _, heq, hz, -⟩
  cases heq
  cases hy
  exact h hz

section Steps
variable {entry : String} {e : Expr} {fields : List Expr} (hx : ¬ IsDrawn x) (hs : s.Stems)
include hx hs

theorem ne_derived (y : String) :
    x ≠ (s.phases.derive y).1 := fun h => hx (.inl ⟨y, _, h.trans (hs.derive y)⟩)

theorem ne_temporary : x ≠ s.temporaries.next.1 := fun h => hx (.inr ⟨_, h.trans hs.next⟩)

theorem holds_boundary (he : e.symbol? = some y) (hfields : s.componentsOf? y = none)
    (hy : y = x → ¬ s.Guards x returns) :
    Holds x (s.Guards x returns) [s.boundary y e typing] ((s.realized y e typing).Guards x returns) := by
  by_cases hyx : y = x
  · subst hyx
    refine fun p hp => ⟨.cons (fun h => absurd (hp h) (hy rfl)) nofun (.nil _), fun _ => ?_⟩
    exact ⟨hfields, by simp [completionOf_realized], fun _ => by simp [standIn?_realized]⟩
  · refine .one ?_ nofun fun _ h => h.congr rfl ?_ ?_
    · rintro ⟨_, _, value, _, heq, -, hvalue⟩
      have harguments : [e] = [value] := congrArg Expr.arguments (bind.inj heq).2
      cases harguments
      exact hyx (Option.some.inj (he.symm.trans hvalue))
    · rw [completionOf_realized, if_neg (Ne.symm hyx), if_neg (ne_derived hx hs y)]
    · rw [standIn?_realized, if_neg (Ne.symm hyx)]

theorem holds_tupleBind (hy : y = x → s.componentsOf? x ≠ none) :
    Holds x (s.Guards x returns) [s.tupleBind y fields typing] ((s.rebuilt y fields typing).Guards x returns) := by
  refine .one (not_realizes_of_callee (show some Snippet.makeTuple ≠ _ by decide)) nofun fun _ h => ?_
  have hyx : x ≠ y := fun heq => hy heq.symm h.fields
  refine h.congr ?_ ?_ ?_
  · rw [componentsOf?_rebuilt, if_neg (ne_derived hx hs y)]
  · rw [completionOf_rebuilt, if_neg hyx, if_neg (ne_derived hx hs y)]
  · rw [standIn?_rebuilt, if_neg hyx]

theorem holds_closureBind {function : Expr} {captured : List Expr} :
    Holds x (s.Guards x returns) [s.closureBind y e (.closure function captured typing)]
      ((s.reclosed y e (.closure function captured typing)).Guards x returns) := by
  refine .one (not_realizes_of_callee (by simp [Expr.callee?])) nofun fun _ h => h.congr rfl ?_ rfl
  rw [completionOf_reclosed, if_neg (ne_derived hx hs y)]

theorem holds_hoist : Holds x (s.Guards x returns) [s.hoist value]
    ((s.hoisted entry value completion).Guards x returns) := by
  refine .one (not_realizes_of_target rfl ?_) nofun fun _ h =>
    Guards.record entry (h.congr rfl rfl rfl) (ne_temporary hx hs)
  rw [hs.next]
  exact temporary_not_realized _

theorem Derives.components (h : Derives Γ task s results binds t) :
    t.componentsOf? x = s.componentsOf? x := by
  refine (h.effects (motive := fun s _ t => Grows s t ∧ (s.Stems → t.componentsOf? x = s.componentsOf? x))
    (fun s => ⟨.refl s, fun _ => rfl⟩) (fun hone => ⟨hone.grows, fun hs => ?_⟩) fun hfirst hsecond =>
      ⟨hfirst.1.trans hsecond.1, fun hs => (hsecond.2 (hs.mono hfirst.1)).trans (hfirst.2 hs)⟩).2 hs
  cases hone with
  | rebuilt => rw [componentsOf?_rebuilt, if_neg (ne_derived hx hs _)]
  | hoisted =>
    rw [hoisted, componentsOf?_record, if_neg (ne_temporary hx hs)]
    rfl
  | _ => rfl

end Steps

end

section
variable {F B S : String → Prop}

theorem State.Noted.standIn?_of_current (h : s.Noted F B S) (hx : ¬ IsDrawn x)
    (hy : (s.current (.name y typing)).symbol? = some x) : s.standIn? x = none := by
  rw [current_name] at hy
  cases hstand : s.standIn? y with
  | none =>
    rw [hstand] at hy
    cases hy
    exact hstand
  | some e =>
    obtain ⟨-, -, z, _, rfl, hz, -, -⟩ := h.standIns hstand
    rw [hstand] at hy
    cases hy
    exact absurd hz hx

/-- A task realizes `x` only where it is not realized. -/
theorem Derives.holds (hx : ¬ IsDrawn x) (hk : Kinds F B S) (h : Derives Γ task s results binds s')
    (hr : task.Fits Γ.registry F B S s) (hreturns : task.returns = true → returns = true) :
    Holds x (s.Guards x returns) binds (s'.Guards x returns) := by
  induction h with
  | nil | name | literal | demandLiteral | met | returnedName | returnedLiteral => exact .nil id
  | cons h₁ _ ih₁ ih₂ =>
    refine (ih₁ hr.head fun hret => hreturns (by simp [hret])).trans
      (ih₂ (hr.tail h₁.grows (h₁.noted hk hr.head).tables) fun hret => hreturns ?_)
    rw [Task.returns] at hret
    simp [hret]
  | node _ _ ih => exact ih hr.values (by simp)
  | forcing _ hf hcallee hs hforces _ _ ih =>
    exact ih (hr.arguments (forces_of_signature hf hcallee hs hforces)) (by simp)
  | demandNode _ _ ih => exact ih hr.demandParts (by simp)
  | returnedTuple _ ih => exact ih hr.elements fun _ => hreturns rfl
  | demandCall _ _ ih | returnedClosure _ ih | returnedCall _ _ ih => exact ih (hr.read rfl rfl) nofun
  | demandName _ ih =>
    have hnamed := ih (hr.named hk) nofun
    split
    · refine hnamed.step fun h => ⟨h.fields, h.complete, fun hr => ?_⟩
      rw [standIn?_substitute]
      split
      · exact Option.some_ne_none _
      · exact h.stands hr
    · exact hnamed
  | demandHoisted h₁ _ _ ih ih' | returnedHoisted h₁ _ _ _ ih ih' =>
    have n := h₁.noted hk (hr.read rfl rfl)
    obtain ⟨-, arguments', rfl⟩ := h₁.value_apply
    exact (ih (hr.read rfl rfl) nofun).trans ((holds_hoist hx (hr.stems.mono h₁.grows)).trans
      (ih' (hr.hoist hk rfl rfl hr.plain h₁ n rfl (fun _ => mem_singleton.1) id rfl) hreturns))
  | closureKept hy hclosure _ ih => exact ih (hr.closure hy hclosure) nofun
  | tupleKept hy _ _ hfields _ _ ih => exact ih (hr.fields hy hfields) (by simp)
  | returnedTupleKept _ _ hfields _ _ _ ih => exact ih (hr.returnedFields hfields) fun _ => hreturns rfl
  | closureRebuilt hy hclosure h _ ih =>
    obtain ⟨-, -, ⟨function, captured, typing, rfl⟩, -⟩ := hr.tables.closures hclosure
    obtain ⟨captured', rfl⟩ := h.demand_closure
    exact (ih (hr.closure hy hclosure) nofun).trans (holds_closureBind hx (hr.stems.mono h.grows))
  | tupleRebuilt hy _ _ hfields h _ ih =>
    refine (ih (hr.fields hy hfields) (by simp)).trans (holds_tupleBind hx (hr.stems.mono h.grows) ?_)
    rintro rfl
    rw [h.components hx hr.stems, hfields]
    exact Option.some_ne_none _
  | realized hy _ _ hfields hincomplete _ =>
    refine holds_boundary hx hr.stems hy hfields ?_
    rintro rfl hguards
    exact hguards.complete hincomplete
  | returnedRealized _ hy hfields _ _ =>
    refine holds_boundary hx hr.stems hy hfields ?_
    rintro rfl hguards
    exact hguards.stands (hreturns rfl) (hr.tables.standIn?_of_current hx hy)
  | returnedTupleRebuilt _ _ hfields h _ _ ih =>
    refine (ih (hr.returnedFields hfields) fun _ => hreturns rfl).trans (holds_tupleBind hx (hr.stems.mono h.grows) ?_)
    rintro rfl
    rw [h.components hx hr.stems, hfields]
    exact Option.some_ne_none _

end

theorem Analyzed.bound_kept (h : Analyzed Γ block s out s') (hx : x ∈ localNames block) :
    x ∈ localNames out := by
  induction h with
  | nil => exact hx
  | bind _ _ _ ih | ret _ _ _ ih | entryRet _ _ _ ih =>
    rw [mem_localNames_append, mem_localNames_cons]
    exact .inr ((mem_localNames_cons.1 hx).imp (fun hx => hx) ih)
  | branch _ _ _ _ iht ihu ih =>
    rw [mem_localNames_append, mem_localNames_branch_iff]
    rw [mem_localNames_branch_iff] at hx
    exact .inr (hx.imp (fun hx => hx.imp iht ihu) ih)
  | loop _ _ _ _ _ _ _ iht ih =>
    rw [mem_localNames_append, mem_localNames_loop_iff]
    rw [mem_localNames_loop_iff] at hx
    exact .inr (hx.imp iht ih)

/-- No block realizes a name that stays guarded along it. -/
theorem Analyzed.holds (hx : ¬ IsDrawn x) (h : Analyzed Γ block s out s')
    (hb : Covering (fun _ => True) s block) :
    Holds x (s.Guards x true) out (s'.Guards x true) := by
  have read : ∀ {s s₁ : State} {e : Expr} {results : List (Expr × Completion)} {binds rest : List Stmt} {stmt : Stmt}
      {returns : Bool}, Covering (fun _ => True) s (stmt :: rest) → (∀ z ∈ e.names, z ∈ stmt.names) →
      Derives Γ (.value e) s results binds s₁ →
      Holds x (s.Guards x returns) binds (s₁.flush.Guards x returns) := fun hb he hd =>
    (hd.holds hx (kinds_covered _) (hb.fits he) nofun).step fun h => h.congr rfl rfl rfl
  have leaf : ∀ {stmt : Stmt} {P Q : Prop}, stmt.blocks = [] → ¬ stmt.Realizes x →
      (x ∉ localNames [stmt] → P → Q) → Holds x P [stmt] Q := fun hblocks hstmt hbehind =>
    .one hstmt (fun block hblock => by rw [hblocks] at hblock; cases hblock) hbehind
  induction h with
  | nil => exact .nil id
  | @bind _ _ _ y _ _ _ _ _ s₁ _ hy hd _ ih =>
    refine (read hb (fun z hz => by simp [hz]) hd).trans (Holds.cons
      (leaf rfl ?_ fun hbound h => ?_) (ih (hb.bind hy hd)))
    · exact not_realizes_of_target hy fun hr => (hb.text y (by simp [Expr.names_of_symbol hy])).1 (.inl hr)
    · have hxy : x ≠ y := fun heq => hbound (mem_localNames_bind (heq ▸ hy))
      exact (Guards.record Γ.entry (h.congr (t := s₁) rfl rfl rfl) hxy).congr rfl rfl rfl
  | @ret value value' _ _ _ _ _ _ _ _ hd _ ih =>
    exact (read hb (fun z hz => by simp [hz]) hd).trans (Holds.cons
      (leaf rfl (by rintro ⟨_, _, _, _, heq, -, -⟩; cases heq) fun _ h => h) (ih (hb.ret hd)))
  | @entryRet _ _ _ _ _ _ s₁ _ _ hd _ ih =>
    have hreturned := (hd.holds hx (kinds_covered _) hb.fitsReturned fun _ => rfl).step
      fun h => h.congr (t := s₁.flush) rfl rfl rfl
    exact hreturned.trans (Holds.cons
      (leaf rfl (by rintro ⟨_, _, _, _, heq, -, -⟩; cases heq) fun _ h => h) (ih (hb.entryRet hd)))
  | @branch _ _ _ _ _ _ _ _ _ _ _ s₁ t _ _ hd ht hu _ iht ihu ih =>
    have htrue := iht (hb.ofTrue hd)
    have hfalse := ihu (hb.ofFalse hd ht.grows)
    have henter : s₁.flush.Guards x true → s₁.flush.enter.Guards x true := fun h =>
      h.forget (forgets_enter _) (by simp) (by simpa [completionOf, enter] using h.complete)
    have hresume : s₁.flush.Guards x true → (s₁.flush.resume t).enter.Guards x true :=
      fun h => (henter h).congr rfl rfl rfl
    refine (read hb (fun z hz => by simp [hz]) hd).trans
      (Holds.cons (.one (by rintro ⟨_, _, _, _, heq, -, -⟩; cases heq)
        (forall_mem_cons.2 ⟨⟨_, _, htrue, fun _ => henter⟩, forall_mem_singleton.2
          ⟨_, _, hfalse, fun _ => hresume⟩⟩) fun hbound h => ?_)
        (ih (hb.joined hd (grows_joined ht.grows hu.grows) (ht.covered (hb.ofTrue hd))
          (hu.covered (hb.ofFalse hd ht.grows)))))
    rw [mem_localNames_branch_iff, not_or, not_or] at hbound
    refine h.forget (forgets_joined _ _ _) (fun _ hmem => ?_) ?_
    · rcases mem_append.1 hmem with hmem | hmem
      · rcases ht.bound_keys (hb.ofTrue hd).stems hmem with hmem | hmem | hmem
        · cases hmem
        · exact hbound.1.1 (ht.bound_kept hmem)
        · exact hx hmem
      · rcases hu.bound_keys (hb.ofFalse hd ht.grows).stems hmem with hmem | hmem | hmem
        · cases hmem
        · exact hbound.1.2 (hu.bound_kept hmem)
        · exact hx hmem
    · rw [completionOf_joined ht.inserts (Inserts.trans (.of_eq rfl) hu.inserts), Ne,
        Completion.merge_eq_incomplete, not_or]
      exact ⟨(htrue.behind (henter h) hbound.1.1).complete, (hfalse.behind (hresume h) hbound.1.2).complete⟩
  | @loop _ test' _ binds body body' _ _ s s₁ t _ selfResults head _ hd hraised htrips htrip hsettled _
      ihtrips iht ih =>
    have hstart := hb.atHead
    have hcovered : ∀ {selfResults head}, Covering (fun _ => True) (s₁.flush.tripStart selfResults head) body :=
      hb.ofTrip hd fun _ _ _ _ => trivial
    -- the names that the body binds are forgotten, but still count as complete
    have hforget : s.Guards x true →
        (s.invalidateAll (bodyTargets body)).Guards x (decide (x ∉ bodyTargets body)) := fun h => by
      refine h.forget (s.forgets_invalidateAll _) of_decide_eq_true ?_
      rw [completionOf_congr (completions_invalidateAll _)]
      exact h.complete
    have htest := (Holds.nil hforget).trans (read hstart (fun z hz => by simp [hz]) hd)
    have hunbound : x ∉ localNames [.loop test' body'] → x ∉ localNames body ∧
        decide (x ∉ bodyTargets body) = true := fun hbound =>
      have hbody : x ∉ localNames body := fun hmem => hbound (mem_localNames_loop (htrip.bound_kept hmem))
      ⟨hbody, decide_eq_true fun hmem => hbody (mem_localNames_of_bodyTargets hmem)⟩
    have hcomplete : s₁.flush.Guards x true → x ∉ localNames body → ∀ selfResults,
        (s₁.flush.tripStart selfResults head).completionOf x ≠ .incomplete := by
      intro h hbody selfResults
      refine hraised.completions (P := fun y c => y = x → c ≠ .incomplete) (fun y hy => hy ▸ h.complete)
        (fun y a b ha hb hy => ?_) (fun trip hmem => ⟨(htrips trip hmem).inserts, fun hstart y hy => ?_⟩)
          selfResults x rfl
      · rw [Ne, Completion.merge_eq_incomplete, not_or]
        exact ⟨ha hy, hb hy⟩
      · subst hy
        refine ((ihtrips trip hmem hcovered).behind (h.forget (s₁.flush.forgets_tripStart _ _) (by simp)
          (hstart y rfl)) fun hmem' => ?_).complete
        exact ((htrips trip hmem).bound hcovered.stems hmem').elim hbody fun hdrawn => hx hdrawn.isDrawn
    refine htest.trans (Holds.cons (.one (by rintro ⟨_, _, _, _, heq, -, -⟩; cases heq) (forall_mem_singleton.2
        ⟨_, _, iht hcovered, fun hbound h => ?_⟩) fun hbound h => ?_)
      (ih (hb.settled hd (grows_settled htrip.grows) (htrip.covered hcovered))))
    · obtain ⟨hbody, hr⟩ := hunbound hbound
      rw [hr] at h
      exact h.forget (s₁.flush.forgets_tripStart _ _) (by simp) (hcomplete h hbody selfResults)
    · obtain ⟨hbody, hr⟩ := hunbound hbound
      rw [hr] at h
      refine h.forget (s₁.flush.forgets_settled t head) (by simp) ?_
      rw [completionOf_settled hraised.covers htrip.inserts hsettled]
      exact hcomplete h hbody selfResults

theorem covering_bodyStart {inEntry : Bool} {parameters : List Expr} {phases temporaries : Supply}
    (hphases : phases.stem = "_phase") (htemporaries : temporaries.stem = "_sync")
    (hsource : ∀ z ∈ namesAll block, ¬ IsDrawn z) :
    Covering (fun _ => True) (bodyStart inEntry parameters phases temporaries) block :=
  ⟨stems_bodyStart hphases htemporaries, ⟨tables_bodyStart, fun _ => trivial⟩,
    fun z hz => ⟨hsource z hz, fun _ _ => trivial⟩⟩

end Phases

theorem Stmt.IsSuite.names (h : IsSuite suite block) :
    ∀ z ∈ namesAll suite, z ∈ namesAll block := by
  induction h with
  | self => exact fun _ hz => hz
  | @inside s _ _ hs hinner _ ih =>
    intro z hz
    refine mem_namesAll.2 ⟨s, hs, ?_⟩
    have hz := ih z hz
    cases s with
    | branch =>
      simp only [blocks, mem_cons, not_mem_nil, or_false] at hinner
      rcases hinner with rfl | rfl <;> simp [hz]
    | loop =>
      cases mem_singleton.1 hinner
      simp [hz]
    | _ => cases hinner

/-- A name of the text that was realized is realized again, in the same block or inside, only if it
is bound in between. -/
theorem Module.insertBoundaries_thrifty {module module' : Module} {registry : Registry}
    {entry x : String}
    {p : Procedure} {suite : List Stmt} {i j : Nat} {first last : Stmt} (hplain : module.isPlain = true)
    (hsource : ∀ z ∈ namesAll module, ¬ IsDrawn z) (h : module.insertBoundaries registry entry = .ok module')
    (hprocedure : p ∈ module'.procedures) (hsuite : IsSuite suite p.body)
    (hx : ¬ IsDrawn x) (hi : suite[i]? = some first) (hfirst : first.Realizes x) (hj : suite[j]? = some last)
    (hlast : last.RealizesInside x) (hij : i < j) :
    ∃ k, i < k ∧ k ≤ j ∧ ∃ s, suite[k]? = some s ∧ x ∈ localNames [s] := by
  obtain ⟨n, hn⟩ := mem_iff_getElem?.1 (mem_procedures.1 hprocedure)
  obtain ⟨p, p', heq, hp, -, -, hbody⟩ := (module.insertBoundaries_rewrites hplain h).source hn
  cases Rewrites.toStmt_inj heq
  have hnames : ∀ z ∈ namesAll p.body, ¬ IsDrawn z := fun z hz => hsource z
    (mem_namesAll.2 ⟨_, mem_of_getElem? hp, by simp [Procedure.toStmt, names, hz]⟩)
  split at hbody
  · obtain ⟨phases, temporaries, s', hphases, htemporaries, hanalyzed⟩ := hbody
    obtain ⟨hthrifty, -⟩ := hanalyzed.holds hx (Phases.covering_bodyStart hphases htemporaries hnames) False False.elim
    obtain ⟨q, hq⟩ := hthrifty.inside hsuite
    exact hq.between (fun hr => hx (.inl hr)) hi hj hij hfirst hlast
  · -- the text has no boundaries
    obtain ⟨y, _, _, _, rfl, hy, -⟩ := hfirst
    rw [hbody] at hsuite
    exact absurd (.inl hy) (hnames y (hsuite.names y (mem_namesAll.2 ⟨_, mem_of_getElem? hi,
      by simp [names, Expr.names]⟩)))

theorem resummed_thrifty : ∃ s, resummedRealized.body[6]? = some s ∧ s.RealizesInside "ys" ∧
    ∃ k, 4 < k ∧ k ≤ 6 ∧ ∃ s, resummedRealized.body[k]? = some s ∧ "ys" ∈ localNames [s] := by
  have hok : Module.insertBoundaries [resummed.toStmt] rowCalls "main" = .ok [resummedRealized.toStmt] := by
    decide +kernel
  have hrealizes : ∀ n : Nat, (realizeRow ("ys" ++ "_phase" ++ toString n) (.name "ys" row)).Realizes "ys" :=
    fun n => ⟨_, _, _, _, rfl, ⟨"ys", n, rfl⟩, rfl⟩
  have hlast : (loop (.name "c" flag) [realizeRow "ys_phase2" (.name "ys" row),
      .bind (.name "t" number) (totalled (stored "ys_phase2")),
      .bind (.name "ys" row) (shifted (stored "ys_phase2"))]).RealizesInside "ys" :=
    .inside mem_cons_self mem_cons_self (.self (hrealizes 2))
  refine ⟨_, rfl, hlast, Module.insertBoundaries_thrifty rfl (fun x hx => ?_) hok
    (Module.mem_procedures.2 mem_cons_self) .self (not_drawn_of_last (by decide +kernel)) rfl (hrealizes 1) rfl hlast
    (by decide)⟩
  exact not_drawn_of_last (by revert x; decide +kernel)

/-- Hands a closure back twice that was rebuilt before. -/
def handing : Procedure where
  name := .name "main" row
  parameters := [.name "xs" row]
  body := [.bind (.name "ys" row) (shifted (.name "xs" row)), .bind (.name "f" row) (looked (.name "ys" row)),
    .bind (.name "d" number) (totalled (.name "f" row)), .ret (.name "f" row), .ret (.name "f" row)]

def handingRealized : Procedure :=
  { handing with
    body := [.bind (.name "ys" row) (shifted (.name "xs" row)), .bind (.name "f" row) (looked (.name "ys" row)),
      realizeRow "ys_phase0" (.name "ys" row), .bind (.name "f_phase1" row) (looked (stored "ys_phase0")),
      .bind (.name "d" number) (totalled (.name "f_phase1" row)),
      realizeRow "f_phase1_phase2" (.name "f_phase1" row), .ret (stored "f_phase1_phase2"),
      realizeRow "f_phase1_phase3" (.name "f_phase1" row), .ret (stored "f_phase1_phase3")] }

/-- What is handed back in place of a name is realized, but the name is still read through what
stood for it. -/
theorem insertBoundaries_repeats_boundary :
    Module.insertBoundaries [handing.toStmt] rowCalls "main" = .ok [handingRealized.toStmt] ∧
      (∀ z ∈ namesAll [handing.toStmt], ¬ IsDrawn z) ∧
      ∃ first last, handingRealized.body[5]? = some first ∧ first.Realizes "f_phase1" ∧
        handingRealized.body[7]? = some last ∧ last.RealizesInside "f_phase1" ∧
        ¬ ∃ k, 5 < k ∧ k ≤ 7 ∧ ∃ s, handingRealized.body[k]? = some s ∧ "f_phase1" ∈ localNames [s] := by
  refine ⟨by decide +kernel, fun z hz => not_drawn_of_last (by revert z; decide +kernel), _, _, rfl,
    ⟨_, _, _, _, rfl, ⟨"f_phase1", 2, rfl⟩, rfl⟩, rfl, .self ⟨_, _, _, _, rfl, ⟨"f_phase1", 3, rfl⟩, rfl⟩, ?_⟩
  rintro ⟨k, hlow, hhigh, s, hs, hbound⟩
  obtain rfl | rfl : k = 6 ∨ k = 7 := by omega
  · cases hs
    revert hbound
    decide +kernel
  · cases hs
    revert hbound
    decide +kernel

end DataParallel
