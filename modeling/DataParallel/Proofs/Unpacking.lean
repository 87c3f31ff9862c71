import DataParallel.Lowering.TupleBinds
import DataParallel.Proofs.Frames
import DataParallel.Proofs.Layouts
import DataParallel.Proofs.Signatures

/-! How a bind of a tuple comes apart.

The binds that stand for one bind are those of a list of work that is done from its front: two
tuples of the same length give way to the pairs of their elements, a call is kept under a drawn name
and gives way to its fields. -/

namespace DataParallel

open List

/-- A target and a value stand at the same place of a larger target and its value. -/
inductive Expr.Faces (target value : Expr) : Expr → Expr → Prop where
  | here : Faces target value target value
  | inside {targets values : List Expr} {t u : Typing} {pair : Expr × Expr} : pair ∈ targets.zip values →
      Faces target value pair.1 pair.2 → Faces target value (.tuple targets t) (.tuple values u)

/-- Somewhere a tuple of targets stands against a tuple of another length. -/
def Expr.IsUneven (target value : Expr) : Prop :=
  ∃ targets values t u, Faces (.tuple targets t) (.tuple values u) target value ∧ targets.length ≠ values.length

namespace Expr

theorem namesAll_append (es fs : List Expr) : namesAll (es ++ fs) = namesAll es ++ namesAll fs := by
  induction es with
  | nil => rfl
  | cons e es ih => rw [cons_append, namesAll, namesAll, ih, append_assoc]

theorem areBinders_append (es fs : List Expr) :
    areBinders (es ++ fs) = (areBinders es && areBinders fs) := by
  induction es with
  | nil => rfl
  | cons e es ih => rw [cons_append, areBinders, areBinders, ih, Bool.and_assoc]

theorem areBinders_laid (es : List Expr) : areBinders (laidAll es) = areBinders es := by
  induction es using list_induction with
  | nil => rfl
  | cons e es ihe ih => cases e <;> simp_all [laid, laidAll, areBinders, isBinder]

theorem isBinder_laid (e : Expr) : e.laid.isBinder = e.isBinder := by
  simpa [laidAll, areBinders] using areBinders_laid [e]

end Expr

def Expr.packed : Expr → Expr
  | .tuple values typing => .applySnippet Name.Snippet.makeTuple values typing
  | value => value

namespace Stmt

variable {pair : Expr × Expr} {value : Expr} {supply supply' : Supply} {binds : List Stmt}

/-- The binds of targets to the fields of a value from an index on. -/
def fieldBinds (source : Expr) (index : Nat) : List Expr → List (Expr × Expr)
  | [] => []
  | target :: targets =>
    (target, .applySnippet (Name.Snippet.project index) [source] target.typing) :: fieldBinds source (index + 1) targets

/-- The binds that stand for those of a list of work, and the supply behind them. -/
inductive Unpacks : Supply → List (Expr × Expr) → List Stmt → Supply → Prop where
  | nil (supply : Supply) : Unpacks supply [] [] supply
  | pairs {targets values : List Expr} {t u : Typing} {work : List (Expr × Expr)} {binds : List Stmt}
      {supply supply' : Supply} : targets.length = values.length →
      Unpacks supply (targets.zip values ++ work) binds supply' →
      Unpacks supply ((.tuple targets t, .tuple values u) :: work) binds supply'
  | call {targets : List Expr} {t : Typing} {value : Expr} {work : List (Expr × Expr)} {binds : List Stmt}
      {supply supply' : Supply} : value.isApply = true →
      Unpacks supply.next.2 (fieldBinds (value.renamed supply.next.1) 0 targets ++ work) binds supply' →
      Unpacks supply ((.tuple targets t, value) :: work) (.bind (value.renamed supply.next.1) value :: binds) supply'
  | fields {targets : List Expr} {t : Typing} {value : Expr} {work : List (Expr × Expr)} {binds : List Stmt}
      {supply supply' : Supply} : value.isApply = false → value.isTuple = false →
      Unpacks supply (fieldBinds value 0 targets ++ work) binds supply' →
      Unpacks supply ((.tuple targets t, value) :: work) binds supply'
  | bind {target value : Expr} {work : List (Expr × Expr)} {binds : List Stmt} {supply supply' : Supply} :
      target.isTuple = false → Unpacks supply work binds supply' →
      Unpacks supply ((target, value) :: work) (.bind target value.packed :: binds) supply'

/-- Steps that fail only for the reason `fault`, and otherwise return the binds of `first` in front
of more work. -/
def UnpacksFirst (fault : Prop) (first : List (Expr × Expr)) (supply : Supply)
    (result : Except LoweringError (List Stmt × Supply)) : Prop :=
  Meets (fun _ => fault) (fun r => ∀ work binds supply', Unpacks r.2 work binds supply' →
    Unpacks supply (first ++ work) (r.1 ++ binds) supply') result

section Fields
variable {source : Expr}

theorem fieldBinds_fst (index : Nat) (targets : List Expr) :
    (fieldBinds source index targets).map Prod.fst = targets := by
  induction targets generalizing index with
  | nil => rfl
  | cons target targets ih => rw [fieldBinds, map_cons, ih]

theorem fieldBinds_reads {index : Nat} {targets : List Expr} {z : String}
    (hpair : pair ∈ fieldBinds source index targets) (hz : z ∈ pair.2.names) :
    (∃ n, z = Name.Snippet.project n) ∨ z ∈ source.names := by
  induction targets generalizing index with
  | nil => cases hpair
  | cons target targets ih =>
    rcases mem_cons.1 hpair with rfl | hpair
    · rcases names_applySnippet.1 hz with rfl | hz
      · exact .inl ⟨index, rfl⟩
      · exact .inr (by simpa using hz)
    · exact ih hpair

end Fields

theorem names_packed {x : String} (hx : x ∈ value.packed.names) :
    x = Name.Snippet.makeTuple ∨ x ∈ value.names := by
  cases value with
  | tuple => exact names_applySnippet.1 hx
  | _ => exact .inr hx

namespace UnpacksFirst
variable {fault : Prop} {first : List (Expr × Expr)}

theorem nil : UnpacksFirst fault [] supply (.ok ([], supply)) := fun _ _ _ h => h

theorem cons {steps steps' : Lower Supply (List Stmt)}
    (h : UnpacksFirst fault [pair] supply (steps.run supply))
    (h' : ∀ s, UnpacksFirst fault first s (steps'.run s)) :
    UnpacksFirst fault (pair :: first) supply
      ((do let binds ← steps; return binds ++ (← steps') : Lower Supply (List Stmt)).run supply) := by
  rw [StateT.run_bind]
  refine Meets.bind h fun r hr => ?_
  rw [StateT.run_bind]
  refine (h' r.2).bind fun r' hr' work binds supply' hrest => ?_
  rw [append_assoc]
  exact hr _ _ _ (hr' _ _ _ hrest)

theorem unpacks {result : Except LoweringError (List Stmt × Supply)}
    (h : UnpacksFirst fault first supply result)
    (hresult : result = .ok (binds, supply')) : Unpacks supply first binds supply' := by
  have hfirst := h.of_ok hresult [] [] supply' (.nil supply')
  simpa using hfirst

end UnpacksFirst

theorem not_isUneven_of_isTuple {target : Expr} (h : value.isTuple = false) :
    ¬ target.IsUneven value := by
  rintro ⟨_, _, _, _, hfaces, -⟩
  cases hfaces with
  | here => cases h
  | inside => cases h

mutual

theorem flattenBind_unpacks : ∀ (target value : Expr) (supply : Supply),
    UnpacksFirst (target.IsUneven value) [(target, value)] supply ((flattenBind target value).run supply)
  | .tuple targets t, value, supply => by
    cases value with
    | tuple values u =>
      rw [flattenBind]
      split
      · rename_i hlength
        refine (Meets.weaken (flattenPairs_unpacks targets values supply) ?_).mono
          fun r hr work binds s' h => .pairs hlength (hr work binds s' h)
        rintro e ⟨pair, hpair, ts, vs, t', u', hfaces, hne⟩
        exact ⟨ts, vs, t', u', .inside hpair hfaces, hne⟩
      · rename_i hlength
        exact ⟨targets, values, t, u, .here, hlength⟩
    | apply function arguments typing =>
      simp only [flattenBind, Expr.isApply, if_true]
      refine Meets.bind (flattenFields_unpacks (.name supply.next.1 typing) 0 targets supply.next.2) ?_
      exact fun r hr work binds s' h => .call rfl (hr work binds s' h)
    | name | literal | closure =>
      simp only [flattenBind, Expr.isApply]
      exact (flattenFields_unpacks _ 0 targets supply).mono fun r hr work binds s' h =>
        .fields rfl rfl (hr work binds s' h)
  | .name .., value, supply | .literal .., value, supply | .apply .., value, supply | .closure .., value, supply => by
    cases value <;> exact fun work binds s' h => .bind rfl h

theorem flattenPairs_unpacks : ∀ (targets values : List Expr) (supply : Supply),
    UnpacksFirst (∃ pair ∈ targets.zip values, pair.1.IsUneven pair.2) (targets.zip values) supply
      ((flattenPairs targets values).run supply)
  | [], _, _ => .nil
  | _ :: _, [], _ => .nil
  | target :: targets, value :: values, supply => by
    rw [flattenPairs]
    refine UnpacksFirst.cons (Meets.weaken (flattenBind_unpacks target value supply) fun e h => ?_)
      fun s => Meets.weaken (flattenPairs_unpacks targets values s) ?_
    · exact ⟨_, mem_cons_self, h⟩
    · rintro e ⟨pair, hpair, h⟩
      exact ⟨pair, mem_cons_of_mem _ hpair, h⟩

theorem flattenFields_unpacks {fault : Prop} (source : Expr) (index : Nat) :
    ∀ (targets : List Expr) (supply : Supply),
    UnpacksFirst fault (fieldBinds source index targets) supply ((flattenFields source index targets).run supply)
  | [], _ => .nil
  | target :: targets, supply => by
    rw [flattenFields]
    refine UnpacksFirst.cons (Meets.weaken (flattenBind_unpacks target _ supply) fun e h => ?_)
      fun s => flattenFields_unpacks source (index + 1) targets s
    exact absurd h (not_isUneven_of_isTuple rfl)

end

section Unpacked
variable {work : List (Expr × Expr)}

theorem Unpacks.isBind (h : Unpacks supply work binds supply') :
    ∀ s ∈ binds, ∃ target value, s = .bind target value := by
  induction h with
  | nil => exact nofun
  | pairs _ _ ih | fields _ _ _ ih => exact ih
  | call _ _ ih | bind _ _ ih => exact forall_mem_cons.2 ⟨⟨_, _, rfl⟩, ih⟩

theorem packed_isTuple (value : Expr) : value.packed.isTuple = false := by
  cases value <;> rfl

theorem Unpacks.noTuples (h : Unpacks supply work binds supply') :
    ∀ target value, .bind target value ∈ binds → target.isTuple = false ∧ value.isTuple = false := by
  induction h with
  | nil => exact nofun
  | pairs _ _ ih | fields _ _ _ ih => exact ih
  | @call _ _ value _ _ _ _ hvalue _ ih =>
    intro target e hmem
    rcases mem_cons.1 hmem with hmem | hmem
    · cases hmem
      cases value with
      | apply => exact ⟨rfl, rfl⟩
      | _ => cases hvalue
    · exact ih target e hmem
  | @bind target value _ _ _ _ htarget _ ih =>
    intro target e hmem
    rcases mem_cons.1 hmem with hmem | hmem
    · cases hmem
      exact ⟨htarget, packed_isTuple value⟩
    · exact ih target e hmem

theorem Unpacks.even (h : Unpacks supply work binds supply') :
    ∀ pair ∈ work, ¬ pair.1.IsUneven pair.2 := by
  induction h with
  | nil => exact nofun
  | pairs hlength _ ih =>
    refine forall_mem_cons.2 ⟨?_, fun pair hpair => ih pair (mem_append_right _ hpair)⟩
    rintro ⟨ts, vs, t, u, hfaces, hne⟩
    cases hfaces with
    | here => exact hne hlength
    | inside hpair hfaces => exact ih _ (mem_append_left _ hpair) ⟨ts, vs, t, u, hfaces, hne⟩
  | @call _ _ value _ _ _ _ hvalue _ ih =>
    refine forall_mem_cons.2 ⟨not_isUneven_of_isTuple ?_, fun pair hpair => ih pair (mem_append_right _ hpair)⟩
    cases value with
    | apply => rfl
    | _ => cases hvalue
  | fields _ hvalue _ ih =>
    exact forall_mem_cons.2 ⟨not_isUneven_of_isTuple hvalue, fun pair hpair => ih pair (mem_append_right _ hpair)⟩
  | bind htarget _ ih =>
    refine forall_mem_cons.2 ⟨?_, ih⟩
    rintro ⟨_, _, _, _, hfaces, -⟩
    cases hfaces with
    | here => cases htarget
    | inside => cases htarget

end Unpacked

end Stmt
end DataParallel
