import DataParallel.Proofs.Phases.Tables

/-! What analysed blocks stand for.

Binds of drawn names are left out, a name that was drawn to be read in place of another stands for
that one, and a temporary for the call that is bound to it. -/

namespace DataParallel

open List Name

variable {calls : Table Expr}

namespace Name
variable {name : String}

def base? (name : String) : Option String :=
  match name.toList.reverse.dropWhile Char.isDigit with
  | 'e' :: 's' :: 'a' :: 'h' :: 'p' :: '_' :: rest =>
    if name.toList.getLast?.any Char.isDigit then some (String.ofList rest.reverse) else none
  | _ => none

def isTemporary (name : String) : Bool :=
  match name.toList with
  | '_' :: 's' :: 'y' :: 'n' :: 'c' :: digits => !digits.isEmpty && digits.all Char.isDigit
  | _ => false

/-- Whether phase analysis may draw a name. -/
def isDrawn (name : String) : Bool := (base? name).isSome || isTemporary name

theorem dropWhile_number (front : String) (n : Nat) :
    (front ++ toString n).toList.reverse.dropWhile Char.isDigit = front.toList.reverse.dropWhile Char.isDigit := by
  rw [String.toList_append, reverse_append]
  exact dropWhile_append_of_pos fun c hc => isDigit_of_mem_toString (mem_reverse.1 hc)

theorem base?_realized (y : String) (n : Nat) : base? (y ++ "_phase" ++ toString n) = some y := by
  obtain ⟨c, hlast, hdigit⟩ := getLast?_append_number (y ++ "_phase") n
  have hphase : ("_phase" : String).toList = ['_', 'p', 'h', 'a', 's', 'e'] := by decide
  have hfront : (y ++ "_phase").toList.reverse.dropWhile Char.isDigit =
      'e' :: 's' :: 'a' :: 'h' :: 'p' :: '_' :: y.toList.reverse := by
    rw [String.toList_append, reverse_append, hphase]
    rfl
  rw [base?, dropWhile_number, hfront, hlast]
  simp [hdigit]

theorem isTemporary_temporary (n : Nat) : isTemporary ("_sync" ++ toString n) = true := by
  have hsync : ("_sync" : String).toList = ['_', 's', 'y', 'n', 'c'] := by decide
  rw [isTemporary, String.toList_append, hsync]
  simp only [cons_append, nil_append, Bool.and_eq_true, all_eq_true]
  exact ⟨by simp, fun c hc => isDigit_of_mem_toString hc⟩

theorem not_isDrawn (h : isDrawn name = false) : ¬ IsDrawn name := by
  rw [isDrawn, Bool.or_eq_false_iff] at h
  rintro (⟨base, n, rfl⟩ | ⟨n, rfl⟩)
  · rw [base?_realized] at h
    cases h.1
  · rw [isTemporary_temporary] at h
    cases h.2

theorem base?_of_isTemporary (h : isTemporary name = true) : base? name = none := by
  unfold isTemporary at h
  split at h
  · rename_i digits hname
    rw [Bool.and_eq_true, all_eq_true] at h
    have hdigits : ∀ c ∈ digits.reverse, c.isDigit = true := fun c hc => h.2 c (mem_reverse.1 hc)
    have hfront : name.toList.reverse.dropWhile Char.isDigit = ['c', 'n', 'y', 's', '_'] := by
      rw [hname]
      simp only [reverse_cons, append_assoc, cons_append, nil_append]
      rw [dropWhile_append_of_pos hdigits]
      rfl
    rw [base?, hfront]
    rfl
  · cases h

theorem isDrawn_container (x : String) : isDrawn (container x) = false := by
  have hlast : (container x).toList.getLast? = some 'y' := by
    rw [container, String.toList_append, getLast?_append]
    rfl
  have hbase : base? (container x) = none := by
    unfold base?
    split
    · rw [hlast]
      rfl
    · rfl
  have htemporary : isTemporary (container x) = false := by
    rw [Bool.eq_false_iff]
    intro h
    unfold isTemporary at h
    split at h
    · rename_i digits hname
      rw [Bool.and_eq_true, all_eq_true] at h
      rw [hname] at hlast
      have hne : digits ≠ [] := by simpa using h.1
      have hlast' : digits.getLast hne = 'y' := by simpa [getLast?_cons, getLast?_eq_some_getLast hne] using hlast
      have hdigit := h.2 _ (hlast' ▸ getLast_mem hne)
      exact absurd hdigit (by decide)
    · cases h
  rw [isDrawn, hbase, htemporary]
  rfl

theorem length_base? {base : String} (h : base? name = some base) : base.length < name.length := by
  unfold base? at h
  split at h
  · rename_i rest hrest
    split at h
    · cases h
      have hlength := (dropWhile_suffix Char.isDigit (l := name.toList.reverse)).length_le
      rw [hrest, length_reverse, String.length_toList] at hlength
      rw [String.length_ofList, length_reverse]
      simp only [length_cons] at hlength
      omega
    · cases h
  · cases h

/-- The name that was drawn for nothing, in front of all that was drawn for it. -/
def root (name : String) : String :=
  match _h : base? name with
  | some base => root base
  | none => name
termination_by name.length
decreasing_by exact length_base? _h

theorem root_of_none (h : base? name = none) : root name = name := by
  rw [root]
  split
  · rename_i hbase
    rw [h] at hbase
    cases hbase
  · rfl

theorem root_realized (y : String) (n : Nat) : root (y ++ "_phase" ++ toString n) = root y := by
  rw [root]
  split
  · rename_i hbase
    rw [base?_realized] at hbase
    cases hbase
    rfl
  · rename_i hbase
    rw [base?_realized] at hbase
    cases hbase

theorem root_of_source {x : String} (h : isDrawn x = false) : root x = x := by
  rw [isDrawn, Bool.or_eq_false_iff] at h
  exact root_of_none (by simpa using h.1)

theorem root_temporary (n : Nat) : root ("_sync" ++ toString n) = "_sync" ++ toString n :=
  root_of_none (base?_of_isTemporary (isTemporary_temporary n))

theorem isDrawn_realized (y : String) (n : Nat) : isDrawn (y ++ "_phase" ++ toString n) = true := by
  rw [isDrawn, base?_realized]
  rfl

theorem isDrawn_temporary (n : Nat) : isDrawn ("_sync" ++ toString n) = true := by
  rw [isDrawn, isTemporary_temporary, Bool.or_true]

theorem isTemporary_realized (y : String) (n : Nat) : isTemporary (y ++ "_phase" ++ toString n) = false := by
  rw [Bool.eq_false_iff]
  intro h
  have hbase := base?_of_isTemporary h
  rw [base?_realized] at hbase
  cases hbase

end Name

namespace Expr

mutual

def untyped : Expr → Expr
  | .name x _ => .name x default
  | .literal text _ => .literal text default
  | .tuple elements _ => .tuple (untypedAll elements) default
  | .apply function arguments _ => .apply (untyped function) (untypedAll arguments) default
  | .closure function captured _ => .closure (untyped function) (untypedAll captured) default

def untypedAll : List Expr → List Expr
  | [] => []
  | e :: rest => untyped e :: untypedAll rest

end

mutual

/-- What an expression stands for, without its types: a drawn name for the name it was drawn for in
the first place, and a temporary for its call. -/
def restored (calls : Table Expr) : Expr → Expr
  | .name x _ => (calls.get? (root x)).getD (.name (root x) default)
  | .literal text _ => .literal text default
  | .tuple elements _ => .tuple (restoredAll calls elements) default
  | .apply function arguments _ => .apply (restored calls function) (restoredAll calls arguments) default
  | .closure function captured _ => .closure (restored calls function) (restoredAll calls captured) default

def restoredAll (calls : Table Expr) : List Expr → List Expr
  | [] => []
  | e :: rest => restored calls e :: restoredAll calls rest

end

section
variable {calls' : Table Expr}

theorem restoredAll_eq_map (es : List Expr) : restoredAll calls es = es.map (restored calls) := by
  induction es with
  | nil => rfl
  | cons e es ih => rw [restoredAll, ih, map_cons]

theorem restoredAll_congr {es : List Expr}
    (h : ∀ z ∈ namesAll es, calls'.get? (root z) = calls.get? (root z)) :
    restoredAll calls' es = restoredAll calls es := by
  induction es using list_induction with
  | nil => rfl
  | cons e es ihe ih => cases e <;> simp_all [or_imp, forall_and, restoredAll, restored]

theorem restored_congr {e : Expr} (h : ∀ z ∈ e.names, calls'.get? (root z) = calls.get? (root z)) :
    e.restored calls' = e.restored calls := by
  simpa [restoredAll] using @restoredAll_congr calls calls' [e] (by simpa using h)

theorem restoredAll_of_source {es : List Expr}
    (hcalls : ∀ x e, calls.get? x = some e → isDrawn x = true)
    (h : ∀ z ∈ namesAll es, isDrawn z = false) : restoredAll calls es = untypedAll es := by
  have hnone : ∀ x, isDrawn x = false → calls.get? x = none := by
    intro x hx
    cases hget : calls.get? x with
    | none => rfl
    | some e => exact absurd (hcalls x e hget) (by simp [hx])
  induction es using list_induction with
  | nil => rfl
  | cons e es ihe ih => cases e <;> simp_all
      [or_imp, forall_and, restoredAll, restored, untyped, untypedAll, root_of_source]

theorem restored_of_source (hcalls : ∀ x e, calls.get? x = some e → isDrawn x = true) {e : Expr}
    (h : ∀ z ∈ e.names, isDrawn z = false) : e.restored calls = e.untyped := by
  simpa [restoredAll, untypedAll] using @restoredAll_of_source _ [e] hcalls (by simpa using h)

end

end Expr

namespace Stmt

mutual

def untyped : Stmt → Stmt
  | .bind target value => .bind target.untyped value.untyped
  | .ret value => .ret value.untyped
  | .procedure name parameters body => .procedure name.untyped (Expr.untypedAll parameters) (untypedAll body)
  | .branch test whenTrue whenFalse => .branch test.untyped (untypedAll whenTrue) (untypedAll whenFalse)
  | .loop test body => .loop test.untyped (untypedAll body)
  | .structDef name binders body => .structDef name binders (untypedAll body)
  | .typedef layout name => .typedef layout name
  | .namespaceDef name body => .namespaceDef name (untypedAll body)
  | .header path system => .header path system
  | .declare value => .declare value.untyped

def untypedAll : List Stmt → List Stmt
  | [] => []
  | s :: rest => untyped s :: untypedAll rest

end

def drawn? : Stmt → Option (String × Expr)
  | .bind target value => (target.symbol?.filter isDrawn).map (·, value)
  | _ => none

def noted (calls : Table Expr) (bound : String × Expr) : Table Expr :=
  if isTemporary bound.1 then calls.insert bound.1 (bound.2.restored calls) else calls

mutual

def restored (calls : Table Expr) : Stmt → Stmt
  | .bind target value => .bind (target.restored calls) (value.restored calls)
  | .ret value => .ret (value.restored calls)
  | .procedure name parameters body =>
    .procedure (name.restored calls) (Expr.restoredAll calls parameters) (restoredAll calls body)
  | .branch test whenTrue whenFalse =>
    .branch (test.restored calls) (restoredAll calls whenTrue) (restoredAll calls whenFalse)
  | .loop test body => .loop (test.restored calls) (restoredAll calls body)
  | .structDef name binders body => .structDef name binders (restoredAll calls body)
  | .typedef layout name => .typedef layout name
  | .namespaceDef name body => .namespaceDef name (restoredAll calls body)
  | .header path system => .header path system
  | .declare value => .declare (value.restored calls)

/-- What a block stands for. Binds of drawn names are left out, and the call of a temporary is noted
for the rest of the block. -/
def restoredAll (calls : Table Expr) : List Stmt → List Stmt
  | [] => []
  | s :: rest =>
    match s.drawn? with
    | some bound => restoredAll (noted calls bound) rest
    | none => restored calls s :: restoredAll calls rest

end

def notedAll (calls : Table Expr) (binds : List Stmt) : Table Expr :=
  (binds.filterMap drawn?).foldl noted calls

theorem notedAll_append (calls : Table Expr) (binds binds' : List Stmt) :
    notedAll calls (binds ++ binds') = notedAll (notedAll calls binds) binds' := by
  rw [notedAll, filterMap_append, foldl_append]
  rfl

theorem restoredAll_append {binds : List Stmt} (rest : List Stmt)
    (h : ∀ bind ∈ binds, bind.drawn?.isSome = true) :
    restoredAll calls (binds ++ rest) = restoredAll (notedAll calls binds) rest := by
  induction binds generalizing calls with
  | nil => rfl
  | cons bind binds ih =>
    obtain ⟨bound, hbound⟩ := Option.isSome_iff_exists.1 (h bind mem_cons_self)
    rw [cons_append, restoredAll, hbound]
    simp only
    rw [ih fun b hb => h b (mem_cons_of_mem _ hb), notedAll, notedAll, filterMap_cons_some hbound]
    rfl

theorem drawn?_of_source {s : Stmt} (h : ∀ z ∈ s.names, isDrawn z = false) : s.drawn? = none := by
  cases s with
  | bind target value =>
    cases htarget : target.symbol? with
    | none => simp [drawn?, htarget]
    | some x =>
      have hx : x ∈ (bind target value).names := by
        rw [names, Expr.names_of_symbol htarget]
        exact mem_append_left _ mem_cons_self
      simp [drawn?, htarget, h x hx]
  | _ => rfl

theorem restoredAll_of_source (hcalls : ∀ x e, calls.get? x = some e → isDrawn x = true)
    {block : List Stmt}
    (h : ∀ z ∈ namesAll block, isDrawn z = false) : restoredAll calls block = untypedAll block := by
  induction block using block_induction with
  | nil => rfl
  | cons s rest ihs ih =>
    simp only [namesAll, mem_append, or_imp, forall_and] at h
    rw [restoredAll, drawn?_of_source h.1, untypedAll]
    cases s <;> simp_all [restored, untyped, suites, or_imp, forall_and, Expr.restored_of_source hcalls,
      Expr.restoredAll_of_source hcalls]

end Stmt
end DataParallel
