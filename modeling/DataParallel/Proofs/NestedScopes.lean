import DataParallel.Scopes

/-! Nested scopes under sequences of operations. A scope that is entered and left leaves nothing
behind, and inside it a look-up finds what was inserted last in the innermost open scope that has
the name. -/

namespace DataParallel

open List

namespace Scopes

inductive Operation (α : Type) where
  | enter
  | insert (key : String) (value : α)
  | leave

variable {α : Type} {scopes : Scopes α} {front back ops past : List (Operation α)} {table : Table α}
  {tables : List (Table α)} {key : String} {depth n : Nat}

def perform (scopes : Scopes α) : Operation α → Scopes α
  | .enter => scopes.enter
  | .insert key value => scopes.insert key value
  | .leave => scopes.leave.2

def performAll (scopes : Scopes α) (ops : List (Operation α)) : Scopes α := ops.foldl perform scopes

/-- How many scopes are open after operations that find some open, if these are never left too
often. -/
def opened? : Nat → List (Operation α) → Option Nat
  | depth, [] => some depth
  | depth, .enter :: ops => opened? (depth + 1) ops
  | depth, .insert _ _ :: ops => opened? depth ops
  | depth + 1, .leave :: ops => opened? depth ops
  | 0, .leave :: _ => none

def WellBracketed (ops : List (Operation α)) : Prop := opened? 0 ops = some 0

/-- Goes back over operations, the last one first, to the latest insertion of a name outside the
scopes that have been left since; `left` counts the scopes that have been left behind the place. -/
def latest? (key : String) : (left : Nat) → List (Operation α) → Option α
  | _, [] => none
  | left, .leave :: past => latest? key (left + 1) past
  | left + 1, .enter :: past => latest? key left past
  | left + 1, .insert _ _ :: past => latest? key (left + 1) past
  | 0, .enter :: past => latest? key 0 past
  | 0, .insert name value :: past => if key = name then some value else latest? key 0 past

theorem opened?_append (depth : Nat) (front back : List (Operation α)) :
    opened? depth (front ++ back) = (opened? depth front).bind (opened? · back) := by
  fun_induction opened? depth front with
  | case1 => rfl
  | case2 depth ops ih => exact ih
  | case3 depth key value ops ih => exact ih
  | case4 depth ops ih => exact ih
  | case5 => rfl

/-- Scopes with further tables inside, the innermost one first. -/
def pile (scopes : Scopes α) : List (Table α) → Scopes α
  | [] => scopes
  | table :: tables => ⟨table, (scopes.pile tables).inner :: (scopes.pile tables).outer⟩

theorem get?_pile (scopes : Scopes α) (tables : List (Table α)) (key : String) :
    (scopes.pile tables).get? key = (tables.findSome? (·.get? key)).or (scopes.get? key) := by
  induction tables with
  | nil => rfl
  | cons table tables ih =>
    simp only [get?, pile, findSome?_cons (a := table)]
    cases table.get? key with
    | none => exact ih
    | some value => rfl

/-- The tables, from any of them outwards, hold what the operations so far have inserted last. -/
def Recalls (tables : List (Table α)) (past : List (Operation α)) : Prop :=
  ∀ key, ∀ left ≤ tables.length, (tables.drop left).findSome? (·.get? key) = latest? key left past

theorem recalls_nil : Recalls [(∅ : Table α)] [] := by
  intro key left hleft
  rcases Nat.le_one_iff_eq_zero_or_eq_one.1 hleft with rfl | rfl <;> rfl

theorem Recalls.enter (h : Recalls tables past) : Recalls (∅ :: tables) (.enter :: past) := by
  intro key left hleft
  cases left with
  | zero => exact h key 0 (Nat.zero_le _)
  | succ left => exact h key left (Nat.le_of_succ_le_succ hleft)

section
variable (h : Recalls (table :: tables) past)
include h

theorem Recalls.insert {name : String} {value : α} :
    Recalls (table.insert name value :: tables) (.insert name value :: past) := by
  intro key left hleft
  cases left with
  | succ left => exact h key (left + 1) hleft
  | zero =>
    rw [latest?, ← h key 0 (Nat.zero_le _), drop_zero, drop_zero, findSome?_cons, findSome?_cons, Table.get?_insert]
    by_cases hkey : key = name
    · rw [if_pos hkey, if_pos hkey]
    · rw [if_neg hkey, if_neg hkey]

theorem Recalls.leave : Recalls tables (.leave :: past) :=
  fun key left hleft => h key (left + 1) (Nat.succ_le_succ hleft)

theorem Recalls.performAll (scopes : Scopes α) (hopened : opened? tables.length ops = some n) :
    ∃ table' tables', (scopes.pile (table :: tables)).performAll ops = scopes.pile (table' :: tables') ∧
      tables'.length = n ∧ Recalls (table' :: tables') (ops.reverse ++ past) := by
  induction ops generalizing table tables past with
  | nil => exact ⟨table, tables, rfl, Option.some_inj.1 hopened, h⟩
  | cons op ops ih =>
    rw [reverse_cons, append_assoc]
    cases op with
    | enter => exact ih h.enter hopened
    | insert name value => exact ih h.insert hopened
    | leave =>
      cases tables with
      | nil => cases hopened
      | cons next tables => exact ih h.leave hopened

end

theorem exists_pile (scopes : Scopes α) (h : opened? 0 ops = some n) : ∃ table tables,
    scopes.enter.performAll ops = scopes.pile (table :: tables) ∧ tables.length = n ∧
      Recalls (table :: tables) ops.reverse := by
  obtain ⟨table, tables, hpile, hlength, hrecalls⟩ := recalls_nil.performAll scopes h
  exact ⟨table, tables, hpile, hlength, append_nil ops.reverse ▸ hrecalls⟩

/-- Scopes are as before when one more is left again, whatever was done inside it; it hands back
what was inserted in it last; and every look-up on the way finds the latest insertion in the
innermost open scope that has one. -/
theorem performAll_restores (scopes : Scopes α) (h : WellBracketed ops) :
    scopes.performAll (.enter :: ops ++ [.leave]) = scopes ∧
    (∀ key, (scopes.enter.performAll ops).leave.1.get? key = latest? key 0 ops.reverse) ∧
    (∀ front back, ops = front ++ back → ∀ key,
      (scopes.enter.performAll front).get? key = (latest? key 0 front.reverse).or (scopes.get? key)) ∧
    ∀ others, 1 ≤ (scopes.performAll others).depth := by
  obtain ⟨table, tables, hpile, hlength, hrecalls⟩ := exists_pile scopes h
  obtain rfl : tables = [] := length_eq_zero_iff.1 hlength
  refine ⟨?_, fun key => ?_, ?_, fun _ => Nat.le_add_left 1 _⟩
  · calc scopes.performAll (.enter :: ops ++ [.leave])
      _ = (scopes.enter.performAll ops).leave.2 := by rw [cons_append, performAll, foldl_cons, foldl_append]; rfl
      _ = scopes := by rw [hpile]; rfl
  · rw [hpile, ← hrecalls key 0 (Nat.zero_le _), drop_zero, findSome?_singleton]
    rfl
  · rintro front back rfl key
    rw [WellBracketed, opened?_append] at h
    obtain ⟨n, hfront, -⟩ := Option.bind_eq_some_iff.1 h
    obtain ⟨table, tables, hpile, -, hrecalls⟩ := exists_pile scopes hfront
    rw [hpile, get?_pile, ← hrecalls key 0 (Nat.zero_le _), drop_zero]

/-- A name is inserted, shadowed in a scope inside and inserted again. -/
def shadowing : List (Operation Nat) := [.insert "x" 1, .enter, .insert "x" 2, .leave, .insert "x" 3]

theorem shadowing_restores : WellBracketed shadowing ∧
    (∅ : Scopes Nat).performAll (.enter :: shadowing ++ [.leave]) = ∅ ∧
    ((∅ : Scopes Nat).enter.performAll shadowing).leave.1.get? "x" = some 3 :=
  have h := performAll_restores ∅ (show WellBracketed shadowing from rfl)
  ⟨rfl, h.1, h.2.1 "x"⟩

end Scopes

end DataParallel
