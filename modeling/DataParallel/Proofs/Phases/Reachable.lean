import Mathlib.Logic.Function.Iterate
import DataParallel.Lowering.Phases.Blocks

/-! Which procedures are analysed.

Names are looked up one at a time until none is left, and every body that is met for the first time
adds the names in it. What is known by then are the procedures that the entry mentions, directly or
not. -/

namespace DataParallel.Phases

open List

variable {module : Module} {entry x : String} {list : Worklist}

/-- The procedures that an entry procedure mentions, directly or not, itself included. -/
inductive IsReached (module : Module) (entry : String) : String → Prop where
  | entry : (module.findProcedure? entry).isSome = true → IsReached module entry entry
  | mention {x y : String} {p : Procedure} : IsReached module entry x →
    module.findProcedure? x = some p → y ∈ Stmt.namesAll p.body →
    (module.findProcedure? y).isSome = true → IsReached module entry y

theorem IsReached.isSome (h : IsReached module entry x) :
    (module.findProcedure? x).isSome = true := by
  cases h with
  | entry h => exact h
  | mention _ _ _ h => exact h

namespace Worklist

/-- A procedure is known, or its name is left to be looked up. -/
def Covers (list : Worklist) (module : Module) (x : String) : Prop :=
  (module.findProcedure? x).isSome = true → x ∈ list.known ∨ x ∈ list.pending

/-- What holds whenever a name is looked up: only procedures that the entry reaches are known or
left, and none is missed that is mentioned in a known one. -/
structure Follows (module : Module) (entry : String) (list : Worklist) : Prop where
  known : ∀ x ∈ list.known, IsReached module entry x
  pending : ∀ x ∈ list.pending, (module.findProcedure? x).isSome = true → IsReached module entry x
  entry : list.Covers module entry
  mentions : ∀ x ∈ list.known, ∀ p, module.findProcedure? x = some p →
    ∀ y ∈ Stmt.namesAll p.body, list.Covers module y

theorem covers_step (h : list.Covers module x) : (list.step module).Covers module x := by
  obtain ⟨known, _ | ⟨name, pending⟩⟩ := list
  · exact h
  · intro hx
    have hcases := h hx
    rw [mem_cons] at hcases
    rw [step]
    split
    · rename_i hnone
      refine hcases.imp_right fun hx' => hx'.resolve_left ?_
      rintro rfl
      simp [hnone] at hx
    · split
      · rename_i hmem
        rcases hcases with hx' | rfl | hx'
        · exact .inl hx'
        · exact .inl hmem
        · exact .inr hx'
      · rcases hcases with hx' | rfl | hx'
        · exact .inl (mem_append_left _ hx')
        · exact .inl (mem_append_right _ (mem_singleton.2 rfl))
        · exact .inr (mem_append_right _ hx')

theorem Follows.step (h : list.Follows module entry) : (list.step module).Follows module entry := by
  have hcovers : ∀ x ∈ list.known, ∀ p, module.findProcedure? x = some p →
      ∀ y ∈ Stmt.namesAll p.body, (list.step module).Covers module y :=
    fun x hx p hprocedure y hy => covers_step (h.mentions x hx p hprocedure y hy)
  have hentry := covers_step h.entry
  obtain ⟨known, _ | ⟨name, pending⟩⟩ := list
  · exact h
  · have hpending := forall_mem_cons.1 h.pending
    rw [step] at hcovers hentry ⊢
    cases hfound : module.findProcedure? name with
    | none =>
      simp only [hfound] at hcovers hentry ⊢
      exact ⟨h.known, hpending.2, hentry, hcovers⟩
    | some p =>
      have hname : IsReached module entry name := hpending.1 (by rw [hfound]; rfl)
      simp only [hfound] at hcovers hentry ⊢
      split at hcovers
      · rename_i hmem
        rw [if_pos hmem] at hentry ⊢
        exact ⟨h.known, hpending.2, hentry, hcovers⟩
      · rename_i hnew
        rw [if_neg hnew] at hentry ⊢
        refine ⟨forall_mem_append.2 ⟨h.known, forall_mem_singleton.2 hname⟩,
          forall_mem_append.2 ⟨fun y hy hsome => ?_, hpending.2⟩, hentry,
          forall_mem_append.2 ⟨hcovers, forall_mem_singleton.2 fun p hp y hy _ => .inr ?_⟩⟩
        · exact .mention hname hfound (mem_reverse.1 hy) hsome
        · cases hfound.symm.trans hp
          exact mem_append_left _ (mem_reverse.2 hy)

theorem Follows.run (h : list.Follows module entry) :
    (⟨list.run module, []⟩ : Worklist).Follows module entry := by
  fun_induction Worklist.run module list with
  | case1 list hnone =>
    obtain ⟨known, pending⟩ := list
    cases hnone
    exact h
  | case2 list _ ih => exact ih h.step

/-- Looking up names ends. -/
theorem exists_iterate_step (module : Module) (list : Worklist) :
    ∃ n, (step module)^[n] list = ⟨list.run module, []⟩ := by
  fun_induction run module list with
  | case1 list hnone =>
    obtain ⟨known, pending⟩ := list
    cases hnone
    exact ⟨0, rfl⟩
  | case2 list _ ih =>
    obtain ⟨n, hn⟩ := ih
    exact ⟨n + 1, hn⟩

end Worklist

theorem mem_reachable : x ∈ reachable module entry ↔ IsReached module entry x := by
  have hstart : (⟨[], [entry]⟩ : Worklist).Follows module entry :=
    ⟨forall_mem_nil _, forall_mem_singleton.2 .entry, fun _ => .inr (mem_singleton.2 rfl), forall_mem_nil _⟩
  have hend := hstart.run
  refine ⟨hend.known x, fun h => ?_⟩
  induction h with
  | entry hentry => exact (hend.entry hentry).resolve_right not_mem_nil
  | mention _ hprocedure hmention hy ih =>
    exact (hend.mentions _ ih _ hprocedure _ hmention hy).resolve_right not_mem_nil

end DataParallel.Phases
