import DataParallel.Stmt.Phases

/-! The phases of a block are its statements in order, cut behind every phase boundary that
something follows. -/

namespace DataParallel.Stmt

open List

/-- Groups that partition the statements of a block: a phase boundary is always the last statement
of its group, every group but the last ends in one, and only an empty block has an empty group. -/
structure GroupedAs (block : List Stmt) (groups : List (List Stmt)) : Prop where
  joined : groups.flatten = block
  inside : ∀ group ∈ groups, ∀ s ∈ group.dropLast, s.isPhaseBoundary = false
  closed : ∀ group ∈ groups.dropLast, ∃ s, group.getLast? = some s ∧ s.isPhaseBoundary = true
  inhabited : block ≠ [] → ∀ group ∈ groups, group ≠ []
  -- one group more than phase boundaries, unless the block ends in one
  counted : groups.length + (if block.getLast?.any isPhaseBoundary then 1 else 0) = block.countP isPhaseBoundary + 1

namespace GroupedAs
variable {s : Stmt} {rest group : List Stmt} {groups : List (List Stmt)}

theorem single (s : Stmt) : GroupedAs [s] [[s]] where
  joined := rfl
  inside := by simp
  closed := nofun
  inhabited := by simp
  counted := by cases h : s.isPhaseBoundary <;> simp [h]

/-- A phase boundary that something follows is a group of its own in front of the groups of the
rest. -/
theorem boundary (h : GroupedAs rest groups) (hs : s.isPhaseBoundary = true) (hrest : rest ≠ []) :
    GroupedAs (s :: rest) ([s] :: groups) where
  joined := congrArg (s :: ·) h.joined
  inside := by simpa using h.inside
  closed := by
    have hgroups : groups ≠ [] := by
      rintro rfl
      exact hrest h.joined.symm
    rw [dropLast_cons_of_ne_nil hgroups, forall_mem_cons]
    exact ⟨⟨s, rfl, hs⟩, h.closed⟩
  inhabited _ := forall_mem_cons.2 ⟨cons_ne_nil _ _, h.inhabited hrest⟩
  counted := by
    have hcounted := h.counted
    rw [getLast?_cons_of_ne_nil hrest, countP_cons_of_pos hs, length_cons]
    omega

/-- Any other statement joins the first group of the rest. -/
theorem within (h : GroupedAs rest (group :: groups)) (hs : s.isPhaseBoundary = false)
    (hrest : rest ≠ []) : GroupedAs (s :: rest) ((s :: group) :: groups) where
  joined := congrArg (s :: ·) h.joined
  inside := by
    obtain ⟨hfirst, hothers⟩ := forall_mem_cons.1 h.inside
    refine forall_mem_cons.2 ⟨?_, hothers⟩
    rw [dropLast_cons_of_ne_nil (h.inhabited hrest group mem_cons_self)]
    exact forall_mem_cons.2 ⟨hs, hfirst⟩
  closed := by
    have hgroup := h.inhabited hrest group mem_cons_self
    have hclosed := h.closed
    cases groups with
    | nil => nofun
    | cons next groups =>
      rw [dropLast_cons_of_ne_nil (cons_ne_nil _ _), forall_mem_cons] at hclosed ⊢
      rw [getLast?_cons_of_ne_nil hgroup]
      exact hclosed
  inhabited _ := by
    obtain ⟨-, hothers⟩ := forall_mem_cons.1 (h.inhabited hrest)
    exact forall_mem_cons.2 ⟨cons_ne_nil _ _, hothers⟩
  counted := by
    have hcounted := h.counted
    rw [getLast?_cons_of_ne_nil hrest, countP_cons_of_neg (by simp [hs])]
    exact hcounted

end GroupedAs

theorem phases_partition (block : List Stmt) : GroupedAs block (phases block) := by
  induction block with
  | nil => exact ⟨rfl, by simp [phases], nofun, by simp, rfl⟩
  | cons s rest ih =>
    cases rest with
    | nil =>
      have hphases : phases [s] = [[s]] := by simp [phases, consPhase]
      exact hphases ▸ .single s
    | cons next rest =>
      cases hs : s.isPhaseBoundary with
      | true =>
        have hphases : phases (s :: next :: rest) = [s] :: phases (next :: rest) := by rw [phases, hs]; rfl
        exact hphases ▸ ih.boundary hs (cons_ne_nil _ _)
      | false =>
        have hphases : phases (s :: next :: rest) = consPhase s (phases (next :: rest)) := by rw [phases, hs]; rfl
        rw [hphases]
        cases hgroups : phases (next :: rest) with
        | nil => exact absurd (hgroups ▸ ih.joined) (cons_ne_nil _ _).symm
        | cons group groups => exact (hgroups ▸ ih).within hs (cons_ne_nil _ _)

end DataParallel.Stmt
