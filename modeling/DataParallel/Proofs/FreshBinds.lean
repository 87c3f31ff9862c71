import DataParallel.Proofs.Layouts
import DataParallel.Proofs.Phases.Steady
import DataParallel.Proofs.Reading.Units

/-! Binds of names that the text has not mentioned before.

Where a unit is read, every name is known in front of the statement that mentions it. So a procedure
that binds no name twice, and none that is known outside of it, binds names that nothing was built
from and that nothing is known about: its body is steady. -/

namespace DataParallel

open List Name

namespace Stmt

variable {x : String} {e : Expr} {registry : Registry} {block : List Stmt} {seen : String → Prop}
  {s : Stmt} {z : String}

mutual

/-- A statement binds names that differ from each other and were not mentioned before in the text.
`seen` has the names from before the statement. -/
def IsFresh (seen : String → Prop) : Stmt → Prop
  | .bind target value => target.names.Nodup ∧ ∀ x ∈ target.names, ¬ seen x ∧ x ∉ value.names
  | .ret _ => True
  | .branch test whenTrue whenFalse => AreFresh (Also seen test.names) whenTrue ∧
    AreFresh (Also seen (test.names ++ namesAll whenTrue)) whenFalse
  | .loop test body => AreFresh (Also seen test.names) body
  | _ => False

def AreFresh (seen : String → Prop) : List Stmt → Prop
  | [] => True
  | s :: rest => IsFresh seen s ∧ AreFresh (Also seen s.names) rest

end

theorem AreFresh.mono {seen seen' : String → Prop} (hs : ∀ x, seen' x → seen x)
    (h : AreFresh seen block) : AreFresh seen' block := by
  induction block using block_induction generalizing seen seen' with
  | nil => trivial
  | cons s rest ihs ih =>
    refine ⟨?_, ih (Also.mono hs) h.2⟩
    cases s <;> grind [AreFresh, IsFresh, suites, Also.mono]

theorem areFresh_append {block' : List Stmt} :
    AreFresh seen (block ++ block') ↔ AreFresh seen block ∧ AreFresh (Also seen (namesAll block)) block' := by
  induction block generalizing seen with
  | nil => simp [AreFresh, namesAll]
  | cons s block ih => rw [cons_append, AreFresh, AreFresh, ih, and_assoc, namesAll, also_append]

theorem AreFresh.new (h : AreFresh seen block) (hx : x ∈ localNames block) : ¬ seen x := by
  intro hseen
  induction hx using localNames_induction generalizing seen with
  | bind hx => exact (h.1.2 x (by simp [Expr.names_of_symbol hx])).1 hseen
  | whenTrue ih => exact ih h.1.1 (.inl hseen)
  | whenFalse ih => exact ih h.1.2 (.inl hseen)
  | loop ih => exact ih h.1 (.inl hseen)
  | later ih => exact ih h.2 (.inl hseen)

theorem AreFresh.arePlain (h : AreFresh seen block) : arePlain block = true := by
  induction block using block_induction generalizing seen with
  | nil => rfl
  | cons s => cases s <;> grind [AreFresh, IsFresh, suites, arePlain, isPlain]

theorem headKnown_names (h : z ∈ s.headKnown registry) : z ∈ s.names := by
  cases s with
  | bind target value =>
    rcases mem_append.1 h with h | h
    · exact mem_append_right _ (Expr.names_of_forced h)
    · split at h
      · rw [names, Expr.names_of_symbol (Option.mem_toList.1 h)]
        exact mem_cons_self
      · cases h
  | branch test whenTrue whenFalse => simp [Expr.names_of_forced h]
  | loop test body => simp [Expr.names_of_forced h]
  | _ => cases h

theorem headParts_names (h : z ∈ s.headParts) : z ∈ s.names := by
  cases s with
  | bind target value =>
    rcases mem_append.1 h with h | h
    · exact mem_append_right _ (Expr.names_of_built h)
    · exact mem_append_right _ (Expr.names_of_tupleNames h)
  | branch test whenTrue whenFalse => simp [Expr.names_of_tupleNames h]
  | loop test body => simp [Expr.names_of_tupleNames h]
  | _ => cases h

theorem also_learned {known parts names known' parts' : List String}
    (h : ∀ x ∈ known ++ parts, seen x)
    (hknown : ∀ {x}, x ∈ known' → x ∈ names) (hparts : ∀ {x}, x ∈ parts' → x ∈ names) :
    ∀ x ∈ known ++ known' ++ (parts ++ parts'), Also seen names x := by
  intro x hx
  simp only [mem_append] at hx
  rcases hx with (hx | hx) | hx | hx
  · exact .inl (h x (mem_append_left _ hx))
  · exact .inr (hknown hx)
  · exact .inl (h x (mem_append_right _ hx))
  · exact .inr (hparts hx)

mutual

theorem IsFresh.isSteady : ∀ {s : Stmt} {seen : String → Prop} {known parts : List String},
    s.IsFresh seen → (∀ x ∈ known ++ parts, seen x) → s.isSteady registry known parts = true
  | .bind target value, seen, known, parts, h, hs => by
    rw [isSteady]
    cases hx : target.symbol? with
    | none => rfl
    | some x =>
      obtain ⟨hnew, hvalue⟩ := h.2 x (by simp [Expr.names_of_symbol hx])
      rw [Option.all_some, decide_eq_true_eq]
      intro hmem
      rcases mem_append.1 hmem with hmem | hmem
      · exact hnew (hs x (mem_append_right _ hmem))
      · rcases mem_append.1 hmem with hmem | hmem
        · exact hvalue (Expr.names_of_built hmem)
        · exact hvalue (Expr.names_of_tupleNames hmem)
  | .ret _, _, _, _, _, _ => rfl
  | .branch test whenTrue whenFalse, seen, known, parts, h, hs => by
    have hs' := also_learned hs (fun {_} => @Expr.names_of_forced registry _ test) Expr.names_of_tupleNames
    have hfalse : AreFresh (Also seen test.names) whenFalse :=
      h.2.mono fun x hx => hx.imp_right (mem_append_left _)
    rw [isSteady, AreFresh.areSteady h.1 hs', AreFresh.areSteady hfalse hs', Bool.and_true, Bool.and_true,
      all_eq_true]
    intro x hx
    rw [Bool.or_eq_true, decide_eq_true_eq, decide_eq_true_eq]
    refine .inr fun hmem => ?_
    have hseen := hs' x (mem_append_left _ hmem)
    rcases mem_append.1 hx with hx | hx
    · exact h.1.new hx hseen
    · exact hfalse.new hx hseen
  | .loop test body, seen, known, parts, h, hs => by
    have hs' := also_learned hs (fun {_} => @Expr.names_of_forced registry _ test) Expr.names_of_tupleNames
    rw [isSteady, AreFresh.areSteady h hs', Bool.and_true, all_eq_true]
    intro x hx
    rw [decide_eq_true_eq]
    exact fun hmem => AreFresh.new h hx (.inr (Expr.names_of_forced hmem))

theorem AreFresh.areSteady : ∀ {block : List Stmt} {seen : String → Prop}
    {known parts : List String}, AreFresh seen block → (∀ x ∈ known ++ parts, seen x) →
      areSteady registry known parts block = true
  | [], _, _, _, _, _ => rfl
  | s :: rest, seen, known, parts, h, hs => by
    rw [areSteady, IsFresh.isSteady h.1 hs, Bool.true_and]
    exact AreFresh.areSteady h.2 (also_learned hs headKnown_names headParts_names)

end

theorem AreRead.areFresh {known seen : String → Prop} (h : AreRead known block)
    (hnodup : (bindingsAll block).Nodup)
    (hnew : ∀ x ∈ bindingsAll block, ¬ known x) (hseen : ∀ x, seen x → known x) : AreFresh seen block := by
  induction block using block_induction generalizing known seen with
  | nil => trivial
  | cons s rest ihs ih =>
    have hs : AreRead known [s] := ⟨h.1, trivial⟩
    have hs := hs.written
    simp only [namesAll, bindingsAll, append_nil, nodup_append] at hs hnodup hnew
    refine ⟨?_, ih h.2 hnodup.2.1 (by grind [Also]) (by grind [Also])⟩
    cases s <;> grind [AreRead, IsRead, Expr.IsRead, IsFresh, suites, bindings, bindingsAll, Also, AreRead.written]

end Stmt

theorem Expr.namesAll_laid (es : List Expr) :
    Expr.namesAll (Expr.laidAll es) = Expr.namesAll es := by
  induction es using Expr.list_induction with
  | nil => rfl
  | cons e es ihe ih => cases e <;> simp_all [laid, laidAll]

theorem Expr.names_laid (e : Expr) : e.laid.names = e.names := by
  simpa [laidAll] using namesAll_laid [e]

namespace Stmt

theorem namesAll_laid (block : List Stmt) : namesAll (laidAll block) = namesAll block := by
  induction block using block_induction with
  | nil => rfl
  | cons s rest ihs ih =>
    rw [laidAll, namesAll, namesAll, ih]
    cases s <;> simp_all [laid, names, suites, Expr.names_laid, Expr.namesAll_laid]

theorem names_laid (s : Stmt) : s.laid.names = s.names := by
  simpa [laidAll, namesAll] using namesAll_laid [s]

theorem AreFresh.laidAll (h : AreFresh seen block) : AreFresh seen (laidAll block) := by
  induction block using block_induction generalizing seen with
  | nil => trivial
  | cons s rest ihs ih =>
    rw [Stmt.laidAll, AreFresh, names_laid]
    refine ⟨?_, ih h.2⟩
    cases s <;> simp_all [AreFresh, IsFresh, laid, suites, Expr.names_laid, namesAll_laid]

end Stmt

end DataParallel
