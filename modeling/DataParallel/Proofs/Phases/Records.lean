import DataParallel.Proofs.Phases.Drawn

/-! What binds leave on record, and what scopes leave of it. -/

namespace DataParallel

open Phases.State

variable {e : Expr} {x : String}

namespace Expr

/-- Whether no part of a bound tuple or closure is computed on the spot, and all other tuples are
written as such. -/
def isRecordable : Expr → Bool
  | .closure _ captured _ => areCallFree captured
  | .apply f arguments _ =>
    if f.symbol? = some Name.Snippet.makeTuple then areCallFree arguments else buildNoTuples arguments
  | e => e.buildsNoTuple

def builtNames : Expr → List String
  | .closure f captured _ => f.names ++ namesAll captured
  | .apply f arguments _ => if f.symbol? = some Name.Snippet.makeTuple then namesAll arguments else []
  | _ => []

theorem names_of_built {z : String} (h : z ∈ e.builtNames) : z ∈ e.names := by
  cases e with
  | closure f captured typing => exact h
  | apply f arguments typing =>
    rw [builtNames] at h
    split at h
    · exact List.mem_append_right _ h
    · cases h
  | _ => cases h

theorem partsBuildNoTuple_of_recordable (h : e.isRecordable = true) :
    e.partsBuildNoTuple = true := by
  cases e with
  | apply f arguments typing =>
    rw [isRecordable] at h
    split at h
    · exact buildNoTuples_of_areCallFree h
    · exact h
  | closure f captured typing => exact buildNoTuples_of_areCallFree h
  | _ => exact h

end Expr

theorem Expr.callee?_of_symbol (h : e.symbol? = some x) : e.callee? = none := by
  cases e with
  | name => rfl
  | _ => cases h

namespace Phases

variable {inEntry : Bool} {parameters : List Expr} {phases temporaries : Supply}

section Records
variable {Γ : Context} {s s' : State} {e' : Expr} {completion : Completion} {binds : List Stmt}

theorem Derives.value_cases (h : Derives Γ (.value e) s [(e', completion)] binds s') :
    (∃ x typing, e = .name x typing ∧ e' = s.current e ∧ s' = s) ∨
    (∃ text typing, e = .literal text typing ∧ e' = e) ∨
    (∃ k parts results, e = Head.build k parts ∧ e' = k.build (results.map Prod.fst) ∧
      Derives Γ (.all (parts.map .value)) s results binds s') ∨
    ∃ f arguments arguments' typing, e = .apply f arguments typing ∧
      e' = .apply f arguments' typing ∧ f.forces Γ.registry = true := by
  generalize ht : Task.value e = task at h
  generalize hr : [(e', completion)] = results at h
  cases h with
  | name s x typing => cases ht; cases hr; exact .inl ⟨x, typing, rfl, rfl, rfl⟩
  | literal => cases ht; cases hr; exact .inr (.inl ⟨_, _, rfl, rfl⟩)
  | node h => cases ht; cases hr; exact .inr (.inr (.inl ⟨_, _, _, rfl, rfl, h⟩))
  | forcing _ hf hcallee hs hforces =>
    cases ht
    cases hr
    exact .inr (.inr (.inr ⟨_, _, _, _, rfl, rfl, forces_of_signature hf hcallee hs hforces⟩))
  | _ => cases ht

theorem Derives.callee (h : Derives Γ (.value e) s [(e', completion)] binds s')
    (hcurrent : ∀ x typing, ∃ y, (s.current (.name x typing)).symbol? = some y) : e'.callee? = e.callee? := by
  rcases h.value_cases with ⟨x, typing, rfl, rfl, -⟩ | ⟨_, _, rfl, rfl⟩ | ⟨k, _, _, rfl, rfl, -⟩ |
    ⟨_, _, _, _, rfl, rfl, -⟩
  · obtain ⟨y, hy⟩ := hcurrent x typing
    exact Expr.callee?_of_symbol hy
  · rfl
  · cases k <;> rfl
  · rfl

theorem symbol_ne_of_forces {registry : Registry} {f : Expr} (h : f.forces registry = true) :
    f.symbol? ≠ some Name.Snippet.makeTuple := by
  intro hf
  have hsnippet : Name.Snippet.isSnippet Name.Snippet.makeTuple = true := by decide
  simp [Expr.forces, hf, hsnippet] at h

end Records

theorem State.forgets_bodyStart (inEntry : Bool) (parameters : List Expr)
    (phases temporaries : Supply) :
    Forgets ⟨true, inEntry, ∅, ∅, ∅, ∅, ∅, [], [], phases, temporaries⟩ []
      (bodyStart inEntry parameters phases temporaries) :=
  (forgets_enter _).trans (forgets_setCompletions _ _)

theorem State.tables_bodyStart {A C : String → Expr → Prop} {B : String → List Expr → Prop} :
    (bodyStart inEntry parameters phases temporaries).Tables A B C :=
  Tables.forget ⟨(fun h => by cases h), (fun h => by cases h), (fun h => by cases h)⟩
    (forgets_bodyStart inEntry parameters phases temporaries)

theorem State.bare_bodyStart :
    (bodyStart inEntry parameters phases temporaries).Tables (fun _ _ => False) (fun _ _ => False) fun _ _ => False :=
  tables_bodyStart

theorem State.grows_bodyStart (inEntry : Bool) (parameters : List Expr)
    (phases temporaries : Supply) :
    Grows (⟨true, inEntry, ∅, ∅, ∅, ∅, ∅, [], [], phases, temporaries⟩ : State).enter
      (bodyStart inEntry parameters phases temporaries) :=
  grows_setCompletions _ _

theorem State.stems_bodyStart (hphases : phases.stem = "_phase") (htemporaries : temporaries.stem = "_sync") :
    (bodyStart inEntry parameters phases temporaries).Stems :=
  Stems.mono (s := (⟨true, inEntry, ∅, ∅, ∅, ∅, ∅, [], [], phases, temporaries⟩ : State).enter)
    ⟨hphases, htemporaries⟩ (grows_bodyStart inEntry parameters phases temporaries)

end Phases

end DataParallel
