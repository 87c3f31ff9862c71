import DataParallel.Proofs.Frames
import DataParallel.Proofs.Names
import DataParallel.Proofs.Phases.Statements

/-! What the tables of phase analysis may mention.

A name is read through one that was drawn for it, and tuples and closures are recorded with the
names that were read when they were bound. So the tables mention what the text mentioned before, and
names drawn for that. -/

namespace DataParallel

open Name

variable {e f : Expr} {x : String} {arguments : List Expr}

namespace Expr

variable {registry : Registry} {z : String} {es : List Expr}

mutual

def isCallFree : Expr → Bool
  | .name .. | .literal .. => true
  | .tuple parts _ | .closure _ parts _ => areCallFree parts
  | .apply .. => false

def areCallFree : List Expr → Bool
  | [] => true
  | e :: rest => isCallFree e && areCallFree rest

end

mutual

def buildsNoTuple : Expr → Bool
  | .name .. | .literal .. => true
  | .tuple parts _ | .closure _ parts _ => buildNoTuples parts
  | .apply f arguments _ => f.symbol? ≠ some Snippet.makeTuple && buildNoTuples arguments

def buildNoTuples : List Expr → Bool
  | [] => true
  | e :: rest => buildsNoTuple e && buildNoTuples rest

end

/-- Whether no call in a part of an expression builds a tuple; the expression itself may. -/
def partsBuildNoTuple : Expr → Bool
  | .apply _ arguments _ => buildNoTuples arguments
  | e => e.buildsNoTuple

/-- Whether an expression is the name of a procedure that forces its arguments. -/
def forces (registry : Registry) (f : Expr) : Bool :=
  f.symbol?.any fun callee => !Name.Snippet.isSnippet callee &&
    (registry.get? callee).any (·.synchronization = .forces)

mutual

def forcedNames (registry : Registry) : Expr → List String
  | .name .. | .literal .. => []
  | .tuple parts _ | .closure _ parts _ => forcedNamesAll registry parts
  | .apply f arguments _ =>
    if f.forces registry then namesAll arguments else forcedNamesAll registry arguments

def forcedNamesAll (registry : Registry) : List Expr → List String
  | [] => []
  | e :: rest => forcedNames registry e ++ forcedNamesAll registry rest

end

theorem areCallFree_iff : areCallFree es = true ↔ ∀ e ∈ es, e.isCallFree = true := by
  induction es with
  | nil => simp [areCallFree]
  | cons e es ih => simp [areCallFree, ih]

theorem eq_name_of_symbol (h : e.symbol? = some x) : e = .name x e.typing := by
  cases e with
  | name => cases h; rfl
  | _ => cases h

theorem mem_forcedNamesAll :
    z ∈ forcedNamesAll registry es ↔ ∃ e ∈ es, z ∈ e.forcedNames registry := by
  induction es with
  | nil => simp [forcedNamesAll]
  | cons e es ih => simp [forcedNamesAll, ih]

theorem namesAll_of_forced {es : List Expr} (h : z ∈ forcedNamesAll registry es) :
    z ∈ namesAll es := by
  induction es using list_induction with
  | nil => exact h
  | cons e es ihe ih => cases e <;> simp_all [forcedNames, forcedNamesAll] <;> grind

theorem names_of_forced {e : Expr} (h : z ∈ e.forcedNames registry) : z ∈ e.names := by
  simpa using @namesAll_of_forced registry z [e] (by simpa [forcedNamesAll] using h)

theorem partsBuildNoTuple_of_builds (h : e.buildsNoTuple = true) : e.partsBuildNoTuple = true := by
  cases e with
  | apply f arguments typing =>
    rw [buildsNoTuple, Bool.and_eq_true] at h
    exact h.2
  | _ => exact h

theorem callee_of_builds {t : Typing} (h : (apply f arguments t).buildsNoTuple = true) :
    f.symbol? ≠ some Snippet.makeTuple := by
  rw [buildsNoTuple, Bool.and_eq_true, decide_eq_true_eq] at h
  exact h.1

theorem buildNoTuples_of_areCallFree {es : List Expr} (h : areCallFree es = true) :
    buildNoTuples es = true := by
  induction es using list_induction with
  | nil => rfl
  | cons e es ihe ih => cases e <;> simp_all [areCallFree, isCallFree, buildNoTuples, buildsNoTuple]

theorem buildsNoTuple_of_isCallFree {e : Expr} (h : e.isCallFree = true) :
    e.buildsNoTuple = true := by
  simpa [buildNoTuples] using @buildNoTuples_of_areCallFree [e] (by simpa [areCallFree] using h)

end Expr

namespace Phases

namespace State

variable {s t : State} {names : List String} {fields : List Expr}

def standIn? (s : State) (x : String) : Option Expr := (s.substitutions.get? x).join

theorem current_name (s : State) (x : String) (typing : Typing) :
    s.current (.name x typing) = (s.standIn? x).getD (.name x typing) := rfl

section Effects
variable (s : State) (x y entry : String) (e value : Expr) (typing : Typing) (fields : List Expr)
  (completion : Completion)

theorem standIn?_substitute :
    (s.substitute x e).standIn? y = if y = x then some e else s.standIn? y := by
  simp only [standIn?, substitute, Scopes.get?_insert]
  split <;> rfl

theorem standIn?_realized : (s.realized x value typing).standIn? y =
    if y = x then some (.name (s.phases.derive x).1 typing) else s.standIn? y := by
  rw [realized, standIn?_substitute]
  rfl

theorem standIn?_rebuilt : (s.rebuilt x fields typing).standIn? y =
    if y = x then some (.name (s.phases.derive x).1 typing) else s.standIn? y := by
  rw [rebuilt, standIn?_substitute]
  rfl

theorem componentsOf?_rebuilt : (s.rebuilt x fields typing).componentsOf? y =
    if y = (s.phases.derive x).1 then some fields else s.componentsOf? y := by
  simp only [componentsOf?, rebuilt, substitute, setCompletion, pend, freshPhase, Scopes.get?_insert]
  split <;> rfl

theorem closureOf?_reclosed : (s.reclosed x e value).closureOf? y =
    if y = (s.phases.derive x).1 then some value else s.closureOf? y := by
  simp only [closureOf?, reclosed, setCompletion, pend, freshPhase, Scopes.get?_insert]
  split <;> rfl

theorem standIn?_record : (s.record entry x value completion).standIn? y =
    if y = x then none else s.standIn? y := by
  simp only [standIn?, record]
  split
  · rw [Scopes.get?_insert]
    split <;> rfl
  · rename_i hx
    split
    · rename_i hy
      have hnone : s.substitutions.get? x = none := by simpa [Scopes.contains] using hx
      rw [hy, hnone]
      rfl
    · rfl

def recordedFields (s : State) (value : Expr) : Option (List Expr) :=
  if value.callee? = some Snippet.makeTuple then some value.arguments
  else value.symbol?.bind s.componentsOf?

theorem recordedFields_apply : s.recordedFields (.apply f arguments typing) =
      if f.symbol? = some Snippet.makeTuple then some arguments else none := rfl

def recordedClosure (s : State) (value : Expr) : Option Expr :=
  match value with
  | .closure .. => some value
  | .name symbol _ => s.closureOf? symbol
  | _ => none

variable {s value fields} in
theorem recordedFields_cases (h : s.recordedFields value = some fields) :
    (∃ f typing, value = .apply f fields typing ∧ f.symbol? = some Snippet.makeTuple) ∨
      ∃ y typing, value = .name y typing ∧ s.componentsOf? y = some fields := by
  cases value with
  | name y typing => exact .inr ⟨y, typing, rfl, h⟩
  | apply f arguments typing =>
    rw [recordedFields_apply] at h
    split at h
    · cases h
      exact .inl ⟨f, typing, rfl, ‹_›⟩
    · cases h
  | _ => cases h

variable {s value e} in
theorem recordedClosure_cases (h : s.recordedClosure value = some e) :
    (value = e ∧ ∃ f captured typing, e = .closure f captured typing) ∨
      ∃ y typing, value = .name y typing ∧ s.closureOf? y = some e := by
  cases value with
  | name y typing => exact .inr ⟨y, typing, rfl, h⟩
  | closure f captured typing =>
    cases h
    exact .inl ⟨rfl, _, _, _, rfl⟩
  | _ => cases h

theorem componentsOf?_record : (s.record entry x value completion).componentsOf? y =
    if y = x then s.recordedFields value else s.componentsOf? y := by
  simp only [componentsOf?, record, Scopes.get?_insert]
  split <;> rfl

theorem closureOf?_record : (s.record entry x value completion).closureOf? y =
    if y = x then s.recordedClosure value else s.closureOf? y := by
  simp only [closureOf?, record, Scopes.get?_insert]
  split <;> rfl

end Effects

/-- The tables of `t` are those of `s` without what they know about some names. -/
structure Forgets (s : State) (names : List String) (t : State) : Prop where
  standIns : ∀ y, t.standIn? y = if y ∈ names then none else s.standIn? y
  fields : ∀ y, t.componentsOf? y = if y ∈ names then none else s.componentsOf? y
  closures : ∀ y, t.closureOf? y = if y ∈ names then none else s.closureOf? y

namespace Forgets
variable {u : State}

theorem none (hstand : ∀ y, t.standIn? y = s.standIn? y)
    (hfields : ∀ y, t.componentsOf? y = s.componentsOf? y)
    (hclosures : ∀ y, t.closureOf? y = s.closureOf? y) : Forgets s [] t :=
  ⟨fun y => by simp [hstand], fun y => by simp [hfields], fun y => by simp [hclosures]⟩

theorem of_standIn (h : Forgets s names t) (hx : t.standIn? x = some e) :
    x ∉ names ∧ s.standIn? x = some e := by
  rw [h.standIns] at hx
  split at hx
  · cases hx
  · exact ⟨‹_›, hx⟩

theorem of_fields (h : Forgets s names t) (hx : t.componentsOf? x = some fields) :
    x ∉ names ∧ s.componentsOf? x = some fields := by
  rw [h.fields] at hx
  split at hx
  · cases hx
  · exact ⟨‹_›, hx⟩

theorem of_closure (h : Forgets s names t) (hx : t.closureOf? x = some e) :
    x ∉ names ∧ s.closureOf? x = some e := by
  rw [h.closures] at hx
  split at hx
  · cases hx
  · exact ⟨‹_›, hx⟩

theorem trans {names' : List String} (h : Forgets s names t) (h' : Forgets t names' u) :
    Forgets s (names ++ names') u := by
  refine ⟨fun y => ?_, fun y => ?_, fun y => ?_⟩
  · rw [h'.standIns, h.standIns]
    by_cases hy : y ∈ names <;> by_cases hy' : y ∈ names' <;> simp [hy, hy']
  · rw [h'.fields, h.fields]
    by_cases hy : y ∈ names <;> by_cases hy' : y ∈ names' <;> simp [hy, hy']
  · rw [h'.closures, h.closures]
    by_cases hy : y ∈ names <;> by_cases hy' : y ∈ names' <;> simp [hy, hy']

end Forgets

section Scopes
variable (s t u : State)

theorem forgets_setCompletions (completions : List (String × Completion)) :
    Forgets s [] (s.setCompletions completions) := by
  induction completions generalizing s with
  | nil => exact .none (fun _ => rfl) (fun _ => rfl) (fun _ => rfl)
  | cons entry rest ih =>
    have hentry : Forgets s [] (s.setCompletion entry.1 entry.2) :=
      .none (fun _ => rfl) (fun _ => rfl) (fun _ => rfl)
    exact hentry.trans (ih (s.setCompletion entry.1 entry.2))

theorem forgets_invalidateAll (names : List String) : Forgets s names (s.invalidateAll names) := by
  induction names generalizing s with
  | nil => exact .none (fun _ => rfl) (fun _ => rfl) (fun _ => rfl)
  | cons name rest ih =>
    have hname : Forgets s [name] (s.invalidate name) := by
      refine ⟨fun y => ?_, fun y => ?_, fun y => ?_⟩
      · simp only [standIn?, invalidate, Scopes.get?_insert, List.mem_singleton]
        split <;> rfl
      · simp only [componentsOf?, invalidate, Scopes.get?_insert, List.mem_singleton]
        split <;> rfl
      · simp only [closureOf?, invalidate, Scopes.get?_insert, List.mem_singleton]
        split <;> rfl
    exact hname.trans (ih (s.invalidate name))

theorem forgets_enter : Forgets s [] s.enter :=
  .none (fun _ => by simp [standIn?, enter]) (fun _ => by simp [componentsOf?, enter])
    (fun _ => by simp [closureOf?, enter])

theorem forgets_flush : Forgets s [] s.flush := .none (fun _ => rfl) (fun _ => rfl) (fun _ => rfl)

theorem forgets_resume :
    Forgets s [] (s.resume t) := .none (fun _ => rfl) (fun _ => rfl) (fun _ => rfl)

theorem forgets_joined : Forgets s (t.bound.inner.keys ++ u.bound.inner.keys) (s.joined t u) :=
  ((s.forgets_resume u).trans (forgets_setCompletions _ _)).trans (forgets_invalidateAll _ _)

theorem forgets_tripStart (selfResults : List String) (head : Table Completion) :
    Forgets s [] (s.tripStart selfResults head) := by
  have hself : Forgets s [] { s with selfResults } := .none (fun _ => rfl) (fun _ => rfl) (fun _ => rfl)
  exact (hself.trans (forgets_enter _)).trans (forgets_setCompletions _ head.entries)

theorem forgets_settled (head : Table Completion) : Forgets s [] (s.settled t head) :=
  (s.forgets_resume t).trans (forgets_setCompletions _ _)

end Scopes

/-- What is read in place of names is `A`, and the tuples and closures on record are `B` and `C`. -/
structure Tables (s : State) (A : String → Expr → Prop) (B : String → List Expr → Prop) (C : String → Expr → Prop) :
    Prop where
  standIns : ∀ {x e}, s.standIn? x = some e → A x e
  fields : ∀ {x fields}, s.componentsOf? x = some fields → B x fields
  closures : ∀ {x e}, s.closureOf? x = some e → C x e

namespace Tables
variable {A : String → Expr → Prop} {B : String → List Expr → Prop} {C : String → Expr → Prop} {entry : String}
  {value : Expr} {typing : Typing} {completion : Completion}

section
variable (h : s.Tables A B C)
include h

theorem forget (hf : Forgets s names t) : t.Tables A B C :=
  ⟨fun hx => h.standIns (hf.of_standIn hx).2, fun hx => h.fields (hf.of_fields hx).2,
    fun hx => h.closures (hf.of_closure hx).2⟩

theorem substitute (he : A x e) : (s.substitute x e).Tables A B C := by
  refine ⟨fun {z f} hz => ?_, h.fields, h.closures⟩
  rw [standIn?_substitute] at hz
  split at hz
  · rename_i hzx
    cases hz
    exact hzx ▸ he
  · exact h.standIns hz

theorem realized (hx : A x (.name (s.phases.derive x).1 typing)) :
    (s.realized x value typing).Tables A B C :=
  substitute (h.forget (.none (fun _ => rfl) (fun _ => rfl) (fun _ => rfl))) hx

theorem rebuilt (hx : A x (.name (s.phases.derive x).1 typing))
    (hfields : B (s.phases.derive x).1 fields) : (s.rebuilt x fields typing).Tables A B C := by
  refine substitute ⟨h.standIns, fun {z parts} hz => ?_, h.closures⟩ hx
  replace hz : (s.rebuilt x fields typing).componentsOf? z = some parts := hz
  rw [componentsOf?_rebuilt] at hz
  split at hz
  · rename_i hzx
    cases hz
    exact hzx ▸ hfields
  · exact h.fields hz

theorem reclosed (hvalue : C (s.phases.derive x).1 value) :
    (s.reclosed x e value).Tables A B C := by
  refine ⟨h.standIns, h.fields, fun {z c} hz => ?_⟩
  rw [closureOf?_reclosed] at hz
  split at hz
  · rename_i hzx
    cases hz
    exact hzx ▸ hvalue
  · exact h.closures hz

end

theorem record (h : s.Tables (fun z e => z ≠ x → A z e) (fun z fields => z ≠ x → B z fields) fun z e => z ≠ x → C z e)
    (hfields : ∀ fields, s.recordedFields value = some fields → B x fields)
    (hclosure : ∀ e, s.recordedClosure value = some e → C x e) :
    (s.record entry x value completion).Tables A B C := by
  refine ⟨fun {z e} hz => ?_, fun {z parts} hz => ?_, fun {z e} hz => ?_⟩
  · rw [standIn?_record] at hz
    split at hz
    · cases hz
    · exact h.standIns hz ‹_›
  · rw [componentsOf?_record] at hz
    split at hz
    · rename_i hzx
      exact hzx ▸ hfields _ hz
    · exact h.fields hz ‹_›
  · rw [closureOf?_record] at hz
    split at hz
    · rename_i hzx
      exact hzx ▸ hclosure _ hz
    · exact h.closures hz ‹_›

theorem but (h : s.Tables A B C) (x : String) :
    s.Tables (fun z e => z ≠ x → A z e) (fun z fields => z ≠ x → B z fields) fun z e => z ≠ x → C z e :=
  ⟨fun hz _ => h.standIns hz, fun hz _ => h.fields hz, fun hz _ => h.closures hz⟩

end Tables

/-- A name that is not drawn any more, like all that it stands for. -/
def Past (s : State) (y : String) : Prop := ∀ x, StandsFor x y →
  (∀ (base : String) (n : Nat), x = base ++ "_phase" ++ toString n → n < s.phases.counter) ∧
    ∀ n : Nat, x = "_sync" ++ toString n → n < s.temporaries.counter

def Draws (s t : State) : Prop :=
  s.phases.counter ≤ t.phases.counter ∧ s.temporaries.counter ≤ t.temporaries.counter

theorem Draws.refl (s : State) : Draws s s := ⟨Nat.le_refl _, Nat.le_refl _⟩

theorem Grows.draws (h : Grows s t) : Draws s t := ⟨h.drawn, h.temporaryDrawn⟩

def Stems (s : State) : Prop := s.phases.stem = "_phase" ∧ s.temporaries.stem = "_sync"

section Drawing
variable {y : String}

theorem Past.of_standsFor (h : s.Past y) (hx : StandsFor x y) :
    s.Past x := fun z hz => h z (hz.trans hx)

theorem Past.mono (h : s.Past y) (hd : Draws s t) : t.Past y := fun x hx =>
  ⟨fun base n hn => Nat.lt_of_lt_of_le ((h x hx).1 base n hn) hd.1,
    fun n hn => Nat.lt_of_lt_of_le ((h x hx).2 n hn) hd.2⟩

theorem past_of_source (h : ¬ IsDrawn y) : s.Past y := by
  intro x hx
  obtain rfl := hx.eq_of_source h
  exact ⟨fun base n hn => absurd (.inl ⟨base, n, hn⟩) h, fun n hn => absurd (.inr ⟨n, hn⟩) h⟩

theorem Stems.mono (h : s.Stems) (hg : Grows s t) : t.Stems :=
  ⟨hg.stem.trans h.1, hg.temporaryStem.trans h.2⟩

theorem Stems.derive (h : s.Stems) (x : String) :
    (s.phases.derive x).1 = x ++ "_phase" ++ toString s.phases.counter := by
  rw [Supply.derive, h.1]

theorem Stems.next (h : s.Stems) : s.temporaries.next.1 = "_sync" ++ toString s.temporaries.counter := by
  rw [Supply.next, h.2]

theorem past_derived (hs : s.Stems) (hy : s.Past y) (hd : Draws s t)
    (hn : s.phases.counter < t.phases.counter) : t.Past (s.phases.derive y).1 := by
  rw [hs.derive]
  intro x hx
  generalize hz : y ++ "_phase" ++ toString s.phases.counter = z at hx
  cases hx with
  | refl =>
    refine ⟨fun base m hm => ?_, fun m hm => absurd (hz.trans hm) (realized_ne_temporary _ _ _)⟩
    obtain ⟨-, rfl⟩ := realized_inj (hz.trans hm)
    exact hn
  | realized m hx =>
    obtain ⟨rfl, -⟩ := realized_inj hz
    exact hy.mono hd x hx

theorem past_temporary (hs : s.Stems) (hn : s.temporaries.counter < t.temporaries.counter) :
    t.Past s.temporaries.next.1 := by
  rw [hs.next]
  intro x hx
  obtain rfl := hx.eq_of_root (temporary_not_realized _)
  refine ⟨fun base m hm => absurd hm.symm (realized_ne_temporary _ _ _), fun m hm => ?_⟩
  rwa [← temporary_inj hm]

theorem standsFor_derived (hs : s.Stems) : StandsFor x (s.phases.derive x).1 := by
  rw [hs.derive]
  exact .realized _ .refl

end Drawing

end State

end Phases
end DataParallel
