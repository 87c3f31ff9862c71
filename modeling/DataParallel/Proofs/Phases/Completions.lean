import DataParallel.Proofs.Phases.Coverage

/-! Completions across scopes.

A scope only inserts completions, so what it knows at its end is what it inserted, and what was
known in front of it otherwise. Behind a branch the two ends are merged; at the head of a loop that
has settled, one more trip adds nothing. -/

namespace DataParallel

open List

variable {α : Type} {table : Table α} {x : String} {a : α}

namespace Completion

variable {a : Completion} {cs : List Completion}

@[simp] theorem merge_eq_incomplete {b : Completion} :
    a.merge b = .incomplete ↔ a = .incomplete ∨ b = .incomplete := by
  cases a <;> cases b <;> simp [merge]

theorem foldl_merge_eq_incomplete :
    cs.foldl merge a = .incomplete ↔ a = .incomplete ∨ .incomplete ∈ cs := by
  induction cs generalizing a with
  | nil => simp
  | cons c cs ih => rw [foldl_cons, ih, merge_eq_incomplete, mem_cons, or_assoc, eq_comm (b := c)]

theorem all_eq_incomplete : all cs = .incomplete ↔ .incomplete ∈ cs := by
  simp [all, foldl_merge_eq_incomplete]

end Completion

theorem Table.mem_entries_of_get? (h : table.get? x = some a) : (x, a) ∈ table.entries := by
  obtain ⟨entries⟩ := table
  simp only [get?] at h
  induction entries with
  | nil => cases h
  | cons entry rest ih =>
    obtain ⟨name, value⟩ := entry
    rw [lookup_cons] at h
    split at h
    · cases h
      rename_i hname
      rw [beq_iff_eq] at hname
      exact hname ▸ mem_cons_self
    · exact mem_cons_of_mem _ (ih h)

theorem Table.get?_of_mem_entries (hnodup : table.keys.Nodup) (h : (x, a) ∈ table.entries) :
    table.get? x = some a := by
  obtain ⟨entries⟩ := table
  simp only [keys] at hnodup
  simp only [get?] at h ⊢
  induction entries with
  | nil => cases h
  | cons entry rest ih =>
    obtain ⟨name, value⟩ := entry
    rw [map_cons, nodup_cons] at hnodup
    rw [lookup_cons]
    rcases mem_cons.1 h with h | h
    · cases h
      simp
    · have hmem : x ∈ rest.map Prod.fst := mem_map.2 ⟨(x, a), h, rfl⟩
      have hne : (x == name) = false := beq_eq_false_iff_ne.2 fun hx => hnodup.1 (hx ▸ hmem)
      rw [hne]
      exact ih hnodup.2 h

theorem Table.get?_eq_none_of_keys (h : x ∉ table.keys) : table.get? x = none := by
  cases hx : table.get? x with
  | none => rfl
  | some a => exact absurd (mem_map.2 ⟨_, mem_entries_of_get? hx, rfl⟩) h

namespace Phases

variable {s : State}

namespace State

variable {value : Expr} {typing : Typing} {selfResults : List String} {t u : State} {y : String}
  {head : Table Completion}

theorem completionOf_setCompletion {c : Completion} :
    (s.setCompletion y c).completionOf x = if x = y then c else s.completionOf x := by
  simp only [completionOf, setCompletion, Scopes.get?_insert]
  split <;> rfl

theorem completionOf_congr (h : t.completions = s.completions) :
    t.completionOf x = s.completionOf x := by
  simp only [completionOf, h]

theorem completionOf_record {entry : String} {completion : Completion} :
    (s.record entry y value completion).completionOf x = if x = y then completion else s.completionOf x :=
  completionOf_setCompletion (s := s)

theorem completionOf_realized : (s.realized y value typing).completionOf x =
      if x = y then .complete else if x = (s.phases.derive y).1 then .complete else s.completionOf x := by
  rw [show (s.realized y value typing).completionOf x =
      ((s.setCompletion (s.phases.derive y).1 .complete).setCompletion y .complete).completionOf x from rfl,
    completionOf_setCompletion, completionOf_setCompletion]

theorem completionOf_rebuilt {fields : List Expr} : (s.rebuilt y fields typing).completionOf x =
      if x = y then Completion.all (s.completionsOfValues fields)
      else if x = (s.phases.derive y).1 then Completion.all (s.completionsOfValues fields)
      else s.completionOf x := by
  rw [show (s.rebuilt y fields typing).completionOf x =
      ((s.setCompletion (s.phases.derive y).1 (Completion.all (s.completionsOfValues fields))).setCompletion y
        (Completion.all (s.completionsOfValues fields))).completionOf x from rfl,
    completionOf_setCompletion, completionOf_setCompletion]

theorem completionOf_reclosed {like closure : Expr} : (s.reclosed y like closure).completionOf x =
      if x = (s.phases.derive y).1 then .complete else s.completionOf x :=
  completionOf_setCompletion (s := s)

theorem completionOf_setCompletions {f : String → Completion}
    {completions : List (String × Completion)} (h : ∀ entry ∈ completions, entry.2 = f entry.1) :
    (s.setCompletions completions).completionOf x =
      if x ∈ completions.map Prod.fst then f x else s.completionOf x := by
  induction completions generalizing s with
  | nil => simp [setCompletions]
  | cons entry rest ih =>
    rw [show s.setCompletions (entry :: rest) = (s.setCompletion entry.1 entry.2).setCompletions rest from rfl,
      ih fun e he => h e (mem_cons_of_mem _ he), completionOf_setCompletion, map_cons]
    by_cases hrest : x ∈ rest.map Prod.fst
    · rw [if_pos hrest, if_pos (mem_cons_of_mem _ hrest)]
    · by_cases hx : x = entry.1
      · rw [if_neg hrest, if_pos hx, hx, if_pos mem_cons_self, h entry mem_cons_self]
      · rw [if_neg hrest, if_neg hx, if_neg (by simp [hx] at hrest ⊢; exact hrest)]

theorem completions_setCompletions (completions : List (String × Completion)) :
    (s.setCompletions completions).completions =
      completions.foldl (fun scopes entry => scopes.insert entry.1 entry.2) s.completions := by
  induction completions generalizing s with
  | nil => rfl
  | cons entry rest ih => exact ih

def Inserts (s t : State) : Prop :=
  ∃ entries : List (String × Completion),
    t.completions = entries.foldl (fun scopes entry => scopes.insert entry.1 entry.2) s.completions

namespace Inserts

theorem of_eq (h : t.completions = s.completions) : Inserts s t := ⟨[], h⟩

theorem trans (h : Inserts s t) (h' : Inserts t u) : Inserts s u := by
  obtain ⟨entries, hentries⟩ := h
  obtain ⟨entries', hentries'⟩ := h'
  exact ⟨entries ++ entries', by rw [hentries', hentries, foldl_append]⟩

theorem setCompletions (s : State) (completions : List (String × Completion)) :
    Inserts s (s.setCompletions completions) := ⟨completions, completions_setCompletions completions⟩

theorem tripStart (s : State) (selfResults : List String) (head : Table Completion) :
    Inserts s.enter (s.tripStart selfResults head) :=
  ⟨head.entries, completions_setCompletions _⟩

theorem inner_keys (h : Inserts s t) :
    (s.completions.inner.keys.Nodup → t.completions.inner.keys.Nodup) ∧
    s.completions.inner.keys ⊆ t.completions.inner.keys ∧ t.completions.outer = s.completions.outer := by
  obtain ⟨entries, hentries⟩ := h
  rw [hentries]
  generalize s.completions = scopes
  clear hentries
  induction entries generalizing scopes with
  | nil => exact ⟨id, Subset.refl _, rfl⟩
  | cons entry rest ih =>
    obtain ⟨hnodup, hkeys, houter⟩ := ih (scopes.insert entry.1 entry.2)
    refine ⟨fun h => hnodup (Table.nodup_insert h _ _), fun x hx => hkeys ?_, houter⟩
    exact Table.mem_keys_put.2 (.inr hx)

end Inserts

theorem mem_inner_setCompletions {completions : List (String × Completion)}
    (h : x ∈ completions.map Prod.fst) :
    x ∈ (s.setCompletions completions).completions.inner.keys := by
  induction completions generalizing s with
  | nil => cases h
  | cons entry rest ih =>
    rcases mem_cons.1 h with rfl | h
    · have hset : entry.1 ∈ (s.setCompletion entry.1 entry.2).completions.inner.keys :=
        Table.mem_keys_put.2 (.inl rfl)
      exact (Inserts.setCompletions _ rest).inner_keys.2.1 hset
    · exact ih h

theorem completionOf_scope (h : Inserts s.enter t) :
    t.completionOf x = (t.completions.inner.get? x).getD (s.completionOf x) := by
  have houter : t.completions.outer = s.completions.inner :: s.completions.outer := h.inner_keys.2.2
  simp only [completionOf, Scopes.get?, houter, findSome?_cons]
  cases t.completions.inner.get? x <;> rfl

theorem completionOf_joined (ht : Inserts s.enter t) (hu : Inserts s.enter u) :
    (s.joined t u).completionOf x = (t.completionOf x).merge (u.completionOf x) := by
  rw [joined, completionOf_congr (completions_invalidateAll _), joinBranches,
    completionOf_setCompletions (f := fun x => ((t.completions.inner.get? x).getD (s.completionOf x)).merge
      ((u.completions.inner.get? x).getD (s.completionOf x)))]
  · rw [completionOf_scope ht, completionOf_scope hu]
    split
    · rfl
    · rename_i hx
      simp only [map_map, Function.comp_def, map_id'] at hx
      rw [mem_append, not_or] at hx
      rw [Table.get?_eq_none_of_keys hx.1, Table.get?_eq_none_of_keys hx.2]
      exact (Completion.merge_self _).symm
  · intro entry hentry
    obtain ⟨y, -, rfl⟩ := mem_map.1 hentry
    rfl

theorem completionOf_tripStart (h : head.keys.Nodup) :
    (s.tripStart selfResults head).completionOf x = (head.get? x).getD (s.completionOf x) := by
  rw [tripStart, completionOf_setCompletions (f := fun x => (head.get? x).getD (s.completionOf x))]
  · split
    · rfl
    · rename_i hx
      rw [Table.get?_eq_none_of_keys hx]
      simp [completionOf, enter]
  · intro entry hentry
    rw [Table.get?_of_mem_entries h hentry]
    rfl

theorem completionOf_head (h : s.Covers head) (hx : s.completionOf x = .incomplete) :
    (s.tripStart selfResults head).completionOf x = .incomplete := by
  rw [completionOf_tripStart h.nodup]
  cases hhead : head.get? x with
  | none => exact hx
  | some c =>
    have hmerge := h.merge x c hhead
    rw [Option.getD_some, ← hmerge]
    exact Completion.merge_eq_incomplete.2 (.inr hx)

section Settled
variable (hhead : s.Covers head) (ht : Inserts (s.tripStart selfResults head) t)
  (hsettled : isSettled s head (joinHead s head t.completions.inner) = true)
include hhead ht hsettled

theorem completionOf_trip :
    ((s.tripStart selfResults head).completionOf x).merge (t.completionOf x) =
      (s.tripStart selfResults head).completionOf x := by
  have hscope : Inserts s.enter t := (Inserts.tripStart s selfResults head).trans ht
  rw [completionOf_tripStart hhead.nodup, completionOf_scope hscope]
  cases hx : t.completions.inner.get? x with
  | some c =>
    have hentry := all_eq_true.1 hsettled _ (mem_map.2 ⟨(x, c), Table.mem_entries_of_get? hx, rfl⟩)
    simpa using hentry
  | none =>
    cases hxh : head.get? x with
    | none => simp
    | some c => simpa using hhead.merge x c hxh

theorem completionOf_settled :
    (s.settled t head).completionOf x = (s.tripStart selfResults head).completionOf x := by
  have hentries : ∀ entry ∈ joinHead s head t.completions.inner,
      entry.2 = (head.get? entry.1).getD (s.completionOf entry.1) := by
    intro entry hentry
    simpa using all_eq_true.1 hsettled entry hentry
  rw [settled, completionOf_setCompletions (f := fun x => (head.get? x).getD (s.completionOf x)) hentries,
    completionOf_tripStart hhead.nodup]
  split
  · rfl
  · rename_i hx
    have hkeys : head.keys ⊆ t.completions.inner.keys := by
      exact fun y hy => ht.inner_keys.2.1 (mem_inner_setCompletions hy)
    have hx' : x ∉ head.keys := fun hmem => hx (by
      rw [joinHead, map_map]
      exact hkeys hmem)
    rw [Table.get?_eq_none_of_keys hx']
    rfl

end Settled

theorem RaisedBy.completions {P : String → Completion → Prop} {selfResults' : List String}
    {trips : List Trip} (h : s.RaisedBy selfResults' head trips)
    (hs : ∀ x, P x (s.completionOf x)) (hmerge : ∀ x a b, P x a → P x b → P x (a.merge b))
    (htrips : ∀ trip ∈ trips, Inserts (s.tripStart trip.selfResults trip.head) trip.state ∧
      ((∀ x, P x ((s.tripStart trip.selfResults trip.head).completionOf x)) → ∀ x, P x (trip.state.completionOf x)))
    (selfResults : List String) (x : String) : P x ((s.tripStart selfResults head).completionOf x) := by
  rw [completionOf_tripStart h.covers.nodup]
  suffices hhead : ∀ x c, head.get? x = some c → P x c by
    cases hx : head.get? x with
    | none => exact hs x
    | some c => exact hhead x c hx
  clear x
  induction trips generalizing selfResults' head with
  | nil =>
    obtain ⟨rfl, -⟩ := h
    exact nofun
  | cons trip earlier ih =>
    obtain ⟨⟨rfl, -⟩, h⟩ := h
    have hearlier := ih h fun trip hmem => htrips trip (mem_cons_of_mem _ hmem)
    have hstart : ∀ x, P x ((trip.head.get? x).getD (s.completionOf x)) := by
      intro x
      cases hx : trip.head.get? x with
      | none => exact hs x
      | some c => exact hearlier x c hx
    obtain ⟨hinserts, htrip⟩ := htrips trip mem_cons_self
    have hscope := (Inserts.tripStart s trip.selfResults trip.head).trans hinserts
    have hends := htrip fun x => by rw [completionOf_tripStart h.covers.nodup]; exact hstart x
    have hentries : ∀ entry ∈ joinHead s trip.head trip.state.completions.inner, P entry.1 entry.2 := by
      intro entry hentry
      obtain ⟨e, he, rfl⟩ := mem_map.1 hentry
      have hend := hends e.1
      rw [completionOf_scope hscope, Table.get?_of_mem_entries (hscope.inner_keys.1 nodup_nil) he] at hend
      exact hmerge _ _ _ (hstart e.1) hend
    refine raiseHead_induction (P := fun raised => ∀ x c, raised.get? x = some c → P x c) hearlier
      fun raised entry hentry hr x c hx => ?_
    rw [Table.get?_insert] at hx
    split at hx
    · rename_i hname
      cases hx
      exact hname ▸ hentries entry hentry
    · exact hr x c hx

end State

section Steps
variable {Γ : Context} {s' : State}

theorem Derives.inserts {task : Task} {results : List (Expr × Completion)} {binds : List Stmt}
    (h : Derives Γ task s results binds s') : State.Inserts s s' := by
  refine h.effects (motive := fun s _ t => State.Inserts s t) (fun _ => .of_eq rfl) (fun hone => ?_) .trans
  cases hone with
  | substituted => exact .of_eq rfl
  | realized | rebuilt => exact ⟨[(_, _), (_, _)], rfl⟩
  | reclosed | hoisted => exact ⟨[(_, _)], rfl⟩

theorem Analyzed.inserts {block out : List Stmt} (h : Analyzed Γ block s out s') :
    State.Inserts s s' := by
  induction h with
  | nil => exact .of_eq rfl
  | @bind _ _ _ x completion _ _ _ _ _ _ _ hd _ ih => exact (hd.inserts.trans ⟨[(x, completion)], rfl⟩).trans ih
  | ret _ hd _ ih | entryRet _ hd _ ih => exact hd.inserts.trans (State.Inserts.trans (.of_eq rfl) ih)
  | @branch _ _ _ _ _ _ _ _ _ _ s s₁ t u _ hd _ _ _ _ _ ih =>
    have hjoined : State.Inserts s₁ (s₁.flush.joined t u) :=
      ⟨_, (State.completions_invalidateAll _).trans (State.completions_setCompletions _)⟩
    exact hd.inserts.trans (hjoined.trans ih)
  | @loop _ _ _ _ body _ _ _ s s₁ t _ _ head _ hd _ _ _ _ _ _ _ ih =>
    have hinvalidate : State.Inserts s (s.invalidateAll (bodyTargets body)) :=
      .of_eq (State.completions_invalidateAll _)
    have hsettled : State.Inserts s₁ (s₁.flush.settled t head) := ⟨_, State.completions_setCompletions _⟩
    exact (hinvalidate.trans hd.inserts).trans (hsettled.trans ih)

end Steps

end Phases
end DataParallel
