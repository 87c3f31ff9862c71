import DataParallel.Proofs.Phases.Readings

/-! Tasks at a point of a run.

A task puts binds in front of a statement. Behind them the tables still hold, nothing was breached,
and what the task hands on gives what was asked for: forced arguments hold nothing pending that
their parameters demand. -/

namespace DataParallel

open DataParallel.Expr List Name Phases.State Progress Survey
open Progress (Agrees Fine Gives Serves)

/-- Whether an expression holds nothing pending, since its names do not or since it is a call that
hands on nothing. -/
def Survey.fills (registry : Registry) (v : Survey) : Expr → Bool
  | .apply f arguments typing =>
    match f.role registry with
    | .tuple => (namesAll arguments).all v.settles
    | .composes => !typing.ty.isAggregate
    | .forces _ | .other => true
    | .project _ | .boundary => false
  | e => e.isCallFree && e.names.all v.settles

/-- Whether it can be told of an expression that nothing in it is pending once it is handed back. -/
def Survey.returns (registry : Registry) (v : Survey) (e : Expr) : Bool :=
  e.isCallFree || e.isApply && e.needsContainer || v.fills registry e

namespace Phases

variable {registry : Registry} {v : Survey} {c c' : Progress} {closure e e' f value : Expr} {x y : String}
  {typing typing' : Typing} {task : Task} {r : Expr × Completion} {k : Head} {s s₁ s₂ : State} {demands : List Ty}
  {results : List (Expr × Completion)} {Γ : Context} {completion : Completion}
  {arguments fields fields' : List Expr} {demand ty : Ty} {binds' : List Stmt} {layout : Layout}

/-- A name whose type, if the name is read at one type, is that type. -/
def Typed (v : Survey) (e : Expr) : Prop := ∃ x, e.symbol? = some x ∧ ∀ ty, v.labels x ty = true → e.ty = ty

structure Rereads (registry : Registry) (v : Survey) (c : Progress) (e e' : Expr) : Prop where
  fine : Fine registry c e'
  ty : e'.ty = e.ty
  careful : e'.isCareful registry v.data = true
  data : e.isData v.data = true → e'.isData v.data = true
  free : e.isCallFree = true → e'.isCallFree = true ∧ c.Mirrors (e.content c.store) (e'.content c.store)
  labeled : e.isCallFree = true → e.isLabeled v.labels = true → e'.isLabeled v.labels = true

def Stands (c : Progress) (e e' : Expr) : Prop :=
  ∃ x y typing, e.symbol? = some x ∧ e' = .name y typing ∧ root y = root x ∧ typing.ty = e.ty ∧
    c.Mirrors (c.store x) (c.store y)

namespace Task

/-- The tasks that a task has one result for each. -/
def parts : Task → List Task
  | .all tasks => tasks
  | task => [task]

def IsReady (registry : Registry) (v : Survey) : Task → Prop
  | .value e | .demand e _ => e.isLabeled v.labels = true ∧ e.isCareful registry v.data = true
  | .named e _ => Typed v e
  | .returned e =>
    e.isCareful registry v.data = true ∧ e.isData v.data = true ∧ (e.isLabeled v.labels = true ∨ Typed v e)
  | .all _ => False

def Meets (registry : Registry) (v : Survey) (c : Progress) : Task → Expr × Completion → Prop
  | .value e, r => Rereads registry v c e r.1 ∧ (r.2 ≠ .incomplete → Gives registry c r.1 Done) ∧
      (r.1.callee? = some Snippet.makeTuple → ∀ a ∈ r.1.arguments, Traced v a)
  | .demand e ty, r => Rereads registry v c e r.1 ∧ Gives registry c r.1 (Serves ty)
  | .named e ty, r => Stands c e r.1 ∧ Gives registry c r.1 (Serves ty)
  | .returned e, r => Fine registry c r.1 ∧
      (e.isCallFree = true → e.isLabeled v.labels = true → Traced v r.1 ∧ c.Done (e.content c.store))
  | .all _, _ => True

end Task

section Readings
variable {A : String → Prop} {parts parts' : List Expr}

theorem Rereads.name (hroot : root y = root x) (hty : typing'.ty = typing.ty)
    (hmirrors : c.Mirrors (c.store x) (c.store y)) :
    Rereads registry v c (.name x typing) (.name y typing') where
  fine := fine_of_callFree rfl
  ty := hty
  careful := rfl
  data hdata := by rwa [isData, data_of_root hroot]
  free _ := ⟨rfl, hmirrors⟩
  labeled _ hlabeled := by
    show v.labels y typing'.ty = true
    rwa [labels_of_root hroot, hty]

theorem Rereads.refl (hfree : e.isCallFree = true) : Rereads registry v c e e where
  fine := fine_of_callFree hfree
  ty := rfl
  careful := isCareful_of_callFree hfree
  data := id
  free _ := ⟨hfree, .refl c _⟩
  labeled _ := id

theorem Stands.refl (hx : e.symbol? = some x) : Stands c e e :=
  ⟨x, x, e.typing, hx, eq_name_of_symbol hx, rfl, rfl, .refl c _⟩

theorem Rereads.later (h : Rereads registry v c e e') (hd : Agrees A c c') (he : ∀ z ∈ e.names, A z)
    (he' : ∀ z ∈ e'.names, A z) : Rereads registry v c' e e' where
  fine := h.fine.later (hd.mono fun z hz => he' z (names_of_forced hz))
  ty := h.ty
  careful := h.careful
  data := h.data
  free hfree := by
    obtain ⟨hfree', hmirrors⟩ := h.free hfree
    rw [hd.content he, hd.content he']
    exact ⟨hfree', hmirrors.mono hd.realized⟩
  labeled := h.labeled

theorem Task.Meets.later (h : task.Meets registry v c r) (hd : Agrees A c c')
    (he : ∀ e ∈ task.exprs, ∀ z ∈ e.names, A z) (hr : ∀ z ∈ r.1.names, A z) : task.Meets registry v c' r := by
  cases task with
  | value e =>
    exact ⟨h.1.later hd (he e mem_cons_self) hr, fun hcomplete => (h.2.1 hcomplete).later (hd.mono hr), h.2.2⟩
  | demand e => exact ⟨h.1.later hd (he e mem_cons_self) hr, h.2.later (hd.mono hr)⟩
  | named e =>
    obtain ⟨⟨x, y, typing, hx, hy, hroot, hty, hmirrors⟩, hserves⟩ := h
    refine ⟨⟨x, y, typing, hx, hy, hroot, hty, ?_⟩, hserves.later (hd.mono hr)⟩
    rw [hd.store x (he e mem_cons_self x (by simp [names_of_symbol hx])), hd.store y (hr y (by simp [hy]))]
    exact hmirrors.mono hd.realized
  | returned e =>
    refine ⟨h.1.later (hd.mono fun z hz => hr z (names_of_forced hz)), fun hfree hlabeled => ?_⟩
    obtain ⟨htraced, hdone⟩ := h.2 hfree hlabeled
    rw [hd.content (he e mem_cons_self)]
    exact ⟨htraced, hdone.mono hd.realized⟩
  | all => trivial

section
variable (h : Forall₂ (Rereads registry v c) parts parts')
include h

theorem contents_mirrored (hfree : areCallFree parts = true) : areCallFree parts' = true ∧
      Forall₂ c.Mirrors (contents c.store parts) (contents c.store parts') := by
  induction h with
  | nil => exact ⟨rfl, .nil⟩
  | cons he _ ih =>
    rw [areCallFree, Bool.and_eq_true] at hfree
    obtain ⟨hfree', hmirrors⟩ := he.free hfree.1
    obtain ⟨hfrees, hall⟩ := ih hfree.2
    exact ⟨by rw [areCallFree, hfree', hfrees]; rfl, .cons hmirrors hall⟩

theorem areCareful_reread : areCareful registry v.data parts' = true := by
  induction h with
  | nil => rfl
  | cons he _ ih => rw [areCareful, he.careful, ih]; rfl

theorem areData_reread (hdata : areData v.data parts = true) : areData v.data parts' = true := by
  induction h with
  | nil => rfl
  | cons he _ ih =>
    rw [areData, Bool.and_eq_true] at hdata
    rw [areData, he.data hdata.1, ih hdata.2]
    rfl

theorem areLabeled_reread (hfree : areCallFree parts = true)
    (hlabeled : areLabeled v.labels parts = true) : areLabeled v.labels parts' = true := by
  induction h with
  | nil => rfl
  | cons he _ ih =>
    rw [areCallFree, Bool.and_eq_true] at hfree
    rw [areLabeled, Bool.and_eq_true] at hlabeled
    rw [areLabeled, he.labeled hfree.1 hlabeled.1, ih hfree.2 hlabeled.2]
    rfl

theorem fine_reread : ∀ e ∈ parts', Fine registry c e := by
  induction h with
  | nil => exact nofun
  | cons he _ ih => exact forall_mem_cons.2 ⟨he.fine, ih⟩

theorem types_reread : parts'.map Expr.ty = parts.map Expr.ty := by
  induction h with
  | nil => rfl
  | cons he _ ih => rw [map_cons, map_cons, he.ty, ih]

theorem Rereads.build (hcareful : (k.build parts).isCareful registry v.data = true)
    (hfine : Fine registry c (k.build parts')) : Rereads registry v c (k.build parts) (k.build parts') where
  fine := hfine
  ty := by cases k <;> rfl
  careful := by
    cases k with
    | tuple | closure => exact areCareful_reread h
    | call f typing =>
      obtain ⟨-, hdata, hfree⟩ := isCareful_apply.1 hcareful
      exact isCareful_apply.2 ⟨areCareful_reread h, fun hrole => areData_reread h (hdata hrole),
        fun hrole => (contents_mirrored h (hfree hrole)).1⟩
  data hdata := by
    cases k with
    | tuple => exact areData_reread h hdata
    | closure => cases hdata
    | call => rfl
  free hfree := by
    cases k with
    | tuple => exact ⟨(contents_mirrored h hfree).1, .tuple (contents_mirrored h hfree).2⟩
    | closure => exact ⟨(contents_mirrored h hfree).1, .closure⟩
    | call => cases hfree
  labeled hfree hlabeled := by
    cases k with
    | tuple | closure => exact areLabeled_reread h hfree hlabeled
    | call => cases hfree

end

theorem Tracks.current (h : Tracks v s c) (x : String) (typing : Typing) :
    ∃ y typing', s.current (.name x typing) = .name y typing' ∧ root y = root x ∧
      c.Mirrors (c.store x) (c.store y) ∧
      ((∀ ty, v.labels x ty = true → typing.ty = ty) → ∀ ty, v.labels x ty = true → typing'.ty = ty) := by
  rw [current_name]
  cases hx : s.standIn? x with
  | none => exact ⟨x, typing, rfl, rfl, .refl c _, id⟩
  | some e =>
    obtain ⟨y, typing', rfl, hroot, hmirrors, htyping⟩ := h.standIns hx
    exact ⟨y, typing', rfl, hroot, hmirrors, fun _ => htyping⟩

end Readings

section Results
variable {es : List Expr}

theorem rereads_of_values (h : Forall₂ (Task.Meets registry v c) (es.map .value) results) :
    Forall₂ (Rereads registry v c) es (results.map Prod.fst) := by
  rw [forall₂_map_left_iff] at h
  rw [forall₂_map_right_iff]
  exact h.imp fun _ _ hmeets => hmeets.1

theorem done_of_values (h : Forall₂ (Task.Meets registry v c) (es.map .value) results)
    (hcomplete : Completion.all (results.map Prod.snd) ≠ .incomplete) :
    ∀ e ∈ results.map Prod.fst, Gives registry c e Done := by
  rw [Ne, Completion.all_eq_incomplete] at hcomplete
  rw [forall₂_map_left_iff] at h
  induction h with
  | nil => exact nofun
  | cons hmeets _ ih =>
    rw [map_cons, mem_cons, not_or] at hcomplete
    exact forall_mem_cons.2 ⟨hmeets.2.1 fun heq => hcomplete.1 heq.symm, ih hcomplete.2⟩

theorem rereads_of_demands
    (h : Forall₂ (Task.Meets registry v c) (zipWith .demand es demands) results)
    (hlength : demands.length = es.length) :
    Forall₂ (Rereads registry v c) es (results.map Prod.fst) ∧
      Forall₂ (fun e ty => Gives registry c e (Serves ty)) (results.map Prod.fst) demands := by
  induction es generalizing demands results with
  | nil =>
    cases demands with
    | nil =>
      cases h
      exact ⟨.nil, .nil⟩
    | cons => cases hlength
  | cons e es ih =>
    cases demands with
    | nil => cases hlength
    | cons demand demands =>
      cases h with
      | cons hmeets hrest =>
        obtain ⟨hrereads, hserves⟩ := ih hrest (Nat.succ.inj hlength)
        exact ⟨.cons hmeets.1 hrereads, .cons hmeets.2 hserves⟩

theorem ready_returned (hcareful : areCareful registry v.data es = true)
    (hdata : Expr.areData v.data es = true) (hlabeled : areLabeled v.labels es = true) :
    ∀ t ∈ es.map Task.returned, t.IsReady registry v := by
  intro t ht
  obtain ⟨e, he, rfl⟩ := mem_map.1 ht
  exact ⟨areCareful_iff.1 hcareful e he, Expr.areData_iff.1 hdata e he, .inl (areLabeled_iff.1 hlabeled e he)⟩

theorem fine_of_returned (h : Forall₂ (Task.Meets registry v c) (es.map .returned) results) :
    ∀ e ∈ results.map Prod.fst, Fine registry c e := by
  rw [forall₂_map_left_iff] at h
  induction h with
  | nil => exact nofun
  | cons hmeets _ ih => exact forall_mem_cons.2 ⟨hmeets.1, ih⟩

theorem traced_of_returned (h : Forall₂ (Task.Meets registry v c) (es.map .returned) results)
    (hfree : areCallFree es = true) (hlabeled : areLabeled v.labels es = true) :
    (∀ e ∈ results.map Prod.fst, Traced v e) ∧ ∀ w ∈ contents c.store es, c.Done w := by
  rw [forall₂_map_left_iff] at h
  induction h with
  | nil => constructor <;> rintro _ ⟨⟩
  | cons hmeets _ ih =>
    rw [areCallFree, Bool.and_eq_true] at hfree
    rw [areLabeled, Bool.and_eq_true] at hlabeled
    obtain ⟨htraced, hdone⟩ := hmeets.2 hfree.1 hlabeled.1
    obtain ⟨htraceds, hdones⟩ := ih hfree.2 hlabeled.2
    exact ⟨forall_mem_cons.2 ⟨htraced, htraceds⟩, forall_mem_cons.2 ⟨hdone, hdones⟩⟩

end Results

section Calls
variable {parts : List Expr}

theorem role_sequence (hf : f.symbol? = some Snippet.makeSequence) : f.role registry = .other := by
  have hne : Snippet.makeSequence ≠ Snippet.makeTuple := by decide
  have hproject : Snippet.projection? Snippet.makeSequence = none := by decide
  have hboundary : Snippet.makeSequence ≠ Snippet.phaseBoundary := by decide
  simp only [role, hf, if_neg hne, hproject, if_neg hboundary, if_true]

theorem Tracks.done_field (h : Tracks v s c) {field : Expr} {index : Nat}
    (hfields : s.componentsOf? y = some fields)
    (hfield : fields[index]? = some field) (hcomplete : s.completionOfValue field ≠ .incomplete) :
    c.Done ((c.store y).field index ty) := by
  obtain ⟨htraced, hstore⟩ := h.fields hfields
  have hcontent : (contents c.store fields)[index]? = some (field.content c.store) := by
    rw [contents_eq_map, getElem?_map, hfield]
    rfl
  rw [hstore, Content.field, hcontent]
  exact h.done_value (htraced field (mem_of_getElem? hfield)).callFree hcomplete

theorem Joins.not_forces (h : Joins Γ s results k parts completion) :
    ∀ f typing, k = .call f typing → f.forces Γ.registry = false := by
  have hsnippet : ∀ {f : Expr} {callee : String}, f.symbol? = some callee →
      Snippet.isSnippet callee = true → f.forces Γ.registry = false :=
    fun hf hcallee => by simp [forces, hf, hcallee]
  intro f typing hk
  cases h with
  | tuple | closure => cases hk
  | makeTuple hf =>
    cases hk
    exact hsnippet hf (by decide)
  | project hf _ hproject =>
    cases hk
    exact hsnippet hf (by simp [Snippet.isSnippet, hproject])
  | stored hf hcallee =>
    cases hk
    rcases hcallee with rfl | rfl
    · exact hsnippet hf (by decide)
    · exact hsnippet hf (by decide)
  | propagates hf _ hs hsync | inert hf _ hs hsync =>
    cases hk
    simp [forces, hf, hs, hsync]

/-- A node that is not incomplete is done. -/
theorem Joins.done (h : Joins Γ s results k parts completion) (ht : Tracks v s c)
    (hparts : Forall₂ (Task.Meets Γ.registry v c) (parts.map .value) results)
    (hcomplete : completion ≠ .incomplete) :
    Gives Γ.registry c (k.build (results.map Prod.fst)) Done := by
  have hall : Completion.all (results.map Prod.snd) ≠ .incomplete → ∀ d,
      Agrees (· ∈ (k.build (results.map Prod.fst)).names) c d →
      ∀ w ∈ (d.readAll Γ.registry (results.map Prod.fst)).1,
        (d.readAll Γ.registry (results.map Prod.fst)).2.Done w :=
    fun hcomplete d hd => gives_parts (fun h hr => h.mono hr) (done_of_values hparts hcomplete) hd
  have hcall : ∀ {f typing} {d : Progress} {Q : Content × Progress → Prop},
      Q ((d.readAll Γ.registry (results.map Prod.fst)).2.call Γ.registry f
        (results.map Prod.fst) typing (d.readAll Γ.registry (results.map Prod.fst)).1) →
      Q (d.read Γ.registry (.apply f (results.map Prod.fst) typing)) := fun h => h
  have hplain : ∀ {f typing} {d : Progress}, f.role Γ.registry = .other ∨
        f.role Γ.registry = .composes ∧ typing.ty.isAggregate = false →
      (d.read Γ.registry (.apply f (results.map Prod.fst) typing)).2.Done
        (d.read Γ.registry (.apply f (results.map Prod.fst) typing)).1 := by
    intro f typing d hrole
    refine hcall (Q := fun p => p.2.Done p.1) ?_
    rcases hrole with hrole | ⟨hrole, hty⟩
    · simp only [Progress.call, hrole]
      exact done_plain
    · simp only [Progress.call, hrole, hty]
      exact done_plain
  intro d hd
  cases h with
  | tuple => exact done_tuple.2 (hall hcomplete d hd)
  | closure => rintro _ ⟨⟩
  | makeTuple hf =>
    refine hcall (Q := fun p => p.2.Done p.1) ?_
    simp only [Progress.call, role_tuple hf]
    exact done_tuple.2 (hall hcomplete d hd)
  | @project _ _ _ _ index hf hne hproject =>
    refine hcall (Q := fun p => p.2.Done p.1) ?_
    simp only [Progress.call, role_project hf hne hproject]
    generalize hfield : ((results.map Prod.fst).head?.bind fun source => source.symbol?.bind fun symbol =>
      (s.componentsOf? symbol).bind (·[index]?)) = field at hcomplete
    cases field with
    | none =>
      refine Done.field ?_ _
      have hdone := hall hcomplete d hd
      cases hread : (d.readAll Γ.registry (results.map Prod.fst)).1 with
      | nil => exact done_plain
      | cons w ws => exact hdone w (by rw [hread]; exact mem_cons_self)
    | some field =>
      -- the source is a name whose fields are on record
      obtain ⟨source, hsource, hfield⟩ := Option.bind_eq_some_iff.1 hfield
      obtain ⟨y, hy, hfield⟩ := Option.bind_eq_some_iff.1 hfield
      obtain ⟨fields, hfields, hfield⟩ := Option.bind_eq_some_iff.1 hfield
      obtain ⟨rest, hes⟩ := head?_eq_some_iff.1 hsource
      have hstore : d.store y = c.store y :=
        hd.store y (names_of_part (by rw [hes]; exact mem_cons_self) y (by simp [names_of_symbol hy]))
      have hfirst : (d.readAll Γ.registry (results.map Prod.fst)).1.headD .plain = c.store y := by
        rwa [hes, eq_name_of_symbol hy]
      rw [hfirst]
      exact (ht.done_field hfields hfield hcomplete).mono (Subset.trans hd.realized (realized_readAll d _))
  | stored hf hcallee =>
    rcases hcallee with rfl | rfl
    · refine hcall (Q := fun p => p.2.Done p.1) ?_
      simp only [Progress.call, role_boundary hf]
      intro key hkey
      refine isDone_of_mem (mem_append_left _ ?_)
      cases hread : (d.readAll Γ.registry (results.map Prod.fst)).1 with
      | nil =>
        rw [hread] at hkey
        cases hkey
      | cons w ws =>
        rw [hread] at hkey
        exact mem_append_left _ hkey
    · exact hplain (.inl (role_sequence hf))
  | propagates hf hcallee hs hsync =>
    refine hplain (.inr ⟨by rw [role_of_registered hf hcallee hs, hsync], ?_⟩)
    split at hcomplete
    · exact absurd rfl hcomplete
    · rename_i hty
      simpa using hty
  | inert hf hcallee hs hsync => exact hplain (.inl (by rw [role_of_registered hf hcallee hs, hsync]))

end Calls

section Heads
variable {parts : List Expr}

theorem Head.areLabeled_parts {N : String → Ty → Bool} (h : (k.build parts).isLabeled N = true) :
    areLabeled N parts = true := by
  cases k <;> exact h

theorem Head.areCareful_parts {D : String → Bool}
    (h : (k.build parts).isCareful registry D = true) : areCareful registry D parts = true := by
  cases k with
  | call => exact (isCareful_apply.1 h).1
  | _ => exact h

theorem ready_values (h : (Task.value (k.build parts)).IsReady registry v) :
    ∀ t ∈ parts.map Task.value, t.IsReady registry v := by
  intro t ht
  obtain ⟨e, he, rfl⟩ := mem_map.1 ht
  exact ⟨areLabeled_iff.1 (Head.areLabeled_parts h.1) e he, areCareful_iff.1 (Head.areCareful_parts h.2) e he⟩

theorem ready_demands (h : (Task.value (k.build parts)).IsReady registry v) :
    ∀ t ∈ zipWith Task.demand parts demands, t.IsReady registry v := by
  intro t ht
  rw [← map_uncurry_zip_eq_zipWith] at ht
  obtain ⟨⟨e, ty⟩, he, rfl⟩ := mem_map.1 ht
  have he := of_mem_zip he
  exact ⟨areLabeled_iff.1 (Head.areLabeled_parts h.1) e he.1, areCareful_iff.1 (Head.areCareful_parts h.2) e he.1⟩

end Heads

section Nodes
variable {parts : List Expr}

theorem Joins.meets (h : Joins Γ s results k parts completion) (ht : Tracks v s c)
    (hready : (Task.value (k.build parts)).IsReady Γ.registry v)
    (hparts : Forall₂ (Task.Meets Γ.registry v c) (parts.map .value) results) :
    (Task.value (k.build parts)).Meets Γ.registry v c (k.build (results.map Prod.fst), completion) := by
  have hrereads := rereads_of_values hparts
  have hfine := fine_reread hrereads
  refine ⟨.build hrereads hready.2 (.build h.not_forces hfine), h.done ht hparts, fun hcallee => ?_⟩
  cases k with
  | tuple | closure => cases hcallee
  | call f typing =>
    have hrole : f.role Γ.registry = .tuple := role_tuple hcallee
    obtain ⟨-, hdata, hfree⟩ := isCareful_apply.1 hready.2
    exact fun a ha => ⟨areCallFree_iff.1 (contents_mirrored hrereads (hfree hrole)).1 a ha,
      areLabeled_iff.1 (areLabeled_reread hrereads (hfree hrole) hready.1) a ha,
      Expr.areData_iff.1 (areData_reread hrereads (hdata (by rw [hrole]; rfl))) a ha⟩

theorem meets_forcing {callee : String} {signature : Signature} {parameters : List Ty} {result : Ty}
    (hf : f.symbol? = some callee) (hcallee : Snippet.isSnippet callee = false)
    (hs : Γ.registry.get? callee = some signature) (hsync : signature.synchronization = .forces)
    (hinstance : signature.ty.instantiate? (arguments.map Expr.ty) = some (parameters, result))
    (hready : (Task.value (.apply f arguments typing)).IsReady Γ.registry v)
    (hparts : Forall₂ (Task.Meets Γ.registry v c) (zipWith .demand arguments parameters) results) :
    (Task.value (.apply f arguments typing)).Meets Γ.registry v c
      (.apply f (results.map Prod.fst) typing, .complete) := by
  have hforces := forces_of_signature hf hcallee hs hsync
  have hrole : f.role Γ.registry = .forces signature.ty := by rw [role_of_registered hf hcallee hs, hsync]
  obtain ⟨hrereads, hserves⟩ := rereads_of_demands hparts (Ty.length_instantiate? hinstance)
  have hfine := fine_reread hrereads
  refine ⟨.build (k := .call f typing) hrereads hready.2
    (.forcing hrole (by rw [types_reread hrereads]; exact hinstance) hforces hfine hserves), fun _ d _ => ?_,
    fun hcallee => absurd hcallee (symbol_ne_of_forces hforces)⟩
  show Done ((d.readAll Γ.registry (results.map Prod.fst)).2.call Γ.registry f
    (results.map Prod.fst) typing _).2 ((d.readAll Γ.registry (results.map Prod.fst)).2.call Γ.registry
    f (results.map Prod.fst) typing _).1
  simp only [Progress.call, hrole]
  exact done_plain

theorem meets_demanded (hdemands : k.partDemands? demand parts = some demands)
    (hready : (Task.demand (k.build parts) demand).IsReady Γ.registry v)
    (hparts : Forall₂ (Task.Meets Γ.registry v c) (zipWith .demand parts demands) results) :
    (Task.demand (k.build parts) demand).Meets Γ.registry v c (k.build (results.map Prod.fst), .complete) := by
  obtain ⟨hrereads, hserves⟩ := rereads_of_demands hparts (Head.length_partDemands hdemands)
  have hfine := fine_reread hrereads
  have hcall : ∀ f typing, k = .call f typing → f.forces Γ.registry = false := by
    rintro f typing rfl
    cases hdemands
  refine ⟨.build hrereads hready.2 (.build hcall hfine), fun d hd => ?_⟩
  have hall := gives_parts₂ (Q := Serves) (fun h hr => h.mono hr) hserves hd
  have hmeets := hall.imp fun _ _ hserves => hserves.1
  have hbare := bare_of_serves hall
  cases k with
  | tuple typing =>
    cases hdemands
    have hlength : parts.length = (d.readAll Γ.registry (results.map Prod.fst)).1.length := by
      rw [← hall.length_eq, length_fieldDemands]
    exact ⟨meets_tuple hlength hmeets, bare_all hbare⟩
  | closure f typing =>
    cases hdemands
    refine ⟨nofun, fun key hkey => ?_⟩
    rcases mem_append.1 hkey with hkey | hkey
    · rw [types_reread hrereads] at hkey
      exact demandedAll_done hmeets key hkey
    · exact bare_all hbare key hkey
  | call => cases hdemands

end Nodes

section Steps
variable {F B S : String → Prop} {s' : State} {binds : List Stmt}

theorem Derives.isBind (h : Derives Γ task s results binds s') : ∀ st ∈ binds, st.IsBind := by
  refine h.effects (motive := fun _ binds _ => ∀ st ∈ binds, st.IsBind) nofun
    (fun hone st hst => ?_) fun hfirst hsecond => forall_mem_append.2 ⟨hfirst, hsecond⟩
  cases hone with
  | substituted => cases hst
  | _ =>
    cases mem_singleton.1 hst
    exact ⟨_, _, _, rfl, rfl⟩

theorem Derives.agrees (h : Derives Γ task s results binds s') (hs : s.Stems) (c : Progress) :
    Agrees s.Past c (c.after Γ.registry binds) :=
  (agrees_after h.isBind).mono fun _ hpast hmem => hpast.not_drawn (h.drawn hs hmem)

theorem State.Stems.agrees_derived (hs : s.Stems) (x : String) {target : Expr}
    (htarget : target.symbol? = some (s.phases.derive x).1) : Agrees s.Past c (c.after registry [.bind target value]) :=
  have hy : Drawn s (s.realized x default default) (s.phases.derive x).1 := drawn_derived hs x (Nat.lt_succ_self _)
  agrees_one htarget fun _ hz => hz.ne_drawn hy

structure Reaches (registry : Registry) (v : Survey) (c c' : Progress) (task : Task) (s' : State)
    (results : List (Expr × Completion)) : Prop where
  tracks : Tracks v s' c'
  breached : c'.breached = c.breached
  meets : Forall₂ (Task.Meets registry v c') task.parts results

theorem Reaches.one (h : Reaches registry v c c' task s' [r]) (htask : task.parts = [task]) :
    task.Meets registry v c' r := by
  have hmeets := h.meets
  rw [htask] at hmeets
  cases hmeets with
  | cons hr _ => exact hr

theorem Derives.not_forces_of_incomplete
    (h : Derives Γ (.value (.apply f arguments typing)) s [(value, .incomplete)] binds s') :
    f.forces Γ.registry = false := by
  generalize htask : Task.value (.apply f arguments typing) = task at h
  generalize hresult : [(value, Completion.incomplete)] = results at h
  cases h with
  | @node k _ _ _ _ _ _ _ hjoins =>
    cases k with
    | call g t =>
      cases htask
      exact hjoins.not_forces _ _ rfl
    | _ => cases htask
  | forcing => cases hresult
  | _ => cases htask

theorem Tracks.serves_met (ht : Tracks v s c) (hx : e.symbol? = some x)
    (hmeets : s.Meets e demand) : Gives registry c e (Serves demand) := by
  obtain ⟨hclosure, hcomplete⟩ := hmeets x hx
  rw [eq_name_of_symbol hx]
  refine gives_of_callFree (fun h hr => h.mono hr) rfl ⟨?_, ht.bare hclosure⟩
  cases haggregate : (resolveDemand demand e.ty).isAggregate with
  | false => exact meets_of_resolved haggregate
  | true => exact (ht.complete (hcomplete haggregate).2).meets demand

theorem bare_of_gives (hfree : e.isCallFree = true) (h : Gives registry c e (Serves demand)) :
    c.Bare (e.content c.store) := by
  have hserves := h c (.refl _ c)
  rw [read_of_callFree e hfree] at hserves
  exact hserves.2

theorem serves_closure (hshape : ∃ f captured typing, closure = .closure f captured typing)
    (hstore : c.store x = closure.content c.store) (hbare : c.Bare (c.store x)) (typing : Typing) :
    Gives registry c (.name x typing) (Serves demand) := by
  obtain ⟨f, captured, typing', rfl⟩ := hshape
  refine gives_of_callFree (fun h hr => h.mono hr) rfl ⟨fun _ hkey => ?_, hbare⟩
  rw [content, hstore] at hkey
  cases hkey

theorem serves_fields (hlength : fields.length = fields'.length)
    (hfree : areCallFree fields' = true) (hstore : c.store x = .tuple (contents c.store fields'))
    (hserves : Forall₂ (fun e ty => Gives registry c e (Serves ty)) fields'
      (fieldDemands (resolveDemand demand ty) fields)) (hbare : c.Bare (c.store x)) (typing : Typing) :
    Gives registry c (.name x typing) (Serves demand) := by
  have hall := serves_contents hfree hserves
  refine gives_of_callFree (fun h hr => h.mono hr) rfl ⟨?_, hbare⟩
  rw [content, hstore]
  have hlength' : fields.length = (contents c.store fields').length := by rw [contents_eq_map, length_map, hlength]
  exact meets_tuple hlength' (hall.imp fun _ _ hserves => hserves.1)

theorem Tracks.stands (ht : Tracks v s c) (hx : e.symbol? = some x)
    (hy : s.standIn? x = some (.name y typing))
    (hty : typing.ty = e.ty) : Stands c e (.name y typing) := by
  obtain ⟨_, _, heq, hroot, hmirrors, -⟩ := ht.standIns hy
  cases heq
  exact ⟨x, y, typing, hx, rfl, hroot, hty, hmirrors⟩

section Binds
variable {like : Expr}

theorem breached_boundary (he : e.symbol? = some x) :
    (c.after registry [s.boundary x e typing]).breached = c.breached := by
  rw [boundary, after_one, bind_boundary he]

theorem breached_tupleBind (hfree : areCallFree fields = true) :
    (c.after registry [s.tupleBind x fields typing]).breached = c.breached := by
  rw [tupleBind, after_one, bind_tuple hfree]

theorem breached_closureBind (hfree : value.isCallFree = true) :
    (c.after registry [s.closureBind x like value]).breached = c.breached := by
  rw [closureBind, after_one, renamed, bind_callFree hfree]

theorem breached_hoist (hfine : Fine registry c value) :
    (c.after registry [s.hoist value]).breached = c.breached := by
  rw [hoist, after_one, breached_bind]
  exact hfine c (.refl _ c)

end Binds

section
variable (h : ∀ e ∈ fields, Traced v e)
include h

theorem areCallFree_traced : areCallFree fields = true :=
  areCallFree_iff.2 fun e he => (h e he).callFree

theorem areLabeled_traced : areLabeled v.labels fields = true :=
  areLabeled_iff.2 fun e he => (h e he).labeled

theorem areData_traced : areData v.data fields = true :=
  areData_iff.2 fun e he => (h e he).data

theorem ready_fields : ∀ t ∈ zipWith Task.demand fields demands, t.IsReady registry v :=
  ready_demands (k := .tuple default) ⟨areLabeled_traced h, areCareful_of_callFree (areCallFree_traced h)⟩

theorem ready_traced : ∀ t ∈ fields.map Task.returned, t.IsReady registry v :=
  ready_returned (areCareful_of_callFree (areCallFree_traced h)) (areData_traced h) (areLabeled_traced h)

end

theorem traced_reread (h : Forall₂ (Rereads registry v c) fields fields')
    (hfields : ∀ e ∈ fields, Traced v e) : ∀ e ∈ fields', Traced v e := by
  have hfree := areCallFree_traced hfields
  exact fun e he => ⟨areCallFree_iff.1 (contents_mirrored h hfree).1 e he,
    areLabeled_iff.1 (areLabeled_reread h hfree (areLabeled_traced hfields)) e he,
    areData_iff.1 (areData_reread h (areData_traced hfields)) e he⟩

theorem typing_of_ready (h : (name x typing).isLabeled v.labels = true ∨ Typed v (.name x typing)) :
    ∀ ty, v.labels x ty = true → typing.ty = ty := by
  rcases h with h | ⟨_, hx, h⟩
  · exact fun ty hty => labels_unique h hty
  · cases hx
    exact h

theorem traced_name (hroot : root y = root x) (hdata : v.data x = true)
    (hlabeled : v.labels x typing.ty = true) (hty : ∀ ty, v.labels x ty = true → typing'.ty = ty) :
    Traced v (.name y typing') := by
  refine ⟨rfl, ?_, ?_⟩
  · show v.labels y typing'.ty = true
    rwa [labels_of_root hroot, hty _ hlabeled]
  · show v.data y = true
    rwa [data_of_root hroot]

theorem meets_returned (hroot : root y = root x) (hdata : v.data x = true)
    (hty : ∀ ty, v.labels x ty = true → typing'.ty = ty) (hdone : c.Done (c.store x)) :
    (Task.returned (.name x typing)).Meets registry v c (.name y typing', .complete) :=
  ⟨fine_of_callFree rfl, fun _ hlabeled => ⟨traced_name hroot hdata hlabeled hty, hdone⟩⟩

theorem Traced.storage (hS : ∀ w, S w → isDrawn w = false) (hn : s.Noted F B S) (h : Traced v e)
    (hstorage : storageOf s e = .ok e') : Traced v e' := by
  unfold storageOf at hstorage
  split at hstorage
  · rename_i hstored
    simp only [containerOf, Except.bind_ok_iff] at hstorage
    obtain ⟨x, hx, layout, -, hs⟩ := hstorage
    cases hs
    have hx := expectName_ok.1 hx
    rw [hx, Option.any_some, Bool.and_eq_true] at hstored
    have hsource := hS x (hn.storage hstored.2)
    rw [eq_name_of_symbol hx] at h
    refine ⟨rfl, ?_, ?_⟩
    · show v.labels (container x) e.ty = true
      rw [labels_container hsource]
      exact h.labeled
    · show v.data (container x) = true
      rw [data_container hsource]
      exact h.data
  · cases hstorage
    exact h

theorem after_hoisted (h : ∀ st ∈ binds, st.IsBind) :
    c.after registry (binds ++ s.hoist value :: binds') =
      ((c.after registry binds).after registry [s.hoist value]).after registry binds' := by
  rw [after_append h]
  rfl

theorem typed_temporary (hs : s.Stems) (e : Expr) : Typed v (e.renamed s.temporaries.next.1) := by
  refine ⟨_, rfl, fun ty hty => ?_⟩
  rw [hs.next, labels_temporary] at hty
  cases hty

theorem Reaches.hoisted (hv : v.Fits)
    (r : Reaches Γ.registry v c (c.after Γ.registry binds) (.value (.apply f arguments typing)) s'
      [(value, completion)])
    (h : Derives Γ (.value (.apply f arguments typing)) s [(value, completion)] binds s') (hs : s.Stems)
    (n : Notes F B S (.value (.apply f arguments typing)) [(value, completion)] s')
    (hentry : f.symbol? ≠ some Γ.entry) :
    Tracks v (s'.hoisted Γ.entry value completion)
      ((c.after Γ.registry binds).after Γ.registry [s'.hoist value]) ∧
    ((c.after Γ.registry binds).after Γ.registry [s'.hoist value]).breached =
      (c.after Γ.registry binds).breached := by
  obtain ⟨hrereads, hdone, htuple⟩ := r.one rfl
  obtain ⟨-, arguments', rfl⟩ := h.value_apply
  refine ⟨r.tracks.hoisted hv n.tables (hs.mono h.grows) hentry htuple (fun e he z hz => ?_)
    (fun hcomplete => hdone hcomplete _ (.refl _ _))
    (isData_read (fun x _ hdata => r.tracks.data hdata) hrereads.careful rfl), breached_hoist hrereads.fine⟩
  exact n.past _ mem_cons_self z (mem_append_right _ (mem_namesAll.2 ⟨e, he, hz⟩))

/-- What a task leads to wherever the tables hold of the progress that it starts at. -/
def Leads (Γ : Context) (F B S : String → Prop) (v : Survey) (task : Task) (s : State)
    (results : List (Expr × Completion)) (binds : List Stmt) (s' : State) : Prop :=
  ∀ c, task.Fits Γ.registry F B S s → (∀ t ∈ task.parts, t.IsReady Γ.registry v) →
    (task.returns = true → s.inEntry = true) → Tracks v s c →
    Reaches Γ.registry v c (c.after Γ.registry binds) task s' results

theorem Leads.cons {tasks : List Task} {result : Expr × Completion} (hk : Kinds F B S)
    (h₁ : Derives Γ task s [result] binds s₁) (h₂ : Derives Γ (.all tasks) s₁ results binds' s₂)
    (l₁ : Leads Γ F B S v task s [result] binds s₁)
    (l₂ : Leads Γ F B S v (.all tasks) s₁ results binds' s₂) :
    Leads Γ F B S v (.all (task :: tasks)) s (result :: results) (binds ++ binds') s₂ := by
  intro c hr hready hin ht
  have hready₁ := hready task mem_cons_self
  have hparts : task.parts = [task] := by
    cases task with
    | all => cases hready₁
    | _ => rfl
  have n₁ := h₁.noted hk hr.head
  have r₁ := l₁ c hr.head (by rw [hparts]; exact forall_mem_singleton.2 hready₁) (fun hret => hin (by simp [hret])) ht
  have r₂ := l₂ _ (hr.tail h₁.grows n₁.tables) (fun t ht => hready t (mem_cons_of_mem _ ht))
    (fun hret => h₁.grows.inEntry.trans (hin (by
      simp only [Task.returns] at hret
      simp [hret]))) r₁.tracks
  rw [after_append h₁.isBind]
  refine ⟨r₂.tracks, r₂.breached.trans r₁.breached, .cons ?_ r₂.meets⟩
  exact (r₁.one hparts).later (h₂.agrees (hr.stems.mono h₁.grows) _)
    (fun e he z hz => (hr.head.past e he z hz).mono h₁.grows.draws) (n₁.past _ mem_cons_self)

theorem Leads.name (s : State) (x : String) (typing : Typing) :
    Leads Γ F B S v (.value (.name x typing)) s
      [(s.current (.name x typing), s.completionOfValue (s.current (.name x typing)))] [] s := by
  intro c _ hready _ ht
  obtain ⟨y, typing', hy, hroot, hmirrors, htyping⟩ := ht.current x typing
  have hlabeled : v.labels x typing.ty = true := (hready _ mem_cons_self).1
  have hty : typing'.ty = typing.ty := htyping (fun ty hty => labels_unique hlabeled hty) _ hlabeled
  rw [hy]
  refine ⟨ht, rfl, .cons ⟨.name hroot hty hmirrors, fun hcomplete => ?_, nofun⟩ .nil⟩
  exact gives_of_callFree (fun h hr => h.mono hr) rfl (ht.complete hcomplete)

/-- The stand-in that a name is read under is forced, and from then on the name is read under what
that gives. -/
theorem Leads.demandName (hk : Kinds F B S)
    (h : Derives Γ (.named (s.current (.name x typing)) demand) s [(e, .complete)] binds s')
    (l : Leads Γ F B S v (.named (s.current (.name x typing)) demand) s [(e, .complete)] binds s') :
    Leads Γ F B S v (.demand (.name x typing) demand) s [(e, .complete)] binds
      (if e ≠ s.current (.name x typing) then s'.substitute x e else s') := by
  intro c hr hready _ ht
  obtain ⟨y, typing', hy, hroot, hmirrors, htyping⟩ := ht.current x typing
  have hlabeled : v.labels x typing.ty = true := (hready _ mem_cons_self).1
  have htyping' := htyping fun ty hty => labels_unique hlabeled hty
  obtain ⟨_, _, hy', -, hpy, -⟩ := hr.current hk rfl (by simp)
  cases hy.symm.trans hy'
  have hpx := hr.past _ mem_cons_self x (by simp)
  have hnamed := hr.named hk
  rw [hy] at h l hnamed ⊢
  have hready' : Typed v (.name y typing') :=
    ⟨y, rfl, fun ty hty => htyping' ty (by rwa [labels_of_root hroot] at hty)⟩
  have r := l c hnamed (forall_mem_singleton.2 hready') nofun ht
  have hd := h.agrees hr.stems c
  obtain ⟨⟨_, z, typing'', hy', rfl, hroot', hty', hmirrors'⟩, hserves⟩ := r.one rfl
  cases hy'
  have hroot'' := hroot'.trans hroot
  have hty'' : typing''.ty = typing.ty := hty'.trans (htyping' _ hlabeled)
  have hmirrors'' : (c.after Γ.registry binds).Mirrors ((c.after Γ.registry binds).store x)
      ((c.after Γ.registry binds).store z) := by
    rw [hd.store y hpy] at hmirrors'
    rw [hd.store x hpx]
    exact (hmirrors.mono hd.realized).trans hmirrors'
  refine ⟨?_, r.breached, .cons ⟨.name hroot'' hty'' hmirrors'', hserves⟩ .nil⟩
  split
  · exact r.tracks.substitute hroot'' hmirrors'' fun ty hty => hty''.trans (labels_unique hlabeled hty)
  · exact r.tracks

/-- Calls of the entry force what they are given. -/
abbrev Context.EntryForces (Γ : Context) : Prop :=
  ∀ f : Expr, f.symbol? = some Γ.entry → f.forces Γ.registry = true

theorem isLabeled_of_ready (h : (Task.returned (.apply f arguments typing)).IsReady Γ.registry v) :
    (apply f arguments typing).isLabeled v.labels = true :=
  h.2.2.resolve_right fun ⟨_, hx, _⟩ => by cases hx

section Calls
variable (h₁ : Derives Γ (.value (.apply f arguments typing)) s [(value, completion)] binds s₁)
  (l₁ : Leads Γ F B S v (.value (.apply f arguments typing)) s [(value, completion)] binds s₁)
include h₁ l₁

theorem Leads.demandCall
    (hcomplete : completion = .incomplete → (resolveDemand demand value.ty).isAggregate = false) :
    Leads Γ F B S v (.demand (.apply f arguments typing) demand) s [(value, .complete)] binds s₁ := by
  intro c hr hready _ ht
  have hready₀ := hready _ mem_cons_self
  have r := l₁ c (hr.read rfl rfl) (forall_mem_singleton.2 hready₀) nofun ht
  obtain ⟨hrereads, hdone, -⟩ := r.one rfl
  obtain ⟨-, arguments', rfl⟩ := h₁.value_apply
  refine ⟨r.tracks, r.breached, .cons ⟨hrereads, fun d hd => ⟨?_, ?_⟩⟩ .nil⟩
  · by_cases hincomplete : completion = .incomplete
    · exact meets_of_resolved (hcomplete hincomplete)
    · exact (hdone hincomplete d hd).meets demand
  · refine bare_of_isData (isData_read (D := v.data) (fun x hx hdata => ?_) hrereads.careful rfl)
    rw [hd.store x hx]
    exact r.tracks.data hdata

theorem Leads.demandHoisted (hv : v.Fits) (hk : Kinds F B S) (hentry : Γ.EntryForces)
    (hincomplete : completion = .incomplete)
    (l₂ : Leads Γ F B S v (.named (value.renamed s₁.temporaries.next.1) demand)
      (s₁.hoisted Γ.entry value completion) [(e, .complete)] binds' s₂) :
    Leads Γ F B S v (.demand (.apply f arguments typing) demand) s [(e, .complete)]
      (binds ++ s₁.hoist value :: binds') s₂ := by
  subst hincomplete
  intro c hr hready _ ht
  have n := h₁.noted hk (hr.read rfl rfl)
  have hready₀ := hready _ mem_cons_self
  have r₁ := l₁ c (hr.read rfl rfl) (forall_mem_singleton.2 hready₀) nofun ht
  have hforces := h₁.not_forces_of_incomplete
  obtain ⟨htracks, hbreached⟩ := r₁.hoisted hv h₁ hr.stems n fun hf => by rw [hentry _ hf] at hforces; cases hforces
  obtain ⟨-, arguments', rfl⟩ := h₁.value_apply
  have hstems := hr.stems.mono h₁.grows
  have hfits := hr.hoist (u := .named _ demand) hk rfl rfl hr.plain h₁ n rfl (fun _ => mem_singleton.1) nofun rfl
  have r₂ := l₂ _ hfits (forall_mem_singleton.2 (typed_temporary hstems _)) nofun htracks
  obtain ⟨⟨_, z, typing', hx, rfl, hroot, hty, -⟩, hserves⟩ := r₂.one rfl
  cases hx
  rw [after_hoisted h₁.isBind]
  refine ⟨r₂.tracks, (r₂.breached.trans hbreached).trans r₁.breached, .cons ⟨?_, hserves⟩ .nil⟩
  refine ⟨fine_of_callFree rfl, hty, rfl, fun _ => ?_, nofun, nofun⟩
  show v.data z = true
  rw [data_of_root hroot, hstems.next]
  exact hv.data_temporary _

theorem Leads.returnedCall :
    Leads Γ F B S v (.returned (.apply f arguments typing)) s [(value, .complete)] binds s₁ := by
  intro c hr hready _ ht
  have hready₀ := hready _ mem_cons_self
  have r := l₁ c (hr.read rfl rfl) (forall_mem_singleton.2 ⟨isLabeled_of_ready hready₀, hready₀.1⟩) nofun ht
  obtain ⟨-, arguments', rfl⟩ := h₁.value_apply
  exact ⟨r.tracks, r.breached, .cons ⟨(r.one rfl).1.fine, nofun⟩ .nil⟩

theorem Leads.returnedHoisted (hv : v.Fits) (hk : Kinds F B S) (hself : f.symbol? ≠ some Γ.entry)
    (l₂ : Leads Γ F B S v (.returned (value.renamed s₁.temporaries.next.1))
      (s₁.hoisted Γ.entry value completion) [(e, .complete)] binds' s₂) :
    Leads Γ F B S v (.returned (.apply f arguments typing)) s [(e, .complete)]
      (binds ++ s₁.hoist value :: binds') s₂ := by
  intro c hr hready hin ht
  have hready₀ := hready _ mem_cons_self
  have n := h₁.noted hk (hr.read rfl rfl)
  have r₁ := l₁ c (hr.read rfl rfl) (forall_mem_singleton.2 ⟨isLabeled_of_ready hready₀, hready₀.1⟩) nofun ht
  obtain ⟨htracks, hbreached⟩ := r₁.hoisted hv h₁ hr.stems n hself
  obtain ⟨-, arguments', rfl⟩ := h₁.value_apply
  have hstems := hr.stems.mono h₁.grows
  have hfits := hr.hoist (u := .returned _) hk rfl rfl hr.plain h₁ n rfl (fun _ => mem_singleton.1) (fun _ => rfl) rfl
  have hdata : v.data s₁.temporaries.next.1 = true := by
    rw [hstems.next]
    exact hv.data_temporary _
  have hgrows := s₁.grows_hoisted Γ.entry (.apply f arguments' typing) completion
  have r₂ := l₂ _ hfits (forall_mem_singleton.2 ⟨rfl, hdata, .inr (typed_temporary hstems _)⟩)
    (fun _ => (hgrows.inEntry.trans h₁.grows.inEntry).trans (hin rfl)) htracks
  rw [after_hoisted h₁.isBind]
  exact ⟨r₂.tracks, (r₂.breached.trans hbreached).trans r₁.breached, .cons ⟨(r₂.one rfl).1, nofun⟩ .nil⟩

end Calls

section Closures
variable {forced : Expr} (hx : e.symbol? = some x) (hclosure : s.closureOf? x = some closure)
  (h : Derives Γ (.demand closure closure.ty) s [(forced, .complete)] binds s')
  (l : Leads Γ F B S v (.demand closure closure.ty) s [(forced, .complete)] binds s')
include hx hclosure h l

theorem Leads.closureKept (hsame : closure = forced) :
    Leads Γ F B S v (.named e demand) s [(e, .complete)] binds s' := by
  subst hsame
  intro c hr _ _ ht
  obtain ⟨-, hpx, hshape, hnames⟩ := hr.tables.closures hclosure
  obtain ⟨⟨hfree, hlabeled⟩, hstore⟩ := ht.closures hclosure
  have r := l c (hr.closure hx hclosure) (forall_mem_singleton.2 ⟨hlabeled, isCareful_of_callFree hfree⟩) nofun ht
  have hd := h.agrees hr.stems c
  have hstore' : (c.after Γ.registry binds).store x = closure.content (c.after Γ.registry binds).store := by
    rw [hd.store x hpx, hstore, hd.content fun z hz => (hnames z hz).2]
  refine ⟨r.tracks, r.breached, .cons ⟨.refl hx, ?_⟩ .nil⟩
  rw [eq_name_of_symbol hx]
  exact serves_closure hshape hstore' (hstore' ▸ bare_of_gives hfree (r.one rfl).2) e.typing

theorem Leads.closureRebuilt (hv : v.Fits) (hk : Kinds F B S) :
    Leads Γ F B S v (.named e demand) s [(e.renamed (s'.phases.derive x).1, .complete)]
      (binds ++ [s'.closureBind x e forced]) (s'.reclosed x e forced) := by
  intro c hr _ _ ht
  obtain ⟨-, hpx, hshape, hnames⟩ := hr.tables.closures hclosure
  obtain ⟨⟨hfree, hlabeled⟩, hstore⟩ := ht.closures hclosure
  have n := h.noted hk (hr.closure hx hclosure)
  have r := l c (hr.closure hx hclosure) (forall_mem_singleton.2 ⟨hlabeled, isCareful_of_callFree hfree⟩) nofun ht
  obtain ⟨hrereads, hserves⟩ := r.one rfl
  obtain ⟨f, captured, typing, rfl⟩ := hshape
  obtain ⟨captured', rfl⟩ := h.demand_closure
  have hfree' := (hrereads.free hfree).1
  have hstems' := hr.stems.mono h.grows
  have hdata : v.data x = false := by
    cases hdata : v.data x with
    | false => rfl
    | true =>
      have hplain := ht.data hdata
      rw [hstore] at hplain
      cases hplain
  have htracks : Tracks v (s'.reclosed x e (.closure f captured' typing))
      ((c.after Γ.registry binds).after Γ.registry
        [s'.closureBind x e (.closure f captured' typing)]) :=
    r.tracks.reclosed hv n.tables hstems' ⟨hfree', hrereads.labeled hfree hlabeled⟩ ⟨_, _, _, rfl⟩
      (n.past _ mem_cons_self) (bare_of_gives hfree' hserves) hdata
  have hroot : Name.root (s'.phases.derive x).1 = Name.root x := by rw [hstems'.derive, root_realized]
  have hd := h.agrees hr.stems c
  have hd' : Agrees s'.Past (c.after Γ.registry binds) ((c.after Γ.registry binds).after Γ.registry
      [s'.closureBind x e (.closure f captured' typing)]) := hstems'.agrees_derived x rfl
  rw [after_append h.isBind]
  refine ⟨htracks, (breached_closureBind hfree').trans r.breached,
    .cons ⟨⟨x, _, e.typing, hx, rfl, hroot, rfl, ?_⟩, ?_⟩ .nil⟩
  · rw [hd'.store x (hpx.mono h.grows.draws), hd.store x hpx, hstore]
    exact .closure
  · exact serves_closure ⟨_, _, _, rfl⟩ (htracks.closures (by rw [closureOf?_reclosed, if_pos rfl])).2
      (htracks.drawn (isDrawn_derived hstems')) e.typing

end Closures

section Tuples
variable (hx : e.symbol? = some x) (hfields : s.componentsOf? x = some fields)
  (h : Derives Γ (.all (zipWith .demand fields (fieldDemands (resolveDemand demand e.ty) fields))) s
    results binds s')
  (l : Leads Γ F B S v (.all (zipWith .demand fields (fieldDemands (resolveDemand demand e.ty) fields))) s
    results binds s')
include hx hfields h l

theorem Leads.tupleKept (hclosure : s.closureOf? x = none) (hsame : results.map Prod.fst = fields) :
    Leads Γ F B S v (.named e demand) s [(e, .complete)] binds s' := by
  intro c hr _ _ ht
  obtain ⟨-, hpx, hnames⟩ := hr.tables.fields hfields
  obtain ⟨htraced, hstore⟩ := ht.fields hfields
  have r := l c (hr.fields hx hfields) (ready_fields htraced) (by simp) ht
  have hd := h.agrees hr.stems c
  have hstore' := hd.store_tuple hpx hnames hstore
  obtain ⟨-, hserves⟩ := rereads_of_demands r.meets (length_fieldDemands _ _)
  rw [hsame] at hserves
  refine ⟨r.tracks, r.breached, .cons ⟨.refl hx, ?_⟩ .nil⟩
  rw [eq_name_of_symbol hx]
  exact serves_fields rfl (areCallFree_traced htraced) hstore' hserves
    (by rw [hd.store x hpx]; exact (ht.bare hclosure).mono hd.realized) e.typing

theorem Leads.tupleRebuilt (hv : v.Fits) (hk : Kinds F B S) :
    Leads Γ F B S v (.named e demand) s [(.name (s'.phases.derive x).1 e.typing, .complete)]
      (binds ++ [s'.tupleBind x (results.map Prod.fst) e.typing]) (s'.rebuilt x (results.map Prod.fst) e.typing) := by
  intro c hr hready _ ht
  obtain ⟨-, hpx, hnames⟩ := hr.tables.fields hfields
  obtain ⟨htraced, hstore⟩ := ht.fields hfields
  obtain ⟨_, hx', htyped⟩ := hready _ mem_cons_self
  cases hx.symm.trans hx'
  have hfree := areCallFree_traced htraced
  have n := h.noted hk (hr.fields hx hfields)
  have r := l c (hr.fields hx hfields) (ready_fields htraced) (by simp) ht
  have hstore' := (h.agrees hr.stems c).store_tuple hpx hnames hstore
  obtain ⟨hrereads, hserves⟩ := rereads_of_demands r.meets (length_fieldDemands _ _)
  have htraced' := traced_reread hrereads htraced
  have hstems' := hr.stems.mono h.grows
  have hpast : ∀ e ∈ results.map Prod.fst, ∀ z ∈ e.names, s'.Past z := by
    intro e he
    obtain ⟨r, hr, rfl⟩ := mem_map.1 he
    exact n.past r hr
  have htracks : Tracks v (s'.rebuilt x (results.map Prod.fst) e.typing) ((c.after Γ.registry binds).after
      Γ.registry [s'.tupleBind x (results.map Prod.fst) e.typing]) :=
    r.tracks.rebuilt hv n.tables hstems' (hpx.mono h.grows.draws) htraced' hpast
      (by rw [hstore']; exact .tuple (contents_mirrored hrereads hfree).2) htyped
  rw [after_append h.isBind]
  refine ⟨htracks, (breached_tupleBind (areCallFree_traced htraced')).trans r.breached,
    .cons ⟨htracks.stands hx (by rw [standIn?_rebuilt, if_pos rfl]) rfl, ?_⟩ .nil⟩
  exact serves_fields hrereads.length_eq (areCallFree_traced htraced')
    (htracks.fields (by rw [componentsOf?_rebuilt, if_pos rfl])).2
    (gives_later hserves fun e he => (hstems'.agrees_derived x rfl).mono (hpast e he))
    (htracks.drawn (isDrawn_derived hstems')) e.typing

end Tuples

theorem Leads.realized (hv : v.Fits) (hx : e.symbol? = some x) (hclosure : s.closureOf? x = none) :
    Leads Γ F B S v (.named e demand) s
      [(.name (s.phases.derive x).1 ⟨e.ty, some layout.containerForm⟩, .complete)]
      [s.boundary x e ⟨e.ty, some layout.containerForm⟩] (s.realized x e ⟨e.ty, some layout.containerForm⟩) := by
  intro c hr hready _ ht
  obtain ⟨_, hx', htyped⟩ := hready _ mem_cons_self
  cases hx.symm.trans hx'
  have hpast := hr.past _ mem_cons_self x (by simp [names_of_symbol hx])
  have htracks : Tracks v (s.realized x e ⟨e.ty, some layout.containerForm⟩)
      (c.after Γ.registry [s.boundary x e ⟨e.ty, some layout.containerForm⟩]) :=
    ht.realized hv hr.tables hr.stems hx hpast (ht.bare hclosure) htyped
  refine ⟨htracks, breached_boundary hx, .cons ⟨htracks.stands hx (by rw [standIn?_realized, if_pos rfl]) rfl, ?_⟩ .nil⟩
  refine gives_of_callFree (fun h hr => h.mono hr) rfl ⟨?_, htracks.drawn (isDrawn_derived hr.stems)⟩
  refine (htracks.complete ?_).meets demand
  rw [completionOf_realized, if_pos rfl, ite_self]
  decide

theorem Leads.returnedName (hsettles : s.Settles x (s.current (.name x typing))) :
    Leads Γ F B S v (.returned (.name x typing)) s [(s.current (.name x typing), .complete)] [] s := by
  intro c hr hready hin ht
  obtain ⟨-, hdata, htyped⟩ := hready _ mem_cons_self
  obtain ⟨y, typing', hy, hroot, hmirrors, htyping⟩ := ht.current x typing
  rw [hy] at hsettles ⊢
  refine ⟨ht, rfl, .cons (meets_returned hroot hdata (htyping (typing_of_ready htyped)) ?_) .nil⟩
  rcases hsettles with hself | hsettles
  · exact (ht.own (ht.results (hin rfl) hself)).symm ▸ done_plain
  · exact hmirrors.done (ht.complete (hsettles y rfl).2.1)

theorem Leads.returnedRealized (hv : v.Fits) (hk : Kinds F B S)
    (hy : (s.current (.name x typing)).symbol? = some y) :
    Leads Γ F B S v (.returned (.name x typing)) s
      [(.name (s.phases.derive y).1 ⟨(s.current (.name x typing)).ty, some layout.containerForm⟩, .complete)]
      [s.boundary y (s.current (.name x typing)) ⟨(s.current (.name x typing)).ty, some layout.containerForm⟩]
      (s.realized y (s.current (.name x typing)) ⟨(s.current (.name x typing)).ty, some layout.containerForm⟩) := by
  intro c hr hready _ ht
  obtain ⟨-, hdata, htyped⟩ := hready _ mem_cons_self
  obtain ⟨_, typing', hy', hroot, hmirrors, htyping⟩ := ht.current x typing
  obtain ⟨_, _, hcurrent, hFy, hpy, -⟩ := hr.current hk rfl (by simp)
  cases hy'.symm.trans hcurrent
  have hpx := hr.past _ mem_cons_self x (by simp)
  rw [hy'] at hy ⊢
  cases hy
  have htyping := htyping (typing_of_ready htyped)
  have htracks : Tracks v (s.realized y (.name y typing') ⟨typing'.ty, some layout.containerForm⟩)
      (c.after Γ.registry [s.boundary y (.name y typing') ⟨typing'.ty, some layout.containerForm⟩]) :=
    ht.realized hv hr.tables hr.stems rfl hpy (bare_of_isData (ht.data (by rw [data_of_root hroot]; exact hdata)))
      fun ty hty => htyping ty (by rwa [labels_of_root hroot] at hty)
  have hd : Agrees s.Past c
      (c.after Γ.registry [s.boundary y (.name y typing') ⟨typing'.ty, some layout.containerForm⟩]) :=
    hr.stems.agrees_derived y rfl
  refine ⟨htracks, breached_boundary rfl, .cons (meets_returned ?_ hdata htyping ?_) .nil⟩
  · rw [hr.stems.derive, root_realized, hroot]
  · have hdone := htracks.complete (x := y) (by rw [completionOf_realized, if_pos rfl]; decide)
    rw [hd.store y hpy] at hdone
    have hdone := (hmirrors.mono hd.realized).done hdone
    rwa [← hd.store x hpx] at hdone

section ReturnedTuples
variable (hy : (s.current (.name x typing)).symbol? = some y) (hfields : s.componentsOf? y = some fields)
  (h : Derives Γ (.all (fields.map .returned)) s results binds s')
  (l : Leads Γ F B S v (.all (fields.map .returned)) s results binds s')
include hy hfields h l

theorem Leads.returnedTupleKept :
    Leads Γ F B S v (.returned (.name x typing)) s [(s.current (.name x typing), .complete)] binds s' := by
  intro c hr hready hin ht
  obtain ⟨-, hdata, htyped⟩ := hready _ mem_cons_self
  obtain ⟨_, typing', hy', hroot, hmirrors, htyping⟩ := ht.current x typing
  rw [hy'] at hy ⊢
  cases hy
  obtain ⟨-, hpy, hnames⟩ := hr.tables.fields hfields
  obtain ⟨htraced, hstore⟩ := ht.fields hfields
  have r := l c (hr.returnedFields hfields) (ready_traced htraced) (fun _ => hin rfl) ht
  have hd := h.agrees hr.stems c
  have hpx := hr.past _ mem_cons_self x (by simp)
  obtain ⟨-, hdone⟩ := traced_of_returned r.meets (areCallFree_traced htraced) (areLabeled_traced htraced)
  have hdone' : (c.after Γ.registry binds).Done ((c.after Γ.registry binds).store y) := by
    rw [hd.store_tuple hpy hnames hstore]
    exact done_tuple.2 hdone
  refine ⟨r.tracks, r.breached, .cons (meets_returned hroot hdata (htyping (typing_of_ready htyped)) ?_) .nil⟩
  rw [hd.store x hpx]
  rw [hd.store y hpy] at hdone'
  exact (hmirrors.mono hd.realized).done hdone'

theorem Leads.returnedTupleRebuilt {stored : List Expr} {layout : Option Layout} (hv : v.Fits)
    (hk : Kinds F B S)
    (hS : ∀ w, S w → isDrawn w = false) (hstored : (results.map Prod.fst).mapM (storageOf s') = .ok stored) :
    Leads Γ F B S v (.returned (.name x typing)) s
      [(.name (s'.phases.derive y).1 ⟨(s.current (.name x typing)).ty, layout⟩, .complete)]
      (binds ++ [s'.tupleBind y stored ⟨(s.current (.name x typing)).ty, layout⟩])
      (s'.rebuilt y stored ⟨(s.current (.name x typing)).ty, layout⟩) := by
  intro c hr hready hin ht
  obtain ⟨-, hdata, htyped⟩ := hready _ mem_cons_self
  obtain ⟨_, typing', hy', hroot, hmirrors, htyping⟩ := ht.current x typing
  rw [hy'] at hy ⊢
  cases hy
  obtain ⟨-, hpy, hnames⟩ := hr.tables.fields hfields
  obtain ⟨htraced, hstore⟩ := ht.fields hfields
  have n := h.noted hk (hr.returnedFields hfields)
  have r := l c (hr.returnedFields hfields) (ready_traced htraced) (fun _ => hin rfl) ht
  have hd := h.agrees hr.stems c
  have hpx := hr.past _ mem_cons_self x (by simp)
  have hstems' := hr.stems.mono h.grows
  have htyping := htyping (typing_of_ready htyped)
  obtain ⟨htraced', hdone⟩ := traced_of_returned r.meets (areCallFree_traced htraced) (areLabeled_traced htraced)
  have hdone' : (c.after Γ.registry binds).Done ((c.after Γ.registry binds).store y) := by
    rw [hd.store_tuple hpy hnames hstore]
    exact done_tuple.2 hdone
  have hstoredTraced : ∀ e ∈ stored, Traced v e := by
    intro e' he'
    obtain ⟨e, he, hstorage⟩ := mem_storages hstored e' he'
    exact (htraced' e he).storage hS n.tables hstorage
  have hpast : ∀ e ∈ stored, ∀ z ∈ e.names, s'.Past z := by
    have hforced := n.recorded hk fun e he z hz => (hnames e (by simpa using he) z hz).1
    exact fun e he z hz => (n.tables.stored (hr.contained rfl) hforced hstored e he z hz).2
  have htracks : Tracks v (s'.rebuilt y stored ⟨typing'.ty, layout⟩) ((c.after Γ.registry binds).after
      Γ.registry [s'.tupleBind y stored ⟨typing'.ty, layout⟩]) :=
    r.tracks.rebuilt hv n.tables hstems' (hpy.mono h.grows.draws) hstoredTraced hpast (.of_done hdone' _)
      fun ty hty => htyping ty (by rwa [labels_of_root hroot] at hty)
  have hd' : Agrees s'.Past (c.after Γ.registry binds) ((c.after Γ.registry binds).after
      Γ.registry [s'.tupleBind y stored ⟨typing'.ty, layout⟩]) := hstems'.agrees_derived y rfl
  rw [after_append h.isBind]
  refine ⟨htracks, (breached_tupleBind (areCallFree_traced hstoredTraced)).trans r.breached,
    .cons (meets_returned ?_ hdata htyping ?_) .nil⟩
  · rw [hstems'.derive, root_realized, hroot]
  · have hdone := (hmirrors.mono hd.realized).done (by rw [← hd.store y hpy]; exact hdone')
    rw [← hd.store x hpx] at hdone
    have hdone := hdone.mono hd'.realized
    rwa [← hd'.store x (hpx.mono h.grows.draws)] at hdone

end ReturnedTuples

theorem Leads.returnedTuple {elements : List Expr}
    (l : Leads Γ F B S v (.all (elements.map .returned)) s results binds s') :
    Leads Γ F B S v (.returned (.tuple elements typing)) s [(.tuple (results.map Prod.fst) typing, .complete)]
      binds s' := by
  intro c hr hready hin ht
  obtain ⟨hcareful, hdata, hlabeled⟩ := hready _ mem_cons_self
  have hlabeled : areLabeled v.labels elements = true := hlabeled.resolve_right fun ⟨_, hx, _⟩ => by cases hx
  have r := l c hr.elements (ready_returned hcareful hdata hlabeled) (fun _ => hin rfl) ht
  refine ⟨r.tracks, r.breached, .cons ⟨.build (k := .tuple typing) nofun
    (fine_of_returned r.meets), fun hfree _ => ?_⟩ .nil⟩
  obtain ⟨htraced, hdone⟩ := traced_of_returned r.meets hfree hlabeled
  exact ⟨⟨areCallFree_traced htraced, areLabeled_traced htraced, areData_traced htraced⟩, done_tuple.2 hdone⟩

theorem Derives.reaches (hv : v.Fits) (hk : Kinds F B S) (hS : ∀ w, S w → isDrawn w = false)
    (hentry : Γ.EntryForces) (h : Derives Γ task s results binds s') :
    Leads Γ F B S v task s results binds s' := by
  induction h with
  | nil => exact fun _ _ _ _ ht => ⟨ht, rfl, .nil⟩
  | cons h₁ h₂ l₁ l₂ => exact .cons hk h₁ h₂ l₁ l₂
  | name s x typing => exact .name s x typing
  | literal =>
    exact fun _ _ _ _ ht => ⟨ht, rfl, .cons ⟨.refl rfl, fun _ _ _ => done_plain, nofun⟩ .nil⟩
  | node _ hjoins l =>
    intro c hr hready _ ht
    have hready₀ := hready _ mem_cons_self
    have r := l c hr.values (ready_values hready₀) (by simp) ht
    exact ⟨r.tracks, r.breached, .cons (hjoins.meets r.tracks hready₀ r.meets) .nil⟩
  | @forcing f _ typing _ _ _ _ _ _ _ _ hf hcallee hs hforces hinstance _ l =>
    intro c hr hready _ ht
    have hready₀ := hready _ mem_cons_self
    have r := l c (hr.arguments (forces_of_signature hf hcallee hs hforces))
      (ready_demands (k := .call f typing) hready₀) (by simp) ht
    exact ⟨r.tracks, r.breached, .cons (meets_forcing hf hcallee hs hforces hinstance hready₀ r.meets) .nil⟩
  | demandName h l => exact .demandName hk h l
  | demandLiteral =>
    exact fun _ _ _ _ ht => ⟨ht, rfl, .cons ⟨.refl rfl, fun _ _ => ⟨nofun, nofun⟩⟩ .nil⟩
  | demandNode hdemands _ l =>
    intro c hr hready _ ht
    have hready₀ := hready _ mem_cons_self
    have r := l c hr.demandParts (ready_demands hready₀) (by simp) ht
    exact ⟨r.tracks, r.breached, .cons (meets_demanded hdemands hready₀ r.meets) .nil⟩
  | demandCall h hcomplete l => exact .demandCall h l hcomplete
  | demandHoisted h₁ _ _ l₁ l₂ => exact .demandHoisted h₁ l₁ hv hk hentry rfl l₂
  | met hmeets =>
    intro c _ hready _ ht
    obtain ⟨x, hx, -⟩ := hready _ mem_cons_self
    exact ⟨ht, rfl, .cons ⟨.refl hx, ht.serves_met hx hmeets⟩ .nil⟩
  | closureKept hx hclosure h l => exact .closureKept hx hclosure h l rfl
  | closureRebuilt hx hclosure h _ l => exact .closureRebuilt hx hclosure h l hv hk
  | tupleKept hx hclosure _ hfields h hsame l => exact .tupleKept hx hfields h l hclosure hsame
  | tupleRebuilt hx _ _ hfields h _ l => exact .tupleRebuilt hx hfields h l hv hk
  | realized hx hclosure => exact .realized hv hx hclosure
  | returnedName hsettles => exact .returnedName hsettles
  | returnedRealized _ hy => exact .returnedRealized hv hk hy
  | returnedTupleKept _ hy hfields h _ _ l => exact .returnedTupleKept hy hfields h l
  | returnedTupleRebuilt _ hy hfields h _ hstored l => exact .returnedTupleRebuilt hy hfields h l hv hk hS hstored
  | returnedLiteral =>
    exact fun _ _ _ _ ht => ⟨ht, rfl, .cons ⟨fine_of_callFree rfl, fun _ _ => ⟨⟨rfl, rfl, rfl⟩, done_plain⟩⟩ .nil⟩
  | returnedTuple _ l => exact .returnedTuple l
  | returnedClosure => exact fun _ _ hready _ _ => by cases (hready _ mem_cons_self).2.1
  | returnedCall h _ l => exact .returnedCall h l
  | returnedHoisted h₁ hself _ _ l₁ l₂ => exact .returnedHoisted h₁ l₁ hv hk hself l₂

end Steps

end Phases
end DataParallel
