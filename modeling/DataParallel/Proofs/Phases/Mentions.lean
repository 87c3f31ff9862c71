import DataParallel.Proofs.Phases.Records

/-! What the tables of phase analysis mention, whatever tuples and closures are built from.

The tables know something about some names, the records of tuples and closures mention others, and
storage is on record for some. All of these are names of the text or drawn, and a task adds drawn
names only. -/

namespace DataParallel

open DataParallel.Expr List Name Phases.State

variable {x z : String} {e : Expr} {es : List Expr}

namespace Expr

mutual

def tupleNames : Expr → List String
  | .name .. | .literal .. => []
  | .tuple parts _ | .closure _ parts _ => tupleNamesAll parts
  | .apply f arguments _ =>
    if f.symbol? = some Snippet.makeTuple then namesAll arguments else tupleNamesAll arguments

def tupleNamesAll : List Expr → List String
  | [] => []
  | e :: rest => tupleNames e ++ tupleNamesAll rest

end

theorem mem_tupleNamesAll : z ∈ tupleNamesAll es ↔ ∃ e ∈ es, z ∈ e.tupleNames := by
  induction es with
  | nil => simp [tupleNamesAll]
  | cons e es ih => simp [tupleNamesAll, ih]

theorem namesAll_of_tupleNames {es : List Expr} (h : z ∈ tupleNamesAll es) : z ∈ namesAll es := by
  induction es using list_induction with
  | nil => exact h
  | cons e es ihe ih => cases e <;> simp_all [tupleNames, tupleNamesAll] <;> grind

theorem names_of_tupleNames {e : Expr} (h : z ∈ e.tupleNames) : z ∈ e.names := by
  simpa using @namesAll_of_tupleNames z [e] (by simpa [tupleNamesAll] using h)

theorem tupleNamesAll_of_build {es : List Expr} (h : buildNoTuples es = true) :
    tupleNamesAll es = [] := by
  induction es using list_induction with
  | nil => rfl
  | cons e es ihe ih => cases e <;> simp_all [tupleNames, tupleNamesAll, buildNoTuples, buildsNoTuple]

theorem tupleNames_of_builds {e : Expr} (h : e.buildsNoTuple = true) : e.tupleNames = [] := by
  simpa [tupleNamesAll] using @tupleNamesAll_of_build [e] (by simpa [buildNoTuples] using h)

theorem builtNames_of_tupleNames (h : e.partsBuildNoTuple = true) (hz : z ∈ e.tupleNames) :
    z ∈ e.builtNames := by
  cases e with
  | apply f arguments typing =>
    rw [tupleNames, tupleNamesAll_of_build h] at hz
    split at hz
    · rwa [builtNames, if_pos ‹_›]
    · cases hz
  | _ =>
    rw [tupleNames_of_builds h] at hz
    cases hz

theorem tupleNames_of_symbol (h : e.symbol? = some x) : e.tupleNames = [] := by
  cases e with
  | name => rfl
  | _ => cases h

end Expr

namespace Phases

variable {k : Head} {parts : List Expr} {B F G S : String → Prop} {free : Prop} {s : State} {y : String}
  {typing : Typing} {completion completion' : Completion} {f : Expr} {task task' : Task} {tasks : List Task}

theorem Head.mem_tupleNames_parts (h : z ∈ tupleNamesAll parts) :
    z ∈ (k.build parts).tupleNames := by
  cases k with
  | call f typing =>
    rw [build, tupleNames]
    split
    · exact namesAll_of_tupleNames h
    · exact h
  | _ => exact h

theorem Head.tupleNames_build {parts' : List Expr} {P : String → Prop}
    (hnames : ∀ e ∈ parts', ∀ z ∈ e.names, P z ∨ ∃ e ∈ parts, z ∈ e.names)
    (htuples : ∀ e ∈ parts', ∀ z ∈ e.tupleNames, P z ∨ z ∈ tupleNamesAll parts) :
    ∀ z ∈ (k.build parts').tupleNames, P z ∨ z ∈ (k.build parts).tupleNames := by
  intro z hz
  cases k with
  | call f typing =>
    rw [build, tupleNames] at hz ⊢
    split at hz
    · rename_i hf
      rw [if_pos hf]
      obtain ⟨e, he, hz⟩ := mem_namesAll.1 hz
      exact (hnames e he z hz).imp_right mem_namesAll.2
    · rename_i hf
      rw [if_neg hf]
      obtain ⟨e, he, hz⟩ := mem_tupleNamesAll.1 hz
      exact htuples e he z hz
  | _ =>
    obtain ⟨e, he, hz⟩ := mem_tupleNamesAll.1 hz
    exact htuples e he z hz

namespace State

def Reads (F : String → Prop) (s : State) (x : String) (e : Expr) : Prop :=
  F x ∧ s.Past x ∧ ∃ y typing, e = .name y typing ∧ IsDrawn y ∧ StandsFor x y ∧ s.Past y

def Records (G B : String → Prop) (free : Prop) (s : State) (x : String) (es : List Expr) : Prop :=
  G x ∧ s.Past x ∧ (free → areCallFree es = true) ∧ ∀ e ∈ es, ∀ z ∈ e.names, B z ∧ s.Past z

/-- The tables read names that are `F` through others, they have records for names that are `G`, the
records mention names that are `B` only, and there is storage behind names that are `S` only. All
that they mention was drawn before or is not drawn. If the records are to be `free`, then no call
stands in them. -/
structure Noted (s : State) (F B S : String → Prop) (G : String → Prop := F) (free : Prop := False) : Prop where
  tables : s.Tables (Reads F s) (Records G B free s) fun x e =>
    (∃ f captured typing, e = .closure f captured typing) ∧ Records G B free s x [e]
  storage : ∀ {x}, s.completions.contains (container x) = true → S x

section
variable {F' B' G' : String → Prop} {t : State} {value : Expr}

theorem Records.imp (h : Records G B free s x parts) (hd : Draws s t) (hG : G x → G' x)
    (hB : ∀ z, B z → B' z) : Records G' B' free t x parts :=
  ⟨hG h.1, h.2.1.mono hd, h.2.2.1, fun e he z hz => ⟨hB z (h.2.2.2 e he z hz).1, (h.2.2.2 e he z hz).2.mono hd⟩⟩

namespace Noted

section
variable (h : s.Noted F B S G free)
include h

theorem standIns (hx : s.standIn? x = some e) :
    F x ∧ s.Past x ∧ ∃ y typing, e = .name y typing ∧ IsDrawn y ∧ StandsFor x y ∧ s.Past y :=
  h.tables.standIns hx

theorem fields (hx : s.componentsOf? x = some parts) :
    G x ∧ s.Past x ∧ ∀ e ∈ parts, ∀ z ∈ e.names, B z ∧ s.Past z :=
  have hfields := h.tables.fields hx
  ⟨hfields.1, hfields.2.1, hfields.2.2.2⟩

theorem closures (hx : s.closureOf? x = some e) :
    G x ∧ s.Past x ∧ (∃ f captured typing, e = .closure f captured typing) ∧
      ∀ z ∈ e.names, B z ∧ s.Past z := by
  obtain ⟨hshape, hG, hpast, -, hnames⟩ := h.tables.closures hx
  exact ⟨hG, hpast, hshape, hnames e mem_cons_self⟩

theorem later (hd : Draws s t) : s.Tables (Reads F t) (Records G B free t) fun x e =>
    (∃ f captured typing, e = .closure f captured typing) ∧ Records G B free t x [e] where
  standIns hx := by
    obtain ⟨hF, hpast, y, typing, rfl, hy, hstands, hpast'⟩ := h.standIns hx
    exact ⟨hF, hpast.mono hd, y, typing, rfl, hy, hstands, hpast'.mono hd⟩
  fields hx := (h.tables.fields hx).imp hd id fun _ => id
  closures hx := (h.tables.closures hx).imp_right fun h => h.imp hd id fun _ => id

theorem imp
    (hF : ∀ {x}, (∃ e, s.standIn? x = some e) ∨ (∃ fields, s.componentsOf? x = some fields) ∨
      (∃ e, s.closureOf? x = some e) → (F x → F' x) ∧ (G x → G' x))
    (hB : ∀ z, B z → B' z) : s.Noted F' B' S G' free where
  tables := {
    standIns := fun hx => ⟨(hF (.inl ⟨_, hx⟩)).1 (h.standIns hx).1, (h.standIns hx).2⟩
    fields := fun hx => (h.tables.fields hx).imp (.refl s) (hF (.inr (.inl ⟨_, hx⟩))).2 hB
    closures := fun hx => (h.tables.closures hx).imp_right fun h => h.imp (.refl s) (hF (.inr (.inr ⟨_, hx⟩))).2 hB }
  storage := h.storage

end

theorem mono (h : s.Noted F B S F free)
    (hF : ∀ {x}, (∃ e, s.standIn? x = some e) ∨ (∃ fields, s.componentsOf? x = some fields) ∨
      (∃ e, s.closureOf? x = some e) → F x → F' x)
    (hB : ∀ z, B z → B' z) : s.Noted F' B' S F' free :=
  h.imp (fun hx => ⟨hF hx, hF hx⟩) hB

theorem forget (h : s.Noted F B S G free) (hd : Draws s t) {names : List String}
    (hf : Forgets s names t) (hstorage : ∀ {x}, t.completions.contains (container x) = true →
      s.completions.contains (container x) = true ∨ S x) : t.Noted F B S G free :=
  ⟨(h.later hd).forget hf, fun hx => (hstorage hx).elim h.storage id⟩

end Noted

theorem contains_setCompletion {c : Completion} :
    (s.setCompletion y c).completions.contains x = true ↔
      x = y ∨ s.completions.contains x = true := by
  simp only [setCompletion, Scopes.contains, Scopes.get?_insert]
  by_cases hx : x = y <;> simp [hx]

theorem isDrawn_derived (hs : s.Stems) : IsDrawn (s.phases.derive x).1 :=
  .inl ⟨x, s.phases.counter, hs.derive x⟩

theorem isDrawn_temporary (hs : s.Stems) : IsDrawn s.temporaries.next.1 :=
  .inr ⟨s.temporaries.counter, hs.next⟩

theorem ne_container_of_drawn (h : IsDrawn y) : container x ≠ y :=
  fun hxy => container_not_drawn x (hxy ▸ h)

theorem storage_drawn (h : ∀ {w}, s.completions.contains (container w) = true → S w)
    (hy : ∀ w, y ≠ container w) (hx : ∀ w, x = container w → S w) {w : String}
    (hw : ((s.setCompletion y completion).setCompletion x completion').completions.contains
      (container w) = true) : S w := by
  rcases contains_setCompletion.1 hw with hw | hw
  · exact hx w hw.symm
  · rcases contains_setCompletion.1 hw with hw | hw
    · exact absurd hw.symm (hy w)
    · exact h hw

theorem reads_derived (hs : s.Stems) (hx : F x) (hpast : s.Past x) (hd : Draws s t)
    (hn : s.phases.counter < t.phases.counter) : Reads F t x (.name (s.phases.derive x).1 typing) :=
  ⟨hx, hpast.mono hd, _, typing, rfl, isDrawn_derived hs, standsFor_derived hs, past_derived hs hpast hd hn⟩

namespace Noted
variable {entry : String}

section
variable (h : s.Noted F B S G free)
include h

theorem substitute (he : Reads F s x e) : (s.substitute x e).Noted F B S G free :=
  ⟨(h.later (s.grows_substitute x e).draws).substitute he, h.storage⟩

theorem realized (hs : s.Stems) (hx : F x) (hpast : s.Past x)
    (hstorage : ∀ w, x = container w → S w) : (s.realized x value typing).Noted F B S G free :=
  have hd := (s.grows_realized x value typing).draws
  ⟨(h.later hd).realized (reads_derived hs hx hpast hd (Nat.lt_succ_self _)),
    fun hw => storage_drawn h.storage (fun _ => (ne_container_of_drawn (isDrawn_derived hs)).symm) hstorage hw⟩

theorem rebuilt (hs : s.Stems) (hG : ∀ z, IsDrawn z → G z) (hx : F x) (hpast : s.Past x)
    (hstorage : ∀ w, x = container w → S w) (hfree : free → areCallFree parts = true)
    (hfields : ∀ e ∈ parts, ∀ z ∈ e.names, B z ∧ s.Past z) : (s.rebuilt x parts typing).Noted F B S G free := by
  have hd := (s.grows_rebuilt x parts typing).draws
  have hdrawn := isDrawn_derived (x := x) hs
  have hreads : Reads F (s.rebuilt x parts typing) x (.name (s.phases.derive x).1 typing) :=
    reads_derived hs hx hpast hd (Nat.lt_succ_self _)
  refine ⟨(h.later hd).rebuilt hreads ⟨hG _ hdrawn, past_derived hs hpast hd (Nat.lt_succ_self _), hfree, ?_⟩,
    fun hw => storage_drawn h.storage (fun _ => (ne_container_of_drawn hdrawn).symm) hstorage hw⟩
  exact fun e he z hz => (hfields e he z hz).imp_right fun hz => hz.mono hd

theorem reclosed (hs : s.Stems) (hG : ∀ z, IsDrawn z → G z) (hpast : s.Past x)
    (hshape : ∃ f captured typing, value = .closure f captured typing)
    (hfree : free → value.isCallFree = true) (hvalue : ∀ z ∈ value.names, B z ∧ s.Past z) :
    (s.reclosed x e value).Noted F B S G free := by
  have hd := (s.grows_reclosed x e value).draws
  have hdrawn := isDrawn_derived (x := x) hs
  refine ⟨(h.later hd).reclosed ⟨hshape, hG _ hdrawn, past_derived hs hpast hd (Nat.lt_succ_self _),
    fun hf => areCallFree_iff.2 (forall_mem_singleton.2 (hfree hf)),
    forall_mem_singleton.2 fun z hz => (hvalue z hz).imp_right fun hz => hz.mono hd⟩, fun {w} hw => ?_⟩
  exact h.storage ((contains_setCompletion.1 hw).resolve_left (ne_container_of_drawn hdrawn))

theorem record (hpast : s.Past x)
    (hfields : ∀ fields, s.recordedFields value = some fields → G x ∧ (free → areCallFree fields = true) ∧
      ∀ e ∈ fields, ∀ z ∈ e.names, B z ∧ s.Past z)
    (hclosure : ∀ e, s.recordedClosure value = some e → G x ∧
      (∃ f captured typing, e = .closure f captured typing) ∧ (free → e.isCallFree = true) ∧
        ∀ z ∈ e.names, B z ∧ s.Past z)
    (hstorage : ∀ w, x = container w → S w) : (s.record entry x value completion).Noted F B S G free := by
  have hd := (s.grows_record entry x value completion).draws
  refine ⟨((h.later hd).but x).record (fun fields hf => ⟨(hfields fields hf).1, hpast.mono hd, (hfields fields hf).2⟩)
    fun e he => ?_, fun {w} hw => ?_⟩
  · obtain ⟨hG, hshape, hfree, hnames⟩ := hclosure e he
    exact ⟨hshape, hG, hpast.mono hd, fun hf => areCallFree_iff.2 (forall_mem_singleton.2 (hfree hf)),
      forall_mem_singleton.2 hnames⟩
  · exact ((contains_setCompletion (s := s) (c := completion)).1 hw).elim (fun hw => hstorage w hw.symm) h.storage

theorem hoisted (hs : s.Stems) (hG : ∀ z, IsDrawn z → G z) {arguments : List Expr}
    (hfree : free → f.symbol? ≠ some Snippet.makeTuple)
    (harguments : f.symbol? = some Snippet.makeTuple → ∀ e ∈ arguments, ∀ z ∈ e.names, B z ∧ s.Past z) :
    (s.hoisted entry (.apply f arguments typing) completion).Noted F B S G free := by
  have hdraws : Draws s (s.freshTemporary.2.pend ((apply f arguments typing).renamed s.temporaries.next.1)
      (.apply f arguments typing)) := ⟨Nat.le_refl _, Nat.le_succ _⟩
  have hpend : (s.freshTemporary.2.pend ((apply f arguments typing).renamed s.temporaries.next.1)
      (.apply f arguments typing)).Noted F B S G free :=
    h.forget hdraws (.none (fun _ => rfl) (fun _ => rfl) (fun _ => rfl)) .inl
  refine hpend.record (past_temporary hs (Nat.lt_succ_self _)) (fun fields hfields => ?_) nofun
    fun w hw => absurd hw.symm (ne_container_of_drawn (isDrawn_temporary hs))
  rw [recordedFields_apply] at hfields
  split at hfields
  · cases hfields
    rename_i hf
    exact ⟨hG _ (isDrawn_temporary hs), fun h => absurd hf (hfree h), fun e he z hz =>
      ⟨(harguments hf e he z hz).1, (harguments hf e he z hz).2.mono hdraws⟩⟩
  · cases hfields

theorem current (x : String) (typing : Typing) :
    s.current (.name x typing) = .name x typing ∨
      ∃ y typing', s.current (.name x typing) = .name y typing' ∧ Reads F s x (.name y typing') := by
  rw [current_name]
  cases hx : s.standIn? x with
  | none => exact .inl rfl
  | some e =>
    obtain ⟨hF, hpast, y, typing', rfl, hy⟩ := h.standIns hx
    exact .inr ⟨y, typing', rfl, hF, hpast, y, typing', rfl, hy⟩

theorem current_symbol (x : String) (typing : Typing) :
    ∃ y, (s.current (.name x typing)).symbol? = some y := by
  rcases h.current x typing with hx | ⟨y, typing', hy, -⟩
  · exact ⟨x, by rw [hx]; rfl⟩
  · exact ⟨y, by rw [hy]; rfl⟩

end

theorem stored {fields stored : List Expr} (h : s.Noted F B S G free)
    (hcontained : ∀ z, B z → S z → B (container z))
    (hfields : ∀ e ∈ fields, ∀ z ∈ e.names, B z ∧ s.Past z) (hstored : fields.mapM (storageOf s) = .ok stored) :
    ∀ e ∈ stored, ∀ z ∈ e.names, B z ∧ s.Past z := by
  intro e' he' z hz
  obtain ⟨e, he, hstorage⟩ := mem_storages hstored e' he'
  rcases storageOf_cases hstorage with rfl | ⟨x, hx, hx', hcontains⟩
  · exact hfields e' he z hz
  · rw [names_of_symbol hx', mem_singleton] at hz
    subst hz
    exact ⟨hcontained x (hfields e he x (by simp [names_of_symbol hx])).1 (h.storage hcontains),
      past_of_source (container_not_drawn x)⟩

end Noted

theorem areCallFree_stored {stored : List Expr} (hfree : areCallFree parts = true)
    (hstored : parts.mapM (storageOf s) = .ok stored) : areCallFree stored = true := by
  refine areCallFree_iff.2 fun e' he' => ?_
  obtain ⟨e, he, hstorage⟩ := mem_storages hstored e' he'
  rcases storageOf_cases hstorage with rfl | ⟨x, -, hx', -⟩
  · exact areCallFree_iff.1 hfree e' he
  · rw [eq_name_of_symbol hx']
    rfl

end

end State

/-- What a task needs to start. -/
structure Task.Fits (registry : Registry) (F B S : String → Prop) (s : State) (task : Task) (G : String → Prop := F)
    (free : Prop := False) : Prop where
  stems : s.Stems
  tables : s.Noted F B S G free
  past : ∀ e ∈ task.exprs, ∀ z ∈ e.names, s.Past z
  forced : ∀ z ∈ task.forced registry, F z
  reach : task.forced registry ≠ [] → ∀ z, B z → F z
  built : ∀ z ∈ tupleNamesAll task.exprs, B z
  contained : task.returns = true → ∀ z, B z → S z → B (container z)
  plain : free → task.isPlain = true

/-- A name of some expressions, or one that was drawn for such a name or for a temporary. -/
def Origin (F : String → Prop) (es : List Expr) (z : String) : Prop :=
  (∃ e ∈ es, z ∈ e.names) ∨ IsDrawn z ∧ ∃ x, StandsFor x z ∧ F x ∧
    ((∃ e ∈ es, x ∈ e.names) ∨ ∃ n : Nat, x = "_sync" ++ toString n)

theorem Origin.imp {es' : List Expr} (h : Origin F es z)
    (hes : ∀ x, (∃ e ∈ es, x ∈ e.names) → ∃ e ∈ es', x ∈ e.names) : Origin F es' z :=
  Or.imp (hes z) (fun ⟨hz, x, hx, hF, ho⟩ => ⟨hz, x, hx, hF, ho.imp_left (hes x)⟩) h

/-- What a task leaves behind: tables of the same kind, and results that read drawn names or names
of the task. -/
structure Notes (F B S : String → Prop) (task : Task) (results : List (Expr × Completion)) (s' : State)
    (G : String → Prop := F) (free : Prop := False) : Prop where
  tables : s'.Noted F B S G free
  past : ∀ r ∈ results, ∀ z ∈ r.1.names, s'.Past z
  origins : ∀ r ∈ results, ∀ z ∈ r.1.names, Origin F task.exprs z
  tuples : ∀ r ∈ results, ∀ z ∈ r.1.tupleNames, IsDrawn z ∨ z ∈ tupleNamesAll task.exprs
  isName : ∀ x, task.symbol? = some x → ∀ r ∈ results,
    r.1 ∈ task.exprs ∨ ∃ y typing, r.1 = .name y typing ∧ IsDrawn y ∧ StandsFor x y
  callFree : (∀ e ∈ task.exprs, e.isCallFree = true) → ∀ r ∈ results, r.1.isCallFree = true

/-- Drawn names may be in any table, and there may be storage behind all that is read through other
names. -/
structure Kinds (F B S : String → Prop) (G : String → Prop := F) : Prop where
  drawn : ∀ z, IsDrawn z → B z
  realized : ∀ z, IsDrawn z → F z
  storage : ∀ w, F (container w) → S w
  keyed : ∀ z, IsDrawn z → G z

namespace Task.Fits

variable {ty : Ty} {registry : Registry} {s₁ : State} {demand : Ty} {demands : List Ty}

theorem reach_of (h : Fits registry F B S s task G free) {names : List String}
    (hsub : ∀ z ∈ names, z ∈ task.forced registry) (hne : names ≠ []) : ∀ z, B z → F z := by
  obtain ⟨z, hz⟩ := exists_mem_of_ne_nil _ hne
  exact h.reach (ne_nil_of_mem (hsub z hz))

theorem head (h : Fits registry F B S s (.all (task :: tasks)) G free) :
    Fits registry F B S s task G free where
  stems := h.stems
  tables := h.tables
  past e he := h.past e (mem_append_left _ he)
  forced z hz := h.forced z (mem_append_left _ hz)
  reach := h.reach_of fun _ hz => mem_append_left _ hz
  built z hz := by
    obtain ⟨e, he, hz⟩ := mem_tupleNamesAll.1 hz
    exact h.built z (mem_tupleNamesAll.2 ⟨e, mem_append_left _ he, hz⟩)
  contained hr := h.contained (by simp [hr])
  plain hf := (Bool.and_eq_true _ _ ▸ h.plain hf).1

theorem tail (h : Fits registry F B S s (.all (task :: tasks)) G free) (hg : Grows s s₁)
    (hs : s₁.Noted F B S G free) : Fits registry F B S s₁ (.all tasks) G free where
  stems := h.stems.mono hg
  tables := hs
  past e he z hz := (h.past e (mem_append_right _ he) z hz).mono hg.draws
  forced z hz := h.forced z (mem_append_right _ hz)
  reach := h.reach_of fun _ hz => mem_append_right _ hz
  built z hz := by
    obtain ⟨e, he, hz⟩ := mem_tupleNamesAll.1 hz
    exact h.built z (mem_tupleNamesAll.2 ⟨e, mem_append_right _ he, hz⟩)
  contained hr := h.contained (by
    simp only [returns] at hr
    simp [hr])
  plain hf := (Bool.and_eq_true _ _ ▸ h.plain hf).2

theorem ofParts (h : Fits registry F B S s task G free) (hexprs : task.exprs = [k.build parts])
    (hsub : ∀ e ∈ exprsAll tasks, e ∈ parts) (hforced : ∀ z ∈ forcedAll registry tasks, z ∈ task.forced registry)
    (hreturns : anyReturns tasks = true → task.returns = true) (hplain : free → arePlain tasks = true) :
    Fits registry F B S s (.all tasks) G free where
  stems := h.stems
  tables := h.tables
  past e he z hz := h.past (k.build parts) (by simp [hexprs]) z (Head.mem_names_build.2 (.inr ⟨e, hsub e he, hz⟩))
  forced z hz := h.forced z (hforced z hz)
  reach := h.reach_of hforced
  built z hz := by
    obtain ⟨e, he, hz⟩ := mem_tupleNamesAll.1 hz
    refine h.built z (mem_tupleNamesAll.2 ⟨_, by rw [hexprs]; exact mem_singleton_self _, ?_⟩)
    exact Head.mem_tupleNames_parts (mem_tupleNamesAll.2 ⟨e, hsub e he, hz⟩)
  contained hr := h.contained (hreturns hr)
  plain := hplain

theorem values (h : Fits registry F B S s (.value (k.build parts)) G free) :
    Fits registry F B S s (.all (parts.map .value)) G free := by
  refine h.ofParts rfl (by simp) (fun z hz => ?_) (by simp) fun hf => arePlain_values (by cases k <;> exact h.plain hf)
  exact Head.mem_forcedNames_build (by rwa [forcedAll_values] at hz)

theorem arguments (h : Fits registry F B S s (.value (.apply f parts typing)) G free)
    (hforces : f.forces registry = true) :
    Fits registry F B S s (.all (zipWith .demand parts demands)) G free := by
  refine ofParts (k := .call f typing) h rfl (fun e => mem_exprsAll_demands) (fun z hz => ?_) (by simp)
    fun hf => arePlain_demands (h.plain hf)
  rw [Task.forced, forcedNames, if_pos hforces]
  exact mem_forcedAll_demands hz

theorem demandParts (h : Fits registry F B S s (.demand (k.build parts) demand) G free) :
    Fits registry F B S s (.all (zipWith .demand parts demands)) G free := by
  refine h.ofParts rfl (fun e => mem_exprsAll_demands) (fun z hz => ?_) (by simp) fun hf => arePlain_demands ?_
  · exact Head.mem_names_build.2 (.inr (mem_namesAll.1 (mem_forcedAll_demands hz)))
  · cases k with
    | call => exact (Bool.and_eq_true _ _ ▸ h.plain hf).2
    | _ => exact h.plain hf

theorem elements (h : Fits registry F B S s (.returned (.tuple parts typing)) G free) :
    Fits registry F B S s (.all (parts.map .returned)) G free := by
  refine ofParts (k := .tuple typing) h rfl (by simp) (fun z hz => ?_) (fun _ => rfl) fun hf =>
    arePlain_returned (h.plain hf)
  rwa [forcedAll_returned] at hz

theorem read (h : Fits registry F B S s task G free) (hexprs : task.exprs = [e])
    (hforced : task.forced registry = e.names) : Fits registry F B S s (.value e) G free where
  stems := h.stems
  tables := h.tables
  past := by
    have hpast := h.past
    rwa [hexprs] at hpast
  forced z hz := h.forced z (by rw [hforced]; exact names_of_forced hz)
  reach := h.reach_of fun z hz => by rw [hforced]; exact names_of_forced hz
  built := by
    have hbuilt := h.built
    rwa [hexprs] at hbuilt
  contained hr := by cases hr
  plain hf := partsBuildNoTuple_of_plain (h.plain hf) e (by simp [hexprs])

theorem recorded (h : Fits registry F B S s task G free) (hne : task.forced registry ≠ [])
    (hnames : ∀ e ∈ task'.exprs, ∀ z ∈ e.names, B z ∧ s.Past z)
    (hforced : ∀ z ∈ task'.forced registry, ∃ e ∈ task'.exprs, z ∈ e.names)
    (hreturns : task'.returns = true → task.returns = true) (hplain : free → task'.isPlain = true) :
    Fits registry F B S s task' G free where
  stems := h.stems
  tables := h.tables
  past e he z hz := (hnames e he z hz).2
  forced z hz := by
    obtain ⟨e, he, hz⟩ := hforced z hz
    exact h.reach hne z (hnames e he z hz).1
  reach _ := h.reach hne
  built z hz := by
    obtain ⟨e, he, hz⟩ := mem_tupleNamesAll.1 hz
    exact (hnames e he z (names_of_tupleNames hz)).1
  contained hr := h.contained (hreturns hr)
  plain := hplain

theorem closure {f : Expr} (h : Fits registry F B S s (.named f ty) G free)
    (hx : f.symbol? = some x)
    (hclosure : s.closureOf? x = some e) : Fits registry F B S s (.demand e demand) G free := by
  obtain ⟨-, -, -, hfree, hnames⟩ := h.tables.tables.closures hclosure
  exact h.recorded (by simp [names_of_symbol hx]) hnames (fun z hz => ⟨e, mem_cons_self, hz⟩)
    nofun fun hf => buildsNoTuple_of_isCallFree (areCallFree_iff.1 (hfree hf) e mem_cons_self)

theorem fields (h : Fits registry F B S s (.named e ty) G free) (hx : e.symbol? = some x)
    (hfields : s.componentsOf? x = some parts) :
    Fits registry F B S s (.all (zipWith .demand parts demands)) G free := by
  obtain ⟨-, -, hfree, hnames⟩ := h.tables.tables.fields hfields
  refine h.recorded (by simp [names_of_symbol hx]) (fun e he => hnames e (mem_exprsAll_demands he)) ?_
    (by simp) fun hf => arePlain_demands (buildNoTuples_of_areCallFree (hfree hf))
  clear hfields hfree hnames h
  induction parts generalizing demands with
  | nil => simp
  | cons e es ih =>
    cases demands with
    | nil => simp
    | cons d ds =>
      intro z hz
      simp only [zipWith_cons_cons, Task.forced, forcedAll, mem_append] at hz
      rcases hz with hz | hz
      · exact ⟨e, mem_append_left _ mem_cons_self, hz⟩
      · obtain ⟨f, hf, hz⟩ := @ih ds z hz
        exact ⟨f, mem_append_right _ hf, hz⟩

theorem returnedFields (h : Fits registry F B S s (.returned (.name y typing)) G free)
    (hfields : s.componentsOf? x = some parts) : Fits registry F B S s (.all (parts.map .returned)) G free := by
  obtain ⟨-, -, hfree, hnames⟩ := h.tables.tables.fields hfields
  refine h.recorded (by simp) (fun e he => hnames e (by simpa using he))
    (fun z hz => ?_) (fun _ => rfl) fun hf => arePlain_returned (buildNoTuples_of_areCallFree (hfree hf))
  rw [Task.forced, forcedAll_returned] at hz
  obtain ⟨f, hf, hz⟩ := mem_namesAll.1 hz
  exact ⟨f, by simpa using hf, hz⟩

theorem name (h : Fits registry F B S s task G free) (hs : Grows s s₁) (ht : s₁.Noted F B S G free)
    (hexprs : task'.exprs = [e]) (he : e.symbol? = some x) (hpast : s₁.Past x) (hx : F x)
    (hne : task.forced registry ≠ []) (hforced : ∀ z ∈ task'.forced registry, z ∈ e.names)
    (hreturns : task'.returns = true → task.returns = true) (hplain : task'.isPlain = true) :
    Fits registry F B S s₁ task' G free where
  stems := h.stems.mono hs
  tables := ht
  past f hf z hz := by
    rw [hexprs] at hf
    cases mem_singleton.1 hf
    rw [names_of_symbol he] at hz
    cases mem_singleton.1 hz
    exact hpast
  forced z hz := by
    have hz := hforced z hz
    rw [names_of_symbol he] at hz
    cases mem_singleton.1 hz
    exact hx
  reach _ := h.reach hne
  built z hz := by
    rw [hexprs] at hz
    simp [tupleNamesAll, tupleNames_of_symbol he] at hz
  contained hr := h.contained (hreturns hr)
  plain _ := hplain

theorem current (h : Fits registry F B S s task G free) (hk : Kinds F B S G)
    (hexprs : task.exprs = [.name x typing]) (hforced : x ∈ task.forced registry) :
    ∃ y typing', s.current (.name x typing) = .name y typing' ∧ F y ∧ s.Past y ∧ StandsFor x y := by
  rcases h.tables.current x typing with hx | ⟨y, typing', hy, -, -, _, _, heq, hdrawn, hstands, hpast⟩
  · exact ⟨x, typing, hx, h.forced x hforced, h.past _ (by rw [hexprs]; exact mem_cons_self) x (by simp), .refl⟩
  · cases heq
    exact ⟨y, typing', hy, hk.realized y hdrawn, hpast, hstands⟩

theorem named (h : Fits registry F B S s (.demand (.name x typing) demand) G free)
    (hk : Kinds F B S G) :
    Fits registry F B S s (.named (s.current (.name x typing)) demand) G free := by
  obtain ⟨y, typing', hy, hF, hpast, -⟩ := h.current hk rfl (by simp)
  rw [hy]
  exact h.name (.refl s) h.tables rfl rfl hpast hF (by simp) (fun _ hz => hz) nofun rfl

end Task.Fits

section
variable {Γ : Context} {s' : State} {results : List (Expr × Completion)} {binds : List Stmt}

theorem Notes.one (tables : s'.Noted F B S G free) (past : ∀ z ∈ e.names, s'.Past z)
    (origins : ∀ z ∈ e.names, Origin F task.exprs z)
    (tuples : ∀ z ∈ e.tupleNames, IsDrawn z ∨ z ∈ tupleNamesAll task.exprs)
    (isName : ∀ x, task.symbol? = some x → e ∈ task.exprs ∨ ∃ y typing, e = .name y typing ∧ IsDrawn y ∧ StandsFor x y)
    (callFree : (∀ e ∈ task.exprs, e.isCallFree = true) → e.isCallFree = true) :
    Notes F B S task [(e, completion)] s' G free where
  tables := tables
  past := forall_mem_singleton.2 past
  origins := forall_mem_singleton.2 origins
  tuples := forall_mem_singleton.2 tuples
  isName x hx := forall_mem_singleton.2 (isName x hx)
  callFree h := forall_mem_singleton.2 (callFree h)

theorem Notes.names (h : Notes F B S task results s' G free) :
    ∀ r ∈ results, ∀ z ∈ r.1.names, IsDrawn z ∨ ∃ e ∈ task.exprs, z ∈ e.names :=
  fun r hr z hz => (h.origins r hr z hz).symm.imp_left And.left

section
variable (tables : s'.Noted F B S G free)
include tables

theorem Notes.kept (he : e ∈ task.exprs) (past : ∀ z ∈ e.names, s'.Past z) :
    Notes F B S task [(e, completion)] s' G free :=
  .one tables past (fun _ hz => .inl ⟨e, he, hz⟩)
    (fun _ hz => .inr (mem_tupleNamesAll.2 ⟨e, he, hz⟩)) (fun _ _ => .inl he) fun hfree => hfree e he

theorem Notes.drawn (hy : IsDrawn y) (past : s'.Past y) (hstands : StandsFor x y) (hx : F x)
    (horigin : (∃ e ∈ task.exprs, x ∈ e.names) ∨ ∃ n : Nat, x = "_sync" ++ toString n)
    (hsymbol : ∀ z, task.symbol? = some z → z = x) : Notes F B S task [(.name y typing, completion)] s' G free := by
  refine .one tables (forall_mem_singleton.2 past)
    (forall_mem_singleton.2 (.inr ⟨hy, x, hstands, hx, horigin⟩)) nofun (fun z hz => ?_)
    fun _ => rfl
  exact .inr ⟨y, typing, rfl, hy, hsymbol z hz ▸ hstands⟩

theorem Notes.ofName (hexprs : task.exprs = [e]) (hsymbol : task.symbol? = e.symbol?)
    (he : e.symbol? = some x)
    (hx : F x) (hy : IsDrawn y) (hstands : StandsFor x y) (past : s'.Past y) :
    Notes F B S task [(.name y typing, completion)] s' G free := by
  refine .drawn tables hy past hstands hx (.inl ⟨e, by simp [hexprs], by simp [names_of_symbol he]⟩) fun z hz => ?_
  rw [hsymbol, he] at hz
  exact (Option.some.inj hz).symm

theorem Notes.derived (hexprs : task.exprs = [e]) (hsymbol : task.symbol? = e.symbol?)
    (he : e.symbol? = some x)
    (hx : F x) (hstands : StandsFor x y) (hs : s.Stems) (hpast : s.Past y) (hd : s.Draws s')
    (hn : s.phases.counter < s'.phases.counter) :
    Notes F B S task [(.name (s.phases.derive y).1 typing, completion)] s' G free :=
  .ofName tables hexprs hsymbol he hx (isDrawn_derived hs) (hstands.trans (standsFor_derived hs))
    (past_derived hs hpast hd hn)

theorem Notes.current (hexprs : task.exprs = [.name x typing]) (hsymbol : task.symbol? = some x)
    (hs : s.Noted F B S G free) (hd : s.Draws s') (hx : s.Past x) :
    Notes F B S task [(s.current (.name x typing), completion)] s' G free := by
  rcases hs.current x typing with hkept | ⟨y, typing', hy, hF, -, _, _, heq, hdrawn, hstands, hpast⟩
  · rw [hkept]
    exact .kept tables (by simp [hexprs]) (forall_mem_singleton.2 (hx.mono hd))
  · cases heq
    rw [hy]
    exact .ofName tables hexprs hsymbol rfl hF hdrawn hstands (hpast.mono hd)

end

theorem Notes.build (h : Notes F B S (.all tasks) results s' G free)
    (hexprs : task.exprs = [k.build parts])
    (hsymbol : task.symbol? = none) (htasks : ∀ e ∈ Task.exprsAll tasks, e ∈ parts)
    (hpast : ∀ z ∈ (k.build parts).names, s.Past z) (hd : Draws s s') :
    Notes F B S task [(k.build (results.map Prod.fst), completion)] s' G free := by
  have hmem : k.build parts ∈ task.exprs := by simp [hexprs]
  have hparts : ∀ x, (∃ e ∈ Task.exprsAll tasks, x ∈ e.names) → ∃ e ∈ task.exprs, x ∈ e.names := fun x ⟨e, he, hx⟩ =>
    ⟨_, hmem, Head.mem_names_build.2 (.inr ⟨e, htasks e he, hx⟩)⟩
  refine .one h.tables (fun z hz => ?_) (fun z hz => ?_) (fun z hz => ?_) (by simp [hsymbol]) fun hfree => ?_
  · rcases Head.mem_names_build.1 hz with hz | ⟨e, he, hz⟩
    · exact (hpast z (Head.mem_names_build.2 (.inl hz))).mono hd
    · obtain ⟨r, hr, rfl⟩ := mem_map.1 he
      exact h.past r hr z hz
  · rcases Head.mem_names_build.1 hz with hz | ⟨e, he, hz⟩
    · exact .inl ⟨_, hmem, Head.mem_names_build.2 (.inl hz)⟩
    · obtain ⟨r, hr, rfl⟩ := mem_map.1 he
      exact (h.origins r hr z hz).imp hparts
  · refine (Head.tupleNames_build (fun e he z hz => ?_) (fun e he z hz => ?_) z hz).imp_right fun hz =>
      mem_tupleNamesAll.2 ⟨_, hmem, hz⟩
    · obtain ⟨r, hr, rfl⟩ := mem_map.1 he
      exact (h.names r hr z hz).imp_right fun ⟨e, he, hz⟩ => ⟨e, htasks e he, hz⟩
    · obtain ⟨r, hr, rfl⟩ := mem_map.1 he
      refine (h.tuples r hr z hz).imp_right fun hz => ?_
      obtain ⟨e, he, hz⟩ := mem_tupleNamesAll.1 hz
      exact mem_tupleNamesAll.2 ⟨e, htasks e he, hz⟩
  · have hbuilt := hfree _ hmem
    exact Head.isCallFree_build hbuilt
      (forall_mem_map.2 (h.callFree fun e he => Head.isCallFree_parts hbuilt e (htasks e he)))

theorem Notes.recast (h : Notes F B S task [(e, completion)] s' G free)
    (hexprs : task'.exprs = task.exprs)
    (hsymbol : task'.symbol? = none) : Notes F B S task' [(e, completion')] s' G free :=
  .one h.tables (h.past _ mem_cons_self) (hexprs ▸ h.origins _ mem_cons_self)
    (hexprs ▸ h.tuples _ mem_cons_self) (by simp [hsymbol]) (hexprs ▸ fun hf => h.callFree hf _ mem_cons_self)

theorem Notes.temporary {n : Nat} (h : Notes F B S task' [(e, completion)] s' G free)
    (hexprs : task'.exprs = [.name y typing]) (hsymbol : task'.symbol? = some y) (hy : y = "_sync" ++ toString n)
    (hF : F y) (hnone : task.symbol? = none) : Notes F B S task [(e, completion')] s' G free := by
  have hpast := h.past _ mem_cons_self
  have hdrawn : ∀ {z typing'}, e = .name z typing' → IsDrawn z → StandsFor y z →
      Notes F B S task [(e, completion')] s' G free := by
    rintro z typing' rfl hz hstands
    exact .drawn h.tables hz (hpast z (by simp)) hstands hF (.inr ⟨n, hy⟩) (by simp [hnone])
  rcases h.isName y hsymbol _ mem_cons_self with hkept | ⟨z, typing', he, hz, hstands⟩
  · rw [hexprs] at hkept
    exact hdrawn (mem_singleton.1 hkept) (.inr ⟨n, hy⟩) .refl
  · exact hdrawn he hz hstands

theorem Notes.recorded (hk : Kinds F B S G) (h : Notes F B S task results s' G free)
    (hnames : ∀ e ∈ task.exprs, ∀ z ∈ e.names, B z) :
    ∀ e ∈ results.map Prod.fst, ∀ z ∈ e.names, B z ∧ s'.Past z := by
  intro e he z hz
  obtain ⟨r, hr, rfl⟩ := mem_map.1 he
  refine ⟨?_, h.past r hr z hz⟩
  rcases h.names r hr z hz with hdrawn | ⟨f, hf, hz⟩
  · exact hk.drawn z hdrawn
  · exact hnames f hf z hz

theorem Notes.areCallFree (h : Notes F B S task results s' G free)
    (hfree : ∀ e ∈ task.exprs, e.isCallFree = true) : areCallFree (results.map Prod.fst) = true :=
  areCallFree_iff.2 (forall_mem_map.2 (h.callFree hfree))

theorem Notes.cons {r : Expr × Completion} {t : State} (h : Notes F B S task [r] t G free)
    (h' : Notes F B S (.all tasks) results s' G free) (hd : t.Draws s') :
    Notes F B S (.all (task :: tasks)) (r :: results) s' G free := by
  refine ⟨h'.tables, forall_mem_cons.2 ⟨fun z hz => ?_, h'.past⟩, forall_mem_cons.2 ⟨fun z hz => ?_,
    fun r hmem z hz => ?_⟩, fun r hmem z hz => ?_, by simp [Task.symbol?],
    fun hfree => forall_mem_cons.2 ⟨?_, ?_⟩⟩
  · exact (h.past _ mem_cons_self z hz).mono hd
  · exact (h.origins _ mem_cons_self z hz).imp fun _ => .imp fun _ => .imp_left (mem_append_left _)
  · exact (h'.origins r hmem z hz).imp fun _ => .imp fun _ => .imp_left (mem_append_right _)
  · simp only [Task.exprs, Task.exprsAll, mem_tupleNamesAll, mem_append]
    rcases mem_cons.1 hmem with rfl | hmem
    · refine (h.tuples r mem_cons_self z hz).imp_right fun hz => ?_
      obtain ⟨e, he, hz⟩ := mem_tupleNamesAll.1 hz
      exact ⟨e, .inl he, hz⟩
    · refine (h'.tuples r hmem z hz).imp_right fun hz => ?_
      obtain ⟨e, he, hz⟩ := mem_tupleNamesAll.1 hz
      exact ⟨e, .inr he, hz⟩
  · exact h.callFree (fun e he => hfree e (mem_append_left _ he)) _ mem_cons_self
  · exact h'.callFree fun e he => hfree e (mem_append_right _ he)

/-- From now on a name is read under what its stand-in was forced to, if that is another one. -/
theorem Notes.demandName {demand : Ty} (hk : Kinds F B S G)
    (hr : (Task.demand (.name x typing) demand).Fits Γ.registry F B S s G free)
    (h : Notes F B S (.named (s.current (.name x typing)) demand) [(e, completion)] s' G free) (hd : s.Draws s') :
    Notes F B S (.demand (.name x typing) demand) [(e, completion)]
      (if e ≠ s.current (.name x typing) then s'.substitute x e else s') G free := by
  obtain ⟨y, _, hy, -, -, hstands⟩ := hr.current hk rfl (by simp)
  have hpx := hr.past _ mem_cons_self x (by simp)
  have hFx := hr.forced x (by simp)
  rcases h.isName y (by rw [hy]; rfl) _ mem_cons_self with hkept | ⟨w, typing'', rfl, hdrawn, hstands'⟩
  · have he : e = s.current (.name x typing) := mem_singleton.1 hkept
    rw [if_neg (not_not_intro he), he]
    exact .current h.tables rfl rfl hr.tables hd hpx
  · have hpw := h.past _ mem_cons_self w (by simp)
    have hxw := hstands.trans hstands'
    split
    · exact .ofName (h.tables.substitute ⟨hFx, hpx.mono hd, w, typing'', rfl, hdrawn, hxw, hpw⟩) rfl rfl rfl hFx
        hdrawn hxw (hpw.mono (grows_substitute _ _ _).draws)
    · exact .ofName h.tables rfl rfl rfl hFx hdrawn hxw hpw

theorem Task.Fits.hoist (h : task.Fits Γ.registry F B S s G free) (hk : Kinds F B S G)
    {arguments arguments' : List Expr} {u : Task} (hexprs : task.exprs = [.apply f arguments typing])
    (hnames : task.forced Γ.registry = (apply f arguments typing).names)
    (hbuilds : free → (apply f arguments typing).buildsNoTuple = true)
    (hd : Derives Γ (.value (.apply f arguments typing)) s
      [(.apply f arguments' typing, completion)] binds s')
    (hn : Notes F B S (.value (.apply f arguments typing))
      [(.apply f arguments' typing, completion)] s' G free)
    (hexprs' : u.exprs = [(apply f arguments' typing).renamed s'.temporaries.next.1])
    (hforced : ∀ z ∈ u.forced Γ.registry, z = s'.temporaries.next.1)
    (hreturns : u.returns = true → task.returns = true) (hplain : u.isPlain = true) :
    u.Fits Γ.registry F B S (s'.hoisted Γ.entry (.apply f arguments' typing) completion) G free := by
  have hstems := h.stems.mono hd.grows
  have hdrawn : IsDrawn s'.temporaries.next.1 := isDrawn_temporary hstems
  have hgrows := s'.grows_hoisted Γ.entry (.apply f arguments' typing) completion
  refine h.name (hd.grows.trans hgrows)
    (hn.tables.hoisted hstems hk.keyed (fun hf => callee_of_builds (hbuilds hf)) fun hf e he z hz => ?_) hexprs' rfl
    (past_temporary hstems (Nat.lt_succ_self _)) (hk.realized _ hdrawn)
    (by obtain ⟨⟨callee, hf⟩, -⟩ := hd.value_apply; simp [hnames, names_of_symbol hf])
    (fun z hz => by simp [hforced z hz, renamed]) hreturns hplain
  have hbuilt : z ∈ (apply f arguments' typing).tupleNames := by
    rw [tupleNames, if_pos hf]
    exact mem_namesAll.2 ⟨e, he, hz⟩
  refine ⟨?_, hn.past _ mem_cons_self z (names_of_tupleNames hbuilt)⟩
  rcases hn.tuples _ mem_cons_self z hbuilt with hz | hz
  · exact hk.drawn z hz
  · exact h.built z (by rw [hexprs]; exact hz)

/-- Tasks keep to the kinds of names that the tables know of. -/
theorem Derives.noted (hk : Kinds F B S G) (h : Derives Γ task s results binds s')
    (hr : task.Fits Γ.registry F B S s G free) : Notes F B S task results s' G free := by
  have hstorage : ∀ {x}, F x → ∀ w, x = Name.container w → S w := fun hx w hw => hk.storage w (hw ▸ hx)
  induction h with
  | nil => exact ⟨hr.tables, by simp, by simp, by simp, by simp [Task.symbol?], by simp⟩
  | cons h₁ h₂ ih₁ ih₂ =>
    have n₁ := ih₁ hr.head
    exact n₁.cons (ih₂ (hr.tail h₁.grows n₁.tables)) h₂.grows.draws
  | name | returnedName => exact .current hr.tables rfl rfl hr.tables (.refl _) (hr.past _ mem_cons_self _ (by simp))
  | literal | demandLiteral | returnedLiteral => exact .kept hr.tables mem_cons_self (by simp)
  | @node head _ _ _ _ _ _ h _ ih =>
    exact (ih hr.values).build rfl (by cases head <;> rfl) (by simp) (hr.past _ mem_cons_self) h.grows.draws
  | @forcing f _ typing _ _ _ _ _ _ _ _ hf hcallee hs hforces _ h ih =>
    exact Notes.build (k := .call f typing)
      (ih (hr.arguments (forces_of_signature hf hcallee hs hforces))) rfl rfl
      (fun e => Task.mem_exprsAll_demands) (hr.past _ mem_cons_self) h.grows.draws
  | demandName h ih => exact .demandName hk hr (ih (hr.named hk)) h.grows.draws
  | @demandNode head _ _ _ _ _ _ _ _ h ih =>
    exact (ih hr.demandParts).build rfl (by cases head <;> rfl) (fun e => Task.mem_exprsAll_demands)
      (hr.past _ mem_cons_self) h.grows.draws
  | demandCall _ _ ih | returnedClosure _ ih | returnedCall _ _ ih => exact (ih (hr.read rfl rfl)).recast rfl rfl
  | demandHoisted h _ _ ih ih' | returnedHoisted h _ _ _ ih ih' =>
    have n := ih (hr.read rfl rfl)
    have hstems := hr.stems.mono h.grows
    obtain ⟨-, arguments, rfl⟩ := h.value_apply
    exact (ih' (hr.hoist hk rfl rfl hr.plain h n rfl (fun _ => mem_singleton.1) id rfl)).temporary rfl rfl hstems.next
      (hk.realized _ (State.isDrawn_temporary hstems)) rfl
  | met => exact .kept hr.tables mem_cons_self (hr.past _ mem_cons_self)
  | closureKept hx hclosure h ih =>
    exact .kept (ih (hr.closure hx hclosure)).tables mem_cons_self
      fun z hz => (hr.past _ mem_cons_self z hz).mono h.grows.draws
  | @closureRebuilt e _ _ _ x _ _ _ hx hclosure h _ ih =>
    have n := ih (hr.closure hx hclosure)
    obtain ⟨⟨f, captured, typing, rfl⟩, -, -, hfree, hnames⟩ := hr.tables.tables.closures hclosure
    obtain ⟨captured', rfl⟩ := h.demand_closure
    have hforced := n.recorded hk (fun e he z hz => (hnames e he z hz).1) _ mem_cons_self
    have hFx := hr.forced x (by simp [names_of_symbol hx])
    have hpast := (hr.past _ mem_cons_self x (by simp [names_of_symbol hx])).mono h.grows.draws
    have hstems' := hr.stems.mono h.grows
    exact .derived (n.tables.reclosed hstems' hk.keyed hpast ⟨_, _, _, rfl⟩
        (fun hf => n.callFree (areCallFree_iff.1 (hfree hf)) _ mem_cons_self) hforced) rfl rfl hx hFx .refl
      hstems' hpast (grows_reclosed _ _ _ _).draws (Nat.lt_succ_self _)
  | tupleKept hx _ _ hfields h _ ih =>
    exact .kept (ih (hr.fields hx hfields)).tables mem_cons_self
      fun z hz => (hr.past _ mem_cons_self z hz).mono h.grows.draws
  | @tupleRebuilt e _ x _ _ _ _ _ hx _ _ hfields h _ ih =>
    have n := ih (hr.fields hx hfields)
    obtain ⟨-, -, hfree, hnames⟩ := hr.tables.tables.fields hfields
    have hforced := n.recorded hk fun e he z hz => (hnames e (Task.mem_exprsAll_demands he) z hz).1
    have hFx := hr.forced x (by simp [names_of_symbol hx])
    have hpast := (hr.past _ mem_cons_self x (by simp [names_of_symbol hx])).mono h.grows.draws
    have hstems' := hr.stems.mono h.grows
    exact .derived (n.tables.rebuilt hstems' hk.keyed hFx hpast (hstorage hFx) (fun hf => n.areCallFree fun e he =>
        areCallFree_iff.1 (hfree hf) e (Task.mem_exprsAll_demands he)) hforced) rfl rfl hx hFx .refl
      hstems' hpast (grows_rebuilt _ _ _ _).draws (Nat.lt_succ_self _)
  | @realized _ _ x _ _ hx _ _ _ _ _ =>
    have hFx := hr.forced x (by simp [names_of_symbol hx])
    have hpast := hr.past _ mem_cons_self x (by simp [names_of_symbol hx])
    exact .derived (hr.tables.realized hr.stems hFx hpast (hstorage hFx)) rfl rfl hx hFx .refl hr.stems hpast
      (grows_realized _ _ _ _).draws (Nat.lt_succ_self _)
  | @returnedRealized _ x _ _ _ _ hy _ _ _ =>
    obtain ⟨z, typing', hz, hFy, hpast, hstands⟩ := hr.current hk rfl (by simp)
    rw [hz] at hy
    cases hy
    exact .derived (hr.tables.realized hr.stems hFy hpast (hstorage hFy)) rfl rfl rfl
      (hr.forced x (by simp)) hstands hr.stems hpast (grows_realized _ _ _ _).draws
      (Nat.lt_succ_self _)
  | @returnedTupleKept _ _ x _ _ _ _ _ _ _ hfields h _ _ ih =>
    exact .current (ih (hr.returnedFields hfields)).tables rfl rfl hr.tables h.grows.draws
      (hr.past _ mem_cons_self x (by simp))
  | @returnedTupleRebuilt _ _ x _ _ _ _ _ _ _ _ hy hfields h _ hstored ih =>
    have n := ih (hr.returnedFields hfields)
    obtain ⟨z, typing', hz, hFy, hpast, hstands⟩ := hr.current hk rfl (by simp)
    rw [hz] at hy
    cases hy
    obtain ⟨-, -, hfree, hnames⟩ := hr.tables.tables.fields hfields
    have hforced := n.recorded hk fun e he z hz => (hnames e (by simpa using he) z hz).1
    have hstems' := hr.stems.mono h.grows
    have hpast' := hpast.mono h.grows.draws
    exact .derived (n.tables.rebuilt hstems' hk.keyed hFy hpast' (hstorage hFy)
        (fun hf => areCallFree_stored (n.areCallFree fun e he =>
          areCallFree_iff.1 (hfree hf) e (by simpa using he)) hstored)
        (n.tables.stored (hr.contained rfl) hforced hstored)) rfl rfl rfl
      (hr.forced x (by simp)) hstands hstems' hpast' (grows_rebuilt _ _ _ _).draws
      (Nat.lt_succ_self _)
  | @returnedTuple _ typing _ _ _ _ h ih =>
    exact Notes.build (k := .tuple typing) (ih hr.elements) rfl rfl (by simp) (hr.past _ mem_cons_self) h.grows.draws

end

end Phases
end DataParallel
