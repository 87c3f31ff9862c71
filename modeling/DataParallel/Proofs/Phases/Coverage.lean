import DataParallel.Proofs.Phases.Mentions

/-! What blocks leave on record, and for which names there is storage on record.

The tables of a scope are known from those in front of it, from what its binds leave on record and,
for completions, from what its blocks knew at their ends. -/

namespace DataParallel

open List Name Phases.State DataParallel.Expr

/-- Whether a bind of the value may leave a tuple or a closure on record. -/
def Expr.isRecord : Expr → Bool
  | .name .. | .closure .. => true
  | .apply function _ _ => function.symbol? = some Snippet.makeTuple
  | _ => false

namespace Phases

variable {Γ : Context} {B F G G' S : String → Prop} {free : Prop} {s s' t u : State} {e : Expr}
  {completion : Completion} {binds body : List Stmt} {x : String} {head : Table Completion} {selfResults : List String}
  {trips : List Trip} {registry : Registry}

section Records
variable {e' : Expr}
variable (hk : Kinds F B S G) (h : Derives Γ (.value e) s [(e', completion)] binds s')
  (hr : (Task.value e).Fits Γ.registry F B S s G free) (hparts : ∀ z ∈ e.builtNames, B z)
include hk h hr hparts

theorem Derives.recorded_names (hfree : free → e.isRecordable = true) :
    (∀ fields, s'.recordedFields e' = some fields → e.isRecord = true ∧ (free → areCallFree fields = true) ∧
      ∀ f ∈ fields, ∀ z ∈ f.names, B z ∧ s'.Past z) ∧
    ∀ f, s'.recordedClosure e' = some f → e.isRecord = true ∧
      (∃ function captured typing, f = .closure function captured typing) ∧ (free → f.isCallFree = true) ∧
        ∀ z ∈ f.names, B z ∧ s'.Past z := by
  have n := h.noted hk hr
  rcases h.value_cases with ⟨y, typing, rfl, rfl, rfl⟩ | ⟨text, typing, rfl, rfl⟩ |
    ⟨k, parts, results, rfl, rfl, hparts'⟩ | ⟨function, arguments, arguments', typing, rfl, rfl, hforces⟩
  · obtain ⟨z, hz⟩ := n.tables.current_symbol y typing
    rw [eq_name_of_symbol hz]
    refine ⟨fun fields hf => ⟨rfl, (n.tables.tables.fields hf).2.2⟩, fun f hf => ?_⟩
    obtain ⟨hshape, -, -, hfree, hnames⟩ := n.tables.tables.closures hf
    exact ⟨rfl, hshape, fun h => areCallFree_iff.1 (hfree h) f mem_cons_self, hnames f mem_cons_self⟩
  · constructor <;> rintro _ ⟨⟩
  · have nparts := hparts'.noted hk hr.values
    cases k with
    | tuple => constructor <;> rintro _ ⟨⟩
    | closure function typing =>
      refine ⟨by rintro _ ⟨⟩, fun f hf => ?_⟩
      cases hf
      exact ⟨rfl, ⟨_, _, _, rfl⟩, fun h => n.callFree (forall_mem_singleton.2 (hfree h)) _ mem_cons_self,
        n.recorded hk (forall_mem_singleton.2 hparts) _ mem_cons_self⟩
    | call function typing =>
      refine ⟨fun fields hf => ?_, by rintro _ ⟨⟩⟩
      rw [Head.build, recordedFields_apply] at hf
      split at hf
      · rename_i hfunction
        cases hf
        simp only [Head.build, builtNames, isRecordable, hfunction, if_true] at hparts hfree
        refine ⟨by simp [Head.build, isRecord, hfunction], fun h => nparts.areCallFree fun f hf => ?_,
          nparts.recorded hk fun f hf z hz => hparts z (mem_namesAll.2 ⟨f, by simpa using hf, hz⟩)⟩
        exact areCallFree_iff.1 (hfree h) f (by simpa using hf)
      · cases hf
  · refine ⟨fun fields hf => ?_, by rintro _ ⟨⟩⟩
    rw [recordedFields_apply, if_neg (symbol_ne_of_forces hforces)] at hf
    cases hf

theorem Derives.noted_record (hpast : s'.Past x) (hx : e.isRecord = true → G x)
    (hstorage : ∀ w, x = container w → S w) (hfree : free → e.isRecordable = true) :
    (s'.record Γ.entry x e' completion).Noted F B S G free := by
  obtain ⟨hfields, hclosure⟩ := h.recorded_names hk hr hparts hfree
  exact (h.noted hk hr).tables.record hpast (fun fields hf => ⟨hx (hfields fields hf).1, (hfields fields hf).2⟩)
    (fun f hf => ⟨hx (hclosure f hf).1, (hclosure f hf).2⟩) hstorage

end Records

namespace State

theorem contains_setCompletions {completions : List (String × Completion)} :
    (s.setCompletions completions).completions.contains x = true ↔
      x ∈ completions.map Prod.fst ∨ s.completions.contains x = true := by
  induction completions generalizing s with
  | nil => simp [setCompletions]
  | cons entry rest ih =>
    rw [show s.setCompletions (entry :: rest) = (s.setCompletion entry.1 entry.2).setCompletions rest from rfl,
      ih, contains_setCompletion, map_cons, mem_cons, or_assoc, or_left_comm]

theorem completions_invalidateAll (names : List String) :
    (s.invalidateAll names).completions = s.completions := by
  induction names generalizing s with
  | nil => rfl
  | cons name rest ih => exact (@ih (s.invalidate name)).trans rfl

theorem contains_of_inner (h : x ∈ t.completions.inner.keys) : t.completions.contains x = true := by
  have hfound : (t.completions.inner.get? x).isSome = true := by
    obtain ⟨entry, hentry, rfl⟩ := mem_map.1 h
    rw [Table.get?, lookup_isSome_iff]
    exact ⟨entry, hentry, by simp⟩
  obtain ⟨c, hc⟩ := Option.isSome_iff_exists.1 hfound
  simp [Scopes.contains, Scopes.get?, hc]

theorem contains_enter : s.enter.completions.contains x = s.completions.contains x := by
  simp only [Scopes.contains, enter, Scopes.get?_enter]

theorem contains_joined (h : (s.joined t u).completions.contains x = true) :
    t.completions.contains x = true ∨ u.completions.contains x = true ∨ s.completions.contains x = true := by
  rw [joined, completions_invalidateAll, contains_setCompletions] at h
  rcases h with h | h
  · rw [joinBranches, map_map, mem_map] at h
    obtain ⟨y, hy, rfl⟩ := h
    rcases mem_append.1 hy with hy | hy
    · exact .inl (contains_of_inner hy)
    · exact .inr (.inl (contains_of_inner hy))
  · exact .inr (.inr h)

theorem contains_tripStart (h : (s.tripStart selfResults head).completions.contains x = true) :
    x ∈ head.keys ∨ s.completions.contains x = true := by
  rw [tripStart, contains_setCompletions] at h
  exact h.imp_right fun h => by rwa [contains_enter] at h

theorem contains_settled (h : (s.settled t head).completions.contains x = true) :
    t.completions.contains x = true ∨ s.completions.contains x = true := by
  rw [settled, contains_setCompletions] at h
  refine h.imp_left fun h => contains_of_inner ?_
  rwa [joinHead, map_map] at h

theorem RaisedBy.keys {K : String → Prop} (h : s.RaisedBy selfResults head trips)
    (htrips : ∀ trip ∈ trips, (∀ x ∈ trip.head.keys, K x) → ∀ x ∈ trip.state.completions.inner.keys, K x) :
    ∀ x ∈ head.keys, K x := by
  induction trips generalizing selfResults head with
  | nil =>
    obtain ⟨rfl, -⟩ := h
    intro x hx
    cases hx
  | cons trip earlier ih =>
    obtain ⟨⟨rfl, -⟩, h⟩ := h
    have hearlier := ih h fun trip hmem => htrips trip (mem_cons_of_mem _ hmem)
    have htrip := htrips trip mem_cons_self hearlier
    refine raiseHead_induction (P := fun raised => ∀ x ∈ raised.keys, K x) hearlier
      fun raised entry hentry hr x hx => ?_
    obtain ⟨e, he, rfl⟩ := mem_map.1 hentry
    rcases Table.mem_keys_put.1 hx with rfl | hx
    · exact htrip e.1 (mem_map.2 ⟨e, he, rfl⟩)
    · exact hr x hx

end State

def Covered (S : String → Prop) (z : String) : Prop := ∀ w, z = container w → S w

section Coverage
variable {block out : List Stmt} {task : Task}

theorem kinds_covered (S : String → Prop) : Kinds (Covered S) (Covered S) S where
  drawn _ hz w hw := absurd (hw ▸ hz) (container_not_drawn w)
  realized _ hz w hw := absurd (hw ▸ hz) (container_not_drawn w)
  storage w hw := hw w rfl
  keyed _ hz w hw := absurd (hw ▸ hz) (container_not_drawn w)

theorem State.Noted.covered (h : s.Noted F B S) (hF : ∀ z, F z → Covered S z)
    (hB : ∀ z, B z → Covered S z) : s.Noted (Covered S) (Covered S) S :=
  h.mono (fun _ => hF _) hB

section Scopes
variable {F' B' : String → Prop} {free' : Prop}

section
variable (h : s.Noted F B S G free)
include h

theorem State.Noted.flush : s.flush.Noted F B S G free :=
  h.forget (grows_flush s).draws (forgets_flush s) .inl

theorem State.Noted.invalidateAll (names : List String) :
    (s.invalidateAll names).Noted F B S G free :=
  h.forget (s.grows_invalidateAll names).draws (s.forgets_invalidateAll names) fun hx => .inl (by
    rwa [completions_invalidateAll] at hx)

theorem State.Noted.enter : s.enter.Noted F B S G free :=
  h.forget ⟨Nat.le_refl _, Nat.le_refl _⟩ (forgets_enter s) fun hx => .inl (by rwa [contains_enter] at hx)

theorem State.Noted.resume (ht : Grows s.enter t) : (s.resume t).Noted F B S G free :=
  h.forget (grows_resume ht).draws (s.forgets_resume t) .inl

theorem State.Noted.joined (hd : Draws s (s.joined t u)) (ht : t.Noted F' B' S G' free')
    (hu : u.Noted F' B' S G' free') : (s.joined t u).Noted F B S G free := by
  refine h.forget hd (s.forgets_joined t u) fun hx => ?_
  rcases contains_joined hx with hx | hx | hx
  · exact .inr (ht.storage hx)
  · exact .inr (hu.storage hx)
  · exact .inl hx

theorem State.Noted.tripStart (hhead : ∀ x ∈ head.keys, Covered S x) :
    (s.tripStart selfResults head).Noted F B S G free :=
  h.forget (grows_tripStart s selfResults head).draws (s.forgets_tripStart selfResults head) fun {x} hx =>
    (contains_tripStart hx).symm.imp_right fun hx => hhead _ hx x rfl

theorem State.Noted.settled (hd : Draws s (s.settled t head)) (ht : t.Noted F' B' S G' free') :
    (s.settled t head).Noted F B S G free :=
  h.forget hd (forgets_settled s t head) fun hx => (contains_settled hx).symm.imp_right ht.storage

end

theorem State.Stems.tripStart (h : s.Stems) : (s.tripStart selfResults head).Stems :=
  Stems.mono (show s.enter.Stems from h) (grows_tripStart s selfResults head)

theorem State.RaisedBy.covered (h : s.RaisedBy selfResults head trips) (hs : s.Stems)
    (hn : s.Noted (Covered S) (Covered S) S)
    (htrips : ∀ trip ∈ trips, (s.tripStart trip.selfResults trip.head).Stems →
      (s.tripStart trip.selfResults trip.head).Noted (Covered S) (Covered S) S →
      trip.state.Noted (Covered S) (Covered S) S) : ∀ x ∈ head.keys, Covered S x := by
  refine h.keys fun trip hmem hkeys x hx w hw => ?_
  exact (htrips trip hmem hs.tripStart (hn.tripStart hkeys)).storage (hw ▸ contains_of_inner hx)

end Scopes

/-- Drawn names, and names that the analysis may know something about. -/
def Among (names : List String) (z : String) : Prop := IsDrawn z ∨ z ∈ names

section Text
variable {known parts known' parts' names names' : List String} {z : String}

theorem Among.of_source (h : Among names z) (hz : ¬ IsDrawn z) : z ∈ names := h.resolve_left hz

theorem Among.mono (h : Among names z) (hsub : ∀ x ∈ names, x ∈ names') :
    Among names' z := h.imp_right (hsub z)

theorem kinds_among (hstorage : ∀ w, container w ∈ known ++ parts → S w)
    (hG : ∀ z, IsDrawn z → G z) : Kinds (Among (known ++ parts)) (Among parts) S G where
  drawn _ hz := .inl hz
  realized _ hz := .inl hz
  storage w hw := hstorage w (hw.of_source (container_not_drawn w))
  keyed := hG

section
variable (hs : s.Stems) (ht : s.Noted (Among (known ++ parts)) (Among parts) S G free)
  (hknown : ∀ x ∈ known ++ e.forcedNames registry, x ∈ known') (hparts : ∀ x ∈ parts ++ e.tupleNames, x ∈ parts')
  (he : ∀ z ∈ e.names, ¬ IsDrawn z) (hplain : free → e.partsBuildNoTuple = true)
include hknown hparts

theorem Among.grown (h : Among (known ++ parts) z) :
    Among (known' ++ parts') z := h.mono fun z hz => by
  rcases mem_append.1 hz with hz | hz
  · exact mem_append_left _ (hknown z (mem_append_left _ hz))
  · exact mem_append_right _ (hparts z (mem_append_left _ hz))

include hs ht he hplain

theorem Task.Fits.ofText
    (hG : ∀ x, (Among (known ++ parts) x → Among (known' ++ parts') x) → G x → G' x) :
    (Task.value e).Fits registry (Among (known' ++ parts')) (Among parts') S s G' free where
  stems := hs
  tables := ht.imp (fun {x} _ => ⟨fun hx => hx.grown hknown hparts, hG x fun hx => hx.grown hknown hparts⟩)
    fun z hz => hz.mono fun x hx => hparts x (mem_append_left _ hx)
  past f hf z hz := by
    cases mem_singleton.1 hf
    exact past_of_source (he z hz)
  forced z hz := .inr (mem_append_left _ (hknown z (mem_append_right _ hz)))
  reach _ z hz := hz.mono fun _ hx => mem_append_right _ hx
  built z hz := .inr (hparts z (mem_append_right _ (by simpa [tupleNamesAll] using hz)))
  contained hr := by cases hr
  plain := hplain

/-- The test of a loop can be read where the tables have forgotten what the body binds. -/
theorem Task.Fits.ofLoop
    (hG : ∀ x, (Among (known ++ parts) x → Among (known' ++ parts') x ∧ x ∉ Stmt.localNames body) → G x → G' x)
    (hbody : ∀ x ∈ Stmt.localNames body, x ∉ e.forcedNames registry)
    (hreach : e.forcedNames registry ≠ [] → ∀ x ∈ Stmt.localNames body, ¬ Among parts' x) :
    (Task.value e).Fits registry (fun z => Among (known' ++ parts') z ∧ z ∉ Stmt.localNames body)
      (Among parts') S (s.invalidateAll (bodyTargets body)) G' free := by
  have hforgets := s.forgets_invalidateAll (bodyTargets body)
  have hr : (Task.value e).Fits registry (Among (known' ++ parts')) (Among parts') S
      (s.invalidateAll (bodyTargets body)) G free :=
    .ofText (hs.mono (s.grows_invalidateAll (bodyTargets body))) (ht.invalidateAll _) hknown hparts he hplain
      fun _ _ => id
  have hkey : ∀ {x}, (∃ e, (s.invalidateAll (bodyTargets body)).standIn? x = some e) ∨
      (∃ fields, (s.invalidateAll (bodyTargets body)).componentsOf? x = some fields) ∨
      (∃ e, (s.invalidateAll (bodyTargets body)).closureOf? x = some e) → x ∉ Stmt.localNames body := by
    rintro x (⟨_, hx⟩ | ⟨_, hx⟩ | ⟨_, hx⟩) hmem
    · exact (hforgets.of_standIn hx).1 (mem_bodyTargets hmem)
    · exact (hforgets.of_fields hx).1 (mem_bodyTargets hmem)
    · exact (hforgets.of_closure hx).1 (mem_bodyTargets hmem)
  exact { hr with
    tables := hr.tables.imp (fun {x} hx => ⟨fun hF => ⟨hF, hkey hx⟩, hG x fun hF => ⟨hF.grown hknown hparts, hkey hx⟩⟩)
      fun _ => id
    forced := fun z hz => ⟨hr.forced z hz, fun hmem => hbody z hmem hz⟩
    reach := fun hne z hz => ⟨hr.reach hne z hz, fun hmem => hreach hne z hmem hz⟩ }

end

end Text

theorem Task.Fits.covered (hs : s.Stems) (ht : s.Noted (Covered S) (Covered S) S)
    (htext : ∀ e ∈ task.exprs, ∀ z ∈ e.names, ¬ IsDrawn z ∧ Covered S z)
    (hforced : ∀ z ∈ task.forced registry, ∃ e ∈ task.exprs, z ∈ e.names) :
    task.Fits registry (Covered S) (Covered S) S s where
  stems := hs
  tables := ht
  past e he z hz := past_of_source (htext e he z hz).1
  forced z hz := by
    obtain ⟨e, he, hz⟩ := hforced z hz
    exact (htext e he z hz).2
  built z hz := by
    obtain ⟨e, he, hz⟩ := mem_tupleNamesAll.1 hz
    exact (htext e he z (names_of_tupleNames hz)).2
  reach _ _ hz := hz
  contained _ z _ hz w hw := container_inj hw ▸ hz
  plain hf := hf.elim

structure Covering (S : String → Prop) (s : State) (block : List Stmt) : Prop where
  stems : s.Stems
  tables : s.Noted (Covered S) (Covered S) S
  text : ∀ z ∈ Stmt.namesAll block, ¬ IsDrawn z ∧ Covered S z

namespace Covering
variable {s₁ : State} {target value value' test : Expr} {stmt : Stmt} {rest whenTrue whenFalse : List Stmt}
  {results : List (Expr × Completion)}

theorem fits (h : Covering S s (stmt :: rest)) (he : ∀ z ∈ e.names, z ∈ stmt.names) :
    (Task.value e).Fits Γ.registry (Covered S) (Covered S) S s := by
  refine .covered h.stems h.tables (fun f hf z hz => ?_) fun z hz => ⟨e, mem_cons_self, names_of_forced hz⟩
  cases mem_singleton.1 hf
  exact h.text z (by simp [he z hz])

theorem tail (h : Covering S s (stmt :: rest)) (hs : t.Stems)
    (ht : t.Noted (Covered S) (Covered S) S) : Covering S t rest :=
  ⟨hs, ht, fun z hz => h.text z (by simp [hz])⟩

theorem bind (h : Covering S s (.bind target value :: rest)) (hx : target.symbol? = some x)
    (hd : Derives Γ (.value value) s [(value', completion)] binds s₁) :
    Covering S (s₁.record Γ.entry x value' completion).flush rest := by
  have hvalue : ∀ z ∈ value.names, ¬ IsDrawn z ∧ Covered S z :=
    fun z hz => h.text z (by simp [hz])
  have htarget := h.text x (by simp [names_of_symbol hx])
  have hrecord := hd.noted_record (kinds_covered S) (h.fits fun z hz => by simp [hz])
    (fun z hz => (hvalue z (names_of_built hz)).2) (past_of_source htarget.1) (fun _ => htarget.2) htarget.2
    False.elim
  exact h.tail ((h.stems.mono hd.grows).mono
    ((s₁.grows_record Γ.entry x value' completion).trans (grows_flush _))) hrecord.flush

section
variable (h : Covering S s (.ret value :: rest))
include h

theorem ret (hd : Derives Γ (.value value) s results binds s₁) : Covering S s₁.flush rest :=
  h.tail ((h.stems.mono hd.grows).mono (grows_flush _))
    (hd.noted (kinds_covered S) (h.fits fun z hz => by simp [hz])).tables.flush

theorem fitsReturned : (Task.returned value).Fits Γ.registry (Covered S) (Covered S) S s := by
  refine .covered h.stems h.tables (fun f hf z hz => ?_) fun z hz => ⟨value, mem_cons_self, hz⟩
  cases mem_singleton.1 hf
  exact h.text z (by simp [hz])

theorem entryRet (hd : Derives Γ (.returned value) s results binds s₁) : Covering S s₁.flush rest :=
  h.tail ((h.stems.mono hd.grows).mono (grows_flush _)) (hd.noted (kinds_covered S) h.fitsReturned).tables.flush

end

section Branch
variable (h : Covering S s (.branch test whenTrue whenFalse :: rest))
  (hd : Derives Γ (.value test) s results binds s₁)
include h hd

theorem behindTest : s₁.flush.Stems ∧ s₁.flush.Noted (Covered S) (Covered S) S :=
  ⟨(h.stems.mono hd.grows).mono (grows_flush _),
    (hd.noted (kinds_covered S) (h.fits fun z hz => by simp [hz])).tables.flush⟩

theorem ofTrue : Covering S s₁.flush.enter whenTrue :=
  ⟨(h.behindTest hd).1, (h.behindTest hd).2.enter, fun z hz => h.text z (by simp [hz])⟩

theorem ofFalse (ht : Grows s₁.flush.enter t) : Covering S (s₁.flush.resume t).enter whenFalse :=
  ⟨show (s₁.flush.resume t).Stems from (h.behindTest hd).1.mono (grows_resume ht),
    ((h.behindTest hd).2.resume ht).enter, fun z hz => h.text z (by simp [hz])⟩

theorem joined (hgrows : Grows s₁.flush (s₁.flush.joined t u))
    (ht : t.Noted (Covered S) (Covered S) S)
    (hu : u.Noted (Covered S) (Covered S) S) : Covering S (s₁.flush.joined t u) rest :=
  h.tail ((h.behindTest hd).1.mono hgrows) ((h.behindTest hd).2.joined hgrows.draws ht hu)

end Branch

section Loop

theorem atHead (h : Covering S s (.loop test body :: rest)) :
    Covering S (s.invalidateAll (bodyTargets body)) (.loop test body :: rest) :=
  ⟨h.stems.mono (s.grows_invalidateAll _), h.tables.invalidateAll _, h.text⟩

variable (h : Covering S s (.loop test body :: rest))
  (hd : Derives Γ (.value test) (s.invalidateAll (bodyTargets body)) results binds s₁)
include h hd

theorem behindHead : s₁.flush.Stems ∧ s₁.flush.Noted (Covered S) (Covered S) S :=
  ⟨(h.atHead.stems.mono hd.grows).mono (grows_flush _),
    (hd.noted (kinds_covered S) (h.atHead.fits fun z hz => by simp [hz])).tables.flush⟩

theorem ofTrip (hhead : ∀ x ∈ head.keys, Covered S x) :
    Covering S (s₁.flush.tripStart selfResults head) body :=
  ⟨(h.behindHead hd).1.tripStart, (h.behindHead hd).2.tripStart hhead, fun z hz => h.text z (by simp [hz])⟩

theorem settled (hgrows : Grows s₁.flush (s₁.flush.settled t head))
    (ht : t.Noted (Covered S) (Covered S) S) : Covering S (s₁.flush.settled t head) rest :=
  h.tail ((h.behindHead hd).1.mono hgrows) ((h.behindHead hd).2.settled hgrows.draws ht)

theorem tripKeys (hraised : s₁.flush.RaisedBy selfResults head trips)
    (htrips : ∀ trip ∈ trips, Covering S (s₁.flush.tripStart trip.selfResults trip.head) body →
      trip.state.Noted (Covered S) (Covered S) S) : ∀ x ∈ head.keys, Covered S x :=
  hraised.covered (h.behindHead hd).1 (h.behindHead hd).2 fun trip hmem hs hn => htrips trip hmem
    ⟨hs, hn, fun z hz => h.text z (by simp [hz])⟩

end Loop

end Covering

/-- Whatever a block does, there is storage on record only for names that are `S`. -/
theorem Analyzed.covered (h : Analyzed Γ block s out s') (hb : Covering S s block) :
    s'.Noted (Covered S) (Covered S) S := by
  induction h with
  | nil => exact hb.tables
  | bind hx hd _ ih => exact ih (hb.bind hx hd)
  | ret _ hd _ ih => exact ih (hb.ret hd)
  | entryRet _ hd _ ih => exact ih (hb.entryRet hd)
  | branch hd ht hu _ iht ihu ih =>
    exact ih (hb.joined hd (grows_joined ht.grows hu.grows) (iht (hb.ofTrue hd)) (ihu (hb.ofFalse hd ht.grows)))
  | loop hd hraised _ htrip _ _ ihtrips iht ih =>
    have hhead := hb.tripKeys hd hraised ihtrips
    exact ih (hb.settled hd (grows_settled htrip.grows) (iht (hb.ofTrip hd hhead)))

end Coverage

end Phases
end DataParallel
