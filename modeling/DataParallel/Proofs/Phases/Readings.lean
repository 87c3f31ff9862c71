import DataParallel.Proofs.Phases.Tracking

/-! What reading tuples, closures and calls gives.

A tuple or closure gives what its parts give. A call breaches only if it forces its arguments and
one of them is given with something pending. -/

namespace DataParallel

open List DataParallel.Expr
open Phases (Head resolveDemand fieldDemands)

variable {registry : Registry} {f : Expr} {ty : Ty} {c c' : Progress} {demands : List Ty} {fields : List Expr}

theorem Expr.forces_of_role (h : f.role registry = .forces ty) : f.forces registry = true := by
  unfold role at h
  split at h
  · cases h
  · rename_i callee hf
    split at h
    · cases h
    · rename_i htuple
      split at h
      · cases h
      · rename_i hproject
        split at h
        · cases h
        · rename_i hboundary
          split at h
          · cases h
          · rename_i hsequence
            split at h
            · rename_i signature hs
              split at h
              · rename_i hforces
                simp [forces, hf, Name.Snippet.isSnippet, htuple, hproject, hboundary, hsequence, hs, hforces]
              · cases h
              · cases h
            · cases h

namespace Progress

variable {k : Head} {d : Progress} {e : Expr} {es parts : List Expr} {typing : Typing}
  {vs : List Content} {D : String → Bool} {demand : Ty} {v : Content}

theorem breached_call_of_not_forces (h : f.forces registry = false) :
    (c.call registry f es typing vs).2.breached = c.breached := by
  unfold call
  split
  · rfl
  · rfl
  · rfl
  · rename_i hrole
    rw [forces_of_role hrole] at h
    cases h
  · split <;> rfl
  · rfl

theorem read_of_forces (h : f.forces registry = true) :
    (c.read registry (.apply f es typing)).1 = .plain := by
  cases hf : f.symbol? with
  | none => simp [forces, hf] at h
  | some callee =>
    cases hs : registry.get? callee with
    | none => simp [forces, hf, hs] at h
    | some signature =>
      simp only [forces, hf, hs, Option.any_some, Bool.and_eq_true, Bool.not_eq_true', decide_eq_true_eq] at h
      have hrole : f.role registry = .forces signature.ty := by rw [Phases.role_of_registered hf h.1 hs, h.2]
      rw [read]
      simp only [call, hrole]

theorem Fine.build (hk : ∀ f typing, k = .call f typing → f.forces registry = false)
    (h : ∀ e ∈ parts, Fine registry c e) : Fine registry c (k.build parts) := by
  have hparts : ∀ d, Agrees (· ∈ forcedNamesAll registry parts) c d →
      (d.readAll registry parts).2.breached = d.breached := by
    intro d hd
    refine breached_readAll (fun e he d hd => h e he d (hd.mono fun z hz => ?_)) hd
    exact mem_forcedNamesAll.2 ⟨e, he, hz⟩
  cases k with
  | tuple typing => exact hparts
  | closure f typing => exact hparts
  | call f typing =>
    intro d hd
    have hforces := hk f typing rfl
    rw [Head.build, forcedNames, hforces] at hd
    exact (breached_call_of_not_forces hforces).trans (hparts d hd)

theorem names_of_part (he : e ∈ parts) : ∀ z ∈ e.names, z ∈ (k.build parts).names :=
  fun _ hz => Head.mem_names_build.2 (.inr ⟨e, he, hz⟩)

theorem gives_parts {Q : Progress → Content → Prop}
    (hmono : ∀ {d d' v}, Q d v → d.realized ⊆ d'.realized → Q d' v)
    (h : ∀ e ∈ parts, Gives registry c e Q) (hd : Agrees (· ∈ (k.build parts).names) c d) :
    ∀ v ∈ (d.readAll registry parts).1, Q (d.readAll registry parts).2 v :=
  readAll_forall hmono (fun e he d hd => h e he d (hd.mono (names_of_part he))) hd

theorem gives_parts₂ {β : Type} {bs : List β} {Q : β → Progress → Content → Prop}
    (hmono : ∀ {b d d' v}, Q b d v → d.realized ⊆ d'.realized → Q b d' v)
    (h : Forall₂ (fun e b => Gives registry c e (Q b)) parts bs) (hd : Agrees (· ∈ (k.build parts).names) c d) :
    Forall₂ (fun b v => Q b (d.readAll registry parts).2 v) bs (d.readAll registry parts).1 := by
  refine readAll_forall₂ (A := (· ∈ (k.build parts).names)) hmono ?_ hd
  refine forall₂_iff_get.2 ⟨h.length_eq, fun i hi hi' d hd => ?_⟩
  exact (forall₂_iff_get.1 h).2 i hi hi' d (hd.mono (names_of_part (get_mem parts ⟨i, hi⟩)))

mutual

theorem isData_read :
    ∀ {c : Progress} {e : Expr}, (∀ x ∈ e.names, D x = true → (c.store x).isData = true) →
    e.isCareful registry D = true → e.isData D = true → (c.read registry e).1.isData = true
  | _, .name x _, hc, _, he => hc x mem_cons_self he
  | _, .literal .., _, _, _ => rfl
  | _, .tuple _ _, hc, hcareful, he => areData_readAll hc hcareful he
  | c, .apply f es typing, hc, hcareful, _ => by
    obtain ⟨hcareful, hdata, -⟩ := isCareful_apply.1 hcareful
    have hvs : (f.role registry).handsOn = true → Content.areData (c.readAll registry es).1 = true :=
      fun hrole => areData_readAll (fun x hx => hc x (mem_append_right _ hx)) hcareful (hdata hrole)
    have hfirst : (f.role registry).handsOn = true →
        ((c.readAll registry es).1.headD .plain).isData = true := by
      intro hrole
      have hvs := hvs hrole
      cases hread : (c.readAll registry es).1 with
      | nil => rfl
      | cons v vs =>
        rw [hread, Content.areData, Bool.and_eq_true] at hvs
        exact hvs.1
    show ((c.readAll registry es).2.call registry f es typing
      (c.readAll registry es).1).1.isData = true
    unfold call
    split
    · rename_i hrole
      exact hvs (by rw [hrole]; rfl)
    · rename_i index hrole
      exact Content.isData_field (hfirst (by rw [hrole]; rfl)) index typing.ty
    · rename_i hrole
      exact hfirst (by rw [hrole]; rfl)
    · rfl
    · split <;> rfl
    · rfl

theorem areData_readAll : ∀ {c : Progress} {es : List Expr},
    (∀ x ∈ namesAll es, D x = true → (c.store x).isData = true) → areCareful registry D es = true →
    areData D es = true → Content.areData (c.readAll registry es).1 = true
  | _, [], _, _, _ => rfl
  | c, e :: rest, hc, hcareful, hes => by
    rw [areCareful, Bool.and_eq_true] at hcareful
    rw [areData, Bool.and_eq_true] at hes
    have hc' : ∀ x ∈ namesAll rest, D x = true → (((c.read registry e).2).store x).isData = true := by
      rw [store_read]
      exact fun x hx => hc x (mem_append_right _ hx)
    show (Content.isData (c.read registry e).1 &&
      Content.areData ((c.read registry e).2.readAll registry rest).1) = true
    rw [isData_read (fun x hx => hc x (mem_append_left _ hx)) hcareful.1 hes.1, areData_readAll hc' hcareful.2 hes.2]
    rfl

end

/-- All that a demand may ask of the argument of a call: what the type demands, and what closures
captured. -/
def Serves (ty : Ty) (c : Progress) (v : Content) : Prop := c.Meets v ty ∧ c.Bare v

theorem Serves.mono (h : Serves ty c v) (hr : c.realized ⊆ c'.realized) : Serves ty c' v :=
  ⟨h.1.mono hr, h.2.mono hr⟩

theorem demandedAll_done (h : Forall₂ (fun ty v => c.Meets v ty) demands vs) :
    ∀ key ∈ Content.demandedAll vs demands, c.IsDone key := by
  intro key hkey
  induction h with
  | nil => cases hkey
  | cons hv _ ih =>
    rw [Content.demandedAll, mem_append] at hkey
    exact hkey.elim (hv key) ih

theorem bare_all (h : ∀ v ∈ vs, c.Bare v) : ∀ key ∈ Content.capturesAll vs, c.IsDone key := by
  intro key hkey
  obtain ⟨v, hv, hkey⟩ := Content.mem_capturesAll.1 hkey
  exact h v hv key hkey

theorem bare_of_serves (h : Forall₂ (fun ty v => Serves ty c v) demands vs) :
    ∀ v ∈ vs, c.Bare v := by
  induction h with
  | nil => exact nofun
  | cons hv _ ih => exact forall_mem_cons.2 ⟨hv.2, ih⟩

theorem meets_of_resolved (h : (resolveDemand demand ty).isAggregate = false) :
    c.Meets v demand := by
  rw [resolveDemand] at h
  split at h
  · rename_i hvariable
    refine meets_of_not_aggregate ?_
    cases demand with
    | named => rfl
    | _ => cases hvariable
  · exact meets_of_not_aggregate h

theorem meets_tuple (hlength : fields.length = vs.length)
    (h : Forall₂ (fun ty v => c.Meets v ty) (fieldDemands (resolveDemand demand ty) fields) vs) :
    c.Meets (.tuple vs) demand := by
  intro key hkey
  rw [Content.demanded] at hkey
  split at hkey
  · rename_i demands hdemands
    split at hkey
    · rename_i hsame
      have hresolved : resolveDemand demand ty = demand := by
        cases demand with
        | tuple => rfl
        | _ => cases hdemands
      rw [hresolved, fieldDemands, hdemands] at h
      simp only [hsame, hlength, if_true] at h
      exact demandedAll_done h key hkey
    · cases hkey
  · cases hkey

theorem serves_contents (hfree : areCallFree fields = true)
    (h : Forall₂ (fun e ty => Gives registry c e (Serves ty)) fields demands) :
    Forall₂ (fun ty v => Serves ty c v) demands (contents c.store fields) := by
  have hall := gives_parts₂ (k := .tuple default) (Q := Serves) (fun h hr => h.mono hr) h (.refl _ c)
  rwa [readAll_of_callFree fields hfree] at hall

theorem Fine.forcing {result : Ty} {parameters : List Ty} (hrole : f.role registry = .forces ty)
    (hinstance : ty.instantiate? (es.map Expr.ty) = some (parameters, result))
    (hforces : f.forces registry = true) (hfine : ∀ e ∈ es, Fine registry c e)
    (h : Forall₂ (fun e ty => Gives registry c e (Serves ty)) es parameters) :
    Fine registry c (.apply f es typing) := by
  intro d hd
  rw [forcedNames, hforces, if_pos rfl] at hd
  have hbreached : (d.readAll registry es).2.breached = d.breached := by
    refine breached_readAll (fun e he d hd => hfine e he d (hd.mono fun z hz => ?_)) hd
    exact mem_namesAll.2 ⟨e, he, names_of_forced hz⟩
  have hall := gives_parts₂ (k := .tuple typing) (Q := Serves) (fun h hr => h.mono hr) h hd
  have hgiven : ∀ key ∈ given ty es (d.readAll registry es).1,
      (d.readAll registry es).2.IsDone key := by
    intro key hkey
    rw [given, hinstance, mem_append] at hkey
    rcases hkey with hkey | hkey
    · exact demandedAll_done (hall.imp fun _ _ hserves => hserves.1) key hkey
    · exact bare_all (bare_of_serves hall) key hkey
  show ((d.readAll registry es).2.call registry f es typing
    (d.readAll registry es).1).2.breached = d.breached
  unfold call
  simp only [hrole, hbreached, decide_eq_true hgiven, Bool.not_true, Bool.or_false]

variable {binds : List Stmt}

section Later
variable {x y : String} {A B : String → Prop}

theorem Agrees.store_tuple (hd : Agrees A c c') (hx : A x)
    (hnames : ∀ e ∈ fields, ∀ z ∈ e.names, B z ∧ A z)
    (hstore : c.store x = .tuple (contents c.store fields)) :
    c'.store x = .tuple (contents c'.store fields) := by
  have hsame : contents c'.store fields = contents c.store fields := by
    refine contents_congr fun z hz => ?_
    obtain ⟨e, he, hz⟩ := mem_namesAll.1 hz
    exact hd.store z (hnames e he z hz).2
  rw [hd.store x hx, hstore, hsame]

theorem gives_later (h : Forall₂ (fun e ty => Gives registry c e (Serves ty)) fields demands)
    (hd : ∀ e ∈ fields, Agrees (· ∈ e.names) c c') :
    Forall₂ (fun e ty => Gives registry c' e (Serves ty)) fields demands := by
  induction h with
  | nil => exact .nil
  | cons he _ ih => exact .cons (he.later (hd _ mem_cons_self)) (ih fun e he => hd e (mem_cons_of_mem _ he))

theorem agrees_one {target value : Expr} (hy : target.symbol? = some y) (hA : ∀ z, A z → z ≠ y) :
    Agrees A c (c.after registry [.bind target value]) := by
  refine ⟨fun z hz => ?_, ?_⟩
  · rw [after_one, store_bind hy, Function.update_of_ne (hA z hz)]
  · rw [after_one, realized_bind hy]
    exact realized_read c value

end Later

theorem agrees_after (h : ∀ s ∈ binds, s.IsBind) :
    Agrees (fun z => z ∉ Stmt.localNames binds) c (c.after registry binds) := by
  induction binds generalizing c with
  | nil => exact .refl _ _
  | cons s binds ih =>
    obtain ⟨target, value, x, rfl, hx⟩ := h s mem_cons_self
    have hbind : Agrees (fun z => z ∉ Stmt.localNames (.bind target value :: binds)) c (c.bind registry target value) :=
      agrees_one hx fun z hz hzx => hz (hzx ▸ Stmt.mem_localNames_bind hx)
    exact hbind.trans ((ih fun st hst => h st (mem_cons_of_mem _ hst)).mono fun z hz hmem =>
      hz (Stmt.mem_localNames_rest hmem))

end Progress

end DataParallel
