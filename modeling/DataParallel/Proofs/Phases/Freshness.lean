import DataParallel.Proofs.Phases.Mentions

/-! Realized names are read as long as what they stand for is not bound again.

A clock gives every bind a time. A name that was drawn to be read in place of another is stale if
the other was bound later. Runs over clocks take both ways at every branch and any number of trips
through every loop, and note what the last statement read stale. -/

namespace DataParallel

open List Name

variable {c c' : Clock} {x y : String} {block : List Stmt} {o : Outcome Clock Unit}

structure Clock where
  time : Nat
  /-- When names were last bound; zero for names that were not bound. -/
  stamps : String → Nat
  /-- What the last statement read although it was stale. -/
  stale : String → Prop

namespace Clock

def start : Clock := ⟨0, fun _ => 0, fun _ => False⟩

def Stale (c : Clock) (y : String) : Prop := ∃ x, StandsFor x y ∧ x ≠ y ∧ c.stamps y ≤ c.stamps x

/-- Every expression reads all its names. The bind of a realized name puts it in the place of
another, and what it reads is not read in the place of anything. -/
def machine : Machine Clock Unit where
  eval c e _ c' := c' = { c with stale := fun y => y ∈ e.names ∧ c.Stale y }
  assign x _ c :=
    ⟨c.time + 1, Function.update c.stamps x (c.time + 1), fun y => c.stale y ∧ ¬ IsRealized x⟩
  decides _ _ := True

theorem not_stale_of_root (hy : ¬ IsRealized y) : ¬ c.Stale y := by
  rintro ⟨x, hx, hne, -⟩
  exact hne (hx.eq_of_root hy)

theorem stale_congr (h : ∀ x, StandsFor x y → c'.stamps x = c.stamps x) :
    c'.Stale y ↔ c.Stale y := by
  unfold Stale
  refine exists_congr fun x => and_congr_right fun hx => ?_
  rw [h x hx, h y .refl]

theorem not_stale_assign (h : ∀ x, c.stamps x ≤ c.time) : ¬ (machine.assign y () c).Stale y := by
  rintro ⟨x, -, hne, hle⟩
  simp only [machine, Function.update_self, Function.update_of_ne hne] at hle
  have := h x
  omega

theorem stamps_le_assign (h : ∀ x, c.stamps x ≤ c.time) :
    ∀ x, (machine.assign y () c).stamps x ≤ (machine.assign y () c).time := by
  intro x
  by_cases hx : x = y
  · simp [machine, hx]
  · simp only [machine, Function.update_of_ne hx]
    have := h x
    omega

end Clock

namespace Exec

theorem stamps_unchanged (h : Exec Clock.machine c block o) (hx : x ∉ Stmt.localNames block) :
    o.config.stamps x = c.stamps x := by
  refine h.preserves (fun d => d.stamps x = c.stamps x) (fun he hc => by cases he; exact hc)
    (fun {y v d} hy hc => ?_) rfl
  have hxy : x ≠ y := fun hxy => hx (hxy ▸ hy)
  rw [← hc]
  exact Function.update_of_ne hxy _ _

theorem stamps_le (h : Exec Clock.machine c block o) (hc : ∀ x, c.stamps x ≤ c.time) :
    ∀ x, o.config.stamps x ≤ o.config.time :=
  h.preserves (fun d => ∀ x, d.stamps x ≤ d.time) (fun he hd => by cases he; exact hd)
    (fun _ hd => Clock.stamps_le_assign hd) hc

end Exec

namespace Phases

variable {k : Head} {binds' : List Stmt} {entry : String}

/-- Nothing was read stale, and nothing that may be read in place of a name is. -/
structure Fresh (s : State) (c : Clock) : Prop where
  stamps : ∀ x, c.stamps x ≤ c.time
  calm : ∀ y, ¬ c.stale y
  standIns : ∀ {x y typing}, s.standIn? x = some (.name y typing) → ¬ IsRealized x → ¬ c.Stale y

/-- What a task reads is not stale: names that are not realized, which are read through what stands
for them, or names that already stand for others. -/
def Task.Clean (c : Clock) : Task → Prop
  | .named e _ => ∀ z ∈ e.names, ¬ c.Stale z
  | task => ∀ e ∈ task.exprs, ∀ z ∈ e.names, ¬ IsRealized z

/-- How the binds of a task run: whatever way they end, nothing was read stale. -/
structure Passes (clean : Prop) (results : List (Expr × Completion)) (s' : State) (o : Outcome Clock Unit) : Prop where
  calm : ∀ y, ¬ o.config.stale y
  fresh : ∀ {c'}, o = .falls c' → Fresh s' c'
  clean : clean → ∀ {c'}, o = .falls c' → ∀ r ∈ results, ∀ z ∈ r.1.names, ¬ c'.Stale z

section
variable {Γ : Context} {F B S G : String → Prop} {free : Prop} {s s' t : State}
  {results : List (Expr × Completion)} {binds : List Stmt} {typing : Typing} {value : Expr}
  {task : Task} {clean clean' : Prop} {e : Expr} {results' : List (Expr × Completion)}
  {completion : Completion}

theorem Task.clean_of_roots (h : ∀ e ∈ task.exprs, ∀ z ∈ e.names, ¬ IsRealized z) :
    task.Clean c := by
  cases task with
  | named e demand => exact fun z hz => Clock.not_stale_of_root (h e mem_cons_self z hz)
  | _ => exact h

theorem stale_iff_of_past (hrun : Exec Clock.machine c binds o)
    (hbinds : ∀ {y}, y ∈ Stmt.localNames binds → Drawn s t y) (hy : s.Past y) :
    o.config.Stale y ↔ c.Stale y :=
  Clock.stale_congr fun _ hx => hrun.stamps_unchanged fun hmem => (hy.of_standsFor hx).not_drawn (hbinds hmem)

theorem Fresh.substitute (h : Fresh s c) (hy : ¬ IsRealized x → ¬ c.Stale y) :
    Fresh (s.substitute x (.name y typing)) c := by
  refine ⟨h.stamps, h.calm, fun {z w typing'} hz hroot => ?_⟩
  rw [State.standIn?_substitute] at hz
  split at hz
  · cases hz
    rename_i hzx
    exact hy (hzx ▸ hroot)
  · exact h.standIns hz hroot

theorem Fresh.current (h : Fresh s c) (ht : s.Noted F B S G free) (hx : ¬ IsRealized x) :
    ∀ z ∈ (s.current (.name x typing)).names, ¬ c.Stale z := by
  intro z hz
  rw [State.current_name] at hz
  cases hstand : s.standIn? x with
  | none =>
    rw [hstand] at hz
    cases mem_singleton.1 hz
    exact Clock.not_stale_of_root hx
  | some e =>
    obtain ⟨-, -, y, typing', rfl, -⟩ := ht.standIns hstand
    rw [hstand] at hz
    cases mem_singleton.1 hz
    exact h.standIns hstand hx

theorem Fresh.bind (h : Fresh s c) (ht : s.Noted F B S G free) (hy : Drawn s t y)
    (hstand : ∀ {x e}, t.standIn? x = some e → s.standIn? x = some e ∨ ∃ typing, e = .name y typing) (v : Unit)
    (stale : String → Prop) (hstale : ∀ z, stale z → IsRealized y) :
    Fresh t (Clock.machine.assign y v { c with stale }) := by
  refine ⟨Clock.stamps_le_assign h.stamps, fun z hz => hz.2 (hstale z hz.1), fun {x w typing'} hx hroot => ?_⟩
  rcases hstand hx with hx | hx
  · obtain ⟨-, -, w', typing'', hw, -, -, hpast⟩ := ht.standIns hx
    cases hw
    have hkept : ∀ z, StandsFor z w → (Clock.machine.assign y v { c with stale }).stamps z = c.stamps z := by
      intro z hz
      have hne : z ≠ y := fun hzy => (hpast.of_standsFor hz).not_drawn (hzy ▸ hy)
      exact Function.update_of_ne hne _ _
    rw [Clock.stale_congr hkept]
    exact h.standIns hx hroot
  · obtain ⟨_, hx⟩ := hx
    cases hx
    exact Clock.not_stale_assign h.stamps

theorem Passes.nil (h : Fresh s c)
    (hclean : clean → ∀ r ∈ results, ∀ z ∈ r.1.names, ¬ c.Stale z) (hrun : Exec Clock.machine c [] o) :
    Passes clean results s o := by
  rcases hrun.nil_cases with rfl | rfl
  · exact ⟨h.calm, fun ho => by cases ho; exact h, fun hc _ ho => by cases ho; exact hclean hc⟩
  · exact ⟨h.calm, nofun, nofun⟩

theorem Passes.leaves {r : Option Unit} (h : ∀ y, ¬ c.stale y) :
    Passes clean results s (.leaves r c) :=
  ⟨h, nofun, nofun⟩

theorem standIn_cases
    (h : ∀ z, t.standIn? z = if z = x then some (.name y typing) else s.standIn? z)
    {z : String} (hz : t.standIn? z = some e) : s.standIn? z = some e ∨ ∃ typing, e = .name y typing := by
  rw [h] at hz
  split at hz
  · cases hz
    exact .inr ⟨typing, rfl⟩
  · exact .inl hz

theorem Passes.realize (ht : s.Noted F B S G free) (hs : s.Stems)
    (hdraws : s.phases.counter < t.phases.counter)
    (hstand : ∀ {z e}, t.standIn? z = some e → s.standIn? z = some e ∨ ∃ typing, e = .name (s.phases.derive x).1 typing)
    (hpasses : ∀ {o}, Exec Clock.machine c binds o → Passes clean' results' s o)
    (hrun : Exec Clock.machine c (binds ++ [.bind (.name (s.phases.derive x).1 typing) value]) o) :
    Passes clean [(.name (s.phases.derive x).1 typing, completion)] t o := by
  have hrealized : IsRealized (s.phases.derive x).1 := ⟨x, s.phases.counter, hs.derive x⟩
  rcases hrun.append_cases with ⟨c₁, h₁, h₂⟩ | ⟨r, c₁, rfl, h₁⟩
  · have hfresh := (hpasses h₁).fresh rfl
    rcases h₂.bind_cases with rfl | ⟨z, v, c₂, hz, he, hnil⟩
    · exact .leaves hfresh.calm
    · cases hz
      cases he
      have hbound := hfresh.bind ht (drawn_derived hs x hdraws) hstand v
        (fun z => z ∈ value.names ∧ c₁.Stale z) fun _ _ => hrealized
      refine .nil hbound (fun _ r hr z hz => ?_) hnil
      cases mem_singleton.1 hr
      cases mem_singleton.1 hz
      exact Clock.not_stale_assign hfresh.stamps
  · exact .leaves (hpasses h₁).calm

theorem Passes.recast {completion' : Completion}
    (h : Passes clean [(e, completion)] s o) : Passes clean [(e, completion')] s o :=
  ⟨h.calm, h.fresh, fun hc _ ho r hmem => by
    cases mem_singleton.1 hmem
    exact h.clean hc ho (e, completion) mem_cons_self⟩

theorem Passes.weaken (h : Passes clean results s o) (hclean : clean' → clean) :
    Passes clean' results s o :=
  ⟨h.calm, h.fresh, fun hc => h.clean (hclean hc)⟩

theorem Passes.build (h : Passes clean results s o) (hclean : clean' → clean)
    (hroots : clean' → ∀ z ∈ k.names, ¬ IsRealized z) :
    Passes clean' [(k.build (results.map Prod.fst), completion)] s o := by
  refine ⟨h.calm, h.fresh, fun hc c' ho r hmem z hz => ?_⟩
  cases mem_singleton.1 hmem
  rcases Head.mem_names_build.1 hz with hz | ⟨e, he, hz⟩
  · exact Clock.not_stale_of_root (hroots hc z hz)
  · obtain ⟨r, hr, rfl⟩ := mem_map.1 he
    exact h.clean (hclean hc) ho r hr z hz

theorem Passes.parts {parts : List Expr} {tasks : List Task} (hexprs : task.exprs = [k.build parts])
    (htask : task.Clean c → ∀ z ∈ (k.build parts).names, ¬ IsRealized z) (htasks : ∀ e ∈ Task.exprsAll tasks, e ∈ parts)
    (hmode : task.Clean c ∨ ∀ e ∈ task.exprs, e.isCallFree = true)
    (h : (Task.all tasks).Clean c ∨ (∀ e ∈ (Task.all tasks).exprs, e.isCallFree = true) →
      Passes ((Task.all tasks).Clean c) results s o) :
    Passes (task.Clean c) [(k.build (results.map Prod.fst), completion)] s o := by
  have hparts : task.Clean c → (Task.all tasks).Clean c := fun hclean e he z hz =>
    htask hclean z (Head.mem_names_build.2 (.inr ⟨e, htasks e he, hz⟩))
  refine (h (hmode.imp hparts fun hfree e he => ?_)).build hparts fun hclean z hz =>
    htask hclean z (Head.mem_names_build.2 (.inl hz))
  exact Head.isCallFree_parts (hfree (k.build parts) (by simp [hexprs])) e (htasks e he)

theorem Passes.keep (h : Passes clean' results' s' o) (hrun : Exec Clock.machine c binds o)
    (hbinds : ∀ {y}, y ∈ Stmt.localNames binds → Drawn s s' y) (hpast : ∀ z ∈ e.names, s.Past z)
    (hclean : clean → ∀ z ∈ e.names, ¬ c.Stale z) : Passes clean [(e, completion)] s' o := by
  refine ⟨h.calm, h.fresh, fun hc c' ho r hmem z hz => ?_⟩
  cases mem_singleton.1 hmem
  subst ho
  rw [show c'.Stale z ↔ c.Stale z from stale_iff_of_past hrun hbinds (hpast z hz)]
  exact hclean hc z hz

theorem Passes.hoist (ht : s.Noted F B S G free) (hs : s.Stems)
    (hpasses : ∀ {o}, Exec Clock.machine c binds o → Passes True [(value, completion)] s o)
    (hnext : ∀ {c₁ o}, Fresh (s.hoisted entry value completion) c₁ → Exec Clock.machine c₁ binds' o →
      Passes True results' t o) (hrun : Exec Clock.machine c (binds ++ s.hoist value :: binds') o) :
    Passes clean results' t o := by
  rcases hrun.append_cases with ⟨c₁, h₁, h₂⟩ | ⟨r, c₁, rfl, h₁⟩
  · have p₁ := hpasses h₁
    rcases h₂.bind_cases with rfl | ⟨z, v, c₂, hz, he, hrest⟩
    · exact .leaves (p₁.fresh rfl).calm
    · cases hz
      cases he
      have hdrawn : Drawn s (s.hoisted entry value completion) s.temporaries.next.1 :=
        drawn_temporary hs (Nat.lt_succ_self _)
      have hfresh : Fresh (s.hoisted entry value completion) (Clock.machine.assign s.temporaries.next.1 v
            { c₁ with stale := fun y => y ∈ value.names ∧ c₁.Stale y }) := by
        refine (p₁.fresh rfl).bind ht hdrawn (fun {x e} hx => ?_) v _ ?_
        · rw [State.hoisted, State.standIn?_record] at hx
          split at hx
          · cases hx
          · exact .inl hx
        · rintro z ⟨hz, hstale⟩
          exact absurd hstale (p₁.clean trivial rfl _ mem_cons_self z hz)
      exact (hnext hfresh hrest).weaken fun _ => trivial
  · exact .leaves (hpasses h₁).calm

theorem Passes.temporary {u : Task} {f : Expr} {es : List Expr} (ht : s.Noted F B S G free)
    (hs : s.Stems) (hexprs : task.exprs = [.apply f es typing])
    (hexprs' : u.exprs = [value.renamed s.temporaries.next.1])
    (hmode : task.Clean c ∨ ∀ e ∈ task.exprs, e.isCallFree = true)
    (h : ∀ {o}, task.Clean c → Exec Clock.machine c binds o → Passes True [(value, completion)] s o)
    (hnext : ∀ {c₁ o}, u.Clean c₁ → Fresh (s.hoisted entry value completion) c₁ → Exec Clock.machine c₁ binds' o →
      Passes (u.Clean c₁) results' t o) (hrun : Exec Clock.machine c (binds ++ s.hoist value :: binds') o) :
    Passes clean results' t o := by
  have hclean : task.Clean c := by
    refine hmode.resolve_right fun hfree => ?_
    cases hfree _ (by rw [hexprs]; exact mem_cons_self)
  have htemporary : ∀ {c}, u.Clean c := by
    refine Task.clean_of_roots fun e he z hz => ?_
    rw [hexprs'] at he
    cases mem_singleton.1 he
    cases mem_singleton.1 hz
    rw [hs.next]
    exact temporary_not_realized _
  exact .hoist ht hs (h hclean) (fun hc hrun => (hnext htemporary hc hrun).weaken fun _ => htemporary) hrun

/-- What the first of some tasks hands on stays clean behind the binds of the others. -/
theorem Passes.cons {tasks : List Task} {r : Expr × Completion} (hs : s.Stems)
    (hpast : ∀ z ∈ r.1.names, s.Past z) (hd : Derives Γ (.all tasks) s results binds' s')
    (hfirst : ∀ {o}, Exec Clock.machine c binds o → Passes (task.Clean c) [r] s o)
    (hnext : ∀ {c₁ o}, Fresh s c₁ → Exec Clock.machine c₁ binds' o → Passes ((Task.all tasks).Clean c₁) results s' o)
    (hrun : Exec Clock.machine c (binds ++ binds') o) :
    Passes ((Task.all (task :: tasks)).Clean c) (r :: results) s' o := by
  rcases hrun.append_cases with ⟨c₁, hrun₁, hrun₂⟩ | ⟨r, c₁, rfl, hrun₁⟩
  · have p₁ := hfirst hrun₁
    have p₂ := hnext (p₁.fresh rfl) hrun₂
    refine ⟨p₂.calm, p₂.fresh, fun hclean c' ho r hmem z hz => ?_⟩
    rcases mem_cons.1 hmem with rfl | hmem
    · subst ho
      rw [show c'.Stale z ↔ c₁.Stale z from stale_iff_of_past hrun₂ (hd.drawn hs) (hpast z hz)]
      exact p₁.clean (Task.clean_of_roots fun e he => hclean e (mem_append_left _ he)) rfl r mem_cons_self z hz
    · exact p₂.clean (fun e he => hclean e (mem_append_right _ he)) ho r hmem z hz
  · exact .leaves (hfirst hrun₁).calm

theorem Passes.demandName {demand : Ty} {w : String} (ht : s.Noted F B S G free) (hc : Fresh s c)
    (h : Passes ((Task.named (s.current (.name x typing)) demand).Clean c) [(.name w typing', completion)] s' o) :
    Passes ((Task.demand (.name x typing) demand).Clean c) [(.name w typing', completion)]
      (if .name w typing' ≠ s.current (.name x typing) then s'.substitute x (.name w typing') else s') o := by
  have hclean : ¬ IsRealized x → (Task.named (s.current (.name x typing)) demand).Clean c := hc.current ht
  refine ⟨h.calm, fun {c'} ho => ?_, fun hroot c' ho => ?_⟩
  · split
    · exact (h.fresh ho).substitute fun hx => h.clean (hclean hx) ho _ mem_cons_self w (by simp)
    · exact h.fresh ho
  · exact h.clean (hclean (hroot _ mem_cons_self x (by simp))) ho

/-- The binds of a task read nothing stale, and what is to be read behind them is not stale. -/
theorem Derives.fresh (hk : Kinds F B S G) (h : Derives Γ task s results binds s')
    (hr : task.Fits Γ.registry F B S s G True) (hc : Fresh s c)
    (hmode : task.Clean c ∨ ∀ e ∈ task.exprs, e.isCallFree = true) (hrun : Exec Clock.machine c binds o) :
    Passes (task.Clean c) results s' o := by
  -- recorded fields and closures hold no calls, so that forcing them hoists nothing
  have hfree : ∀ {s : State} {x : String} {fields : List Expr}, s.Noted F B S G True →
      s.componentsOf? x = some fields → ∀ e ∈ fields, e.isCallFree = true :=
    fun ht hfields => Expr.areCallFree_iff.1 ((ht.tables.fields hfields).2.2.1 trivial)
  have hclosed : ∀ {s : State} {x : String} {e : Expr}, s.Noted F B S G True → s.closureOf? x = some e →
      ∀ f ∈ [e], f.isCallFree = true :=
    fun ht hclosure => Expr.areCallFree_iff.1 ((ht.tables.closures hclosure).2.2.2.1 trivial)
  induction h generalizing c o with
  | nil => exact .nil hc (by simp) hrun
  | @cons task tasks _ _ _ _ _ _ _ h₁ h₂ ih₁ ih₂ =>
    have hhead : task.Clean c ∨ ∀ e ∈ task.exprs, e.isCallFree = true :=
      hmode.imp (fun hclean => Task.clean_of_roots fun e he => hclean e (mem_append_left _ he))
        (fun hfree e he => hfree e (mem_append_left _ he))
    have htail : ∀ {c}, (Task.all tasks).Clean c ∨ ∀ e ∈ Task.exprsAll tasks, e.isCallFree = true :=
      hmode.imp (fun hclean e he => hclean e (mem_append_right _ he))
        (fun hfree e he => hfree e (mem_append_right _ he))
    have n₁ := h₁.noted hk hr.head
    exact .cons (hr.stems.mono h₁.grows) (n₁.past _ mem_cons_self) h₂ (ih₁ hr.head hc hhead)
      (fun hc hrun => ih₂ (hr.tail h₁.grows n₁.tables) hc htail hrun) hrun
  | name s x typing | @returnedName _ x _ _ =>
    refine .nil hc (fun hclean r hmem z hz => ?_) hrun
    cases mem_singleton.1 hmem
    exact hc.current hr.tables (hclean _ mem_cons_self x (by simp)) z hz
  | literal | demandLiteral | returnedLiteral =>
    exact .nil hc (fun _ r hmem z hz => by cases mem_singleton.1 hmem; cases hz) hrun
  | node _ _ ih =>
    exact .parts rfl (fun hclean => hclean _ mem_cons_self) (by simp) hmode fun hmode => ih hr.values hc hmode hrun
  | @forcing function _ typing _ _ _ _ _ _ _ _ hf hcallee hs hforces _ _ ih =>
    exact Passes.parts (k := .call function typing) rfl (fun hclean => hclean _ mem_cons_self)
      (fun e => Task.mem_exprsAll_demands) hmode fun hmode =>
        ih (hr.arguments (forces_of_signature hf hcallee hs hforces)) hc hmode hrun
  | @demandName x typing demand s _ e _ h ih =>
    obtain ⟨y, typing', hy, -⟩ := hr.current hk rfl (by simp)
    have hnamed := hr.named hk
    have hname : ∃ w typing'', e = .name w typing'' := by
      rcases (h.noted hk hnamed).isName y (by rw [hy]; rfl) _ mem_cons_self with hkept | ⟨w, typing'', hw, -⟩
      · exact ⟨y, typing', (mem_singleton.1 hkept).trans hy⟩
      · exact ⟨w, typing'', hw⟩
    obtain ⟨w, typing'', rfl⟩ := hname
    exact .demandName hr.tables hc (ih hnamed hc (.inr (forall_mem_singleton.2 (by rw [hy]; rfl))) hrun)
  | demandNode _ _ ih =>
    exact .parts rfl (fun hclean => hclean _ mem_cons_self) (fun e => Task.mem_exprsAll_demands) hmode fun hmode =>
      ih hr.demandParts hc hmode hrun
  | demandCall _ _ ih | returnedCall _ _ ih | returnedClosure _ ih => exact (ih (hr.read rfl rfl) hc hmode hrun).recast
  | demandHoisted h _ _ ih ih' | returnedHoisted h _ _ _ ih ih' =>
    have hread := hr.read rfl rfl
    have n := h.noted hk hread
    obtain ⟨-, es', rfl⟩ := h.value_apply
    exact .temporary n.tables (hr.stems.mono h.grows) rfl rfl hmode
      (fun hclean hrun => (ih hread hc (.inl hclean) hrun).weaken fun _ => hclean)
      (fun hclean hc hrun => ih' (hr.hoist hk rfl rfl hr.plain h n rfl (fun _ => mem_singleton.1) id rfl) hc
        (.inl hclean) hrun) hrun
  | met =>
    refine .nil hc (fun hclean r hmem z hz => ?_) hrun
    cases mem_singleton.1 hmem
    exact hclean z hz
  | closureKept hx hclosure h ih =>
    exact (ih (hr.closure hx hclosure) hc (.inr (hclosed hr.tables hclosure)) hrun).keep hrun (h.drawn hr.stems)
      (hr.past _ mem_cons_self) fun hclean => hclean
  | closureRebuilt hx hclosure h _ ih =>
    have n := h.noted hk (hr.closure hx hclosure)
    exact .realize n.tables (hr.stems.mono h.grows) (Nat.lt_succ_self _) .inl
      (fun hrun => ih (hr.closure hx hclosure) hc (.inr (hclosed hr.tables hclosure)) hrun) hrun
  | @tupleKept e _ _ _ _ _ _ _ hx _ _ hfields h _ ih =>
    exact (ih (hr.fields hx hfields) hc (.inr fun e he => hfree hr.tables hfields e (Task.mem_exprsAll_demands he))
      hrun).keep hrun (h.drawn hr.stems) (hr.past _ mem_cons_self) fun hclean => hclean
  | @tupleRebuilt e _ _ _ _ _ _ _ hx _ _ hfields h _ ih =>
    have n := h.noted hk (hr.fields hx hfields)
    exact .realize n.tables (hr.stems.mono h.grows) (Nat.lt_succ_self _)
      (standIn_cases fun z => State.standIn?_rebuilt _ _ z _ _) (fun hrun => ih (hr.fields hx hfields) hc
        (.inr fun e he => hfree hr.tables hfields e (Task.mem_exprsAll_demands he)) hrun) hrun
  | realized | returnedRealized =>
    exact .realize hr.tables hr.stems (Nat.lt_succ_self _) (standIn_cases fun z => State.standIn?_realized _ _ z _ _)
      (fun {o} hrun => show Passes True [] _ o from .nil hc (by simp) hrun) hrun
  | @returnedTupleKept _ _ x _ _ _ _ _ _ _ hfields h _ _ ih =>
    refine (ih (hr.returnedFields hfields) hc (.inr fun e he => hfree hr.tables hfields e (by simpa using he))
      hrun).keep hrun (h.drawn hr.stems) (fun w hw => ?_) fun hclean =>
        hc.current hr.tables (hclean _ mem_cons_self x (by simp))
    obtain ⟨z, typing', hz, -, hpast, -⟩ := hr.current hk rfl (by simp)
    rw [hz] at hw
    cases mem_singleton.1 hw
    exact hpast
  | returnedTupleRebuilt _ _ hfields h _ _ ih =>
    have n := h.noted hk (hr.returnedFields hfields)
    exact .realize n.tables (hr.stems.mono h.grows) (Nat.lt_succ_self _)
      (standIn_cases fun z => State.standIn?_rebuilt _ _ z _ _) (fun hrun => ih (hr.returnedFields hfields) hc
        (.inr fun e he => hfree hr.tables hfields e (by simpa using he)) hrun) hrun
  | @returnedTuple _ typing _ _ _ _ _ ih =>
    exact Passes.parts (k := .tuple typing) rfl (fun hclean => hclean _ mem_cons_self) (by simp) hmode fun hmode =>
      ih hr.elements hc hmode hrun

end

end Phases
end DataParallel
