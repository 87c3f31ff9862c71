import DataParallel.Proofs.Phases.Surveys

/-! Runs of analysed blocks.

If a text is steady and keeps to a survey, the tables hold at every point of a run of the analysed
block, whichever way its tests go, and no call is given anything pending that it reads. -/

namespace DataParallel

open List Phases.State Progress Stmt
open Progress (Agrees Fine Gives)

variable {e : Expr}

theorem Expr.isCarried_of_isData {D : String → Bool} (h : e.isData D = true) :
    e.isCarried D = true := by
  cases e with
  | name => rfl
  | closure => cases h
  | literal | tuple | apply => exact h

namespace Phases

variable {v : Survey} {s s' t u : State} {c d : Progress} {Γ : Context} {B F S : String → Prop} {e' target : Expr}
  {completion : Completion} {binds : List Stmt} {x : String} {changed names selfResults : List String}
  {registry : Registry} {outer : Bool} {head : Table Completion}

theorem Derives.isCarried (h : Derives Γ (.value e) s [(e', completion)] binds s')
    (hn : s.Noted F B S)
    (hrereads : Rereads Γ.registry v c e e') (he : e.isCarried v.data = true) : e'.isCarried v.data = true ∧
      ∀ function captured typing, e' = .closure function captured typing → e.isCallFree = true := by
  rcases h.value_cases with ⟨y, typing, rfl, rfl, rfl⟩ | ⟨text, typing, rfl, rfl⟩ |
    ⟨k, parts, results, rfl, rfl, -⟩ | ⟨function, arguments, arguments', typing, rfl, rfl, -⟩
  · rcases hn.current y typing with hy | ⟨z, typing', hz, -⟩
    · rw [hy]
      exact ⟨rfl, nofun⟩
    · rw [hz]
      exact ⟨rfl, nofun⟩
  · exact ⟨rfl, nofun⟩
  · cases k with
    | tuple => exact ⟨hrereads.data he, nofun⟩
    | closure => exact ⟨(hrereads.free he).1, fun _ _ _ _ => he⟩
    | call => exact ⟨rfl, nofun⟩
  · exact ⟨rfl, nofun⟩

namespace Tracks

theorem later (h : Tracks v s c) (hstore : d.store = c.store) (hr : c.realized ⊆ d.realized) :
    Tracks v s d where
  complete hx := hstore ▸ (h.complete hx).mono hr
  standIns hx := by
    obtain ⟨y, typing, he, hroot, hmirrors, htyping⟩ := h.standIns hx
    exact ⟨y, typing, he, hroot, hstore ▸ hmirrors.mono hr, htyping⟩
  fields hx := hstore ▸ h.fields hx
  closures hx := hstore ▸ h.closures hx
  bare hx := hstore ▸ (h.bare hx).mono hr
  data hx := hstore ▸ h.data hx
  drawn hx := hstore ▸ (h.drawn hx).mono hr
  own hx := hstore ▸ h.own hx
  results := h.results

theorem read (h : Tracks v s c) (e : Expr) : Tracks v s (c.read registry e).2 :=
  h.later (store_read c e) (realized_read c e)

theorem forget (h : Tracks v s c) (hforgets : Forgets s names t)
    (hcompletions : ∀ x, t.completionOf x ≠ .incomplete → s.completionOf x ≠ .incomplete)
    (hnames : ∀ x ∈ names, v.data x = true) (hresults : t.inEntry = true → ∀ x ∈ t.selfResults, x ∈ v.own) :
    Tracks v t c where
  complete hx := h.complete (hcompletions _ hx)
  standIns hx := h.standIns (hforgets.of_standIn hx).2
  fields hx := h.fields (hforgets.of_fields hx).2
  closures hx := h.closures (hforgets.of_closure hx).2
  bare {x} hx := by
    rw [hforgets.closures] at hx
    split at hx
    · rename_i hmem
      exact bare_of_isData (h.data (hnames x hmem))
    · exact h.bare hx
  data := h.data
  drawn := h.drawn
  own := h.own
  results hin x hx := hresults hin x hx

/-- What is still known behind a block holds there, if the block binds nothing else that is known,
nothing that is on record and no closures. `u` is what the block itself leads to. -/
theorem across (h : Tracks v s c) (hn : s.Noted F B S) (hforgets : Forgets s names t)
    (hagree : Agrees (fun z => s.Past z ∧ z ∉ changed) c d) (hsource : ∀ z ∈ changed, ¬ Name.IsDrawn z)
    (hparts : ∀ z ∈ changed, ¬ B z) (hkept : ∀ z ∈ changed, z ∈ names ∨ ¬ F z) (hu : Tracks v u d)
    (hcompletions : ∀ x, t.completionOf x ≠ .incomplete → u.completionOf x ≠ .incomplete)
    (hdata : ∀ x ∈ changed ++ names, v.data x = true ∨ Name.IsDrawn x)
    (hresults : t.inEntry = true → ∀ x ∈ t.selfResults, x ∈ v.own) : Tracks v t d := by
  have hkey : ∀ z, z ∉ names → F z → s.Past z → d.store z = c.store z := by
    intro z hz hF hpast
    exact hagree.store z ⟨hpast, fun hmem => (hkept z hmem).elim hz fun hn => hn hF⟩
  have hpart : ∀ z, B z → s.Past z → d.store z = c.store z :=
    fun z hz hpast => hagree.store z ⟨hpast, fun hmem => hparts z hmem hz⟩
  have hbare : ∀ x ∈ changed ++ names, d.Bare (d.store x) := by
    intro x hx
    rcases hdata x hx with hdata | hdrawn
    · exact bare_of_isData (hu.data hdata)
    · exact hu.drawn hdrawn
  refine ⟨fun {x} hx => hu.complete (hcompletions x hx), fun {x e} hx => ?_, fun {x fields} hx => ?_,
    fun {x e} hx => ?_, fun {x} hx => ?_, hu.data, hu.drawn, hu.own, fun hin {x} hx => hresults hin x hx⟩
  · obtain ⟨hnames, hx⟩ := hforgets.of_standIn hx
    obtain ⟨y, typing, rfl, hroot, hmirrors, htyping⟩ := h.standIns hx
    obtain ⟨hF, hpast, _, _, hy, hdrawn, -, hpast'⟩ := hn.standIns hx
    cases hy
    refine ⟨y, typing, rfl, hroot, ?_, htyping⟩
    rw [hkey x hnames hF hpast, hagree.store y ⟨hpast', fun hmem => hsource y hmem hdrawn⟩]
    exact hmirrors.mono hagree.realized
  · obtain ⟨hnames, hx⟩ := hforgets.of_fields hx
    obtain ⟨htraced, hcontent⟩ := h.fields hx
    obtain ⟨hF, hpast, hall⟩ := hn.fields hx
    refine ⟨htraced, ?_⟩
    rw [hkey x hnames hF hpast, hcontent, Expr.contents_congr fun z hz => ?_]
    obtain ⟨e, he, hz⟩ := Expr.mem_namesAll.1 hz
    exact (hpart z (hall e he z hz).1 (hall e he z hz).2).symm
  · obtain ⟨hnames, hx⟩ := hforgets.of_closure hx
    obtain ⟨hclosure, hcontent⟩ := h.closures hx
    obtain ⟨hF, hpast, -, hall⟩ := hn.closures hx
    refine ⟨hclosure, ?_⟩
    rw [hkey x hnames hF hpast, hcontent, Expr.content_congr fun z hz => ?_]
    exact (hpart z (hall z hz).1 (hall z hz).2).symm
  · rw [hforgets.closures] at hx
    split at hx
    · exact hbare x (mem_append_right _ ‹_›)
    · by_cases hmem : x ∈ changed
      · exact hbare x (mem_append_left _ hmem)
      · by_cases hpast : s.Past x
        · rw [hagree.store x ⟨hpast, hmem⟩]
          exact (h.bare hx).mono hagree.realized
        · exact hu.drawn (by_contra fun hsource => hpast (past_of_source hsource))

section Bind
variable {f : Expr} {fields : List Expr}

theorem recorded_fields (h : Tracks v s c) (registry : Registry)
    (htuple : e.callee? = some Name.Snippet.makeTuple → ∀ a ∈ e.arguments, Traced v a)
    (hfields : s.recordedFields e = some fields) :
    (∀ a ∈ fields, Traced v a) ∧ (c.read registry e).1 = .tuple (Expr.contents c.store fields) := by
  rcases recordedFields_cases hfields with ⟨function, typing, rfl, hf⟩ | ⟨y, typing, rfl, hy⟩
  · have htraced : ∀ a ∈ fields, Traced v a := htuple hf
    exact ⟨htraced, by rw [read_tuple hf (areCallFree_traced htraced)]⟩
  · exact h.fields hy

theorem recorded_closure (h : Tracks v s c) (registry : Registry)
    (hclosure : ∀ function captured typing, e = .closure function captured typing →
      e.isCallFree = true ∧ e.isLabeled v.labels = true)
    (hrecorded : s.recordedClosure e = some f) :
    (f.isCallFree = true ∧ f.isLabeled v.labels = true) ∧ (c.read registry e).1 = f.content c.store := by
  rcases recordedClosure_cases hrecorded with ⟨rfl, _, _, _, rfl⟩ | ⟨y, typing, rfl, hy⟩
  · have hfree := hclosure _ _ _ rfl
    exact ⟨hfree, by rw [read_of_callFree _ hfree.1]⟩
  · exact h.closures hy

theorem bare_value (h : Tracks v s c) (hcareful : e.isCareful registry v.data = true)
    (hcarried : e.isCarried v.data = true) (hrecorded : s.recordedClosure e = none) :
    c.Bare (c.read registry e).1 := by
  have hread : e.isData v.data = true → c.Bare (c.read registry e).1 := fun hdata =>
    bare_of_isData (isData_read (fun _ _ hx => h.data hx) hcareful hdata)
  cases e with
  | name y typing => exact h.bare hrecorded
  | closure => cases hrecorded
  | literal | tuple | apply => exact hread hcarried

/-- Recording a bind keeps the tables in step with the run. -/
theorem bind (hk : Kinds F B S) (hentry : Γ.EntryForces)
    (h : Derives Γ (.value e) s [(e', completion)] binds s') (hr : (Task.value e).Fits Γ.registry F B S s)
    (hbuilt : ∀ z ∈ e.builtNames, B z) (ht : Tracks v s' c)
    (hm : (Task.value e).Meets Γ.registry v c (e', completion)) (hx : target.symbol? = some x)
    (hsource : ¬ Name.IsDrawn x) (hB : ¬ B x) (hlabeled : e.isLabeled v.labels = true)
    (hbinds : v.binds Γ.registry Γ.entry s'.inEntry outer e x = true) :
    Tracks v (s'.record Γ.entry x e' completion) (c.bind Γ.registry target e') := by
  have hn := (h.noted hk hr).tables
  obtain ⟨hfields, hclosure⟩ := h.recorded_names hk hr hbuilt False.elim
  obtain ⟨hrereads, hdone, htuple⟩ := hm
  obtain ⟨hcarried, -, hown, hself⟩ := Survey.binds_iff.1 hbinds
  have hcallee := h.callee hr.tables.current_symbol
  have hdata : v.data x = true → e.isData v.data = true := fun hx => by rwa [if_pos hx] at hcarried
  have hcarried : e.isCarried v.data = true := by
    split at hcarried
    · exact Expr.isCarried_of_isData hcarried
    · exact (Bool.and_eq_true_iff.1 hcarried).2
  obtain ⟨hcarried', hfree⟩ := h.isCarried hr.tables hrereads hcarried
  generalize hd : c.bind Γ.registry target e' = d
  have hstore : d.store = Function.update c.store x (c.read Γ.registry e').1 := by rw [← hd, store_bind hx]
  have hrealized : (c.read Γ.registry e').2.realized = d.realized := by rw [← hd, realized_bind hx]
  have hsub : c.realized ⊆ d.realized := hrealized ▸ realized_read c e'
  have hother : ∀ z, z ≠ x → d.store z = c.store z := fun z hz => by rw [hstore, Function.update_of_ne hz]
  have hpart : ∀ z, B z → d.store z = c.store z := fun z hz => hother z fun hzx => hB (hzx ▸ hz)
  have hvalue : d.store x = (c.read Γ.registry e').1 := by rw [hstore, Function.update_self]
  have hcontents : ∀ {fs : List Expr}, (∀ f ∈ fs, ∀ z ∈ f.names, B z ∧ s'.Past z) →
      Expr.contents d.store fs = Expr.contents c.store fs := by
    intro fs hfs
    refine Expr.contents_congr fun z hz => ?_
    obtain ⟨f, hf, hz⟩ := Expr.mem_namesAll.1 hz
    exact hpart z (hfs f hf z hz).1
  refine ⟨fun {z} hz => ?_, fun {z f} hz => ?_, fun {z fs} hz => ?_, fun {z f} hz => ?_, fun {z} hz => ?_,
    fun {z} hz => ?_, fun {z} hz => ?_, fun {z} hz => ?_, fun hin {z} hz => ?_⟩
  · rw [completionOf_record] at hz
    split at hz
    · rename_i hzx
      rw [hzx, hvalue]
      exact (hdone hz c (.refl _ c)).mono (hrealized ▸ Subset.refl _)
    · rw [hother z ‹_›]
      exact (ht.complete hz).mono hsub
  · rw [standIn?_record] at hz
    split at hz
    · cases hz
    · obtain ⟨y, typing, rfl, hroot, hmirrors, htyping⟩ := ht.standIns hz
      obtain ⟨-, -, _, _, hy, hdrawn, -⟩ := hn.standIns hz
      cases hy
      refine ⟨y, typing, rfl, hroot, ?_, htyping⟩
      rw [hother z ‹_›, hother y fun hyx => hsource (hyx ▸ hdrawn)]
      exact hmirrors.mono hsub
  · rw [componentsOf?_record] at hz
    split at hz
    · rename_i hzx
      obtain ⟨htraced, hread⟩ := ht.recorded_fields Γ.registry htuple hz
      exact ⟨htraced, by rw [hzx, hvalue, hread, hcontents (hfields fs hz).2.2]⟩
    · obtain ⟨htraced, hcontent⟩ := ht.fields hz
      exact ⟨htraced, by rw [hother z ‹_›, hcontent, hcontents (hn.fields hz).2.2]⟩
  · rw [closureOf?_record] at hz
    split at hz
    · rename_i hzx
      obtain ⟨hclosed, hread⟩ := ht.recorded_closure Γ.registry
        (fun function captured typing he => ⟨(hrereads.free (hfree _ _ _ he)).1,
          hrereads.labeled (hfree _ _ _ he) hlabeled⟩) hz
      refine ⟨hclosed, ?_⟩
      rw [hzx, hvalue, hread, Expr.content_congr fun w hw => ?_]
      exact (hpart w ((hclosure f hz).2.2.2 w hw).1).symm
    · obtain ⟨hclosed, hcontent⟩ := ht.closures hz
      refine ⟨hclosed, ?_⟩
      rw [hother z ‹_›, hcontent, Expr.content_congr fun w hw => ?_]
      exact (hpart w ((hn.closures hz).2.2.2 w hw).1).symm
  · rw [closureOf?_record] at hz
    split at hz
    · rename_i hzx
      rw [hzx, hvalue]
      exact (ht.bare_value hrereads.careful hcarried' hz).mono hsub
    · rw [hother z ‹_›]
      exact (ht.bare hz).mono hsub
  · by_cases hzx : z = x
    · rw [hzx] at hz ⊢
      rw [hvalue]
      exact isData_read (fun _ _ hy => ht.data hy) hrereads.careful (hrereads.data (hdata hz))
    · rw [hother z hzx]
      exact ht.data hz
  · rw [hother z fun hzx => hsource (hzx ▸ hz)]
    exact (ht.drawn hz).mono hsub
  · by_cases hzx : z = x
    · rw [hzx] at hz ⊢
      have hentry' := hcallee.trans (hown hz)
      rw [hvalue]
      cases e' with
      | apply function arguments typing => exact read_of_forces (hentry function hentry')
      | _ => cases hentry'
    · rw [hother z hzx]
      exact ht.own hz
  · rcases selfResults_record hz with ⟨rfl, hentry'⟩ | hz
    · exact hself hin (hcallee ▸ hentry')
    · exact ht.results hin hz

end Bind

end Tracks

structure Quiet (Γ : Context) (v : Survey) (outer : Bool) (names known parts : List String) (s : State)
    (block : List Stmt) (c : Progress) : Prop where
  laid : Laid Γ.registry names known parts s block
  surveyed : areSurveyed Γ.registry v Γ.entry s.inEntry outer block = true
  tracks : Tracks v s c
  breached : c.breached = false

/-- A run that breaches nothing and ends in step with the tables. -/
structure Ends (v : Survey) (s' : State) (o : Outcome Progress Content) : Prop where
  breached : o.config.breached = false
  tracks : ∀ {d}, o = .falls d → Tracks v s' d

/-- Wherever a block is quiet, the runs of `out` end well. -/
def RunsQuiet (Γ : Context) (v : Survey) (names : List String) (s : State) (block out : List Stmt)
    (s' : State) : Prop :=
  ∀ {outer known parts c o}, Quiet Γ v outer names known parts s block c →
    Exec (machine Γ.registry) c out o → Ends v s' o

theorem Ends.stops (h : d.breached = false) : Ends v s' (.leaves none d) :=
  ⟨h, nofun⟩

theorem Ends.leaves {r : Option Content} (h : Ends v s (.leaves r d)) : Ends v s' (.leaves r d) :=
  ⟨h.breached, nofun⟩

theorem State.completionOf_enter : s.enter.completionOf x = s.completionOf x := by
  simp [completionOf, enter]

theorem State.forgets_trips (s t : State) :
    Forgets (s.tripStart selfResults head) [] (s.settled t head) := by
  have htrip := s.forgets_tripStart selfResults head
  have hsettled := s.forgets_settled t head
  exact .none (fun y => by rw [hsettled.standIns, htrip.standIns]) (fun y => by rw [hsettled.fields, htrip.fields])
    fun y => by rw [hsettled.closures, htrip.closures]

section Blocks
variable {known parts : List String} {s₁ : State} {value value' test test' : Expr}
  {rest out body body' whenTrue whenTrue' whenFalse whenFalse' block : List Stmt} {o : Outcome Progress Content}
  {task : Task}

theorem Exec.agrees (h : Exec (machine registry) c block o) :
    Agrees (fun z => z ∉ localNames block) c o.config := by
  refine h.preserves (Agrees (fun z => z ∉ localNames block) c) (fun {d e w d'} heval hd => ?_)
    (fun {x w d} hx hd => ⟨fun z hz => ?_, hd.realized⟩) (.refl _ c)
  · have hsame : (d.read registry e).2 = d' := congrArg Prod.snd heval
    exact hsame ▸ hd.read e
  · have hzx : z ≠ x := fun hzx => hz (hzx ▸ hx)
    exact (Function.update_of_ne hzx _ _).trans (hd.store z hz)

section Cases
variable (hv : v.Fits) (hnames : ∀ w, Backed names w → Name.isDrawn w = false)
  (hentry : Γ.EntryForces)
include hv hentry

theorem Derives.front (hk : Kinds F B S) (hS : ∀ w, S w → Name.isDrawn w = false)
    (h : Derives Γ task s [(e', completion)] binds s₁) (hr : task.Fits Γ.registry F B S s)
    (hparts : task.parts = [task]) (hready : task.IsReady Γ.registry v)
    (hin : task.returns = true → s.inEntry = true) (ht : Tracks v s c) (hc : c.breached = false)
    (hrun : Exec (machine Γ.registry) c (binds ++ out) o)
    (hnext : ∀ {d}, Tracks v s₁ d → d.breached = false → task.Meets Γ.registry v d (e', completion) →
      Exec (machine Γ.registry) d out o → Ends v s' o) : Ends v s' o := by
  have r := h.reaches hv hk hS hentry c hr (by rw [hparts]; exact forall_mem_singleton.2 hready) hin ht
  have hbreached := r.breached.trans hc
  rcases exec_binds h.isBind hrun with hrun | ⟨d, rfl, hd⟩
  · exact hnext r.tracks hbreached (r.one hparts) hrun
  · refine .stops (Bool.eq_false_iff.2 fun hdb => ?_)
    rw [hbreached] at hd
    cases hd hdb

include hnames

theorem Quiet.bind (hx : target.symbol? = some x)
    (hd : Derives Γ (.value value) s [(value', completion)] binds s₁)
    (h : Quiet Γ v outer names known parts s (.bind target value :: rest) c)
    (hrun : Exec (machine Γ.registry) c (binds ++ .bind target value' :: out) o)
    (hnext : RunsQuiet Γ v names (s₁.record Γ.entry x value' completion).flush rest out s') :
    Ends v s' o := by
  have hsurveyed := h.surveyed
  simp only [areSurveyed, isSurveyed, hx, Option.all_some, Bool.and_eq_true] at hsurveyed
  have hgrows := (s₁.grows_record Γ.entry x value' completion).trans (grows_flush _)
  have hsame := hgrows.inEntry.trans hd.grows.inEntry
  have hr := h.laid.fits (e := value) rfl (by simp)
  have hbuilt : ∀ z ∈ value.builtNames, Among (parts ++ (Stmt.bind target value).headParts) z :=
    fun z hz => .inr (mem_append_right _ (mem_append_left _ hz))
  refine hd.front hv hentry h.laid.kinds hnames hr rfl hsurveyed.1.1 (by simp) h.tracks h.breached hrun
    fun {d} ht hb hm hrun => ?_
  rcases hrun.bind_cases with rfl | ⟨y, w, d', hy, heval, hrun⟩
  · exact .stops hb
  · cases hx.symm.trans hy
    have hbind : (machine Γ.registry).assign x w d' = d.bind Γ.registry target value' := by
      rw [bind_eq hx, show d.read Γ.registry value' = (w, d') from heval]
      rfl
    rw [hbind] at hrun
    have htracks := Tracks.bind h.laid.kinds hentry hd hr hbuilt ht hm hx (h.laid.target_text hx).1 (h.laid.fresh hx)
      hsurveyed.1.1.1 (hd.grows.inEntry ▸ hsurveyed.1.2)
    refine @hnext outer _ _ _ _
      ⟨h.laid.bind hx hd, hsame ▸ hsurveyed.2, htracks.forget (forgets_flush _) (fun _ hz => hz)
      (by simp) fun hin z hz => htracks.results hin hz, ?_⟩ hrun
    rw [breached_bind]
    exact (hm.1.fine d (.refl _ d)).trans hb

theorem Quiet.ret (hd : Derives Γ task s [(value', completion)] binds s₁)
    (htask : s.inEntry = false ∧ task = .value value ∨ s.inEntry = true ∧ task = .returned value)
    (h : Quiet Γ v outer names known parts s (.ret value :: rest) c)
    (hrun : Exec (machine Γ.registry) c (binds ++ .ret value' :: out) o) : Ends v s' o := by
  have hsurveyed := h.surveyed
  simp only [areSurveyed, isSurveyed, Bool.and_eq_true] at hsurveyed
  have hend : ∀ {d}, d.breached = false → Fine Γ.registry d value' →
      Exec (machine Γ.registry) d (.ret value' :: out) o → Ends v s' o := by
    intro d hb hfine hrun
    rcases hrun.ret_cases with rfl | ⟨w, d', heval, rfl⟩
    · exact .stops hb
    · have hread : d.read Γ.registry value' = (w, d') := heval
      have hb' := (hfine d (.refl _ d)).trans hb
      rw [hread] at hb'
      exact ⟨hb', by simp⟩
  have hchecked := hsurveyed.1.2
  rcases htask with ⟨hin, rfl⟩ | ⟨hin, rfl⟩
  · have hr : (Task.value value).Fits Γ.registry (Covered (Backed names)) (Covered (Backed names))
        (Backed names) s := h.laid.fitsRet rfl fun z hz => Expr.names_of_forced hz
    exact hd.front hv hentry (kinds_covered _) hnames hr rfl hsurveyed.1.1 (by simp) h.tracks h.breached
      hrun fun _ hb hm => hend hb hm.1.fine
  · have hr : (Task.returned value).Fits Γ.registry (Covered (Backed names)) (Covered (Backed names))
        (Backed names) s := h.laid.fitsRet rfl fun z hz => hz
    rw [hin, if_pos rfl, Bool.and_eq_true] at hchecked
    exact hd.front hv hentry (kinds_covered _) hnames hr rfl ⟨hsurveyed.1.1.2, hchecked.1, .inl hsurveyed.1.1.1⟩
      (fun _ => hin) h.tracks h.breached hrun fun _ hb hm => hend hb hm.1

section Branch
variable (h : Quiet Γ v outer names known parts s (.branch test whenTrue whenFalse :: rest) c)
  (hd : Derives Γ (.value test) s [(test', completion)] binds s₁)
  (ht : Analyzed Γ whenTrue s₁.flush.enter whenTrue' t)
  (hu : Analyzed Γ whenFalse (s₁.flush.resume t).enter whenFalse' u)
include h hd ht

omit hv hnames in
theorem Quiet.own_true (hin : s₁.inEntry = true) : ∀ x ∈ t.selfResults, x ∈ v.own := by
  have hsurveyed := h.surveyed
  rw [← hd.grows.inEntry, hin] at hsurveyed
  simp only [areSurveyed, isSurveyed, Bool.and_eq_true] at hsurveyed
  exact ht.own hentry (h.laid.ofTrue hd).covering hsurveyed.1.1.2 fun x hx =>
    h.tracks.results (hd.grows.inEntry ▸ hin) (hd.selfResults hentry hx)

include hu

omit hv hnames in
theorem Quiet.own_false (hin : s₁.inEntry = true) : ∀ x ∈ u.selfResults, x ∈ v.own := by
  have hsurveyed := h.surveyed
  rw [← hd.grows.inEntry, hin] at hsurveyed
  simp only [areSurveyed, isSurveyed, Bool.and_eq_true] at hsurveyed
  have hstart : ∀ x ∈ t.selfResults, x ∈ v.own := h.own_true hentry hd ht hin
  exact hu.own hentry (h.laid.ofFalse hd ht).covering hsurveyed.1.2 hstart

omit hv hnames in
theorem Quiet.joined {w : State} {d' : Progress} (hs₁ : Tracks v s₁.flush d) (hw : w = t ∨ w = u)
    (hend : Tracks v w d')
    (hchanged : ∀ z ∈ changed, z ∈ localNames whenTrue ++ localNames whenFalse)
    (hagree : Agrees (fun z => s₁.flush.Past z ∧ z ∉ changed) d d') : Tracks v (s₁.flush.joined t u) d' := by
  have hsurveyed := h.surveyed
  simp only [areSurveyed, isSurveyed, Bool.and_eq_true] at hsurveyed
  obtain ⟨tables, hstems⟩ := h.laid.behindTest hd
  have hkept := fun z hz => h.laid.kept hd ht hu (z := z) (hchanged z hz)
  have hlocal : ∀ z ∈ localNames whenTrue ++ localNames whenFalse, v.data z = true := fun z hz =>
    (mem_append.1 hz).elim (data_of_local hsurveyed.1.1.2) (data_of_local hsurveyed.1.2)
  refine hs₁.across tables (forgets_joined _ _ _) hagree (fun z hz => (hkept z hz).1)
    (fun z hz => (hkept z hz).2.1) (fun z hz => (hkept z hz).2.2) hend (fun z hz => ?_) (fun z hz => ?_)
    fun hin z hz => ?_
  · rw [completionOf_joined ht.inserts hu.inserts, Ne, Completion.merge_eq_incomplete, not_or] at hz
    rcases hw with rfl | rfl
    · exact hz.1
    · exact hz.2
  · rcases mem_append.1 hz with hz | hz
    · exact .inl (hlocal z (hchanged z hz))
    · have hstems' : (s₁.flush.resume t).Stems := hstems.mono (grows_resume ht.grows)
      rcases mem_append.1 hz with hz | hz
      · rcases ht.bound_keys hstems hz with hz | hz | hz
        · cases hz
        · exact .inl (hlocal z (mem_append_left _ hz))
        · exact .inr hz
      · rcases hu.bound_keys hstems' hz with hz | hz | hz
        · cases hz
        · exact .inl (hlocal z (mem_append_right _ hz))
        · exact .inr hz
  · rw [(grows_joined ht.grows hu.grows).inEntry] at hin
    rw [(kept_joined _ _ _).1] at hz
    exact h.own_false hentry hd ht hu hin z hz

/-- A branch breaches nothing if neither side does. -/
theorem Quiet.branch
    (hrun : Exec (machine Γ.registry) c (binds ++ .branch test' whenTrue' whenFalse' :: out) o)
    (htrue : RunsQuiet Γ v names s₁.flush.enter whenTrue whenTrue' t)
    (hfalse : RunsQuiet Γ v names (s₁.flush.resume t).enter whenFalse whenFalse' u)
    (hnext : RunsQuiet Γ v names (s₁.flush.joined t u) rest out s') : Ends v s' o := by
  have hsurveyed := h.surveyed
  simp only [areSurveyed, isSurveyed, Bool.and_eq_true] at hsurveyed
  obtain ⟨tables, hstems⟩ := h.laid.behindTest hd
  have hgrows := grows_resume ht.grows
  have hjoined := grows_joined ht.grows hu.grows
  refine hd.front hv hentry h.laid.kinds hnames (h.laid.fits (e := test) rfl (by simp)) rfl hsurveyed.1.1.1
    (by simp) h.tracks h.breached hrun fun {d} hs₁ hb hm hrun => ?_
  rcases hrun.branch_cases with rfl | ⟨w, b, d', heval, -, hrun⟩
  · exact .stops hb
  have hsame : (d.read Γ.registry test').2 = d' := congrArg Prod.snd heval
  have hb' : d'.breached = false := hsame ▸ (hm.1.fine d (.refl _ d)).trans hb
  have hs₁' : Tracks v s₁.flush d' := (hsame ▸ hs₁.read test').forget (forgets_flush _) (fun _ hz => hz)
    (by simp) fun hin z hz => hs₁.results hin hz
  have hfalls : ∀ {changed : List String} {w : State} {d''}, w = t ∨ w = u → Tracks v w d'' →
      (∀ z ∈ changed, z ∈ localNames whenTrue ++ localNames whenFalse) →
      Agrees (fun z => s₁.flush.Past z ∧ z ∉ changed) d' d'' → d''.breached = false →
      Exec (machine Γ.registry) d'' out o → Ends v s' o := by
    intro changed w d'' hw hend hchanged hagree hb'' hrun
    refine @hnext outer _ _ _ _
      ⟨h.laid.joined hd ht hu, ?_, h.joined hentry hd ht hu hs₁' hw hend hchanged hagree, hb''⟩ hrun
    rw [hjoined.inEntry, show s₁.flush.inEntry = s.inEntry from hd.grows.inEntry]
    exact hsurveyed.2
  cases b with
  | true =>
    have hstart : Quiet Γ v false names (known ++ test.forcedNames Γ.registry)
        (parts ++ test.tupleNames) s₁.flush.enter whenTrue d' := by
      refine ⟨h.laid.ofTrue hd, ?_, hs₁'.forget (forgets_enter _) (fun z hz => ?_) (by simp)
        fun hin z hz => hs₁'.results hin hz, hb'⟩
      · rw [show s₁.flush.enter.inEntry = s.inEntry from hd.grows.inEntry]
        exact hsurveyed.1.1.2
      · rwa [completionOf_enter] at hz
    rcases hrun with ⟨d'', hblock, hrun⟩ | ⟨r, d'', hblock, rfl⟩
    · have hend := htrue hstart hblock
      refine hfalls (.inl rfl) (hend.tracks rfl) (fun z hz => mem_append_left _ hz)
        ((Exec.agrees hblock).mono fun z hz hmem => ?_) hend.breached hrun
      exact (ht.bound_past hstems ⟨Nat.le_refl _, Nat.le_refl _⟩ z hmem).elim hz.2 fun hn => hn hz.1
    · exact (htrue hstart hblock).leaves
  | false =>
    have hstems' : (s₁.flush.resume t).Stems := hstems.mono hgrows
    have hstart : Quiet Γ v false names (known ++ test.forcedNames Γ.registry)
        (parts ++ test.tupleNames) (s₁.flush.resume t).enter whenFalse d' := by
      have hin' : (s₁.flush.resume t).enter.inEntry = s.inEntry := hgrows.inEntry.trans hd.grows.inEntry
      refine ⟨h.laid.ofFalse hd ht, ?_, hs₁'.forget ((forgets_resume _ t).trans (forgets_enter _))
        (fun z hz => ?_) (by simp) fun hin z hz => ?_, hb'⟩
      · rw [hin']
        exact hsurveyed.1.2
      · rwa [completionOf_enter] at hz
      · exact h.own_true hentry hd ht (hgrows.inEntry.symm.trans hin) z hz
    rcases hrun with ⟨d'', hblock, hrun⟩ | ⟨r, d'', hblock, rfl⟩
    · have hend := hfalse hstart hblock
      refine hfalls (.inr rfl) (hend.tracks rfl) (fun z hz => mem_append_right _ hz)
        ((Exec.agrees hblock).mono fun z hz hmem => ?_) hend.breached hrun
      exact (hu.bound_past hstems' hgrows.draws z hmem).elim hz.2 fun hn => hn hz.1
    · exact (hfalse hstart hblock).leaves

end Branch

section Loop
variable {trips : List Trip} (h : Quiet Γ v outer names known parts s (.loop test body :: rest) c)
  (hd : Derives Γ (.value test) (s.invalidateAll (bodyTargets body)) [(test', completion)] binds s₁)
  (hraised : s₁.flush.RaisedBy selfResults head trips)
  (htrips : ∀ trip ∈ trips, Analyzed Γ body (s₁.flush.tripStart trip.selfResults trip.head) trip.out trip.state)
  (htrip : Analyzed Γ body (s₁.flush.tripStart selfResults head) body' t)
  (hsettled : isSettled s₁.flush head (joinHead s₁.flush head t.completions.inner) = true)
include h hd hraised htrips htrip

omit hv hnames in
theorem Quiet.own_trips (hin : s₁.inEntry = true) :
    (∀ x ∈ selfResults, x ∈ v.own) ∧ ∀ x ∈ t.selfResults, x ∈ v.own := by
  have hinvalidate := s.grows_invalidateAll (bodyTargets body)
  have hin' : s.inEntry = true := (hd.grows.inEntry.trans hinvalidate.inEntry).symm.trans hin
  have hsurveyed := h.surveyed
  rw [hin'] at hsurveyed
  simp only [areSurveyed, isSurveyed, Bool.and_eq_true] at hsurveyed
  have hs₁ : ∀ x ∈ s₁.flush.selfResults, x ∈ v.own := fun x hx =>
    h.tracks.results hin' ((s.kept_invalidateAll _).1 ▸ hd.selfResults hentry hx)
  have hself := hraised.own h.laid.covering hd htrips hs₁ fun trip hmem hb =>
    (htrips trip hmem).own hentry hb hsurveyed.1.2
  refine ⟨hself, htrip.own hentry (h.laid.tripStart hd hraised htrips).covering hsurveyed.1.2 ?_⟩
  rwa [(kept_tripStart _ _ _).1]

include hsettled

/-- A loop breaches nothing if its body does not. -/
theorem Quiet.loop (hrun : Exec (machine Γ.registry) c (binds ++ .loop test' body' :: out) o)
    (hbody : RunsQuiet Γ v names (s₁.flush.tripStart selfResults head) body body' t)
    (hnext : RunsQuiet Γ v names (s₁.flush.settled t head) rest out s') : Ends v s' o := by
  have hsurveyed := h.surveyed
  simp only [areSurveyed, isSurveyed, Bool.and_eq_true] at hsurveyed
  obtain ⟨tables, hstems⟩ := h.laid.headTables hd
  have hinvalidate := s.grows_invalidateAll (bodyTargets body)
  have hsame : s₁.flush.inEntry = s.inEntry := hd.grows.inEntry.trans hinvalidate.inEntry
  have hgrowsTrip := grows_tripStart s₁.flush selfResults head
  have hgrows := grows_settled htrip.grows
  have hlocal : ∀ z ∈ localNames body, v.data z = true := fun z => data_of_local hsurveyed.1.2
  have hown := h.own_trips hentry hd hraised htrips htrip
  have hhead := hraised.covers
  have ht₀ : Tracks v (s.invalidateAll (bodyTargets body)) c := by
    refine h.tracks.forget (forgets_invalidateAll _ _) (fun x hx => ?_)
      (fun x hx => hlocal x (mem_localNames_of_bodyTargets hx)) fun hin x hx => ?_
    · rwa [completionOf_congr (completions_invalidateAll _)] at hx
    · rw [(kept_invalidateAll _ _).1] at hx
      exact h.tracks.results (hinvalidate.inEntry.symm.trans hin) hx
  refine hd.front hv hentry h.laid.headKinds hnames h.laid.headFits rfl hsurveyed.1.1 (by simp) ht₀
    h.breached hrun fun {d} hs₁ hb hm hrun => ?_
  have hstart : Tracks v (s₁.flush.tripStart selfResults head) d := by
    refine hs₁.forget ((forgets_flush _).trans (forgets_tripStart _ _ _)) (fun x hx hs => ?_)
      (by simp) fun hin x hx => ?_
    · exact hx (completionOf_head hhead hs)
    · rw [(kept_tripStart _ _ _).1] at hx
      exact (hown (hgrowsTrip.inEntry.symm.trans hin)).1 x hx
  have hout := htrip.bound_past hstems.tripStart hgrowsTrip.draws
  -- what the test forces is the same in front of every trip
  have hfixed : ∀ z ∈ test'.forcedNames Γ.registry, z ∉ localNames body' := by
    intro z hz hmem
    have n := hd.noted h.laid.headKinds h.laid.headFits
    have hpast : s₁.flush.Past z := n.past _ mem_cons_self z (Expr.names_of_forced hz)
    have hbody : z ∈ localNames body := (hout z hmem).resolve_right fun hn => hn hpast
    rcases hd.forced_names h.laid.headKinds (.inl ⟨test, rfl⟩) h.laid.headFits _ mem_cons_self z hz with hz | hz
    · exact (h.laid.bodyNames hbody).1 hz
    · exact h.laid.test_fixed hbody hz
  have htest : ∀ {e w e'}, Tracks v (s₁.flush.tripStart selfResults head) e ∧ e.breached = false ∧
      Agrees (· ∈ test'.forcedNames Γ.registry) d e → (machine Γ.registry).eval e test' w e' →
      Tracks v (s₁.flush.tripStart selfResults head) e' ∧ e'.breached = false ∧
        Agrees (· ∈ test'.forcedNames Γ.registry) d e' := by
    rintro e w e' ⟨ht, hb, hagree⟩ heval
    cases (congrArg Prod.snd heval : (e.read Γ.registry test').2 = e')
    exact ⟨ht.read test', (hm.1.fine e hagree).trans hb, hagree.read test'⟩
  have htripStart : ∀ {e}, Tracks v (s₁.flush.tripStart selfResults head) e → e.breached = false →
      Quiet Γ v false names (known ++ test.forcedNames Γ.registry) (parts ++ test.tupleNames)
        (s₁.flush.tripStart selfResults head) body e := by
    intro e ht hb
    refine ⟨h.laid.tripStart hd hraised htrips, ?_, ht, hb⟩
    rw [hgrowsTrip.inEntry, show s₁.flush.enter.inEntry = s.inEntry from hsame]
    exact hsurveyed.1.2
  refine @Exec.loop_invariant _ _ _ _ _ _ _ _ (fun e => Tracks v (s₁.flush.tripStart selfResults head) e ∧
    e.breached = false ∧ Agrees (· ∈ test'.forcedNames Γ.registry) d e) (Ends v s') hrun
    ⟨hstart, hb, .refl _ d⟩ (fun e he => .stops he.2.1) ?_ ?_ ?_
  · intro e w e' o he heval _ hrun
    obtain ⟨ht, hb, -⟩ := htest he heval
    refine @hnext outer _ _ _ _
      ⟨h.laid.settled hd hraised htrips htrip, ?_, ht.forget (forgets_trips _ _) (fun x hx => ?_)
      (by simp) fun hin x hx => ?_, hb⟩ hrun
    · rw [hgrows.inEntry, hsame]
      exact hsurveyed.2
    · rwa [completionOf_settled hhead htrip.inserts hsettled] at hx
    · rw [(kept_settled _ _ _).1] at hx
      exact (hown (hgrows.inEntry.symm.trans hin)).2 x hx
  · intro e w e' e'' he heval _ hblock
    obtain ⟨ht, hb, hagree⟩ := htest he heval
    have hend := hbody (htripStart ht hb) hblock
    have hrest := Exec.agrees hblock
    refine ⟨ht.across (tables.tripStart (h.laid.covering.tripKeys hd hraised fun trip hmem =>
        (htrips trip hmem).covered)) (.none (fun _ => rfl) (fun _ => rfl) fun _ => rfl)
      (hrest.mono fun z hz hmem => ?_) (fun z hz => (h.laid.bodyNames hz).1) (fun z hz => (h.laid.bodyNames hz).2)
      (fun z hz => .inr fun hF => hF.2 hz) (hend.tracks rfl) (fun x hx ht => ?_) (fun z hz => ?_) fun hin x hx => ?_,
      hend.breached, hagree.trans (hrest.mono hfixed)⟩
    · exact (htrip.bound_past hstems.tripStart (.refl _) z hmem).elim hz.2 fun hn => hn hz.1
    · have hmerge := completionOf_trip (x := x) hhead htrip.inserts hsettled
      rw [ht] at hmerge
      exact hx (hmerge ▸ Completion.merge_eq_incomplete.2 (.inr rfl))
    · rw [append_nil] at hz
      exact .inl (hlocal z hz)
    · rw [(kept_tripStart _ _ _).1] at hx
      exact (hown (hgrowsTrip.inEntry.symm.trans hin)).1 x hx
  · intro e w e' r e'' he heval _ hblock
    obtain ⟨ht, hb, -⟩ := htest he heval
    exact (hbody (htripStart ht hb) hblock).leaves

end Loop

end Cases

end Blocks

end Phases
end DataParallel
