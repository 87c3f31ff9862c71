import DataParallel.Proofs.Phases.Freshness
import DataParallel.Proofs.Phases.Coverage

/-! Realized names are never read stale in procedures that bind names where the analysis can see it.

What a branch binds is forgotten behind it as far as its own two blocks bind it; what is bound in a
block further inside is not. And the test of a loop is read once, although it is evaluated after
every trip. -/

namespace DataParallel

open List Name Phases.State Stmt

namespace Stmt

/-- The names that a statement forces before one of its blocks is run. -/
def headForced (registry : Registry) : Stmt → List String
  | .bind _ value => value.forcedNames registry
  | .branch test _ _ | .loop test _ => test.forcedNames registry
  | _ => []

def headBuilt : Stmt → List String
  | .bind _ value => value.builtNames
  | _ => []

mutual

/-- Whether a statement binds names that are read through others only where the analysis takes note
of it. `forced` has the names that were forced before, `built` those that tuples and closures were
built from. -/
def isOrderly (registry : Registry) (forced built : List String) : Stmt → Bool
  | .bind _ value => value.isRecordable
  | .ret value => value.buildsNoTuple
  | .branch test whenTrue whenFalse =>
    test.buildsNoTuple &&
    (localNames whenTrue ++ localNames whenFalse).all (fun x =>
      x ∈ directNames whenTrue ++ directNames whenFalse || x ∉ forced ++ test.forcedNames registry ++ built) &&
    areOrderly registry (forced ++ test.forcedNames registry) built whenTrue &&
    areOrderly registry (forced ++ test.forcedNames registry) built whenFalse
  | .loop test body =>
    test.buildsNoTuple &&
    (test.forcedNames registry = [] || (localNames body).all fun x => x ∉ test.forcedNames registry ++ built) &&
    areOrderly registry (forced ++ test.forcedNames registry) built body
  | _ => false

def areOrderly (registry : Registry) (forced built : List String) : List Stmt → Bool
  | [] => true
  | s :: rest =>
    isOrderly registry forced built s &&
      areOrderly registry (forced ++ s.headForced registry) (built ++ s.headBuilt) rest

end

end Stmt

namespace Phases

variable {B F G S : String → Prop} {free : Prop} {s : State} {c : Clock} {x : String} {e : Expr} {block out : List Stmt}
  {o : Outcome Clock Unit} {v : Unit}

def Calm (o : Outcome Clock Unit) : Prop := ∀ y, ¬ o.config.stale y

section Frames
variable {t : State} {c' : Clock} {y : String} {names : List String}

theorem Fresh.forget (h : Fresh s c) (hf : Forgets s names t) : Fresh t c :=
  ⟨h.stamps, h.calm, fun hx => h.standIns (hf.of_standIn hx).2⟩

theorem Fresh.read (h : Fresh s c) (he : ∀ z ∈ e.names, ¬ c.Stale z)
    (heval : Clock.machine.eval c e v c') : Fresh s c' := by
  cases heval
  exact ⟨h.stamps, fun z hz => he z hz.1 hz.2, h.standIns⟩

structure AtHead (s : State) (test : Expr) (c : Clock) : Prop where
  fresh : Fresh s c
  clean : ∀ z ∈ test.names, ¬ c.Stale z

theorem AtHead.read (h : AtHead s e c) (heval : Clock.machine.eval c e v c') : Fresh s c' :=
  h.fresh.read h.clean heval

theorem Fresh.assign (h : Fresh s c) (ht : s.Noted F B S G free) (hx : ¬ IsRealized x) (v : Unit)
    (hstand : ∀ {z e}, t.standIn? z = some e → z ≠ x ∧ s.standIn? z = some e) :
    Fresh t (Clock.machine.assign x v c) := by
  refine ⟨Clock.stamps_le_assign h.stamps, fun z hz => h.calm z hz.1, fun {z w typing} hz hroot => ?_⟩
  obtain ⟨hne, hz⟩ := hstand hz
  obtain ⟨-, -, w', typing', hw, -, hstands, -⟩ := ht.standIns hz
  cases hw
  have hkept : ∀ a, StandsFor a w → (Clock.machine.assign x v c).stamps a = c.stamps a := by
    intro a ha
    refine Function.update_of_ne (fun hax => hne ?_) _ _
    exact hstands.root_unique (hax ▸ ha) hroot hx
  rw [Clock.stale_congr hkept]
  exact h.standIns hz hroot

theorem stale_iff_of_frame (hrun : Exec Clock.machine c out o)
    (hout : ∀ z ∈ localNames out, z ∈ localNames block ∨ ¬ s.Past z) (hy : s.Past y)
    (hblock : ∀ z, StandsFor z y → z ∉ localNames block) :
    o.config.Stale y ↔ c.Stale y := by
  refine Clock.stale_congr fun z hz => hrun.stamps_unchanged fun hmem => ?_
  rcases hout z hmem with hmem | hpast
  · exact hblock z hz hmem
  · exact hpast (hy.of_standsFor hz)

theorem Fresh.frame (h : Fresh s c) (ht : s.Noted F B S G free) (hrun : Exec Clock.machine c out o)
    (hcalm : Calm o) (hout : ∀ z ∈ localNames out, z ∈ localNames block ∨ ¬ s.Past z)
    (hsource : ∀ z ∈ localNames block, ¬ IsDrawn z) (hf : Forgets s names t)
    (hkept : ∀ z ∈ localNames block, z ∈ names ∨ ¬ F z) : Fresh t o.config := by
  refine ⟨hrun.stamps_le h.stamps, hcalm, fun {x y typing} hx hroot => ?_⟩
  obtain ⟨hnames, hx⟩ := hf.of_standIn hx
  obtain ⟨hF, -, y', typing', hy, -, hstands, hpast⟩ := ht.standIns hx
  cases hy
  rw [stale_iff_of_frame hrun hout hpast fun z hz hmem => ?_]
  · exact h.standIns hx hroot
  · have hzx : x = z := hstands.root_unique hz hroot fun hr => hsource z hmem (.inl hr)
    subst hzx
    exact (hkept x hmem).elim hnames fun hn => hn hF

end Frames

section Blocks
variable {Γ : Context} {s' : State} {e' : Expr} {completion : Completion} {binds : List Stmt} {task : Task}
  {forced built : List String}

/-- Names that were forced, or that something was built from, are read through others; what is on
record holds no calls. -/
abbrev State.Kept (forced built : List String) (s : State) : Prop :=
  s.Noted (Among (forced ++ built)) (Among built) (fun _ => True) (fun _ => True) True

theorem kinds_kept : Kinds (Among (forced ++ built)) (Among built) (fun _ => True) fun _ => True :=
  kinds_among (fun _ _ => trivial) fun _ _ => trivial

theorem Derives.passes {results : List (Expr × Completion)} (hk : Kinds F B S G)
    (h : Derives Γ task s results binds s') (hr : task.Fits Γ.registry F B S s G True)
    (hsource : ∀ e ∈ task.exprs, ∀ z ∈ e.names, ¬ IsDrawn z)
    (hc : Fresh s c) (hrun : Exec Clock.machine c binds o) : Passes True results s' o :=
  have hclean : ∀ {c}, task.Clean c :=
    Task.clean_of_roots fun e he z hz hr => hsource e he z hz (.inl hr)
  (h.fresh hk hr hc (.inl hclean) hrun).weaken fun _ => hclean

theorem Fresh.record {entry : String} (h : Fresh s c) (ht : s.Noted F B S G free) (hx : ¬ IsDrawn x)
    (v : Unit) : Fresh (s.record entry x e completion).flush (Clock.machine.assign x v c) := by
  refine h.assign ht (fun hr => hx (.inl hr)) v fun {z f} hz => ?_
  have hz' : (s.record entry x e completion).standIn? z = some f := hz
  rw [standIn?_record] at hz'
  split at hz'
  · cases hz'
  · exact ⟨‹_›, hz'⟩

theorem calm_of_binds {results : List (Expr × Completion)} {rest : List Stmt}
    (hpasses : ∀ {o}, Exec Clock.machine c binds o → Passes True results s' o)
    (hnext : ∀ {c'}, Passes True results s' (.falls c') → Exec Clock.machine c' rest o → Calm o)
    (hrun : Exec Clock.machine c (binds ++ rest) o) : Calm o := by
  rcases hrun.append_cases with ⟨c', hbinds, hrun⟩ | ⟨r, c', rfl, hbinds⟩
  · exact hnext (hpasses hbinds) hrun
  · exact (hpasses hbinds).calm

theorem Derives.calm_return {rest : List Stmt}
    (h : Derives Γ task s [(e', completion)] binds s') (ht : s.Kept forced built) (hs : s.Stems)
    (hplain : task.isPlain = true) (hexprs : task.exprs = [e]) (hsource : ∀ z ∈ e.names, ¬ IsDrawn z)
    (hc : Fresh s c) (hrun : Exec Clock.machine c (binds ++ .ret e' :: rest) o) : Calm o := by
  have hall : Kinds (fun _ => True) (fun _ => True) (fun _ => True) fun _ => True :=
    ⟨fun _ _ => trivial, fun _ _ => trivial, fun _ _ => trivial, fun _ _ => trivial⟩
  have hnames : ∀ f ∈ task.exprs, ∀ z ∈ f.names, ¬ IsDrawn z := by
    intro f hf
    rw [hexprs] at hf
    cases mem_singleton.1 hf
    exact hsource
  have hr : task.Fits Γ.registry (fun _ => True) (fun _ => True) (fun _ => True) s (fun _ => True) True :=
    ⟨hs, ht.imp (fun _ => ⟨fun _ => trivial, id⟩) fun _ _ => trivial,
      fun f hf z hz => past_of_source (hnames f hf z hz), fun _ _ => trivial, fun _ _ _ => trivial,
      fun _ _ => trivial, fun _ _ _ _ => trivial, fun _ => hplain⟩
  refine calm_of_binds (h.passes hall hr hnames hc) (fun p hrun => ?_) hrun
  rcases hrun.ret_cases with rfl | ⟨v, c₂, heval, rfl⟩
  · exact p.calm
  · exact ((p.fresh rfl).read (p.clean trivial rfl _ mem_cons_self) heval).calm

/-- What is known in front of a block that binds names where the analysis can see it. -/
structure Orderly (Γ : Context) (forced built : List String) (s : State) (block : List Stmt) : Prop where
  stems : s.Stems
  kept : s.Kept forced built
  source : ∀ x ∈ namesAll block, ¬ IsDrawn x
  orderly : areOrderly Γ.registry forced built block = true

section Statements
variable {s₁ t u : State} {c' c'' : Clock} {target test test' value value' : Expr} {selfResults : List String}
  {head : Table Completion} {whenTrue whenTrue' whenFalse whenFalse' body body' rest : List Stmt}

theorem Orderly.bind_fits (h : Orderly Γ forced built s (.bind target value :: rest)) :
    (Task.value value).Fits Γ.registry
      (Among (forced ++ value.forcedNames Γ.registry ++ (built ++ value.builtNames)))
      (Among (built ++ value.builtNames)) (fun _ => True) s (fun _ => True) True := by
  have horderly := h.orderly
  simp only [areOrderly, isOrderly, Bool.and_eq_true] at horderly
  have hplain := Expr.partsBuildNoTuple_of_recordable horderly.1
  refine .ofText h.stems h.kept (fun _ => id) (fun z hz => ?_) (fun z hz => h.source z (by simp [hz])) (fun _ => hplain)
    fun _ _ => id
  exact mem_append.2 ((mem_append.1 hz).imp_right (Expr.builtNames_of_tupleNames hplain))

theorem Orderly.bind (h : Orderly Γ forced built s (.bind target value :: rest))
    (hx : target.symbol? = some x)
    (hd : Derives Γ (.value value) s [(value', completion)] binds s₁) :
    Orderly Γ (forced ++ value.forcedNames Γ.registry) (built ++ value.builtNames)
      (s₁.record Γ.entry x value' completion).flush rest := by
  have horderly := h.orderly
  simp only [areOrderly, isOrderly, headForced, headBuilt, Bool.and_eq_true] at horderly
  have htarget : ¬ IsDrawn x := h.source x (by simp [Expr.names_of_symbol hx])
  have hrecord := hd.noted_record kinds_kept h.bind_fits (fun z hz => .inr (mem_append_right _ hz))
    (past_of_source htarget) (fun _ => trivial) (fun _ _ => trivial) fun _ => horderly.1
  have hgrows := (s₁.grows_record Γ.entry x value' completion).trans (grows_flush _)
  exact ⟨(h.stems.mono hd.grows).mono hgrows, hrecord.flush, fun z hz => h.source z (by simp [hz]), horderly.2⟩

section Branch
variable (h : Orderly Γ forced built s (.branch test whenTrue whenFalse :: rest))

include h in
theorem Orderly.branch_fits :
    (Task.value test).Fits Γ.registry (Among (forced ++ test.forcedNames Γ.registry ++ built)) (Among built)
      (fun _ => True) s (fun _ => True) True := by
  have horderly := h.orderly
  simp only [areOrderly, isOrderly, Bool.and_eq_true] at horderly
  obtain ⟨⟨⟨⟨hplain, -⟩, -⟩, -⟩, -⟩ := horderly
  exact .ofText h.stems h.kept (fun _ => id) (by simp [Expr.tupleNames_of_builds hplain])
    (fun z hz => h.source z (by simp [hz])) (fun _ => Expr.partsBuildNoTuple_of_builds hplain) fun _ _ => id

variable (hd : Derives Γ (.value test) s [(test', completion)] binds s₁)
  (ht : Analyzed Γ whenTrue s₁.flush.enter whenTrue' t)
  (hu : Analyzed Γ whenFalse (s₁.flush.resume t).enter whenFalse' u)
include h hd ht hu

theorem Orderly.branch :
    Orderly Γ (forced ++ test.forcedNames Γ.registry) built s₁.flush.enter whenTrue ∧
    Orderly Γ (forced ++ test.forcedNames Γ.registry) built (s₁.flush.resume t).enter whenFalse ∧
    Orderly Γ (forced ++ test.forcedNames Γ.registry) built (s₁.flush.joined t u) rest := by
  have tables := (hd.noted kinds_kept h.branch_fits).tables.flush
  have hstems : s₁.flush.Stems := (h.stems.mono hd.grows).mono (grows_flush _)
  have hresumed : (s₁.flush.resume t).Stems := hstems.mono (grows_resume ht.grows)
  have hgrows := grows_joined ht.grows hu.grows
  have horderly := h.orderly
  simp only [areOrderly, isOrderly, headForced, headBuilt, Bool.and_eq_true, append_nil] at horderly
  obtain ⟨⟨⟨-, htrue⟩, hfalse⟩, hrest⟩ := horderly
  exact ⟨⟨hstems, tables.enter, fun z hz => h.source z (by simp [hz]), htrue⟩,
    ⟨hresumed, (tables.resume ht.grows).enter, fun z hz => h.source z (by simp [hz]), hfalse⟩,
    ⟨hstems.mono hgrows, tables.forget hgrows.draws (forgets_joined _ _ _) fun _ => .inr trivial,
      fun z hz => h.source z (by simp [hz]), hrest⟩⟩

/-- What one of the two blocks binds is forgotten behind them, or nothing was read in its place. -/
theorem Orderly.fresh_joined {b : Bool} (hc : Fresh s₁.flush c)
    (hrun : Exec Clock.machine c (if b then whenTrue' else whenFalse') o) (hcalm : Calm o) :
    Fresh (s₁.flush.joined t u) o.config := by
  have horderly := h.orderly
  simp only [areOrderly, isOrderly, Bool.and_eq_true] at horderly
  obtain ⟨⟨⟨⟨-, hkept⟩, -⟩, -⟩, -⟩ := horderly
  have tables := (hd.noted kinds_kept h.branch_fits).tables.flush
  have hstems : s₁.flush.Stems := (h.stems.mono hd.grows).mono (grows_flush _)
  have hgrows := grows_resume ht.grows
  have hresumed : (s₁.flush.resume t).Stems := hstems.mono hgrows
  have hlocal : ∀ z ∈ localNames whenTrue ++ localNames whenFalse, ¬ IsDrawn z := by
    refine fun z hz => h.source z (mem_namesAll_of_local ?_)
    exact mem_localNames_branch_iff.2 (.inl (mem_append.1 hz))
  have hbound : ∀ z ∈ localNames whenTrue ++ localNames whenFalse, z ∈ t.bound.inner.keys ++ u.bound.inner.keys ∨
      ¬ Among (forced ++ test.forcedNames Γ.registry ++ built) z := by
    intro z hz
    have hbound := all_eq_true.1 hkept z hz
    rw [Bool.or_eq_true, decide_eq_true_eq, decide_eq_true_eq, mem_append] at hbound
    rcases hbound with (hdirect | hdirect) | hunseen
    · exact .inl (mem_append_left _ (ht.direct hdirect))
    · exact .inl (mem_append_right _ (hu.direct hdirect))
    · exact .inr fun hamong => hunseen (hamong.of_source (hlocal z hz))
  cases b with
  | true =>
    exact hc.frame tables hrun hcalm (ht.bound_past hstems ⟨Nat.le_refl _, Nat.le_refl _⟩)
      (fun z hz => hlocal z (mem_append_left _ hz)) (forgets_joined _ _ _) fun z hz => hbound z (mem_append_left _ hz)
  | false =>
    exact hc.frame tables hrun hcalm (hu.bound_past hresumed hgrows.draws)
      (fun z hz => hlocal z (mem_append_right _ hz)) (forgets_joined _ _ _) fun z hz => hbound z (mem_append_right _ hz)

end Branch

/-- The names that are read through others in the test of a loop, none of which is bound in its
body. -/
def Spared (Γ : Context) (forced built : List String) (test : Expr) (body : List Stmt) (z : String) : Prop :=
  Among (forced ++ test.forcedNames Γ.registry ++ built) z ∧ z ∉ localNames body

section Loop
variable (h : Orderly Γ forced built s (.loop test body :: rest))

section
include h

theorem Orderly.local_source : ∀ z ∈ localNames body, ¬ IsDrawn z :=
  fun z hz => h.source z (by simp [mem_namesAll_of_local hz])

theorem Orderly.kinds :
    Kinds (Spared Γ forced built test body) (Among built) (fun _ => True) fun _ => True :=
  ⟨fun _ hz => .inl hz, fun z hz => ⟨.inl hz, fun hmem => h.local_source z hmem hz⟩, fun _ _ => trivial,
    fun _ _ => trivial⟩

theorem Orderly.loop_fits :
    (Task.value test).Fits Γ.registry (Spared Γ forced built test body) (Among built) (fun _ => True)
      (s.invalidateAll (bodyTargets body)) (fun _ => True) True := by
  have horderly := h.orderly
  simp only [areOrderly, isOrderly, Bool.and_eq_true, Bool.or_eq_true, decide_eq_true_eq, all_eq_true] at horderly
  obtain ⟨⟨⟨hplain, hbody⟩, -⟩, -⟩ := horderly
  refine .ofLoop h.stems h.kept (fun _ => id) (by simp [Expr.tupleNames_of_builds hplain])
    (fun z hz => h.source z (by simp [hz])) (fun _ => Expr.partsBuildNoTuple_of_builds hplain) (fun _ _ => id)
    (fun x hx hf => ?_) fun hne x hx hb => ?_
  · exact hbody.elim (fun hnone => by simp [hnone] at hf) fun hbody => hbody x hx (mem_append_left _ hf)
  · exact (hbody.resolve_left hne) x hx (mem_append_right _ (hb.of_source (h.local_source x hx)))

end

variable (hd : Derives Γ (.value test) (s.invalidateAll (bodyTargets body)) [(test', completion)] binds s₁)
  (ht : Analyzed Γ body (s₁.flush.tripStart selfResults head) body' t)
include h hd ht

theorem Orderly.loop :
    Orderly Γ (forced ++ test.forcedNames Γ.registry) built (s₁.flush.tripStart selfResults head) body ∧
    Orderly Γ (forced ++ test.forcedNames Γ.registry) built (s₁.flush.settled t head) rest := by
  have tables : s₁.flush.Kept (forced ++ test.forcedNames Γ.registry) built :=
    (hd.noted h.kinds h.loop_fits).tables.flush.imp (fun _ => ⟨And.left, id⟩) fun _ => id
  have hstems : s₁.flush.Stems := (h.loop_fits.stems.mono hd.grows).mono (grows_flush _)
  have htrip := grows_tripStart s₁.flush selfResults head
  have hgrows := grows_settled ht.grows
  have horderly := h.orderly
  simp only [areOrderly, isOrderly, headForced, headBuilt, Bool.and_eq_true, append_nil] at horderly
  exact ⟨⟨hstems.tripStart, tables.forget htrip.draws (forgets_tripStart _ _ _) fun _ => .inr trivial,
      fun z hz => h.source z (by simp [hz]), horderly.1.2⟩,
    ⟨hstems.mono hgrows, tables.forget hgrows.draws (forgets_settled _ _ _) fun _ => .inr trivial,
      fun z hz => h.source z (by simp [hz]), horderly.2⟩⟩

/-- A trip leads back to where the test can be read: what is read in place of a name of the test
stands for no name that the body binds. -/
theorem Orderly.trip (hc : AtHead s₁.flush test' c) (heval : Clock.machine.eval c test' v c')
    (hrun : Exec Clock.machine c' body' (.falls c'')) (hcalm : Calm (.falls c'')) : AtHead s₁.flush test' c'' := by
  have n := hd.noted h.kinds h.loop_fits
  have hout := ht.bound_past (h.loop hd ht).1.stems (grows_tripStart s₁.flush selfResults head).draws
  have htest : ∀ z ∈ test.names, ¬ IsRealized z := fun z hz hr => h.source z (by simp [hz]) (.inl hr)
  refine ⟨(hc.read heval).frame n.tables.flush hrun hcalm hout h.local_source
    (.none (fun _ => rfl) (fun _ => rfl) fun _ => rfl) fun z hz => .inr fun hF => hF.2 hz, fun z hz => ?_⟩
  rcases n.origins _ mem_cons_self z hz with ⟨e, he, hz'⟩ | ⟨-, x, hx, hF, hroot⟩
  · cases mem_singleton.1 he
    exact Clock.not_stale_of_root (htest z hz')
  · have hroot' : ¬ IsRealized x := by
      rcases hroot with ⟨e, he, hx⟩ | ⟨n, rfl⟩
      · cases mem_singleton.1 he
        exact htest x hx
      · exact temporary_not_realized n
    have hframe : Clock.Stale c'' z ↔ c'.Stale z :=
      stale_iff_of_frame hrun hout (n.past _ mem_cons_self z hz) fun w hw hmem =>
        hF.2 (hx.root_unique hw hroot' (fun hr => h.local_source w hmem (.inl hr)) ▸ hmem)
    cases heval
    rw [hframe]
    exact hc.clean z hz

end Loop

end Statements

/-- Orderly blocks are run without a stale read. -/
theorem Analyzed.calm (h : Analyzed Γ block s out s') (ho : Orderly Γ forced built s block)
    (hc : Fresh s c) (hrun : Exec Clock.machine c out o) : Calm o := by
  induction h generalizing forced built c o with
  | nil =>
    rcases hrun.nil_cases with rfl | rfl
    · exact hc.calm
    · exact hc.calm
  | @bind _ value _ x _ _ _ _ _ _ _ hx hd _ ih =>
    have hvalue : ∀ z ∈ value.names, ¬ IsDrawn z := fun z hz => ho.source z (by simp [hz])
    refine calm_of_binds (hd.passes kinds_kept ho.bind_fits (by simpa using hvalue) hc) (fun p hrun => ?_) hrun
    rcases hrun.bind_cases with rfl | ⟨y, v, c₂, hy, heval, hrun⟩
    · exact p.calm
    · cases hx.symm.trans hy
      have hread := (p.fresh rfl).read (p.clean trivial rfl _ mem_cons_self) heval
      have htarget : ¬ IsDrawn x := ho.source x (by simp [Expr.names_of_symbol hx])
      exact ih (ho.bind hx hd) (hread.record (hd.noted kinds_kept ho.bind_fits).tables htarget v) hrun
  | ret _ hd _ _ =>
    have horderly := ho.orderly
    simp only [areOrderly, isOrderly, Bool.and_eq_true] at horderly
    exact hd.calm_return ho.kept ho.stems (Expr.partsBuildNoTuple_of_builds horderly.1) rfl
      (fun z hz => ho.source z (by simp [hz])) hc hrun
  | entryRet _ hd _ _ =>
    have horderly := ho.orderly
    simp only [areOrderly, isOrderly, Bool.and_eq_true] at horderly
    exact hd.calm_return ho.kept ho.stems horderly.1 rfl (fun z hz => ho.source z (by simp [hz])) hc hrun
  | @branch test _ _ _ _ whenTrue' _ whenFalse' _ _ _ s₁ t _ _ hd ht hu _ iht ihu ih =>
    have htest : ∀ z ∈ test.names, ¬ IsDrawn z := fun z hz => ho.source z (by simp [hz])
    obtain ⟨htrue, hfalse, hrest⟩ := ho.branch hd ht hu
    refine calm_of_binds (hd.passes kinds_kept ho.branch_fits (by simpa using htest) hc) (fun p hrun => ?_) hrun
    rcases hrun.branch_cases with rfl | ⟨v, b, c₂, heval, -, hcases⟩
    · exact p.calm
    · have hread : Fresh s₁.flush c₂ :=
        ((p.fresh rfl).read (p.clean trivial rfl _ mem_cons_self) heval).forget (forgets_flush _)
      have hblock : ∀ {o}, Exec Clock.machine c₂ (if b then whenTrue' else whenFalse') o → Calm o := by
        cases b with
        | true => exact iht htrue (hread.forget (forgets_enter _))
        | false => exact ihu hfalse (hread.forget ((forgets_resume s₁.flush t).trans (forgets_enter _)))
      rcases hcases with ⟨c₃, hrunBlock, hrunRest⟩ | ⟨r, c₃, hrunBlock, rfl⟩
      · exact ih hrest (ho.fresh_joined hd ht hu hread hrunBlock (hblock hrunBlock)) hrunRest
      · exact hblock hrunBlock
  | @loop test test' _ _ _ body' _ _ _ s₁ _ _ _ _ _ hd _ _ ht _ _ _ iht ih =>
    have htest : ∀ z ∈ test.names, ¬ IsDrawn z := fun z hz => ho.source z (by simp [hz])
    obtain ⟨htrip, hrest⟩ := ho.loop hd ht
    refine calm_of_binds
      (hd.passes ho.kinds ho.loop_fits (by simpa using htest) (hc.forget (forgets_invalidateAll _ _)))
      (fun {c₁} p hrun => ?_) hrun
    have hbody : ∀ {c o}, Fresh s₁.flush c → Exec Clock.machine c body' o → Calm o :=
      fun hc hrun => iht htrip (hc.forget (forgets_tripStart _ _ _)) hrun
    have hstart : AtHead s₁.flush test' c₁ :=
      ⟨(p.fresh rfl).forget (forgets_flush _), p.clean trivial rfl _ mem_cons_self⟩
    refine Exec.loop_invariant hrun hstart ?_ ?_ ?_ ?_
    · exact fun c hc => hc.fresh.calm
    · exact fun hc heval _ hrun => ih hrest (hc.read heval |>.forget (forgets_settled _ _ _)) hrun
    · exact fun hc heval _ hrun => ho.trip hd ht hc heval hrun (hbody (hc.read heval) hrun)
    · exact fun hc heval _ hrun => hbody (hc.read heval) hrun

theorem ProcedureAnalyzed.calm {symbol : String} {parameters : List Expr} {body body' : List Stmt}
    (h : ProcedureAnalyzed Γ symbol parameters body body')
    (hsource : ∀ x ∈ namesAll body, ¬ IsDrawn x)
    (horderly : areOrderly Γ.registry [] [] body = true)
    (hrun : Exec Clock.machine Clock.start body' o) : Calm o := by
  obtain ⟨phases, temporaries, s', hphases, htemporaries, hbody⟩ := h
  exact hbody.calm ⟨stems_bodyStart hphases htemporaries, ⟨tables_bodyStart, fun _ => trivial⟩, hsource, horderly⟩
    ⟨fun _ => Nat.le_refl _, fun _ hfalse => hfalse, fun hx => (bare_bodyStart.standIns hx).elim⟩ hrun

end Blocks

end Phases

/-- Along every path through an analysed procedure whose text mentions no drawn name and binds names
where the analysis can see it, nothing is read in place of a name that was bound since. -/
theorem insertBoundaries_never_stale {module module' : Module} {registry : Registry}
    {entry symbol : String} {i : Nat} {p : Procedure} (hplain : module.isPlain = true)
    (h : module.insertBoundaries registry entry = .ok module') (hi : module[i]? = some p.toStmt)
    (hsymbol : p.symbol? = some symbol) (hreach : symbol ∈ Phases.reachable module entry)
    (hsource : ∀ x ∈ namesAll p.body, ¬ IsDrawn x)
    (horderly : Stmt.areOrderly (Phases.withProcedures registry module) [] [] p.body = true) :
    ∃ p' : Procedure, module'[i]? = some p'.toStmt ∧ p'.name = p.name ∧
      ∀ o, Exec Clock.machine Clock.start p'.body o → ∀ y, ¬ o.config.stale y := by
  obtain ⟨p', hi', hname, -, hbody⟩ := module.insertBoundaries_ok hplain h hi
  have hanalyzed : p.symbol?.filter (· ∈ (Phases.moduleContext module registry entry).analyzed) =
      some symbol := by
    rw [hsymbol]
    exact Option.filter_some_pos (decide_eq_true hreach)
  rw [hanalyzed] at hbody
  exact ⟨p', hi', hname, fun o hrun => hbody.calm hsource horderly hrun⟩

def number : Typing := ⟨.scalar .float32, some (.scalar .float32)⟩
def flag : Typing := ⟨.scalar .bool, some (.scalar .bool)⟩
def row : Typing := ⟨.sequence (.scalar .float32), some (.sequence (.scalar .float32))⟩

def shifted (e : Expr) : Expr := .apply (.name "shift" ⟨.function [row.ty] row.ty, none⟩) [e] row
def totalled (e : Expr) : Expr := .apply (.name "total" ⟨.function [row.ty] number.ty, none⟩) [e] number

/-- A view that is composed, and a sum that needs all of it. -/
def rowCalls : Registry :=
  (Registry.empty.insert "shift" ⟨.function [row.ty] row.ty, .propagates⟩).insert "total"
    ⟨.function [row.ty] number.ty, .forces⟩

/-- The realized form of a row. -/
def stored (x : String) : Expr := .name x ⟨row.ty, some (.container (.scalar .float32))⟩

def realizeRow (x : String) (e : Expr) : Stmt :=
  .bind (stored x) (.applySnippet Snippet.phaseBoundary [e] (stored x).typing)

/-- Binds a row again in a branch and in a loop, and sums it up in between. -/
def resummed : Procedure where
  name := .name "main" number
  parameters := [.name "xs" row, .name "c" flag]
  body := [.bind (.name "ys" row) (shifted (.name "xs" row)),
    .bind (.name "s" number) (totalled (.name "ys" row)),
    .branch (.name "c" flag) [.bind (.name "ys" row) (shifted (.name "ys" row))] [],
    .bind (.name "t" number) (totalled (.name "ys" row)),
    .loop (.name "c" flag) [.bind (.name "t" number) (totalled (.name "ys" row)),
      .bind (.name "ys" row) (shifted (.name "ys" row))],
    .ret (.name "t" number)]

/-- What becomes of it. -/
def resummedRealized : Procedure :=
  { resummed with
    body := [.bind (.name "ys" row) (shifted (.name "xs" row)),
      realizeRow "ys_phase0" (.name "ys" row),
      .bind (.name "s" number) (totalled (stored "ys_phase0")),
      .branch (.name "c" flag) [.bind (.name "ys" row) (shifted (stored "ys_phase0"))] [],
      realizeRow "ys_phase1" (.name "ys" row),
      .bind (.name "t" number) (totalled (stored "ys_phase1")),
      .loop (.name "c" flag) [realizeRow "ys_phase2" (.name "ys" row),
        .bind (.name "t" number) (totalled (stored "ys_phase2")),
        .bind (.name "ys" row) (shifted (stored "ys_phase2"))],
      .ret (.name "t" number)] }

theorem resummed_never_stale :
    Module.insertBoundaries [resummed.toStmt] rowCalls "main" = .ok [resummedRealized.toStmt] ∧
      ∃ p' : Procedure, [resummedRealized.toStmt][0]? = some p'.toStmt ∧
        p'.name = resummed.name ∧
        ∀ o, Exec Clock.machine Clock.start p'.body o → ∀ y, ¬ o.config.stale y := by
  have hok : Module.insertBoundaries [resummed.toStmt] rowCalls "main" = .ok [resummedRealized.toStmt] := by
    decide +kernel
  refine ⟨hok, insertBoundaries_never_stale rfl hok rfl rfl (by decide +kernel) (fun x hx => ?_)
    (by decide +kernel)⟩
  exact Name.not_drawn_of_last (by revert x; decide +kernel)

/-- Binds a row again in a branch inside a branch. -/
def resummedInside : Procedure where
  name := .name "main" number
  parameters := [.name "xs" row, .name "c" flag]
  body := [.bind (.name "ys" row) (shifted (.name "xs" row)),
    .bind (.name "s" number) (totalled (.name "ys" row)),
    .branch (.name "c" flag) [.branch (.name "c" flag) [.bind (.name "ys" row) (shifted (.name "xs" row))] []] [],
    .bind (.name "t" number) (totalled (.name "ys" row)),
    .ret (.name "t" number)]

def resummedInsideRealized : Procedure :=
  { resummedInside with
    body := [.bind (.name "ys" row) (shifted (.name "xs" row)),
      realizeRow "ys_phase0" (.name "ys" row),
      .bind (.name "s" number) (totalled (stored "ys_phase0")),
      .branch (.name "c" flag) [.branch (.name "c" flag) [.bind (.name "ys" row) (shifted (.name "xs" row))] []] [],
      .bind (.name "t" number) (totalled (stored "ys_phase0")),
      .ret (.name "t" number)] }

/-- A bind in a branch inside a branch is not noticed behind them: the row is summed up as it was
before. -/
theorem insertBoundaries_stale_inside :
    Module.insertBoundaries [resummedInside.toStmt] rowCalls "main" = .ok [resummedInsideRealized.toStmt] ∧
      (∀ x ∈ namesAll resummedInside.body, ¬ IsDrawn x) ∧
      ∃ o, Exec Clock.machine Clock.start resummedInsideRealized.body o ∧ o.config.stale "ys_phase0" := by
  refine ⟨by decide +kernel, fun x hx => not_drawn_of_last (by revert x; decide +kernel), ?_⟩
  refine ⟨_, .bind (v := ()) rfl rfl (.bind (v := ()) rfl rfl (.bind (v := ()) rfl rfl
    (.branch (v := ()) (b := true) rfl trivial
      (.branch (v := ()) (b := true) rfl trivial (.bind (v := ()) rfl rfl (.nil _)) (.nil _))
      (.bind (v := ()) rfl rfl (.pause _ _))))), ?_⟩
  have hread : "ys_phase0" ∈ (totalled (stored "ys_phase0")).names := by decide +kernel
  have hstands : StandsFor "ys" "ys_phase0" := .realized 0 .refl
  have htarget : ¬ IsRealized "t" := fun hr => not_drawn_of_last (by decide +kernel) (.inl hr)
  exact ⟨⟨hread, "ys", hstands, by decide, by decide⟩, htarget⟩

end DataParallel
