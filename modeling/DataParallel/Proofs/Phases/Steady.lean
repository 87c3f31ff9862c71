import DataParallel.Proofs.Phases.Coverage
import DataParallel.Proofs.Storage

/-! Analysed blocks do what they did before.

A block is steady if no name is bound again that a tuple or closure on record was built from, and
names that are read through others are bound again only where the analysis takes note of it. Then
the tables hold of the store at every point, and every statement reads what it read before. -/

namespace DataParallel

open Interpretation List Name Phases.State DataParallel.Expr Stmt

variable {registry : Registry} {x : String} {e : Expr} {block : List Stmt} {α C : Type}

/-- The names that tuples and closures are built from when an expression is bound. -/
def Expr.partNames (e : Expr) : List String := e.builtNames ++ e.tupleNames

namespace Stmt

/-- The names that the analysis may know something about because of a statement, apart from its
blocks. -/
def headKnown (registry : Registry) : Stmt → List String
  | .bind target value => value.forcedNames registry ++ if value.isRecord then target.symbol?.toList else []
  | .branch test _ _ | .loop test _ => test.forcedNames registry
  | _ => []

/-- The names that what is on record may be built from because of a statement, apart from its
blocks. -/
def headParts : Stmt → List String
  | .bind _ value => value.partNames
  | .branch test _ _ | .loop test _ => test.tupleNames
  | _ => []

mutual

/-- Whether a statement binds no name that what is on record was built from, and names that the
analysis knows something about only where it takes note of it. `known` and `parts` have the names
that come from before. -/
def isSteady (registry : Registry) (known parts : List String) : Stmt → Bool
  | .bind target value => target.symbol?.all fun x => x ∉ parts ++ value.partNames
  | .ret _ => true
  | .branch test whenTrue whenFalse =>
    (localNames whenTrue ++ localNames whenFalse).all (fun x =>
      x ∈ directNames whenTrue ++ directNames whenFalse || x ∉ known ++ test.forcedNames registry) &&
    areSteady registry (known ++ test.forcedNames registry) (parts ++ test.tupleNames) whenTrue &&
    areSteady registry (known ++ test.forcedNames registry) (parts ++ test.tupleNames) whenFalse
  | .loop test body =>
    (localNames body).all (fun x => x ∉ test.forcedNames registry) &&
    areSteady registry (known ++ test.forcedNames registry) (parts ++ test.tupleNames) body
  | _ => false

def areSteady (registry : Registry) (known parts : List String) : List Stmt → Bool
  | [] => true
  | s :: rest =>
    isSteady registry known parts s && areSteady registry (known ++ s.headKnown registry) (parts ++ s.headParts) rest

end

theorem local_of_steady {known parts : List String}
    (h : areSteady registry known parts block = true) (hx : x ∈ localNames block) : x ∉ parts := by
  intro hmem
  induction hx using localNames_induction generalizing known parts with
  | bind hx =>
    simp only [areSteady, isSteady, hx, Option.all_some, Bool.and_eq_true, decide_eq_true_eq] at h
    exact h.1 (mem_append_left _ hmem)
  | whenTrue ih =>
    simp only [areSteady, isSteady, Bool.and_eq_true] at h
    exact ih h.1.1.2 (mem_append_left _ hmem)
  | whenFalse ih | loop ih =>
    simp only [areSteady, isSteady, Bool.and_eq_true] at h
    exact ih h.1.2 (mem_append_left _ hmem)
  | later ih =>
    rw [areSteady, Bool.and_eq_true] at h
    exact ih h.2 (mem_append_left _ hmem)

end Stmt

namespace Phases

variable {Γ : Context} {B F S : String → Prop} {s s' s₁ t u : State} {e' target test test' value value' : Expr}
  {completion : Completion} {binds body body' rest whenFalse whenFalse' whenTrue whenTrue' : List Stmt} {task : Task}
  {stmt : Stmt} {head : Table Completion} {trips : List Trip} {inEntry : Bool}

section Stores
variable {I : Interpretation α} {σ τ : Store α} {v : Value α}

theorem Faithful.recorded_fields (hT : I.Transparent) (h : Faithful I s τ) {fields : List Expr}
    (hfields : s.recordedFields e = some fields) (hv : I.Eval τ e v) :
    ∃ vs, v = .tuple vs ∧ I.EvalAll τ fields vs := by
  rcases recordedFields_cases hfields with ⟨function, typing, rfl, htuple⟩ | ⟨y, typing, rfl, hy⟩
  · obtain ⟨vs, hvs, rfl⟩ := (eval_tupleCall hT htuple).1 hv
    exact ⟨vs, rfl, hvs⟩
  · obtain ⟨vs, hread, hvs⟩ := h.fields hy
    exact ⟨vs, Option.some.inj (Eq.trans (Eq.symm hv) hread), hvs⟩

theorem Faithful.recorded_closure (h : Faithful I s τ) {f : Expr}
    (hclosure : s.recordedClosure e = some f) (hv : I.Eval τ e v) : I.Eval τ f v := by
  rcases recordedClosure_cases hclosure with ⟨rfl, -⟩ | ⟨y, typing, rfl, hy⟩
  · exact hv
  · obtain ⟨w, hread, hw⟩ := h.closures hy
    cases Option.some.inj (Eq.trans (Eq.symm hv) hread)
    exact hw

theorem Faithful.bind (hT : I.Transparent) (hk : Kinds F B S)
    (h : Derives Γ (.value e) s [(e', completion)] binds s')
    (hr : (Task.value e).Fits Γ.registry F B S s) (hparts : ∀ z ∈ e.builtNames, B z)
    (hf : Faithful I s' τ) (hsource : ¬ IsDrawn x) (hx : ¬ B x) (hv : I.Eval τ e' v) :
    Faithful I (s'.record Γ.entry x e' completion) (Function.update τ x (some v)) := by
  have hn := (h.noted hk hr).tables
  obtain ⟨hfields, hclosure⟩ := h.recorded_names hk hr hparts False.elim
  have hkept : ∀ z, B z → Function.update τ x (some v) z = τ z := by
    intro z hz
    have hzx : z ≠ x := fun hzx => hx (hzx ▸ hz)
    exact Function.update_of_ne hzx _ _
  have hread : ∀ z, z ≠ x → I.read (Function.update τ x (some v)) z = I.read τ z :=
    fun z hz => read_congr (Function.update_of_ne hz _ _)
  refine .record (fun {z f} hz hne => ?_) (fun {z fs} hz hne => ?_) (fun {z f} hz hne => ?_) (fun fs hfs => ?_)
    (fun f hf' => ?_)
  · obtain ⟨w, hw, he⟩ := hf.standIns hz
    obtain ⟨-, -, y, typing, rfl, hy, -, -⟩ := hn.standIns hz
    refine ⟨w, by rw [hread z hne, hw], ?_⟩
    exact (hread y fun hyx => hsource (hyx ▸ hy)).trans he
  · obtain ⟨ws, hw, he⟩ := hf.fields hz
    refine ⟨ws, by rw [hread z hne, hw], (evalAll_congr fun f hf z hz => ?_).2 he⟩
    exact hkept z (((hn.fields ‹_›).2.2 f hf z hz).1)
  · obtain ⟨w, hw, he⟩ := hf.closures hz
    refine ⟨w, by rw [hread z hne, hw], (eval_congr fun z hz => ?_).2 he⟩
    exact hkept z (((hn.closures ‹_›).2.2.2 z hz).1)
  · obtain ⟨ws, rfl, hws⟩ := hf.recorded_fields hT hfs hv
    refine ⟨ws, read_update_self x, (evalAll_congr fun f hf z hz => ?_).2 hws⟩
    exact hkept z ((hfields fs hfs).2.2 f hf z hz).1
  · have hv' := hf.recorded_closure hf' hv
    refine ⟨v, read_update_self x, (eval_congr fun z hz => ?_).2 hv'⟩
    exact hkept z ((hclosure f hf').2.2.2 z hz).1

/-- What is still known behind a block holds of the store there, if the block binds nothing else
that is known and nothing that is on record. -/
theorem Faithful.across (h : Faithful I s σ) (hn : s.Noted F B S) {names : List String}
    (hforgets : Forgets s names t) (hsame : ∀ z, s.Past z → z ∉ localNames block → τ z = σ z)
    (hsource : ∀ z ∈ localNames block, ¬ IsDrawn z) (hparts : ∀ z ∈ localNames block, ¬ B z)
    (hkept : ∀ z ∈ localNames block, z ∈ names ∨ ¬ F z) : Faithful I t τ := by
  have hkey : ∀ z, z ∉ names → F z → s.Past z → I.read τ z = I.read σ z := by
    intro z hz hF hpast
    refine read_congr (hsame z hpast fun hmem => ?_)
    exact (hkept z hmem).elim hz fun hn => hn hF
  have hpart : ∀ z, B z → s.Past z → τ z = σ z := fun z hz hpast => hsame z hpast fun hmem => hparts z hmem hz
  refine ⟨fun {x e} hx => ?_, fun {x fields} hx => ?_, fun {x e} hx => ?_⟩
  · obtain ⟨hnames, hx⟩ := hforgets.of_standIn hx
    obtain ⟨v, hv, he⟩ := h.standIns hx
    obtain ⟨hF, hpast, y, typing, rfl, hy, -, hpast'⟩ := hn.standIns hx
    refine ⟨v, by rw [hkey x hnames hF hpast, hv], ?_⟩
    exact (read_congr (hsame y hpast' fun hmem => hsource y hmem hy)).trans he
  · obtain ⟨hnames, hx⟩ := hforgets.of_fields hx
    obtain ⟨vs, hv, he⟩ := h.fields hx
    obtain ⟨hF, hpast, hall⟩ := hn.fields hx
    refine ⟨vs, by rw [hkey x hnames hF hpast, hv], (evalAll_congr fun f hf z hz => ?_).2 he⟩
    exact hpart z (hall f hf z hz).1 (hall f hf z hz).2
  · obtain ⟨hnames, hx⟩ := hforgets.of_closure hx
    obtain ⟨v, hv, he⟩ := h.closures hx
    obtain ⟨hF, hpast, -, hall⟩ := hn.closures hx
    refine ⟨v, by rw [hkey x hnames hF hpast, hv], (eval_congr fun z hz => ?_).2 he⟩
    exact hpart z (hall z hz).1 (hall z hz).2

end Stores

section Replay
variable {I : Interpretation α} {m : Machine C (Value α)} {store : C → Store α} {Good : C → Prop} {c c' : C}
  {τ : Store α} {results : List (Expr × Completion)}

/-- An expression that was analysed once has the value it had before wherever the names that were
realized for it have the values they had then. -/
theorem Derives.replay (hI : I.Functional) (hT : I.Transparent) (hm : m.Watches I store Good)
    (hk : Kinds F B S) (h : Derives Γ task s results binds s')
    (hreads : (∃ e, task = .value e) ∨ ∃ es : List Expr, task = .all (es.map .value))
    (hr : task.Fits Γ.registry F B S s) (hc : Good c) (hf : Faithful I s (store c))
    (hrun : Exec m c binds (.falls c')) (hkeep : ∀ z, F z → s'.Past z → τ z = store c' z)
    (vs : List (Value α)) : I.EvalAll τ (results.map Prod.fst) vs ↔ I.EvalAll τ task.exprs vs := by
  induction h generalizing c c' vs with
  | nil => rfl
  | @cons _ _ _ _ _ _ results _ _ h₁ h₂ ih₁ ih₂ =>
    rcases hreads with ⟨_, hreads⟩ | ⟨es, hreads⟩
    · cases hreads
    cases es with
    | nil => cases hreads
    | cons e es =>
      cases hreads
      have n₁ := h₁.noted hk hr.head
      have hr₂ := hr.tail h₁.grows n₁.tables
      rcases hrun.append_cases with ⟨c₁, hrun₁, hrun₂⟩ | ⟨r, c₁, ho, -⟩
      · have l₁ := h₁.leads hI hT hm hk hr.head hc hf nofun
        have hf₁ := (l₁.falls hrun₁).faithful
        have l₂ := h₂.leads hI hT hm hk hr₂ (l₁.good hrun₁) hf₁ (by simp)
        have hsame := (l₂.falls hrun₂).same
        have hfirst := ih₁ (.inl ⟨e, rfl⟩) hr.head hc hf hrun₁ fun z hF hpast =>
          (hkeep z hF (hpast.mono h₂.grows.draws)).trans (hsame z hpast)
        have hrest := ih₂ (.inr ⟨es, rfl⟩) hr₂ (l₁.good hrun₁) hf₁ hrun₂ hkeep
        rw [map_cons, Task.exprs, Task.exprsAll]
        simp only [map_cons, map_nil, Task.exprs] at hfirst hrest ⊢
        rw [← singleton_append (l := results.map Prod.fst), evalAll_append, evalAll_append]
        simp only [hfirst, hrest]
      · cases ho
  | name s x typing =>
    rcases hrun.nil_cases with ho | ho
    · cases ho
      refine evalAll_iff_of_eval fun v => ?_
      rw [current_name]
      cases hx : s.standIn? x with
      | none => rfl
      | some e =>
        obtain ⟨w, hread, he⟩ := hf.standIns hx
        obtain ⟨hF, hpast, y, typing', rfl, hy, -, hpast'⟩ := hr.tables.standIns hx
        have hread' : I.read τ x = some w := by rw [read_congr (hkeep x hF hpast), hread]
        have hy' : I.read τ y = some w :=
          (read_congr (hkeep y (hk.realized y hy) hpast')).trans he
        show I.read τ y = some v ↔ I.read τ x = some v
        rw [hread', hy']
    · cases ho
  | literal => rfl
  | @node _ parts _ _ _ _ _ _ _ ih =>
    refine evalAll_iff_of_eval fun v => Head.eval_build (fun _ _ => rfl) fun ws => ?_
    have hparts := ih (.inr ⟨parts, rfl⟩) hr.values hc hf hrun hkeep ws
    rwa [Task.exprs, Task.exprsAll_values] at hparts
  | @forcing function arguments typing s _ results _ _ parameters _ _ hf' hcallee hs hforces hinstance h _ =>
    have hforced : function.forces Γ.registry = true := forces_of_signature hf' hcallee hs hforces
    have hexprs := Task.exprsAll_demands (Ty.length_instantiate? hinstance)
    have n := h.noted hk (hr.arguments hforced)
    have p := (h.leads hI hT hm hk (hr.arguments hforced) hc hf (by simp)).falls hrun
    have hargument : ∀ e ∈ arguments, ∀ z ∈ e.names, F z ∧ s.Past z := by
      intro e he z hz
      have hmem := mem_namesAll.2 ⟨e, he, hz⟩
      refine ⟨hr.forced z ?_, hr.past _ mem_cons_self z (mem_append_right _ hmem)⟩
      rwa [Task.forced, forcedNames, if_pos hforced]
    have hresults : ∀ e ∈ results.map Prod.fst, ∀ z ∈ e.names, τ z = store c' z := by
      intro e he z hz
      obtain ⟨r, hr', rfl⟩ := mem_map.1 he
      refine hkeep z ?_ (n.past r hr' z hz)
      rcases n.names r hr' z hz with hdrawn | ⟨f, hmem, hz⟩
      · exact hk.realized z hdrawn
      · rw [Task.exprs, hexprs] at hmem
        exact (hargument f hmem z hz).1
    refine evalAll_iff_of_eval fun v => Head.eval_build (k := .call function typing) (fun _ _ => rfl) fun ws => ?_
    calc I.EvalAll τ (results.map Prod.fst) ws
        ↔ I.EvalAll (store c') (results.map Prod.fst) ws := evalAll_congr hresults
      _ ↔ I.EvalAll (store c) arguments ws := by rw [p.values, Task.exprs, hexprs]
      _ ↔ I.EvalAll τ arguments ws := evalAll_congr fun e he z hz => by
          obtain ⟨hF, hpast⟩ := hargument e he z hz
          rw [hkeep z hF (hpast.mono h.grows.draws), p.same z hpast]
  | _ => rcases hreads with ⟨_, hreads⟩ | ⟨_, hreads⟩ <;> cases hreads

end Replay

section Blocks
variable {I : Interpretation α} {m : Machine C (Value α)} {store : C → Store α} {Good : C → Prop}
  {c : C} {names known parts : List String} {out : List Stmt} {half : Option (Expr × Expr)}
  {known' parts' : List String}

theorem Derives.follows {P : Store α → Prop} (hI : I.Functional) (hT : I.Transparent)
    (hm : m.Watches I store Good)
    (hk : Kinds F B S) (h : Derives Γ task s [(e', completion)] binds s')
    (hr : task.Fits Γ.registry F B S s) (hexprs : task.exprs = [e]) (hstmt : stmt.read? = some e)
    (he : ∀ z ∈ e.names, ¬ IsDrawn z) (hc : Good c) (hf : Faithful I s (store c))
    (hsync : task.returns = true → Synced I S (store c))
    (hnext : ∀ {c'}, Good c' → Store.Agree (store c) (store c') → Faithful I s' (store c') →
      Exec m c binds (.falls c') → (∀ v, I.Eval (store c') e' v ↔ I.Eval (store c') e v) →
      Follows I m store Good c' (stmt :: rest) out P) : Follows I m store Good c (stmt :: rest) (binds ++ out) P := by
  have l := h.leads hI hT hm hk hr hc hf hsync
  have hdrawn : ∀ z ∈ localNames binds, IsDrawn z := fun z hz => (h.drawn hr.stems hz).isDrawn
  have hlive : (∃ v, I.Eval (store c) e v) → ∃ vs, I.EvalAll (store c) task.exprs vs := by
    rintro ⟨v, hv⟩
    rw [hexprs]
    exact ⟨[v], evalAll_singleton.2 ⟨v, hv, rfl⟩⟩
  refine Follows.front hm (Leads.mono l hlive fun _ p => p) hdrawn hstmt he fun {c'} hrun => ?_
  have p := l.falls hrun
  have hagree : Store.Agree (store c) (store c') :=
    fun z hz => (hm.unchanged hrun fun hmem => hz (hdrawn z hmem)).symm
  refine hnext (l.good hrun) hagree p.faithful hrun fun v => ?_
  have hvalues := p.values
  rw [hexprs] at hvalues
  exact (eval_iff_of_evalAll hvalues).trans (hagree.eval he)

/-- What the analysis may know in front of a steady block. `known` and `parts` have the names that
the tables may mention, and `names` has those for which there may be storage. -/
structure Laid (registry : Registry) (names known parts : List String) (s : State) (block : List Stmt) : Prop where
  stems : s.Stems
  tables : s.Noted (Among (known ++ parts)) (Among parts) (Backed names)
  text : ∀ z ∈ known ++ parts ++ namesAll block, OfText names z
  steady : areSteady registry known parts block = true

theorem forced_of_read (he : stmt.read? = some e) (hret : ∀ v, stmt ≠ .ret v) :
    ∀ z ∈ e.forcedNames registry, z ∈ stmt.headKnown registry := by
  cases stmt with
  | bind => cases he; exact fun z hz => mem_append_left _ hz
  | branch | loop => cases he; exact fun z hz => hz
  | ret v => exact absurd rfl (hret v)
  | _ => cases he

theorem tuples_of_read (he : stmt.read? = some e) (hret : ∀ v, stmt ≠ .ret v) :
    ∀ z ∈ e.tupleNames, z ∈ stmt.headParts := by
  cases stmt with
  | bind => cases he; exact fun z hz => mem_append_right _ hz
  | branch | loop => cases he; exact fun z hz => hz
  | ret v => exact absurd rfl (hret v)
  | _ => cases he

namespace Laid

variable {z : String}

theorem covering (h : Laid registry names known parts s block) :
    Covering (Backed names) s block := by
  have hcovered : ∀ z, Among (known ++ parts) z → Covered (Backed names) z := by
    rintro z hz w rfl
    exact (h.text _ (mem_append_left _ (hz.of_source (container_not_drawn w)))).2 w rfl
  exact ⟨h.stems, h.tables.covered hcovered fun z hz => hcovered z (hz.mono fun _ hx => mem_append_right _ hx),
    fun z hz => h.text z (mem_append_right _ hz)⟩

section
variable (h : Laid registry names known parts s (stmt :: rest))
include h

theorem read (he : stmt.read? = some e) : ∀ z ∈ e.names, OfText names z := by
  intro z hz
  refine h.text z ?_
  cases stmt with
  | bind | ret | branch | loop =>
    cases he
    simp [hz]
  | _ => cases he

theorem lists :
    ∀ z ∈ known ++ stmt.headKnown registry ++ (parts ++ stmt.headParts) ++ namesAll rest, OfText names z := by
  intro z hz
  have hread : ∀ {e}, stmt.read? = some e → z ∈ e.names → OfText names z := fun he => h.read he z
  simp only [mem_append] at hz
  rcases hz with ((hz | hz) | hz | hz) | hz
  · exact h.text z (by simp [hz])
  · cases stmt with
    | bind target value =>
      rcases mem_append.1 hz with hz | hz
      · exact hread rfl (names_of_forced hz)
      · split at hz
        · refine h.text z ?_
          simp [names_of_symbol (Option.mem_toList.1 hz)]
        · cases hz
    | branch | loop => exact hread rfl (names_of_forced hz)
    | _ => cases hz
  · exact h.text z (by simp [hz])
  · cases stmt with
    | bind target value =>
      rcases mem_append.1 hz with hz | hz
      · exact hread rfl (names_of_built hz)
      · exact hread rfl (names_of_tupleNames hz)
    | branch | loop => exact hread rfl (names_of_tupleNames hz)
    | _ => cases hz
  · exact h.text z (by simp [hz])

theorem kinds :
    Kinds (Among (known ++ stmt.headKnown registry ++ (parts ++ stmt.headParts)))
      (Among (parts ++ stmt.headParts)) (Backed names) :=
  kinds_among (fun w hw => (h.lists _ (mem_append_left _ hw)).2 w rfl) fun _ => .inl

theorem fits (he : stmt.read? = some e) (hret : ∀ v, stmt ≠ .ret v) :
    (Task.value e).Fits registry (Among (known ++ stmt.headKnown registry ++ (parts ++ stmt.headParts)))
      (Among (parts ++ stmt.headParts)) (Backed names) s := by
  refine .ofText h.stems h.tables (fun z hz => ?_) (fun z hz => ?_) (fun z hz => (h.read he z hz).1) False.elim
    fun _ h => h
  · exact mem_append.2 ((mem_append.1 hz).imp_right (forced_of_read he hret z))
  · exact mem_append.2 ((mem_append.1 hz).imp_right (tuples_of_read he hret z))

end

theorem fitsRet (h : Laid registry names known parts s (.ret value :: rest))
    (hexprs : task.exprs = [value]) (hforced : ∀ z ∈ task.forced registry, z ∈ value.names) :
    task.Fits registry (Covered (Backed names)) (Covered (Backed names)) (Backed names) s := by
  have hmem : value ∈ task.exprs := by simp [hexprs]
  refine .covered h.stems h.covering.tables (fun f hf => ?_) fun z hz => ⟨value, hmem, hforced z hz⟩
  rw [hexprs] at hf
  cases mem_singleton.1 hf
  exact h.read rfl

section Bind
variable (h : Laid Γ.registry names known parts s (.bind target value :: rest)) (hx : target.symbol? = some x)
include h hx

theorem target_text : OfText names x := h.text x (by simp [names_of_symbol hx])

theorem fresh : ¬ Among (parts ++ (bind target value).headParts) x := by
  have hsteady := h.steady
  simp only [areSteady, isSteady, Bool.and_eq_true, hx, Option.all_some, decide_eq_true_eq] at hsteady
  exact fun hmem => hsteady.1 (hmem.of_source (h.target_text hx).1)

theorem bind (hd : Derives Γ (.value value) s [(value', completion)] binds s₁) :
    Laid Γ.registry names (known ++ (bind target value).headKnown Γ.registry)
      (parts ++ (bind target value).headParts) (s₁.record Γ.entry x value' completion).flush rest := by
  have hsteady := h.steady
  rw [areSteady, Bool.and_eq_true] at hsteady
  have htarget := h.target_text hx
  have hr := h.fits (e := value) rfl (by simp)
  have hbuilt : ∀ z ∈ value.builtNames, Among (parts ++ (Stmt.bind target value).headParts) z :=
    fun z hz => .inr (mem_append_right _ (mem_append_left _ hz))
  have hknown : value.isRecord = true → Among (known ++ (Stmt.bind target value).headKnown Γ.registry ++
        (parts ++ (Stmt.bind target value).headParts)) x := fun hrec => .inr (by simp [headKnown, hrec, hx])
  have hgrows := (s₁.grows_record Γ.entry x value' completion).trans (grows_flush _)
  exact ⟨(h.stems.mono hd.grows).mono hgrows,
    (hd.noted_record h.kinds hr hbuilt (past_of_source htarget.1) hknown htarget.2 False.elim).flush, h.lists,
    hsteady.2⟩

end Bind

section Branch
variable (h : Laid Γ.registry names known parts s (.branch test whenTrue whenFalse :: rest))
  (hd : Derives Γ (.value test) s [(test', completion)] binds s₁)
  (ht : Analyzed Γ whenTrue s₁.flush.enter whenTrue' t)
  (hu : Analyzed Γ whenFalse (s₁.flush.resume t).enter whenFalse' u)
include h hd

theorem behindTest :
    s₁.flush.Noted (Among (known ++ test.forcedNames Γ.registry ++ (parts ++ test.tupleNames)))
    (Among (parts ++ test.tupleNames)) (Backed names) ∧ s₁.flush.Stems :=
  ⟨(hd.noted h.kinds (h.fits (e := test) rfl (by simp))).tables.flush, (h.stems.mono hd.grows).mono (grows_flush _)⟩

theorem ofTrue : Laid Γ.registry names (known ++ test.forcedNames Γ.registry)
    (parts ++ test.tupleNames) s₁.flush.enter whenTrue := by
  obtain ⟨tables, hstems⟩ := h.behindTest hd
  have hsteady := h.steady
  simp only [areSteady, isSteady, Bool.and_eq_true] at hsteady
  refine ⟨hstems, tables.enter, fun z hz => ?_, hsteady.1.1.2⟩
  rcases mem_append.1 hz with hz | hz
  · exact h.lists z (mem_append_left _ hz)
  · exact h.text z (by simp [hz])

include ht

theorem ofFalse : Laid Γ.registry names (known ++ test.forcedNames Γ.registry)
    (parts ++ test.tupleNames) (s₁.flush.resume t).enter whenFalse := by
  obtain ⟨tables, hstems⟩ := h.behindTest hd
  have hsteady := h.steady
  simp only [areSteady, isSteady, Bool.and_eq_true] at hsteady
  refine ⟨show (s₁.flush.resume t).Stems from hstems.mono (grows_resume ht.grows),
    (tables.resume ht.grows).enter, fun z hz => ?_, hsteady.1.2⟩
  rcases mem_append.1 hz with hz | hz
  · exact h.lists z (mem_append_left _ hz)
  · exact h.text z (by simp [hz])

include hu

theorem joined :
    Laid Γ.registry names (known ++ test.forcedNames Γ.registry) (parts ++ test.tupleNames)
    (s₁.flush.joined t u) rest := by
  obtain ⟨tables, hstems⟩ := h.behindTest hd
  have hsteady := h.steady
  rw [areSteady, Bool.and_eq_true] at hsteady
  have hjoined := grows_joined ht.grows hu.grows
  exact ⟨hstems.mono hjoined, tables.joined hjoined.draws (ht.covered (h.ofTrue hd).covering)
    (hu.covered (h.ofFalse hd ht).covering), h.lists, hsteady.2⟩

theorem kept (hz : z ∈ localNames whenTrue ++ localNames whenFalse) :
    ¬ IsDrawn z ∧ ¬ Among (parts ++ test.tupleNames) z ∧ (z ∈ t.bound.inner.keys ++ u.bound.inner.keys ∨
        ¬ Among (known ++ test.forcedNames Γ.registry ++ (parts ++ test.tupleNames)) z) := by
  have hsteady := h.steady
  simp only [areSteady, isSteady, Bool.and_eq_true] at hsteady
  obtain ⟨⟨⟨hkept, htrue⟩, hfalse⟩, -⟩ := hsteady
  have hbefore := h.ofTrue hd
  have hbefore' := h.ofFalse hd ht
  have hblocks : ¬ IsDrawn z ∧ z ∉ parts ++ test.tupleNames := by
    rcases mem_append.1 hz with hz | hz
    · exact ⟨(hbefore.text z (mem_append_right _ (mem_namesAll_of_local hz))).1, local_of_steady htrue hz⟩
    · exact ⟨(hbefore'.text z (mem_append_right _ (mem_namesAll_of_local hz))).1, local_of_steady hfalse hz⟩
  obtain ⟨hsource, hparts⟩ := hblocks
  refine ⟨hsource, fun hmem => hparts (hmem.of_source hsource), ?_⟩
  have hbound := all_eq_true.1 hkept z hz
  rw [Bool.or_eq_true, decide_eq_true_eq, decide_eq_true_eq, mem_append] at hbound
  rcases hbound with (hdirect | hdirect) | hunseen
  · exact .inl (mem_append_left _ (ht.direct hdirect))
  · exact .inl (mem_append_right _ (hu.direct hdirect))
  · exact .inr fun hmem => (mem_append.1 (hmem.of_source hsource)).elim hunseen hparts

end Branch

section Loop
variable {selfResults : List String} (h : Laid Γ.registry names known parts s (.loop test body :: rest))
include h

theorem bodyNames (hz : z ∈ localNames body) :
    ¬ IsDrawn z ∧ ¬ Among (parts ++ test.tupleNames) z := by
  have hsteady := h.steady
  simp only [areSteady, isSteady, Bool.and_eq_true] at hsteady
  have hmem := mem_namesAll_of_local hz
  have hsource := (h.text z (by simp [hmem])).1
  exact ⟨hsource, fun hmem => local_of_steady hsteady.1.2 hz (hmem.of_source hsource)⟩

theorem test_fixed (hz : z ∈ localNames body) : z ∉ test.forcedNames Γ.registry := by
  have hsteady := h.steady
  simp only [areSteady, isSteady, Bool.and_eq_true] at hsteady
  simpa using all_eq_true.1 hsteady.1.1 z hz

theorem headKinds :
    Kinds (fun z => Among (known ++ test.forcedNames Γ.registry ++ (parts ++ test.tupleNames)) z ∧
    z ∉ localNames body) (Among (parts ++ test.tupleNames)) (Backed names) :=
  have hdrawn : ∀ z, IsDrawn z → _ := fun z hz => ⟨h.kinds.realized z hz, fun hmem => (h.bodyNames hmem).2 (.inl hz)⟩
  ⟨h.kinds.drawn, hdrawn, fun w hw => h.kinds.storage w hw.1, hdrawn⟩

theorem headFits : (Task.value test).Fits Γ.registry
    (fun z => Among (known ++ test.forcedNames Γ.registry ++ (parts ++ test.tupleNames)) z ∧
      z ∉ localNames body) (Among (parts ++ test.tupleNames)) (Backed names)
    (s.invalidateAll (bodyTargets body)) :=
  .ofLoop h.stems h.tables (fun _ hz => hz) (fun _ hz => hz) (fun z hz => (h.read rfl z hz).1) False.elim (fun _ h => h)
    (fun _ => h.test_fixed) fun _ _ hmem => (h.bodyNames hmem).2

variable (hd : Derives Γ (.value test) (s.invalidateAll (bodyTargets body)) [(test', completion)] binds s₁)
include hd

theorem headTables : s₁.flush.Noted (fun z => Among (known ++ test.forcedNames Γ.registry ++
      (parts ++ test.tupleNames)) z ∧ z ∉ localNames body) (Among (parts ++ test.tupleNames)) (Backed names) ∧
    s₁.flush.Stems :=
  ⟨(hd.noted h.headKinds h.headFits).tables.flush,
    ((h.stems.mono (s.grows_invalidateAll _)).mono hd.grows).mono (grows_flush _)⟩

variable (hraised : s₁.flush.RaisedBy selfResults head trips)
  (htrips : ∀ trip ∈ trips, Analyzed Γ body (s₁.flush.tripStart trip.selfResults trip.head) trip.out trip.state)
include hraised htrips

theorem tripStart : Laid Γ.registry names (known ++ test.forcedNames Γ.registry)
    (parts ++ test.tupleNames) (s₁.flush.tripStart selfResults head) body := by
  obtain ⟨tables, hstems⟩ := h.headTables hd
  have tables' := tables.mono (fun _ hF => hF.1) fun _ => id
  have hsteady := h.steady
  simp only [areSteady, isSteady, Bool.and_eq_true] at hsteady
  have htext : ∀ z ∈ namesAll body, OfText names z :=
    fun z hz => h.text z (by simp [hz])
  have hhead := h.covering.tripKeys hd hraised fun trip hmem => (htrips trip hmem).covered
  exact ⟨hstems.tripStart, tables'.tripStart hhead, fun z hz => (mem_append.1 hz).elim
    (fun hz => h.lists z (mem_append_left _ hz)) (htext z), hsteady.1.2⟩

theorem settled (htrip : Analyzed Γ body (s₁.flush.tripStart selfResults head) body' t) :
    Laid Γ.registry names (known ++ test.forcedNames Γ.registry) (parts ++ test.tupleNames)
      (s₁.flush.settled t head) rest := by
  obtain ⟨tables, hstems⟩ := h.headTables hd
  have tables' := tables.mono (fun _ hF => hF.1) fun _ => id
  have hsteady := h.steady
  rw [areSteady, Bool.and_eq_true] at hsteady
  have hgrows := grows_settled htrip.grows
  exact ⟨hstems.mono hgrows, tables'.settled hgrows.draws (htrip.covered (h.tripStart hd hraised htrips).covering),
    h.lists, hsteady.2⟩

end Loop

end Laid

/-- What a steady block starts from: the tables hold of the store. -/
structure Steady (registry : Registry) (I : Interpretation α) (inEntry : Bool) (names known parts : List String)
    (half : Option (Expr × Expr)) (s : State) (block : List Stmt) (σ : Store α) : Prop where
  laid : Laid registry names known parts s block
  entry : s.inEntry = inEntry
  step : inEntry = true → areInStep names block half = true ∧ InStep I names σ half
  faithful : Faithful I s σ

theorem Faithful.behind {o : Outcome C (Value α)} (hm : m.Watches I store Good)
    (h : Faithful I s (store c))
    (hn : s.Noted F B S) {names : List String} (hforgets : Forgets s names t) (hrun : Exec m c out o)
    (hout : ∀ y ∈ localNames out, y ∈ localNames block ∨ ¬ s.Past y) (hsource : ∀ z ∈ localNames block, ¬ IsDrawn z)
    (hparts : ∀ z ∈ localNames block, ¬ B z) (hkept : ∀ z ∈ localNames block, z ∈ names ∨ ¬ F z) :
    Faithful I t (store o.config) := by
  refine h.across hn hforgets (fun z hpast hz => hm.unchanged hrun fun hmem => ?_) hsource hparts hkept
  exact (hout z hmem).elim hz fun hn => hn hpast

/-- Wherever a block is steady it is followed by `out`, and storage is in step behind it. -/
def Followed (registry : Registry) (I : Interpretation α) (m : Machine C (Value α)) (store : C → Store α)
    (Good : C → Prop) (inEntry : Bool) (names : List String) (s : State) (block out : List Stmt) : Prop :=
  ∀ {known parts half c}, Steady registry I inEntry names known parts half s block (store c) → Good c →
    Follows I m store Good c block out fun τ => inEntry = true → Synced I (Backed names) τ

section Cases
variable (hI : I.Functional) (hT : I.Transparent) (hm : m.Watches I store Good)
include hI hT hm

theorem Followed.bind (hviews : ∀ w, Backed names w → IsView w) (hx : target.symbol? = some x)
    (hd : Derives Γ (.value value) s [(value', completion)] binds s₁)
    (hnext : Followed Γ.registry I m store Good inEntry names (s₁.record Γ.entry x value' completion).flush
      rest out) :
    Followed Γ.registry I m store Good inEntry names s (.bind target value :: rest)
      (binds ++ .bind target value' :: out) := by
  intro known parts half c h hc
  have hvalue := h.laid.read rfl
  have hsource : ∀ z ∈ value.names, ¬ IsDrawn z := fun z hz => (hvalue z hz).1
  have htarget := h.laid.target_text hx
  have hr := h.laid.fits (e := value) rfl (by simp)
  have hbuilt : ∀ z ∈ value.builtNames, Among (parts ++ (Stmt.bind target value).headParts) z :=
    fun z hz => .inr (mem_append_right _ (mem_append_left _ hz))
  have hgrows := (s₁.grows_record Γ.entry x value' completion).trans (grows_flush _)
  refine hd.follows hI hT hm h.laid.kinds hr rfl rfl hsource hc h.faithful nofun fun {c₁} hc₁ hagree hf₁ _ heval => ?_
  have hbind := Follows.bind (P := fun τ => ∃ half', Steady Γ.registry I inEntry names
      (known ++ (Stmt.bind target value).headKnown Γ.registry) (parts ++ (Stmt.bind target value).headParts)
      half' (s₁.record Γ.entry x value' completion).flush rest τ)
    hm hsource hx htarget.1 heval fun v hv => ?_
  · refine hbind.append ?_
    rintro c₂ hc₂ ⟨_, hsteady⟩
    exact hnext hsteady hc₂
  · have hstep : ∃ half', inEntry = true → areInStep names rest half' = true ∧
        InStep I names (Function.update (store c₁) x (some v)) half' := by
      by_cases hin : inEntry = true
      · obtain ⟨hblock, hstep⟩ := h.step hin
        obtain ⟨half', hhalf'⟩ := (hstep.agree hagree).bind hI hT hviews hblock hx
          (forall_mem_cons.2 ⟨htarget, hvalue⟩) hv
        exact ⟨half', fun _ => hhalf'⟩
      · exact ⟨none, fun hin' => absurd hin' hin⟩
    obtain ⟨half', hstep⟩ := hstep
    exact ⟨half', h.laid.bind hx hd, (hgrows.inEntry.trans hd.grows.inEntry).trans h.entry, hstep,
      (Faithful.bind hT h.laid.kinds hd hr hbuilt hf₁ htarget.1 (h.laid.fresh hx) ((heval v).2 hv)).forget
        (forgets_flush _)⟩

theorem Followed.ret (hd : Derives Γ task s [(value', completion)] binds s₁)
    (hexprs : task.exprs = [value]) (hforced : ∀ z ∈ task.forced Γ.registry, z ∈ value.names)
    (hreturns : task.returns = true → s.inEntry = true) :
    Followed Γ.registry I m store Good inEntry names s (.ret value :: rest) (binds ++ .ret value' :: out) := by
  intro known parts half c h hc
  have hsource : ∀ z ∈ value.names, ¬ IsDrawn z := fun z hz => (h.laid.read rfl z hz).1
  refine hd.follows hI hT hm (kinds_covered _) (h.laid.fitsRet hexprs hforced) hexprs rfl hsource hc h.faithful
    (fun hret => ?_) fun hc₁ _ _ _ heval => .ret hm hsource heval
  obtain ⟨hblock, hstep⟩ := h.step (h.entry.symm.trans (hreturns hret))
  rwa [(areInStep_cons (by simp) hblock).1] at hstep

theorem Followed.branch (hd : Derives Γ (.value test) s [(test', completion)] binds s₁)
    (ht : Analyzed Γ whenTrue s₁.flush.enter whenTrue' t)
    (hu : Analyzed Γ whenFalse (s₁.flush.resume t).enter whenFalse' u)
    (htrue : Followed Γ.registry I m store Good inEntry names s₁.flush.enter whenTrue whenTrue')
    (hfalse : Followed Γ.registry I m store Good inEntry names (s₁.flush.resume t).enter whenFalse whenFalse')
    (hnext : Followed Γ.registry I m store Good inEntry names (s₁.flush.joined t u) rest out) :
    Followed Γ.registry I m store Good inEntry names s (.branch test whenTrue whenFalse :: rest)
      (binds ++ .branch test' whenTrue' whenFalse' :: out) := by
  intro known parts half c h hc
  have hsource : ∀ z ∈ test.names, ¬ IsDrawn z := fun z hz => (h.laid.read rfl z hz).1
  have hr := h.laid.fits (e := test) rfl (by simp)
  obtain ⟨tables, hstems⟩ := h.laid.behindTest hd
  have hentry : s₁.flush.inEntry = inEntry := hd.grows.inEntry.trans h.entry
  have hgrows := grows_resume ht.grows
  have hjoined := grows_joined ht.grows hu.grows
  have hinStep : inEntry = true → half = none ∧ isInStep names (.branch test whenTrue whenFalse) = true ∧
      areInStep names rest none = true := fun hin => areInStep_cons (by simp) (h.step hin).1
  refine hd.follows hI hT hm h.laid.kinds hr rfl rfl hsource hc h.faithful nofun fun {c₁} hc₁ hagree hf₁ _ heval => ?_
  have hbranch : Follows I m store Good c₁ [.branch test whenTrue whenFalse] [.branch test' whenTrue' whenFalse']
      fun τ => Steady Γ.registry I inEntry names (known ++ test.forcedNames Γ.registry)
        (parts ++ test.tupleNames) none (s₁.flush.joined t u) rest τ := by
    refine .branch hm hsource heval fun b c₂ hc₂ hstore => ?_
    have hf₂ : Faithful I s₁.flush (store c₂) := hstore ▸ hf₁.forget (forgets_flush _)
    have hsync : inEntry = true → Synced I (Backed names) (store c₂) := by
      intro hin
      have hstep := (h.step hin).2.agree hagree
      rwa [(hinStep hin).1, ← hstore] at hstep
    have hblocks : inEntry = true → areInStep names whenTrue none = true ∧
        areInStep names whenFalse none = true := fun hin => by
      simpa [isInStep] using (hinStep hin).2.1
    cases b with
    | true =>
      refine (htrue ⟨h.laid.ofTrue hd, hentry, fun hin => ⟨(hblocks hin).1, hsync hin⟩,
        hf₂.forget (forgets_enter _)⟩ hc₂).mono fun {c₃} hrun hsync' => ?_
      have hkept := fun z hz => h.laid.kept hd ht hu (z := z) (mem_append_left _ hz)
      refine ⟨h.laid.joined hd ht hu, hjoined.inEntry.trans hentry, fun hin => ⟨(hinStep hin).2.2, hsync' hin⟩, ?_⟩
      exact hf₂.behind hm tables (forgets_joined _ _ _) hrun (ht.bound_past hstems ⟨Nat.le_refl _, Nat.le_refl _⟩)
        (fun z hz => (hkept z hz).1) (fun z hz => (hkept z hz).2.1) fun z hz => (hkept z hz).2.2
    | false =>
      have hstems' : (s₁.flush.resume t).Stems := hstems.mono hgrows
      refine (hfalse ⟨h.laid.ofFalse hd ht, hgrows.inEntry.trans hentry, fun hin => ⟨(hblocks hin).2, hsync hin⟩,
        hf₂.forget ((forgets_resume _ t).trans (forgets_enter _))⟩ hc₂).mono fun {c₃} hrun hsync' => ?_
      have hkept := fun z hz => h.laid.kept hd ht hu (z := z) (mem_append_right _ hz)
      refine ⟨h.laid.joined hd ht hu, hjoined.inEntry.trans hentry, fun hin => ⟨(hinStep hin).2.2, hsync' hin⟩, ?_⟩
      exact hf₂.behind hm tables (forgets_joined _ _ _) hrun (hu.bound_past hstems' hgrows.draws)
        (fun z hz => (hkept z hz).1) (fun z hz => (hkept z hz).2.1) fun z hz => (hkept z hz).2.2
  exact hbranch.append fun c₂ hc₂ hsteady => hnext hsteady hc₂

theorem Followed.loop {selfResults : List String}
    (hd : Derives Γ (.value test) (s.invalidateAll (bodyTargets body)) [(test', completion)] binds s₁)
    (hraised : s₁.flush.RaisedBy selfResults head trips)
    (htrips : ∀ trip ∈ trips, Analyzed Γ body (s₁.flush.tripStart trip.selfResults trip.head) trip.out trip.state)
    (htrip : Analyzed Γ body (s₁.flush.tripStart selfResults head) body' t)
    (hbody : Followed Γ.registry I m store Good inEntry names (s₁.flush.tripStart selfResults head) body body')
    (hnext : Followed Γ.registry I m store Good inEntry names (s₁.flush.settled t head) rest out) :
    Followed Γ.registry I m store Good inEntry names s (.loop test body :: rest)
      (binds ++ .loop test' body' :: out) := by
  intro known parts half c h hc
  have hsource : ∀ z ∈ test.names, ¬ IsDrawn z := fun z hz => (h.laid.read rfl z hz).1
  have hinStep : inEntry = true → half = none ∧ isInStep names (.loop test body) = true ∧
      areInStep names rest none = true := fun hin => areInStep_cons (by simp) (h.step hin).1
  have hk := h.laid.headKinds
  have hr := h.laid.headFits
  obtain ⟨tables, hstems⟩ := h.laid.headTables hd
  have hinvalidate := s.grows_invalidateAll (bodyTargets body)
  have hentry : s₁.flush.inEntry = inEntry := (hd.grows.inEntry.trans hinvalidate.inEntry).trans h.entry
  have hgrowsTrip := grows_tripStart s₁.flush selfResults head
  have hgrows := grows_settled htrip.grows
  have hf₀ := h.faithful.forget (forgets_invalidateAll s (bodyTargets body))
  refine hd.follows hI hT hm hk hr rfl rfl hsource hc hf₀ nofun fun {c₁} hc₁ hagree hf₁ hrun₁ heval => ?_
  have hloop : Follows I m store Good c₁ [.loop test body] [.loop test' body'] fun τ => Faithful I s₁.flush τ ∧
      (∀ z, (Among (known ++ test.forcedNames Γ.registry ++ (parts ++ test.tupleNames)) z ∧
        z ∉ localNames body) → s₁.Past z → τ z = store c₁ z) ∧
      (inEntry = true → Synced I (Backed names) τ) := by
    refine .loop hm hsource ⟨hf₁.forget (forgets_flush _), fun _ _ _ => rfl, fun hin => ?_⟩
      (fun τ v hτ => ?_) fun c₂ hc₂ hτ => ?_
    · have hstep := (h.step hin).2.agree hagree
      rwa [(hinStep hin).1] at hstep
    · exact eval_iff_of_evalAll fun vs => hd.replay hI hT hm hk (.inl ⟨test, rfl⟩) hr hc hf₀ hrun₁ hτ.2.1 vs
    · have hout := htrip.bound_past hstems.tripStart hgrowsTrip.draws
      refine (hbody ⟨h.laid.tripStart hd hraised htrips, hgrowsTrip.inEntry.trans hentry,
        fun hin => ⟨(hinStep hin).2.1, hτ.2.2 hin⟩, hτ.1.forget (forgets_tripStart _ _ _)⟩ hc₂).mono
        fun {c₃} hrun hsync => ⟨?_, fun z hF hpast => ?_, hsync⟩
      · exact hτ.1.behind hm tables (.none (fun _ => rfl) (fun _ => rfl) fun _ => rfl) hrun hout
          (fun z hz => (h.laid.bodyNames hz).1) (fun z hz => (h.laid.bodyNames hz).2) fun z hz => .inr fun hF => hF.2 hz
      · have hz : z ∉ localNames body' := fun hmem => (hout z hmem).elim hF.2 fun hn => hn hpast
        exact (hm.unchanged hrun hz).trans (hτ.2.1 z hF hpast)
  refine hloop.append ?_
  rintro c₂ hc₂ ⟨hf₂, _, hsync₂⟩
  exact hnext ⟨h.laid.settled hd hraised htrips htrip,
    hgrows.inEntry.trans hentry, fun hin => ⟨(hinStep hin).2.2, hsync₂ hin⟩, hf₂.forget (forgets_settled _ _ _)⟩ hc₂

/-- A steady block is followed by what it is analysed to. -/
theorem Analyzed.follows (hviews : ∀ w, Backed names w → IsView w) (h : Analyzed Γ block s out s') :
    Followed Γ.registry I m store Good inEntry names s block out := by
  induction h with
  | nil =>
    intro known parts half c hb hc
    refine .nil fun hin => ?_
    obtain ⟨hhalf, hstep⟩ := hb.step hin
    rw [areInStep, Option.isNone_iff_eq_none] at hhalf
    rwa [hhalf] at hstep
  | bind hx hd _ ih => exact Followed.bind hI hT hm hviews hx hd ih
  | ret _ hd => exact Followed.ret hI hT hm hd rfl (fun z hz => names_of_forced hz) (by simp)
  | entryRet hin hd => exact Followed.ret hI hT hm hd rfl (fun z hz => hz) fun _ => hin
  | branch hd ht hu _ iht ihu ih => exact Followed.branch hI hT hm hd ht hu iht ihu ih
  | loop hd hraised htrips htrip _ _ _ iht ih => exact Followed.loop hI hT hm hd hraised htrips htrip iht ih

end Cases
variable {names views : List String} {p : Procedure}

/-- The names of a procedure: none of them is drawn, and there is no storage behind storage or drawn
names. -/
def Plain (names : List String) : Prop :=
  ∀ x ∈ names, ¬ IsDrawn x ∧ ∀ w, x = container w → IsView w ∧ ¬ IsDrawn w

theorem Plain.of_source (h : ∀ x ∈ names, x ∈ views ++ views.map container)
    (hviews : ∀ x ∈ views, isStorage x = false ∧ ¬ IsDrawn x) : Plain names := by
  intro x hx
  rcases mem_append.1 (h x hx) with hx | hx
  · obtain ⟨hview, hsource⟩ := hviews x hx
    exact ⟨hsource, fun w hw => absurd hw (isView_of_not_storage hview w)⟩
  · obtain ⟨y, hy, rfl⟩ := mem_map.1 hx
    obtain ⟨hview, hsource⟩ := hviews y hy
    refine ⟨container_not_drawn y, fun w hw => ?_⟩
    cases container_inj hw
    exact ⟨isView_of_not_storage hview, hsource⟩

theorem Plain.of_views (h : ∀ x ∈ names, x ∈ views ++ views.map container)
    (hviews : ∀ x ∈ views, isStorage x = false ∧ x.toList.getLast?.any Char.isDigit = false) : Plain names :=
  .of_source h fun x hx => ⟨(hviews x hx).1, not_drawn_of_last (hviews x hx).2⟩

theorem Plain.backed (h : Plain names) {w : String} (hw : Backed names w) :
    IsView w ∧ ¬ IsDrawn w :=
  (h _ hw).2 w rfl

theorem mem_parameterCompletions
    (h : x ∈ (parameterCompletions inEntry p.parameters).map Prod.fst) :
    x ∈ p.declaredNames inEntry := by
  refine mem_append_right _ ?_
  obtain ⟨entry, hentry, rfl⟩ := mem_map.1 h
  obtain ⟨parameter, hparameter, hentry⟩ := mem_flatMap.1 hentry
  refine mem_flatMap.2 ⟨parameter, hparameter, ?_⟩
  cases hsymbol : parameter.symbol? with
  | none => simp [hsymbol] at hentry
  | some symbol =>
    simp only [hsymbol] at hentry ⊢
    split at hentry
    · rename_i hstored
      rw [if_pos hstored]
      rcases mem_cons.1 hentry with rfl | hentry
      · exact mem_cons_self
      · cases mem_singleton.1 hentry
        exact mem_cons_of_mem _ mem_cons_self
    · rename_i hstored
      rw [if_neg hstored]
      cases mem_singleton.1 hentry
      exact mem_cons_self

theorem laid_bodyStart {phases temporaries : Supply} (hphases : phases.stem = "_phase")
    (htemporaries : temporaries.stem = "_sync") (hplain : Plain (p.declaredNames inEntry))
    (hsteady : areSteady registry [] [] p.body = true) :
    Laid registry (p.declaredNames inEntry) [] []
      (bodyStart inEntry p.parameters phases temporaries) p.body := by
  refine ⟨stems_bodyStart hphases htemporaries, ⟨tables_bodyStart, fun hx => ?_⟩, fun z hz => ?_, hsteady⟩
  · rw [bodyStart, contains_setCompletions] at hx
    rcases hx with hx | hx
    · exact mem_parameterCompletions hx
    · cases hx
  · have hmem : z ∈ p.declaredNames inEntry := mem_append_left _ (by simpa using hz)
    exact ⟨(hplain z hmem).1, fun w hw => show container w ∈ _ from hw ▸ hmem⟩

theorem ProcedureAnalyzed.follows {symbol : String} (hI : I.Functional) (hT : I.Transparent)
    (hm : m.Watches I store Good) (h : ProcedureAnalyzed Γ symbol p.parameters p.body body')
    (hplain : Plain (p.declaredNames (symbol = Γ.entry)))
    (hsteady : areSteady Γ.registry [] [] p.body = true) (hstep : symbol = Γ.entry →
      areInStep (p.declaredNames true) p.body none = true ∧
      ∀ x, Backed (p.declaredNames true) x → I.read (store c) (container x) = I.read (store c) x)
    (hc : Good c) : ∃ P, Follows I m store Good c p.body body' P := by
  obtain ⟨phases, temporaries, s', hphases, htemporaries, hbody⟩ := h
  have hsteady : Steady Γ.registry I (symbol = Γ.entry) (p.declaredNames (symbol = Γ.entry))
      [] [] none (bodyStart (symbol = Γ.entry) p.parameters phases temporaries) p.body
      (store c) := by
    refine ⟨laid_bodyStart hphases htemporaries hplain hsteady, ?_, fun hentry => ?_,
      fun hx => (bare_bodyStart.standIns hx).elim, fun hx => (bare_bodyStart.fields hx).elim,
      fun hx => (bare_bodyStart.closures hx).elim⟩
    · exact (grows_bodyStart _ p.parameters phases temporaries).inEntry
    · obtain ⟨hblock, hstored⟩ := hstep (of_decide_eq_true hentry)
      rw [hentry] at hplain ⊢
      exact ⟨hblock, fun w hw => ⟨((hplain _ hw).2 w rfl).2, hstored w hw⟩⟩
  exact ⟨_, hbody.follows hI hT hm (fun w hw => (hplain.backed hw).1) hsteady hc⟩

end Blocks

end Phases
end DataParallel
