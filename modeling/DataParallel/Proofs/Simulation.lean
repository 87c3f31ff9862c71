import DataParallel.Proofs.Frames
import DataParallel.Proofs.Names

/-! Runs that follow each other.

A block and what it was rewritten to are run side by side, over stores that agree on the names that
are not drawn. What is put in front of a statement binds drawn names only, so the statements of the
two blocks can be compared one by one. -/

namespace DataParallel

open Name

variable {C α : Type} {e target : Expr} {σ τ : Store α} {I : Interpretation α} {v : Value α} {x : String}
  {m : Machine C (Value α)} {store : C → Store α} {Good : C → Prop} {c : C} {binds block out rest : List Stmt}
  {live : Prop} {P Q : Store α → Prop} {s : Stmt}

namespace Interpretation

variable {es : List Expr} {vs : List (Value α)}

theorem read_congr (h : τ x = σ x) : I.read τ x = I.read σ x := by
  unfold read
  rw [h]

theorem eval_congr (h : ∀ x ∈ e.names, τ x = σ x) : I.Eval τ e v ↔ I.Eval σ e v :=
  ⟨fun hv => hv.mono rfl (fun _ _ _ => id) fun x hx w hw => by rwa [← read_congr (h x hx)],
    fun hv => hv.mono rfl (fun _ _ _ => id) fun x hx w hw => by rwa [read_congr (h x hx)]⟩

theorem evalAll_congr (h : ∀ e ∈ es, ∀ x ∈ e.names, τ x = σ x) :
    I.EvalAll τ es vs ↔ I.EvalAll σ es vs := by
  have hnames : ∀ x ∈ Expr.namesAll es, τ x = σ x := fun x hx => by
    obtain ⟨e, he, hx⟩ := Expr.mem_namesAll.1 hx
    exact h e he x hx
  exact ⟨fun hv => hv.mono rfl (fun _ _ _ => id) fun x hx w hw => by rwa [← read_congr (hnames x hx)],
    fun hv => hv.mono rfl (fun _ _ _ => id) fun x hx w hw => by rwa [read_congr (hnames x hx)]⟩

end Interpretation

/-- Every run of `ss` from `c` has one of `ts` from `d` beside it. -/
def Simulates {C D V : Type} (m : Machine C V) (m' : Machine D V) (R E : C → D → Prop) (c : C) (ss : List Stmt) (d : D)
    (ts : List Stmt) : Prop :=
  ∀ o, Exec m c ss o → ∃ o', Exec m' d ts o' ∧ Outcome.Rel R E o o'

namespace Simulates
variable {C D V : Type} {m : Machine C V} {m' : Machine D V} {R E E' : C → D → Prop} {c : C} {d : D}
  {ss ss' ts ts' rest rest' whenTrue whenFalse whenTrue' whenFalse' body body' : List Stmt} {e e' : Expr}

theorem nil (hR : R c d) (hE : E c d) : Simulates m m' R E c [] d [] := by
  intro o hrun
  rcases hrun.nil_cases with rfl | rfl
  · exact ⟨_, .nil d, hR, hE⟩
  · exact ⟨_, .pause d [], rfl, hR⟩

theorem append (h : Simulates m m' R E c ss d ts)
    (h' : ∀ {c' d'}, R c' d' → E c' d' → Simulates m m' R E' c' ss' d' ts') :
    Simulates m m' R E' c (ss ++ ss') d (ts ++ ts') := by
  intro o hrun
  rcases hrun.append_cases with ⟨c', h₁, h₂⟩ | ⟨r, c', rfl, h₁⟩
  · obtain ⟨_, hrun₁, hrel⟩ := h _ h₁
    obtain ⟨d', rfl, hR, hE⟩ := hrel.of_falls
    obtain ⟨o', hrun₂, hrel⟩ := h' hR hE _ h₂
    exact ⟨o', hrun₁.append_falls hrun₂, hrel⟩
  · obtain ⟨_, hrun₁, hrel⟩ := h _ h₁
    obtain ⟨d', rfl, hR⟩ := hrel.of_leaves
    exact ⟨_, hrun₁.append_leaves, rfl, hR⟩

theorem mono (h : Simulates m m' R E c ss d ts)
    (hE : ∀ {c' d'}, Exec m c ss (.falls c') → Exec m' d ts (.falls d') → R c' d' → E c' d' → E' c' d') :
    Simulates m m' R E' c ss d ts := by
  intro o hrun
  obtain ⟨o', hrun', hrel⟩ := h o hrun
  refine ⟨o', hrun', ?_⟩
  cases o with
  | falls =>
    obtain ⟨d', rfl, hR, hend⟩ := hrel.of_falls
    exact ⟨hR, hE hrun hrun' hR hend⟩
  | leaves =>
    obtain ⟨d', rfl, hR⟩ := hrel.of_leaves
    exact ⟨rfl, hR⟩

theorem bind {target : Expr} (hR : R c d)
    (h : ∀ {x v c'}, target.symbol? = some x → m.eval c e v c' →
      ∃ d', m'.eval d e' v d' ∧ R (m.assign x v c') (m'.assign x v d') ∧ E (m.assign x v c') (m'.assign x v d')) :
    Simulates m m' R E c [.bind target e] d [.bind target e'] := by
  intro o hrun
  rcases hrun.bind_cases with rfl | ⟨x, v, c', hx, heval, hnil⟩
  · exact ⟨_, .pause d _, rfl, hR⟩
  · obtain ⟨d', heval', hend⟩ := h hx heval
    rcases hnil.nil_cases with rfl | rfl
    · exact ⟨_, .bind hx heval' (.nil _), hend⟩
    · exact ⟨_, .bind hx heval' (.pause _ _), rfl, hend.1⟩

theorem ret (hR : R c d) (h : ∀ {v c'}, m.eval c e v c' → ∃ d', m'.eval d e' v d' ∧ R c' d') :
    Simulates m m' R E c (.ret e :: rest) d (.ret e' :: rest') := by
  intro o hrun
  rcases hrun.ret_cases with rfl | ⟨v, c', heval, rfl⟩
  · exact ⟨_, .pause d _, rfl, hR⟩
  · obtain ⟨d', heval', hR⟩ := h heval
    exact ⟨_, .ret heval', rfl, hR⟩

variable (hdecides : ∀ {v b}, m.decides v b → m'.decides v b)
include hdecides

theorem branch (hR : R c d) (h : ∀ {v c'}, m.eval c e v c' → ∃ d', m'.eval d e' v d' ∧
      ∀ b : Bool, Simulates m m' R E c' (if b then whenTrue else whenFalse) d' (if b then whenTrue' else whenFalse')) :
    Simulates m m' R E c [.branch e whenTrue whenFalse] d [.branch e' whenTrue' whenFalse'] := by
  intro o hrun
  rcases hrun.branch_cases with rfl | ⟨v, b, c', heval, hd, hcases⟩
  · exact ⟨_, .pause d _, rfl, hR⟩
  · obtain ⟨d', heval', hblocks⟩ := h heval
    rcases hcases with ⟨c'', hblock, hnil⟩ | ⟨r, c'', hblock, rfl⟩
    · obtain ⟨_, hblock', hrel⟩ := hblocks b _ hblock
      obtain ⟨d'', rfl, hend⟩ := hrel.of_falls
      rcases hnil.nil_cases with rfl | rfl
      · exact ⟨_, .branch heval' (hdecides hd) hblock' (.nil d''), hend⟩
      · exact ⟨_, .branch heval' (hdecides hd) hblock' (.pause d'' []), rfl, hend.1⟩
    · obtain ⟨_, hblock', hrel⟩ := hblocks b _ hblock
      obtain ⟨d'', rfl, hR⟩ := hrel.of_leaves
      exact ⟨_, .branchLeaves heval' (hdecides hd) hblock', rfl, hR⟩

/-- What holds behind the body of a loop has to hold wherever its test is reached. -/
theorem loop (htest : ∀ {c v c' d}, R c d → E c d → m.eval c e v c' → ∃ d', m'.eval d e' v d' ∧ R c' d' ∧ E c' d')
    (hbody : ∀ {c d}, R c d → E c d → Simulates m m' R E c body d body') (hR : R c d) (hE : E c d) :
    Simulates m m' R E c [.loop e body] d [.loop e' body'] := by
  intro o hrun
  generalize hb : [Stmt.loop e body] = block at hrun
  induction hrun generalizing d with
  | pause => exact ⟨_, .pause d _, rfl, hR⟩
  | loopEnd heval hd hnil =>
    cases hb
    obtain ⟨d', heval', hend⟩ := htest hR hE heval
    rcases hnil.nil_cases with rfl | rfl
    · exact ⟨_, .loopEnd heval' (hdecides hd) (.nil d'), hend⟩
    · exact ⟨_, .loopEnd heval' (hdecides hd) (.pause d' []), rfl, hend.1⟩
  | loopStep heval hd htrip _ _ ih =>
    have hnext := hb
    cases hb
    obtain ⟨d', heval', hR, hE⟩ := htest hR hE heval
    obtain ⟨_, htrip', hrel⟩ := hbody hR hE _ htrip
    obtain ⟨d'', rfl, hR, hE⟩ := hrel.of_falls
    obtain ⟨o', hrun', hrel⟩ := ih hR hE hnext
    exact ⟨o', .loopStep heval' (hdecides hd) htrip' hrun', hrel⟩
  | loopLeaves heval hd htrip =>
    cases hb
    obtain ⟨d', heval', hR, hE⟩ := htest hR hE heval
    obtain ⟨_, htrip', hrel⟩ := hbody hR hE _ htrip
    obtain ⟨d'', rfl, hR⟩ := hrel.of_leaves
    exact ⟨_, .loopLeaves heval' (hdecides hd) htrip', rfl, hR⟩
  | define hd => cases hb; cases hd
  | _ => cases hb

end Simulates

/-- A machine that runs over stores. Its configurations stay good as long as the binds of realized
names give them the value of what they stand for. -/
structure Machine.Watches (I : Interpretation α) (m : Machine C (Value α)) (store : C → Store α)
    (Good : C → Prop) : Prop where
  eval : ∀ {c e v c'}, m.eval c e v c' → store c' = store c ∧ I.Eval (store c) e v ∧ (Good c → Good c')
  reads : ∀ {c e v}, I.Eval (store c) e v → ∃ c', m.eval c e v c'
  assign : ∀ x v c, store (m.assign x v c) = Function.update (store c) x (some v)
  good : ∀ {c x v}, Good c →
    (∀ (base : String) (n : Nat), x = base ++ "_phase" ++ toString n → I.read (store c) base = some v) →
    Good (m.assign x v c)

/-- How binds run from a configuration: it stays good at every point, `P` holds of the store behind
them, and they run if `live` holds. -/
structure Leads (m : Machine C (Value α)) (store : C → Store α) (Good : C → Prop) (c : C) (binds : List Stmt)
    (live : Prop) (P : Store α → Prop) : Prop where
  good : ∀ {o}, Exec m c binds o → Good o.config
  falls : ∀ {c'}, Exec m c binds (.falls c') → P (store c')
  cut : ∀ {r c'}, Exec m c binds (.leaves r c') → r = none
  runs : live → ∃ c', Exec m c binds (.falls c')

namespace Leads

variable {binds' : List Stmt} {live' : Prop}

theorem nil (hc : Good c) (hpost : P (store c)) : Leads m store Good c [] live P where
  good h := by rcases h.nil_cases with rfl | rfl <;> exact hc
  falls h := by
    rcases h.nil_cases with h | h
    · cases h
      exact hpost
    · cases h
  cut h := by
    rcases h.nil_cases with h | h
    · cases h
    · cases h
      rfl
  runs _ := ⟨c, .nil c⟩

theorem mono (h : Leads m store Good c binds live P) (hlive : live' → live)
    (hpost : ∀ τ, P τ → Q τ) : Leads m store Good c binds live' Q :=
  ⟨h.good, fun hrun => hpost _ (h.falls hrun), h.cut, fun hl => h.runs (hlive hl)⟩

theorem append (h : Leads m store Good c binds live P)
    (h' : ∀ c', Good c' → P (store c') → Leads m store Good c' binds' live Q) :
    Leads m store Good c (binds ++ binds') live Q where
  good hrun := by
    rcases hrun.append_cases with ⟨c', h₁, h₂⟩ | ⟨r, c', rfl, h₁⟩
    · exact (h' c' (h.good h₁) (h.falls h₁)).good h₂
    · exact h.good h₁
  falls hrun := by
    rcases hrun.append_cases with ⟨c', h₁, h₂⟩ | ⟨r, c', ho, h₁⟩
    · exact (h' c' (h.good h₁) (h.falls h₁)).falls h₂
    · cases ho
  cut hrun := by
    rcases hrun.append_cases with ⟨c', h₁, h₂⟩ | ⟨r, c', ho, h₁⟩
    · exact (h' c' (h.good h₁) (h.falls h₁)).cut h₂
    · cases ho
      exact h.cut h₁
  runs hl := by
    obtain ⟨c', h₁⟩ := h.runs hl
    obtain ⟨c'', h₂⟩ := (h' c' (h.good h₁) (h.falls h₁)).runs hl
    exact ⟨c'', h₁.append_falls h₂⟩

theorem bind (hm : m.Watches I store Good) (hc : Good c)
    (hx : target.symbol? = some x) (hlive : live → ∃ v, I.Eval (store c) e v) (hvalue : ∀ v, I.Eval (store c) e v →
      (∀ (base : String) (n : Nat), x = base ++ "_phase" ++ toString n → I.read (store c) base = some v) ∧
        P (Function.update (store c) x (some v))) :
    Leads m store Good c [.bind target e] live P := by
  have hassign : ∀ {y v c'}, target.symbol? = some y → m.eval c e v c' →
      Good (m.assign y v c') ∧ P (store (m.assign y v c')) := by
    intro y v c' hy heval
    cases hx.symm.trans hy
    obtain ⟨hstore, hv, hgood⟩ := hm.eval heval
    obtain ⟨hbase, hpost⟩ := hvalue v hv
    refine ⟨hm.good (hgood hc) (by rwa [hstore]), ?_⟩
    rwa [hm.assign, hstore]
  refine ⟨fun hrun => ?_, fun hrun => ?_, fun hrun => ?_, fun hl => ?_⟩
  · rcases hrun.bind_cases with rfl | ⟨y, v, c', hy, heval, hrun⟩
    · exact hc
    · rcases hrun.nil_cases with rfl | rfl <;> exact (hassign hy heval).1
  · rcases hrun.bind_cases with ho | ⟨y, v, c', hy, heval, hrun⟩
    · cases ho
    · rcases hrun.nil_cases with ho | ho
      · cases ho
        exact (hassign hy heval).2
      · cases ho
  · rcases hrun.bind_cases with ho | ⟨y, v, c', hy, heval, hrun⟩
    · cases ho
      rfl
    · rcases hrun.nil_cases with ho | ho
      · cases ho
      · cases ho
        rfl
  · obtain ⟨v, hv⟩ := hlive hl
    obtain ⟨c', heval⟩ := hm.reads hv
    exact ⟨_, .bind hx heval (.nil _)⟩

end Leads

def Stmt.read? : Stmt → Option Expr
  | .bind _ value | .ret value => some value
  | .branch test _ _ | .loop test _ => some test
  | _ => none

theorem Exec.reads {V : Type} {machine : Machine C V} {o : Outcome C V}
    (h : Exec machine c (s :: rest) o) (hs : s.read? = some e) :
    o = .leaves none c ∨ ∃ v c', machine.eval c e v c' := by
  cases h with
  | pause => exact .inl rfl
  | bind _ he | ret he | branch he | branchLeaves he | loopEnd he | loopStep he | loopLeaves he =>
    cases hs
    exact .inr ⟨_, _, he⟩
  | define hd =>
    cases s with
    | bind | ret | branch | loop => cases hd
    | _ => cases hs

def Store.Agree (σ τ : Store α) : Prop := ∀ z, ¬ IsDrawn z → σ z = τ z

theorem Store.Agree.update (h : Store.Agree σ τ) (x : String) (v : Value α) :
    Store.Agree (Function.update σ x (some v)) (Function.update τ x (some v)) := by
  intro z hz
  by_cases hzx : z = x
  · rw [hzx, Function.update_self, Function.update_self]
  · rw [Function.update_of_ne hzx, Function.update_of_ne hzx, h z hz]

theorem Store.Agree.eval (h : Store.Agree σ τ) (he : ∀ z ∈ e.names, ¬ IsDrawn z) :
    I.Eval σ e v ↔ I.Eval τ e v :=
  Interpretation.eval_congr fun z hz => h z (he z hz)

/-- Blocks run over a store, with another way to decide branches and loops. -/
def Interpretation.deciding (I : Interpretation α) (decides : Value α → Bool → Prop) : Machine (Store α) (Value α) :=
  { I.machine with decides }

/-- A configuration is good, and a store agrees with it. -/
def Store.Near (store : C → Store α) (Good : C → Prop) (τ : Store α) (d : C) : Prop := Store.Agree τ (store d) ∧ Good d

/-- The runs of `out` from a configuration are those of `block` over stores that agree with it. It
stays good, and `P` holds of the store behind them. -/
structure Follows (I : Interpretation α) (m : Machine C (Value α)) (store : C → Store α) (Good : C → Prop)
    (c : C) (block out : List Stmt) (P : Store α → Prop) : Prop where
  back : ∀ {σ}, Store.Near store Good σ c →
    Simulates m (I.deciding m.decides) (fun d τ => Store.Near store Good τ d) (fun d _ => P (store d)) c out σ block
  forth : ∀ {σ}, Store.Near store Good σ c →
    Simulates (I.deciding m.decides) m (Store.Near store Good) (fun _ d => P (store d)) σ block c out

namespace Follows

variable {block' out' : List Stmt}

theorem good {o : Outcome C (Value α)} (h : Follows I m store Good c block out P) (hc : Good c)
    (hrun : Exec m c out o) :
    Good o.config := by
  obtain ⟨o', -, hrel⟩ := h.back ⟨fun _ _ => rfl, hc⟩ o hrun
  cases o with
  | falls =>
    obtain ⟨τ, rfl, hτ, -⟩ := hrel.of_falls
    exact hτ.2
  | leaves =>
    obtain ⟨τ, rfl, hτ⟩ := hrel.of_leaves
    exact hτ.2

theorem nil (hpost : P (store c)) : Follows I m store Good c [] [] P :=
  ⟨fun hσ => .nil hσ hpost, fun hσ => .nil hσ hpost⟩

theorem append (h : Follows I m store Good c block out P)
    (h' : ∀ c', Good c' → P (store c') → Follows I m store Good c' block' out' Q) :
    Follows I m store Good c (block ++ block') (out ++ out') Q :=
  ⟨fun hσ => (h.back hσ).append fun hτ hP => (h' _ hτ.2 hP).back hτ,
    fun hσ => (h.forth hσ).append fun hτ hP => (h' _ hτ.2 hP).forth hτ⟩

theorem mono (h : Follows I m store Good c block out P)
    (hpost : ∀ {c'}, Exec m c out (.falls c') → P (store c') → Q (store c')) :
    Follows I m store Good c block out Q :=
  ⟨fun hσ => (h.back hσ).mono fun hrun _ _ => hpost hrun, fun hσ => (h.forth hσ).mono fun _ hrun _ => hpost hrun⟩

end Follows

namespace Machine.Watches

variable {o : Outcome C (Value α)}

theorem unchanged (hm : m.Watches I store Good) (hrun : Exec m c block o) {z : String}
    (hz : z ∉ Stmt.localNames block) : store o.config z = store c z := by
  refine hrun.preserves (fun d => store d z = store c z) (fun he hd => ?_) (fun {y v d} hy hd => ?_) rfl
  · rw [(hm.eval he).1, hd]
  · have hzy : z ≠ y := fun hzy => hz (hzy ▸ hy)
    rw [hm.assign, Function.update_of_ne hzy, hd]

end Machine.Watches

section Statements
variable {body body' : List Stmt} {e' : Expr}

theorem Follows.front (hm : m.Watches I store Good)
    (hbinds : Leads m store Good c binds (∃ v, I.Eval (store c) e v) Q)
    (hdrawn : ∀ z ∈ Stmt.localNames binds, IsDrawn z) (hs : s.read? = some e) (he : ∀ z ∈ e.names, ¬ IsDrawn z)
    (hnext : ∀ {c'}, Exec m c binds (.falls c') → Follows I m store Good c' (s :: rest) out P) :
    Follows I m store Good c (s :: rest) (binds ++ out) P := by
  have hsame : ∀ {σ o}, Store.Near store Good σ c → Exec m c binds o → Store.Near store Good σ o.config :=
    fun hσ hrun => ⟨fun z hz => (hσ.1 z hz).trans (hm.unchanged hrun fun hmem => hz (hdrawn z hmem)).symm,
      hbinds.good hrun⟩
  refine ⟨fun {σ} hσ o hrun => ?_, fun {σ} hσ o₀ hrun => ?_⟩
  · rcases hrun.append_cases with ⟨c', h₁, h₂⟩ | ⟨r, c', rfl, h₁⟩
    · exact (hnext h₁).back (hsame hσ h₁) o h₂
    · cases hbinds.cut h₁
      exact ⟨.leaves none σ, .pause σ _, rfl, hsame hσ h₁⟩
  · rcases hrun.reads hs with rfl | ⟨v, _, ⟨-, hv⟩⟩
    · exact ⟨.leaves none c, .pause c _, rfl, hσ⟩
    · obtain ⟨c', h₁⟩ := hbinds.runs ⟨v, (hσ.1.eval he).1 hv⟩
      obtain ⟨o, h₂, hrel⟩ := (hnext h₁).forth (hsame hσ h₁) o₀ hrun
      exact ⟨o, h₁.append_falls h₂, hrel⟩

section
variable (hm : m.Watches I store Good) (he : ∀ z ∈ e.names, ¬ IsDrawn z)
include hm he

/-- Where two expressions have the same values, they are evaluated side by side. -/
theorem Store.Near.evals (hσ : Store.Near store Good σ c)
    (hvalue : ∀ v, I.Eval (store c) e' v ↔ I.Eval (store c) e v) :
    (∀ {v c'}, m.eval c e' v c' → (I.deciding m.decides).eval σ e v σ ∧ Store.Near store Good σ c' ∧
      store c' = store c ∧ I.Eval (store c) e v) ∧
    ∀ {v σ'}, (I.deciding m.decides).eval σ e v σ' → σ' = σ ∧ ∃ c', m.eval c e' v c' := by
  refine ⟨fun {v c'} heval => ?_, fun {v σ'} heval => ?_⟩
  · obtain ⟨hstore, hv, hgood⟩ := hm.eval heval
    have hv := (hvalue v).1 hv
    exact ⟨⟨rfl, (hσ.1.eval he).2 hv⟩, ⟨hstore ▸ hσ.1, hgood hσ.2⟩, hstore, hv⟩
  · obtain ⟨rfl, hv⟩ := heval
    exact ⟨rfl, hm.reads ((hvalue v).2 ((hσ.1.eval he).1 hv))⟩

theorem Follows.bind (hx : target.symbol? = some x)
    (hsource : ¬ IsDrawn x) (hvalue : ∀ v, I.Eval (store c) e' v ↔ I.Eval (store c) e v)
    (hpost : ∀ v, I.Eval (store c) e v → P (Function.update (store c) x (some v))) :
    Follows I m store Good c [.bind target e] [.bind target e'] P := by
  have hassign : ∀ {σ v c'}, Store.Near store Good σ c' → store c' = store c → I.Eval (store c) e v →
      Store.Near store Good (Function.update σ x (some v)) (m.assign x v c') ∧ P (store (m.assign x v c')) := by
    intro σ v c' hσ hstore hv
    rw [Store.Near, hm.assign]
    refine ⟨⟨hσ.1.update x v, hm.good hσ.2 fun base n hbase => ?_⟩, hstore ▸ hpost v hv⟩
    exact absurd (.inl ⟨base, n, hbase⟩) hsource
  refine ⟨fun {σ} hσ => .bind hσ fun {y v c'} hy heval => ?_, fun {σ} hσ => .bind hσ fun {y v σ'} hy heval => ?_⟩
  · cases hx.symm.trans hy
    obtain ⟨heval', hτ, hstore, hv⟩ := (hσ.evals hm he hvalue).1 heval
    exact ⟨σ, heval', hassign hτ hstore hv⟩
  · cases hx.symm.trans hy
    obtain ⟨rfl, c', heval'⟩ := (hσ.evals hm he hvalue).2 heval
    obtain ⟨-, hτ, hstore, hv⟩ := (hσ.evals hm he hvalue).1 heval'
    exact ⟨c', heval', hassign hτ hstore hv⟩

theorem Follows.ret {rest' : List Stmt}
    (hvalue : ∀ v, I.Eval (store c) e' v ↔ I.Eval (store c) e v) :
    Follows I m store Good c (.ret e :: rest) (.ret e' :: rest') P := by
  refine ⟨fun {σ} hσ => .ret hσ fun heval => ?_, fun {σ} hσ => .ret hσ fun heval => ?_⟩
  · obtain ⟨heval', hτ, -⟩ := (hσ.evals hm he hvalue).1 heval
    exact ⟨σ, heval', hτ⟩
  · obtain ⟨rfl, c', heval'⟩ := (hσ.evals hm he hvalue).2 heval
    exact ⟨c', heval', ((hσ.evals hm he hvalue).1 heval').2.1⟩

theorem Follows.branch {whenTrue whenFalse whenTrue' whenFalse' : List Stmt}
    (hvalue : ∀ v, I.Eval (store c) e' v ↔ I.Eval (store c) e v)
    (hblocks : ∀ (b : Bool) (c' : C), Good c' → store c' = store c →
      Follows I m store Good c' (if b then whenTrue else whenFalse) (if b then whenTrue' else whenFalse') P) :
    Follows I m store Good c [.branch e whenTrue whenFalse] [.branch e' whenTrue' whenFalse'] P := by
  refine ⟨fun {σ} hσ => .branch id hσ fun heval => ?_, fun {σ} hσ => .branch id hσ fun heval => ?_⟩
  · obtain ⟨heval', hτ, hstore, -⟩ := (hσ.evals hm he hvalue).1 heval
    exact ⟨σ, heval', fun b => (hblocks b _ hτ.2 hstore).back hτ⟩
  · obtain ⟨rfl, c', heval'⟩ := (hσ.evals hm he hvalue).2 heval
    obtain ⟨-, hτ, hstore, -⟩ := (hσ.evals hm he hvalue).1 heval'
    exact ⟨c', heval', fun b => (hblocks b c' hτ.2 hstore).forth hτ⟩

theorem Follows.loop {H : Store α → Prop} (hhead : H (store c))
    (hvalue : ∀ τ v, H τ → (I.Eval τ e' v ↔ I.Eval τ e v))
    (hbody : ∀ c, Good c → H (store c) → Follows I m store Good c body body' H) :
    Follows I m store Good c [.loop e body] [.loop e' body'] H := by
  refine ⟨fun hσ => .loop id (fun {c v c' σ} hσ hH heval => ?_) (fun hσ hH => (hbody _ hσ.2 hH).back hσ) hσ hhead,
    fun hσ => .loop id (fun {σ v σ' c} hσ hH heval => ?_) (fun hσ hH => (hbody _ hσ.2 hH).forth hσ) hσ hhead⟩
  · obtain ⟨heval', hτ, hstore, -⟩ := (hσ.evals hm he fun v => hvalue _ v hH).1 heval
    exact ⟨σ, heval', hτ, hstore ▸ hH⟩
  · obtain ⟨rfl, c', heval'⟩ := (hσ.evals hm he fun v => hvalue _ v hH).2 heval
    obtain ⟨-, hτ, hstore, -⟩ := (hσ.evals hm he fun v => hvalue _ v hH).1 heval'
    exact ⟨c', heval', hτ, hstore ▸ hH⟩

end

end Statements

end DataParallel
