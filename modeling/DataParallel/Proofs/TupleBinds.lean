import DataParallel.Proofs.FreshPasses
import DataParallel.Proofs.NumberedNames
import DataParallel.Proofs.TailCalls

/-! Flattened binds do what the bind of a tuple does.

A bind of a tuple reads all of its value before it binds anything. The binds that stand for it are
run one after another, so each of them has to find what it reads as it was at the start: no target
may be bound before a value that mentions it is read. A call is kept under a drawn name, and its
fields are read from there. -/

namespace DataParallel

open Interpretation List Name DataParallel.Expr

variable {index : Nat} {e target value : Expr} {es targets : List Expr} {typing : Typing} {α : Type}

def Value.field? : Value α → Nat → Option (Value α)
  | .tuple fields, index => fields[index]?
  | _, _ => none

/-- Tuples are built of their fields, and projections take them out again. -/
structure Interpretation.HasTuples (I : Interpretation α) : Prop where
  tuple : ∀ vs w, I.apply (.procedure Snippet.makeTuple) vs w ↔ w = .tuple vs
  field : ∀ index vs w, I.apply (.procedure (Snippet.project index)) vs w ↔ ∃ v, vs = [v] ∧ v.field? index = some w

namespace Name.Snippet

theorem head?_project (index : Nat) : (project index).toList.head? = some 't' := by
  rw [project, String.toList_append, String.toList_append]
  rfl

theorem makeTuple_ne_project (index : Nat) : makeTuple ≠ project index := by
  intro h
  have hlast : (project index).toList.getLast? = some '>' := by
    rw [project, String.toList_append, getLast?_append]
    rfl
  rw [← h] at hlast
  exact absurd hlast (by decide)

end Name.Snippet

namespace Interpretation
variable {I : Interpretation α} {σ : Store α} {v : Value α}

theorem eval_project (hI : I.HasTuples) (h : index < Snippet.indexLimit) :
    I.Eval σ (.applySnippet (Snippet.project index) [e] typing) v ↔ ∃ w, I.Eval σ e w ∧ w.field? index = some v := by
  have hb : ∀ t, (Expr.name (Snippet.project index) t).builtin? = some (Snippet.project index) := by
    intro t
    have hsnippet : isBuiltin (Snippet.project index) = true := by
      simp [isBuiltin, Snippet.isSnippet, Snippet.projection?_project h]
    simp [builtin?, symbol?, Option.filter, hsnippet]
  simp only [applySnippet, Eval, hb, evalAll_singleton]
  constructor
  · rintro ⟨_, _, rfl, ⟨w, hw, rfl⟩, hv⟩
    obtain ⟨w', hw', hfield⟩ := (hI.field index [w] v).1 hv
    cases hw'
    exact ⟨w, hw, hfield⟩
  · rintro ⟨w, hw, hfield⟩
    exact ⟨_, [w], rfl, ⟨w, hw, rfl⟩, (hI.field index [w] v).2 ⟨w, rfl, hfield⟩⟩

theorem eval_makeTuple (hI : I.HasTuples) :
    I.Eval σ (.applySnippet Snippet.makeTuple es typing) v ↔ I.Eval σ (.tuple es typing) v := by
  have hb : ∀ t, (Expr.name Snippet.makeTuple t).builtin? = some Snippet.makeTuple :=
    fun t => by simp [Expr.builtin?, Expr.symbol?, isBuiltin, Snippet.isSnippet]
  simp only [applySnippet, Eval, hb]
  constructor
  · rintro ⟨_, vs, rfl, hvs, hv⟩
    exact ⟨vs, hvs, (hI.tuple vs v).1 hv⟩
  · rintro ⟨vs, hvs, hv⟩
    exact ⟨_, vs, rfl, hvs, (hI.tuple vs v).2 hv⟩

theorem Eval.unique_of_field {w w' : Value α} (htuple : e.isTuple = false)
    (happly : e.isApply = false)
    (hv : I.Eval σ e v) (hfield : v.field? index = some w) (hw' : I.Eval σ e w') : w' = v := by
  cases e with
  | name => exact Option.some.inj (Eq.trans (Eq.symm hw') hv)
  | literal => exact Eq.trans hw' (Eq.symm hv)
  | tuple => cases htuple
  | apply => cases happly
  | closure =>
    obtain ⟨_, _, _, _, rfl⟩ := hv
    cases hfield

end Interpretation

namespace Expr

mutual

/-- Targets and the parts of a value at their places are related. -/
def Matches (R : String → Value α → Prop) : Expr → Value α → Prop
  | .name symbol _, v => R symbol v
  | .tuple targets _, v => MatchesFrom R v 0 targets
  | _, _ => False

/-- Targets and the fields of a tuple from an index on are related. -/
def MatchesFrom (R : String → Value α → Prop) (v : Value α) (index : Nat) : List Expr → Prop
  | [] => True
  | target :: targets => (∃ w, v.field? index = some w ∧ Matches R target w) ∧ MatchesFrom R v (index + 1) targets

end

mutual

/-- Whether every value can be read before a target that it mentions is bound, if targets and values
are gone through in the order in which they stand. A call is read at once, another value once for
each target. -/
def readsFirst : (target value : Expr) → Bool
  | .tuple targets _, .tuple values _ => readFirst targets values
  | .tuple targets _, value => value.isApply || (namesAll targets.dropLast).all (· ∉ value.names)
  | _, _ => true

def readFirst : (targets values : List Expr) → Bool
  | target :: targets, value :: values =>
    readsFirst target value && target.names.all (· ∉ namesAll values) && readFirst targets values
  | _, _ => true

end

mutual

theorem Matches.mono {R S : String → Value α → Prop} : ∀ {target : Expr} {v : Value α},
    (∀ x ∈ target.names, ∀ w, R x w → S x w) → target.Matches R v → target.Matches S v
  | .name symbol _, v, hRS, h => hRS symbol mem_cons_self v h
  | .tuple .., _, hRS, h => MatchesFrom.mono hRS h

theorem MatchesFrom.mono {R S : String → Value α → Prop} :
    ∀ {targets : List Expr} {v : Value α} {index : Nat},
    (∀ x ∈ namesAll targets, ∀ w, R x w → S x w) → MatchesFrom R v index targets → MatchesFrom S v index targets
  | [], _, _, _, _ => trivial
  | _ :: _, _, _, hRS, ⟨⟨w, hw, h⟩, hrest⟩ =>
    ⟨⟨w, hw, h.mono fun x hx => hRS x (mem_append_left _ hx)⟩, hrest.mono fun x hx => hRS x (mem_append_right _ hx)⟩

end

theorem matchesFrom_succ {R : String → Value α → Prop} {u : Value α} {vs : List (Value α)} :
    ∀ {targets : List Expr} {index : Nat},
    MatchesFrom R (.tuple (u :: vs)) (index + 1) targets ↔ MatchesFrom R (.tuple vs) index targets
  | [], _ => Iff.rfl
  | _ :: _, _ => and_congr Iff.rfl matchesFrom_succ

theorem matchesFrom_cons {R : String → Value α → Prop} {v : Value α} {vs : List (Value α)} :
    MatchesFrom R (.tuple (v :: vs)) 0 (target :: targets) ↔
      target.Matches R v ∧ MatchesFrom R (.tuple vs) 0 targets := by
  simp [MatchesFrom, Value.field?, matchesFrom_succ]

theorem readsFirst_of_isApply (h : value.isApply = true) : readsFirst target value = true := by
  cases value with
  | apply => cases target <;> simp [readsFirst, isApply]
  | _ => cases h

theorem one_le_size (e : Expr) : 1 ≤ e.size := by
  cases e <;> simp [size]

end Expr

/-- A name that a supply cannot draw any more. -/
def Supply.Spares (supply : Supply) (x : String) : Prop :=
  ∀ n, supply.counter ≤ n → x ≠ supply.stem ++ toString n

namespace Stmt

variable {supply supply' supply'' : Supply} {binds : List Stmt} {x : String} {source : Expr} {xs ys zs : List String}

/-- The binds bind no other names than `names` and what the first supply draws on its way to the
second. -/
structure BindsOnly (supply : Supply) (names : List String) (binds : List Stmt) (supply' : Supply) : Prop where
  stem : supply'.stem = supply.stem
  le : supply.counter ≤ supply'.counter
  binds : ∀ x ∈ localNames binds, x ∈ names ∨ ∃ n, supply.counter ≤ n ∧ x = supply.stem ++ toString n

namespace BindsOnly
variable {names names' : List String} {binds' : List Stmt}

theorem append (h : BindsOnly supply names binds supply')
    (h' : BindsOnly supply' names' binds' supply'') :
    BindsOnly supply (names ++ names') (binds ++ binds') supply'' := by
  refine ⟨h'.stem.trans h.stem, Nat.le_trans h.le h'.le, fun x hx => ?_⟩
  rcases mem_localNames_append.1 hx with hx | hx
  · exact (h.binds x hx).imp_left (mem_append_left _)
  · rcases h'.binds x hx with hx | ⟨n, hn, hx⟩
    · exact .inl (mem_append_right _ hx)
    · exact .inr ⟨n, Nat.le_trans h.le hn, by rw [hx, h.stem]⟩

theorem single : BindsOnly supply target.names [.bind target value] supply := by
  refine ⟨rfl, Nat.le_refl _, fun x hx => .inl ?_⟩
  cases target with
  | name => simpa [localNames, boundNamesAll, boundNames, isName, symbol?, names] using hx
  | _ => simp [localNames, boundNamesAll, boundNames, isName, symbol?] at hx

theorem drawn : BindsOnly supply [] [.bind (e.renamed supply.next.1) value] supply.next.2 := by
  refine ⟨rfl, Nat.le_succ _, fun x hx => .inr ⟨supply.counter, Nat.le_refl _, ?_⟩⟩
  simpa [localNames, boundNamesAll, boundNames, renamed, isName, symbol?, Supply.next] using hx

theorem unchanged {I : Interpretation α} {τ : Store α} {o : Outcome (Store α) (Value α)}
    (h : BindsOnly supply names binds supply') (hrun : Exec I.machine τ binds o) (hx : x ∉ names)
    (hspares : supply.Spares x) : o.config x = τ x := by
  refine hrun.unchanged fun hmem => ?_
  rcases h.binds x hmem with hmem | ⟨n, hn, hdrawn⟩
  · exact hx hmem
  · exact hspares n hn hdrawn

end BindsOnly

theorem Unpacks.bindsOnly {work : List (Expr × Expr)} (h : Unpacks supply work binds supply') :
    BindsOnly supply (Expr.namesAll (work.map Prod.fst)) binds supply' := by
  induction h with
  | nil => exact ⟨rfl, Nat.le_refl _, nofun⟩
  | pairs hlength _ ih =>
    simp only [map_append, map_fst_zip (Nat.le_of_eq hlength), namesAll_append] at ih
    exact ih
  | call _ _ ih =>
    simp only [map_append, fieldBinds_fst, namesAll_append] at ih
    exact BindsOnly.drawn.append ih
  | fields _ _ _ ih =>
    simp only [map_append, fieldBinds_fst, namesAll_append] at ih
    exact ih
  | bind _ _ ih => exact BindsOnly.single.append ih

theorem flattenBind_binds (h : (flattenBind target value).run supply = .ok (binds, supply')) :
    BindsOnly supply target.names binds supply' := by
  simpa [Expr.namesAll] using ((flattenBind_unpacks target value supply).unpacks h).bindsOnly

theorem flattenPairs_binds {values : List Expr} (hlength : targets.length = values.length)
    (h : (flattenPairs targets values).run supply = .ok (binds, supply')) :
    BindsOnly supply (Expr.namesAll targets) binds supply' := by
  simpa [map_fst_zip (Nat.le_of_eq hlength)] using ((flattenPairs_unpacks targets values supply).unpacks h).bindsOnly

theorem flattenFields_binds
    (h : (flattenFields source index targets).run supply = .ok (binds, supply')) :
    BindsOnly supply (Expr.namesAll targets) binds supply' := by
  simpa [fieldBinds_fst] using ((@flattenFields_unpacks False source index targets supply).unpacks h).bindsOnly

/-- Run from `τ`, the binds go through wherever what they read has parts for all targets, and every
run of them gives the targets the parts of something that is read at the start. -/
structure Delivers {β : Type} (I : Interpretation α) (τ : Store α) (binds : List Stmt) (Reads : β → Prop)
    (Receives : (String → Value α → Prop) → β → Prop) : Prop where
  runs : ∀ b, Reads b → Receives (fun _ _ => True) b →
    ∃ τ', Exec I.machine τ binds (.falls τ') ∧ Receives (fun x w => τ' x = some w) b
  ends : ∀ τ', Exec I.machine τ binds (.falls τ') → (∃ b, Reads b) →
    ∃ b, Reads b ∧ Receives (fun x w => τ' x = some w) b

/-- Targets that can be bound one by one: they differ from each other and from what is drawn, and
what is read is not drawn later. -/
structure CanSpread (supply : Supply) (targets reads : List String) : Prop where
  stem : supply.stem = "_tup"
  nodup : targets.Nodup
  targets : ∀ x ∈ targets, ∀ n : Nat, x ≠ "_tup" ++ toString n
  reads : ∀ x ∈ reads, supply.Spares x

namespace CanSpread

theorem mono (h : CanSpread supply xs ys) (hzs : ∀ z ∈ zs, z ∈ ys) : CanSpread supply xs zs :=
  ⟨h.stem, h.nodup, h.targets, fun z hz => h.reads z (hzs z hz)⟩

theorem split (h : CanSpread supply (xs ++ ys) zs) (hbinds : BindsOnly supply xs binds supply') :
    CanSpread supply xs zs ∧ CanSpread supply' ys zs := by
  obtain ⟨hxs, hys, -⟩ := nodup_append.1 h.nodup
  refine ⟨⟨h.stem, hxs, fun x hx => h.targets x (mem_append_left _ hx), h.reads⟩, hbinds.stem.trans h.stem, hys,
    fun y hy => h.targets y (mem_append_right _ hy), fun z hz n hn => ?_⟩
  rw [hbinds.stem]
  exact h.reads z hz n (Nat.le_trans hbinds.le hn)

theorem drawn (h : CanSpread supply xs ys) : CanSpread supply.next.2 xs [supply.next.1] := by
  refine ⟨h.stem, h.nodup, h.targets, fun z hz n hn heq => ?_⟩
  rw [mem_singleton.1 hz] at heq
  have hcounter : supply.counter = n := toString_inj ((String.append_right_inj _).1 heq)
  exact absurd hn (by simp [Supply.next, hcounter])

theorem project (h : CanSpread supply xs source.names) :
    CanSpread supply xs (applySnippet (Snippet.project index) [source] typing).names := by
  refine ⟨h.stem, h.nodup, h.targets, fun z hz => ?_⟩
  rcases names_applySnippet.1 hz with rfl | hz
  · intro n _
    rw [h.stem]
    exact ne_drawn_of_first (by rw [Snippet.head?_project]; decide) (by decide) n
  · exact h.reads z (by simpa [namesAll] using hz)

end CanSpread

namespace Delivers
variable {β γ : Type} {I : Interpretation α} {τ : Store α} {rest : List Stmt} {Reads Reads' : β → Prop}
  {Receives : (String → Value α → Prop) → β → Prop} {ReadsRest : γ → Prop}
  {ReceivesRest : (String → Value α → Prop) → γ → Prop}

theorem nil (h : ∀ R b, Receives R b) : Delivers I τ [] Reads Receives where
  runs b _ _ := ⟨τ, .nil τ, h _ b⟩
  ends _ _ hb := hb.imp fun b hb => ⟨hb, h _ b⟩

theorem congr (h : Delivers I τ binds Reads Receives) (hreads : ∀ b, Reads b ↔ Reads' b) :
    Delivers I τ binds Reads' Receives where
  runs b hb := h.runs b ((hreads b).2 hb)
  ends τ' hrun hb := by
    obtain ⟨b, hb, hreceives⟩ := h.ends τ' hrun (hb.imp fun b => (hreads b).2)
    exact ⟨b, (hreads b).1 hb, hreceives⟩

theorem append (h : Delivers I τ binds Reads Receives)
    (hrest : ∀ τ₁, Exec I.machine τ binds (.falls τ₁) → Delivers I τ₁ rest ReadsRest ReceivesRest)
    (hkept : ∀ τ₁ τ' b, Exec I.machine τ₁ rest (.falls τ') → Receives (fun x w => τ₁ x = some w) b →
      Receives (fun x w => τ' x = some w) b) :
    Delivers I τ (binds ++ rest) (fun p : β × γ => Reads p.1 ∧ ReadsRest p.2)
      fun R p => Receives R p.1 ∧ ReceivesRest R p.2 where
  runs p hp hfits := by
    obtain ⟨τ₁, hrun, hfirst⟩ := h.runs p.1 hp.1 hfits.1
    obtain ⟨τ', hrun', hlast⟩ := (hrest τ₁ hrun).runs p.2 hp.2 hfits.2
    exact ⟨τ', hrun.append_falls hrun', hkept τ₁ τ' p.1 hrun' hfirst, hlast⟩
  ends τ' hrun hp := by
    obtain ⟨⟨b, c⟩, hb, hc⟩ := hp
    rcases hrun.append_cases with ⟨τ₁, hrun, hrun'⟩ | ⟨r, τ₁, ho, -⟩
    · obtain ⟨b', hb', hfirst⟩ := h.ends τ₁ hrun ⟨b, hb⟩
      obtain ⟨c', hc', hlast⟩ := (hrest τ₁ hrun).ends τ' hrun' ⟨c, hc⟩
      exact ⟨⟨b', c'⟩, ⟨hb', hc'⟩, hkept τ₁ τ' b' hrun' hfirst, hlast⟩
    · cases ho

theorem single (hx : target.symbol? = some x) :
    Delivers I τ [.bind target value] (I.Eval τ value) fun R v => R x v where
  runs v hv _ := ⟨_, Exec.single_bind hx hv, Function.update_self ..⟩
  ends τ' hrun _ := by
    rcases hrun.bind_cases with ho | ⟨y, v, c, hy, ⟨rfl, hv⟩, hrun⟩
    · cases ho
    · cases hx.symm.trans hy
      rcases hrun.nil_cases with ho | ho
      · cases ho
        exact ⟨v, hv, Function.update_self ..⟩
      · cases ho

end Delivers

section Spreading
variable {I : Interpretation α} {τ τ' : Store α} {v : Value α}

theorem BindsOnly.eval (h : BindsOnly supply xs binds supply')
    (hrun : Exec I.machine τ binds (.falls τ'))
    (hxs : ∀ x ∈ xs, x ∉ e.names) (hspares : ∀ x ∈ e.names, supply.Spares x) : I.Eval τ' e v ↔ I.Eval τ e v :=
  eval_congr fun x hx => h.unchanged hrun (fun hmem => hxs x hmem hx) (hspares x hx)

theorem BindsOnly.evalAll {vs : List (Value α)} (h : BindsOnly supply xs binds supply')
    (hrun : Exec I.machine τ binds (.falls τ')) (hxs : ∀ x ∈ xs, x ∉ Expr.namesAll es)
    (hspares : ∀ x ∈ Expr.namesAll es, supply.Spares x) : I.EvalAll τ' es vs ↔ I.EvalAll τ es vs := by
  refine evalAll_congr fun e he x hx => ?_
  have hmem : x ∈ Expr.namesAll es := Expr.mem_namesAll.2 ⟨e, he, hx⟩
  exact h.unchanged hrun (fun hx' => hxs x hx' hmem) (hspares x hmem)

theorem CanSpread.keeps (h : CanSpread supply (target.names ++ ys) zs)
    (hstem : supply'.stem = supply.stem)
    (hbinds : BindsOnly supply' ys binds supply'') (hrun : Exec I.machine τ binds (.falls τ'))
    (hv : target.Matches (fun x w => τ x = some w) v) : target.Matches (fun x w => τ' x = some w) v := by
  obtain ⟨-, -, hapart⟩ := nodup_append.1 h.nodup
  refine hv.mono fun x hx _ hw => (hbinds.unchanged hrun (fun hmem => hapart x hx x hmem rfl) ?_).trans hw
  intro n _
  rw [hstem, h.stem]
  exact h.targets x (mem_append_left _ hx) n

end Spreading

theorem flattenBind_reads {I : Interpretation α} {τ τ' : Store α} (happly : value.isApply = true)
    (h : (flattenBind target value).run supply = .ok (binds, supply')) (hrun : Exec I.machine τ binds (.falls τ')) :
    ∃ v, I.Eval τ value v := by
  have hbinds : ∃ first rest, binds = .bind first value :: rest := by
    cases value with
    | apply =>
      cases target with
      | tuple targets =>
        simp only [flattenBind, isApply, if_true, Lower.run_bind_ok_iff] at h
        obtain ⟨name, s, hname, rest, s', hrest, h⟩ := h
        cases h
        exact ⟨_, _, rfl⟩
      | _ =>
        cases h
        exact ⟨_, _, rfl⟩
    | _ => cases happly
  obtain ⟨first, rest, rfl⟩ := hbinds
  rcases hrun.bind_cases with ho | ⟨y, v, c, -, ⟨rfl, hv⟩, -⟩
  · cases ho
  · exact ⟨v, hv⟩

mutual

theorem flattenBind_delivers {I : Interpretation α} (hI : I.HasTuples) :
    ∀ {target value : Expr} {supply supply' : Supply} {binds : List Stmt} {τ : Store α}, target.isBinder = true →
    CanSpread supply target.names value.names → target.size ≤ Snippet.indexLimit →
    readsFirst target value = true → (flattenBind target value).run supply = .ok (binds, supply') →
    Delivers I τ binds (I.Eval τ value) target.Matches
  | .tuple targets _, value, supply, supply', binds, τ, hbinder, hspread, hsize, hfirst, h => by
    have hsmall : Expr.sizeAll targets ≤ Snippet.indexLimit := Nat.le_of_succ_le hsize
    cases value with
    | tuple values _ =>
      rw [flattenBind] at h
      split at h
      · rename_i hlength
        have hpairs := @flattenPairs_delivers I hI _ _ _ _ _ τ hbinder hlength hspread hsmall hfirst h
        refine ⟨?_, fun τ' hrun hread => ?_⟩
        · rintro _ ⟨vs, hvs, rfl⟩ hfits
          exact hpairs.runs vs hvs hfits
        · obtain ⟨_, vs, hvs, rfl⟩ := hread
          obtain ⟨vs, hvs, hreceives⟩ := hpairs.ends τ' hrun ⟨vs, hvs⟩
          exact ⟨.tuple vs, ⟨vs, hvs, rfl⟩, hreceives⟩
      · cases h
    | apply function arguments typing =>
      simp only [flattenBind, isApply, if_true, Lower.run_bind_ok_iff] at h
      obtain ⟨name, s, hname, rest, s', hrest, h⟩ := h
      cases hname
      cases h
      have hfields := fun τ₁ => @flattenFields_delivers I hI targets _ 0 _ _ _ τ₁ rfl rfl hbinder hspread.drawn
        (by simpa using hsmall) (fun x hx hmem => ?_) hrest
      · refine ⟨fun v hv hfits => ?_, fun τ' hrun _ => ?_⟩
        · obtain ⟨τ', hrun, hreceives⟩ := (hfields _).runs v (read_update_self _) hfits
          exact ⟨τ', .bind rfl ⟨rfl, hv⟩ hrun, hreceives⟩
        · rcases hrun.bind_cases with ho | ⟨y, v, c, hy, ⟨rfl, hv⟩, hrun⟩
          · cases ho
          · cases hy
            obtain ⟨w, hw, hreceives⟩ := (hfields _).ends τ' hrun ⟨v, read_update_self _⟩
            cases Option.some.inj (Eq.trans (Eq.symm hw) (read_update_self _))
            exact ⟨v, hv, hreceives⟩
      · obtain ⟨target, htarget, hx⟩ := Expr.mem_namesAll.1 hx
        have hmem' : x ∈ Expr.namesAll targets := Expr.mem_namesAll.2 ⟨target, dropLast_subset _ htarget, hx⟩
        refine hspread.targets x hmem' supply.counter ?_
        rw [mem_singleton.1 hmem, ← hspread.stem]
    | name | literal | closure =>
      simp only [flattenBind, isApply] at h
      refine flattenFields_delivers hI rfl rfl hbinder hspread (by simpa using hsmall) ?_ h
      simpa only [readsFirst, isApply, Bool.false_or, all_eq_true, decide_eq_true_eq] using hfirst
  | .name symbol typing, value, supply, supply', binds, τ, hbinder, hspread, hsize, hfirst, h => by
    cases value with
    | tuple values typing' =>
      cases h
      exact (Delivers.single rfl).congr fun v => eval_makeTuple hI
    | _ =>
      cases h
      exact Delivers.single rfl

theorem flattenPairs_delivers {I : Interpretation α} (hI : I.HasTuples) :
    ∀ {targets values : List Expr} {supply supply' : Supply} {binds : List Stmt} {τ : Store α},
    areBinders targets = true → targets.length = values.length →
    CanSpread supply (Expr.namesAll targets) (Expr.namesAll values) →
    Expr.sizeAll targets ≤ Snippet.indexLimit → readFirst targets values = true →
    (flattenPairs targets values).run supply = .ok (binds, supply') →
    Delivers I τ binds (I.EvalAll τ values) fun R vs => MatchesFrom R (.tuple vs) 0 targets
  | [], _, _, _, _, _, _, _, _, _, _, h => by
    cases h
    exact .nil fun _ _ => trivial
  | _ :: _, [], _, _, _, _, _, hlength, _, _, _, _ => by cases hlength
  | target :: targets, value :: values, supply, supply', binds, τ, hbinder, hlength, hspread, hsize, hfirst, h => by
    simp only [flattenPairs, Lower.run_bind_ok_iff] at h
    obtain ⟨first, s, hrun, rest, s', hrest, h⟩ := h
    cases h
    have hbinds := flattenBind_binds hrun
    have hbinds' := flattenPairs_binds (Nat.succ.inj hlength) hrest
    obtain ⟨hbinder, hbinders⟩ := Bool.and_eq_true_iff.1 hbinder
    obtain ⟨hleft, hothers⟩ := Bool.and_eq_true_iff.1 hfirst
    obtain ⟨hone, hapart⟩ := Bool.and_eq_true_iff.1 hleft
    obtain ⟨hspread₁, hspread₂⟩ := hspread.split hbinds
    simp only [all_eq_true, decide_eq_true_eq] at hapart
    have hboth := Delivers.append (@flattenBind_delivers I hI _ _ _ _ _ τ hbinder
        (hspread₁.mono fun z hz => mem_append_left _ hz) (Nat.le_trans (Nat.le_add_right _ _) hsize) hone hrun)
      (fun τ₁ hτ₁ => (flattenPairs_delivers hI hbinders (Nat.succ.inj hlength)
        (hspread₂.mono fun z hz => mem_append_right _ hz) (Nat.le_trans (Nat.le_add_left _ _) hsize) hothers
        hrest).congr fun vs => hbinds.evalAll hτ₁ hapart fun x hx => hspread.reads x (mem_append_right _ hx))
      fun τ₁ τ' v hτ' => hspread.keeps hbinds.stem hbinds' hτ'
    refine ⟨?_, fun τ' hτ' hread => ?_⟩
    · rintro _ ⟨v, vs, hv, hvs, rfl⟩ hfits
      obtain ⟨τ', hτ', hreceives⟩ := hboth.runs (v, vs) ⟨hv, hvs⟩ (matchesFrom_cons.1 hfits)
      exact ⟨τ', hτ', matchesFrom_cons.2 hreceives⟩
    · obtain ⟨_, v, vs, hv, hvs, rfl⟩ := hread
      obtain ⟨⟨v, vs⟩, ⟨hv, hvs⟩, hreceives⟩ := hboth.ends τ' hτ' ⟨(v, vs), hv, hvs⟩
      exact ⟨v :: vs, ⟨v, vs, hv, hvs, rfl⟩, matchesFrom_cons.2 hreceives⟩

theorem flattenFields_delivers {I : Interpretation α} (hI : I.HasTuples) :
    ∀ {targets : List Expr} {source : Expr} {index : Nat} {supply supply' : Supply} {binds : List Stmt} {τ : Store α},
    source.isTuple = false → source.isApply = false → areBinders targets = true →
    CanSpread supply (Expr.namesAll targets) source.names →
    index + Expr.sizeAll targets ≤ Snippet.indexLimit →
    (∀ x ∈ Expr.namesAll targets.dropLast, x ∉ source.names) →
    (flattenFields source index targets).run supply = .ok (binds, supply') →
    Delivers I τ binds (I.Eval τ source) fun R v => MatchesFrom R v index targets
  | [], _, _, _, _, _, _, _, _, _, _, _, _, h => by
    cases h
    exact .nil fun _ _ => trivial
  | target :: targets, source, index, supply, supply', binds, τ, htuple, happly, hbinder, hspread, hsize,
      hfirst, h => by
    simp only [flattenFields, Lower.run_bind_ok_iff] at h
    obtain ⟨first, s, hrun, rest, s', hrest, h⟩ := h
    cases h
    have hbinds := flattenBind_binds hrun
    have hbinds' := flattenFields_binds hrest
    obtain ⟨hbinder, hbinders⟩ := Bool.and_eq_true_iff.1 hbinder
    obtain ⟨hspread₁, hspread₂⟩ := hspread.split hbinds
    have hindex : index < Snippet.indexLimit := by
      have := target.one_le_size
      simp only [Expr.sizeAll] at hsize
      omega
    have hothers : ∀ τ₁, Exec I.machine τ first (.falls τ₁) →
        Delivers I τ₁ rest (I.Eval τ source) fun R v => MatchesFrom R v (index + 1) targets := by
      intro τ₁ hτ₁
      cases targets with
      | nil =>
        cases hrest
        exact .nil fun _ _ => trivial
      | cons next targets =>
        refine (flattenFields_delivers hI htuple happly hbinders hspread₂ ?_ (fun x hx => hfirst x ?_) hrest).congr
          fun v => hbinds.eval hτ₁ (fun x hx => hfirst x ?_) hspread.reads
        · have := target.one_le_size
          rw [Expr.sizeAll] at hsize
          omega
        · exact mem_append_right _ hx
        · exact mem_append_left _ hx
    have hboth := Delivers.append (@flattenBind_delivers I hI _ _ _ _ _ τ hbinder hspread₁.project ?_
      (readsFirst_of_isApply rfl) hrun) hothers fun τ₁ τ' v hτ' => hspread.keeps hbinds.stem hbinds' hτ'
    · refine ⟨fun v hv hfits => ?_, fun τ' hτ' hread => ?_⟩
      · obtain ⟨⟨w, hfield, hw⟩, hrest⟩ := hfits
        obtain ⟨τ', hτ', hreceives⟩ := hboth.runs (w, v) ⟨(eval_project hI hindex).2 ⟨v, hv, hfield⟩, hv⟩ ⟨hw, hrest⟩
        exact ⟨τ', hτ', ⟨w, hfield, hreceives.1⟩, hreceives.2⟩
      · -- a projection is always read, so a run of the binds has found the field
        rcases hτ'.append_cases with ⟨τ₁, hτ₁, -⟩ | ⟨r, τ₁, ho, -⟩
        · obtain ⟨w, hw⟩ := flattenBind_reads rfl hrun hτ₁
          obtain ⟨v, hv⟩ := hread
          obtain ⟨⟨w, v⟩, ⟨hw, hv⟩, hreceives⟩ := hboth.ends τ' hτ' ⟨(w, v), hw, hv⟩
          obtain ⟨v', hv', hfield⟩ := (eval_project hI hindex).1 hw
          cases hv'.unique_of_field htuple happly hfield hv
          exact ⟨v, hv, ⟨w, hfield, hreceives.1⟩, hreceives.2⟩
        · cases ho
    · rw [Expr.sizeAll] at hsize
      omega

end

end Stmt

open Stmt (flattenBind)

/-- Binds in which every value can be read before a target that it mentions is bound do what the
bind of the tuple does: they run if the value has parts for all targets, give the targets the parts
of the value as it was before, and change nothing else but temporaries. -/
theorem flattenBind_keeps_meaning {I : Interpretation α} {target value : Expr}
    {supply supply' : Supply}
    {binds : List Stmt} (hI : I.HasTuples) (hbinder : target.isBinder = true) (hnodup : target.names.Nodup)
    (hsize : target.size ≤ Name.Snippet.indexLimit) (hstem : supply.stem = "_tup")
    (hnames : ∀ x ∈ target.names ++ value.names, ∀ n : Nat, x ≠ "_tup" ++ toString n)
    (hfirst : Expr.readsFirst target value = true)
    (h : (flattenBind target value).run supply = .ok (binds, supply')) (σ : Store α) :
    (∀ v, I.Eval σ value v → target.Matches (fun _ _ => True) v →
      ∃ σ', Exec I.machine σ binds (.falls σ') ∧ target.Matches (fun x w => σ' x = some w) v) ∧
    ∀ σ', Exec I.machine σ binds (.falls σ') →
      ((∃ v, I.Eval σ value v) → ∃ v, I.Eval σ value v ∧ target.Matches (fun x w => σ' x = some w) v) ∧
      ∀ x, x ∉ target.names → (∀ n : Nat, x ≠ "_tup" ++ toString n) → σ' x = σ x := by
  have hspares : ∀ {x}, (∀ n : Nat, x ≠ "_tup" ++ toString n) → supply.Spares x := by
    intro x hx n _
    rw [hstem]
    exact hx n
  have hspread : Stmt.CanSpread supply target.names value.names :=
    ⟨hstem, hnodup, fun x hx => hnames x (List.mem_append_left _ hx),
      fun x hx => hspares (hnames x (List.mem_append_right _ hx))⟩
  have hdelivers := Stmt.flattenBind_delivers hI (τ := σ) hbinder hspread hsize hfirst h
  refine ⟨hdelivers.runs, fun σ' hrun => ⟨hdelivers.ends σ' hrun, fun x hx hdrawn => ?_⟩⟩
  exact (Stmt.flattenBind_binds h).unchanged hrun hx (hspares hdrawn)

/-- Every call builds a tuple of its arguments, except projections. -/
def Interpretation.building : Interpretation Nat where
  literal _ _ := .datum 0
  denotes _ := true
  apply f vs v := (∃ index w, f = .procedure (Snippet.project index) ∧ vs = [w] ∧ w.field? index = some v) ∨
    ((∀ index, f ≠ .procedure (Snippet.project index)) ∧ v = .tuple vs)
  truth _ := none

theorem Interpretation.building_hasTuples : building.HasTuples where
  tuple vs w := by
    constructor
    · rintro (⟨index, _, h, -⟩ | ⟨-, h⟩)
      · exact absurd (Value.procedure.inj h) (Snippet.makeTuple_ne_project index)
      · exact h
    · exact fun h => .inr ⟨fun index h => Snippet.makeTuple_ne_project index (Value.procedure.inj h), h⟩
  field index vs w := by
    constructor
    · rintro (⟨index', v, h, hvs, hv⟩ | ⟨h, -⟩)
      · cases Snippet.project_inj (Value.procedure.inj h)
        exact ⟨v, hvs, hv⟩
      · exact absurd rfl (h index)
    · rintro ⟨v, hvs, hv⟩
      exact .inl ⟨index, v, rfl, hvs, hv⟩

def pairing : Typing := ⟨.tuple [.scalar .int32, .scalar .int32], none⟩

def named (x : String) : Expr := .name x integer

def pairOf (e f : Expr) : Expr := .tuple [e, f] pairing

/-- Two pairs of targets, all but one of which their values mention. -/
def mixedTargets : Expr :=
  .tuple [pairOf (named "a") (named "b"), pairOf (named "c") (named "t")] pairing

def mixedValues : Expr :=
  .tuple [.apply (named "f") [named "b", named "a"] pairing, .name "t" pairing] pairing

def mixedBinds : List Stmt :=
  [.bind (.name "_tup0" pairing) (.apply (named "f") [named "b", named "a"] pairing),
    .bind (named "a") (.applySnippet (Snippet.project 0) [.name "_tup0" pairing] integer),
    .bind (named "b") (.applySnippet (Snippet.project 1) [.name "_tup0" pairing] integer),
    .bind (named "c") (.applySnippet (Snippet.project 0) [.name "t" pairing] integer),
    .bind (named "t") (.applySnippet (Snippet.project 1) [.name "t" pairing] integer)]

def mixedStore : Store Nat := fun x =>
  [("a", .datum 1), ("b", .datum 2), ("t", .tuple [.datum 3, .datum 4])].lookup x

/-- The call exchanges `a` and `b`, and `t` gets a field of its own. -/
theorem mixed_keeps_meaning :
    (flattenBind mixedTargets mixedValues).run (.ofStem "_tup") = .ok (mixedBinds, ⟨"_tup", 1⟩) ∧
    ∃ τ, Exec Interpretation.building.machine mixedStore mixedBinds (.falls τ) ∧ τ "a" = some (.datum 2) ∧
      τ "b" = some (.datum 1) ∧ τ "c" = some (.datum 3) ∧ τ "t" = some (.datum 4) ∧ τ "d" = none := by
  have hok : (flattenBind mixedTargets mixedValues).run (.ofStem "_tup") = .ok (mixedBinds, ⟨"_tup", 1⟩) := by rfl
  obtain ⟨hruns, hends⟩ := flattenBind_keeps_meaning Interpretation.building_hasTuples (by decide) (by decide)
    (by decide) rfl (fun x hx => Name.ne_drawn_of_first (by revert x; decide) (by decide)) (by decide) hok mixedStore
  have hcall : Interpretation.building.Eval mixedStore (.apply (named "f") [named "b", named "a"] pairing)
      (.tuple [.datum 2, .datum 1]) := by
    refine ⟨.procedure "f", [.datum 2, .datum 1], rfl, ⟨_, _, rfl, ⟨_, _, rfl, rfl, rfl⟩, rfl⟩, .inr ⟨?_, rfl⟩⟩
    intro index h
    have hfirst := Name.Snippet.head?_project index
    rw [← Value.procedure.inj h] at hfirst
    exact absurd hfirst (by decide)
  have hvalue : Interpretation.building.Eval mixedStore mixedValues
      (.tuple [.tuple [.datum 2, .datum 1], .tuple [.datum 3, .datum 4]]) :=
    ⟨_, ⟨_, _, hcall, ⟨_, _, rfl, rfl, rfl⟩, rfl⟩, rfl⟩
  obtain ⟨τ, hrun, hreceives⟩ := hruns _ hvalue (by
    simp [mixedTargets, pairOf, named, Expr.Matches, Expr.MatchesFrom, Value.field?])
  have hbound : (τ "a" = some (.datum 2) ∧ τ "b" = some (.datum 1)) ∧
      τ "c" = some (.datum 3) ∧ τ "t" = some (.datum 4) := by
    simpa [mixedTargets, pairOf, named, Expr.Matches, Expr.MatchesFrom, Value.field?] using hreceives
  exact ⟨hok, τ, hrun, hbound.1.1, hbound.1.2, hbound.2.1, hbound.2.2,
    (hends τ hrun).2 "d" (by decide) (Name.ne_drawn_of_first (by decide) (by decide))⟩

/-- An exchange is not one: the second bind reads what the first has bound. -/
theorem flattenBind_loses_exchanged :
    (pairOf (named "a") (named "b")).isBinder = true ∧ (pairOf (named "a") (named "b")).names.Nodup ∧
    (flattenBind (pairOf (named "a") (named "b")) (pairOf (named "b") (named "a"))).run (.ofStem "_tup") =
      .ok ([.bind (named "a") (named "b"), .bind (named "b") (named "a")], .ofStem "_tup") ∧
    building.Eval mixedStore (pairOf (named "b") (named "a")) (.tuple [.datum 2, .datum 1]) ∧
    ∀ σ', Exec building.machine mixedStore
        [.bind (named "a") (named "b"), .bind (named "b") (named "a")] (.falls σ') →
      ¬ (pairOf (named "a") (named "b")).Matches (fun x w => σ' x = some w) (.tuple [.datum 2, .datum 1]) := by
  refine ⟨rfl, by decide, rfl, ⟨_, ⟨_, _, rfl, ⟨_, _, rfl, rfl, rfl⟩, rfl⟩, rfl⟩, fun σ' hrun hreceives => ?_⟩
  rcases hrun.bind_cases with ho | ⟨x, v, c, hx, ⟨rfl, hv⟩, hrun⟩
  · cases ho
  rcases hrun.bind_cases with ho | ⟨y, w, c, hy, ⟨rfl, hw⟩, hrun⟩
  · cases ho
  cases hx
  cases hy
  cases hv
  cases hw
  rcases hrun.nil_cases with ho | ho
  · cases ho
    obtain ⟨-, ⟨_, hb, hbound⟩, -⟩ := hreceives
    cases hb
    cases hbound
  · cases ho

end DataParallel
