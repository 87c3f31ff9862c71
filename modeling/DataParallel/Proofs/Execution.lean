import DataParallel.Stmt.Basic

/-! Runs of blocks.

A machine says what expressions evaluate to, how a name is assigned and which way a test sends
control. A run of a block either reaches its end or leaves it: with a result at a return, or without
one when it is watched no further. Runs that are cut short are runs as well, so a property of all
runs is a property of every point that a path reaches. -/

namespace DataParallel

structure Machine (C V : Type) where
  eval : C → Expr → V → C → Prop
  assign : String → V → C → C
  /-- Which way a branch or loop may go on the value of its test. -/
  decides : V → Bool → Prop

inductive Outcome (C V : Type) where
  | falls (config : C)
  | leaves (result : Option V) (config : C)

def Outcome.isCut {C V : Type} : Outcome C V → Bool
  | .leaves none _ => true
  | _ => false

/-- Statements that define something and do nothing when they are run. -/
def Stmt.isDefinition : Stmt → Bool
  | .procedure .. | .structDef .. | .typedef .. | .namespaceDef .. | .header .. | .declare .. => true
  | _ => false

namespace Stmt

def suites : Stmt → List (List Stmt)
  | .procedure _ _ body | .loop _ body | .structDef _ _ body | .namespaceDef _ body => [body]
  | .branch _ whenTrue whenFalse => [whenTrue, whenFalse]
  | _ => []

/-- The suites that control may enter at a statement. -/
def blocks : Stmt → List (List Stmt)
  | .branch _ whenTrue whenFalse => [whenTrue, whenFalse]
  | .loop _ body => [body]
  | _ => []

theorem mem_suites {s : Stmt} {block : List Stmt} (h : block ∈ s.blocks) : block ∈ s.suites := by
  cases s with
  | branch | loop => exact h
  | _ => cases h

theorem block_induction {motive : List Stmt → Prop} (nil : motive [])
    (cons : ∀ s rest, (∀ suite ∈ s.suites, motive suite) → motive rest → motive (s :: rest)) (block : List Stmt) :
    motive block := by
  refine @Stmt.rec_1 (fun s => ∀ suite ∈ s.suites, motive suite) motive ?_ ?_ ?_ ?_ ?_ ?_ ?_ ?_ ?_ ?_ nil cons block
    <;> simp_all [suites]

end Stmt

variable {C V : Type}

inductive Exec (machine : Machine C V) : C → List Stmt → Outcome C V → Prop where
  | nil (c : C) : Exec machine c [] (.falls c)
  | pause (c : C) (ss : List Stmt) : Exec machine c ss (.leaves none c)
  | bind {c c' : C} {target value : Expr} {x : String} {v : V} {rest : List Stmt} {o : Outcome C V} :
      target.symbol? = some x → machine.eval c value v c' →
      Exec machine (machine.assign x v c') rest o → Exec machine c (.bind target value :: rest) o
  | ret {c c' : C} {value : Expr} {v : V} {rest : List Stmt} :
      machine.eval c value v c' → Exec machine c (.ret value :: rest) (.leaves (some v) c')
  | branch {c c' c'' : C} {test : Expr} {v : V} {b : Bool} {whenTrue whenFalse rest : List Stmt} {o : Outcome C V} :
      machine.eval c test v c' → machine.decides v b →
      Exec machine c' (if b then whenTrue else whenFalse) (.falls c'') → Exec machine c'' rest o →
      Exec machine c (.branch test whenTrue whenFalse :: rest) o
  | branchLeaves {c c' c'' : C} {test : Expr} {v : V} {b : Bool} {whenTrue whenFalse rest : List Stmt} {r : Option V} :
      machine.eval c test v c' → machine.decides v b →
      Exec machine c' (if b then whenTrue else whenFalse) (.leaves r c'') →
      Exec machine c (.branch test whenTrue whenFalse :: rest) (.leaves r c'')
  | loopEnd {c c' : C} {test : Expr} {v : V} {body rest : List Stmt} {o : Outcome C V} :
      machine.eval c test v c' → machine.decides v false → Exec machine c' rest o →
      Exec machine c (.loop test body :: rest) o
  | loopStep {c c' c'' : C} {test : Expr} {v : V} {body rest : List Stmt} {o : Outcome C V} :
      machine.eval c test v c' → machine.decides v true → Exec machine c' body (.falls c'') →
      Exec machine c'' (.loop test body :: rest) o → Exec machine c (.loop test body :: rest) o
  | loopLeaves {c c' c'' : C} {test : Expr} {v : V} {body rest : List Stmt} {r : Option V} :
      machine.eval c test v c' → machine.decides v true → Exec machine c' body (.leaves r c'') →
      Exec machine c (.loop test body :: rest) (.leaves r c'')
  | define {c : C} {s : Stmt} {rest : List Stmt} {o : Outcome C V} :
      s.isDefinition = true → Exec machine c rest o → Exec machine c (s :: rest) o

namespace Exec
variable {machine : Machine C V} {c c' : C} {r : Option V} {ss ts : List Stmt} {o : Outcome C V}

/-- What follows a block goes on where a run reaches its end, and is not reached by a run that
leaves it. -/
theorem append {o' : Outcome C V} (hs : Exec machine c ss o')
    (hfalls : ∀ c', o' = .falls c' → Exec machine c' ts o)
    (hleaves : ∀ r c', o' = .leaves r c' → o = .leaves r c') : Exec machine c (ss ++ ts) o := by
  induction hs with
  | nil c => exact hfalls c rfl
  | pause c => cases hleaves none c rfl; exact .pause _ _
  | bind hx he _ ih => exact .bind hx he (ih hfalls hleaves)
  | ret he => cases hleaves _ _ rfl; exact .ret he
  | branch he hd hb _ _ ih => exact .branch he hd hb (ih hfalls hleaves)
  | branchLeaves he hd hb => cases hleaves _ _ rfl; exact .branchLeaves he hd hb
  | loopEnd he hd _ ih => exact .loopEnd he hd (ih hfalls hleaves)
  | loopStep he hd hb _ _ ih => exact .loopStep he hd hb (ih hfalls hleaves)
  | loopLeaves he hd hb => cases hleaves _ _ rfl; exact .loopLeaves he hd hb
  | define hd _ ih => exact .define hd (ih hfalls hleaves)

theorem append_falls (hs : Exec machine c ss (.falls c')) (ht : Exec machine c' ts o) :
    Exec machine c (ss ++ ts) o :=
  hs.append (fun _ h => by cases h; exact ht) nofun

theorem append_leaves (hs : Exec machine c ss (.leaves r c')) :
    Exec machine c (ss ++ ts) (.leaves r c') :=
  hs.append nofun fun _ _ h => h

theorem cons_cases {s : Stmt} (h : Exec machine c (s :: ss) o) :
    (∃ c', Exec machine c [s] (.falls c') ∧ Exec machine c' ss o) ∨
    (∃ r c', o = .leaves r c' ∧ Exec machine c [s] (.leaves r c')) := by
  generalize hb : s :: ss = block at h
  induction h with
  | nil => cases hb
  | pause c => exact .inr ⟨none, c, rfl, .pause c [s]⟩
  | bind hx he hr => cases hb; exact .inl ⟨_, .bind hx he (.nil _), hr⟩
  | ret he => cases hb; exact .inr ⟨_, _, rfl, .ret he⟩
  | branch he hd hx hr => cases hb; exact .inl ⟨_, .branch he hd hx (.nil _), hr⟩
  | branchLeaves he hd hx => cases hb; exact .inr ⟨_, _, rfl, .branchLeaves he hd hx⟩
  | loopEnd he hd hr => cases hb; exact .inl ⟨_, .loopEnd he hd (.nil _), hr⟩
  | loopLeaves he hd hx => cases hb; exact .inr ⟨_, _, rfl, .loopLeaves he hd hx⟩
  | define hd hr => cases hb; exact .inl ⟨_, .define hd (.nil _), hr⟩
  | loopStep he hd hx _ _ ih =>
    -- the loop stands in front of the same statements again
    rcases ih hb with ⟨d, hrun, ht⟩ | ⟨r, d, rfl, hrun⟩
    · cases hb; exact .inl ⟨d, .loopStep he hd hx hrun, ht⟩
    · cases hb; exact .inr ⟨r, d, rfl, .loopStep he hd hx hrun⟩

theorem append_cases (h : Exec machine c (ss ++ ts) o) :
    (∃ c', Exec machine c ss (.falls c') ∧ Exec machine c' ts o) ∨
    (∃ r c', o = .leaves r c' ∧ Exec machine c ss (.leaves r c')) := by
  induction ss generalizing c with
  | nil => exact .inl ⟨c, .nil c, h⟩
  | cons s ss ih =>
    rcases cons_cases h with ⟨d, hs, hrest⟩ | ⟨r, d, rfl, hs⟩
    · rcases ih hrest with ⟨d', hss, ht⟩ | ⟨r, d', rfl, hss⟩
      · exact .inl ⟨d', hs.append_falls hss, ht⟩
      · exact .inr ⟨r, d', rfl, hs.append_falls hss⟩
    · exact .inr ⟨r, d, rfl, hs.append_leaves⟩

section Cases
variable {target value test : Expr} {whenTrue whenFalse body rest : List Stmt}

theorem nil_cases (h : Exec machine c [] o) : o = .falls c ∨ o = .leaves none c := by
  cases h with
  | nil => exact .inl rfl
  | pause => exact .inr rfl

theorem bind_cases (h : Exec machine c (.bind target value :: rest) o) :
    o = .leaves none c ∨ ∃ x v c', target.symbol? = some x ∧ machine.eval c value v c' ∧
      Exec machine (machine.assign x v c') rest o := by
  cases h with
  | pause => exact .inl rfl
  | bind hx he hr => exact .inr ⟨_, _, _, hx, he, hr⟩
  | define hd => cases hd

theorem ret_cases (h : Exec machine c (.ret value :: rest) o) :
    o = .leaves none c ∨ ∃ v c', machine.eval c value v c' ∧ o = .leaves (some v) c' := by
  cases h with
  | pause => exact .inl rfl
  | ret he => exact .inr ⟨_, _, he, rfl⟩
  | define hd => cases hd

theorem branch_cases (h : Exec machine c (.branch test whenTrue whenFalse :: rest) o) :
    o = .leaves none c ∨ ∃ v b c', machine.eval c test v c' ∧ machine.decides v b ∧
      ((∃ c'', Exec machine c' (if b then whenTrue else whenFalse) (.falls c'') ∧ Exec machine c'' rest o) ∨
        ∃ r c'', Exec machine c' (if b then whenTrue else whenFalse) (.leaves r c'') ∧ o = .leaves r c'') := by
  cases h with
  | pause => exact .inl rfl
  | branch he hd hb hr => exact .inr ⟨_, _, _, he, hd, .inl ⟨_, hb, hr⟩⟩
  | branchLeaves he hd hb => exact .inr ⟨_, _, _, he, hd, .inr ⟨_, _, hb, rfl⟩⟩
  | define hd => cases hd

/-- What holds whenever the test of a loop is reached holds of every run through the loop: it is
kept by a trip, and it is enough for what follows. -/
theorem loop_invariant {Inv : C → Prop} {Post : Outcome C V → Prop}
    (h : Exec machine c (.loop test body :: rest) o) (hc : Inv c)
    (hpause : ∀ c, Inv c → Post (.leaves none c))
    (hend : ∀ {c v c' o}, Inv c → machine.eval c test v c' → machine.decides v false → Exec machine c' rest o → Post o)
    (hstep : ∀ {c v c' c''}, Inv c → machine.eval c test v c' → machine.decides v true →
      Exec machine c' body (.falls c'') → Inv c'')
    (hleaves : ∀ {c v c' r c''}, Inv c → machine.eval c test v c' → machine.decides v true →
      Exec machine c' body (.leaves r c'') → Post (.leaves r c'')) : Post o := by
  generalize hb : Stmt.loop test body :: rest = block at h
  induction h with
  | pause => exact hpause _ hc
  | loopEnd he hd hr => cases hb; exact hend hc he hd hr
  | loopStep he hd hx _ _ ih =>
    have hnext := hb
    cases hb
    exact ih (hstep hc he hd hx) hnext
  | loopLeaves he hd hx => cases hb; exact hleaves hc he hd hx
  | define hd => cases hb; cases hd
  | _ => cases hb

end Cases

theorem unique {o' : Outcome C V}
    (heval : ∀ {c e v v' d d'}, machine.eval c e v d → machine.eval c e v' d' → v = v' ∧ d = d')
    (hdecides : ∀ {v b b'}, machine.decides v b → machine.decides v b' → b = b')
    (h : Exec machine c ss o) (h' : Exec machine c ss o') (ho : o.isCut = false) (ho' : o'.isCut = false) :
    o = o' := by
  induction h generalizing o' with
  | nil =>
    obtain rfl | rfl := h'.nil_cases
    · rfl
    · cases ho'
  | pause => cases ho
  | bind hx he _ ih =>
    obtain rfl | ⟨_, _, _, hx', he', hr'⟩ := h'.bind_cases
    · cases ho'
    cases hx.symm.trans hx'
    obtain ⟨rfl, rfl⟩ := heval he he'
    exact ih hr' ho ho'
  | ret he =>
    obtain rfl | ⟨_, _, he', rfl⟩ := h'.ret_cases
    · cases ho'
    obtain ⟨rfl, rfl⟩ := heval he he'
    rfl
  | branch he hd _ _ ihb ihr =>
    obtain rfl | ⟨_, _, _, he', hd', ⟨_, hb', hr'⟩ | ⟨_, _, hb', rfl⟩⟩ := h'.branch_cases
    · cases ho'
    all_goals
      obtain ⟨rfl, rfl⟩ := heval he he'
      cases hdecides hd hd'
    · cases ihb hb' rfl rfl
      exact ihr hr' ho ho'
    · cases ihb hb' rfl ho'
  | branchLeaves he hd _ ihb =>
    obtain rfl | ⟨_, _, _, he', hd', ⟨_, hb', -⟩ | ⟨_, _, hb', rfl⟩⟩ := h'.branch_cases
    · cases ho'
    all_goals
      obtain ⟨rfl, rfl⟩ := heval he he'
      cases hdecides hd hd'
    · cases ihb hb' ho rfl
    · exact ihb hb' ho ho'
  | loopEnd he hd _ ih =>
    cases h' with
    | pause => cases ho'
    | loopEnd he' _ hr' =>
      obtain ⟨rfl, rfl⟩ := heval he he'
      exact ih hr' ho ho'
    | loopStep he' hd' | loopLeaves he' hd' =>
      obtain ⟨rfl, rfl⟩ := heval he he'
      cases hdecides hd hd'
    | define hd => cases hd
  | loopStep he hd _ _ ihb ihr =>
    cases h' with
    | pause => cases ho'
    | loopEnd he' hd' =>
      obtain ⟨rfl, rfl⟩ := heval he he'
      cases hdecides hd hd'
    | loopStep he' _ hb' hr' =>
      obtain ⟨rfl, rfl⟩ := heval he he'
      cases ihb hb' rfl rfl
      exact ihr hr' ho ho'
    | loopLeaves he' _ hb' =>
      obtain ⟨rfl, rfl⟩ := heval he he'
      cases ihb hb' rfl ho'
    | define hd => cases hd
  | loopLeaves he hd _ ihb =>
    cases h' with
    | pause => cases ho'
    | loopEnd he' hd' =>
      obtain ⟨rfl, rfl⟩ := heval he he'
      cases hdecides hd hd'
    | loopStep he' _ hb' =>
      obtain ⟨rfl, rfl⟩ := heval he he'
      cases ihb hb' ho rfl
    | loopLeaves he' _ hb' =>
      obtain ⟨rfl, rfl⟩ := heval he he'
      exact ihb hb' ho ho'
    | define hd => cases hd
  | define hd _ ih =>
    cases h' with
    | pause => cases ho'
    | define _ hr' => exact ih hr' ho ho'
    | _ => cases hd

end Exec
end DataParallel
