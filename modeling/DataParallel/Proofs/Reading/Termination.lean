import DataParallel.Proofs.Reading.Items

/-! Reading comes to an end.

The steps last if there are sixteen for each token that is left, and a few more for the rule. So
rules and loops are nested no deeper than the tokens and the ranks allow, and more steps change
nothing. -/

namespace DataParallel

open List

namespace Reading

mutual

theorem Binder.eq_of_matches :
    ∀ {binder binder' : Binder}, binder.Matches Eq binder' → binder = binder'
  | .name .., .name .., ⟨rfl, rfl, rfl⟩ => rfl
  | .tuple _, .tuple _, h => congrArg Binder.tuple (eq_of_matchAll h)

theorem Binder.eq_of_matchAll :
    ∀ {binders binders' : List Binder}, MatchAll Eq binders binders' → binders = binders'
  | [], [], _ => rfl
  | _ :: _, _ :: _, h => congr (congrArg cons (eq_of_matches h.1)) (eq_of_matchAll h.2)

end

/-- Runs from one state that do the same, and do not fail for want of steps. -/
def Sides.ending : Sides where
  errors e e' := e = e' ∧ e.cause ≠ .exhausted
  states := Eq
  spans := Eq
  words _ := True
  inStep := False
  fails hcause h := ⟨by rw [h], hcause⟩
  joins _ _ _ _ ha hb := by rw [ha, hb]
  tokens h := h ▸ forall₂_same.2 fun _ _ => ⟨rfl, rfl, rfl⟩
  kept _ _ _ := trivial
  tail h := by rw [h]
  finish h := by rw [h]
  tyOf? h := by rw [h]

theorem Sides.ending_learns : Sides.ending.Learns where
  same h := h ▸ ⟨rfl, rfl, rfl⟩
  learn h _ _ _ := by
    cases h
    exact Eq.refl _

/-- The rules of the grammar, and their loops and options. -/
inductive Rule where
  | boundVariables
  | type
  | moreTypes
  | parameterTypes
  | level (level : Level)
  | chain (level : Level) (left : Expr)
  | unary
  | atom
  | arguments (opening closing : Token.Kind)
  | more
  | binder
  | moreBinders
  | block
  | stmts
  | stmt
  | branch
  | otherwise
  | moreVariables
  | typeVariables
  | declaration
  | parameter
  | moreParameters
  | parameters
  | procedure
  | items

namespace Rule

/-- What a rule reads. -/
def Result : Rule → Type
  | boundVariables | moreTypes | parameterTypes | moreVariables | typeVariables => List Ty
  | type => Ty
  | level _ | chain _ _ | unary | atom | parameter => Expr
  | arguments _ _ => List Expr × Span
  | more | moreParameters | parameters => List Expr
  | binder => Binder
  | moreBinders => List Binder
  | stmt | branch => Stmt
  | block | stmts | otherwise => List Stmt
  | declaration | procedure => Item
  | items => List Item

def read : (rule : Rule) → Nat → Read rule.Result
  | boundVariables => readVariables
  | type => readType
  | moreTypes => readMoreTypes
  | parameterTypes => readParameterTypes
  | level l => readLevel l
  | chain l left => readChain l left
  | unary => readUnary
  | atom => readAtom
  | arguments opening closing => readArguments opening closing
  | more => readMore
  | binder => readBinder
  | moreBinders => readMoreBinders
  | block => readBlock
  | stmts => readStmts
  | stmt => readStmt
  | branch => readBranch
  | otherwise => readElse
  | moreVariables => readMoreVariables
  | typeVariables => readTypeVariables
  | declaration => readDeclaration
  | parameter => readParameter
  | moreParameters => readMoreParameters
  | parameters => readParameters
  | procedure => readProcedure
  | items => readItems

/-- A rule enters only rules of lower rank before it has taken a token. -/
def rank : Rule → Nat
  | level l => l.rank + 1
  | stmts => 3
  | unary | parameterTypes | stmt | items => 2
  | _ => 1

/-- The rules always take a token. What may be empty is a loop or an option. -/
def least : Rule → Nat
  | moreTypes | parameterTypes | chain _ _ | more | moreBinders | stmts | otherwise | moreVariables | typeVariables
  | moreParameters | parameters | items => 0
  | _ => 1

/-- As many steps as a rule needs from a state. -/
def steps (rule : Rule) (s : State) : Nat :=
  16 * s.tokens.length + rule.rank

theorem reads (rule : Rule) (n m : Nat) :
    Sides.ending.Reads rule.rank rule.least rule.read Eq n m := by
  have types := Sides.ending.readsTypes n m
  have exprs := (Sides.Rules.trivial .ending).readsExprs n m
  have binders := Sides.ending.readsBinders n m
  have stmts := Sides.ending_learns.readsStmts n m
  cases rule with
  | boundVariables => exact Sides.ending.readVariables n m
  | type => exact types.type
  | moreTypes => exact types.more
  | parameterTypes => exact types.parameters
  | level l => exact (exprs.level l).imp fun _ _ h => h.1
  | chain l left => exact (exprs.chain l left trivial).imp fun _ _ h => h.1
  | unary => exact exprs.unary.imp fun _ _ h => h.1
  | atom => exact exprs.atom.imp fun _ _ h => h.1
  | arguments opening closing => exact (exprs.arguments opening closing).imp fun _ _ h => Prod.ext h.1 h.2.1
  | more => exact exprs.more.imp fun _ _ h => h.1
  | binder => exact binders.binder.imp fun _ _ => Binder.eq_of_matches
  | moreBinders => exact binders.more.imp fun _ _ => Binder.eq_of_matchAll
  | block => exact stmts.block
  | stmts => exact stmts.stmts
  | stmt => exact stmts.stmt
  | branch => exact stmts.branch
  | otherwise => exact stmts.otherwise
  | moreVariables => exact Sides.ending.readMoreVariables n m
  | typeVariables => exact Sides.ending.readTypeVariables n m
  | declaration => exact Sides.ending_learns.readDeclaration n m
  | parameter => exact Sides.ending_learns.readParameter n m
  | moreParameters => exact Sides.ending_learns.readMoreParameters n m
  | parameters => exact Sides.ending_learns.readParameters n m
  | procedure => exact Sides.ending_learns.readProcedure n m
  | items => exact Sides.ending_learns.readItems n m

theorem ends (rule : Rule) (s : State) (n m : Nat) (hn : rule.steps s ≤ n) (hm : rule.steps s ≤ m) :
    Together (fun e e' => e = e' ∧ e.cause ≠ .exhausted) (fun r r' => r = r' ∧ r.2.tokens <:+ s.tokens ∧
      r.2.tokens.length + rule.least ≤ s.tokens.length) ((rule.read n).run s) ((rule.read m).run s) := by
  have hends := rule.reads n m (.inr ⟨hn, hm⟩) s s rfl (Nat.le_refl _)
  obtain ⟨r, r', hr, hr', hresult, hstate, htaken⟩ | ⟨e, e', he, he', herror⟩ := hends.ok_or_error
  · rw [hr, hr']
    exact ⟨Prod.ext hresult hstate, htaken⟩
  · rwa [he, he']

end Rule

/-- A text is read to a unit or to an error of the text. From every state, every rule ends within
the steps that the tokens left and its rank allow, whether it succeeds or fails: further steps
change nothing. It gives no token back, and if it succeeds, it has taken one, loops and options
apart. -/
theorem reading_ends : (∀ text : List Char, (∃ unit, SourceUnit.ofText? text = .ok unit) ∨
      ∃ e, SourceUnit.ofText? text = .error e ∧ e.cause ≠ .exhausted) ∧
    ∀ (rule : Rule) (s : State) (further : Nat),
      (rule.read (rule.steps s + further)).run s = (rule.read (rule.steps s)).run s ∧
      match (rule.read (rule.steps s)).run s with
      | .ok (_, rest) => rest.tokens <:+ s.tokens ∧ rest.tokens.length + rule.least ≤ s.tokens.length
      | .error e => e.cause ≠ .exhausted := by
  constructor
  · intro text
    -- a text is read with steps for each of its tokens, as many as its items need
    have hends := Rule.items.ends (.initial (Token.ofText text) (Source.size text)) (budget (Token.ofText text))
      (budget (Token.ofText text)) (Nat.add_le_add_left (by decide) _) (Nat.add_le_add_left (by decide) _)
    obtain ⟨r, _, hitems, -, -⟩ | ⟨e, _, hitems, -, -, hcause⟩ := hends.ok_or_error
    · refine .inl ⟨⟨(r.1.filterMap Item.procedure?).map Procedure.toStmt, r.2.registry⟩, ?_⟩
      rw [SourceUnit.ofText?, items?]
      exact congrArg (· >>= _) hitems
    · refine .inr ⟨e, ?_, hcause⟩
      rw [SourceUnit.ofText?, items?]
      exact congrArg (· >>= _) hitems
  · intro rule s further
    have hends := rule.ends s (rule.steps s + further) (rule.steps s) (Nat.le_add_right _ _) (Nat.le_refl _)
    obtain ⟨r, _, hmore, hsteps, rfl, hsuffix, htaken⟩ | ⟨e, _, hmore, hsteps, rfl, hcause⟩ := hends.ok_or_error
    · rw [hmore, hsteps]
      exact ⟨rfl, hsuffix, htaken⟩
    · rw [hmore, hsteps]
      exact ⟨rfl, hcause⟩

end Reading
end DataParallel
