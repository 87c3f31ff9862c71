import Mathlib.Data.List.Forall2
import DataParallel.Proofs.SideBySide
import DataParallel.Reading.Exprs
import DataParallel.Reading.Types

/-! Reading types and expressions, two runs side by side.

A span is handed on, joined with another or put into an error, and nothing is decided by it. So if
two lists of tokens differ in their spans alone, both are read as the same type or expression, or
both fail. With both lists the same, this tells what one run reads: `P` holds of every expression if
it holds of names and literals and is kept by tuples, calls and closures.

Every call, and every trip of a loop, has one step less than its caller. The runs have the same
number of steps, or both have enough: sixteen for each token that is left, and a few more for the
rule, since a rule enters only rules of lower rank before it has taken a token. -/

namespace DataParallel

open List

/-- Tokens that differ in their spans at most. -/
structure Token.Matches (R : Span → Span → Prop) (a b : Token) : Prop where
  kind : a.kind = b.kind
  text : a.text = b.text
  span : R a.span b.span

namespace Reading

variable {α β : Type} {v : Sides} {k least m n : Nat} {span span' : Span} {level : Level}

def Joins (R : Span → Span → Prop) : Prop := ∀ ⦃a a' b b'⦄, R a a' → R b b' → R (a.join b) (a'.join b')

/-- How two runs are related: their errors, their states, the spans that they hand on, and `words`
of the tokens that are left. -/
structure Sides where
  errors : SyntaxError → SyntaxError → Prop
  states : State → State → Prop
  spans : Span → Span → Prop
  words : Token → Prop
  /-- Whether the runs have the same number of steps, which may not be enough. -/
  inStep : Prop
  fails : ∀ {cause : Cause} {span span' : Span}, (cause = .exhausted → inStep) → spans span span' →
    errors ⟨cause, span⟩ ⟨cause, span'⟩
  joins : Joins spans
  tokens : ∀ {s t : State}, states s t → Forall₂ (Token.Matches spans) s.tokens t.tokens
  kept : ∀ {s t : State}, states s t → ∀ token ∈ s.tokens, words token
  tail : ∀ {s t : State}, states s t → states { s with tokens := s.tokens.tail } { t with tokens := t.tokens.tail }
  finish : ∀ {s t : State}, states s t → spans s.finish t.finish
  tyOf? : ∀ {s t : State}, states s t → s.tyOf? = t.tyOf?

/-- The names that identifiers spell. -/
def Spells (W : Token → Prop) (name : String) : Prop :=
  ∃ token : Token, token.kind = .identifier ∧ token.text = name ∧ W token ∧ name.toList.head? ≠ some '_'

def Same (p : α → Prop) (a b : α) : Prop := a = b ∧ p a

namespace Sides

variable {results wider : α → α → Prop} {x y : Read α} {f g : Token → Read α} {expecting : String} {kind : Token.Kind}
  {read : Nat → Read α}

/-- Both runs fail, or both succeed and have given back no token, and taken at least `least`. -/
def Outcomes (v : Sides) (tokens : List Token) (least : Nat) (results : α → α → Prop) :
    Except SyntaxError (α × State) → Except SyntaxError (α × State) → Prop :=
  Together v.errors fun r r' => results r.1 r'.1 ∧ v.states r.2 r'.2 ∧ r.2.tokens <:+ tokens ∧
    r.2.tokens.length + least ≤ tokens.length

/-- The steps beside each other, with at most `k` tokens left. -/
def Follows (v : Sides) (k least : Nat) (x y : Read α) (results : α → α → Prop) : Prop :=
  ∀ s t, v.states s t → s.tokens.length ≤ k → v.Outcomes s.tokens least results (x.run s) (y.run t)

/-- The same where a token is left. -/
def FollowsAhead (v : Sides) (k least : Nat) (x y : Read α) (results : α → α → Prop) : Prop :=
  ∀ s t, v.states s t → s.tokens ≠ [] → s.tokens.length ≤ k → v.Outcomes s.tokens least results (x.run s) (y.run t)

section
variable {least' : Nat} {results' : β → β → Prop} {f g : α → Read β}

theorem Outcomes.imp {tokens tokens' : List Token} {a b : Except SyntaxError (α × State)}
    (h : v.Outcomes tokens' least' results a b) (hsuffix : tokens' <:+ tokens)
    (hle : tokens'.length + least ≤ tokens.length + least') (hwider : ∀ a b, results a b → wider a b) :
    v.Outcomes tokens least wider a b := by
  obtain ⟨r, r', rfl, rfl, hr, hst, hsuffix', htaken⟩ | ⟨e, e', rfl, rfl, herror⟩ := h.ok_or_error
  · exact ⟨hwider _ _ hr, hst, hsuffix'.trans hsuffix, by omega⟩
  · exact herror

namespace Follows

theorem pure {a b : α} (h : results a b) : v.Follows k 0 (Pure.pure a) (Pure.pure b) results :=
  fun s _ hst _ => ⟨h, hst, suffix_refl s.tokens, Nat.le_refl _⟩

theorem fail {cause : Cause} (h : v.spans span span') (hcause : cause = .exhausted → v.inStep) :
    v.Follows k least (fail cause span) (fail cause span') results :=
  fun _ _ _ _ => v.fails hcause h

theorem imp (h : v.Follows k least x y results) (hle : least' ≤ least)
    (hwider : ∀ a b, results a b → wider a b) : v.Follows k least' x y wider :=
  fun s t hst hs => (h s t hst hs).imp (suffix_refl _) (by omega) hwider

theorem bind (h : v.Follows k least x y results) (hfg : ∀ a b, results a b → least ≤ k →
      v.Follows (k - least) (least' - least) (f a) (g b) results') :
    v.Follows k least' (x >>= f) (y >>= g) results' := by
  intro s t hst hs
  rw [StateT.run_bind, StateT.run_bind]
  refine Together.bind (h s t hst hs) ?_
  rintro ⟨a, s'⟩ ⟨b, t'⟩ ⟨hab, hst', hsuffix, htaken⟩
  dsimp only at hab hst' hsuffix htaken
  exact (hfg a b hab (by omega) s' t' hst' (by omega)).imp hsuffix (by omega) fun _ _ h => h

theorem andThen (h : v.Follows k least x y Eq) (hfg : ∀ a, least ≤ k →
      v.Follows (k - least) (least' - least) (f a) (g a) results') :
    v.Follows k least' (x >>= f) (y >>= g) results' :=
  h.bind fun a _ hab => hab ▸ hfg a

theorem behind {p : α → Prop} (h : v.Follows k least x y (Same p)) (hfg : ∀ a, p a → least ≤ k →
      v.Follows (k - least) (least' - least) (f a) (g a) results') :
    v.Follows k least' (x >>= f) (y >>= g) results' :=
  h.bind fun a _ hab => hab.1 ▸ hfg a hab.2

theorem get {f g : State → Read β}
    (h : ∀ s t, v.states s t → v.Follows k least (f s) (g t) results') :
    v.Follows k least (MonadState.get >>= f) (MonadState.get >>= g) results' :=
  fun s t hst => h s t hst s t hst

end Follows

theorem FollowsAhead.of (h : 1 ≤ k → v.Follows k least x y results) :
    v.FollowsAhead k least x y results := by
  intro s t hst hne hs
  have := length_pos_iff.2 hne
  exact h (by omega) s t hst hs

end

section
variable (v : Sides)

theorem drop {f g : Unit → Read α}
    (h : 1 ≤ k → v.Follows (k - 1) (least - 1) (f ()) (g ()) results) :
    v.FollowsAhead k least (drop >>= f) (drop >>= g) results := by
  intro s t hst hne hs
  have := length_pos_iff.2 hne
  have hlength : s.tokens.tail.length = s.tokens.length - 1 := length_tail
  refine (h (by omega) { s with tokens := s.tokens.tail } _ (v.tail hst) ?_).imp (tail_suffix _) ?_ fun _ _ h => h
  · dsimp only
    omega
  · dsimp only
    omega

theorem peek {f g : Option Token → Read α} (hnone : v.Follows k least (f none) (g none) results)
    (hsome : ∀ kind text span span', v.spans span span' → v.words ⟨kind, text, span⟩ →
      v.FollowsAhead k least (f (some ⟨kind, text, span⟩)) (g (some ⟨kind, text, span'⟩)) results) :
    v.Follows k least (peek? >>= f) (peek? >>= g) results := by
  rintro ⟨tokens, _, _, _, _⟩ ⟨tokens', _, _, _, _⟩ hst hs
  cases (v.tokens hst : Forall₂ _ tokens tokens') with
  | nil => exact hnone _ _ hst hs
  | @cons token token' _ _ htoken _ =>
    obtain ⟨kind, text, span⟩ := token
    obtain ⟨_, _, span'⟩ := token'
    obtain ⟨rfl, rfl, hspan⟩ := htoken
    exact hsome kind text span span' hspan (v.kept hst _ mem_cons_self) _ _ hst (cons_ne_nil _ _) hs

theorem expectPeek (h : ∀ kind text span span', v.spans span span' → v.words ⟨kind, text, span⟩ →
      v.FollowsAhead k least (f ⟨kind, text, span⟩) (g ⟨kind, text, span'⟩) results) :
    v.Follows k least (expectPeek expecting >>= f) (expectPeek expecting >>= g) results := by
  rw [Reading.expectPeek, bind_assoc, bind_assoc]
  refine v.peek ?_ fun kind text span span' hspan hword => ?_
  · rw [bind_assoc, bind_assoc]
    exact .get fun s t hst => .fail (v.finish hst) nofun
  · dsimp only
    split
    · exact .of fun _ => .fail hspan nofun
    · exact h kind text span span' hspan hword

theorem expectNext
    (h : ∀ kind text span span', v.spans span span' → v.words ⟨kind, text, span⟩ → 1 ≤ k →
      v.Follows (k - 1) (least - 1) (f ⟨kind, text, span⟩) (g ⟨kind, text, span'⟩) results) :
    v.Follows k least (expectNext expecting >>= f) (expectNext expecting >>= g) results := by
  rw [Reading.expectNext, bind_assoc, bind_assoc]
  refine v.expectPeek fun kind text span span' hspan hword => ?_
  rw [bind_assoc, bind_assoc]
  exact v.drop (h kind text span span' hspan hword)

theorem expect (h : ∀ text span span', v.spans span span' → v.words ⟨kind, text, span⟩ → 1 ≤ k →
      v.Follows (k - 1) (least - 1) (f ⟨kind, text, span⟩) (g ⟨kind, text, span'⟩) results) :
    v.Follows k least (expect kind >>= f) (expect kind >>= g) results := by
  rw [Reading.expect, bind_assoc, bind_assoc]
  refine v.expectNext fun kind' text span span' hspan hword hk => ?_
  dsimp only
  split
  · rename_i hkind
    subst hkind
    exact h text span span' hspan hword hk
  · exact .fail hspan nofun

theorem skip (h : 1 ≤ k → v.Follows (k - 1) (least - 1) x y results) :
    v.Follows k least (Reading.expect kind >>= fun _ => x) (Reading.expect kind >>= fun _ => y) results :=
  v.expect fun _ _ _ _ _ => h

theorem nextIs {f g : Bool → Read α} (h : ∀ b, v.Follows k least (f b) (g b) results) :
    v.Follows k least (nextIs kind >>= f) (nextIs kind >>= g) results := by
  rw [Reading.nextIs, bind_assoc, bind_assoc]
  exact v.peek (h false) fun kind' _ _ _ _ _ => .of fun _ => h (decide (kind' = kind))

theorem eat {f g : Bool → Read α}
    (htrue : 1 ≤ k → v.Follows (k - 1) (least - 1) (f true) (g true) results)
    (hfalse : v.Follows k least (f false) (g false) results) :
    v.Follows k least (eat kind >>= f) (eat kind >>= g) results := by
  rw [Reading.eat, Reading.nextIs, bind_assoc, bind_assoc, bind_assoc, bind_assoc]
  refine v.peek hfalse fun kind' _ _ _ _ _ => ?_
  rw [pure_bind, pure_bind, Option.any_some, Option.any_some]
  dsimp only
  split
  · rw [bind_assoc, bind_assoc]
    exact v.drop htrue
  · exact .of fun _ => hfalse

theorem identifier {f g : String → Read α} {text : String} (hspan : v.spans span span')
    (hword : v.words ⟨.identifier, text, span⟩)
    (h : Spells v.words text → v.Follows k least (f text) (g text) results) :
    v.Follows k least (identifier ⟨.identifier, text, span⟩ >>= f)
      (identifier ⟨.identifier, text, span'⟩ >>= g) results := by
  rw [Reading.identifier, Reading.identifier]
  dsimp only
  split
  · exact .fail hspan nofun
  · rename_i hfirst
    exact h ⟨_, rfl, rfl, hword, hfirst⟩

theorem readIdentifier {f g : String × Span → Read α}
    (h : ∀ name span span', v.spans span span' → Spells v.words name → 1 ≤ k →
      v.Follows (k - 1) (least - 1) (f (name, span)) (g (name, span')) results) :
    v.Follows k least (readIdentifier >>= f) (readIdentifier >>= g) results := by
  rw [Reading.readIdentifier, bind_assoc, bind_assoc]
  refine v.expect fun text span span' hspan hword hk => ?_
  rw [bind_assoc, bind_assoc]
  exact v.identifier hspan hword fun hname => h text span span' hspan hname hk

theorem exhausted (h : v.inStep) : v.Follows k least exhausted exhausted results :=
  v.peek (.get fun _ _ hst => .fail (v.finish hst) fun _ => h) fun _ _ _ _ hspan _ =>
    .of fun _ => .fail hspan fun _ => h

end

/-- With `n` and `m` steps, the runs are in step, or both have enough for `k` tokens and `rank`
more. -/
def Enough (v : Sides) (n m k rank : Nat) : Prop :=
  v.inStep ∧ n = m ∨ 16 * k + rank ≤ n ∧ 16 * k + rank ≤ m

/-- What the runs of a rule read that needs `rank` steps besides those for the tokens. -/
def Reads (v : Sides) (rank least : Nat) (read : Nat → Read α) (results : α → α → Prop) (n m : Nat) : Prop :=
  ∀ ⦃k⦄, v.Enough n m k rank → v.Follows k least (read n) (read m) results

section
variable {rank k' rank' : Nat}

theorem Enough.step (h : v.Enough (n + 1) (m + 1) k rank)
    (hk : 16 * k' + rank' < 16 * k + rank := by omega) : v.Enough n m k' rank' := by
  rcases h with ⟨hstep, h⟩ | h
  · exact .inl ⟨hstep, by omega⟩
  · exact .inr (by omega)

theorem Enough.mono (h : v.Enough n m k rank) (hk : 16 * k' + rank' ≤ 16 * k + rank := by omega) :
    v.Enough n m k' rank' :=
  h.imp_right fun h => by omega

theorem Reads.zero (h : n = 0 ∨ m = 0)
    (hread : read 0 = Reading.exhausted) : v.Reads (rank + 1) least read results n m := by
  rintro k (⟨hstep, rfl⟩ | hsteps)
  · obtain rfl : n = 0 := by omega
    rw [hread]
    exact v.exhausted hstep
  · omega

end

theorem Reads.imp {rank : Nat} (h : v.Reads rank least read results n m)
    (hwider : ∀ a b, results a b → wider a b) : v.Reads rank least read wider n m :=
  fun _ hk => (h hk).imp (Nat.le_refl _) hwider

/-- Two numbers of steps go down together. -/
theorem both_induction {P : Nat → Nat → Prop} (zero : ∀ n m, n = 0 ∨ m = 0 → P n m)
    (succ : ∀ n m, P n m → P (n + 1) (m + 1)) (n m : Nat) : P n m := by
  induction n generalizing m with
  | zero => exact zero 0 m (.inl rfl)
  | succ n ih =>
    cases m with
    | zero => exact zero (n + 1) 0 (.inr rfl)
    | succ m => exact succ n m (ih m)

theorem readVariables (v : Sides) (n m : Nat) : v.Reads 1 1 readVariables Eq n m := by
  refine both_induction (fun _ _ h => .zero h rfl) (fun n m ih k hk => ?_) n m
  refine v.eat (fun _ => .pure rfl) (v.readIdentifier fun name _ _ _ _ _ => ?_)
  exact (ih hk.step).andThen fun _ _ => .pure rfl

structure ReadsTypes (v : Sides) (n m : Nat) : Prop where
  type : v.Reads 1 1 readType Eq n m
  more : v.Reads 1 0 readMoreTypes Eq n m
  parameters : v.Reads 2 0 readParameterTypes Eq n m

namespace ReadsTypes

theorem succ_type (h : v.ReadsTypes n m) : v.Reads 1 1 readType Eq (n + 1) (m + 1) := by
  intro k hk
  refine v.expectNext fun kind text span span' hspan hword _ => ?_
  dsimp only
  split
  · refine (v.readVariables n m hk.step).andThen fun binders _ => ?_
    split
    · exact .fail hspan nofun
    · exact (h.type hk.step).andThen fun _ _ => .pure rfl
  · exact (h.type hk.step).andThen fun _ _ => v.skip fun _ => .pure rfl
  · refine (h.type hk.step).andThen fun _ _ => (h.more hk.step).andThen fun _ _ => ?_
    exact v.skip fun _ => .pure rfl
  · refine v.skip fun _ => (h.parameters hk.step).andThen fun _ _ => v.skip fun _ => v.skip fun _ => ?_
    exact (h.type hk.step).andThen fun _ _ => .pure rfl
  · refine v.identifier hspan hword fun _ => v.eat (fun _ => ?_) (.pure rfl)
    refine (h.type hk.step).andThen fun _ _ => (h.more hk.step).andThen fun _ _ => ?_
    exact v.skip fun _ => .pure rfl
  · exact .fail hspan nofun

theorem succ (h : v.ReadsTypes n m) : v.ReadsTypes (n + 1) (m + 1) where
  type := h.succ_type
  more k hk := by
    refine v.eat (fun _ => ?_) (.pure rfl)
    exact (h.type hk.step).andThen fun _ _ => (h.more hk.step).andThen fun _ _ => .pure rfl
  parameters k hk := by
    refine v.nextIs fun closed => ?_
    split
    · exact .pure rfl
    · exact (h.type hk.step).andThen fun _ _ => (h.more hk.step).andThen fun _ _ => .pure rfl

end ReadsTypes

theorem readsTypes (v : Sides) (n m : Nat) : v.ReadsTypes n m :=
  both_induction (P := v.ReadsTypes) (fun _ _ h => ⟨.zero h rfl, .zero h rfl, .zero h rfl⟩)
    (fun _ _ => ReadsTypes.succ) n m

/-- What is known of every name and of every literal, and of what is made of expressions that it is
known of. -/
structure Rules (v : Sides) (P : Expr → Prop) : Prop where
  name : ∀ {s t : State} {x : String} {ty : Ty}, v.states s t →
    Spells v.words x ∨ (∃ kind : Token.Kind, kind.operator? = some x) → s.tyOf? x = some ty → P (.name x ⟨ty, none⟩)
  literal : ∀ {token : Token}, v.words token → token.kind = .integerLiteral ∨ token.kind = .floatLiteral ∨
    token.kind = .booleanLiteral → P (literal token.kind token.text)
  negative : ∀ {token : Token}, v.words token → token.kind = .integerLiteral ∨ token.kind = .floatLiteral →
    P (Reading.literal token.kind ("-" ++ token.text))
  tuple : ∀ {es : List Expr}, (∀ e ∈ es, P e) → P (.tuple es ⟨.tuple (es.map Expr.ty), none⟩)
  apply : ∀ {x : String} {ty result : Ty} {es : List Expr} {parameters : List Ty}, P (.name x ⟨ty, none⟩) →
    (∀ e ∈ es, P e) → ty.instantiate? (es.map Expr.ty) = some (parameters, result) →
    P (.apply (.name x ⟨ty, none⟩) es ⟨result, none⟩)
  closure : ∀ {x : String} {ty result : Ty} {es : List Expr}, P (.name x ⟨ty, none⟩) → (∀ e ∈ es, P e) →
    closureTy? ty (es.map Expr.ty) = some result → P (.closure (.name x ⟨ty, none⟩) es ⟨result, none⟩)

theorem Rules.trivial (v : Sides) : v.Rules fun _ => True := by
  constructor <;> intros <;> exact True.intro

end Sides

/-- The tighter a level, the lower its rank. -/
def Level.rank : Level → Nat
  | .disjunction => 6
  | .conjunction => 5
  | .comparison => 4
  | .term => 3
  | .factor => 2

theorem Level.rank_le (level : Level) : level.rank ≤ 6 := by
  cases level <;> decide

theorem Level.rank_eq_of_tighter {tighter : Level} (h : level.tighter? = some tighter) :
    level.rank = tighter.rank + 1 := by
  cases level <;> cases h <;> rfl

theorem Level.rank_eq_of_tightest (h : level.tighter? = none) : level.rank = 2 := by
  cases level <;> trivial

namespace Sides

variable {P : Expr → Prop}

structure ReadsExprs (v : Sides) (P : Expr → Prop) (n m : Nat) : Prop where
  level (level : Level) : v.Reads (level.rank + 1) 1 (readLevel level) (Same P) n m
  chain (level : Level) (left : Expr) : P left → v.Reads 1 0 (readChain level left) (Same P) n m
  unary : v.Reads 2 1 readUnary (Same P) n m
  atom : v.Reads 1 1 readAtom (Same P) n m
  arguments (opening closing : Token.Kind) : v.Reads 1 1 (readArguments opening closing)
    (fun r r' => r.1 = r'.1 ∧ v.spans r.2 r'.2 ∧ ∀ e ∈ r.1, P e) n m
  more : v.Reads 1 0 readMore (Same fun es => ∀ e ∈ es, P e) n m

section
variable {f g : Expr → Read Expr}

theorem Rules.resolve {name : String} (hrules : v.Rules P) (hspan : v.spans span span')
    (hname : Spells v.words name ∨ ∃ kind : Token.Kind, kind.operator? = some name)
    (h : ∀ ty, P (.name name ⟨ty, none⟩) →
      v.Follows k least (f (.name name ⟨ty, none⟩)) (g (.name name ⟨ty, none⟩)) (Same P)) :
    v.Follows k least (resolve name span >>= f) (resolve name span' >>= g) (Same P) := by
  rw [Reading.resolve, Reading.resolve, bind_assoc, bind_assoc]
  refine .get fun s t hst => ?_
  rw [← v.tyOf? hst]
  split
  · rename_i ty hty
    exact h ty (hrules.name hst hname hty)
  · exact .fail hspan nofun

theorem Rules.call {x : String} {ty : Ty} {es : List Expr} (hrules : v.Rules P)
    (hspan : v.spans span span') (hx : P (.name x ⟨ty, none⟩)) (hes : ∀ e ∈ es, P e) :
    v.Follows k 0 (call (.name x ⟨ty, none⟩) es span) (call (.name x ⟨ty, none⟩) es span')
      (Same P) := by
  rw [Reading.call, Reading.call]
  split
  · exact .pure ⟨rfl, hrules.apply hx hes ‹_›⟩
  · exact .fail hspan nofun

end

namespace ReadsExprs
variable (h : v.ReadsExprs P n m)
include h

theorem operand {next next' : Expr → Read Expr} (hk : v.Enough (n + 1) (m + 1) k (level.rank + 1))
    (hnext : ∀ e, P e → 1 ≤ k → v.Follows (k - 1) (least - 1) (next e) (next' e) (Same P)) :
    v.Follows k least (match level.tighter? with
        | some tighter => readLevel tighter n >>= next
        | none => readUnary n >>= next)
      (match level.tighter? with
        | some tighter => readLevel tighter m >>= next'
        | none => readUnary m >>= next') (Same P) := by
  split
  · rename_i tighter htighter
    have hrank := Level.rank_eq_of_tighter htighter
    exact (h.level tighter hk.step).behind hnext
  · rename_i htighter
    have hrank := Level.rank_eq_of_tightest htighter
    exact (h.unary hk.step).behind hnext

theorem expr (hk : v.Enough n m k 7) :
    v.Follows k 1 (readLevel .disjunction n) (readLevel .disjunction m) (Same P) :=
  h.level .disjunction hk

theorem succ_chain (hrules : v.Rules P) {left : Expr} (hleft : P left) :
    v.Reads 1 0 (readChain level left) (Same P) (n + 1) (m + 1) := by
  intro k hk
  refine v.peek (.pure ⟨rfl, hleft⟩) fun kind text span span' hspan _ => ?_
  dsimp only
  split
  · rename_i hoperator
    rw [Level.operator?, Option.ite_none_right_eq_some] at hoperator
    have hrank := level.rank_le
    refine v.drop fun _ => h.operand hk.mono fun right hright _ => ?_
    refine hrules.resolve hspan (.inr ⟨_, hoperator.2⟩) fun ty hf => ?_
    exact (hrules.call hspan hf (by simp [hleft, hright])).behind fun e he _ => h.chain level e he hk.step
  · exact .of fun _ => .pure ⟨rfl, hleft⟩

theorem succ_unary (hrules : v.Rules P) : v.Reads 2 1 readUnary (Same P) (n + 1) (m + 1) := by
  intro k hk
  refine v.expectPeek fun kind text span span' hspan _ => ?_
  dsimp only
  split
  · refine v.drop fun _ => (h.unary hk.step).behind fun operand hoperand _ => ?_
    exact hrules.resolve hspan (.inr ⟨.bang, rfl⟩) fun ty hf => hrules.call hspan hf (by simp [hoperand])
  · refine v.drop fun _ => v.expectNext fun kind text number number' hnumber hword _ => ?_
    dsimp only
    split
    · exact .pure ⟨rfl, hrules.negative hword (.inl rfl)⟩
    · exact .pure ⟨rfl, hrules.negative hword (.inr rfl)⟩
    · exact .fail (v.joins hspan hnumber) nofun
  · exact .of fun _ => h.atom hk.step

theorem succ_atom (hrules : v.Rules P) : v.Reads 1 1 readAtom (Same P) (n + 1) (m + 1) := by
  intro k hk
  refine v.expectNext fun kind text span span' hspan hword _ => ?_
  dsimp only
  split
  · refine v.identifier hspan hword fun hname => hrules.resolve hspan (.inl hname) fun ty hf => ?_
    refine v.nextIs fun opens => ?_
    split
    · refine (h.arguments _ _ hk.step).bind fun r r' hr _ => ?_
      rw [← hr.1]
      exact hrules.call (v.joins hspan hr.2.1) hf hr.2.2
    · exact .pure ⟨rfl, hf⟩
  · exact .pure ⟨rfl, hrules.literal hword (.inl rfl)⟩
  · exact .pure ⟨rfl, hrules.literal hword (.inr (.inl rfl))⟩
  · exact .pure ⟨rfl, hrules.literal hword (.inr (.inr rfl))⟩
  · refine (h.expr hk.step).behind fun first hfirst _ => (h.more hk.step).behind fun rest hrest _ => ?_
    refine v.skip fun _ => ?_
    split
    · exact .pure ⟨rfl, hfirst⟩
    · exact .pure ⟨rfl, hrules.tuple (forall_mem_cons.2 ⟨hfirst, hrest⟩)⟩
  · refine v.readIdentifier fun name at_ at_' hat hname _ => hrules.resolve hat (.inl hname) fun ty hf => ?_
    refine (h.arguments _ _ hk.step).bind fun captured captured' hcaptured _ => ?_
    rw [← hcaptured.1]
    split
    · exact .pure ⟨rfl, hrules.closure hf hcaptured.2.2 ‹_›⟩
    · exact .fail (v.joins hspan hcaptured.2.1) nofun
  · exact .fail hspan nofun

theorem succ (hrules : v.Rules P) : v.ReadsExprs P (n + 1) (m + 1) where
  level level k hk := by
    exact h.operand hk fun first hfirst _ => h.chain level first hfirst hk.step
  chain _ _ := h.succ_chain hrules
  unary := h.succ_unary hrules
  atom := h.succ_atom hrules
  arguments opening closing k hk := by
    refine v.skip fun _ => v.nextIs fun closed => ?_
    split
    · exact v.expect fun _ _ _ hclose _ _ => .pure ⟨rfl, hclose, forall_mem_nil _⟩
    · refine (h.expr hk.step).behind fun first hfirst _ => (h.more hk.step).behind fun rest hrest _ => ?_
      exact v.expect fun _ _ _ hclose _ _ => .pure ⟨rfl, hclose, forall_mem_cons.2 ⟨hfirst, hrest⟩⟩
  more k hk := by
    refine v.eat (fun _ => ?_) (.pure ⟨rfl, forall_mem_nil _⟩)
    refine (h.expr hk.step).behind fun first hfirst _ => (h.more hk.step).behind fun rest hrest _ => ?_
    exact .pure ⟨rfl, forall_mem_cons.2 ⟨hfirst, hrest⟩⟩

end ReadsExprs

theorem Rules.readsExprs (hrules : v.Rules P) (n m : Nat) : v.ReadsExprs P n m :=
  both_induction (P := v.ReadsExprs P)
    (fun _ _ h => ⟨fun _ => .zero h rfl, fun _ _ _ => .zero h rfl, .zero h rfl, .zero h rfl,
      fun _ _ => .zero h rfl, .zero h rfl⟩) (fun _ _ h => h.succ hrules) n m

end Sides
end Reading
end DataParallel
