import DataParallel.Reading.Basic

/-! Steps that take given lexemes.

A step takes some lexemes if it succeeds on every list of tokens that starts with them and leaves
the tokens behind them, whatever these are as long as the first of them may follow. -/

namespace DataParallel

/-- What a token is and how it is written. -/
structure Token.Lexeme where
  kind : Kind
  text : String
deriving DecidableEq, Repr

def Token.lexeme (token : Token) : Lexeme := ⟨token.kind, token.text⟩

namespace Reading
open Token (Kind Lexeme lexeme)

variable {α β : Type} {c : State} {follow follow' : Kind → Prop} {x : Read α} {l : Lexeme} {ls ls' : List Lexeme}
  {p : α → Prop} {q : β → Prop} {kind : Kind} {f : α → Read β} {a : α}

/-- What is known, in front of given tokens. -/
def State.facing (c : State) (tokens : List Token) : State := { c with tokens }

def Takes (c : State) (follow : Kind → Prop) (x : Read α) (ls : List Lexeme) (p : α → Prop) : Prop :=
  ∀ tokens rest : List Token, tokens.map lexeme = ls → (∀ t ∈ rest.head?, follow t.kind) →
    ∃ a, p a ∧ x.run (c.facing (tokens ++ rest)) = .ok (a, c.facing rest)

theorem run_bind_of_ok {state state' : State} (h : x.run state = .ok (a, state')) :
    (x >>= f).run state = (f a).run state' := by
  rw [StateT.run_bind, h]
  rfl

namespace Takes

variable {f : Bool → Read β} {expecting : String}

theorem pure (h : p a) : Takes c follow (Pure.pure a) [] p := by
  intro tokens rest htokens _
  obtain rfl := List.map_eq_nil_iff.1 htokens
  exact ⟨a, h, rfl⟩

theorem bind {f : α → Read β} (hx : Takes c follow x ls p)
    (hf : ∀ a, p a → Takes c follow' (f a) ls' q)
    (hfirst : ∀ l ∈ ls'.head?, follow l.kind) (hend : ls' = [] → ∀ kind, follow' kind → follow kind) :
    Takes c follow' (x >>= f) (ls ++ ls') q := by
  intro tokens rest htokens hrest
  obtain ⟨front, back, rfl, rfl, rfl⟩ := List.map_eq_append_iff.1 htokens
  have hnext : ∀ t ∈ (back ++ rest).head?, follow t.kind := by
    cases back with
    | nil => exact fun t ht => hend rfl _ (hrest t ht)
    | cons u us => exact fun t ht => Option.some.inj ht ▸ hfirst (lexeme u) rfl
  obtain ⟨a, ha, hrun⟩ := hx front (back ++ rest) rfl hnext
  obtain ⟨b, hb, hrun'⟩ := hf a ha back rest rfl hrest
  refine ⟨b, hb, ?_⟩
  rw [List.append_assoc, run_bind_of_ok hrun, hrun']

/-- A step that does not look behind what it takes. -/
theorem followed {f : α → Read β} (hx : Takes c (fun _ => True) x ls p)
    (hf : ∀ a, p a → Takes c follow' (f a) ls' q) : Takes c follow' (x >>= f) (ls ++ ls') q :=
  hx.bind hf (fun _ _ => trivial) fun _ _ _ => trivial

/-- A step behind which nothing more is taken. -/
theorem last {f : α → Read β} (hx : Takes c follow x ls p)
    (hf : ∀ a, p a → Takes c follow (f a) [] q) : Takes c follow (x >>= f) ls q := by
  rw [← List.append_nil ls]
  exact hx.bind hf (by simp) fun _ _ hkind => hkind

/-- The first of the tokens, at the head of a list of lexemes. -/
theorem of_cons
    (h : ∀ token : Token, token.lexeme = l → ∀ tokens rest : List Token, tokens.map lexeme = ls →
    (∀ t ∈ rest.head?, follow t.kind) →
    ∃ a, p a ∧ x.run (c.facing (token :: (tokens ++ rest))) = .ok (a, c.facing rest)) :
    Takes c follow x (l :: ls) p := by
  intro tokens rest htokens hrest
  obtain ⟨token, tokens, rfl, htoken, rfl⟩ := List.map_eq_cons_iff.1 htokens
  exact h token htoken tokens rest rfl hrest

theorem peek {f : Option Token → Read β} (h : ∀ token : Token, token.lexeme = l →
    Takes c follow (f (some token)) (l :: ls) q) : Takes c follow (peek? >>= f) (l :: ls) q := by
  refine of_cons fun token htoken tokens rest htokens hrest => ?_
  exact h token htoken (token :: tokens) rest (by rw [List.map_cons, htoken, htokens]) hrest

theorem peek_end {f : Option Token → Read β} (hnone : Takes c follow (f none) [] q)
    (hsome : ∀ token : Token, follow token.kind → Takes c follow (f (some token)) [] q) :
    Takes c follow (peek? >>= f) [] q := by
  intro tokens rest htokens hrest
  obtain rfl := List.map_eq_nil_iff.1 htokens
  cases rest with
  | nil => exact hnone [] [] rfl hrest
  | cons t ts => exact hsome t (hrest t rfl) [] (t :: ts) rfl hrest

theorem drop : Takes c (fun _ => True) drop [l] fun _ => True :=
  of_cons fun _ _ _ rest htokens _ => ⟨(), trivial, by rw [List.map_eq_nil_iff.1 htokens]; rfl⟩

theorem expectPeek {f : Token → Read β} (hl : l.kind ≠ .unknown)
    (h : ∀ token : Token, token.lexeme = l → Takes c follow (f token) (l :: ls) q) :
    Takes c follow (expectPeek expecting >>= f) (l :: ls) q := by
  refine of_cons fun token htoken tokens rest htokens hrest => ?_
  obtain ⟨b, hb, hrun⟩ := h token htoken (token :: tokens) rest (by rw [List.map_cons, htoken, htokens]) hrest
  refine ⟨b, hb, ?_⟩
  have hpeek : (Reading.expectPeek expecting).run (c.facing (token :: (tokens ++ rest))) =
      .ok (token, c.facing (token :: (tokens ++ rest))) := by
    have hkind : token.kind ≠ .unknown := by rw [← htoken] at hl; exact hl
    simp [Reading.expectPeek, peek?, State.facing, hkind]
    rfl
  rwa [run_bind_of_ok hpeek]

theorem expectNext (hl : l.kind ≠ .unknown) :
    Takes c (fun _ => True) (expectNext expecting) [l] fun token => token.lexeme = l :=
  expectPeek hl fun _ htoken => drop.followed fun _ _ => pure htoken

theorem expect (hl : l.kind = kind) (hkind : kind ≠ .unknown) :
    Takes c (fun _ => True) (expect kind) [l] fun token => token.lexeme = l := by
  refine (expectNext (hl ▸ hkind)).followed fun token htoken => ?_
  have : token.kind = kind := by rw [← hl, ← htoken]; rfl
  rw [if_pos this]
  exact pure htoken

theorem nextIs (h : Takes c follow (f (decide (l.kind = kind))) (l :: ls) q) :
    Takes c follow (nextIs kind >>= f) (l :: ls) q := by
  rw [Reading.nextIs, bind_assoc]
  refine peek fun token htoken => ?_
  rw [pure_bind, Option.any_some, show token.kind = l.kind by rw [← htoken]; rfl]
  exact h

theorem nextIs_end (hkind : ∀ k, follow k → k ≠ kind) (h : Takes c follow (f false) [] q) :
    Takes c follow (Reading.nextIs kind >>= f) [] q := by
  rw [Reading.nextIs, bind_assoc]
  refine peek_end ?_ fun token htoken => ?_
  · rwa [pure_bind]
  · rwa [pure_bind, Option.any_some, decide_eq_false (hkind _ htoken)]

theorem eat (hl : l.kind = kind) (h : Takes c follow (f true) ls q) :
    Takes c follow (eat kind >>= f) (l :: ls) q := by
  rw [Reading.eat, bind_assoc]
  refine nextIs ?_
  rw [decide_eq_true hl, if_pos rfl, bind_assoc]
  refine drop.followed fun _ _ => ?_
  rwa [pure_bind]

theorem eat_not (hl : l.kind ≠ kind) (h : Takes c follow (f false) (l :: ls) q) :
    Takes c follow (Reading.eat kind >>= f) (l :: ls) q := by
  rw [Reading.eat, bind_assoc]
  refine nextIs ?_
  rwa [decide_eq_false hl, if_neg Bool.false_ne_true, pure_bind]

theorem eat_end (hkind : ∀ k, follow k → k ≠ kind) (h : Takes c follow (f false) [] q) :
    Takes c follow (Reading.eat kind >>= f) [] q := by
  rw [Reading.eat, bind_assoc]
  refine nextIs_end hkind ?_
  rwa [if_neg Bool.false_ne_true, pure_bind]

end Takes
end Reading
end DataParallel
