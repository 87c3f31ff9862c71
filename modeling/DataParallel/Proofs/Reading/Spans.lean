import DataParallel.Proofs.Reading.Items

/-! Reading looks at the kinds and the texts of tokens only.

A span is handed on, joined with another or put into an error, and nothing is decided by it. So if
two lists of tokens differ in their spans alone, and these are related by a relation that joining
keeps, reading them gives the same items, or errors with the same cause whose spans are related as
well. -/

namespace DataParallel

open List

/-- Errors that differ in their spans at most. -/
structure SyntaxError.Matches (R : Span → Span → Prop) (e f : SyntaxError) : Prop where
  cause : e.cause = f.cause
  span : R e.span f.span

namespace Reading
variable {R : Span → Span → Prop}

/-- The same is known, and matching tokens are left. -/
structure State.Matches (R : Span → Span → Prop) (s t : State) : Prop where
  tokens : Forall₂ (Token.Matches R) s.tokens t.tokens
  finish : R s.finish t.finish
  locals : s.locals = t.locals
  procedures : s.procedures = t.procedures
  registry : s.registry = t.registry

theorem State.Matches.tyOf? {s t : State} (h : s.Matches R t) (name : String) :
    s.tyOf? name = t.tyOf? name := by
  rw [State.tyOf?, h.locals, h.procedures, h.registry]
  rfl

/-- Spans that are related, in runs with the same number of steps. -/
def Sides.ofSpans (hjoin : Joins R) : Sides where
  errors := SyntaxError.Matches R
  states := State.Matches R
  spans := R
  words _ := True
  inStep := True
  fails _ h := ⟨rfl, h⟩
  joins := hjoin
  tokens h := h.tokens
  kept _ _ _ := trivial
  tail h := ⟨by simpa using forall₂_drop 1 h.tokens, h.finish, h.locals, h.procedures, h.registry⟩
  finish h := h.finish
  tyOf? h := funext h.tyOf?

theorem ofText?_together {text text' : List Char} (hjoin : Joins R)
    (htokens : Forall₂ (Token.Matches R) (Token.ofText text) (Token.ofText text'))
    (hfinish : R (.point (Source.size text)) (.point (Source.size text'))) :
    Together (SyntaxError.Matches R) Eq (SourceUnit.ofText? text) (SourceUnit.ofText? text') := by
  have hbudget : budget (Token.ofText text) = budget (Token.ofText text') := by rw [budget, htokens.length_eq, budget]
  have hlearns : (Sides.ofSpans hjoin).Learns :=
    ⟨fun h => ⟨h.locals, h.procedures, h.registry⟩, fun h _ _ _ => ⟨h.tokens, h.finish, rfl, rfl, rfl⟩⟩
  have hitems : (Sides.ofSpans hjoin).Outcomes (Token.ofText text) 0 Eq (items? text) (items? text') := by
    rw [items?, items?, hbudget]
    exact hlearns.readItems _ _ (.inl ⟨trivial, rfl⟩) _ _ ⟨htokens, hfinish, rfl, rfl, rfl⟩ (Nat.le_refl _)
  refine Together.bind hitems fun r r' hr => ?_
  show SourceUnit.mk _ _ = SourceUnit.mk _ _
  rw [hr.1, hr.2.1.registry]

theorem matches_of_map_eq {tokens tokens' : List Token}
    (h : tokens.map (fun t => (t.kind, t.text)) = tokens'.map fun t => (t.kind, t.text)) :
    Forall₂ (Token.Matches fun _ _ => True) tokens tokens' := by
  have heq := forall₂_eq_eq_eq ▸ h
  rw [forall₂_map_left_iff, forall₂_map_right_iff] at heq
  refine heq.imp fun a b hab => ?_
  obtain ⟨hkind, htext⟩ := Prod.mk.inj hab
  exact ⟨hkind, htext, trivial⟩

end Reading

/-- How a text is read depends on the kinds and the texts of its tokens only: where these are the
same, both texts have the same unit, or cannot be read for the same reason. -/
theorem SourceUnit.ofText?_of_same_tokens {text text' : List Char}
    (h : (Token.ofText text).map (fun t => (t.kind, t.text)) = (Token.ofText text').map fun t => (t.kind, t.text)) :
    (∃ unit, ofText? text = .ok unit ∧ ofText? text' = .ok unit) ∨
      ∃ e e', ofText? text = .error e ∧ ofText? text' = .error e' ∧ e.message = e'.message := by
  have htogether := Reading.ofText?_together (fun _ _ _ _ _ _ => trivial) (Reading.matches_of_map_eq h) trivial
  obtain ⟨unit, unit', hread, hread', rfl⟩ | ⟨e, e', hread, hread', he⟩ := htogether.ok_or_error
  · exact .inl ⟨unit, hread, hread'⟩
  · exact .inr ⟨e, e', hread, hread', congrArg Reading.Cause.message he.cause⟩

/-- Counts down by one. -/
def countingText : List Char := "procedure main(n: Int32) -> Int32 \x7b return n + -1; \x7d".toList

/-- The same with a remark, blanks of three bytes, and an operator on a line of its own. -/
def spacedText : List Char :=
  "// counts \u2192 down\nprocedure main ( n:Int32 )->Int32\u3000\x7breturn\nn\n+\u3000- 1 ;\x7d//".toList

theorem spacedText_of_same_tokens : (Token.ofText countingText).map (fun t => (t.kind, t.text)) =
      (Token.ofText spacedText).map (fun t => (t.kind, t.text)) ∧
    ∃ unit, SourceUnit.ofText? countingText = .ok unit ∧ SourceUnit.ofText? spacedText = .ok unit := by
  have htokens : (Token.ofText countingText).map (fun t => (t.kind, t.text)) =
      (Token.ofText spacedText).map fun t => (t.kind, t.text) := by
    decide +kernel
  refine ⟨htokens, (SourceUnit.ofText?_of_same_tokens htokens).resolve_right ?_⟩
  rintro ⟨e, e', hread, -⟩
  have hok : (SourceUnit.ofText? countingText).toOption.isSome = true := by decide +kernel
  rw [hread] at hok
  cases hok

end DataParallel
