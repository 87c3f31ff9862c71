import DataParallel.Proofs.Reading.Spans

/-! Where tokens and errors stand in a text.

A place is a boundary if the text can be cut there between two characters. Scanning only adds up the
bytes of the characters it has passed, so a token covers exactly the characters it is written with,
and between two tokens lies a gap of blanks and comments. The span of an error, being made of those
of tokens and of the end of the text, starts and ends at boundaries. -/

namespace DataParallel

open List

variable {text : List Char} {offset : Nat} {span : Span}

namespace Source
variable {front back : List Char}

theorem size_append : ∀ front back : List Char, size (front ++ back) = size front + size back
  | [], back => (Nat.zero_add _).symm
  | c :: front, back => by rw [cons_append, size, size, size_append front back, Nat.add_assoc]

/-- Whether an offset falls between two characters, or at an end of the text. -/
def IsBoundary (text : List Char) (offset : Nat) : Prop := ∃ front back, text = front ++ back ∧ size front = offset

theorem cut?_size : ∀ front back : List Char, cut? (size front) (front ++ back) = some (front, back)
  | [], back => by rw [size, cut?, nil_append]
  | c :: front, back => by
    have hpos := c.utf8Size_pos
    obtain ⟨n, hn⟩ := Nat.exists_eq_add_of_lt hpos
    have hsize : size (c :: front) = (n + size front) + 1 := by
      rw [size, hn]
      omega
    have hrest : n + size front + 1 - c.utf8Size = size front := by omega
    rw [hsize, cons_append, cut?, if_pos (by omega), hrest, cut?_size front back]
    rfl

theorem IsBoundary.le_size (h : IsBoundary text offset) : offset ≤ size text := by
  obtain ⟨front, back, rfl, rfl⟩ := h
  rw [size_append]
  exact Nat.le_add_right _ _

theorem before?_size (front back : List Char) :
    before? (front ++ back) (size front) = some front := by
  rw [before?, Nat.min_eq_left (size_append front back ▸ Nat.le_add_right _ _), cut?_size]
  rfl

theorem IsBoundary.before? (h : IsBoundary text offset) :
    ∃ front, before? text offset = some front := by
  obtain ⟨front, back, rfl, rfl⟩ := h
  exact ⟨front, before?_size front back⟩

theorem isBoundary_size (text : List Char) :
    IsBoundary text (size text) := ⟨text, [], (append_nil _).symm, rfl⟩

end Source

/-- A span of a text: it starts and ends at boundaries, in this order. -/
structure Span.Inside (text : List Char) (span : Span) : Prop where
  ordered : span.start ≤ span.stop
  bounded : span.stop ≤ Source.size text
  starts : Source.IsBoundary text span.start
  stops : Source.IsBoundary text span.stop

namespace Span.Inside
variable {a b : Span}

theorem of_boundaries (hordered : span.start ≤ span.stop)
    (hstart : Source.IsBoundary text span.start)
    (hstop : Source.IsBoundary text span.stop) : span.Inside text :=
  ⟨hordered, hstop.le_size, hstart, hstop⟩

theorem finish (text : List Char) : (Span.point (Source.size text)).Inside text :=
  of_boundaries (Nat.le_refl _) (Source.isBoundary_size text) (Source.isBoundary_size text)

theorem join (ha : a.Inside text) (hb : b.Inside text) : (a.join b).Inside text := by
  refine of_boundaries ?_ ?_ ?_
  · exact Nat.le_trans (Nat.min_le_left _ _) (Nat.le_trans ha.ordered (Nat.le_max_left _ _))
  · rcases Nat.le_total a.start b.start with h | h
    · rw [Span.join, Nat.min_eq_left h]
      exact ha.starts
    · rw [Span.join, Nat.min_eq_right h]
      exact hb.starts
  · rcases Nat.le_total a.stop b.stop with h | h
    · rw [Span.join, Nat.max_eq_right h]
      exact hb.stops
    · rw [Span.join, Nat.max_eq_left h]
      exact ha.stops

theorem row? (h : span.Inside text) : ∃ row, Source.row? text span.start = some row := by
  obtain ⟨front, hfront⟩ := h.starts.before?
  exact ⟨_, congrArg (Option.map _) hfront⟩

theorem column? (h : span.Inside text) :
    ∃ column, Source.column? text span.start = some column := by
  obtain ⟨front, hfront⟩ := h.starts.before?
  exact ⟨_, congrArg (Option.map _) hfront⟩

theorem highlight? (h : span.Inside text) (ink : Ink) :
    ∃ excerpt, Source.highlight? ink text span = some excerpt := by
  obtain ⟨row, hrow⟩ := h.row?
  obtain ⟨column, hcolumn⟩ := h.column?
  rw [Source.highlight?, hrow, hcolumn]
  exact ⟨_, rfl⟩

end Span.Inside

namespace Token
open Source
variable {token : Token}

def Covers (text : List Char) (token : Token) : Prop :=
  ∃ front back, text = front ++ (token.text.toList ++ back) ∧
    token.span = ⟨size front, size front + size token.text.toList⟩

theorem Covers.inside (h : token.Covers text) : token.span.Inside text := by
  obtain ⟨front, back, rfl, hspan⟩ := h
  rw [hspan]
  refine .of_boundaries (Nat.le_add_right _ _) ⟨front, _, rfl, rfl⟩ ⟨front ++ token.text.toList, back, ?_, ?_⟩
  · rw [append_assoc]
  · exact size_append _ _

theorem Covers.slice? (h : token.Covers text) :
    slice? text token.span = some token.text.toList := by
  obtain ⟨front, back, rfl, hspan⟩ := h
  rw [hspan, slice?, if_pos (Nat.le_add_right _ _), cut?_size, Nat.add_sub_cancel_left]
  show (cut? _ (token.text.toList ++ back) >>= _) = _
  rw [cut?_size]
  rfl

/-- What stands in front of the rest of a text without being part of a token. A comment goes up to a
line end, which it does not take, or to the end of the text. -/
inductive Gap (rest : List Char) : List Char → Prop where
  | nil : Gap rest []
  | blank {c : Char} {gap : List Char} : Text.isBlank c = true → Gap rest gap → Gap rest (c :: gap)
  | comment {line gap : List Char} : '\n' ∉ line → (∀ c ∈ (gap ++ rest).head?, c = '\n') → Gap rest gap →
    Gap rest ('/' :: '/' :: (line ++ gap))

/-- A text from an offset on: gaps and tokens by turns, each token with the span of what it is
written with. -/
inductive Tiles : Nat → List Char → List Token → Prop where
  | finish {offset : Nat} {gap : List Char} : Gap [] gap → Tiles offset gap []
  | token {offset : Nat} {gap rest : List Char} {token : Token} {tokens : List Token} :
    Gap (token.text.toList ++ rest) gap → token.text.toList ≠ [] →
    token.span = ⟨offset + size gap, offset + size gap + size token.text.toList⟩ →
    Tiles token.span.stop rest tokens → Tiles offset (gap ++ (token.text.toList ++ rest)) (token :: tokens)

/-- The spans in front of the tokens, between them and behind them, from one offset to another. -/
def gapsFrom (start finish : Nat) : List Token → List Span
  | [] => [⟨start, finish⟩]
  | token :: tokens => ⟨start, token.span.start⟩ :: gapsFrom token.span.stop finish tokens

theorem head_dropWhile_line (cs : List Char) : ∀ c ∈ (cs.dropWhile (· ≠ '\n')).head?, c = '\n' := by
  intro c hc
  have := head?_dropWhile_not (· ≠ '\n') cs
  rw [Option.mem_def.1 hc] at this
  simpa using this

theorem skip_gap (offset : Nat) (cs : List Char) : ∃ gap, cs = gap ++ (skip offset cs).text ∧
    (skip offset cs).offset = offset + size gap ∧ Gap (skip offset cs).text gap := by
  fun_induction skip offset cs with
  | case1 => exact ⟨[], rfl, rfl, .nil⟩
  | case2 offset c cs hblank ih =>
    obtain ⟨gap, htext, hoffset, hgap⟩ := ih
    refine ⟨c :: gap, ?_, ?_, .blank hblank hgap⟩
    · rw [cons_append, ← htext]
    · rw [hoffset, size, Nat.add_assoc]
  | case3 offset c cs _ hcomment ih =>
    obtain ⟨gap, htext, hoffset, hgap⟩ := ih
    rw [startsComment, Bool.and_eq_true, beq_iff_eq, beq_iff_eq] at hcomment
    obtain ⟨rfl, hsecond⟩ := hcomment
    obtain ⟨cs, rfl⟩ := head?_eq_some_iff.1 hsecond
    have hdrop : ('/' :: cs).dropWhile (· ≠ '\n') = cs.dropWhile (· ≠ '\n') := dropWhile_cons_of_pos (by decide)
    have htake : ('/' :: cs).takeWhile (· ≠ '\n') = '/' :: cs.takeWhile (· ≠ '\n') := takeWhile_cons_of_pos (by decide)
    refine ⟨'/' :: '/' :: (cs.takeWhile (· ≠ '\n') ++ gap), ?_, ?_, .comment ?_ ?_ hgap⟩
    · rw [cons_append, cons_append, append_assoc, ← htext, hdrop, takeWhile_append_dropWhile]
    · rw [hoffset, htake]
      simp only [size, size_append]
      omega
    · exact fun hline => by simpa using all_eq_true.1 all_takeWhile _ hline
    · rw [← htext, hdrop]
      exact head_dropWhile_line cs
  | case4 offset c cs => exact ⟨[], rfl, rfl, .nil⟩

theorem scan_tiles (cursor : Cursor) : Tiles cursor.offset cursor.text (scan cursor) := by
  fun_induction scan cursor with
  | case1 cursor hnone =>
    obtain ⟨gap, htext, -, hgap⟩ := skip_gap cursor.offset cursor.text
    unfold first? at hnone
    split at hnone
    · rename_i hskip
      rw [hskip] at htext hgap
      rw [htext, append_nil]
      exact .finish hgap
    · cases hnone
  | case2 cursor token after hfirst ih =>
    obtain ⟨gap, htext, hoffset, hgap⟩ := skip_gap cursor.offset cursor.text
    unfold first? at hfirst
    split at hfirst
    · cases hfirst
    · rename_i offset c cs hskip
      cases hfirst
      rw [hskip] at htext hoffset hgap
      obtain rfl : offset = cursor.offset + size gap := hoffset
      have hbite : (c :: cs) = (String.ofList (c :: (munch c cs).more)).toList ++ (munch c cs).rest := by
        rw [String.toList_ofList, cons_append, munch_more_append_rest]
      dsimp only at htext hgap
      rw [htext, hbite]
      rw [hbite] at hgap
      refine @Tiles.token _ _ _ ⟨_, String.ofList (c :: (munch c cs).more), _⟩ _ hgap ?_ ?_ ih
      · rw [String.toList_ofList]
        exact cons_ne_nil _ _
      · rw [String.toList_ofList]

namespace Tiles
variable {cs front : List Char} {tokens : List Token}

theorem start_le (h : Tiles offset cs tokens) : ∀ token ∈ tokens, offset ≤ token.span.start := by
  induction h with
  | finish => exact forall_mem_nil _
  | token _ _ hspan _ ih =>
    refine forall_mem_cons.2 ⟨?_, fun token htoken => Nat.le_trans ?_ (ih token htoken)⟩
    · rw [hspan]
      exact Nat.le_add_right _ _
    · rw [hspan, Nat.add_assoc]
      exact Nat.le_add_right _ _

theorem ordered (h : Tiles offset cs tokens) :
    tokens.Pairwise fun a b => a.span.stop ≤ b.span.start := by
  induction h with
  | finish => exact .nil
  | token _ _ _ hrest ih => exact pairwise_cons.2 ⟨hrest.start_le, ih⟩

theorem nonempty (h : Tiles offset cs tokens) :
    ∀ token ∈ tokens, token.span.start < token.span.stop := by
  induction h with
  | finish => exact forall_mem_nil _
  | @token _ _ _ token _ _ hne hspan _ ih =>
    refine forall_mem_cons.2 ⟨?_, ih⟩
    obtain ⟨c, more, htext⟩ := exists_cons_of_ne_nil hne
    have hpos := c.utf8Size_pos
    rw [hspan, htext, size]
    dsimp only
    omega

/-- The tokens cover the characters they are written with, and what lies between them are gaps. -/
theorem placed (h : Tiles offset cs tokens) (htext : text = front ++ cs)
    (hfront : size front = offset) :
    (∀ token ∈ tokens, token.Covers text) ∧ ∀ span ∈ gapsFrom offset (size text) tokens, ∃ before gap rest,
      text = before ++ (gap ++ rest) ∧ span = ⟨size before, size before + size gap⟩ ∧ Gap rest gap := by
  induction h generalizing front with
  | finish hgap =>
    refine ⟨forall_mem_nil _, forall_mem_singleton.2 ⟨front, _, [], ?_, ?_, hgap⟩⟩
    · rw [append_nil, htext]
    · rw [htext, size_append, hfront]
  | @token offset gap rest token _ hgap _ hspan _ ih =>
    have hbefore : size (front ++ gap) = offset + size gap := by rw [size_append, hfront]
    obtain ⟨hcovers, hgaps⟩ := @ih (front ++ gap ++ token.text.toList)
      (by rw [htext, append_assoc, append_assoc]) (by rw [hspan, size_append, hbefore])
    refine ⟨forall_mem_cons.2 ⟨⟨front ++ gap, rest, ?_, ?_⟩, hcovers⟩,
      forall_mem_cons.2 ⟨⟨front, gap, _, htext, ?_, hgap⟩, hgaps⟩⟩
    · rw [htext, append_assoc]
    · rw [hspan, hbefore]
    · rw [hspan, hfront]

end Tiles

theorem ofText_tiles (text : List Char) : Tiles 0 text (ofText text) := scan_tiles ⟨0, text⟩

theorem ofText_covers (text : List Char) : ∀ token ∈ ofText text, token.Covers text :=
  ((ofText_tiles text).placed (nil_append text).symm rfl).1

end Token

namespace SourceUnit

/-- Reading cuts nothing out of a text but what tokens are written with, and an error points into
the text: its span starts and ends between characters, so that it has a row, a column and an
excerpt. -/
theorem ofText?_points_inside (text : List Char) :
    (∀ token ∈ Token.ofText text, Source.slice? text token.span = some token.text.toList) ∧
      ∀ error, ofText? text = .error error → error.span.Inside text ∧
        (Source.row? text error.span.start).isSome = true ∧ (Source.column? text error.span.start).isSome = true ∧
        ∀ ink, (Source.highlight? ink text error.span).isSome = true := by
  refine ⟨fun token htoken => (Token.ofText_covers text token htoken).slice?, fun error herror => ?_⟩
  -- the text is read beside itself, with spans related if they are spans of the text
  have htokens : List.Forall₂ (Token.Matches fun span _ => span.Inside text) (Token.ofText text) (Token.ofText text) :=
    List.forall₂_same.2 fun token htoken => ⟨rfl, rfl, (Token.ofText_covers text token htoken).inside⟩
  have htogether := Reading.ofText?_together (fun _ _ _ _ ha hb => ha.join hb) htokens (.finish text)
  rw [herror] at htogether
  have hinside : error.span.Inside text := htogether.span
  obtain ⟨row, hrow⟩ := hinside.row?
  obtain ⟨column, hcolumn⟩ := hinside.column?
  refine ⟨hinside, ?_, ?_, fun ink => ?_⟩
  · rw [hrow]
    rfl
  · rw [hcolumn]
    rfl
  · obtain ⟨excerpt, hexcerpt⟩ := hinside.highlight? ink
    rw [hexcerpt]
    rfl

end SourceUnit

/-- A parameter starts with a letter of two bytes, behind a blank of three. -/
def accentedText : List Char := "procedure f\u3000(\u00e9t\u00e9: Int32)".toList

/-- The error covers the whole letter. -/
theorem accentedText_points_inside : ∃ error, SourceUnit.ofText? accentedText = .error error ∧
    error.cause = .unexpectedCharacter "\u00e9" ∧ error.span = ⟨15, 17⟩ ∧ error.span.Inside accentedText := by
  have hread : (SourceUnit.ofText? accentedText).map (fun _ => ()) =
      .error ⟨.unexpectedCharacter "\u00e9", ⟨15, 17⟩⟩ := by
    decide +kernel
  cases herror : SourceUnit.ofText? accentedText with
  | ok unit =>
    rw [herror] at hread
    cases hread
  | error error =>
    have hinside := ((SourceUnit.ofText?_points_inside accentedText).2 error herror).1
    rw [herror] at hread
    cases hread
    exact ⟨_, rfl, rfl, rfl, hinside⟩

end DataParallel
