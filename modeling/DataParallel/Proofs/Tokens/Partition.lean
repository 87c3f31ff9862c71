import DataParallel.Proofs.SourcePositions
import DataParallel.Token.Stream

/-! Streams of tokens. A stream hands out the tokens of a text one by one and then nothing; they and
the gaps between them make up the text, so that nothing is lost. Looking at the next token takes
none away. -/

namespace DataParallel

open List Source

namespace Token

theorem scan_of_none {cursor : Cursor} (h : first? cursor = none) : scan cursor = [] := by
  rw [scan]
  split
  · rfl
  · rename_i hsome
    rw [h] at hsome
    cases hsome

theorem scan_of_some {cursor after : Cursor} {token : Token}
    (h : first? cursor = some (token, after)) : scan cursor = token :: scan after := by
  rw [scan]
  split
  · rename_i hnone
    rw [h] at hnone
    cases hnone
  · rename_i hsome
    rw [h] at hsome
    cases hsome
    rfl

namespace Stream

/-- The tokens that a stream has still to hand out. -/
def left (stream : Stream) : List Token := stream.ahead.toList ++ scan stream.cursor

theorem next_left (stream : Stream) :
    stream.next.1 = stream.left.head? ∧ stream.next.2.left = stream.left.tail := by
  obtain ⟨cursor, ahead⟩ := stream
  cases ahead with
  | some token => exact ⟨rfl, rfl⟩
  | none =>
    rw [next, read]
    cases hfirst : first? cursor with
    | none => simp [left, scan_of_none hfirst]
    | some r => simp [left, scan_of_some hfirst]

/-- The answers to so many calls of `next`. -/
def answers : Nat → Stream → List (Option Token)
  | 0, _ => []
  | n + 1, stream => stream.next.1 :: answers n stream.next.2

theorem answers_eq (n : Nat) (stream : Stream) :
    stream.answers n = (stream.left.map some ++ replicate n none).take n := by
  induction n generalizing stream with
  | zero => rfl
  | succ n ih =>
    rw [answers, ih, stream.next_left.1, stream.next_left.2]
    cases stream.left with
    | nil => simp [replicate_succ]
    | cons token tokens => simp [replicate_succ', take_append_of_le_length, ← append_assoc]

theorem peek_left (stream : Stream) :
    stream.peek.1 = stream.left.head? ∧ stream.peek.2.left = stream.left := by
  obtain ⟨cursor, ahead⟩ := stream
  cases ahead with
  | some token => exact ⟨rfl, rfl⟩
  | none =>
    rw [peek, read]
    cases hfirst : first? cursor with
    | none => simp [left, scan_of_none hfirst]
    | some r => simp [left, scan_of_some hfirst]

inductive Call where
  | peek
  | next
deriving DecidableEq, Repr

def perform (stream : Stream) : Call → Option Token × Stream
  | .peek => stream.peek
  | .next => stream.next

/-- The calls of a run, each with its answer. -/
def performAll : List Call → Stream → List (Call × Option Token)
  | [], _ => []
  | call :: calls, stream => (call, (stream.perform call).1) :: performAll calls (stream.perform call).2

theorem performAll_append (calls others : List Call) (stream : Stream) :
    ∃ stream' : Stream, stream.performAll (calls ++ others) = stream.performAll calls ++ stream'.performAll others := by
  induction calls generalizing stream with
  | nil => exact ⟨stream, rfl⟩
  | cons call calls ih =>
    obtain ⟨stream', h⟩ := ih (stream.perform call).2
    exact ⟨stream', congrArg (_ :: ·) h⟩

/-- Only `next` takes a token off those that are left. -/
theorem performAll_nexts (calls : List Call) (stream : Stream) :
    ((stream.performAll calls).filter (·.1 = .next)).map Prod.snd = stream.answers (calls.count .next) := by
  induction calls generalizing stream with
  | nil => rfl
  | cons call calls ih =>
    cases call with
    | peek =>
      have hkept : stream.peek.2.answers (calls.count .next) = stream.answers (calls.count .next) := by
        rw [answers_eq, answers_eq, stream.peek_left.2]
      simpa [performAll, perform, hkept] using ih stream.peek.2
    | next => simpa [performAll, perform, answers] using ih stream.next.2

theorem performAll_peeks (n : Nat) (calls : List Call) (stream : Stream) : ∃ others,
    stream.performAll (replicate n .peek ++ .next :: calls) =
      replicate n (.peek, stream.left.head?) ++ (.next, stream.left.head?) :: others := by
  induction n generalizing stream with
  | zero => exact ⟨_, congrArg (fun answer => (Call.next, answer) :: _) stream.next_left.1⟩
  | succ n ih =>
    obtain ⟨others, h⟩ := ih stream.peek.2
    rw [stream.peek_left.2] at h
    refine ⟨others, ?_⟩
    simp only [replicate_succ, cons_append, performAll, perform, h, stream.peek_left.1]

end Stream

/-- Asking for tokens again and again gives each of a finite list once and then nothing. Each token
covers some characters, one token behind the other, and in front of the tokens, between them and
behind them there are only gaps. -/
theorem ofText_partitions (text : List Char) :
    (∀ n, (Stream.ofText text).answers n = ((ofText text).map some ++ replicate n none).take n) ∧
    (∀ token ∈ ofText text, token.span.start < token.span.stop ∧ IsBoundary text token.span.start ∧
      IsBoundary text token.span.stop ∧ slice? text token.span = some token.text.toList) ∧
    (ofText text).Pairwise (fun a b => a.span.stop ≤ b.span.start) ∧
    ∀ span ∈ gapsFrom 0 (size text) (ofText text), ∃ before gap rest, text = before ++ (gap ++ rest) ∧
      span = ⟨size before, size before + size gap⟩ ∧ Gap rest gap := by
  have htiles := ofText_tiles text
  obtain ⟨hcovers, hgaps⟩ := htiles.placed (nil_append text).symm rfl
  refine ⟨fun n => Stream.answers_eq n (Stream.ofText text), fun token htoken => ?_, htiles.ordered,
    hgaps⟩
  have htoken' := hcovers token htoken
  exact ⟨htiles.nonempty token htoken, htoken'.inside.starts, htoken'.inside.stops, htoken'.slice?⟩

/-- Whatever calls of `peek` are between them, the calls of `next` are answered as they are alone,
by the tokens of the text and then nothing, and a call of `peek` is answered as the call of `next`
that follows it, behind other calls of `peek` or at once. -/
theorem peeking_transparent (text : List Char) :
    (∀ calls : List Stream.Call, let n := calls.count .next
      (((Stream.ofText text).performAll calls).filter (·.1 = .next)).map Prod.snd = (Stream.ofText text).answers n ∧
      (Stream.ofText text).answers n = ((ofText text).map some ++ replicate n none).take n) ∧
    ∀ (before : List Stream.Call) (n : Nat) (after : List Stream.Call), ∃ answer others,
      (Stream.ofText text).performAll (before ++ (replicate (n + 1) .peek ++ .next :: after)) =
        (Stream.ofText text).performAll before ++ (replicate (n + 1) (.peek, answer) ++ (.next, answer) :: others) := by
  refine ⟨fun calls => ⟨Stream.performAll_nexts calls _, Stream.answers_eq _ (Stream.ofText text)⟩,
    fun before n after => ?_⟩
  obtain ⟨stream, hbefore⟩ :=
    Stream.performAll_append before (replicate (n + 1) .peek ++ .next :: after) (Stream.ofText text)
  obtain ⟨others, hpeeks⟩ := stream.performAll_peeks (n + 1) after
  exact ⟨stream.left.head?, others, hpeeks ▸ hbefore⟩

end Token
end DataParallel
