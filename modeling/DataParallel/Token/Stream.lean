import DataParallel.Token.Scan

/-! Reading tokens one by one, with a look at the next one before it is taken. -/

namespace DataParallel.Token

/-- The place up to which a text is read, and the token that was looked at but not taken. -/
structure Stream where
  cursor : Cursor
  ahead : Option Token
deriving Repr

namespace Stream

def ofText (text : List Char) : Stream := ⟨⟨0, text⟩, none⟩

def read (stream : Stream) : Option Token × Stream :=
  match first? stream.cursor with
  | some (token, after) => (some token, ⟨after, none⟩)
  | none => (none, stream)

def next (stream : Stream) : Option Token × Stream :=
  match stream.ahead with
  | some token => (some token, { stream with ahead := none })
  | none => stream.read

def peek (stream : Stream) : Option Token × Stream :=
  match stream.ahead with
  | some token => (some token, stream)
  | none =>
    let (token, stream) := stream.read
    (token, { stream with ahead := token })

end Stream
end DataParallel.Token
