/-! Stretches of a source text, given by byte offsets into its UTF-8 form. -/

namespace DataParallel

structure Span where
  start : Nat
  stop : Nat
deriving DecidableEq, Repr, Inhabited

namespace Span

def point (offset : Nat) : Span := ⟨offset, offset⟩

def join (a b : Span) : Span := ⟨min a.start b.start, max a.stop b.stop⟩

end Span
end DataParallel
