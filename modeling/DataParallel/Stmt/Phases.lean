import DataParallel.Stmt.Basic

/-! The phases of a block: groups of statements that phase boundaries separate. What is written in
one group is visible in every later one. -/

namespace DataParallel.Stmt

def consPhase (s : Stmt) : List (List Stmt) → List (List Stmt)
  | [] => [[s]]
  | group :: rest => (s :: group) :: rest

/-- Cuts a block behind each phase boundary. An empty block is one empty group. -/
def phases : List Stmt → List (List Stmt)
  | [] => [[]]
  | s :: rest =>
    if s.isPhaseBoundary && !rest.isEmpty then [s] :: phases rest
    else consPhase s (phases rest)

end DataParallel.Stmt
