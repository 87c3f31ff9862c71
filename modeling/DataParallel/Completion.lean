/-! Whether the value of a name is computed at a point of a program. -/

namespace DataParallel

inductive Completion where
  /-- Not bound on every path to the point. -/
  | unknown
  /-- A pending composition of views. -/
  | incomplete
  /-- Fully computed. -/
  | complete
deriving DecidableEq, Repr

namespace Completion

/-- Joins two paths: what is pending on one of them is pending behind both. -/
def merge : Completion → Completion → Completion
  | .incomplete, _ | _, .incomplete => .incomplete
  | .complete, .complete => .complete
  | _, _ => .unknown

/-- Joins any number of parts of a value. -/
def all (completions : List Completion) : Completion := completions.foldl merge .complete

theorem merge_comm (a b : Completion) : merge a b = merge b a := by
  cases a <;> cases b <;> rfl

theorem merge_assoc (a b c : Completion) : merge (merge a b) c = merge a (merge b c) := by
  cases a <;> cases b <;> cases c <;> rfl

@[simp] theorem merge_self (a : Completion) : merge a a = a := by cases a <;> rfl

def title : Completion → String
  | .unknown => "Unknown"
  | .incomplete => "Incomplete"
  | .complete => "Complete"

def ofTitle? (text : String) : Option Completion :=
  [unknown, incomplete, complete].find? (·.title = text)

end Completion
end DataParallel
