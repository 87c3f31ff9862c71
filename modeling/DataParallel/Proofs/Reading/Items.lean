import DataParallel.Proofs.Reading.Traversal
import DataParallel.Reading.Units

/-! Reading statements and items, two runs side by side. Unlike what they are made of, they change
what is known. -/

namespace DataParallel.Reading

open List

mutual

/-- Binders that differ in their spans at most. -/
def Binder.Matches (R : Span → Span → Prop) : Binder → Binder → Prop
  | .name x ty span, .name x' ty' span' => x = x' ∧ ty = ty' ∧ R span span'
  | .tuple binders, .tuple binders' => MatchAll R binders binders'
  | _, _ => False

def Binder.MatchAll (R : Span → Span → Prop) : List Binder → List Binder → Prop
  | [], [] => True
  | binder :: rest, binder' :: rest' => Matches R binder binder' ∧ MatchAll R rest rest'
  | _, _ => False

end

theorem Binder.length_eq_of_matchAll {R : Span → Span → Prop} : ∀ {binders binders' : List Binder},
    MatchAll R binders binders' → binders.length = binders'.length
  | [], [], _ => rfl
  | _ :: _, _ :: _, h => congrArg (· + 1) (length_eq_of_matchAll h.2)

namespace Sides

variable {v : Sides} {m n : Nat}

structure ReadsBinders (v : Sides) (n m : Nat) : Prop where
  binder : v.Reads 1 1 readBinder (Binder.Matches v.spans) n m
  more : v.Reads 1 0 readMoreBinders (Binder.MatchAll v.spans) n m

theorem ReadsBinders.succ (h : v.ReadsBinders n m) : v.ReadsBinders (n + 1) (m + 1) where
  binder k hk := by
    refine v.eat (fun _ => ?_) (v.readIdentifier fun name span span' hspan _ _ => v.eat (fun _ => ?_) ?_)
    · refine (h.binder hk.step).bind fun _ _ hfirst _ => (h.more hk.step).bind fun _ _ hrest _ => ?_
      exact v.skip fun _ => .pure ⟨hfirst, hrest⟩
    · exact ((v.readsTypes n m).type hk.step).andThen fun _ _ => .pure ⟨rfl, rfl, hspan⟩
    · exact .pure ⟨rfl, rfl, hspan⟩
  more k hk := by
    refine v.eat (fun _ => ?_) (.pure trivial)
    exact (h.binder hk.step).bind fun _ _ hfirst _ => (h.more hk.step).bind fun _ _ hrest _ => .pure ⟨hfirst, hrest⟩

theorem readsBinders (v : Sides) (n m : Nat) : v.ReadsBinders n m :=
  both_induction (P := v.ReadsBinders) (fun _ _ h => ⟨.zero h rfl, .zero h rfl⟩) (fun _ _ => ReadsBinders.succ) n m

theorem readExpr (v : Sides) (n m : Nat) : v.Reads 7 1 readExpr Eq n m :=
  (((Rules.trivial v).readsExprs n m).level .disjunction).imp fun _ _ h => h.1

/-- The same is known on both sides, and stays so if the same becomes known. -/
structure Learns (v : Sides) : Prop where
  same : ∀ {s t : State}, v.states s t → s.locals = t.locals ∧ s.procedures = t.procedures ∧ s.registry = t.registry
  learn : ∀ {s t : State}, v.states s t → ∀ locals procedures registry,
    v.states { s with locals, procedures, registry } { t with locals, procedures, registry }

namespace Learns
variable {α : Type} {k least : Nat} {results : α → α → Prop} {f g : Unit → Read α}

theorem modifies (hv : v.Learns) (locals procedures : Table Ty → Table Ty)
    (registry : Registry → Registry) (h : v.Follows k least (f ()) (g ()) results) :
    let change (s : State) : State :=
      { s with locals := locals s.locals, procedures := procedures s.procedures, registry := registry s.registry }
    v.Follows k least (modify change >>= f) (modify change >>= g) results := by
  intro change s t hst hs
  obtain ⟨hlocals, hprocedures, hregistry⟩ := hv.same hst
  refine h _ _ ?_ hs
  show v.states (change s) (change t)
  dsimp only [change]
  rw [hlocals, hprocedures, hregistry]
  exact hv.learn hst _ _ _

theorem setLocal {name : String} {ty : Ty} (hv : v.Learns)
    (h : v.Follows k least (f ()) (g ()) results) :
    v.Follows k least (setLocal name ty >>= f) (setLocal name ty >>= g) results :=
  hv.modifies (·.insert name ty) id id h

mutual

theorem bindTarget (hv : v.Learns) (ty : Option Ty) :
    ∀ {binder binder' : Binder}, binder.Matches v.spans binder' →
    v.Follows k 0 (bindTarget ty binder) (bindTarget ty binder') Eq
  | .name x annotation span, .name _ _ span', ⟨hx, hannotation, hspan⟩ => by
    subst hx hannotation
    rw [Reading.bindTarget, Reading.bindTarget]
    split
    · exact hv.setLocal (.pure rfl)
    · exact .fail hspan nofun
  | .tuple binders, .tuple binders', h => by
    rw [Reading.bindTarget, Reading.bindTarget, Binder.length_eq_of_matchAll h]
    exact (hv.bindTargets _ h).andThen fun _ _ => .pure rfl

theorem bindTargets (hv : v.Learns) (fields : Option (List Ty)) :
    ∀ {binders binders' : List Binder}, Binder.MatchAll v.spans binders binders' →
    v.Follows k 0 (bindTargets fields binders) (bindTargets fields binders') Eq
  | [], [], _ => .pure rfl
  | binder :: rest, binder' :: rest', h => by
    rw [Reading.bindTargets, Reading.bindTargets]
    exact (hv.bindTarget _ h.1).andThen fun _ _ => (hv.bindTargets _ h.2).andThen fun _ _ => .pure rfl

end

end Learns

theorem readMoreVariables (v : Sides) (n m : Nat) : v.Reads 1 0 readMoreVariables Eq n m := by
  refine both_induction (fun _ _ h => .zero h rfl) (fun n m ih k hk => ?_) n m
  refine v.eat (fun _ => v.readIdentifier fun _ _ _ _ _ _ => ?_) (.pure rfl)
  exact (ih hk.step).andThen fun _ _ => .pure rfl

theorem readTypeVariables (v : Sides) (n m : Nat) : v.Reads 1 0 readTypeVariables Eq n m := by
  intro k hk
  refine v.eat (fun _ => v.readIdentifier fun _ _ _ _ _ _ => ?_) (.pure rfl)
  exact (v.readMoreVariables n m hk.mono).andThen fun _ _ => v.skip fun _ => .pure rfl

namespace Learns
variable (hv : v.Learns) (n m : Nat)
include hv

theorem readDeclaration : v.Reads 1 1 readDeclaration Eq n m := by
  intro k hk
  refine v.skip fun _ => v.readIdentifier fun name span span' hspan _ _ => v.skip fun _ => ?_
  refine ((v.readsTypes n m).type hk.mono).andThen fun ty _ => v.expect fun text at_ at_' hat _ _ => ?_
  dsimp only
  split
  · exact .fail hat nofun
  · refine v.skip fun _ => ?_
    split
    · exact .fail hspan nofun
    · refine .get fun s t hst => ?_
      rw [(hv.same hst).2.1]
      split
      · exact .fail hspan nofun
      · exact hv.modifies id id (·.insert name _) (.pure rfl)

theorem readParameter : v.Reads 1 1 readParameter Eq n m := by
  intro k hk
  refine v.readIdentifier fun name span span' hspan _ _ => v.skip fun _ => ?_
  refine ((v.readsTypes n m).type hk.mono).andThen fun ty _ => .get fun s t hst => ?_
  rw [(hv.same hst).1]
  split
  · exact .fail hspan nofun
  · exact hv.setLocal (.pure rfl)

theorem readMoreParameters : v.Reads 1 0 readMoreParameters Eq n m := by
  refine both_induction (fun _ _ h => .zero h rfl) (fun n m ih k hk => ?_) n m
  refine v.eat (fun _ => ?_) (.pure rfl)
  exact (hv.readParameter n m hk.step).andThen fun _ _ => (ih hk.step).andThen fun _ _ => .pure rfl

theorem readParameters : v.Reads 1 0 readParameters Eq n m := by
  intro k hk
  refine v.nextIs fun closed => ?_
  split
  · exact .pure rfl
  · refine (hv.readParameter n m hk).andThen fun _ _ => ?_
    exact (hv.readMoreParameters n m hk.mono).andThen fun _ _ => .pure rfl

end Learns

structure ReadsStmts (v : Sides) (n m : Nat) : Prop where
  block : v.Reads 1 1 readBlock Eq n m
  stmts : v.Reads 3 0 readStmts Eq n m
  stmt : v.Reads 2 1 readStmt Eq n m
  branch : v.Reads 1 1 readBranch Eq n m
  otherwise : v.Reads 1 0 readElse Eq n m

namespace ReadsStmts

theorem succ_stmt (h : v.ReadsStmts n m) (hv : v.Learns) :
    v.Reads 2 1 readStmt Eq (n + 1) (m + 1) := by
  intro k hk
  refine v.expectPeek fun kind text span span' hspan _ => ?_
  dsimp only
  split
  -- a bind to a name and one to a tuple
  case h_4 | h_5 =>
    refine .of fun _ => ((v.readsBinders n m).binder hk.step).bind fun _ _ hbinder _ => v.skip fun _ => ?_
    refine (v.readExpr n m hk.step).andThen fun value _ => v.skip fun _ => ?_
    exact (hv.bindTarget _ hbinder).andThen fun _ _ => .pure rfl
  · exact v.drop fun _ => (v.readExpr n m hk.step).andThen fun _ _ => v.skip fun _ => .pure rfl
  · exact .of fun _ => h.branch hk.step
  · refine v.drop fun _ => (v.readExpr n m hk.step).andThen fun _ _ => ?_
    exact (h.block hk.step).andThen fun _ _ => .pure rfl
  · exact .of fun _ => .fail hspan nofun

theorem succ (h : v.ReadsStmts n m) (hv : v.Learns) : v.ReadsStmts (n + 1) (m + 1) where
  block k hk := by
    exact v.skip fun _ => (h.stmts hk.step).andThen fun _ _ => v.skip fun _ => .pure rfl
  stmts k hk := by
    refine v.expectPeek fun kind text span span' _ _ => .of fun _ => ?_
    dsimp only
    split
    · exact .pure rfl
    · exact (h.stmt hk.step).andThen fun _ _ => (h.stmts hk.step).andThen fun _ _ => .pure rfl
  stmt := h.succ_stmt hv
  branch k hk := by
    refine v.skip fun _ => (v.readExpr n m hk.step).andThen fun _ _ => ?_
    exact (h.block hk.step).andThen fun _ _ => (h.otherwise hk.step).andThen fun _ _ => .pure rfl
  otherwise k hk := by
    refine v.eat (fun _ => v.nextIs fun isBranch => ?_) (.pure rfl)
    split
    · exact (h.branch hk.step).andThen fun _ _ => .pure rfl
    · exact (h.block hk.step).imp (Nat.zero_le 1) fun _ _ h => h

end ReadsStmts

namespace Learns
variable (hv : v.Learns) (n m : Nat)
include hv

theorem readsStmts : v.ReadsStmts n m :=
  both_induction (P := v.ReadsStmts)
    (fun _ _ h => ⟨.zero h rfl, .zero h rfl, .zero h rfl, .zero h rfl, .zero h rfl⟩) (fun _ _ h => h.succ hv) n m

theorem readProcedure : v.Reads 1 1 readProcedure Eq n m := by
  intro k hk
  refine v.skip fun _ => v.readIdentifier fun name span span' hspan _ _ => .get fun s t hst => ?_
  obtain ⟨-, hprocedures, hregistry⟩ := hv.same hst
  rw [hprocedures, hregistry]
  split
  · exact .fail hspan nofun
  · refine (v.readTypeVariables n m hk.mono).andThen fun binders _ => ?_
    refine hv.modifies (fun _ => ∅) id id (v.skip fun _ => ?_)
    refine (hv.readParameters n m hk.mono).andThen fun parameters _ => v.skip fun _ => v.skip fun _ => ?_
    refine ((v.readsTypes n m).type hk.mono).andThen fun result _ => ?_
    refine hv.modifies id (·.insert name _) id ?_
    exact ((hv.readsStmts n m).block hk.mono).andThen fun _ _ => .pure rfl

theorem readItems : v.Reads 2 0 readItems Eq n m := by
  refine both_induction (fun _ _ h => .zero h rfl) (fun n m ih k hk => ?_) n m
  refine v.peek (.pure rfl) fun kind text span span' hspan _ => .of fun _ => ?_
  dsimp only
  split
  · exact (hv.readDeclaration n m hk.step).andThen fun _ _ => (ih hk.step).andThen fun _ _ => .pure rfl
  · exact (hv.readProcedure n m hk.step).andThen fun _ _ => (ih hk.step).andThen fun _ _ => .pure rfl
  · exact .fail hspan nofun

end Learns

end Sides
end DataParallel.Reading
