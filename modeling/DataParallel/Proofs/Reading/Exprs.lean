import DataParallel.Proofs.Evaluation
import DataParallel.Proofs.Reading.Traversal
import DataParallel.Token.Scan

/-! What reading gives: typed expressions, whose names were known where they stand.

Only statements and items make names known, so everything below them keeps what is known. -/

namespace DataParallel

open List Name Token

variable {x : String} {e : Expr}

/-- A name that a text can hold; the first character of a drawn name is an underscore. -/
def Name.IsWritten (name : String) : Prop :=
  name.toList.head? ≠ some '_' ∧ ∀ c ∈ name.toList, isWordPart c = true

theorem Name.IsWritten.of_all {name : String} (hfirst : name.toList.head? ≠ some '_')
    (hparts : name.toList.all isWordPart = true) : IsWritten name :=
  ⟨hfirst, all_eq_true.1 hparts⟩

namespace Token

def IsWord (token : Token) : Prop := token.kind = .identifier → ∀ c ∈ token.text.toList, isWordPart c = true

theorem munch_word {c : Char} {cs : List Char} (h : (munch c cs).kind = .identifier) :
    ∀ d ∈ c :: (munch c cs).more, isWordPart d = true := by
  have hsign : ∀ {k}, signKind c = k → k ≠ .identifier := by
    intro k hk
    unfold signKind at hk
    split at hk <;> subst hk <;> simp
  unfold munch at h ⊢
  split at h
  · dsimp only at h
    split at h <;> cases h
  · split at h
    · rename_i hdigit hstart
      rw [if_neg hdigit, if_pos hstart]
      intro d hd
      rcases mem_cons.1 hd with rfl | hd
      · rw [isWordStart, Bool.or_eq_true] at hstart
        rw [isWordPart, Bool.or_eq_true, Char.isAlphanum, Bool.or_eq_true]
        exact hstart.imp_left .inl
      · exact all_eq_true.1 all_takeWhile d hd
    · split at h
      · cases h
      · split at h
        · exact absurd h (hsign rfl)
        · split at h
          · rename_i kind hkind
            unfold pairKind? at hkind
            split at hkind <;> cases hkind <;> cases h
          · exact absurd h (hsign rfl)

theorem scan_words (cursor : Cursor) : ∀ token ∈ scan cursor, token.IsWord := by
  fun_induction scan cursor with
  | case1 => exact nofun
  | case2 cursor token after h ih =>
    refine forall_mem_cons.2 ⟨?_, ih⟩
    unfold first? at h
    split at h
    · cases h
    · cases h
      intro hkind
      rw [String.toList_ofList]
      exact munch_word hkind

end Token

namespace Expr

variable {es : List Expr}

mutual

/-- Whether every called function is a name, and every function that a closure is made of. -/
def callsNames : Expr → Bool
  | .name .. | .literal .. => true
  | .tuple elements _ => allCallNames elements
  | .apply function arguments _ => function.isName && allCallNames arguments
  | .closure function captured _ => function.isName && allCallNames captured

def allCallNames : List Expr → Bool
  | [] => true
  | e :: rest => callsNames e && allCallNames rest

end

theorem allCallNames_iff : allCallNames es = true ↔ ∀ e ∈ es, e.callsNames = true := by
  induction es with
  | nil => simp [allCallNames]
  | cons e es ih => simp [allCallNames, ih]

def IsRead (known : String → Prop) (e : Expr) : Prop :=
  e.callsNames = true ∧ ∀ x ∈ e.names, IsWritten x ∧ known x

namespace IsRead
variable {known : String → Prop} {f : Expr} {typing : Typing}

theorem name (hx : IsWritten x) (hknown : known x) : IsRead known (.name x typing) := by
  refine ⟨rfl, fun y hy => ?_⟩
  cases mem_singleton.1 hy
  exact ⟨hx, hknown⟩

theorem literal {text : String} : IsRead known (.literal text typing) := by
  refine ⟨rfl, fun y hy => ?_⟩
  cases hy

theorem namesAll (h : ∀ e ∈ es, IsRead known e) :
    allCallNames es = true ∧ ∀ y ∈ namesAll es, IsWritten y ∧ known y := by
  refine ⟨allCallNames_iff.2 fun e he => (h e he).1, fun y hy => ?_⟩
  obtain ⟨e, he, hy⟩ := mem_namesAll.1 hy
  exact (h e he).2 y hy

theorem tuple (h : ∀ e ∈ es, IsRead known e) : IsRead known (.tuple es typing) := namesAll h

theorem apply (hf : IsRead known f) (hname : f.isName = true) (h : ∀ e ∈ es, IsRead known e) :
    IsRead known (.apply f es typing) := by
  refine ⟨?_, fun y hy => ?_⟩
  · rw [callsNames, hname, (namesAll h).1]
    rfl
  · rw [names] at hy
    rcases mem_append.1 hy with hy | hy
    · exact hf.2 y hy
    · exact (namesAll h).2 y hy

theorem closure (hf : IsRead known f) (hname : f.isName = true) (h : ∀ e ∈ es, IsRead known e) :
    IsRead known (.closure f es typing) :=
  @apply es known f typing hf hname h

theorem mono {known' : String → Prop} (h : IsRead known e) (hk : ∀ y, known y → known' y) :
    IsRead known' e :=
  ⟨h.1, fun y hy => ⟨(h.2 y hy).1, hk y (h.2 y hy).2⟩⟩

end IsRead
end Expr

/-- A function type that takes its first parameters and yields a function of the others, below a
quantifier as well. -/
inductive Ty.Curried (count : Nat) : Ty → Ty → Prop where
  | function {first rest : List Ty} {result : Ty} : first.length = count →
    Curried count (.function (first ++ rest) result) (.function first (.function rest result))
  | quantified {binders first rest : List Ty} {result : Ty} : first.length = count →
    Curried count (.quantified binders (.function (first ++ rest) result))
      (.quantified binders (.function first (.function rest result)))

/-- The typing rules: a name has the type that `types` gives it, a call that of the instance of the
callee's type at the arguments, and a closure that of the callee's type curried at the captures. -/
inductive Expr.IsTyped (types : String → Option Ty) : Expr → Prop where
  | name {x : String} {ty : Ty} : IsWritten x → types x = some ty → IsTyped types (.name x ⟨ty, none⟩)
  | literal {text : String} {kind : Scalar} : IsTyped types (.literal text ⟨.scalar kind, none⟩)
  | tuple {es : List Expr} : (∀ e ∈ es, IsTyped types e) → IsTyped types (.tuple es ⟨.tuple (es.map ty), none⟩)
  | apply {f : String} {ty result : Ty} {es : List Expr} {parameters : List Ty} :
    IsTyped types (.name f ⟨ty, none⟩) → (∀ e ∈ es, IsTyped types e) →
    ty.instantiate? (es.map Expr.ty) = some (parameters, result) →
    IsTyped types (.apply (.name f ⟨ty, none⟩) es ⟨result, none⟩)
  | closure {f : String} {ty curried result : Ty} {es : List Expr} {parameters : List Ty} :
    IsTyped types (.name f ⟨ty, none⟩) → (∀ e ∈ es, IsTyped types e) → ty.Curried es.length curried →
    curried.instantiate? (es.map Expr.ty) = some (parameters, result) →
    IsTyped types (.closure (.name f ⟨ty, none⟩) es ⟨result, none⟩)

theorem Expr.IsTyped.isRead {types : String → Option Ty} (h : e.IsTyped types) :
    e.IsRead fun x => types x ≠ none := by
  induction h with
  | name hx hty => exact .name hx (by simp [hty])
  | literal => exact .literal
  | tuple _ ih => exact .tuple ih
  | apply _ _ _ ihf ih => exact .apply ihf rfl ih
  | closure _ _ _ _ ihf ih => exact .closure ihf rfl ih

namespace Reading

variable {ty : Ty} {c : State} {α : Type} {p : α → Prop}

theorem curried_of_curry? {count : Nat} {curried : Ty} (h : curry? count ty = some curried) :
    ∃ first rest result, first.length = count ∧ ty = .function (first ++ rest) result ∧
      curried = .function first (.function rest result) := by
  cases ty with
  | function parameters result =>
    rw [curry?] at h
    split at h
    · rename_i hcount
      cases h
      exact ⟨_, _, result, length_take_of_le hcount, by rw [take_append_drop], rfl⟩
    · cases h
  | _ => cases h

theorem closureTy?_eq_some {result : Ty} {captured : List Ty}
    (h : closureTy? ty captured = some result) :
    ∃ curried parameters, ty.Curried captured.length curried ∧
      curried.instantiate? captured = some (parameters, result) := by
  have instance_of : ∀ {curried : Ty}, (curried.instantiate? captured).bind (fun r => some r.2) = some result →
      ∃ parameters, curried.instantiate? captured = some (parameters, result) := by
    intro curried h
    obtain ⟨⟨parameters, result'⟩, hinstance, h⟩ := Option.bind_eq_some_iff.1 h
    cases h
    exact ⟨parameters, hinstance⟩
  unfold closureTy? at h
  split at h
  · obtain ⟨curried, hcurried, h⟩ := Option.bind_eq_some_iff.1 h
    obtain ⟨body, hbody, rfl⟩ := Option.map_eq_some_iff.1 hcurried
    obtain ⟨first, rest, result, hfirst, rfl, rfl⟩ := curried_of_curry? hbody
    exact ⟨_, (instance_of h).imp fun _ hinstance => ⟨.quantified hfirst, hinstance⟩⟩
  · obtain ⟨curried, hcurried, h⟩ := Option.bind_eq_some_iff.1 h
    obtain ⟨first, rest, result, hfirst, rfl, rfl⟩ := curried_of_curry? hcurried
    exact ⟨_, (instance_of h).imp fun _ hinstance => ⟨.function hfirst, hinstance⟩⟩

structure State.Alike (c state : State) : Prop where
  locals : state.locals = c.locals
  procedures : state.procedures = c.procedures
  registry : state.registry = c.registry
  words : ∀ token ∈ state.tokens, token.IsWord

theorem State.Alike.tyOf? {s : State} (h : c.Alike s) (x : String) : s.tyOf? x = c.tyOf? x := by
  rw [State.tyOf?, h.locals, h.procedures, h.registry]
  rfl

abbrev Reads {α : Type} (c : State) (x : Read α) (p : α → Prop) : Prop :=
  Preserves (fun _ => True) c.Alike x p

namespace Reads

theorem fail (cause : Cause) (span : Span) : Reads c (fail cause span : Read α) p :=
  Preserves.throw trivial

theorem drop : Reads c drop fun _ => True :=
  Preserves.modifies fun _ hs => ⟨hs.locals, hs.procedures, hs.registry,
    fun token htoken => hs.words token (mem_of_mem_tail htoken)⟩

theorem peek? : Reads c peek? fun token => ∀ t ∈ token, t.IsWord :=
  Preserves.get.bind fun _ hs => .pure fun t ht => hs.words t (mem_of_mem_head? ht)

theorem expectPeek (expecting : String) : Reads c (expectPeek expecting) IsWord := by
  refine peek?.bind fun token htoken => ?_
  cases token with
  | none => exact Preserves.get.bind fun _ _ => fail _ _
  | some token =>
    dsimp only
    split
    · exact fail _ _
    · exact .pure (htoken token rfl)

theorem expectNext (expecting : String) : Reads c (expectNext expecting) IsWord :=
  (expectPeek expecting).bind fun _ htoken => drop.bind fun _ _ => .pure htoken

theorem expect (kind : Kind) :
    Reads c (expect kind) fun token => token.kind = kind ∧ token.IsWord := by
  refine (expectNext kind.title).bind fun token htoken => ?_
  split
  · rename_i hkind
    exact .pure ⟨hkind, htoken⟩
  · exact fail _ _

theorem nextIs (kind : Kind) : Reads c (nextIs kind) fun _ => True :=
  peek?.bind fun _ _ => .pure trivial

theorem eat (kind : Kind) : Reads c (eat kind) fun _ => True := by
  refine (nextIs kind).bind fun b _ => ?_
  split
  · exact drop.bind fun _ _ => .pure trivial
  · exact .pure trivial

theorem identifier {token : Token} (hkind : token.kind = .identifier) (htoken : token.IsWord) :
    Reads c (identifier token) IsWritten := by
  rw [Reading.identifier]
  split
  · exact fail _ _
  · rename_i h
    exact .pure ⟨h, htoken hkind⟩

theorem readIdentifier : Reads c readIdentifier fun r => IsWritten r.1 :=
  (expect _).bind fun _ htoken => (identifier htoken.1 htoken.2).bind fun _ h => .pure h

theorem exhausted : Reads c (exhausted : Read α) p := by
  refine peek?.bind fun token _ => ?_
  cases token with
  | none => exact Preserves.get.bind fun _ _ => fail _ _
  | some token => exact fail _ _

end Reads

/-- One run, beside itself. -/
def State.Alike.sides (c : State) : Sides where
  errors _ _ := True
  states s t := s = t ∧ c.Alike s
  spans _ _ := True
  words := IsWord
  inStep := True
  fails _ _ := trivial
  joins _ _ _ _ _ _ := trivial
  tokens h := h.1 ▸ forall₂_same.2 fun _ _ => ⟨rfl, rfl, trivial⟩
  kept h := h.2.words
  tail h := ⟨by rw [h.1], h.2.locals, h.2.procedures, h.2.registry,
    fun token htoken => h.2.words token (mem_of_mem_tail htoken)⟩
  finish _ := trivial
  tyOf? h := by rw [h.1]

theorem Reads.of_sides {read : Nat → Read α} {rank least n : Nat} {results : α → α → Prop}
    (h : (State.Alike.sides c).Reads rank least read results n n) (hp : ∀ a b, results a b → p a) :
    Reads c (read n) p := by
  intro s hs
  have hrun := h (.inl ⟨trivial, rfl⟩) s s ⟨rfl, hs⟩ (Nat.le_refl _)
  obtain ⟨r, _, hx, -, hr, ⟨-, hs'⟩, -⟩ | ⟨e, _, hx, -⟩ := hrun.ok_or_error
  · rw [hx]
    exact ⟨hp _ _ hr, hs'⟩
  · rw [hx]
    trivial

theorem Reads.readType (n : Nat) : Reads c (readType n) fun _ => True :=
  .of_sides ((State.Alike.sides c).readsTypes n n).type fun _ _ _ => trivial

theorem Spells.isWritten (h : Spells IsWord x) : IsWritten x := by
  obtain ⟨token, hkind, rfl, hword, hfirst⟩ := h
  exact ⟨hfirst, hword hkind⟩

theorem isWritten_of_operator? {kind : Kind} {name : String} (h : kind.operator? = some name) :
    IsWritten name := by
  cases kind <;> simp [Kind.operator?] at h <;> subst h <;> exact .of_all (by decide) (by decide)

theorem rules_typed (c : State) : (State.Alike.sides c).Rules (Expr.IsTyped c.tyOf?) where
  name h hx hty := by
    rw [h.2.tyOf?] at hty
    exact .name (hx.elim Spells.isWritten fun ⟨_, hkind⟩ => isWritten_of_operator? hkind) hty
  literal _ _ := .literal
  negative _ _ := .literal
  tuple hes := .tuple hes
  apply hx hes hinstance := .apply hx hes hinstance
  closure hx hes hclosure := by
    obtain ⟨curried, parameters, hcurried, hinstance⟩ := closureTy?_eq_some hclosure
    rw [length_map] at hcurried
    exact .closure hx hes hcurried hinstance

theorem Reads.readExpr (n : Nat) : Reads c (Reading.readExpr n) (Expr.IsTyped c.tyOf?) :=
  .of_sides (((rules_typed c).readsExprs n n).level .disjunction) fun _ _ h => h.2

end Reading
end DataParallel
