import DataParallel.Proofs.Reading.Exprs
import DataParallel.Reading.Units

/-! What reading a unit gives: procedures of named parameters, whose statements mention only names
that are known where they stand, at the types that their latest binds gave them. -/

namespace DataParallel

open List Name

variable {α : Type} {x : String} {a : α} {types : String → Option Ty} {binds binds' : List (String × Ty)}
  {known : String → Prop} {names : List String} {c s state t : State} {table : Table α} {items items' : List Item}
  {text : List Char} {unit : SourceUnit}

namespace Expr

mutual

/-- Whether an expression is the target of a bind: a name, or a tuple of targets. -/
def isBinder : Expr → Bool
  | .name .. => true
  | .tuple elements _ => areBinders elements
  | _ => false

def areBinders : List Expr → Bool
  | [] => true
  | e :: rest => isBinder e && areBinders rest

end

mutual

def boundTypes : Expr → List (String × Ty)
  | .name symbol typing => [(symbol, typing.ty)]
  | .tuple elements _ => boundTypesAll elements
  | _ => []

def boundTypesAll : List Expr → List (String × Ty)
  | [] => []
  | e :: rest => boundTypes e ++ boundTypesAll rest

end

mutual

theorem map_boundTypes : ∀ {e : Expr}, e.isBinder = true → e.boundTypes.map Prod.fst = e.names
  | .name .., _ => rfl
  | .tuple _ _, h => map_boundTypesAll h

theorem map_boundTypesAll :
    ∀ {es : List Expr}, areBinders es = true → (boundTypesAll es).map Prod.fst = namesAll es
  | [], _ => rfl
  | _ :: _, h => by
    rw [areBinders, Bool.and_eq_true] at h
    rw [boundTypesAll, map_append, map_boundTypes h.1, map_boundTypesAll h.2, namesAll]

end

end Expr

namespace Stmt

mutual

/-- The names that a statement binds, in tuples of targets and in its branches and loops as well. -/
def bindings : Stmt → List String
  | .bind target _ => target.names
  | .branch _ whenTrue whenFalse => bindingsAll whenTrue ++ bindingsAll whenFalse
  | .loop _ body => bindingsAll body
  | _ => []

def bindingsAll : List Stmt → List String
  | [] => []
  | s :: rest => bindings s ++ bindingsAll rest

end

mutual

/-- The binds in a statement in the order of the text, with the types that they give. -/
def boundTypes : Stmt → List (String × Ty)
  | .bind target _ => target.boundTypes
  | .branch _ whenTrue whenFalse => boundTypesAll whenTrue ++ boundTypesAll whenFalse
  | .loop _ body => boundTypesAll body
  | _ => []

def boundTypesAll : List Stmt → List (String × Ty)
  | [] => []
  | s :: rest => boundTypes s ++ boundTypesAll rest

end

end Stmt

namespace Name
variable {entries entries' : List (String × α)} {y : String}

def latest? (entries : List (String × α)) (x : String) : Option α := entries.reverse.lookup x

theorem latest?_append :
    latest? (entries ++ entries') x = (latest? entries' x).or (latest? entries x) := by
  rw [latest?, reverse_append, lookup_append]
  rfl

theorem latest?_singleton : latest? [(y, a)] x = if x = y then some a else none := by
  by_cases hxy : x = y
  · simp [latest?, hxy]
  · simp [latest?, hxy, lookup_cons, beq_false_of_ne hxy]

theorem latest?_ne_none : latest? entries x ≠ none ↔ x ∈ entries.map Prod.fst := by
  rw [Option.ne_none_iff_isSome, latest?, lookup_isSome_iff]
  simp

/-- The types of names behind some binds: each one hides what was known of its name. -/
def typesAfter (types : String → Option Ty) (binds : List (String × Ty)) (x : String) : Option Ty :=
  (latest? binds x).or (types x)

theorem typesAfter_append :
    typesAfter types (binds ++ binds') = typesAfter (typesAfter types binds) binds' := by
  funext x
  rw [typesAfter, typesAfter, typesAfter, latest?_append, Option.or_assoc]

theorem typesAfter_ne_none :
    typesAfter types binds x ≠ none ↔ types x ≠ none ∨ x ∈ binds.map Prod.fst := by
  rw [← latest?_ne_none, typesAfter]
  cases latest? binds x <;> simp

end Name

def Name.Also (known : String → Prop) (names : List String) (x : String) : Prop := known x ∨ x ∈ names

theorem Name.Also.mono {known' : String → Prop} (h : ∀ x, known x → known' x) (x : String)
    (hx : Also known names x) : Also known' names x :=
  hx.imp_left (h x)

@[simp] theorem Name.also_nil : Also known [] = known := by
  funext x
  simp [Also]

theorem Name.also_append {names' : List String} :
    Also known (names ++ names') = Also (Also known names) names' := by
  funext x
  simp [Also, or_assoc]

namespace Stmt

mutual

/-- A statement of a procedure whose expressions were read where `known` is known. A name is known
from its bind on, in the text. -/
def IsRead (known : String → Prop) : Stmt → Prop
  | .bind target value => target.isBinder = true ∧ (∀ x ∈ target.names, IsWritten x) ∧ value.IsRead known
  | .ret value => value.IsRead known
  | .branch test whenTrue whenFalse =>
    test.IsRead known ∧ AreRead known whenTrue ∧ AreRead (Also known (bindingsAll whenTrue)) whenFalse
  | .loop test body => test.IsRead known ∧ AreRead known body
  | _ => False

def AreRead (known : String → Prop) : List Stmt → Prop
  | [] => True
  | s :: rest => IsRead known s ∧ AreRead (Also known (bindings s)) rest

end


mutual

/-- A statement of a procedure whose expressions are typed where names have the types `types`. A
name has the type of a bind from there on, in the text. -/
def IsTyped (types : String → Option Ty) : Stmt → Prop
  | .bind target value => target.isBinder = true ∧ (∀ x ∈ target.names, IsWritten x) ∧ value.IsTyped types
  | .ret value => value.IsTyped types
  | .branch test whenTrue whenFalse =>
    test.IsTyped types ∧ AreTyped types whenTrue ∧ AreTyped (typesAfter types (boundTypesAll whenTrue)) whenFalse
  | .loop test body => test.IsTyped types ∧ AreTyped types body
  | _ => False

def AreTyped (types : String → Option Ty) : List Stmt → Prop
  | [] => True
  | s :: rest => IsTyped types s ∧ AreTyped (typesAfter types (boundTypes s)) rest

end

theorem AreTyped.map_boundTypes {types : String → Option Ty} {block : List Stmt}
    (h : AreTyped types block) : (boundTypesAll block).map Prod.fst = bindingsAll block := by
  induction block using block_induction generalizing types with
  | nil => rfl
  | cons s =>
    cases s <;> grind [AreTyped, IsTyped, suites, boundTypes, boundTypesAll, bindings, bindingsAll, Expr.map_boundTypes]

theorem also_of_typesAfter (hknown : ∀ x, types x ≠ none → known x)
    (hnames : binds.map Prod.fst = names) :
    ∀ x, typesAfter types binds x ≠ none → Also known names x := by
  intro x hx
  rw [typesAfter_ne_none, hnames] at hx
  exact hx.imp_left (hknown x)

theorem AreTyped.areRead {types : String → Option Ty} {known : String → Prop} {block : List Stmt}
    (h : AreTyped types block) (hknown : ∀ x, types x ≠ none → known x) : AreRead known block := by
  induction block using block_induction generalizing types known with
  | nil => trivial
  | cons s rest ihs ih =>
    have hs : AreTyped types [s] := ⟨h.1, trivial⟩
    have hs := hs.map_boundTypes
    simp only [boundTypesAll, bindingsAll, append_nil] at hs
    refine ⟨?_, ih h.2 (also_of_typesAfter hknown hs)⟩
    cases s <;> grind [AreTyped, IsTyped, IsRead, suites, Expr.IsTyped.isRead, Expr.IsRead.mono, also_of_typesAfter,
      AreTyped.map_boundTypes]

theorem AreRead.written {known : String → Prop} {block : List Stmt} (h : AreRead known block) :
    ∀ x ∈ namesAll block, IsWritten x ∧ Also known (bindingsAll block) x := by
  induction block using block_induction generalizing known with
  | nil => exact nofun
  | cons s => cases s <;> grind
      [AreRead, IsRead, Expr.IsRead, suites, namesAll, Stmt.names, bindings, bindingsAll, Also]

end Stmt

def Ty.IsProcedure (ty : Ty) : Prop := ∃ parameters result, ty.unquantified.2 = .function parameters result

structure Procedure.IsRead (global : String → Prop) (procedure : Procedure) : Prop where
  name : ∃ x ty, procedure.name = .name x ⟨ty, none⟩ ∧ IsWritten x ∧ global x ∧ ty.IsProcedure
  body : ∃ names, procedure.parameterNames? = some names ∧ names.Nodup ∧ (∀ x ∈ names, IsWritten x) ∧
    Stmt.AreRead (Also global names) procedure.body

/-- A procedure that is typed where the names outside of it have the types `types`, its own name
included. -/
structure Procedure.IsTyped (types : String → Option Ty) (procedure : Procedure) : Prop where
  name : ∃ x ty result, procedure.name = .name x ⟨ty, none⟩ ∧ IsWritten x ∧ types x = some ty ∧
    ty.unquantified.2 = .function (procedure.parameters.map Expr.ty) result
  parameters : procedure.parameterNames? = some (Expr.namesAll procedure.parameters)
  nodup : (Expr.namesAll procedure.parameters).Nodup
  written : ∀ x ∈ Expr.namesAll procedure.parameters, IsWritten x
  body : Stmt.AreTyped (typesAfter types (Expr.boundTypesAll procedure.parameters)) procedure.body

theorem Expr.areBinders_of_symbols :
    ∀ {es : List Expr} {names : List String}, es.mapM Expr.symbol? = some names →
    areBinders es = true
  | [], _, _ => rfl
  | e :: es, _, h => by
    obtain ⟨x, hx, rest, hrest, -⟩ := Expr.mapM_symbol_cons.1 h
    rw [areBinders, areBinders_of_symbols hrest, Bool.and_true]
    cases e with
    | name => rfl
    | _ => cases hx

theorem Procedure.IsTyped.isRead {global : String → Prop} {procedure : Procedure}
    (h : procedure.IsTyped types)
    (hglobal : ∀ x, types x ≠ none → global x) : procedure.IsRead global := by
  obtain ⟨x, ty, result, hname, hx, hty, hfunction⟩ := h.name
  refine ⟨⟨x, ty, hname, hx, hglobal x (by simp [hty]), _, result, hfunction⟩, _, h.parameters, h.nodup, h.written, ?_⟩
  exact h.body.areRead (Stmt.also_of_typesAfter hglobal
    (Expr.map_boundTypesAll (Expr.areBinders_of_symbols h.parameters)))

namespace Reading

variable {x : Read α} {n : Nat}

structure State.Extends (c : State) (binds : List (String × Ty)) (state : State) : Prop where
  procedures : state.procedures = c.procedures
  registry : state.registry = c.registry
  locals : ∀ x, state.locals.get? x = typesAfter c.locals.get? binds x
  words : ∀ token ∈ state.tokens, token.IsWord

namespace State.Extends

theorem of_alike (h : c.Alike s) : c.Extends [] s :=
  ⟨h.procedures, h.registry, fun _ => by rw [h.locals]; rfl, h.words⟩

theorem trans (h : c.Extends binds s) (h' : s.Extends binds' t) :
    c.Extends (binds ++ binds') t where
  procedures := h'.procedures.trans h.procedures
  registry := h'.registry.trans h.registry
  locals x := by
    have hs : s.locals.get? = typesAfter c.locals.get? binds := funext h.locals
    rw [h'.locals, hs, typesAfter_append]
  words := h'.words

theorem alike (h : c.Extends binds s) (h' : s.Alike t) : c.Extends binds t := by
  have := h.trans (of_alike h')
  rwa [append_nil] at this

theorem contains (h : c.Extends binds s) (x : String) :
    s.locals.contains x = true ↔ c.locals.contains x = true ∨ x ∈ binds.map Prod.fst := by
  simp only [Table.contains, ← Option.ne_none_iff_isSome, h.locals, typesAfter_ne_none]

theorem tyOf? (h : c.Extends binds s) : s.tyOf? = typesAfter c.tyOf? binds := by
  funext x
  rw [State.tyOf?, h.procedures, h.registry, h.locals, typesAfter, Option.or_assoc]
  rfl

end State.Extends
variable {p : α → Prop} {inv : State → Prop}

theorem Reads.keeps (hinv : ∀ c s : State, c.Alike s → inv c → inv s)
    (hwords : ∀ c, inv c → ∀ t ∈ c.tokens, t.IsWord)
    (h : ∀ c, Reads c x p) : Triple (fun _ => True) inv x fun a s => p a ∧ inv s := by
  intro c hc
  refine (h c c ⟨rfl, rfl, rfl, hwords c hc⟩).mono fun r hr => ⟨hr.1, hinv c r.2 hr.2 hc⟩

theorem Reads.extends (h : ∀ c, Reads c x p) :
    Triple (fun _ => True) (c.Extends binds) x fun a s => p a ∧ c.Extends binds s :=
  Reads.keeps (fun _ _ hs hc => hc.alike hs) (fun _ hc => hc.words) h

theorem fromState {post : α → State → Prop} (hwords : ∀ c, inv c → ∀ t ∈ c.tokens, t.IsWord)
    (h : ∀ c, inv c → Triple (fun _ => True) c.Alike x post) : Triple (fun _ => True) inv x post :=
  fun c hc => h c hc c ⟨rfl, rfl, rfl, hwords c hc⟩

mutual

def Binder.symbols : Binder → List String
  | .name symbol _ _ => [symbol]
  | .tuple binders => symbolsAll binders

def Binder.symbolsAll : List Binder → List String
  | [] => []
  | binder :: rest => symbols binder ++ symbolsAll rest

end

theorem Reads.readBinders (n : Nat) :
    Reads c (readBinder n) (fun b => ∀ x ∈ b.symbols, IsWritten x) ∧
    Reads c (readMoreBinders n) fun bs => ∀ x ∈ Binder.symbolsAll bs, IsWritten x := by
  induction n with
  | zero => exact ⟨exhausted, exhausted⟩
  | succ n ih =>
    obtain ⟨binder, more⟩ := ih
    have cons : ∀ {b : Binder} {bs : List Binder}, (∀ x ∈ b.symbols, IsWritten x) →
        (∀ x ∈ Binder.symbolsAll bs, IsWritten x) →
        ∀ x ∈ Binder.symbolsAll (b :: bs), IsWritten x := by
      intro b bs hb hbs x hx
      rw [Binder.symbolsAll] at hx
      rcases mem_append.1 hx with hx | hx
      · exact hb x hx
      · exact hbs x hx
    have single : ∀ {name : String} {ty : Option Ty} {span : Span}, IsWritten name →
        ∀ x ∈ (Binder.name name ty span).symbols, IsWritten x := by
      intro name ty span hname x hx
      cases mem_singleton.1 hx
      exact hname
    refine ⟨?_, ?_⟩
    · refine (eat _).bind fun b _ => ?_
      split
      · refine binder.bind fun first hfirst => more.bind fun rest hrest => ?_
        exact (expect _).bind fun _ _ => .pure (cons hfirst hrest)
      · refine readIdentifier.bind fun r hr => (eat _).bind fun b _ => ?_
        split
        · exact (readType n).bind fun _ _ => .pure (single hr)
        · exact .pure (single hr)
    · refine (eat _).bind fun b _ => ?_
      split
      · exact binder.bind fun first hfirst => more.bind fun rest hrest => .pure (cons hfirst hrest)
      · exact .pure nofun

theorem setLocal_extends (name : String) (ty : Ty) :
    Triple (fun _ => True) c.Alike (setLocal name ty) fun _ s => c.Extends [(name, ty)] s := by
  refine Triple.modifies fun s hs => ⟨hs.procedures, hs.registry, fun x => ?_, hs.words⟩
  rw [Table.get?_insert, hs.locals, typesAfter, latest?_singleton]
  split <;> rfl

mutual

theorem bindTarget_extends (ty : Option Ty) : ∀ (binder : Binder) (c : State),
    Triple (fun _ => True) c.Alike (bindTarget ty binder) fun e s =>
      (e.isBinder = true ∧ e.names = binder.symbols) ∧ c.Extends e.boundTypes s
  | .name symbol annotation span, c => by
    rw [bindTarget]
    split
    · exact (setLocal_extends symbol _).bind fun _ => .pure fun s hs => ⟨⟨rfl, rfl⟩, hs⟩
    · exact .throw trivial
  | .tuple binders, c => by
    rw [bindTarget]
    exact (bindTargets_extends _ binders c).andThen fun es hes => .pure fun s hs => ⟨hes, hs⟩

theorem bindTargets_extends (fields : Option (List Ty)) : ∀ (binders : List Binder) (c : State),
    Triple (fun _ => True) c.Alike (bindTargets fields binders) fun es s =>
      (Expr.areBinders es = true ∧ Expr.namesAll es = Binder.symbolsAll binders) ∧ c.Extends (Expr.boundTypesAll es) s
  | [], c => by
    rw [bindTargets]
    exact .pure fun s hs => ⟨⟨rfl, rfl⟩, .of_alike hs⟩
  | binder :: rest, c => by
    rw [bindTargets]
    refine (bindTarget_extends _ binder c).andThen fun e he => fromState (fun _ hs => hs.words) fun s hs => ?_
    refine (bindTargets_extends _ rest s).andThen fun es hes => ?_
    refine .pure fun t ht => ⟨⟨?_, ?_⟩, hs.trans ht⟩
    · rw [Expr.areBinders, he.1, hes.1]
      rfl
    · rw [Expr.namesAll, Binder.symbolsAll, he.2, hes.2]

end

def ReadsBlock (c : State) (x : Read α) (isTyped : (String → Option Ty) → α → Prop)
    (binds : α → List (String × Ty)) : Prop :=
  Triple (fun _ => True) c.Alike x fun a s => isTyped c.tyOf? a ∧ c.Extends (binds a) s

namespace ReadsBlock
variable {β : Type} {isTyped : (String → Option Ty) → α → Prop} {binds : α → List (String × Ty)}
  {isTyped' : (String → Option Ty) → β → Prop} {binds' : β → List (String × Ty)} {y : Read β}

theorem after {p : β → Prop} {f : β → Read α} (hy : Reads c y p)
    (h : ∀ b, p b → ReadsBlock c (f b) isTyped binds) : ReadsBlock c (y >>= f) isTyped binds :=
  Triple.andThen hy h

theorem pure (h : isTyped c.tyOf? a) (hnone : binds a = []) :
    ReadsBlock c (Pure.pure a) isTyped binds :=
  Triple.pure fun _ hs => ⟨h, hnone ▸ .of_alike hs⟩

theorem fail (cause : Cause) (span : Span) : ReadsBlock c (Reading.fail cause span) isTyped binds :=
  Triple.throw trivial

theorem exhausted : ReadsBlock c (Reading.exhausted : Read α) isTyped binds :=
  Triple.mono (Reads.exhausted (p := fun _ => False)) fun _ _ h => h.1.elim

theorem map (h : ReadsBlock c x isTyped binds) {f : α → β}
    (htyped : ∀ a, isTyped c.tyOf? a → isTyped' c.tyOf? (f a)) (hbind : ∀ a, binds' (f a) = binds a) :
    ReadsBlock c (x >>= fun a => Pure.pure (f a)) isTyped' binds' :=
  Triple.andThen h fun a ha => .pure fun _ hs => ⟨htyped a ha, (hbind a).symm ▸ hs⟩

theorem seq {γ : Type} {isTyped'' : (String → Option Ty) → γ → Prop}
    {binds'' : γ → List (String × Ty)} {f : α → β → γ}
    (h : ReadsBlock c x isTyped binds) (hy : ∀ c, ReadsBlock c y isTyped' binds')
    (htyped : ∀ a b, isTyped c.tyOf? a → isTyped' (typesAfter c.tyOf? (binds a)) b → isTyped'' c.tyOf? (f a b))
    (hbind : ∀ a b, binds'' (f a b) = binds a ++ binds' b) :
    ReadsBlock c (x >>= fun a => y >>= fun b => Pure.pure (f a b)) isTyped'' binds'' := by
  refine Triple.andThen h fun a ha => fromState (fun _ hs => hs.words) fun s hs => ?_
  refine Triple.andThen (hy s) fun b hb => .pure fun t ht => ⟨htyped a b ha (hs.tyOf? ▸ hb), ?_⟩
  rw [hbind]
  exact hs.trans ht

end ReadsBlock

structure ReadsStmts (n : Nat) : Prop where
  block : ∀ c, ReadsBlock c (readBlock n) Stmt.AreTyped Stmt.boundTypesAll
  stmts : ∀ c, ReadsBlock c (readStmts n) Stmt.AreTyped Stmt.boundTypesAll
  stmt : ∀ c, ReadsBlock c (readStmt n) Stmt.IsTyped Stmt.boundTypes
  branch : ∀ c, ReadsBlock c (readBranch n) Stmt.IsTyped Stmt.boundTypes
  otherwise : ∀ c, ReadsBlock c (readElse n) Stmt.AreTyped Stmt.boundTypesAll

namespace ReadsStmts

theorem zero : ReadsStmts 0 :=
  ⟨fun _ => .exhausted, fun _ => .exhausted, fun _ => .exhausted, fun _ => .exhausted, fun _ => .exhausted⟩

theorem succ_stmts (h : ReadsStmts n) (c : State) :
    ReadsBlock c (readStmts (n + 1)) Stmt.AreTyped Stmt.boundTypesAll := by
  refine .after (Reads.expectPeek _) fun token _ => ?_
  split
  · exact .pure trivial rfl
  · exact (h.stmt c).seq h.stmts (fun _ _ hs hrest => ⟨hs, hrest⟩) fun _ _ => rfl

theorem succ_stmt (h : ReadsStmts n) (c : State) :
    ReadsBlock c (readStmt (n + 1)) Stmt.IsTyped Stmt.boundTypes := by
  -- the value of a bind is read before its target is known
  have bind : ReadsBlock c (do
      let binder ← readBinder n
      let _ ← expect .equals
      let value ← readExpr n
      let _ ← expect .semicolon
      return .bind (← bindTarget (some value.ty) binder) value) Stmt.IsTyped Stmt.boundTypes := by
    refine .after (Reads.readBinders n).1 fun binder hbinder => .after (Reads.expect _) fun _ _ => ?_
    refine .after (Reads.readExpr n) fun value hvalue => .after (Reads.expect _) fun _ _ => ?_
    refine Triple.andThen (bindTarget_extends _ binder c) fun target htarget => .pure fun s hs => ⟨⟨?_, ?_, ?_⟩, hs⟩
    · exact htarget.1
    · rwa [htarget.2]
    · exact hvalue
  refine .after (Reads.expectPeek _) fun token _ => ?_
  split
  · refine .after Reads.drop fun _ _ => .after (Reads.readExpr n) fun value hvalue => ?_
    exact .after (Reads.expect _) fun _ _ => .pure hvalue rfl
  · exact h.branch c
  · refine .after Reads.drop fun _ _ => .after (Reads.readExpr n) fun test htest => ?_
    exact (h.block c).map (fun _ hbody => ⟨htest, hbody⟩) fun _ => rfl
  · exact bind
  · exact bind
  · exact .fail _ _

theorem succ_branch (h : ReadsStmts n) (c : State) :
    ReadsBlock c (readBranch (n + 1)) Stmt.IsTyped Stmt.boundTypes := by
  refine .after (Reads.expect _) fun _ _ => .after (Reads.readExpr n) fun test htest => ?_
  exact (h.block c).seq h.otherwise (fun _ _ hwhenTrue hwhenFalse => ⟨htest, hwhenTrue, hwhenFalse⟩) fun _ _ => rfl

theorem succ_otherwise (h : ReadsStmts n) (c : State) :
    ReadsBlock c (readElse (n + 1)) Stmt.AreTyped Stmt.boundTypesAll := by
  refine .after (Reads.eat _) fun b _ => ?_
  split
  · refine .after (Reads.nextIs _) fun b _ => ?_
    split
    · exact (h.branch c).map (fun _ hs => ⟨hs, trivial⟩) fun s => by simp [Stmt.boundTypesAll]
    · exact h.block c
  · exact .pure trivial rfl

theorem succ (h : ReadsStmts n) : ReadsStmts (n + 1) where
  block c := by
    refine .after (Reads.expect _) fun _ _ => ?_
    refine Triple.andThen (h.stmts c) fun block hblock => ?_
    refine (Reads.extends fun c => Reads.expect _).andThen fun _ _ => .pure fun s hs => ⟨hblock, hs⟩
  stmts := h.succ_stmts
  stmt := h.succ_stmt
  branch := h.succ_branch
  otherwise := h.succ_otherwise

theorem all (n : Nat) : ReadsStmts n := by
  induction n with
  | zero => exact zero
  | succ n ih => exact ih.succ

end ReadsStmts

structure AreParameters (c : State) (es : List Expr) : Prop where
  names : es.mapM Expr.symbol? = some (Expr.namesAll es)
  nodup : (Expr.namesAll es).Nodup
  written : ∀ x ∈ Expr.namesAll es, IsWritten x
  fresh : ∀ x ∈ Expr.namesAll es, c.locals.contains x = false

namespace AreParameters

theorem nil : AreParameters c [] := ⟨rfl, .nil, by simp, by simp⟩

theorem cons {x : String} {typing : Typing} {es : List Expr} (hx : IsWritten x)
    (hfresh : c.locals.contains x = false) (hs : c.Extends [(x, typing.ty)] s) (hes : AreParameters s es) :
    AreParameters c (.name x typing :: es) := by
  have other : ∀ y ∈ Expr.namesAll es, c.locals.contains y = false ∧ y ≠ x := by
    intro y hy
    have h := hes.fresh y hy
    rw [Bool.eq_false_iff, ne_eq, hs.contains, not_or, map_singleton, mem_singleton] at h
    exact ⟨Bool.eq_false_iff.2 h.1, h.2⟩
  refine ⟨?_, ?_, ?_, ?_⟩
  · rw [mapM_cons, hes.names]
    rfl
  · exact nodup_cons.2 ⟨fun hmem => (other x hmem).2 rfl, hes.nodup⟩
  · exact forall_mem_cons.2 ⟨hx, hes.written⟩
  · intro y hy
    rcases mem_cons.1 hy with rfl | hy
    · exact hfresh
    · exact (other y hy).1

theorem readParameter {rest : Read (List Expr)} (hrest : ∀ c, Triple (fun _ => True) c.Alike rest
      fun es s => AreParameters c es ∧ c.Extends (Expr.boundTypesAll es) s) :
    Triple (fun _ => True) c.Alike (Reading.readParameter n >>= fun e => rest >>= fun es => .pure (e :: es))
      fun es s => AreParameters c es ∧ c.Extends (Expr.boundTypesAll es) s := by
  have first : Triple (fun _ => True) c.Alike (Reading.readParameter n) fun e s =>
      (∃ x typing, e = .name x typing ∧ IsWritten x ∧ c.locals.contains x = false) ∧ c.Extends e.boundTypes s := by
    refine Triple.andThen Reads.readIdentifier fun r hr => Triple.andThen (Reads.expect _) fun _ _ => ?_
    refine Triple.andThen (Reads.readType n) fun ty _ => Triple.andThen Preserves.get fun t ht => ?_
    split
    · exact .throw trivial
    · rename_i hnew
      rw [ht.locals] at hnew
      refine Triple.bind (setLocal_extends r.1 ty) fun _ => .pure fun s hs => ⟨?_, hs⟩
      exact ⟨r.1, ⟨ty, none⟩, rfl, hr, Bool.eq_false_iff.2 hnew⟩
  refine first.andThen fun e he => fromState (fun _ hs => hs.words) fun s hs => ?_
  obtain ⟨x, typing, rfl, hx, hfresh⟩ := he
  exact (hrest s).andThen fun es hes => .pure fun t ht => ⟨cons hx hfresh hs hes, hs.trans ht⟩

theorem readMore (n : Nat) : ∀ c, Triple (fun _ => True) c.Alike (readMoreParameters n) fun es s =>
    AreParameters c es ∧ c.Extends (Expr.boundTypesAll es) s := by
  induction n with
  | zero =>
    intro c
    exact Triple.mono (Reads.exhausted (p := fun _ => False)) fun _ _ h => h.1.elim
  | succ n ih =>
    intro c
    refine Triple.andThen (Reads.eat _) fun b _ => ?_
    split
    · exact readParameter ih
    · exact .pure fun s hs => ⟨nil, .of_alike hs⟩

theorem readAll (n : Nat) : Triple (fun _ => True) c.Alike (readParameters n) fun es s =>
    AreParameters c es ∧ c.Extends (Expr.boundTypesAll es) s := by
  refine Triple.andThen (Reads.nextIs _) fun b _ => ?_
  split
  · exact .pure fun s hs => ⟨nil, .of_alike hs⟩
  · exact readParameter (readMore n)

end AreParameters

theorem Reads.readMoreVariables (n : Nat) :
    Reads c (Reading.readMoreVariables n) fun _ => True := by
  induction n with
  | zero => exact exhausted
  | succ n ih =>
    refine (eat _).bind fun b _ => ?_
    split
    · exact readIdentifier.bind fun _ _ => ih.bind fun _ _ => .pure trivial
    · exact .pure trivial

theorem Reads.readTypeVariables (n : Nat) :
    Reads c (Reading.readTypeVariables n) fun _ => True := by
  refine (eat _).bind fun b _ => ?_
  split
  · refine readIdentifier.bind fun _ _ => (readMoreVariables n).bind fun _ _ => ?_
    exact (expect _).bind fun _ _ => .pure trivial
  · exact .pure trivial

theorem contains_insert {key x : String} {value : α} :
    (table.insert key value).contains x = true ↔ x = key ∨ table.contains x = true := by
  rw [Table.contains, Table.get?_insert]
  by_cases hx : x = key
  · simp [hx]
  · simp [hx, Table.contains]

end Reading

namespace Item

def declaration? : Item → Option (String × Signature)
  | .declaration name signature => some (name, signature)
  | .procedure _ => none

def declarations (items : List Item) : List (String × Signature) := items.filterMap declaration?

def procedureType? : Item → Option (String × Ty)
  | .declaration .. => none
  | .procedure p => p.symbol?.map fun x => (x, p.name.ty)

def procedureTypes (items : List Item) : List (String × Ty) := items.filterMap procedureType?

theorem declarations_append :
    declarations (items ++ items') = declarations items ++ declarations items' :=
  filterMap_append

theorem procedureTypes_append :
    procedureTypes (items ++ items') = procedureTypes items ++ procedureTypes items' :=
  filterMap_append

theorem map_procedureTypes : ∀ items : List Item,
    (procedureTypes items).map Prod.fst = (items.filterMap procedure?).filterMap Procedure.symbol?
  | [] => rfl
  | .declaration .. :: items => map_procedureTypes items
  | .procedure p :: items => by
    have ih := map_procedureTypes items
    rw [procedureTypes] at ih ⊢
    rw [filterMap_cons, filterMap_cons, procedureType?, procedure?, filterMap_cons]
    cases hx : p.symbol? <;> simp [ih]

theorem split_of_mem {p : Procedure} (h : p ∈ items.filterMap procedure?) :
    ∃ before after, items = before ++ .procedure p :: after := by
  obtain ⟨item, hitem, hp⟩ := mem_filterMap.1 h
  cases item with
  | declaration => cases hp
  | procedure q =>
    cases hp
    exact append_of_mem hitem

/-- The types of names outside of procedures, behind some items: a procedure hides what is
registered. -/
def typesBehind (procedures : String → Option Ty) (registered : String → Option Signature) (items : List Item)
    (x : String) : Option Ty :=
  (typesAfter procedures (procedureTypes items) x).or
    (((Name.latest? (declarations items) x).or (registered x)).map Signature.ty)

end Item

namespace Reading

structure AreItems (c : State) (items : List Item) (state : State) : Prop where
  typed : ∀ before p after, items = before ++ .procedure p :: after →
    p.IsTyped (Item.typesBehind c.procedures.get? c.registry.get? (before ++ [.procedure p]))
  procedures : ∀ x, state.procedures.get? x = typesAfter c.procedures.get? (Item.procedureTypes items) x
  registry : ∀ x, state.registry.get? x = (Name.latest? (Item.declarations items) x).or (c.registry.get? x)
  nodup : ((Item.procedureTypes items).map Prod.fst).Nodup
  fresh : ∀ x ∈ (Item.procedureTypes items).map Prod.fst, c.procedures.contains x = false
  apart : (∀ x, c.procedures.contains x = true → c.registry.contains x = false) →
    ∀ x, state.procedures.contains x = true → state.registry.contains x = false
  written : ∀ d ∈ Item.declarations items, IsWritten d.1
  words : ∀ token ∈ state.tokens, token.IsWord

namespace AreItems

theorem nil (h : c.Alike s) : AreItems c [] s where
  typed before p after h := absurd h (by simp)
  procedures _ := by rw [h.procedures]; rfl
  registry _ := by rw [h.registry]; rfl
  nodup := .nil
  fresh _ hx := absurd hx not_mem_nil
  apart hc := by rw [h.procedures, h.registry]; exact hc
  written _ hd := absurd hd not_mem_nil
  words := h.words

theorem of_locals (h : AreItems { c with locals := ∅ } items s) : AreItems c items s :=
  ⟨h.typed, h.procedures, h.registry, h.nodup, h.fresh, h.apart, h.written, h.words⟩

theorem typesBehind_append (h : AreItems c items s) (items' : List Item) :
    Item.typesBehind s.procedures.get? s.registry.get? items' =
      Item.typesBehind c.procedures.get? c.registry.get? (items ++ items') := by
  funext x
  have hprocedures : s.procedures.get? = typesAfter c.procedures.get? (Item.procedureTypes items) :=
    funext h.procedures
  rw [Item.typesBehind, Item.typesBehind, hprocedures, h.registry, Item.procedureTypes_append,
    Item.declarations_append, typesAfter_append, latest?_append, Option.or_assoc]

theorem append (h : AreItems c items s) (h' : AreItems s items' t) :
    AreItems c (items ++ items') t where
  typed before p after hsplit := by
    have behind : ∀ rest, items' = rest ++ .procedure p :: after →
        p.IsTyped (Item.typesBehind c.procedures.get? c.registry.get? (items ++ rest ++ [.procedure p])) := by
      intro rest hrest
      rw [append_assoc, ← h.typesBehind_append]
      exact h'.typed rest p after hrest
    rcases append_eq_append_iff.1 hsplit with ⟨rest, rfl, hrest⟩ | ⟨rest, hitems, hrest⟩
    · exact behind rest hrest
    · cases rest with
      | nil =>
        rw [append_nil] at hitems
        have := behind [] hrest.symm
        rwa [append_nil, hitems] at this
      | cons item rest =>
        cases hrest
        exact h.typed before p rest hitems
  procedures x := by
    have hprocedures : s.procedures.get? = typesAfter c.procedures.get? (Item.procedureTypes items) :=
      funext h.procedures
    rw [h'.procedures, hprocedures, Item.procedureTypes_append, typesAfter_append]
  registry x := by rw [h'.registry, h.registry, Item.declarations_append, latest?_append, Option.or_assoc]
  nodup := by
    rw [Item.procedureTypes_append, map_append, nodup_append]
    refine ⟨h.nodup, h'.nodup, fun x hx y hy hxy => ?_⟩
    have hfresh := h'.fresh y hy
    rw [Table.contains, h.procedures, Option.isSome_eq_false_iff, Option.isNone_iff_eq_none] at hfresh
    exact typesAfter_ne_none.2 (.inr (hxy ▸ hx)) hfresh
  fresh x hx := by
    rw [Item.procedureTypes_append, map_append, mem_append] at hx
    rcases hx with hx | hx
    · exact h.fresh x hx
    · have hfresh := h'.fresh x hx
      rw [Table.contains, h.procedures, Option.isSome_eq_false_iff, Option.isNone_iff_eq_none] at hfresh
      rw [Table.contains, Option.isSome_eq_false_iff, Option.isNone_iff_eq_none]
      exact not_not.1 fun hx => typesAfter_ne_none.2 (.inl hx) hfresh
  apart hc := h'.apart (h.apart hc)
  written d hd := by
    rw [Item.declarations_append, mem_append] at hd
    exact hd.elim (h.written d) (h'.written d)
  words := h'.words

theorem readDeclaration (n : Nat) :
    Triple (fun _ => True) c.Alike (Reading.readDeclaration n) fun item s => AreItems c [item] s := by
  refine Triple.andThen (Reads.expect _) fun _ _ => Triple.andThen Reads.readIdentifier fun r hr => ?_
  refine Triple.andThen (Reads.expect _) fun _ _ => Triple.andThen (Reads.readType n) fun ty _ => ?_
  refine Triple.andThen (Reads.expect _) fun token _ => ?_
  split
  · exact .throw trivial
  · rename_i synchronization _
    refine Triple.andThen (Reads.expect _) fun _ _ => ?_
    split
    · exact .throw trivial
    · refine Triple.andThen Preserves.get fun t ht => ?_
      split
      · exact .throw trivial
      · rename_i hnew
        rw [ht.procedures] at hnew
        refine Triple.bind (m := fun _ s => AreItems c [.declaration r.1 ⟨ty, synchronization⟩] s)
          (.modifies fun s hs => ?_) fun _ => .pure fun s hs => hs
        refine ⟨fun before p after hsplit => ?_, fun x => ?_, fun x => ?_, .nil, ?_, fun hc x hx => ?_, ?_, hs.words⟩
        · cases before with
          | nil => cases hsplit
          | cons item before => cases before <;> cases hsplit
        · rw [hs.procedures]
          rfl
        · show (Table.insert _ _ _).get? x = _
          rw [Table.get?_insert, hs.registry]
          show _ = (Name.latest? [(r.1, _)] x).or _
          rw [latest?_singleton]
          split <;> rfl
        · exact nofun
        · rw [hs.procedures] at hx
          rw [Bool.eq_false_iff]
          intro hcontains
          rw [Registry.contains, Registry.insert, contains_insert, hs.registry] at hcontains
          rcases hcontains with rfl | hcontains
          · exact hnew hx
          · exact Bool.eq_false_iff.1 (hc x hx) hcontains
        · exact forall_mem_singleton.2 hr

theorem readBody {name : String} {ty result : Ty} {parameters : List Expr} (n : Nat)
    (hc : c.locals = ∅)
    (hty : ty.unquantified.2 = .function (parameters.map Expr.ty) result) (hname : IsWritten name)
    (hprocedures : c.procedures.contains name = false) (hregistry : c.registry.contains name = false)
    (hparameters : AreParameters c parameters) (hs : c.Extends (Expr.boundTypesAll parameters) s) :
    Triple (fun _ => True) (State.Alike { s with procedures := s.procedures.insert name ty }) (readBlock n)
      fun body s => AreItems c [.procedure ⟨.name name ⟨ty, none⟩, parameters, body⟩] s := by
  have hself : (s.procedures.insert name ty).get? = typesAfter c.procedures.get? [(name, ty)] := by
    funext x
    rw [Table.get?_insert, hs.procedures, typesAfter, latest?_singleton]
    split <;> rfl
  -- the parameters hide the procedure, which hides the others
  have hknown : State.tyOf? { s with procedures := s.procedures.insert name ty } =
      typesAfter (Item.typesBehind c.procedures.get? c.registry.get?
        [.procedure ⟨.name name ⟨ty, none⟩, parameters, []⟩]) (Expr.boundTypesAll parameters) := by
    funext x
    have hlocal : s.locals.get? x = Name.latest? (Expr.boundTypesAll parameters) x := by
      rw [hs.locals, hc]
      exact Option.or_none
    show (s.locals.get? x).or (((s.procedures.insert name ty).get? x).or _) = _
    rw [hlocal, hself, hs.registry]
    rfl
  refine Triple.mono ((ReadsStmts.all n).block _) fun body t ht => ?_
  refine ⟨fun before p after hsplit => ?_, fun x => ?_, fun x => ?_, pairwise_singleton _ name, fun x hx => ?_,
    fun hapart x hx => ?_, nofun, ht.2.words⟩
  · cases before with
    | cons item before => cases before <;> cases hsplit
    | nil =>
      cases hsplit
      refine ⟨⟨name, ty, result, rfl, hname, ?_, hty⟩, hparameters.names, hparameters.nodup, hparameters.written,
        hknown ▸ ht.1⟩
      show ((Name.latest? [(name, ty)] name).or _).or _ = _
      rw [latest?_singleton, if_pos rfl]
      rfl
  · rw [ht.2.procedures, hself]
    rfl
  · rw [ht.2.registry, hs.registry]
    rfl
  · cases mem_singleton.1 hx
    exact hprocedures
  · rw [ht.2.procedures, contains_insert, hs.procedures] at hx
    rw [ht.2.registry, hs.registry]
    rcases hx with rfl | hx
    · exact hregistry
    · exact hapart x hx

theorem readProcedure (n : Nat) :
    Triple (fun _ => True) c.Alike (Reading.readProcedure n) fun item s => AreItems c [item] s := by
  refine Triple.andThen (Reads.expect _) fun _ _ => Triple.andThen Reads.readIdentifier fun r hr => ?_
  refine Triple.andThen Preserves.get fun t ht => ?_
  split
  · exact .throw trivial
  · rename_i hnew
    rw [ht.procedures, ht.registry, Bool.or_eq_true, not_or, Bool.not_eq_true, Bool.not_eq_true] at hnew
    refine Triple.andThen (Reads.readTypeVariables n) fun binders _ => ?_
    -- the locals of the procedure read before are forgotten
    let d : State := { c with locals := ∅ }
    refine Triple.bind (m := fun _ => d.Alike) (.modifies fun s hs => ?_) fun _ => ?_
    · exact ⟨rfl, hs.procedures, hs.registry, hs.words⟩
    refine Triple.andThen (Reads.expect _) fun _ _ => ?_
    refine (AreParameters.readAll n).andThen fun parameters hparameters => ?_
    refine (Reads.extends fun _ => Reads.expect _).andThen fun _ _ => ?_
    refine (Reads.extends fun _ => Reads.expect _).andThen fun _ _ => ?_
    refine (Reads.extends fun _ => Reads.readType n).andThen fun result _ => ?_
    refine fromState (fun _ hs => hs.words) fun s hs => ?_
    have hty : (if binders.isEmpty then Ty.function (parameters.map Expr.ty) result
        else .quantified binders (.function (parameters.map Expr.ty) result)).unquantified.2 =
          .function (parameters.map Expr.ty) result := by
      split <;> rfl
    refine Triple.bind (m := fun _ => State.Alike { s with procedures := s.procedures.insert r.1 _ })
      (.modifies fun t ht => ⟨ht.locals, congrArg (Table.insert · r.1 _) ht.procedures, ht.registry, ht.words⟩)
      fun _ => ?_
    exact Triple.bind (readBody (c := d) n rfl hty hr hnew.1 hnew.2 hparameters hs) fun body =>
      .pure fun s hs => hs.of_locals

theorem readItems (n : Nat) :
    ∀ c : State, Triple (fun _ => True) c.Alike (Reading.readItems n) (AreItems c) := by
  induction n with
  | zero =>
    intro c
    exact Triple.mono (Reads.exhausted (p := fun _ => False)) fun _ _ h => h.1.elim
  | succ n ih =>
    intro c
    refine Triple.andThen Reads.peek? fun token _ => ?_
    split
    · exact .pure fun s hs => nil hs
    · split
      · refine (readDeclaration n).bind fun item => fromState (fun _ hs => hs.words) fun s hs => ?_
        exact (ih s).bind fun items => .pure fun t ht => hs.append ht
      · refine (readProcedure n).bind fun item => fromState (fun _ hs => hs.words) fun s hs => ?_
        exact (ih s).bind fun items => .pure fun t ht => hs.append ht
      · exact .throw trivial

end AreItems

end Reading

/-- A name that stands for a procedure of a unit, or for one that it may call. -/
def SourceUnit.Declares (unit : SourceUnit) (x : String) : Prop :=
  (∃ p ∈ unit.module.procedures, p.symbol? = some x) ∨ unit.registry.contains x = true

namespace Reading

theorem items?_of_ofText? (h : SourceUnit.ofText? text = .ok unit) :
    ∃ items state, items? text = .ok (items, state) ∧
    unit.module = (items.filterMap Item.procedure?).map Procedure.toStmt ∧ unit.registry = state.registry := by
  obtain ⟨⟨items, state⟩, hitems, hunit⟩ := Except.bind_ok_iff.1 h
  cases hunit
  exact ⟨items, state, hitems, rfl, rfl⟩

theorem areItems_of_items? (h : items? text = .ok (items, state)) :
    AreItems (.initial (Token.ofText text) (Source.size text)) items state :=
  (AreItems.readItems _ _ _ ⟨rfl, rfl, rfl, Token.scan_words _⟩).of_ok h

end Reading

theorem SourceUnit.ofText?_isTyped (h : ofText? text = .ok unit) :
    ∀ st ∈ unit.module, ∃ (p : Procedure) (types : String → Option Ty), st = p.toStmt ∧ p.IsTyped types := by
  obtain ⟨items, state, hitems, hmodule, -⟩ := Reading.items?_of_ofText? h
  intro st hst
  rw [hmodule] at hst
  obtain ⟨p, hp, rfl⟩ := mem_map.1 hst
  obtain ⟨before, after, hsplit⟩ := Item.split_of_mem hp
  exact ⟨p, _, rfl, (Reading.areItems_of_items? hitems).typed before p after hsplit⟩

theorem Module.procedures_map_toStmt (ps : List Procedure) :
    Module.procedures (ps.map Procedure.toStmt) = ps := by
  rw [Module.procedures, filterMap_map]
  exact filterMap_some

theorem Reading.declares_of_typesBehind {before after : List Item} (hc : c.procedures = ∅)
    (known : AreItems c (before ++ after) state)
    (hmodule : unit.module = ((before ++ after).filterMap Item.procedure?).map Procedure.toStmt)
    (hregistry : unit.registry = state.registry)
    (hx : Item.typesBehind c.procedures.get? c.registry.get? before x ≠ none) : unit.Declares x := by
  rw [Item.typesBehind, ne_eq, Option.or_eq_none_iff, Option.map_eq_none_iff, Option.or_eq_none_iff] at hx
  by_cases hprocedure : typesAfter c.procedures.get? (Item.procedureTypes before) x = none
  · refine .inr ?_
    rw [Registry.contains, Table.contains, ← Option.ne_none_iff_isSome, hregistry]
    show state.registry.get? x ≠ none
    rw [known.registry, Item.declarations_append, latest?_append]
    simp only [ne_eq, Option.or_eq_none_iff]
    exact fun h => hx ⟨hprocedure, h.1.2, h.2⟩
  · rcases typesAfter_ne_none.1 hprocedure with h | h
    · rw [hc] at h
      exact absurd rfl h
    · rw [Item.map_procedureTypes] at h
      obtain ⟨p, hp, hsymbol⟩ := mem_filterMap.1 h
      refine .inl ⟨p, ?_, hsymbol⟩
      rw [hmodule, Module.procedures_map_toStmt, filterMap_append]
      exact mem_append_left _ hp

/-- A unit that was read consists of procedures whose names are in scope. -/
theorem SourceUnit.ofText?_isRead (h : ofText? text = .ok unit) :
    ∀ st ∈ unit.module, ∃ p : Procedure, st = p.toStmt ∧ p.IsRead unit.Declares := by
  obtain ⟨items, state, hitems, hmodule, hregistry⟩ := Reading.items?_of_ofText? h
  have known := Reading.areItems_of_items? hitems
  intro st hst
  rw [hmodule] at hst
  obtain ⟨p, hp, rfl⟩ := mem_map.1 hst
  obtain ⟨before, after, rfl⟩ := Item.split_of_mem hp
  refine ⟨p, rfl, (known.typed before p after rfl).isRead fun x hx => ?_⟩
  have hbehind : before ++ Item.procedure p :: after = (before ++ [.procedure p]) ++ after := by simp
  rw [hbehind] at known hmodule
  exact Reading.declares_of_typesBehind rfl known hmodule hregistry hx

theorem Table.mem_keys : x ∈ table.keys ↔ table.contains x = true := by
  simp [keys, contains, get?, lookup_isSome_iff]

theorem Registry.standard_written (h : Registry.standard.contains x = true) : IsWritten x := by
  have hkeys : ∀ x ∈ Registry.standard.signatures.keys, x.toList.head? ≠ some '_' ∧
      x.toList.all Token.isWordPart = true := by decide +kernel
  exact .of_all (hkeys x (Table.mem_keys.2 h)).1 (hkeys x (Table.mem_keys.2 h)).2

theorem SourceUnit.ofText?_declares (h : ofText? text = .ok unit) :
    ∀ x, unit.Declares x → IsWritten x := by
  rintro x (⟨p, hp, hx⟩ | hx)
  · obtain ⟨st, hst, hp⟩ := mem_filterMap.1 hp
    obtain ⟨q, rfl, ⟨y, ty, hname, hwritten, -⟩, -⟩ := ofText?_isRead h st hst
    cases hp
    rw [Procedure.symbol?, hname] at hx
    cases hx
    exact hwritten
  · obtain ⟨items, state, hitems, -, hregistry⟩ := Reading.items?_of_ofText? h
    have known := Reading.areItems_of_items? hitems
    rw [Registry.contains, Table.contains, ← Option.ne_none_iff_isSome, hregistry] at hx
    change state.registry.get? x ≠ none at hx
    rw [known.registry, ne_eq, Option.or_eq_none_iff, not_and_or, ← ne_eq, latest?_ne_none] at hx
    rcases hx with hx | hx
    · obtain ⟨d, hd, rfl⟩ := mem_map.1 hx
      exact known.written d hd
    · exact Registry.standard_written (Option.ne_none_iff_isSome.1 hx)

end DataParallel
