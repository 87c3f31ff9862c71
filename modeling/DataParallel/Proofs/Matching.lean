import DataParallel.Proofs.Substitution
import Mathlib.Data.List.Nodup

/-! Matching a type with variables against a concrete one.

A match is the list of what its variables meet, in the order of their places. The first meeting of a
variable decides its binding, so the instance at some arguments has these as its parameters if no
variable meets two types. -/

namespace DataParallel.Ty

open List

variable {result ty : Ty} {parameters types : List Ty} {bindings : Table Ty} {x : String}
  {meetings : List (String × Ty)}

mutual

def occurrences (binders : List String) : Ty → List String
  | .named a ps =>
    match variableOf? binders (.named a ps) with
    | some name => [name]
    | none => occurrencesAll binders ps
  | .sequence element => occurrences binders element
  | .tuple fields => occurrencesAll binders fields
  | .function parameters result => occurrencesAll binders parameters ++ occurrences binders result
  | .quantified _ body => occurrences binders body

def occurrencesAll (binders : List String) : List Ty → List String
  | [] => []
  | ty :: rest => occurrences binders ty ++ occurrencesAll binders rest

end

/-- The occurrences of type variables in the parameters of a function type. -/
def parameterVariables (ty : Ty) : List String :=
  match ty.unquantified.2 with
  | .function parameters _ => occurrencesAll ty.unquantified.1 parameters
  | _ => []

/-- Arguments of a function type, with one type for each of its variables. -/
def Admits (ty : Ty) (types : List Ty) : Prop :=
  ∃ parameters result, ty.unquantified.2 = .function parameters result ∧
    ∃ bindings : Table Ty, (∀ x, bindings.contains x = true → x ∈ ty.unquantified.1) ∧
      substituteAll bindings parameters = types

mutual

/-- The variables of a type with what they stand against in a concrete one. -/
def meets? (binders : List String) : Ty → Ty → Option (List (String × Ty))
  | .named a ps, concrete =>
    match variableOf? binders (.named a ps) with
    | some name => some [(name, concrete)]
    | none =>
      match concrete with
      | .named b qs => if a = b then meetsAll? binders ps qs else none
      | _ => none
  | .sequence a, .sequence b => meets? binders a b
  | .tuple as, .tuple bs => meetsAll? binders as bs
  | .function ps a, .function qs b => do return (← meetsAll? binders ps qs) ++ (← meets? binders a b)
  | _, _ => none

def meetsAll? (binders : List String) : List Ty → List Ty → Option (List (String × Ty))
  | [], [] => some []
  | a :: as, b :: bs => do return (← meets? binders a b) ++ (← meetsAll? binders as bs)
  | _, _ => none

end

def bindAll (bindings : Table Ty) (meetings : List (String × Ty)) : Table Ty :=
  meetings.foldl (fun bindings meeting => bindFirst bindings meeting.1 meeting.2) bindings

variable {binders : List String}

mutual

theorem match?_eq_meets? : ∀ (p q : Ty) (bindings : Table Ty),
    match? binders p q bindings = (meets? binders p q).map (bindAll bindings)
  | .named a ps, q, bindings => by
    unfold match? meets?
    cases variableOf? binders (.named a ps) with
    | some name => rfl
    | none =>
      cases q with
      | named b qs =>
        by_cases hab : a = b
        · simp only [hab, if_true]
          exact matchAll?_eq_meetsAll? ps qs bindings
        · simp only [hab, if_false, Option.map_none]
      | _ => rfl
  | .sequence a, q, bindings => by
    cases q with
    | sequence b => exact match?_eq_meets? a b bindings
    | _ => rfl
  | .tuple as, q, bindings => by
    cases q with
    | tuple bs => exact matchAll?_eq_meetsAll? as bs bindings
    | _ => rfl
  | .function ps a, q, bindings => by
    cases q with
    | function qs b =>
      rw [match?, meets?, matchAll?_eq_meetsAll? ps qs]
      cases meetsAll? binders ps qs with
      | none => rfl
      | some first =>
        show match? binders a b (bindAll bindings first) = _
        rw [match?_eq_meets? a b]
        cases meets? binders a b with
        | none => rfl
        | some second => exact congrArg some foldl_append.symm
    | _ => rfl
  | .quantified vs a, q, bindings => by cases q <;> rfl

theorem matchAll?_eq_meetsAll? : ∀ (ps qs : List Ty) (bindings : Table Ty),
    matchAll? binders ps qs bindings = (meetsAll? binders ps qs).map (bindAll bindings)
  | [], [], bindings => rfl
  | [], _ :: _, bindings => rfl
  | _ :: _, [], bindings => rfl
  | p :: ps, q :: qs, bindings => by
    rw [matchAll?, meetsAll?, match?_eq_meets? p q]
    cases meets? binders p q with
    | none => rfl
    | some first =>
      show matchAll? binders ps qs (bindAll bindings first) = _
      rw [matchAll?_eq_meetsAll? ps qs]
      cases meetsAll? binders ps qs with
      | none => rfl
      | some second => exact congrArg some foldl_append.symm

end

mutual

theorem map_meets? :
    ∀ {p q : Ty} {meetings : List (String × Ty)}, meets? binders p q = some meetings →
    meetings.map Prod.fst = occurrences binders p
  | .named a ps, q, meetings, h => by
    unfold meets? at h
    unfold occurrences
    cases hvariable : variableOf? binders (.named a ps) with
    | some name =>
      rw [hvariable] at h
      cases h
      rfl
    | none =>
      rw [hvariable] at h
      cases q with
      | named b qs =>
        dsimp only at h
        split at h
        · exact map_meetsAll? h
        · cases h
      | _ => cases h
  | .sequence a, q, meetings, h => by
    cases q with
    | sequence b => exact map_meets? (p := a) h
    | _ => cases h
  | .tuple as, q, meetings, h => by
    cases q with
    | tuple bs => exact @map_meetsAll? as _ _ h
    | _ => cases h
  | .function ps a, q, meetings, h => by
    cases q with
    | function qs b =>
      obtain ⟨first, hfirst, h⟩ := Option.bind_eq_some_iff.1 h
      obtain ⟨second, hsecond, h⟩ := Option.bind_eq_some_iff.1 h
      cases h
      rw [map_append, map_meetsAll? hfirst, map_meets? hsecond, occurrences]
    | _ => cases h
  | .quantified vs a, q, meetings, h => by cases q <;> cases h

theorem map_meetsAll? :
    ∀ {ps qs : List Ty} {meetings : List (String × Ty)}, meetsAll? binders ps qs = some meetings →
    meetings.map Prod.fst = occurrencesAll binders ps
  | [], [], _, h => by
    cases h
    rfl
  | [], _ :: _, _, h => by cases h
  | _ :: _, [], _, h => by cases h
  | p :: ps, q :: qs, _, h => by
    obtain ⟨first, hfirst, h⟩ := Option.bind_eq_some_iff.1 h
    obtain ⟨second, hsecond, h⟩ := Option.bind_eq_some_iff.1 h
    cases h
    rw [map_append, map_meets? hfirst, map_meetsAll? hsecond, occurrencesAll]

end

theorem variableOf?_eq_some {name : String} (h : variableOf? binders ty = some name) :
    ty = .named name [] :=
  variableName?_eq_some (Option.filter_eq_some_iff.1 h).1

def Binds (binders : List String) (bindings : Table Ty) : Prop :=
  ∀ x, bindings.contains x = true → variableOf? binders (.named x []) = some x

theorem substitute_named (hbindings : Binds binders bindings) {a : String} {ps : List Ty}
    (h : variableOf? binders (.named a ps) = none) :
    substitute bindings (.named a ps) = .named a (substituteAll bindings ps) := by
  cases ps with
  | nil =>
    have hnone : bindings.get? a = none := by
      by_contra hsome
      rw [hbindings a (Option.ne_none_iff_isSome.1 hsome)] at h
      cases h
    rw [substitute, hnone]
    rfl
  | cons => rfl

mutual

theorem substitute_eq_iff (hbindings : Binds binders bindings) :
    ∀ {p q : Ty} {meetings : List (String × Ty)}, meets? binders p q = some meetings →
    (substitute bindings p = q ↔ ∀ meeting ∈ meetings, valueOf bindings meeting.1 = meeting.2)
  | .named a ps, q, meetings, h => by
    unfold meets? at h
    cases hvariable : variableOf? binders (.named a ps) with
    | some name =>
      rw [hvariable] at h
      cases h
      cases variableOf?_eq_some hvariable
      rw [substitute, forall_mem_singleton]
      rfl
    | none =>
      rw [hvariable] at h
      cases q with
      | named b qs =>
        dsimp only at h
        split at h
        · rename_i hab
          cases hab
          rw [← substituteAll_eq_iff hbindings h, substitute_named hbindings hvariable, named.injEq,
            eq_self, true_and]
        · cases h
      | _ => cases h
  | .sequence a, q, meetings, h => by
    cases q with
    | sequence b =>
      rw [substitute, sequence.injEq]
      exact substitute_eq_iff hbindings h
    | _ => cases h
  | .tuple as, q, meetings, h => by
    cases q with
    | tuple bs =>
      rw [substitute, tuple.injEq]
      exact substituteAll_eq_iff hbindings h
    | _ => cases h
  | .function ps a, q, meetings, h => by
    cases q with
    | function qs b =>
      obtain ⟨first, hfirst, h⟩ := Option.bind_eq_some_iff.1 h
      obtain ⟨second, hsecond, h⟩ := Option.bind_eq_some_iff.1 h
      cases h
      rw [substitute, function.injEq, substituteAll_eq_iff hbindings hfirst, substitute_eq_iff hbindings hsecond,
        forall_mem_append]
    | _ => cases h
  | .quantified vs a, q, meetings, h => by cases q <;> cases h

theorem substituteAll_eq_iff (hbindings : Binds binders bindings) :
    ∀ {ps qs : List Ty} {meetings : List (String × Ty)}, meetsAll? binders ps qs = some meetings →
    (substituteAll bindings ps = qs ↔ ∀ meeting ∈ meetings, valueOf bindings meeting.1 = meeting.2)
  | [], [], _, h => by
    cases h
    simp [substituteAll]
  | [], _ :: _, _, h => by cases h
  | _ :: _, [], _, h => by cases h
  | p :: ps, q :: qs, _, h => by
    obtain ⟨first, hfirst, h⟩ := Option.bind_eq_some_iff.1 h
    obtain ⟨second, hsecond, h⟩ := Option.bind_eq_some_iff.1 h
    cases h
    rw [substituteAll, cons.injEq, substitute_eq_iff hbindings hfirst, substituteAll_eq_iff hbindings hsecond,
      forall_mem_append]

end

theorem get?_bindFirst (bindings : Table Ty) (name : String) (ty : Ty) (x : String) :
    (bindFirst bindings name ty).get? x = (bindings.get? x).or (if x = name then some ty else none) := by
  rw [bindFirst]
  by_cases hx : x = name
  · subst hx
    rw [if_pos rfl, Table.contains]
    cases hget : bindings.get? x with
    | none => simp
    | some old => simp [hget]
  · rw [if_neg hx, Option.or_none]
    split
    · rfl
    · rw [Table.get?_insert, if_neg hx]

theorem get?_bindAll (meetings : List (String × Ty)) : ∀ (bindings : Table Ty) (x : String),
    (bindAll bindings meetings).get? x = (bindings.get? x).or (meetings.lookup x) := by
  induction meetings with
  | nil => exact fun bindings x => Option.or_none.symm
  | cons meeting meetings ih =>
    intro bindings x
    obtain ⟨name, ty⟩ := meeting
    rw [bindAll, foldl_cons, ← bindAll, ih, get?_bindFirst, Option.or_assoc, lookup_cons]
    by_cases hx : x = name
    · simp [hx]
    · simp [hx, beq_false_of_ne hx]

def Agree (meetings : List (String × Ty)) : Prop :=
  ∀ x a b, (x, a) ∈ meetings → (x, b) ∈ meetings → a = b

theorem Agree.lookup (h : Agree meetings) (hx : (x, ty) ∈ meetings) :
    meetings.lookup x = some ty := by
  have hsome : (meetings.lookup x).isSome = true := by
    rw [lookup_isSome_iff]
    exact ⟨(x, ty), hx, beq_self_eq_true x⟩
  obtain ⟨other, hother⟩ := Option.isSome_iff_exists.1 hsome
  obtain ⟨before, after, hsplit, -⟩ := lookup_eq_some_iff.1 hother
  rw [hother, h x other ty (hsplit ▸ mem_append_right _ mem_cons_self) hx]

theorem agree_of_nodup (h : (meetings.map Prod.fst).Nodup) : Agree meetings := by
  intro x a b ha hb
  exact congrArg Prod.snd (inj_on_of_nodup_map h ha hb rfl)

theorem Agree.of_values (h : ∀ meeting ∈ meetings, valueOf bindings meeting.1 = meeting.2) :
    Agree meetings := by
  intro x a b ha hb
  exact (h _ ha).symm.trans (h _ hb)

theorem Agree.values (h : Agree meetings) :
    ∀ meeting ∈ meetings, valueOf (bindAll ∅ meetings) meeting.1 = meeting.2 := by
  intro meeting hmeeting
  rw [valueOf, get?_bindAll, h.lookup hmeeting]
  rfl

theorem variableOf?_of_mem (h : x ∈ ty.unquantified.1) :
    variableOf? ty.unquantified.1 (.named x []) = some x := by
  cases ty with
  | quantified binders body =>
    obtain ⟨binder, -, hbinder⟩ := mem_filterMap.1 h
    have hname : variableName? (.named x []) = some x := by rwa [← variableName?_eq_some hbinder]
    exact Option.filter_eq_some_iff.2 ⟨hname, decide_eq_true h⟩
  | _ => cases h

theorem instantiate?_eq_some (h : ty.instantiate? types = some (parameters, result)) :
    ∃ declared declaredResult meetings, ty.unquantified.2 = .function declared declaredResult ∧
      meetsAll? ty.unquantified.1 declared types = some meetings ∧
      parameters = substituteAll (bindAll ∅ meetings) declared ∧
      result = substitute (bindAll ∅ meetings) declaredResult := by
  rw [instantiate?] at h
  split at h
  · rename_i binders declared declaredResult hty
    rw [matchAll?_eq_meetsAll?] at h
    obtain ⟨bindings, hbindings, h⟩ := Option.bind_eq_some_iff.1 h
    obtain ⟨meetings, hmeetings, rfl⟩ := Option.map_eq_some_iff.1 hbindings
    cases h
    rw [hty]
    exact ⟨declared, declaredResult, meetings, rfl, hmeetings, rfl, rfl⟩
  · cases h

mutual

theorem variableOf?_of_occurs : ∀ {p : Ty} {x : String}, x ∈ occurrences binders p →
    variableOf? binders (.named x []) = some x
  | .named a ps, x, h => by
    unfold occurrences at h
    cases hvariable : variableOf? binders (.named a ps) with
    | some name =>
      rw [hvariable] at h
      cases mem_singleton.1 h
      cases variableOf?_eq_some hvariable
      exact hvariable
    | none =>
      rw [hvariable] at h
      exact variableOf?_of_occursAll h
  | .sequence a, x, h => variableOf?_of_occurs (p := a) h
  | .tuple as, x, h => @variableOf?_of_occursAll as _ h
  | .function ps a, x, h => (mem_append.1 h).elim variableOf?_of_occursAll variableOf?_of_occurs
  | .quantified vs a, x, h => variableOf?_of_occurs (p := a) h

theorem variableOf?_of_occursAll : ∀ {ps : List Ty} {x : String}, x ∈ occurrencesAll binders ps →
    variableOf? binders (.named x []) = some x
  | _ :: _, _, h => (mem_append.1 h).elim variableOf?_of_occurs variableOf?_of_occursAll

end

theorem binds_bindAll {declared : List Ty} (h : meetsAll? binders declared types = some meetings) :
    Binds binders (bindAll ∅ meetings) := by
  intro x hx
  rw [Table.contains, get?_bindAll] at hx
  refine @variableOf?_of_occursAll _ declared _ ?_
  rw [← map_meetsAll? h, mem_map]
  obtain ⟨meeting, hmeeting, hname⟩ := lookup_isSome_iff.1 hx
  exact ⟨meeting, hmeeting, (beq_iff_eq.1 hname).symm⟩

section Instance

variable (h : ty.instantiate? types = some (parameters, result))
include h

theorem parameters_eq_iff : parameters = types ↔ ty.Admits types := by
  obtain ⟨declared, declaredResult, meetings, hty, hmeetings, rfl, -⟩ := instantiate?_eq_some h
  have hbinds := binds_bindAll hmeetings
  constructor
  · intro heq
    exact ⟨declared, declaredResult, hty, _,
      fun x hx => of_decide_eq_true (Option.filter_eq_some_iff.1 (hbinds x hx)).2,
      heq⟩
  · rintro ⟨declared', result', hty', bindings, hbindings, heq⟩
    cases hty.symm.trans hty'
    have hvalues := (substituteAll_eq_iff (fun x hx => variableOf?_of_mem (hbindings x hx)) hmeetings).1 heq
    exact (substituteAll_eq_iff hbinds hmeetings).2 (Agree.of_values hvalues).values

theorem parameters_eq_of_nodup (hnodup : ty.parameterVariables.Nodup) : parameters = types := by
  obtain ⟨declared, declaredResult, meetings, hty, hmeetings, rfl, -⟩ := instantiate?_eq_some h
  refine (substituteAll_eq_iff (binds_bindAll hmeetings) hmeetings).2 (agree_of_nodup ?_).values
  rw [map_meetsAll? hmeetings]
  rwa [parameterVariables, hty] at hnodup

end Instance

/-- Images of some names; all others stand for themselves. -/
def only (names : List String) (images : String → Ty) (x : String) : Ty :=
  if x ∈ names then images x else .named x []

mutual

/-- Puts images in place of names without parameters, all at once. A quantifier keeps the names that
it binds. -/
def replace (images : String → Ty) : Ty → Ty
  | .named name [] => images name
  | .named name (p :: ps) => .named name (replace images p :: replaceAll images ps)
  | .sequence element => .sequence (replace images element)
  | .tuple fields => .tuple (replaceAll images fields)
  | .function parameters result => .function (replaceAll images parameters) (replace images result)
  | .quantified binders body =>
    .quantified binders (replace (fun x => if x ∈ variableNames binders then .named x [] else images x) body)

def replaceAll (images : String → Ty) : List Ty → List Ty
  | [] => []
  | ty :: rest => replace images ty :: replaceAll images rest

end

mutual

theorem substitute_eq_replace : ∀ (ty : Ty) (bindings : Table Ty),
    substitute bindings ty = replace (valueOf bindings) ty
  | .named name [], bindings => rfl
  | .named name (p :: ps), bindings => by
    rw [substitute, replace, substitute_eq_replace p, substituteAll_eq_replaceAll ps]
  | .sequence element, bindings => by rw [substitute, replace, substitute_eq_replace element]
  | .tuple fields, bindings => by rw [substitute, replace, substituteAll_eq_replaceAll fields]
  | .function parameters result, bindings => by
    rw [substitute, replace, substituteAll_eq_replaceAll parameters, substitute_eq_replace result]
  | .quantified binders body, bindings => by
    rw [substitute, replace, substitute_eq_replace body, funext (valueOf_eraseAll bindings (variableNames binders))]

theorem substituteAll_eq_replaceAll : ∀ (types : List Ty) (bindings : Table Ty),
    substituteAll bindings types = replaceAll (valueOf bindings) types
  | [], _ => rfl
  | ty :: rest, bindings => by
    rw [substituteAll, replaceAll, substitute_eq_replace ty, substituteAll_eq_replaceAll rest]

end

mutual

/-- Types without quantifiers. -/
def isPlain : Ty → Bool
  | .named _ parameters => arePlain parameters
  | .sequence element => isPlain element
  | .tuple fields => arePlain fields
  | .function parameters result => arePlain parameters && isPlain result
  | .quantified .. => false

def arePlain : List Ty → Bool
  | [] => true
  | ty :: rest => isPlain ty && arePlain rest

end

theorem occurrences_nil (a : String) :
    occurrences binders (.named a []) = (variableOf? binders (.named a [])).toList := by
  unfold occurrences
  cases variableOf? binders (.named a []) <;> rfl

mutual

theorem mem_occurrences : ∀ (ty : Ty) {x : String}, ty.isPlain = true →
    (x ∈ occurrences binders ty ↔ x ∈ binders ∧ x ∈ ty.freeVariables)
  | .named a [], x, _ => by
    rw [occurrences_nil, freeVariables, Option.mem_toList, Option.mem_toList, variableOf?,
      Option.filter_eq_some_iff, decide_eq_true_eq, and_comm]
  | .named _ (p :: ps), _, h => mem_occurrencesAll (p :: ps) h
  | .sequence element, _, h => mem_occurrences element h
  | .tuple fields, _, h => mem_occurrencesAll fields h
  | .function parameters result, _, h => by
    rw [isPlain, Bool.and_eq_true] at h
    rw [occurrences, freeVariables, mem_append, mem_append, mem_occurrencesAll parameters h.1,
      mem_occurrences result h.2, and_or_left]

theorem mem_occurrencesAll : ∀ (types : List Ty) {x : String}, arePlain types = true →
    (x ∈ occurrencesAll binders types ↔ x ∈ binders ∧ x ∈ freeVariablesAll types)
  | [], _, _ => by simp [occurrencesAll, freeVariablesAll]
  | ty :: rest, _, h => by
    rw [arePlain, Bool.and_eq_true] at h
    rw [occurrencesAll, freeVariablesAll, mem_append, mem_append, mem_occurrences ty h.1,
      mem_occurrencesAll rest h.2, and_or_left]

end

mutual

/-- A plain type meets its own instance: each variable stands against its image. -/
theorem meets?_replace (hbinders : ∀ x ∈ binders, variableOf? binders (.named x []) = some x)
    (images : String → Ty) : ∀ ty : Ty, ty.isPlain = true →
    meets? binders ty (replace (only binders images) ty) = some ((occurrences binders ty).map fun x => (x, images x))
  | .named a [], _ => by
    unfold meets?
    rw [replace, only, occurrences_nil]
    cases hvariable : variableOf? binders (.named a []) with
    | some name =>
      cases variableOf?_eq_some hvariable
      rw [if_pos (of_decide_eq_true (Option.filter_eq_some_iff.1 hvariable).2)]
      rfl
    | none =>
      have ha : a ∉ binders := fun ha => by
        rw [hbinders a ha] at hvariable
        cases hvariable
      rw [if_neg ha]
      simp [meetsAll?]
  | .named a (p :: ps), h => by
    unfold meets? occurrences
    show (if a = a then meetsAll? binders (p :: ps) (replaceAll (only binders images) (p :: ps)) else none) = _
    rw [if_pos rfl]
    exact meetsAll?_replaceAll hbinders images (p :: ps) h
  | .sequence element, h => meets?_replace hbinders images element h
  | .tuple fields, h => meetsAll?_replaceAll hbinders images fields h
  | .function parameters result, h => by
    rw [isPlain, Bool.and_eq_true] at h
    rw [replace, meets?, meetsAll?_replaceAll hbinders images parameters h.1, meets?_replace hbinders images result h.2,
      occurrences, map_append]
    rfl

theorem meetsAll?_replaceAll (hbinders : ∀ x ∈ binders, variableOf? binders (.named x []) = some x)
    (images : String → Ty) : ∀ types : List Ty, arePlain types = true →
    meetsAll? binders types (replaceAll (only binders images) types) =
      some ((occurrencesAll binders types).map fun x => (x, images x))
  | [], _ => rfl
  | ty :: rest, h => by
    rw [arePlain, Bool.and_eq_true] at h
    rw [replaceAll, meetsAll?, meets?_replace hbinders images ty h.1, meetsAll?_replaceAll hbinders images rest h.2,
      occurrencesAll, map_append]
    rfl

end

theorem only_congr {names names' : List String} (h : ∀ x, x ∈ names ↔ x ∈ names')
    (images : String → Ty) : only names images = only names' images := by
  funext x
  simp only [only, h]

theorem valueOf_bindAll_map (names : List String) (images : String → Ty) :
    valueOf (bindAll ∅ (names.map fun x => (x, images x))) = only names images := by
  funext x
  have hlookup : (names.map fun x => (x, images x)).lookup x = if x ∈ names then some (images x) else none := by
    induction names with
    | nil => rfl
    | cons name names ih =>
      rw [map_cons, lookup_cons, ih]
      by_cases hx : x = name
      · simp [hx]
      · simp [hx, beq_false_of_ne hx]
  rw [valueOf, get?_bindAll, hlookup, only]
  split <;> rfl

/-- A function type can be instantiated at each of its instances: with one image for each of its
variables, the parameters are the arguments, and in the result those variables have their images
that are free in a parameter. -/
theorem instantiate?_replaceAll {binders parameters : List Ty} (hplain : arePlain parameters = true)
    (result : Ty) (images : String → Ty) :
    instantiate? (.quantified binders (.function parameters result))
        (replaceAll (only (variableNames binders) images) parameters) =
      some (replaceAll (only (variableNames binders) images) parameters,
        replace (only ((variableNames binders).filter (· ∈ freeVariablesAll parameters)) images) result) := by
  have hbinders : ∀ x ∈ variableNames binders, variableOf? (variableNames binders) (.named x []) = some x :=
    fun x hx => @variableOf?_of_mem (.quantified binders (.function parameters result)) x hx
  have hmeets := meetsAll?_replaceAll hbinders images parameters hplain
  have hparameters := (substituteAll_eq_iff (binds_bindAll hmeets) hmeets).2 fun meeting hmeeting => by
    obtain ⟨x, hx, rfl⟩ := mem_map.1 hmeeting
    rw [valueOf_bindAll_map, only, if_pos hx]
  have hfree : only (occurrencesAll (variableNames binders) parameters) images =
      only ((variableNames binders).filter (· ∈ freeVariablesAll parameters)) images :=
    only_congr (fun x => by rw [mem_occurrencesAll parameters hplain, mem_filter, decide_eq_true_eq]) images
  show ((matchAll? (variableNames binders) parameters _ ∅).bind fun bindings =>
    some (substituteAll bindings parameters, substitute bindings result)) = _
  rw [matchAll?_eq_meetsAll?, hmeets, Option.map_some, Option.bind_some, hparameters, substitute_eq_replace,
    valueOf_bindAll_map, hfree]

/-- Types for a function, what it is applied to, and what comes of it beside an unrelated variable
and a quantifier. -/
def applyBinders : List Ty := [.named "a" [], .named "b" [], .named "c" []]
def applyParameters : List Ty := [.function [.named "a" []] (.named "b" []), .sequence (.named "a" [])]
def applyResult : Ty :=
  .tuple [.named "b" [], .named "c" [], .quantified [.named "b" []] (.function [.named "b" []] (.named "b" []))]

def crossed (x : String) : Ty :=
  if x = "a" then .tuple [.named "b" [], .scalar .int32] else .sequence (.named "a" [])

theorem apply_instance : arePlain applyParameters = true ∧
    instantiate? (.quantified applyBinders (.function applyParameters applyResult))
        [.function [.tuple [.named "b" [], .scalar .int32]] (.sequence (.named "a" [])),
          .sequence (.tuple [.named "b" [], .scalar .int32])] =
      some ([.function [.tuple [.named "b" [], .scalar .int32]] (.sequence (.named "a" [])),
          .sequence (.tuple [.named "b" [], .scalar .int32])],
        .tuple [.sequence (.named "a" []), .named "c" [],
          .quantified [.named "b" []] (.function [.named "b" []] (.named "b" []))]) := by
  have hplain : arePlain applyParameters = true := by decide
  have harguments : replaceAll (only (variableNames applyBinders) crossed) applyParameters =
      [.function [.tuple [.named "b" [], .scalar .int32]] (.sequence (.named "a" [])),
        .sequence (.tuple [.named "b" [], .scalar .int32])] := by decide
  have hresult : replace (only ((variableNames applyBinders).filter (· ∈ freeVariablesAll applyParameters)) crossed)
      applyResult = .tuple [.sequence (.named "a" []), .named "c" [],
        .quantified [.named "b" []] (.function [.named "b" []] (.named "b" []))] := by decide
  have h := @instantiate?_replaceAll applyBinders applyParameters hplain applyResult crossed
  rw [harguments, hresult] at h
  exact ⟨hplain, h⟩

end DataParallel.Ty
