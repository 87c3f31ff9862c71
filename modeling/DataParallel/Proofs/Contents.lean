import DataParallel.Proofs.Pending
import DataParallel.Proofs.Phases.Tables
import Mathlib.Data.List.Forall2

/-! What expressions hold.

An expression without calls holds what its names hold. An expression with calls is described by what
reading it gives wherever the names in it hold what they hold at some point of a run, and no view is
pending that was realized by then. -/

namespace DataParallel

open List Content

variable {vs : List Content} {v : Content} {registry : Registry} {c : Progress} {binds rest : List Stmt}

namespace Content

variable {key : List Nat}

mutual

def isData : Content → Bool
  | .plain | .view _ => true
  | .tuple parts => areData parts
  | .closure .. => false

def areData : List Content → Bool
  | [] => true
  | v :: rest => isData v && areData rest

end

theorem areData_iff : areData vs = true ↔ ∀ v ∈ vs, v.isData = true := by
  induction vs with
  | nil => simp [areData]
  | cons v vs ih => simp [areData, ih]

theorem mem_keysAll : key ∈ keysAll vs ↔ ∃ v ∈ vs, key ∈ v.keys := by
  induction vs with
  | nil => simp [keysAll]
  | cons v vs ih => simp [keysAll, ih]

theorem mem_capturesAll : key ∈ capturesAll vs ↔ ∃ v ∈ vs, key ∈ v.captures := by
  induction vs with
  | nil => simp [capturesAll]
  | cons v vs ih => simp [capturesAll, ih]

mutual

theorem captures_of_isData : ∀ {v : Content}, v.isData = true → v.captures = []
  | .plain, _ | .view _, _ => rfl
  | .tuple _, h => capturesAll_of_areData h

theorem capturesAll_of_areData : ∀ {vs : List Content}, areData vs = true → capturesAll vs = []
  | [], _ => rfl
  | v :: rest, h => by
    rw [areData, Bool.and_eq_true] at h
    rw [capturesAll, captures_of_isData h.1, capturesAll_of_areData h.2]
    rfl

end

theorem isData_field (h : v.isData = true) (index : Nat) (ty : Ty) :
    (v.field index ty).isData = true := by
  cases v with
  | plain | closure => rfl
  | view key =>
    rw [field]
    split <;> rfl
  | tuple parts =>
    rw [field]
    cases hpart : parts[index]? with
    | none => rfl
    | some part => exact areData_iff.1 h part (mem_of_getElem? hpart)

theorem keys_field {P : List Nat → Prop} (hP : ∀ index key, P key → P (index :: key))
    (h : ∀ key ∈ v.keys, P key)
    (index : Nat) (ty : Ty) : ∀ key ∈ (v.field index ty).keys, P key := by
  cases v with
  | plain | closure => simp [field, keys]
  | view key =>
    simp only [keys, mem_singleton, forall_eq] at h
    simp only [field]
    split
    · simpa [keys] using hP index key h
    · simp [keys]
  | tuple parts =>
    rw [field]
    cases hpart : parts[index]? with
    | none => simp [keys]
    | some part => exact fun key hkey => h key (mem_keysAll.2 ⟨part, mem_of_getElem? hpart, hkey⟩)

mutual

theorem keys_of_demanded : ∀ {v : Content} {ty : Ty}, key ∈ v.demanded ty → key ∈ v.keys
  | .view _, ty, h => by
    rw [demanded] at h
    split at h
    · exact h
    · cases h
  | .tuple parts, ty, h => by
    rw [demanded] at h
    split at h
    · split at h
      · exact keysAll_of_demanded h
      · cases h
    · cases h

theorem keysAll_of_demanded :
    ∀ {vs : List Content} {tys : List Ty}, key ∈ demandedAll vs tys → key ∈ keysAll vs
  | [], _, h => by cases h
  | _ :: _, [], h => by cases h
  | v :: rest, ty :: tys, h => by
    rw [demandedAll, mem_append] at h
    rw [keysAll, mem_append]
    exact h.imp keys_of_demanded keysAll_of_demanded

end

mutual

theorem demanded_of_not_aggregate :
    ∀ {v : Content} {ty : Ty}, ty.isAggregate = false → v.demanded ty = []
  | .plain, _, _ | .closure .., _, _ => rfl
  | .view _, _, h => by rw [demanded, h]; rfl
  | .tuple parts, .tuple tys, h => by
    rw [demanded]
    show (if tys.length = parts.length then demandedAll parts tys else []) = []
    split
    · exact demandedAll_of_not_aggregate h
    · rfl
  | .tuple _, .named .., _ | .tuple _, .sequence _, _ | .tuple _, .function .., _
  | .tuple _, .quantified .., _ => rfl

theorem demandedAll_of_not_aggregate :
    ∀ {vs : List Content} {tys : List Ty}, Ty.anyAggregate tys = false → demandedAll vs tys = []
  | [], _, _ => rfl
  | _ :: _, [], _ => rfl
  | v :: rest, ty :: tys, h => by
    rw [Ty.anyAggregate, Bool.or_eq_false_iff] at h
    rw [demandedAll, demanded_of_not_aggregate h.1, demandedAll_of_not_aggregate h.2]
    rfl

end

end Content

namespace Expr

variable {σ τ : String → Content}

mutual

def content (store : String → Content) : Expr → Content
  | .name symbol _ => store symbol
  | .literal .. | .apply .. => .plain
  | .tuple parts _ => .tuple (contents store parts)
  | .closure _ captured _ => .closure (captured.map ty) (contents store captured)

def contents (store : String → Content) : List Expr → List Content
  | [] => []
  | e :: rest => content store e :: contents store rest

end

theorem contents_eq_map (store : String → Content) (es : List Expr) :
    contents store es = es.map (content store) := by
  induction es with
  | nil => rfl
  | cons e es ih => rw [contents, ih, map_cons]

theorem contents_congr {es : List Expr} (h : ∀ z ∈ namesAll es, τ z = σ z) :
    contents τ es = contents σ es := by
  induction es using list_induction with
  | nil => rfl
  | cons e es ihe ih => cases e <;> simp_all [or_imp, forall_and, contents, content]

theorem content_congr {e : Expr} (h : ∀ z ∈ e.names, τ z = σ z) : e.content τ = e.content σ := by
  simpa [contents] using @contents_congr σ τ [e] (by simpa using h)

end Expr

namespace Progress
variable {c' d : Progress} {e : Expr} {ty : Ty} {A B : String → Prop} {es : List Expr}

mutual

theorem read_of_callFree :
    ∀ (e : Expr), e.isCallFree = true → c.read registry e = (e.content c.store, c)
  | .name .., _ | .literal .., _ => rfl
  | .tuple elements _, h => by rw [read, readAll_of_callFree elements h]; rfl
  | .closure _ captured _, h => by rw [read, readAll_of_callFree captured h]; rfl

theorem readAll_of_callFree : ∀ (es : List Expr), Expr.areCallFree es = true →
    c.readAll registry es = (Expr.contents c.store es, c)
  | [], _ => rfl
  | e :: rest, h => by
    rw [Expr.areCallFree, Bool.and_eq_true] at h
    rw [readAll, read_of_callFree e h.1]
    show (e.content c.store :: (c.readAll registry rest).1, (c.readAll registry rest).2) = _
    rw [readAll_of_callFree rest h.2]
    rfl

end

def Done (c : Progress) (v : Content) : Prop := ∀ key ∈ v.keys, c.IsDone key

def Bare (c : Progress) (v : Content) : Prop := ∀ key ∈ v.captures, c.IsDone key

def Meets (c : Progress) (v : Content) (ty : Ty) : Prop := ∀ key ∈ v.demanded ty, c.IsDone key

theorem Done.mono (h : c.Done v) (hr : c.realized ⊆ c'.realized) :
    c'.Done v := fun key hkey => (h key hkey).mono hr

theorem Bare.mono (h : c.Bare v) (hr : c.realized ⊆ c'.realized) :
    c'.Bare v := fun key hkey => (h key hkey).mono hr

theorem Meets.mono (h : c.Meets v ty) (hr : c.realized ⊆ c'.realized) : c'.Meets v ty :=
  fun key hkey => (h key hkey).mono hr

theorem Done.meets (h : c.Done v) (ty : Ty) :
    c.Meets v ty := fun key hkey => h key (keys_of_demanded hkey)

theorem meets_of_not_aggregate (h : ty.isAggregate = false) : c.Meets v ty := by
  intro key hkey
  rw [demanded_of_not_aggregate h] at hkey
  cases hkey

theorem bare_of_isData (h : v.isData = true) : c.Bare v := by
  intro key hkey
  rw [captures_of_isData h] at hkey
  cases hkey

theorem done_plain : c.Done .plain := nofun

theorem Done.field (h : c.Done v) (index : Nat) : c.Done (v.field index ty) :=
  keys_field (fun index _ hkey => hkey.cons index) h index ty

theorem done_tuple : c.Done (.tuple vs) ↔ ∀ v ∈ vs, c.Done v := by
  refine ⟨fun h v hv key hkey => h key (mem_keysAll.2 ⟨v, hv, hkey⟩), fun h key hkey => ?_⟩
  obtain ⟨v, hv, hkey⟩ := mem_keysAll.1 hkey
  exact h v hv key hkey

/-- `d` comes after `c`, and the names `A` still hold what they held then. -/
structure Agrees (A : String → Prop) (c d : Progress) : Prop where
  store : ∀ z, A z → d.store z = c.store z
  realized : c.realized ⊆ d.realized

namespace Agrees

theorem refl (A : String → Prop) (c : Progress) : Agrees A c c := ⟨fun _ _ => rfl, Subset.refl _⟩

theorem mono (h : Agrees A c d) (hB : ∀ z, B z → A z) :
    Agrees B c d := ⟨fun z hz => h.store z (hB z hz), h.realized⟩

theorem trans (h : Agrees A c c') (h' : Agrees A c' d) : Agrees A c d :=
  ⟨fun z hz => (h'.store z hz).trans (h.store z hz), Subset.trans h.realized h'.realized⟩

theorem read (h : Agrees A c d) (e : Expr) : Agrees A c (d.read registry e).2 :=
  ⟨fun z hz => by rw [store_read]; exact h.store z hz, Subset.trans h.realized (realized_read d e)⟩

theorem content (h : Agrees A c d) (he : ∀ z ∈ e.names, A z) :
    e.content d.store = e.content c.store :=
  Expr.content_congr fun z hz => h.store z (he z hz)

end Agrees

theorem breached_readAll
    (h : ∀ e ∈ es, ∀ d, Agrees A c d → (d.read registry e).2.breached = d.breached)
    (hd : Agrees A c d) : (d.readAll registry es).2.breached = d.breached := by
  induction es generalizing d with
  | nil => rfl
  | cons e es ih =>
    show ((d.read registry e).2.readAll registry es).2.breached = d.breached
    rw [ih (fun f hf => h f (mem_cons_of_mem _ hf)) (hd.read e), h e mem_cons_self d hd]

theorem readAll_forall₂ {β : Type} {bs : List β} {Q : β → Progress → Content → Prop}
    (hmono : ∀ {b d d' v}, Q b d v → d.realized ⊆ d'.realized → Q b d' v)
    (h : Forall₂ (fun e b => ∀ d, Agrees A c d → Q b (d.read registry e).2 (d.read registry e).1) es bs)
    (hd : Agrees A c d) : Forall₂ (fun b v => Q b (d.readAll registry es).2 v) bs (d.readAll registry es).1 := by
  induction h generalizing d with
  | nil => exact .nil
  | @cons e _ es _ he _ ih => exact .cons (hmono (he d hd) (realized_readAll _ es)) (ih (hd.read e))

theorem readAll_forall {Q : Progress → Content → Prop}
    (hmono : ∀ {d d' v}, Q d v → d.realized ⊆ d'.realized → Q d' v)
    (h : ∀ e ∈ es, ∀ d, Agrees A c d → Q (d.read registry e).2 (d.read registry e).1) (hd : Agrees A c d) :
    ∀ v ∈ (d.readAll registry es).1, Q (d.readAll registry es).2 v := by
  induction es generalizing d with
  | nil => exact nofun
  | cons e es ih =>
    exact forall_mem_cons.2 ⟨hmono (h e mem_cons_self d hd) (realized_readAll _ es),
      ih (fun f hf => h f (mem_cons_of_mem _ hf)) (hd.read e)⟩

theorem breached_call {function : Expr} {arguments : List Expr} {typing : Typing}
    (h : c.breached = true) : (c.call registry function arguments typing vs).2.breached = true := by
  unfold call
  split
  · exact h
  · exact h
  · exact h
  · simp [h]
  · split <;> exact h
  · exact h

mutual

theorem breached_read :
    ∀ {c : Progress} {e : Expr}, c.breached = true → (c.read registry e).2.breached = true
  | _, .name .., h | _, .literal .., h => h
  | _, .tuple elements _, h => breached_readAll_of elements h
  | _, .closure _ captured _, h => breached_readAll_of captured h
  | _, .apply _ arguments _, h => breached_call (breached_readAll_of arguments h)

theorem breached_readAll_of : ∀ {c : Progress} (es : List Expr), c.breached = true →
    (c.readAll registry es).2.breached = true
  | _, [], h => h
  | _, _ :: rest, h => breached_readAll_of rest (breached_read h)

end

/-- The point behind a bind. -/
def bind (registry : Registry) (c : Progress) (target value : Expr) : Progress :=
  match target.symbol? with
  | some x => { (c.read registry value).2 with
      store := Function.update (c.read registry value).2.store x (c.read registry value).1 }
  | none => (c.read registry value).2

def after (registry : Registry) : Progress → List Stmt → Progress
  | c, .bind target value :: rest => after registry (c.bind registry target value) rest
  | c, _ => c

section Binds
variable {target value : Expr} {x : String}

theorem bind_eq (hx : target.symbol? = some x) :
    c.bind registry target value = { (c.read registry value).2 with
      store := Function.update (c.read registry value).2.store x (c.read registry value).1 } := by
  simp only [bind, hx]

theorem store_bind (hx : target.symbol? = some x) :
    (c.bind registry target value).store = Function.update c.store x (c.read registry value).1 := by
  rw [bind_eq hx, store_read]

theorem realized_bind (hx : target.symbol? = some x) :
    (c.bind registry target value).realized = (c.read registry value).2.realized := by
  rw [bind_eq hx]

theorem breached_bind :
    (c.bind registry target value).breached = (c.read registry value).2.breached := by
  unfold bind
  split <;> rfl

end Binds

end Progress

def Stmt.IsBind (s : Stmt) : Prop := ∃ target value x, s = .bind target value ∧ target.symbol? = some x

namespace Progress
variable (h : ∀ s ∈ binds, s.IsBind)
include h

theorem after_append :
    c.after registry (binds ++ rest) = (c.after registry binds).after registry rest := by
  induction binds generalizing c with
  | nil => rfl
  | cons s binds ih =>
    obtain ⟨target, value, x, rfl, -⟩ := h s mem_cons_self
    exact ih fun st hst => h st (mem_cons_of_mem _ hst)

theorem breached_after (hc : c.breached = true) : (c.after registry binds).breached = true := by
  induction binds generalizing c with
  | nil => exact hc
  | cons s binds ih =>
    obtain ⟨target, value, x, rfl, -⟩ := h s mem_cons_self
    refine ih (fun st hst => h st (mem_cons_of_mem _ hst)) ?_
    rw [breached_bind]
    exact breached_read hc

theorem exec_binds {o : Outcome Progress Content}
    (hrun : Exec (machine registry) c (binds ++ rest) o) :
    Exec (machine registry) (c.after registry binds) rest o ∨
      ∃ d, o = .leaves none d ∧ (d.breached = true → (c.after registry binds).breached = true) := by
  induction binds generalizing c with
  | nil => exact .inl hrun
  | cons s binds ih =>
    obtain ⟨target, value, x, rfl, hx⟩ := h s mem_cons_self
    have hrest : ∀ st ∈ binds, st.IsBind := fun st hst => h st (mem_cons_of_mem _ hst)
    rcases hrun.bind_cases with rfl | ⟨y, v, c', hy, heval, hrun⟩
    · exact .inr ⟨c, rfl, breached_after h⟩
    · cases hx.symm.trans hy
      have hbind : (machine registry).assign x v c' = c.bind registry target value := by
        rw [bind_eq hx, show c.read registry value = (v, c') from heval]
        rfl
      rw [hbind] at hrun
      exact ih hrest hrun

end Progress

end DataParallel
