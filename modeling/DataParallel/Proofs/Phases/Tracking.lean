import DataParallel.Proofs.Contents
import DataParallel.Proofs.Phases.Computed
import DataParallel.Proofs.Restoration
import DataParallel.Proofs.Storage

/-! The tables of phase analysis at a point of a run.

What a table says of a name is a statement about what the name holds there: a name that is not
incomplete holds nothing pending, and the tuples and closures on record are those that the names
hold. What is read in place of a name need not hold the same, but it holds all that is still pending
in it. -/

namespace DataParallel

open List Name Phases.State Progress

variable {x y : String} {registry : Registry} {e function value : Expr} {typing : Typing} {c d : Progress} {w : Content}
  {arguments fields : List Expr} {v : Survey}

namespace Name

/-- The name of a view without the suffixes of storage, both with the last character first. -/
def stripStorage : List Char → List Char
  | 'y' :: 'a' :: 'r' :: 'r' :: 'a' :: '_' :: rest => stripStorage rest
  | name => name

def view (name : String) : String := String.ofList (stripStorage name.toList.reverse).reverse

theorem view_container (x : String) : view (container x) = view x := by
  have harray : ("_array" : String).toList = ['_', 'a', 'r', 'r', 'a', 'y'] := by decide
  rw [view, container, String.toList_append, reverse_append, harray]
  rfl

theorem view_temporary (n : Nat) : view ("_sync" ++ toString n) = "_sync" ++ toString n := by
  obtain ⟨c, hlast, hdigit⟩ := getLast?_append_number "_sync" n
  have hkept : ∀ name : List Char, name.head? = some c → stripStorage name = name := by
    intro name hname
    unfold stripStorage
    split
    · cases hname
      exact absurd hdigit (by decide)
    · rfl
  rw [view, hkept _ (by rw [head?_reverse, hlast]), reverse_reverse, String.ofList_toList]

/-- The name of the text that a name was drawn for, or that it is storage for. -/
def origin (z : String) : String := view (root z)

theorem origin_of_source (h : isDrawn x = false) : origin x = view x := by
  rw [origin, root_of_source h]

end Name

namespace Expr

mutual

def isLabeled (N : String → Ty → Bool) : Expr → Bool
  | .name symbol typing => N symbol typing.ty
  | .literal .. => true
  | .tuple parts _ | .closure _ parts _ | .apply _ parts _ => areLabeled N parts

def areLabeled (N : String → Ty → Bool) : List Expr → Bool
  | [] => true
  | e :: rest => isLabeled N e && areLabeled N rest

end

mutual

/-- Whether an expression holds no closure as long as the names `D` hold none. -/
def isData (D : String → Bool) : Expr → Bool
  | .name symbol _ => D symbol
  | .literal .. | .apply .. => true
  | .tuple parts _ => areData D parts
  | .closure .. => false

def areData (D : String → Bool) : List Expr → Bool
  | [] => true
  | e :: rest => isData D e && areData D rest

end

mutual

/-- Whether no call hands on a closure, and tuples that may be put on record are made of what is
there already. -/
def isCareful (registry : Registry) (D : String → Bool) : Expr → Bool
  | .name .. | .literal .. => true
  | .tuple parts _ | .closure _ parts _ => areCareful registry D parts
  | .apply function arguments _ =>
    areCareful registry D arguments && (!(function.role registry).handsOn || areData D arguments) &&
      (function.role registry ≠ .tuple || areCallFree arguments)

def areCareful (registry : Registry) (D : String → Bool) : List Expr → Bool
  | [] => true
  | e :: rest => isCareful registry D e && areCareful registry D rest

end

section
variable {N : String → Ty → Bool} {D : String → Bool} {es : List Expr}

theorem areLabeled_iff : areLabeled N es = true ↔ ∀ e ∈ es, e.isLabeled N = true := by
  induction es with
  | nil => simp [areLabeled]
  | cons e es ih => simp [areLabeled, ih]

theorem areData_iff : areData D es = true ↔ ∀ e ∈ es, e.isData D = true := by
  induction es with
  | nil => simp [areData]
  | cons e es ih => simp [areData, ih]

theorem areCareful_iff :
    areCareful registry D es = true ↔ ∀ e ∈ es, e.isCareful registry D = true := by
  induction es with
  | nil => simp [areCareful]
  | cons e es ih => simp [areCareful, ih]

theorem isCareful_apply :
    (apply function es typing).isCareful registry D = true ↔ areCareful registry D es = true ∧
      ((function.role registry).handsOn = true → areData D es = true) ∧
      (function.role registry = .tuple → areCallFree es = true) := by
  simp only [isCareful, Bool.and_eq_true, Bool.or_eq_true, Bool.not_eq_true', decide_eq_true_eq, and_assoc,
    imp_iff_not_or, Bool.not_eq_true, ne_eq]

mutual

theorem isCareful_of_callFree : ∀ {e : Expr}, e.isCallFree = true → e.isCareful registry D = true
  | .name .., _ | .literal .., _ => rfl
  | .tuple _ _, h | .closure _ _ _, h => areCareful_of_callFree h

theorem areCareful_of_callFree :
    ∀ {es : List Expr}, areCallFree es = true → areCareful registry D es = true
  | [], _ => rfl
  | _ :: _, h => by
    rw [areCallFree, Bool.and_eq_true] at h
    rw [areCareful, isCareful_of_callFree h.1, areCareful_of_callFree h.2]
    rfl

end

end

end Expr

namespace Progress
variable {c' : Progress} {e' : Expr} {A : String → Prop} {u v : Content} {vs ws : List Content}
  {Q : Progress → Content → Prop}

def Mirrors (c : Progress) (v w : Content) : Prop := ∀ key ∈ v.keys, c.IsDone key ∨ key ∈ w.keys

namespace Mirrors

theorem refl (c : Progress) (v : Content) : c.Mirrors v v := fun _ hkey => .inr hkey

theorem trans (h : c.Mirrors u v) (h' : c.Mirrors v w) : c.Mirrors u w :=
  fun key hkey => (h key hkey).elim .inl (h' key)

theorem mono (h : c.Mirrors v w) (hr : c.realized ⊆ c'.realized) : c'.Mirrors v w :=
  fun key hkey => (h key hkey).imp_left fun hdone => hdone.mono hr

theorem of_done (h : c.Done v) (w : Content) : c.Mirrors v w := fun key hkey => .inl (h key hkey)

theorem done (h : c.Mirrors v w) (hw : c.Done w) :
    c.Done v := fun key hkey => (h key hkey).elim id (hw key)

theorem tuple (h : Forall₂ c.Mirrors vs ws) : c.Mirrors (.tuple vs) (.tuple ws) := by
  intro key hkey
  rw [Content.keys] at hkey ⊢
  induction h with
  | nil => exact .inr hkey
  | cons hvw _ ih =>
    rw [Content.keysAll, mem_append] at hkey ⊢
    rcases hkey with hkey | hkey
    · exact (hvw key hkey).imp_right .inl
    · exact (ih hkey).imp_right .inr

theorem closure {tys : List Ty} : c.Mirrors (.closure tys vs) w := nofun

end Mirrors

/-- An expression is read without a breach as long as the names that it forces hold what they hold
now. -/
def Fine (registry : Registry) (c : Progress) (e : Expr) : Prop :=
  ∀ d, Agrees (· ∈ e.forcedNames registry) c d → (d.read registry e).2.breached = d.breached

/-- Reading an expression gives `Q` as long as its names hold what they hold now. -/
def Gives (registry : Registry) (c : Progress) (e : Expr) (Q : Progress → Content → Prop) : Prop :=
  ∀ d, Agrees (· ∈ e.names) c d → Q (d.read registry e).2 (d.read registry e).1

theorem Fine.later (h : Fine registry c e) (hd : Agrees (· ∈ e.forcedNames registry) c c') :
    Fine registry c' e :=
  fun _ hd' => h _ (hd.trans hd')

theorem Gives.later (h : Gives registry c e Q) (hd : Agrees (· ∈ e.names) c c') :
    Gives registry c' e Q :=
  fun _ hd' => h _ (hd.trans hd')

theorem gives_of_callFree (hmono : ∀ {d v}, Q c v → c.realized ⊆ d.realized → Q d v)
    (hfree : e.isCallFree = true) (h : Q c (e.content c.store)) : Gives registry c e Q := by
  intro d hd
  rw [read_of_callFree e hfree, hd.content fun _ hz => hz]
  exact hmono h hd.realized

theorem fine_of_callFree (hfree : e.isCallFree = true) : Fine registry c e := by
  intro d _
  rw [read_of_callFree e hfree]

section Binds
variable {typing' : Typing}

theorem after_one {target : Expr} :
    c.after registry [.bind target value] = c.bind registry target value := rfl

theorem bind_callFree (hfree : e.isCallFree = true) : c.bind registry (.name y typing) e =
    { c with store := Function.update c.store y (e.content c.store) } := by
  rw [bind_eq (x := y) rfl, read_of_callFree e hfree]

theorem read_tuple (hf : function.symbol? = some Snippet.makeTuple)
    (hfree : Expr.areCallFree arguments = true) :
    c.read registry (.apply function arguments typing) = (.tuple (Expr.contents c.store arguments), c) := by
  rw [read, readAll_of_callFree arguments hfree]
  simp only [call, Phases.role_tuple hf]

theorem bind_tuple (hfree : Expr.areCallFree fields = true) :
    c.bind registry (.name y typing) (.applySnippet Snippet.makeTuple fields typing') =
      { c with store := Function.update c.store y (.tuple (Expr.contents c.store fields)) } := by
  rw [bind_eq (x := y) rfl, Expr.applySnippet, read_tuple rfl hfree]

theorem bind_boundary (hx : e.symbol? = some x) :
    c.bind registry (.name y typing) (.applySnippet Snippet.phaseBoundary [e] typing') = { c with
        store := Function.update c.store y (c.store x)
        realized := (c.store x).keys ++ c.realized } := by
  have hread : c.read registry (.applySnippet Snippet.phaseBoundary [e] typing') =
      (c.store x, { c with realized := (c.store x).keys ++ c.realized }) := by
    have hrole : ∀ t, (Expr.name Snippet.phaseBoundary t).role registry = .boundary :=
      fun _ => Phases.role_boundary rfl
    rw [Expr.eq_name_of_symbol hx, Expr.applySnippet, read]
    simp only [read, readAll, call, hrole, Content.keysAll, append_nil, headD_cons]
  rw [bind_eq (x := y) rfl, hread]

end Binds

end Progress

/-- What is known about the names of a procedure. -/
structure Survey where
  /-- The type that a view is read at. -/
  types : String → Ty
  /-- The views that may hold closures. -/
  carriers : List String
  /-- The names that are bound to nothing but results of the entry procedure. -/
  own : List String
  /-- Names that hold nothing pending. -/
  plain : List String
  /-- Whether it is told of what is handed back that nothing in it is pending: storage holds nothing
  pending then. -/
  keeps : Bool

namespace Survey
variable {ty : Ty}

/-- Whether a name of the text, or one that was drawn for it, is read at its type. -/
def labels (v : Survey) (z : String) (ty : Ty) : Bool :=
  !Name.isDrawn (root z) && decide (ty = v.types (origin z))

def data (v : Survey) (z : String) : Bool := decide (origin z ∉ v.carriers)

/-- Whether a name holds nothing pending, whatever the tables say. -/
def settles (v : Survey) (z : String) : Bool :=
  v.keeps && (isStorage (root z) || decide (root z ∈ v.plain))

theorem labels_of_root (h : root y = root x) : v.labels y = v.labels x := by
  funext ty
  rw [labels, labels, origin, origin, h]

theorem data_of_root (h : root y = root x) : v.data y = v.data x := by
  rw [data, data, origin, origin, h]

theorem labels_of_source (h : isDrawn x = false) :
    v.labels x = fun ty => decide (ty = v.types (view x)) := by
  funext ty
  rw [labels, root_of_source h, h, origin_of_source h]
  rfl

theorem data_of_source (h : isDrawn x = false) : v.data x = decide (view x ∉ v.carriers) := by
  rw [data, origin_of_source h]

theorem labels_container (h : isDrawn x = false) : v.labels (container x) = v.labels x := by
  rw [labels_of_source h, labels_of_source (isDrawn_container x), view_container]

theorem data_container (h : isDrawn x = false) : v.data (container x) = v.data x := by
  rw [data_of_source h, data_of_source (isDrawn_container x), view_container]

theorem labels_unique {ty' : Ty} (h : v.labels x ty = true) (h' : v.labels x ty' = true) :
    ty = ty' := by
  rw [labels, Bool.and_eq_true, decide_eq_true_eq] at h h'
  exact h.2.trans h'.2.symm

theorem labels_temporary (n : Nat) (ty : Ty) : v.labels ("_sync" ++ toString n) ty = false := by
  rw [labels, root_temporary, Name.isDrawn_temporary]
  rfl

/-- A survey of names of the text. -/
structure Fits (v : Survey) : Prop where
  carriers : ∀ x ∈ v.carriers, isDrawn x = false
  own : ∀ x ∈ v.own, isDrawn x = false
  plain : ∀ x ∈ v.plain, isDrawn x = false
  kept : v.keeps = true → v.own = []

theorem Fits.data_temporary (hv : v.Fits) (n : Nat) : v.data ("_sync" ++ toString n) = true := by
  rw [data, decide_eq_true_eq, Name.origin, root_temporary, view_temporary]
  intro hmem
  have hdrawn := hv.carriers _ hmem
  rw [Name.isDrawn_temporary] at hdrawn
  cases hdrawn

end Survey

namespace Phases

structure Traced (v : Survey) (e : Expr) : Prop where
  callFree : e.isCallFree = true
  labeled : e.isLabeled v.labels = true
  data : e.isData v.data = true

/-- What the tables say of the names holds in a run. -/
structure Tracks (v : Survey) (s : State) (c : Progress) : Prop where
  complete : ∀ {x}, s.completionOf x ≠ .incomplete → c.Done (c.store x)
  standIns : ∀ {x e}, s.standIn? x = some e → ∃ y typing, e = .name y typing ∧ root y = root x ∧
    c.Mirrors (c.store x) (c.store y) ∧ ∀ ty, v.labels x ty = true → typing.ty = ty
  fields : ∀ {x fields}, s.componentsOf? x = some fields →
    (∀ e ∈ fields, Traced v e) ∧ c.store x = .tuple (Expr.contents c.store fields)
  closures : ∀ {x e}, s.closureOf? x = some e →
    (e.isCallFree = true ∧ e.isLabeled v.labels = true) ∧ c.store x = e.content c.store
  bare : ∀ {x}, s.closureOf? x = none → c.Bare (c.store x)
  data : ∀ {x}, v.data x = true → (c.store x).isData = true
  drawn : ∀ {x}, IsDrawn x → c.Bare (c.store x)
  own : ∀ {x}, x ∈ v.own → c.store x = .plain
  results : s.inEntry = true → ∀ {x}, x ∈ s.selfResults → x ∈ v.own

namespace Tracks
variable {F B S : String → Prop} {s t : State}

mutual

theorem done_value (h : Tracks v s c) : ∀ {e : Expr}, e.isCallFree = true →
    s.completionOfValue e ≠ .incomplete → c.Done (e.content c.store)
  | .name _ _, _, hcomplete => h.complete hcomplete
  | .literal .., _, _ => done_plain
  | .closure .., _, _ => nofun
  | .tuple _ _, hfree, hcomplete => by
    rw [completionOfValue, Ne, Completion.all_eq_incomplete] at hcomplete
    exact done_tuple.2 (h.done_values hfree hcomplete)

theorem done_values (h : Tracks v s c) : ∀ {es : List Expr}, Expr.areCallFree es = true →
    .incomplete ∉ s.completionsOfValues es → ∀ w ∈ Expr.contents c.store es, c.Done w
  | [], _, _ => nofun
  | _ :: _, hfree, hcomplete => by
    rw [Expr.areCallFree, Bool.and_eq_true] at hfree
    rw [completionsOfValues, mem_cons, not_or] at hcomplete
    exact forall_mem_cons.2 ⟨h.done_value hfree.1 fun heq => hcomplete.1 heq.symm, h.done_values hfree.2 hcomplete.2⟩

end

/-- A step that binds one drawn name `y`. -/
theorem learn (hv : v.Fits) (h : Tracks v s c) (hn : s.Noted F B S) (hy : Drawn s t y)
    (hstore : d.store = Function.update c.store y w) (hr : c.realized ⊆ d.realized)
    (hdone : t.completionOf y ≠ .incomplete → d.Done w)
    (hcomplete : ∀ {x}, x ≠ y → t.completionOf x ≠ .incomplete → s.completionOf x ≠ .incomplete ∨ d.Done (c.store x))
    (hstand : ∀ {x e}, t.standIn? x = some e → s.standIn? x = some e ∨
      ∃ typing, e = .name y typing ∧ Name.root y = Name.root x ∧ s.Past x ∧ c.Mirrors (c.store x) w ∧
        ∀ ty, v.labels x ty = true → typing.ty = ty)
    (hfields : ∀ {x fields}, t.componentsOf? x = some fields → s.componentsOf? x = some fields ∨
      x = y ∧ (∀ e ∈ fields, Traced v e) ∧ (∀ e ∈ fields, ∀ z ∈ e.names, s.Past z) ∧
        w = .tuple (Expr.contents c.store fields))
    (hclosures : ∀ {x e}, t.closureOf? x = some e → s.closureOf? x = some e ∨
      x = y ∧ (e.isCallFree = true ∧ e.isLabeled v.labels = true) ∧ (∀ z ∈ e.names, s.Past z) ∧ w = e.content c.store)
    (hforgot : ∀ {x}, t.closureOf? x = none → x = y ∨ s.closureOf? x = none)
    (hdata : v.data y = true → w.isData = true) (hbare : d.Bare w)
    (hresults : t.inEntry = true → ∀ {x}, x ∈ t.selfResults → x ∈ v.own) : Tracks v t d := by
  have hself : d.store y = w := by rw [hstore, Function.update_self]
  have hother : ∀ z, z ≠ y → d.store z = c.store z := fun z hz => by rw [hstore, Function.update_of_ne hz]
  have hpast : ∀ z, s.Past z → d.store z = c.store z := fun z hz => hother z (hz.ne_drawn hy)
  have hcontents : ∀ {fields : List Expr}, (∀ e ∈ fields, ∀ z ∈ e.names, s.Past z) →
      Expr.contents d.store fields = Expr.contents c.store fields := by
    intro fields hnames
    refine Expr.contents_congr fun z hz => ?_
    obtain ⟨e, he, hz⟩ := Expr.mem_namesAll.1 hz
    exact hpast z (hnames e he z hz)
  refine ⟨fun {x} hx => ?_, fun {x e} hx => ?_, fun {x fields} hx => ?_, fun {x e} hx => ?_, fun {x} hnone => ?_,
    fun {x} hx => ?_, fun {x} hx => ?_, fun {x} hx => ?_, hresults⟩
  · by_cases hxy : x = y
    · rw [hxy, hself]
      exact hdone (hxy ▸ hx)
    · rw [hother x hxy]
      exact (hcomplete hxy hx).elim (fun hx => (h.complete hx).mono hr) id
  · rcases hstand hx with hx | ⟨typing, rfl, hroot, hpx, hmirrors, htyping⟩
    · obtain ⟨z, typing, rfl, hz, hmirrors, htyping⟩ := h.standIns hx
      obtain ⟨-, hpx, _, _, heq, -, -, hpz⟩ := hn.standIns hx
      cases heq
      refine ⟨z, typing, rfl, hz, ?_, htyping⟩
      rw [hpast x hpx, hpast z hpz]
      exact hmirrors.mono hr
    · refine ⟨y, typing, rfl, hroot, ?_, htyping⟩
      rw [hpast x hpx, hself]
      exact hmirrors.mono hr
  · rcases hfields hx with hx | ⟨rfl, htraced, hnames, hcontent⟩
    · obtain ⟨htraced, hcontent⟩ := h.fields hx
      obtain ⟨-, hpx, hnames⟩ := hn.fields hx
      exact ⟨htraced, by rw [hpast x hpx, hcontent, hcontents fun e he z hz => (hnames e he z hz).2]⟩
    · exact ⟨htraced, by rw [hself, hcontent, hcontents hnames]⟩
  · rcases hclosures hx with hx | ⟨rfl, htraced, hnames, hcontent⟩
    · obtain ⟨htraced, hcontent⟩ := h.closures hx
      obtain ⟨-, hpx, -, hnames⟩ := hn.closures hx
      exact ⟨htraced, by rw [hpast x hpx, hcontent, Expr.content_congr fun z hz => hpast z (hnames z hz).2]⟩
    · exact ⟨htraced, by rw [hself, hcontent, Expr.content_congr fun z hz => hpast z (hnames z hz)]⟩
  · by_cases hxy : x = y
    · rwa [hxy, hself]
    · rw [hother x hxy]
      exact (h.bare ((hforgot hnone).resolve_left hxy)).mono hr
  · by_cases hxy : x = y
    · rw [hxy, hself]
      exact hdata (hxy ▸ hx)
    · rw [hother x hxy]
      exact h.data hx
  · by_cases hxy : x = y
    · rwa [hxy, hself]
    · rw [hother x hxy]
      exact (h.drawn hx).mono hr
  · have hxy : x ≠ y := fun hxy => not_isDrawn (hv.own x hx) (hxy ▸ hy.isDrawn)
    rw [hother x hxy]
    exact h.own hx

theorem substitute (h : Tracks v s c) (hy : Name.root y = Name.root x)
    (hmirrors : c.Mirrors (c.store x) (c.store y)) (htyping : ∀ ty, v.labels x ty = true → typing.ty = ty) :
    Tracks v (s.substitute x (.name y typing)) c where
  complete := h.complete
  standIns hz := by
    rw [standIn?_substitute] at hz
    split at hz
    · rename_i hzx
      cases hz
      exact ⟨y, typing, rfl, hzx ▸ hy, hzx ▸ hmirrors, hzx ▸ htyping⟩
    · exact h.standIns hz
  fields := h.fields
  closures := h.closures
  bare := h.bare
  data := h.data
  drawn := h.drawn
  own := h.own
  results := h.results

mutual

theorem isData_content (h : Tracks v s c) :
    ∀ {e : Expr}, e.isCallFree = true → e.isData v.data = true → (e.content c.store).isData = true
  | .name _ _, _, hdata => h.data hdata
  | .literal .., _, _ => rfl
  | .tuple _ _, hfree, hdata => h.areData_contents hfree hdata

theorem areData_contents (h : Tracks v s c) : ∀ {es : List Expr}, Expr.areCallFree es = true →
    Expr.areData v.data es = true → Content.areData (Expr.contents c.store es) = true
  | [], _, _ => rfl
  | _ :: _, hfree, hdata => by
    rw [Expr.areCallFree, Bool.and_eq_true] at hfree
    rw [Expr.areData, Bool.and_eq_true] at hdata
    rw [Expr.contents, Content.areData, h.isData_content hfree.1 hdata.1, h.areData_contents hfree.2 hdata.2]
    rfl

end

section Steps
variable (hv : v.Fits) (h : Tracks v s c) (hn : s.Noted F B S) (hs : s.Stems)
include hv h hn hs

theorem realized (he : e.symbol? = some x) (hpast : s.Past x) (hbare : c.Bare (c.store x))
    (htyping : ∀ ty, v.labels x ty = true → typing.ty = ty) :
    Tracks v (s.realized x e typing) (c.after registry [s.boundary x e typing]) := by
  have hcounter : s.phases.counter < (s.realized x e typing).phases.counter := Nat.lt_succ_self _
  have hroot : Name.root (s.phases.derive x).1 = Name.root x := by rw [hs.derive, root_realized]
  generalize hd : c.after registry [s.boundary x e typing] = d
  rw [State.boundary, after_one, bind_boundary he] at hd
  have hr : d.realized = (c.store x).keys ++ c.realized := by rw [← hd]
  have hdone : d.Done (c.store x) := fun key hkey => isDone_of_mem (hr ▸ mem_append_left _ hkey)
  have hsub : c.realized ⊆ d.realized := hr ▸ subset_append_right _ _
  refine h.learn hv hn (drawn_derived hs x hcounter) (by rw [← hd]) hsub (fun _ => hdone) (fun {z} hzy hz => ?_)
    (fun {z f} hz => ?_) .inl .inl .inr (fun hdata => h.data (by rwa [Survey.data_of_root hroot] at hdata))
    (hbare.mono hsub) h.results
  · by_cases hzx : z = x
    · exact .inr (hzx ▸ hdone)
    · rw [completionOf_realized, if_neg hzx, if_neg hzy] at hz
      exact .inl hz
  · rw [standIn?_realized] at hz
    split at hz
    · rename_i hzx
      subst hzx
      cases hz
      exact .inr ⟨_, rfl, hroot, hpast, .refl _ _, htyping⟩
    · exact .inl hz

theorem rebuilt (hpast : s.Past x) (hfields : ∀ e ∈ fields, Traced v e)
    (hnames : ∀ e ∈ fields, ∀ z ∈ e.names, s.Past z)
    (hmirrors : c.Mirrors (c.store x) (.tuple (Expr.contents c.store fields)))
    (htyping : ∀ ty, v.labels x ty = true → typing.ty = ty) :
    Tracks v (s.rebuilt x fields typing) (c.after registry [s.tupleBind x fields typing]) := by
  have hcounter : s.phases.counter < (s.rebuilt x fields typing).phases.counter := Nat.lt_succ_self _
  have hy : Drawn s (s.rebuilt x fields typing) (s.phases.derive x).1 := drawn_derived hs x hcounter
  have hroot : Name.root (s.phases.derive x).1 = Name.root x := by rw [hs.derive, root_realized]
  have hfree : Expr.areCallFree fields = true := Expr.areCallFree_iff.2 fun e he => (hfields e he).callFree
  have hdata : (Content.tuple (Expr.contents c.store fields)).isData = true :=
    h.areData_contents hfree (Expr.areData_iff.2 fun e he => (hfields e he).data)
  have hdone : Completion.all (s.completionsOfValues fields) ≠ .incomplete →
      c.Done (.tuple (Expr.contents c.store fields)) := fun hcomplete =>
    done_tuple.2 (h.done_values hfree fun hmem => hcomplete (Completion.all_eq_incomplete.2 hmem))
  generalize hd : c.after registry [s.tupleBind x fields typing] = d
  rw [tupleBind, after_one, bind_tuple hfree] at hd
  have hsub : c.realized ⊆ d.realized := by rw [← hd]; exact Subset.refl _
  refine h.learn hv hn hy (by rw [← hd]) hsub (fun hz => ?_) (fun {z} hzy hz => ?_) (fun {z f} hz => ?_)
    (fun {z fs} hz => ?_) .inl .inr (fun _ => hdata) (bare_of_isData hdata) h.results
  · rw [completionOf_rebuilt, if_neg (hpast.ne_drawn hy).symm, if_pos rfl] at hz
    exact (hdone hz).mono hsub
  · rw [completionOf_rebuilt] at hz
    by_cases hzx : z = x
    · rw [if_pos hzx] at hz
      exact .inr (hzx ▸ (hmirrors.done (hdone hz)).mono hsub)
    · rw [if_neg hzx, if_neg hzy] at hz
      exact .inl hz
  · rw [standIn?_rebuilt] at hz
    split at hz
    · rename_i hzx
      subst hzx
      cases hz
      exact .inr ⟨_, rfl, hroot, hpast, hmirrors, htyping⟩
    · exact .inl hz
  · rw [componentsOf?_rebuilt] at hz
    split at hz
    · cases hz
      exact .inr ⟨‹_›, hfields, hnames, rfl⟩
    · exact .inl hz

theorem reclosed {like : Expr}
    (hclosure : value.isCallFree = true ∧ value.isLabeled v.labels = true)
    (hshape : ∃ function captured typing, value = .closure function captured typing)
    (hnames : ∀ z ∈ value.names, s.Past z) (hbare : c.Bare (value.content c.store)) (hx : v.data x = false) :
    Tracks v (s.reclosed x like value) (c.after registry [s.closureBind x like value]) := by
  have hcounter : s.phases.counter < (s.reclosed x like value).phases.counter := Nat.lt_succ_self _
  have hroot : Name.root (s.phases.derive x).1 = Name.root x := by rw [hs.derive, root_realized]
  generalize hd : c.after registry [s.closureBind x like value] = d
  rw [closureBind, after_one, Expr.renamed, bind_callFree hclosure.1] at hd
  have hsub : c.realized ⊆ d.realized := by rw [← hd]; exact Subset.refl _
  have hdone : d.Done (value.content c.store) := by
    obtain ⟨function, captured, typing, rfl⟩ := hshape
    exact nofun
  refine h.learn hv hn (drawn_derived hs x hcounter) (by rw [← hd]) hsub (fun _ => hdone)
    (fun {z} hzy hz => ?_) .inl .inl
    (fun {z f} hz => ?_) (fun {z} hz => ?_) (fun hdata => ?_) (hbare.mono hsub) h.results
  · rw [completionOf_reclosed, if_neg hzy] at hz
    exact .inl hz
  · rw [closureOf?_reclosed] at hz
    split at hz
    · cases hz
      exact .inr ⟨‹_›, hclosure, hnames, rfl⟩
    · exact .inl hz
  · rw [closureOf?_reclosed] at hz
    split at hz
    · cases hz
    · exact .inr hz
  · rw [Survey.data_of_root hroot, hx] at hdata
    cases hdata

theorem hoisted {entry : String} {completion : Completion} (hentry : function.symbol? ≠ some entry)
    (htuple : function.symbol? = some Snippet.makeTuple → ∀ e ∈ arguments, Traced v e)
    (hnames : ∀ e ∈ arguments, ∀ z ∈ e.names, s.Past z) (hcomplete : completion ≠ .incomplete →
      (c.read registry (.apply function arguments typing)).2.Done
        (c.read registry (.apply function arguments typing)).1)
    (hdata : (c.read registry (.apply function arguments typing)).1.isData = true) :
    Tracks v (s.hoisted entry (.apply function arguments typing) completion)
      (c.after registry [s.hoist (.apply function arguments typing)]) := by
  have hcounter : s.temporaries.counter <
      (s.hoisted entry (.apply function arguments typing) completion).temporaries.counter := Nat.lt_succ_self _
  have hy : Drawn s (s.hoisted entry (.apply function arguments typing) completion) s.temporaries.next.1 :=
    drawn_temporary hs hcounter
  rw [State.hoist, after_one]
  have hsymbol : ((Expr.apply function arguments typing).renamed s.temporaries.next.1).symbol? =
      some s.temporaries.next.1 := rfl
  have hrealized : (c.bind registry ((Expr.apply function arguments typing).renamed s.temporaries.next.1)
      (.apply function arguments typing)).realized =
        (c.read registry (.apply function arguments typing)).2.realized := realized_bind hsymbol
  have hsub : ∀ {ks}, ks ⊆ (c.read registry (.apply function arguments typing)).2.realized → ks ⊆ _ :=
    fun hks => hrealized ▸ hks
  refine h.learn hv hn hy (store_bind hsymbol) (hsub (realized_read c _)) (fun hz => ?_) (fun {z} hzy hz => ?_)
    (fun {z f} hz => ?_) (fun {z fs} hz => ?_) (fun {z f} hz => ?_) (fun {z} hz => ?_) (fun _ => hdata)
    (bare_of_isData hdata) (fun hin z hz => ?_)
  · rw [State.hoisted, completionOf_record, if_pos rfl] at hz
    exact (hcomplete hz).mono (hsub (Subset.refl _))
  · rw [State.hoisted, completionOf_record, if_neg hzy] at hz
    exact .inl hz
  · rw [State.hoisted, standIn?_record] at hz
    split at hz
    · cases hz
    · exact .inl hz
  · rw [State.hoisted, componentsOf?_record] at hz
    split at hz
    · rw [recordedFields_apply] at hz
      split at hz
      · rename_i hf
        cases hz
        have hfree : Expr.areCallFree arguments = true :=
          Expr.areCallFree_iff.2 fun e he => (htuple hf e he).callFree
        exact .inr ⟨‹_›, htuple hf, hnames, by rw [read_tuple hf hfree]⟩
      · cases hz
    · exact .inl hz
  · rw [State.hoisted, closureOf?_record] at hz
    split at hz
    · cases hz
    · exact .inl hz
  · rw [State.hoisted, closureOf?_record] at hz
    split at hz
    · exact .inl ‹_›
    · exact .inr hz
  · have hmem : z ∈ s.selfResults.filter (· ≠ s.temporaries.next.1) := by
      have hcallee : (Expr.apply function arguments typing).callee? ≠ some entry := hentry
      simp only [State.hoisted, State.record, if_neg hcallee] at hz
      exact hz
    exact h.results hin (mem_filter.1 hmem).1

end Steps

end Tracks

end Phases
end DataParallel
