import DataParallel.Proofs.Phases.Values

/-! Storage in step with the views it is behind.

The storage of a view is bound next to the view, in front of it or behind it. Between the two binds
one of them lags behind, and after both they hold the same value again. -/

namespace DataParallel

open Interpretation List Name DataParallel.Expr

variable {target target' value value' : Expr} {x x' : String} {names : List String}
  {rest : List Stmt} {half : Option (Expr × Expr)} {α : Type}

namespace Name
variable {name : String}

/-- Whether a name is the container form of another. -/
def isStorage (name : String) : Bool := "_array".toList.isSuffixOf name.toList

theorem isStorage_container (x : String) : isStorage (container x) = true := by
  rw [isStorage, isSuffixOf_iff_suffix, container, String.toList_append]
  exact suffix_append _ _

theorem isView_of_not_storage (h : isStorage name = false) : IsView name := by
  rintro base rfl
  rw [isStorage_container] at h
  cases h

theorem not_storage_of_isView (h : IsView name) : isStorage name = false := by
  rw [Bool.eq_false_iff]
  intro hs
  obtain ⟨base, hbase⟩ := isSuffixOf_iff_suffix.1 hs
  refine h (String.ofList base) (String.toList_inj.1 ?_)
  rw [container, String.toList_append, String.toList_ofList, hbase]

end Name

namespace Expr

/-- Whether an argument is the same as another or the storage behind it. -/
def isStorageOf (e e' : Expr) : Bool :=
  e' = e || e.symbol?.any fun x => e'.symbol? = some (container x)

def areStoragesOf : List Expr → List Expr → Bool
  | [], [] => true
  | e :: es, e' :: es' => isStorageOf e e' && areStoragesOf es es'
  | _, _ => false

/-- Whether two binds in a row bind a tuple of views and then the tuple of their storages, or the
storage behind a view to that behind another and then the view to the other. -/
def arePaired (target value target' value' : Expr) : Bool :=
  match target.symbol?, target'.symbol? with
  | some x, some x' =>
    (match value, value' with
      | .apply function arguments _, .apply function' arguments' _ =>
        function.symbol? = some Snippet.makeTuple && function'.symbol? = some Snippet.makeTuple &&
          x' = container x && !Name.isStorage x && areStoragesOf arguments arguments'
      | .name y _, .name y' _ => x = container x' && y = container y' && y' ≠ x'
      | _, _ => false)
  | _, _ => false

theorem paired_cases (h : arePaired target value target' value' = true)
    (hx : target.symbol? = some x) (hx' : target'.symbol? = some x') :
    (∃ function arguments typing function' arguments' typing', value = .apply function arguments typing ∧
      value' = .apply function' arguments' typing' ∧ function.symbol? = some Snippet.makeTuple ∧
      function'.symbol? = some Snippet.makeTuple ∧ x' = container x ∧ isStorage x = false ∧
      areStoragesOf arguments arguments' = true) ∨
    ∃ y, value.symbol? = some (container y) ∧ value'.symbol? = some y ∧ x = container x' ∧ y ≠ x' := by
  simp only [arePaired, hx, hx'] at h
  split at h
  · simp only [Bool.and_eq_true, decide_eq_true_eq, Bool.not_eq_true'] at h
    obtain ⟨⟨⟨⟨hf, hf'⟩, hcontainer⟩, hview⟩, hstorages⟩ := h
    exact .inl ⟨_, _, _, _, _, _, rfl, rfl, hf, hf', hcontainer, hview, hstorages⟩
  · simp only [Bool.and_eq_true, decide_eq_true_eq] at h
    obtain ⟨⟨hcontainer, rfl⟩, hne⟩ := h
    exact .inr ⟨_, rfl, rfl, hcontainer, hne⟩
  · cases h

end Expr

namespace Stmt
variable {s : Stmt}

mutual

def isInStep (names : List String) : Stmt → Bool
  | .branch _ whenTrue whenFalse => areInStep names whenTrue none && areInStep names whenFalse none
  | .loop _ body => areInStep names body none
  | _ => true

/-- Whether names whose container form is among `names`, and these container forms, are bound in
pairs only. The last argument has the first half of a pair. -/
def areInStep (names : List String) : List Stmt → Option (Expr × Expr) → Bool
  | [], half => half.isNone
  | .bind target value :: rest, some (target', value') =>
    arePaired target' value' target value && areInStep names rest none
  | .bind target value :: rest, none =>
    if target.symbol?.any fun x => isStorage x || container x ∈ names then
      target.symbol?.any (fun x => x ∉ value.names) && areInStep names rest (some (target, value))
    else areInStep names rest none
  | s :: rest, half => half.isNone && isInStep names s && areInStep names rest none

end

theorem areInStep_other (hs : ∀ target value, s ≠ .bind target value) :
    areInStep names (s :: rest) none = (s.isInStep names && areInStep names rest none) := by
  cases s with
  | bind target value => exact absurd rfl (hs target value)
  | _ => simp [areInStep]

theorem areInStep_cons (hs : ∀ target value, s ≠ .bind target value)
    (h : areInStep names (s :: rest) half = true) :
    half = none ∧ s.isInStep names = true ∧ areInStep names rest none = true := by
  cases s with
  | bind target value => exact absurd rfl (hs target value)
  | _ => simpa [areInStep, and_assoc] using h

end Stmt

/-- The names whose container form is among `names`. -/
def Backed (names : List String) (x : String) : Prop := container x ∈ names

def OfText (names : List String) (z : String) : Prop :=
  ¬ IsDrawn z ∧ ∀ y, z = container y → Backed names y

structure Lags (I : Interpretation α) (names : List String) (σ : Store α) (target value : Expr) (x : String)
    (v : Value α) : Prop where
  symbol : target.symbol? = some x
  fresh : x ∉ value.names
  text : ∀ z ∈ x :: value.names, OfText names z
  bound : σ x = some v
  value : I.Eval σ value v
  others : ∀ y, Backed names y → ¬ IsDrawn y ∧ (y ≠ x → container y ≠ x → I.read σ (container y) = I.read σ y)

/-- What holds between two statements: storage holds what its view holds, but for the pair of which
one half was bound just before. -/
def InStep (I : Interpretation α) (names : List String) (σ : Store α) : Option (Expr × Expr) → Prop
  | none => Phases.Synced I (Backed names) σ
  | some (target, value) => ∃ x v, Lags I names σ target value x v

section
variable {I : Interpretation α} {σ τ : Store α} {y : String} {v w : Value α} {arguments arguments' : List Expr}

theorem InStep.agree (h : InStep I names σ half) (hagree : Store.Agree σ τ) :
    InStep I names τ half := by
  have hread : ∀ y, ¬ IsDrawn y → I.read τ y = I.read σ y :=
    fun y hy => read_congr (hagree y hy).symm
  cases half with
  | none =>
    intro y hy
    obtain ⟨hsource, hy⟩ := h y hy
    exact ⟨hsource, by rw [hread _ (container_not_drawn y), hread y hsource, hy]⟩
  | some p =>
    obtain ⟨x, v, h⟩ := h
    have hx := (h.text x mem_cons_self).1
    have hvalue := fun z hz => (h.text z (mem_cons_of_mem _ hz)).1
    refine ⟨x, v, h.symbol, h.fresh, h.text, hagree x hx ▸ h.bound, (hagree.eval hvalue).1 h.value, fun y hy => ?_⟩
    obtain ⟨hsource, hstep⟩ := h.others y hy
    refine ⟨hsource, fun hne hne' => ?_⟩
    rw [hread _ (container_not_drawn y), hread y hsource, hstep hne hne']

theorem read_update_of_ne (h : y ≠ x) : I.read (Function.update σ x (some v)) y = I.read σ y :=
  read_congr (Function.update_of_ne h _ _)

theorem InStep.apart (h : InStep I names σ none) (hview : isStorage x = false)
    (hx : ¬ Backed names x) : InStep I names (Function.update σ x (some v)) none := by
  intro y hy
  obtain ⟨hsource, hstep⟩ := h y hy
  refine ⟨hsource, ?_⟩
  have hne : y ≠ x := fun hyx => hx (hyx ▸ hy)
  rw [read_update_of_ne hne, read_update_of_ne (isView_of_not_storage hview y).symm, hstep]

theorem InStep.first (h : InStep I names σ none) (hx : target.symbol? = some x)
    (hfresh : x ∉ value.names)
    (htext : ∀ z ∈ x :: value.names, OfText names z) (hv : I.Eval σ value v) :
    InStep I names (Function.update σ x (some v)) (some (target, value)) := by
  refine ⟨x, v, hx, hfresh, htext, Function.update_self _ _ _, ?_, fun y hy => ?_⟩
  · refine (eval_congr fun z hz => ?_).2 hv
    have hzx : z ≠ x := fun hzx => hfresh (hzx ▸ hz)
    exact Function.update_of_ne hzx _ _
  · obtain ⟨hsource, hstep⟩ := h y hy
    exact ⟨hsource, fun hne hne' => by rw [read_update_of_ne hne, read_update_of_ne hne', hstep]⟩

theorem evalAll_storages (h : areStoragesOf arguments arguments' = true)
    (hread : ∀ y, container y ∈ namesAll arguments' → y ∈ namesAll arguments →
      I.read σ (container y) = I.read σ y) (vs : List (Value α)) :
    I.EvalAll σ arguments' vs ↔ I.EvalAll σ arguments vs := by
  induction arguments generalizing arguments' vs with
  | nil =>
    cases arguments' with
    | nil => rfl
    | cons => cases h
  | cons e es ih =>
    cases arguments' with
    | nil => cases h
    | cons e' es' =>
      rw [areStoragesOf, Bool.and_eq_true] at h
      have hrest := @ih es' h.2 fun y hy hy' => hread y (mem_append_right _ hy) (mem_append_right _ hy')
      have hfirst : ∀ w, I.Eval σ e' w ↔ I.Eval σ e w := by
        intro w
        have hstorage := h.1
        rw [isStorageOf, Bool.or_eq_true, decide_eq_true_eq] at hstorage
        rcases hstorage with rfl | hstorage
        · rfl
        · obtain ⟨y, hy, hy'⟩ := (Option.any_eq_true _ _).1 hstorage
          have hy' := of_decide_eq_true hy'
          rw [eval_name hy, eval_name hy', hread y]
          · exact mem_append_left _ (by simp [names_of_symbol hy'])
          · exact mem_append_left _ (by simp [names_of_symbol hy])
      simp only [EvalAll, hfirst, hrest]

theorem Lags.meet {base : String} (h : Lags I names σ target value x v)
    (hviews : ∀ y, Backed names y → IsView y)
    (hpair : x = base ∧ x' = container base ∨ x' = base ∧ x = container base)
    (hbase : IsView base) : InStep I names (Function.update σ x' (some v)) none := by
  intro y hy
  refine ⟨(h.others y hy).1, ?_⟩
  have hread : I.read σ x = some v := by simp [Interpretation.read, h.bound]
  by_cases hyb : y = base
  · subst hyb
    rcases hpair with ⟨rfl, rfl⟩ | ⟨rfl, rfl⟩
    · rw [read_update_self, read_update_of_ne (hbase x), hread]
    · rw [read_update_self, read_update_of_ne (hbase x').symm, hread]
  · have hcontainer : container y ≠ container base := fun hc => hyb (container_inj hc)
    rcases hpair with ⟨rfl, rfl⟩ | ⟨rfl, rfl⟩
    · rw [read_update_of_ne hcontainer, read_update_of_ne (hviews y hy x)]
      exact (h.others y hy).2 hyb (hbase y).symm
    · rw [read_update_of_ne (hbase y).symm, read_update_of_ne hyb]
      exact (h.others y hy).2 (hviews y hy x') hcontainer

theorem Lags.second (hI : I.Functional) (hT : I.Transparent)
    (hviews : ∀ y, Backed names y → IsView y) (h : Lags I names σ target value x v)
    (hpaired : arePaired target value target' value' = true) (hx' : target'.symbol? = some x')
    (htext : ∀ z ∈ value'.names, OfText names z) (hw : I.Eval σ value' w) :
    InStep I names (Function.update σ x' (some w)) none := by
  rcases paired_cases hpaired h.symbol hx' with
    ⟨function, arguments, typing, function', arguments', typing', rfl, rfl, hf, hf', hcontainer, hview, hstorages⟩ |
      ⟨y, hy, hy', hcontainer, hne⟩
  · -- a tuple of views, and the tuple of their storages
    have hbase := isView_of_not_storage hview
    obtain ⟨vs, hvs, rfl⟩ := (eval_tupleCall hT hf).1 h.value
    obtain ⟨ws, hws, rfl⟩ := (eval_tupleCall hT hf').1 hw
    have hws' := (evalAll_storages hstorages (fun y hy hy' => ?_) ws).1 hws
    · rw [hws'.unique hI hvs]
      exact h.meet hviews (.inl ⟨rfl, hcontainer⟩) hbase
    · have hbacked := (htext _ (mem_append_right _ hy)).2 y rfl
      have hyx : y ≠ x := fun hyx => h.fresh (hyx ▸ mem_append_right _ hy')
      exact (h.others y hbacked).2 hyx (hbase y).symm
  · -- the storage of another view, and then the view
    have hbacked := (h.text x mem_cons_self).2 x' hcontainer
    have hbacked' := (h.text (container y) (by simp [names_of_symbol hy])).2 y rfl
    have hyx : container y ≠ x := fun hyx => hne (container_inj (hyx.trans hcontainer))
    have hread := (h.others y hbacked').2 (hcontainer ▸ hviews y hbacked' x') hyx
    have hv : some v = some w :=
      ((eval_name hy).1 h.value).symm.trans (hread.trans ((eval_name hy').1 hw))
    cases hv
    exact h.meet hviews (.inr ⟨rfl, hcontainer⟩) (hviews x' hbacked)

theorem InStep.bind (hI : I.Functional) (hT : I.Transparent)
    (hviews : ∀ y, Backed names y → IsView y)
    (hblock : Stmt.areInStep names (.bind target value :: rest) half = true) (h : InStep I names σ half)
    (hx : target.symbol? = some x) (htext : ∀ z ∈ x :: value.names, OfText names z) (hv : I.Eval σ value v) :
    ∃ half', Stmt.areInStep names rest half' = true ∧ InStep I names (Function.update σ x (some v)) half' := by
  cases half with
  | some p =>
    rw [Stmt.areInStep, Bool.and_eq_true] at hblock
    obtain ⟨y, w, h⟩ := h
    exact ⟨none, hblock.2, h.second hI hT hviews hblock.1 hx (fun z hz => htext z (mem_cons_of_mem _ hz)) hv⟩
  | none =>
    rw [Stmt.areInStep, hx, Option.any_some] at hblock
    split at hblock
    · rw [Option.any_some, Bool.and_eq_true, decide_eq_true_eq] at hblock
      exact ⟨_, hblock.2, h.first hx hblock.1 htext hv⟩
    · rename_i hapart
      rw [Bool.or_eq_true, decide_eq_true_eq, not_or, Bool.not_eq_true] at hapart
      exact ⟨none, hblock, h.apart hapart.1 hapart.2⟩

end

end DataParallel
