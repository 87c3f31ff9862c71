import DataParallel.Proofs.RebuiltValues

/-! Parameters are assigned as if all at once.

No argument may read the storage of a parameter that comes before its own: storage goes along with
its name, but only what reads a parameter itself is stored under a drawn name first. -/

namespace DataParallel

open Name (container)
open TailCall (reassign)

/-- Every parameter gets the value of its argument, and its storage what the storage of the argument
held. Where calls have one result, there is one run. -/
theorem TailCall.reassign_simultaneous {α : Type} {I : Interpretation α} {τ : Store α}
    {st st' : State}
    {parameters arguments : List Expr} {names : List String} {statements : List Stmt} {vs : List (Value α)}
    (h : (reassign parameters arguments).run st = .ok (statements, st'))
    (hnames : parameters.mapM Expr.symbol? = some names)
    (hnodup : names.Nodup) (hlength : arguments.length = names.length)
    (hdrawn : ∀ z ∈ names ++ Expr.namesAll arguments, ¬ st.temporaries.Draws z)
    (hforms : ∀ x ∈ names, ∀ y ∈ names ++ arguments.filterMap Expr.symbol?,
      x ≠ container y ∧ y ≠ container x)
    (hearlier : (names.zip arguments).Pairwise fun p q => container p.1 ∉ q.2.names)
    (hvs : I.EvalAll τ arguments vs) (hholds : Store.Holds st.declared τ) :
    ∃ τ', Exec I.machine τ statements (.falls τ') ∧
      (I.Functional → ∀ τ'', Exec I.machine τ statements (.falls τ'') → τ'' = τ') ∧
      (∀ x v, (x, v) ∈ names.zip vs → I.read τ' x = some v) ∧
      (∀ x e y, (x, e) ∈ names.zip arguments → e.symbol? = some y → container x ∈ st.declared →
        container y ∈ st.declared → τ' (container x) = τ (container y)) ∧
      ∀ z, (∀ x ∈ names, ¬ Name.Of x z) → ¬ st.temporaries.Draws z → τ' z = τ z := by
  have hsources : ∀ x ∈ names, ∀ e ∈ arguments, ∀ y, e.symbol? = some y →
      x ≠ container y ∧ y ≠ container x := fun x hx e he y hy =>
    hforms x hx y (List.mem_append_right _ (List.mem_filterMap.2 ⟨e, he, hy⟩))
  have hparameters : ∀ x ∈ names, ¬ st.temporaries.Draws x := fun x hx =>
    hdrawn x (List.mem_append_left _ hx)
  have harguments : ∀ e ∈ arguments, ∀ z ∈ e.names, ¬ st.temporaries.Draws z := fun e he z hz =>
    hdrawn z (List.mem_append_right _ (Expr.mem_namesAll.2 ⟨e, he, hz⟩))
  obtain ⟨τ', hrun, hupdates, hvalues, hstorage⟩ := reassign_run h hnames hnodup hlength
    (fun x hx h => hparameters x hx h.of_container) harguments
    (fun x hx e he h => (hsources x hx e he _ h).2 rfl) hearlier hvs hholds
  refine ⟨τ', hrun, fun hI τ'' hrun' => ?_, fun x v hx => ?_, fun x e y hx hy hdx hdy => ?_,
    fun z hz hfresh => hupdates.same z ?_⟩
  · cases Interpretation.exec_unique hI hrun' hrun rfl rfl
    rfl
  · exact hvalues x v hx fun x' hx' =>
      (hforms x (List.of_mem_zip hx).1 x' (List.mem_append_left _ hx')).1
  · refine hstorage x e y hx hy hdx hdy fun x' hx' =>
      ⟨?_, hparameters x' hx', fun e he y hy => (hsources x' hx' e he y hy).1⟩
    exact (hforms x' hx' x (List.mem_append_left _ (List.of_mem_zip hx).1)).1
  · rintro (h | ⟨x, hx, h⟩)
    · exact hfresh h
    · exact hz x hx h

def rowParameters : List Expr := [.name "xs" row, .name "ys" row, .name "n" number]

/-- Two rows with their storage. -/
def rowStore : Store Nat := fun x =>
  ([("xs", 1), ("xs_array", 2), ("ys", 3), ("ys_array", 4)].lookup x).map .datum

def rowState : TailCall.State := ⟨⟨"_iter", 0⟩, ["xs_array", "ys_array"]⟩

/-- The rows change places, and the total is that of the old first row. -/
theorem swapped_simultaneous : ∃ statements st' τ',
    (reassign rowParameters [.name "ys" row, .name "xs" row, totalled (.name "xs" row)]).run rowState =
      .ok (statements, st') ∧
    Exec Interpretation.echoing.machine rowStore statements (.falls τ') ∧
    τ' "xs_array" = some (.datum 4) ∧ τ' "ys_array" = some (.datum 2) ∧
    Interpretation.echoing.read τ' "n" = some (.datum 1) := by
  obtain ⟨statements, st', hrun⟩ : ∃ statements st',
      (reassign rowParameters [.name "ys" row, .name "xs" row, totalled (.name "xs" row)]).run rowState =
        .ok (statements, st') := ⟨_, _, rfl⟩
  have hfirst : ∀ z ∈ ["xs", "ys", "n"] ++ Expr.namesAll [.name "ys" row, .name "xs" row, totalled (.name "xs" row)],
      z.toList.head? ≠ some '_' := by decide
  have hholds : Store.Holds rowState.declared rowStore := by
    intro base hbase
    rcases List.mem_cons.1 hbase with h | h
    · rw [h]
      simp [rowStore]
    · rw [List.mem_singleton.1 h]
      simp [rowStore]
  have htotal : Interpretation.echoing.Eval rowStore (totalled (.name "xs" row)) (.datum 1) :=
    ⟨.procedure "total", [.datum 1], rfl, ⟨_, _, rfl, rfl, rfl⟩, rfl⟩
  have hvs : Interpretation.echoing.EvalAll rowStore
      [.name "ys" row, .name "xs" row, totalled (.name "xs" row)] [.datum 3, .datum 1, .datum 1] :=
    ⟨_, _, rfl, ⟨_, _, rfl, ⟨_, _, htotal, rfl, rfl⟩, rfl⟩, rfl⟩
  obtain ⟨τ', hexec, -, hvalues, hstorage, -⟩ := TailCall.reassign_simultaneous hrun rfl (by decide) rfl
    (by rintro z hz ⟨n, -, rfl | rfl⟩ <;> simpa [rowState, container] using hfirst _ hz)
    (by decide) (by decide) hvs hholds
  exact ⟨statements, st', τ', hrun, hexec, hstorage "xs" (.name "ys" row) "ys" (by simp) rfl (by decide) (by decide),
    hstorage "ys" (.name "xs" row) "xs" (by simp) rfl (by decide) (by decide), hvalues "n" (.datum 1) (by simp)⟩

/-- A total of the storage of the first row is taken when that has been assigned. -/
theorem reassign_reads_assigned_storage : ∃ statements st' τ',
    (reassign rowParameters [.name "ys" row, .name "ys" row, totalled (stored "xs_array")]).run rowState =
      .ok (statements, st') ∧
    Interpretation.echoing.Eval rowStore (totalled (stored "xs_array")) (.datum 2) ∧
    Exec Interpretation.echoing.machine rowStore statements (.falls τ') ∧ τ' "n" = some (.datum 4) :=
  ⟨_, _, _, rfl, ⟨.procedure "total", [.datum 2], rfl, ⟨_, _, rfl, rfl, rfl⟩, rfl⟩,
    .bind rfl ⟨rfl, rfl⟩ (.bind rfl ⟨rfl, rfl⟩ (.bind rfl
      ⟨rfl, .procedure "total", [.datum 4], rfl, ⟨_, _, rfl, rfl, rfl⟩, rfl⟩ (.nil _))), rfl⟩

end DataParallel
