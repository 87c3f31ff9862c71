import DataParallel.Proofs.HostArguments
import DataParallel.Proofs.LayoutForms
import DataParallel.Proofs.Stages

/-! What the host sees of a lowered module is fixed by the signature of its entry procedure. -/

namespace DataParallel

open Layout

variable {entry : String} {p p' : Procedure}

namespace Wrapper
variable {e : Expr}

def argumentOf (parameter : String × Ty) : String × Layout :=
  if parameter.2.isAggregate then (Name.container parameter.1, (ofTy parameter.2).containerForm)
  else (parameter.1, ofTy parameter.2)

/-- What the host has to know of an entry procedure, by its signature. -/
def ofSignature (entry : String) (names : List String) (types : List Ty) (result : Ty) : Wrapper :=
  ⟨Name.wrapper entry, (ofTy result).containerForm, (names.zip types).map argumentOf⟩

theorem needsContainer_argumentOf (parameter : String × Ty) :
    (argumentOf parameter).2.needsContainer = false := by
  rw [argumentOf]
  split
  · exact needsContainer_containerForm _
  · rename_i haggregate
    rw [needsContainer_ofTy]
    exact Bool.eq_false_iff.2 haggregate

theorem wrapParameter_laid {x : String} {wrapped : Parameter} (hx : e.symbol? = some x)
    (h : wrapParameter entry e.laid = .ok wrapped) : (wrapped.symbol, wrapped.layout) = argumentOf (x, e.ty) := by
  rw [Expr.eq_name_of_symbol hx] at h ⊢
  have hview : (Expr.name x e.typing).laid.needsContainer = e.ty.isAggregate := needsContainer_ofTy e.ty
  rw [argumentOf]
  unfold wrapParameter at h
  rw [hview] at h
  cases haggregate : e.ty.isAggregate with
  | true =>
    rw [haggregate] at h
    cases h
    exact (if_pos haggregate).symm
  | false =>
    rw [haggregate] at h
    cases h
    exact (if_neg (Bool.eq_false_iff.1 haggregate)).symm

theorem wrapParameters_laid : ∀ {es : List Expr} {names : List String} {wrapped : List Parameter},
    es.mapM Expr.symbol? = some names → (Expr.laidAll es).mapM (wrapParameter entry) = .ok wrapped →
    wrapped.map (fun w => (w.symbol, w.layout)) = (names.zip (es.map Expr.ty)).map argumentOf
  | [], _, _, hnames, h => by
    cases hnames
    cases h
    rfl
  | e :: es, _, _, hnames, h => by
    simp only [List.mapM_cons, Option.bind_eq_bind, Option.bind_eq_some_iff] at hnames
    obtain ⟨x, hx, names, hnames, hcons⟩ := hnames
    cases hcons
    rw [Expr.laidAll, List.mapM_cons] at h
    obtain ⟨first, hfirst, h⟩ := Except.bind_ok_iff.1 h
    obtain ⟨rest, hrest, h⟩ := Except.bind_ok_iff.1 h
    cases h
    rw [List.map_cons, List.map_cons, List.zip_cons_cons, List.map_cons, wrapParameter_laid hx hfirst,
      wrapParameters_laid hnames hrest]

theorem resultTyping_laid {result : Ty} {layout : Layout}
    (h : resultTyping entry e.laid = .ok (result, layout)) :
    ∃ types, e.ty = .function types result ∧ layout = ofTy result := by
  have hty : e.laid.ty = e.ty := by cases e <;> rfl
  have hlayout : e.laid.expectLayout = .ok (ofTy e.ty) := by
    rw [Expr.expectLayout, Expr.layout, e.typing_laid]
    rfl
  rw [resultTyping, hty, hlayout] at h
  split at h
  · rename_i types declared hfunction
    rw [hfunction] at h
    cases h
    exact ⟨types, hfunction, rfl⟩
  · cases h

theorem ofProcedure_laid {procedure wrapping : Procedure} {wrapper : Wrapper} {names : List String}
    (hname : procedure.name = p.name.laid) (hparameters : procedure.parameters = Expr.laidAll p.parameters)
    (hnames : p.parameterNames? = some names) (h : ofProcedure entry procedure = .ok (wrapping, wrapper)) :
    ∃ types result, p.name.ty = .function types result ∧
      wrapper = ofSignature entry names (p.parameters.map Expr.ty) result ∧
      wrapping.symbol? = some (Name.wrapper entry) := by
  obtain ⟨⟨result, layout⟩, hresult, h⟩ := Except.bind_ok_iff.1 h
  obtain ⟨wrapped, hwrapped, h⟩ := Except.bind_ok_iff.1 h
  cases h
  rw [hparameters] at hwrapped
  obtain ⟨types, hty, hlayout⟩ := resultTyping_laid (hname ▸ hresult)
  refine ⟨types, result, hty, ?_, rfl⟩
  rw [ofSignature, hlayout, wrapParameters_laid hnames hwrapped]

end Wrapper

/-- What the host sees of a lowered module is fixed by the signature of the entry procedure, which
stays in place. -/
theorem lower_hosts_signature {text : List Char} {unit : SourceUnit} {entry : String}
    {lowered : Lowered}
    (hread : SourceUnit.ofText? text = .ok unit) (hlower : unit.module.lower unit.registry entry = .ok lowered) :
    ∃ (p p' wrapping : Procedure) (names : List String) (result : Ty),
      unit.module.findProcedure? entry = some p ∧ p.name.ty = .function (p.parameters.map Expr.ty) result ∧
      p.parameterNames? = some names ∧ names.length = p.parameters.length ∧
      lowered.module.findProcedure? entry = some p' ∧ p'.name = p.name.laid ∧
      p'.parameters = Expr.laidAll p.parameters ∧
      lowered.module.getLast? = some wrapping.toStmt ∧ wrapping.symbol? = some ("_wrap_" ++ entry) ∧
      lowered.wrapper = Wrapper.ofSignature entry names (p.parameters.map Expr.ty) result ∧
      lowered.wrapper.result.needsContainer = false ∧
      ∀ argument ∈ lowered.wrapper.arguments, argument.2.needsContainer = false := by
  have hall : unit.module.All fun p => Stmt.arePatterned p.body = true := by
    intro st hst
    obtain ⟨p, types, rfl, htyped⟩ := SourceUnit.ofText?_isTyped hread st hst
    have hread : Stmt.AreRead (fun _ => True) p.body := htyped.body.areRead fun _ _ => trivial
    exact ⟨p, rfl, hread.arePatterned⟩
  obtain ⟨flat, backed, looped, p', wrapping, -, -, hrewrites, hfound, hwrapping, hmodule⟩ :=
    Module.lower_stages hall hlower
  have hrel := hrewrites.findProcedure? (x := entry) fun p p' h => h.symbol?_eq
  rw [hfound] at hrel
  generalize hp : unit.module.findProcedure? entry = found at hrel
  obtain @⟨p, _, hlowers⟩ := hrel
  obtain ⟨hname, hparameters⟩ := hlowers.header
  obtain ⟨q, types, hq, htyped⟩ := SourceUnit.ofText?_isTyped hread _
    (Module.mem_procedures.1 (List.mem_of_find?_eq_some hp))
  cases Module.Rewrites.toStmt_inj hq
  obtain ⟨declared, result, hty, hwrapper, hsymbol⟩ :=
    Wrapper.ofProcedure_laid hname hparameters htyped.parameters hwrapping
  refine ⟨p, p', wrapping, _, result, rfl, ?_, htyped.parameters, ?_, ?_, hname, hparameters, ?_, hsymbol,
    hwrapper, ?_, ?_⟩
  · obtain ⟨x, ty, result', hx, -, -, hfunction⟩ := htyped.name
    rw [hx] at hty ⊢
    cases hty
    cases hfunction
    rfl
  · exact Procedure.parameterNames_length htyped.parameters
  · rw [hmodule, Module.findProcedure?, Module.procedures, List.filterMap_append, List.find?_append]
    rw [Module.findProcedure?, Module.procedures] at hfound
    rw [hfound]
    rfl
  · rw [hmodule, List.getLast?_concat]
  · rw [hwrapper]
    exact Layout.needsContainer_containerForm _
  · rw [hwrapper]
    intro argument hargument
    obtain ⟨parameter, -, rfl⟩ := List.mem_map.1 hargument
    exact Wrapper.needsContainer_argumentOf parameter

/-- Rows of pairs, a pair with a row, and a number. -/
def hostedText : List Char :=
  ("procedure main(rows: [(Int32, [Float32])], p: ([Float32], Int32), n: Int32) -> (([Float32], Int32), Int32) " ++
   "\x7b q = (p, n); return q; \x7d").toList

theorem hostedText_hosts_signature :
    ∃ (unit : SourceUnit) (lowered : Lowered) (p : Procedure) (names : List String)
    (result : Ty), SourceUnit.ofText? hostedText = .ok unit ∧
    unit.module.lower unit.registry "main" = .ok lowered ∧ unit.module.findProcedure? "main" = some p ∧
    lowered.wrapper = Wrapper.ofSignature "main" names (p.parameters.map Expr.ty) result ∧
    lowered.wrapper.arguments.map Prod.fst = ["rows_array", "p_array", "n"] := by
  have hchecks : ((SourceUnit.ofText? hostedText).toOption.any fun unit =>
      (unit.module.lower unit.registry "main").toOption.any fun lowered =>
        decide (lowered.wrapper.arguments.map Prod.fst = ["rows_array", "p_array", "n"])) = true := by
    decide +kernel
  obtain ⟨unit, hread, hchecks⟩ := Except.any_toOption.1 hchecks
  obtain ⟨lowered, hlower, hchecks⟩ := Except.any_toOption.1 hchecks
  obtain ⟨p, p', wrapping, names, result, hp, -, -, -, -, -, -, -, -, hwrapper, -⟩ := lower_hosts_signature hread hlower
  exact ⟨unit, lowered, p, names, result, hread, hlower, hp, hwrapper, of_decide_eq_true hchecks⟩

end DataParallel
