import DataParallel.Proofs.Reading.Units

/-! Units that were read are well scoped: every name that is read has the type of its latest bind in
the text, or of its parameter, or else of the procedure, declaration or operator in front of it. -/

namespace DataParallel

variable {z : String}

/-- The types of names behind some items of a text: those of the procedures, else of the latest
declarations, else of the operators. -/
def Item.typeOf? (items : List Item) : String → Option Ty :=
  typesBehind (fun _ => none) Registry.standard.get? items

namespace Stmt

theorem AreTyped.written {types : String → Option Ty} {block : List Stmt} (h : AreTyped types block)
    (hz : z ∈ namesAll block) : Name.IsWritten z :=
  (AreRead.written (h.areRead fun _ => id) z hz).1

end Stmt

theorem Procedure.IsTyped.written_names {types : String → Option Ty} {p : Procedure}
    (h : p.IsTyped types) (hz : z ∈ p.toStmt.names) : Name.IsWritten z := by
  obtain ⟨x, ty, result, hname, hx, -⟩ := h.name
  rw [toStmt, Stmt.names, List.mem_append, List.mem_append, hname] at hz
  rcases hz with (hz | hz) | hz
  · cases List.mem_singleton.1 hz
    exact hx
  · exact h.written z hz
  · exact h.body.written hz

/-- A unit that is made of some items, each procedure typed with what stands in front of it. -/
structure SourceUnit.WellScoped (unit : SourceUnit) (items : List Item) : Prop where
  module : unit.module = (items.filterMap Item.procedure?).map Procedure.toStmt
  registry : ∀ x, unit.registry.get? x = (Name.latest? (Item.declarations items) x).or (Registry.standard.get? x)
  nodup : (unit.module.procedures.filterMap Procedure.symbol?).Nodup
  apart : ∀ p ∈ unit.module.procedures, ∀ x, p.symbol? = some x → unit.registry.contains x = false
  written : ∀ x ∈ Stmt.namesAll unit.module, x.toList.head? ≠ some '_'
  typed : ∀ before p after, items = before ++ .procedure p :: after →
    p.IsTyped (Item.typeOf? (before ++ [.procedure p]))

/-- A text that is read gives a unit that is well scoped. -/
theorem ofText?_wellScoped {text : List Char} {unit : SourceUnit}
    (h : SourceUnit.ofText? text = .ok unit) :
    ∃ items state, Reading.items? text = .ok (items, state) ∧ unit.WellScoped items := by
  obtain ⟨items, state, hitems, hmodule, hregistry⟩ := Reading.items?_of_ofText? h
  have known := Reading.areItems_of_items? hitems
  have hprocedures : unit.module.procedures = items.filterMap Item.procedure? := by
    rw [hmodule, Module.procedures_map_toStmt]
  refine ⟨items, state, hitems, hmodule, fun x => ?_, ?_, fun p hp x hx => ?_, fun x hx => ?_, known.typed⟩
  · rw [hregistry, known.registry]
    rfl
  · rw [hprocedures, ← Item.map_procedureTypes]
    exact known.nodup
  · rw [hregistry]
    refine known.apart (fun _ hnone => nomatch hnone) x ?_
    rw [Table.contains, ← Option.ne_none_iff_isSome, known.procedures, Name.typesAfter_ne_none]
    rw [Item.map_procedureTypes, ← hprocedures]
    exact .inr (List.mem_filterMap.2 ⟨p, hp, hx⟩)
  · obtain ⟨st, hst, hx⟩ := Stmt.mem_namesAll.1 hx
    obtain ⟨p, types, rfl, htyped⟩ := SourceUnit.ofText?_isTyped h st hst
    exact (htyped.written_names hx).1

/-- A declaration that replaces another one, and locals that leave a branch or hide what is
declared. -/
def shadowingText : List Char :=
  ("declare scale : fn(Int32, Int32) -> Int32 opaque; " ++
   "procedure inner(x: Int32) -> Int32 \x7b if x < 1 \x7b y = x; \x7d return scale(y, x); \x7d " ++
   "declare scale : fn(Float32, Int32) -> Float32 opaque; " ++
   "procedure outer(x: Int32, z: Float32) -> Int32 \x7b " ++
   "f = closure scale [z]; scale = inner(x); return scale; \x7d").toList

theorem shadowingText_wellScoped : ∃ unit items state, SourceUnit.ofText? shadowingText = .ok unit ∧
    Reading.items? shadowingText = .ok (items, state) ∧ unit.WellScoped items := by
  have hreads : (SourceUnit.ofText? shadowingText).toOption.isSome = true := by decide +kernel
  cases h : SourceUnit.ofText? shadowingText with
  | error e =>
    rw [h] at hreads
    cases hreads
  | ok unit =>
    obtain ⟨items, state, hitems, hscoped⟩ := ofText?_wellScoped h
    exact ⟨unit, items, state, rfl, hitems, hscoped⟩

end DataParallel
