import DataParallel.Proofs.Stages

/-! Adding storage changes nothing else.

The binds of storage are the ones whose targets are container forms. They read storage that the host
supplies or that was bound before them, and without them the entry procedure is what it was. -/

namespace DataParallel

open Name List

variable {module : Module}

namespace Stmt

variable {value : Expr}

mutual

def withoutStorage : Stmt → List Stmt
  | .bind target value => if target.symbol?.any isStorage then [] else [.bind target value]
  | .branch test whenTrue whenFalse => [.branch test (withoutStorageAll whenTrue) (withoutStorageAll whenFalse)]
  | .loop test body => [.loop test (withoutStorageAll body)]
  | s => [s]

def withoutStorageAll : List Stmt → List Stmt
  | [] => []
  | s :: rest => withoutStorage s ++ withoutStorageAll rest

end

theorem withoutStorage_view {target : Expr} (h : ∀ z ∈ target.names, IsView z) :
    withoutStorage (.bind target value) = [.bind target value] := by
  rw [withoutStorage]
  cases hx : target.symbol? with
  | none => rfl
  | some x =>
    have hview := not_storage_of_isView (h x (by rw [Expr.names_of_symbol hx]; exact mem_singleton_self x))
    simp [hview]

theorem withoutStorage_storage {storage : Expr} {x : String}
    (h : storage.symbol? = some (container x)) : withoutStorage (.bind storage value) = [] := by
  simp [withoutStorage, h, isStorage_container]

end Stmt

open Stmt in
theorem Containers.Stores.withoutStorageAll {S : String → Prop} {block out : List Stmt}
    (h : Stores S block out)
    (hviews : ∀ z ∈ namesAll block, IsView z) : withoutStorageAll out = block := by
  have hsplit : ∀ {s : Stmt} {rest : List Stmt}, (∀ z ∈ namesAll (s :: rest), IsView z) →
      (∀ z ∈ s.names, IsView z) ∧ ∀ z ∈ namesAll rest, IsView z :=
    fun h => ⟨fun z hz => h z (mem_append_left _ hz), fun z hz => h z (mem_append_right _ hz)⟩
  induction h with
  | nil => rfl
  | bind _ ih =>
    obtain ⟨hbind, hrest⟩ := hsplit hviews
    rw [Stmt.withoutStorageAll, withoutStorage_view fun z hz => hbind z (mem_append_left _ hz), ih hrest]
    rfl
  | view _ _ _ _ hs _ _ ih =>
    obtain ⟨hbind, hrest⟩ := hsplit hviews
    rw [Stmt.withoutStorageAll, Stmt.withoutStorageAll, withoutStorage_storage hs,
      withoutStorage_view fun z hz => hbind z (mem_append_left _ hz), ih hrest]
    rfl
  | tuple _ hs _ _ _ ih =>
    obtain ⟨hbind, hrest⟩ := hsplit hviews
    rw [Stmt.withoutStorageAll, Stmt.withoutStorageAll, withoutStorage_storage hs,
      withoutStorage_view fun z hz => hbind z (mem_append_left _ hz), ih hrest]
    rfl
  | ret _ ih =>
    rw [Stmt.withoutStorageAll, ih (hsplit hviews).2]
    rfl
  | branch _ _ _ iht ihf ih =>
    obtain ⟨hbranch, hrest⟩ := hsplit hviews
    rw [Stmt.withoutStorageAll, withoutStorage, iht fun z hz => hbranch z (by simp [hz]),
      ihf fun z hz => hbranch z (by simp [hz]), ih hrest]
    rfl
  | loop _ _ ihb ih =>
    obtain ⟨hloop, hrest⟩ := hsplit hviews
    rw [Stmt.withoutStorageAll, withoutStorage, ihb fun z hz => hloop z (by simp [hz]), ih hrest]
    rfl

theorem Module.all_of_isPlain (h : module.isPlain = true) :
    module.All fun p => Stmt.arePlain p.body = true := by
  intro s hs
  have hplain := all_eq_true.1 h s hs
  cases s with
  | procedure name parameters body => exact ⟨⟨name, parameters, body⟩, rfl, hplain⟩
  | _ => cases hplain

theorem Module.Rewrites.mono_of_mem {R R' : Procedure → Procedure → Prop} {module' : Module}
    (h : Rewrites R module module') (hR : ∀ p p', p.toStmt ∈ module → R p p' → R' p p') :
    Rewrites R' module module' := by
  induction h with
  | nil => exact .nil
  | cons hp _ ih => exact .cons (hR _ _ mem_cons_self hp) (ih fun p p' hmem => hR p p' (mem_cons_of_mem _ hmem))

/-- In a module without container forms, storage is added to the entry procedure alone. Its binds
stand in front of a bind of one name to another or behind a bind of a tuple, read storage that comes
from the host or from binds of storage in front of them, in the same block or around it, and can be
left out again. -/
theorem Module.backEntry_conservative {module module' : Module} {entry : String}
    (hplain : module.isPlain = true)
    (hviews : ∀ z ∈ Stmt.namesAll module, Name.IsView z) (h : module.backEntry entry = .ok module') :
    Module.Rewrites (fun p p' => (p.symbol? ≠ some entry → p' = p) ∧ (p.symbol? = some entry →
      p'.name = p.name ∧ p'.parameters = p.parameters ∧ Stmt.withoutStorageAll p'.body = p.body ∧
      Containers.Stores (· ∈ p.storedNames) p.body p'.body)) module module' := by
  refine (Module.backEntry_rewrites (Module.all_of_isPlain hplain) h).mono_of_mem fun p p' hmem => ?_
  rintro ⟨body, rfl, hstores, hkept⟩
  refine ⟨fun hne => ?_, fun hentry => ?_⟩
  · rw [Procedure.withBody, hkept hne]
  have hnames : ∀ z ∈ p.toStmt.names, Name.IsView z := fun z hz => hviews z (Stmt.mem_namesAll.2 ⟨_, hmem, hz⟩)
  have hknown : ∀ w, p.Known w → w ∈ p.storedNames :=
    fun w hw => hw.resolve_right fun hmentioned => hnames _ hmentioned w rfl
  refine ⟨rfl, rfl, ?_, (hstores hentry).mono hknown⟩
  exact (hstores hentry).withoutStorageAll fun z hz => hnames z (mem_append_right _ hz)

def vector : Typing := ⟨.sequence (.scalar .int32), some (.sequence (.scalar .int32))⟩

def count : Typing := ⟨.scalar .int32, some (.scalar .int32)⟩

def counted : Typing := ⟨.tuple [vector.ty, count.ty], some (.tuple [.sequence (.scalar .int32), .scalar .int32])⟩

def recounted : Typing := ⟨.tuple [vector.ty, counted.ty], do return .tuple [← vector.layout, ← counted.layout]⟩

/-- The storage behind a value of a type. -/
def Typing.stored (typing : Typing) : Typing := ⟨typing.ty, typing.layout.map Layout.containerForm⟩

/-- A procedure that builds a tuple and, in a branch, another one from it and a view that it has
bound anew. -/
def counting (storage viewStorage innerStorage : List Stmt) : Procedure where
  name := .name "main" count
  parameters := [.name "xs" vector, .name "zs" vector, .name "n" count]
  body :=
    .bind (.name "p" counted) (.applySnippet Snippet.makeTuple [.name "xs" vector, .name "n" count] counted) ::
    storage ++ [.branch (.name "n" count) (viewStorage ++ .bind (.name "zs" vector) (.name "xs" vector) ::
        .bind (.name "q" recounted)
          (.applySnippet Snippet.makeTuple [.name "zs" vector, .name "p" counted] recounted) :: innerStorage) [],
      .ret (.name "p" counted)]

def countingStored : Procedure :=
  counting [.bind (.name "p_array" counted.stored)
      (.applySnippet Snippet.makeTuple [.name "xs_array" vector.stored, .name "n" count] counted.stored)]
    [.bind (.name "zs_array" vector.stored) (.name "xs_array" vector.stored)]
    [.bind (.name "q_array" recounted.stored) (.applySnippet Snippet.makeTuple
      [.name "zs_array" vector.stored, .name "p_array" counted.stored] recounted.stored)]

theorem counting_conservative :
    Module.backEntry [(counting [] [] []).toStmt] "main" = .ok [countingStored.toStmt] ∧
    Stmt.withoutStorageAll countingStored.body = (counting [] [] []).body ∧
    Containers.Stores (· ∈ ["xs", "zs"]) (counting [] [] []).body countingStored.body := by
  have hok : Module.backEntry [(counting [] [] []).toStmt] "main" = .ok [countingStored.toStmt] := by rfl
  have hall := Module.backEntry_conservative (by decide) (fun z hz => Name.isView_of_last (by revert z; decide)) hok
  obtain ⟨p', hp', -, hentry⟩ := hall.get (i := 0) rfl
  cases Module.Rewrites.toStmt_inj (Option.some.inj hp')
  obtain ⟨-, -, hwithout, hstores⟩ := hentry rfl
  exact ⟨hok, hwithout, hstores⟩

end DataParallel
