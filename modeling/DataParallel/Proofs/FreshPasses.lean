import DataParallel.Proofs.Containers
import DataParallel.Proofs.FreshBinds
import DataParallel.Proofs.Unpacking

/-! The steps in front of phase analysis keep binds fresh.

Taking tuples out of binds adds binds of drawn names, and storage is bound behind the tuples of
views that it belongs to. Neither of these names can be written in a text. -/

namespace DataParallel

open DataParallel.Expr List Name Stmt

variable {m n : Nat} {z : String} {seen : String → Prop} {names' : List String} {out : List Stmt} {s : Stmt}
  {target value : Expr}

theorem Procedure.IsRead.written {global : String → Prop} {p : Procedure} (h : p.IsRead global) :
    ∀ z ∈ p.toStmt.names, IsWritten z := by
  obtain ⟨⟨x, ty, hname, hx, -⟩, parameters, hparameters, -, hwritten, hbody⟩ := h
  intro z hz
  simp only [Procedure.toStmt, Stmt.names, hname, Expr.names, Procedure.namesAll_parameters hparameters,
    mem_append, mem_singleton] at hz
  rcases hz with (rfl | hz) | hz
  · exact hx
  · exact hwritten z hz
  · exact (hbody.written z hz).1

/-- The names that flattening puts into a text: snippets for tuples, and the first `n` temporaries.
-/
def Name.IsMade (n : Nat) (z : String) : Prop :=
  z = Snippet.makeTuple ∨ (∃ index, z = Snippet.project index) ∨ ∃ k < n, z = "_tup" ++ toString k

namespace Name

theorem IsMade.mono (h : IsMade m z) (hmn : m ≤ n) : IsMade n z := by
  rcases h with h | h | ⟨k, hk, h⟩
  · exact .inl h
  · exact .inr (.inl h)
  · exact .inr (.inr ⟨k, Nat.lt_of_lt_of_le hk hmn, h⟩)

theorem temporary_not_written {stem : String} (hstem : stem.toList.head? = some '_') (k : Nat) :
    ¬ IsWritten (stem ++ toString k) := by
  rintro ⟨hfirst, -⟩
  rw [String.toList_append, head?_append, hstem] at hfirst
  exact hfirst rfl

theorem temporary_not_made (n : Nat) : ¬ IsMade n ("_tup" ++ toString n) := by
  have hsnippet : ∀ z : String, z.toList.head? = some 't' → "_tup" ++ toString n ≠ z := by
    rintro z hz h
    rw [← h, String.toList_append, head?_append] at hz
    cases hz
  rintro (h | ⟨index, h⟩ | ⟨k, hk, h⟩)
  · exact hsnippet _ (by decide) h
  · exact hsnippet _ (by rw [Snippet.project, String.toList_append, String.toList_append]; rfl) h
  · exact Nat.ne_of_gt hk (toString_inj ((String.append_right_inj "_tup").1 h))

theorem IsWritten.not_made (h : IsWritten z) : ¬ IsMade n z := by
  have hcolon : ':' ∉ z.toList := fun hmem => absurd (h.2 ':' hmem) (by decide)
  rintro (rfl | ⟨index, rfl⟩ | ⟨k, -, rfl⟩)
  · exact hcolon (by decide)
  · refine hcolon ?_
    rw [Snippet.project, String.toList_append, String.toList_append]
    exact mem_append_left _ (mem_append_left _ (by decide))
  · exact temporary_not_written (by decide) k h

end Name

namespace Stmt

variable {supply : Supply} {names : List String}

/-- What flattening from the `n`-th temporary on gives: binds of fresh names, that mention no other
names than `names` and what is made up. -/
structure Flattened (seen : String → Prop) (n : Nat) (names : List String) (out : List Stmt) (supply : Supply) :
    Prop where
  stem : supply.stem = "_tup"
  le : n ≤ supply.counter
  fresh : AreFresh seen out
  names : ∀ z ∈ namesAll out, z ∈ names ∨ IsMade supply.counter z

def FlattensFresh (seen : String → Prop) (n : Nat) (names : List String) (steps : Lower Supply (List Stmt)) : Prop :=
  Triple (fun _ => True) (· = ⟨"_tup", n⟩) steps (Flattened seen n names)

theorem FlattensFresh.pure (hfresh : AreFresh seen out)
    (hnames : ∀ z ∈ namesAll out, z ∈ names ∨ IsMade n z) :
    FlattensFresh seen n names (Pure.pure out) := by
  rintro s rfl
  exact ⟨rfl, Nat.le_refl _, hfresh, hnames⟩

theorem FlattensFresh.append {first rest : Lower Supply (List Stmt)}
    (hfirst : FlattensFresh seen n names first)
    (hrest : ∀ out s, Flattened seen n names out s → FlattensFresh (Also seen (namesAll out)) s.counter names' rest) :
    FlattensFresh seen n (names ++ names') (first >>= fun out => rest >>= fun out' => Pure.pure (out ++ out')) := by
  refine Triple.bind hfirst fun out s hs => ?_
  have hstate : s = ⟨"_tup", s.counter⟩ := by rw [← hs.stem]
  refine Triple.bind (hrest out s hs) (fun out' => .pure fun t ht => ?_) s hstate
  refine ⟨ht.stem, Nat.le_trans hs.le ht.le, areFresh_append.2 ⟨hs.fresh, ht.fresh⟩, fun z hz => ?_⟩
  rcases mem_namesAll_append.1 hz with hz | hz
  · exact (hs.names z hz).imp (mem_append_left _) fun h => h.mono ht.le
  · exact (ht.names z hz).imp_left (mem_append_right _)

/-- Targets of names `xs` can be bound to values with names `ys`. -/
structure CanBind (seen : String → Prop) (n : Nat) (xs ys : List String) : Prop where
  nodup : xs.Nodup
  written : ∀ x ∈ xs, IsWritten x
  new : ∀ x ∈ xs, ¬ seen x ∧ x ∉ ys
  old : ∀ z, Also seen ys z → IsWritten z ∨ IsMade n z

section Binds
variable {xs xs' ys ys' : List String}

theorem CanBind.mono (h : CanBind seen n xs ys) (hys : ∀ y ∈ ys', y ∈ ys ∨ IsMade n y) :
    CanBind seen n xs ys' where
  nodup := h.nodup
  written := h.written
  new x hx := ⟨(h.new x hx).1, fun hy => (hys x hy).elim (h.new x hx).2 (h.written x hx).not_made⟩
  old z hz := hz.elim (fun hz => h.old z (.inl hz)) fun hz => (hys z hz).elim (fun hz => h.old z (.inr hz)) .inr

theorem CanBind.after {names : List String} (h : CanBind seen n (xs ++ xs') ys) (hmn : n ≤ m)
    (hnames : ∀ z ∈ names ++ ys', z ∈ xs ∨ z ∈ ys ∨ IsMade m z) (hys : ∀ y ∈ ys', y ∈ ys ∨ IsMade m y) :
    CanBind (Also seen names) m xs' ys' := by
  obtain ⟨-, hnodup, hdisjoint⟩ := nodup_append.1 h.nodup
  have hold : ∀ {z}, Also seen ys z → IsWritten z ∨ IsMade m z :=
    fun hz => (h.old _ hz).imp_right fun hz => hz.mono hmn
  refine ⟨hnodup, fun x hx => h.written x (mem_append_right _ hx), fun x hx => ?_, fun z hz => ?_⟩
  · have hwritten := h.written x (mem_append_right _ hx)
    obtain ⟨hseen, hmem⟩ := h.new x (mem_append_right _ hx)
    refine ⟨?_, fun hy => (hys x hy).elim hmem hwritten.not_made⟩
    rintro (hx' | hx')
    · exact hseen hx'
    · rcases hnames x (mem_append_left _ hx') with hx' | hx' | hx'
      · exact hdisjoint x hx' x hx rfl
      · exact hmem hx'
      · exact hwritten.not_made hx'
  · rcases (hz : (seen z ∨ z ∈ names) ∨ z ∈ ys') with (hz | hz) | hz
    · exact hold (.inl hz)
    all_goals
      rcases hnames z (by simp [hz]) with hz | hz | hz
      · exact .inl (h.written z (mem_append_left _ hz))
      · exact hold (.inr hz)
      · exact .inr hz

theorem Flattened.cons (h : Flattened (Also seen s.names) m names' out supply) (hs : s.IsFresh seen)
    (hmn : n ≤ m)
    (hnames : ∀ z ∈ s.names ++ names', z ∈ names ∨ IsMade m z) : Flattened seen n names (s :: out) supply := by
  refine ⟨h.stem, Nat.le_trans hmn h.le, ⟨hs, h.fresh⟩, fun z hz => ?_⟩
  have hmono : z ∈ names ∨ IsMade m z → z ∈ names ∨ IsMade supply.counter z :=
    fun hz => hz.imp_right fun hz => hz.mono h.le
  rcases mem_append.1 hz with hz | hz
  · exact hmono (hnames z (mem_append_left _ hz))
  · exact (h.names z hz).elim (fun hz => hmono (hnames z (mem_append_right _ hz))) .inr

theorem Flattened.mono (h : Flattened seen n names out supply)
    (hnames : ∀ z ∈ names, z ∈ names' ∨ IsMade n z) : Flattened seen n names' out supply :=
  ⟨h.stem, h.le, h.fresh, fun z hz => (h.names z hz).elim
    (fun hz => (hnames z hz).imp_right fun hz => hz.mono h.le) .inr⟩

end Binds

theorem names_fieldBinds {source : Expr} {targets : List Expr}
    (hz : z ∈ Expr.namesAll ((fieldBinds source 0 targets).map Prod.snd)) : z ∈ source.names ∨ IsMade n z := by
  obtain ⟨e, he, hz⟩ := Expr.mem_namesAll.1 hz
  obtain ⟨pair, hpair, rfl⟩ := mem_map.1 he
  exact (fieldBinds_reads hpair hz).symm.imp_right fun hz => .inr (.inl hz)

theorem Unpacks.fresh {supply' : Supply} {work : List (Expr × Expr)} {binds : List Stmt}
    (h : Unpacks supply work binds supply') (hstem : supply.stem = "_tup")
    (hbind : CanBind seen supply.counter (Expr.namesAll (work.map Prod.fst)) (Expr.namesAll (work.map Prod.snd))) :
    Flattened seen supply.counter (Expr.namesAll (work.map Prod.fst) ++ Expr.namesAll (work.map Prod.snd)) binds
      supply' := by
  induction h generalizing seen with
  | nil => exact ⟨hstem, Nat.le_refl _, trivial, fun z hz => .inl hz⟩
  | pairs hlength _ ih =>
    simp only [map_append, map_fst_zip (Nat.le_of_eq hlength), map_snd_zip (Nat.le_of_eq hlength.symm),
      namesAll_append] at ih
    exact ih hstem hbind
  | @call targets _ value work _ supply _ _ _ ih =>
    simp only [map_append, fieldBinds_fst, namesAll_append] at ih
    have hnext : supply.next.1 = "_tup" ++ toString supply.counter := by rw [← hstem]; rfl
    have htemporary : IsMade (supply.counter + 1) supply.next.1 :=
      .inr (.inr ⟨supply.counter, Nat.lt_succ_self _, hnext⟩)
    have hnew : ∀ z, Also seen value.names z → z ≠ supply.next.1 := by
      rintro z hz rfl
      rw [hnext] at hz
      exact (hbind.old _ (hz.imp_right (mem_append_left _))).elim (temporary_not_written (by decide) _)
        (temporary_not_made _)
    -- the temporary stands in for the value in what is read from here on
    have hfields : ∀ z ∈ Expr.namesAll ((fieldBinds (value.renamed supply.next.1) 0 targets).map Prod.snd) ++
        Expr.namesAll (work.map Prod.snd),
        z ∈ value.names ++ Expr.namesAll (work.map Prod.snd) ∨ IsMade (supply.counter + 1) z := by
      intro z hz
      rcases mem_append.1 hz with hz | hz
      · refine .inr ((names_fieldBinds hz).elim (fun hz => ?_) id)
        rwa [mem_singleton.1 hz]
      · exact .inl (mem_append_right _ hz)
    have hnames : ∀ z ∈ (Stmt.bind (value.renamed supply.next.1) value).names,
        z ∈ value.names ++ Expr.namesAll (work.map Prod.snd) ∨ IsMade (supply.counter + 1) z := by
      intro z hz
      rcases mem_cons.1 hz with rfl | hz
      · exact .inr htemporary
      · exact .inl (mem_append_left _ hz)
    have hall : CanBind seen supply.counter ([] ++ (Expr.namesAll targets ++ Expr.namesAll (work.map Prod.fst)))
        (value.names ++ Expr.namesAll (work.map Prod.snd)) := hbind
    refine (ih hstem (hall.after (Nat.le_succ _) (fun z hz => .inr ?_) hfields)).cons ?_ (Nat.le_succ _) fun z hz => ?_
    · exact (mem_append.1 hz).elim (hnames z) (hfields z)
    · refine ⟨pairwise_singleton _ _, forall_mem_singleton.2 ⟨fun hs => hnew _ (.inl hs) rfl, ?_⟩⟩
      exact fun hmem => hnew _ (.inr hmem) rfl
    · rcases mem_append.1 hz with hz | hz
      · exact (hnames z hz).imp_left (mem_append_right _)
      · rcases mem_append.1 hz with hz | hz
        · exact .inl (mem_append_left _ hz)
        · exact (hfields z hz).imp_left (mem_append_right _)
  | @fields targets _ value work _ supply _ _ _ _ ih =>
    simp only [map_append, fieldBinds_fst, namesAll_append] at ih
    have hfields : ∀ z ∈ Expr.namesAll ((fieldBinds value 0 targets).map Prod.snd) ++ Expr.namesAll (work.map Prod.snd),
        z ∈ value.names ++ Expr.namesAll (work.map Prod.snd) ∨ IsMade supply.counter z := by
      intro z hz
      rcases mem_append.1 hz with hz | hz
      · exact (names_fieldBinds hz).imp_left (mem_append_left _)
      · exact .inl (mem_append_right _ hz)
    refine (ih hstem (hbind.mono hfields)).mono fun z hz => ?_
    rcases mem_append.1 hz with hz | hz
    · exact .inl (mem_append_left _ hz)
    · exact (hfields z hz).imp_left (mem_append_right _)
  | @bind _ value _ _ supply _ _ _ ih =>
    have hpacked : ∀ z ∈ value.packed.names, z ∈ value.names ∨ IsMade supply.counter z :=
      fun z hz => (names_packed hz).symm.imp_right .inl
    refine (ih hstem (hbind.after (Nat.le_refl _) (fun z hz => ?_) fun z hz => .inl (mem_append_right _ hz))).cons
      ⟨(nodup_append.1 hbind.nodup).1, fun x hx => ?_⟩ (Nat.le_refl _) fun z hz => ?_
    · simp only [Stmt.names, map_cons, Expr.namesAll, mem_append] at hz ⊢
      have := hpacked z
      tauto
    · have hnew := hbind.new x (mem_append_left _ hx)
      refine ⟨hnew.1, fun hmem => (hpacked x hmem).elim (fun hmem => hnew.2 (mem_append_left _ hmem)) ?_⟩
      exact (hbind.written x (mem_append_left _ hx)).not_made
    · simp only [Stmt.names, map_cons, Expr.namesAll, mem_append] at hz ⊢
      have := hpacked z
      tauto

theorem flattenBind_fresh (h : CanBind seen n target.names value.names) :
    FlattensFresh seen n (target.names ++ value.names) (flattenBind target value) := by
  rintro s rfl
  refine (Meets.weaken (flattenBind_unpacks target value _) fun _ _ => trivial).mono fun r hr => ?_
  have hfresh : Flattened seen n _ (r.1 ++ []) r.2 :=
    (hr [] [] r.2 (.nil r.2)).fresh rfl (by simpa using h)
  simpa using hfresh

section Blocks
variable {known : String → Prop}

theorem also_flattened {names : List String} (hmn : m ≤ n)
    (hseen : ∀ z, seen z → known z ∨ IsMade m z)
    (hnames : ∀ z ∈ names', z ∈ names ∨ IsMade n z) : ∀ z, Also seen names' z → Also known names z ∨ IsMade n z := by
  rintro z (hz | hz)
  · exact (hseen z hz).imp .inl fun hz => hz.mono hmn
  · exact (hnames z hz).imp_left .inr

theorem also_written {names : List String} (hknown : ∀ z, known z → IsWritten z)
    (hnames : ∀ z ∈ names, IsWritten z) : ∀ z, Also known names z → IsWritten z :=
  fun z hz => hz.elim (hknown z) (hnames z)

end Blocks

mutual

theorem flattenTuples_fresh : ∀ {s : Stmt} {seen known : String → Prop} {n : Nat}, s.IsFresh known →
    (∀ z, known z → IsWritten z) → (∀ z ∈ s.names, IsWritten z) →
    (∀ z, seen z → known z ∨ IsMade n z) → FlattensFresh seen n s.names s.flattenTuples
  | .bind target value, seen, known, n, h, hknown, hnames, hseen => by
    have hbind : CanBind seen n target.names value.names := by
      refine ⟨h.1, fun x hx => hnames x (mem_append_left _ hx), fun x hx => ⟨fun hs => ?_, (h.2 x hx).2⟩, ?_⟩
      · exact (hseen x hs).elim (h.2 x hx).1 (hnames x (mem_append_left _ hx)).not_made
      · rintro z (hz | hz)
        · exact (hseen z hz).imp_left (hknown z)
        · exact .inl (hnames z (mem_append_right _ hz))
    rw [flattenTuples]
    split
    · exact flattenBind_fresh hbind
    · exact .pure ⟨⟨h.1, fun x hx => ⟨(hbind.new x hx).1, (h.2 x hx).2⟩⟩, trivial⟩ fun z hz => .inl (by simpa using hz)
  | .ret value, _, _, _, _, _, _, _ => .pure ⟨trivial, trivial⟩ fun z hz => .inl (by simpa using hz)
  | .branch test whenTrue whenFalse, seen, known, n, h, hknown, hnames, hseen => by
    have htest : ∀ z ∈ test.names, IsWritten z := fun z hz => hnames z (by simp [hz])
    have htrue : ∀ z ∈ namesAll whenTrue, IsWritten z := fun z hz => hnames z (by simp [hz])
    have hfalse : ∀ z ∈ namesAll whenFalse, IsWritten z := fun z hz => hnames z (by simp [hz])
    rw [flattenTuples]
    refine Triple.bind (flattenTuplesAll_fresh h.1 (also_written hknown htest) htrue
      (also_flattened (Nat.le_refl n) hseen fun z hz => .inl hz)) fun out s hs => ?_
    have hstate : s = ⟨"_tup", s.counter⟩ := by rw [← hs.stem]
    refine Triple.bind (flattenTuplesAll_fresh h.2 (also_written hknown fun z hz => ?_) hfalse
      (also_flattened hs.le hseen fun z (hz : z ∈ test.names ++ namesAll out) => ?_)) (fun out' => .pure fun t ht => ?_)
      s hstate
    · exact (mem_append.1 hz).elim (htest z) (htrue z)
    · rcases mem_append.1 hz with hz | hz
      · exact .inl (mem_append_left _ hz)
      · exact (hs.names z hz).imp_left (mem_append_right _)
    · refine ⟨ht.stem, Nat.le_trans hs.le ht.le, ⟨⟨hs.fresh, ht.fresh⟩, trivial⟩, fun z hz => ?_⟩
      simp only [namesAll, names, append_nil, mem_append] at hz ⊢
      rcases hz with (hz | hz) | hz
      · exact .inl (.inl (.inl hz))
      · exact (hs.names z hz).imp (fun hz => .inl (.inr hz)) fun hz => hz.mono ht.le
      · exact (ht.names z hz).imp_left .inr
  | .loop test body, seen, known, n, h, hknown, hnames, hseen => by
    have htest : ∀ z ∈ test.names, IsWritten z := fun z hz => hnames z (mem_append_left _ hz)
    rw [flattenTuples]
    refine Triple.bind (flattenTuplesAll_fresh h (also_written hknown htest)
      (fun z hz => hnames z (mem_append_right _ hz))
      (also_flattened (Nat.le_refl n) hseen fun z hz => .inl hz)) fun out => .pure fun s hs => ?_
    refine ⟨hs.stem, hs.le, ⟨hs.fresh, trivial⟩, fun z hz => ?_⟩
    simp only [namesAll, names, append_nil, mem_append] at hz ⊢
    rcases hz with hz | hz
    · exact .inl (.inl hz)
    · exact (hs.names z hz).imp_left .inr

theorem flattenTuplesAll_fresh :
    ∀ {block : List Stmt} {seen known : String → Prop} {n : Nat}, AreFresh known block →
    (∀ z, known z → IsWritten z) → (∀ z ∈ namesAll block, IsWritten z) →
    (∀ z, seen z → known z ∨ IsMade n z) → FlattensFresh seen n (namesAll block) (flattenTuplesAll block)
  | [], _, _, _, _, _, _, _ => .pure trivial fun z hz => .inl hz
  | s :: rest, seen, known, n, h, hknown, hnames, hseen => by
    have hfirst : ∀ z ∈ s.names, IsWritten z := fun z hz => hnames z (mem_append_left _ hz)
    rw [flattenTuplesAll]
    refine .append (flattenTuples_fresh h.1 hknown hfirst hseen) fun out t ht => ?_
    exact flattenTuplesAll_fresh h.2 (also_written hknown hfirst) (fun z hz => hnames z (mem_append_right _ hz))
      (also_flattened ht.le hseen ht.names)

end

end Stmt

namespace Containers

def WithStorage (names : String → Prop) (z : String) : Prop := names z ∨ ∃ w, names w ∧ z = container w

theorem WithStorage.of_view {names : String → Prop} (h : WithStorage names z) (hz : IsView z) :
    names z :=
  h.elim id fun ⟨w, _, hw⟩ => absurd hw (hz w)

theorem WithStorage.mono {names names' : String → Prop} (h : WithStorage names z)
    (hsub : ∀ x, names x → names' x) : WithStorage names' z :=
  h.imp (hsub z) fun ⟨w, hw, hz⟩ => ⟨w, hsub w hw, hz⟩

namespace Stores

variable {S : String → Prop} {block : List Stmt} {x : String}

theorem view_of_storage (h : Stores S block out) (hviews : ∀ z ∈ Stmt.namesAll block, IsView z)
    (hx : Name.container x ∈ localNames out) : x ∈ localNames block := by
  have hinj : ∀ w, Name.container w = Name.container x → w = x := fun _ => container_inj
  replace hviews : Name.container x ∉ Stmt.namesAll block := fun hz => hviews _ hz x rfl
  induction h with
  | nil => cases hx
  | ret _ ih => exact ih hx fun hz => hviews (mem_append_right _ hz)
  | _ =>
    simp only [mem_localNames_bind_iff, mem_localNames_branch_iff, mem_localNames_loop_iff,
      Stmt.namesAll, Stmt.names, mem_append] at *
    grind [mem_names_of_symbol]

theorem tuple_names {storage f : Expr} {es es' : List Expr} {typing typing' : Typing}
    (hs : storage.symbol? = some (container x)) (hf : f.symbol? = some Snippet.makeTuple)
    (hstored : Forall₂ (StoredAs S) es es') :
    ∀ z ∈ (Stmt.bind storage (.applySnippet Snippet.makeTuple es' typing')).names,
      z ∈ (Stmt.bind target (.apply f es typing)).names ∨ ∃ w, Also S [x] w ∧ z = Name.container w := by
  intro z hz
  rw [Stmt.names, names_of_symbol hs, mem_append, mem_singleton, names_applySnippet] at hz
  rcases hz with rfl | rfl | hz
  · exact .inr ⟨x, .inr mem_cons_self, rfl⟩
  · exact .inl (by simp [names_of_symbol hf])
  · rcases names_of_storedAs hstored z hz with hz | ⟨w, hw, rfl⟩
    · exact .inl (by simp [hz])
    · exact .inr ⟨w, .inl hw, rfl⟩

theorem names (h : Stores S block out) : ∀ z ∈ Stmt.namesAll out, z ∈ Stmt.namesAll block ∨
    ∃ w, (S w ∨ Name.container w ∈ localNames out) ∧ z = Name.container w := by
  induction h with
  | nil => exact fun z hz => .inl hz
  | ret _ ih =>
    intro z hz
    rcases mem_append.1 hz with hz | hz
    · exact .inl (mem_append_left _ hz)
    · exact (ih z hz).imp_left (mem_append_right _)
  | @tuple S x target storage f es es' typing typing' rest out hx hs hf hstored _ ih =>
    intro z hz
    have hnames : z ∈ (Stmt.bind storage (.applySnippet Snippet.makeTuple es' typing')).names →
        z ∈ (Stmt.bind target (.apply f es typing)).names ∨ _ := tuple_names hs hf hstored z
    simp only [Stmt.namesAll, mem_append, mem_localNames_bind_iff] at hz ⊢
    grind [Also]
  | view _ _ _ _ hs hs' =>
    intro z hz
    simp only [Stmt.namesAll, Stmt.names, names_of_symbol hs, names_of_symbol hs', mem_append,
      mem_localNames_bind_iff] at hz ⊢
    grind
  | _ =>
    intro z hz
    simp only [Stmt.namesAll, Stmt.names, mem_append, mem_localNames_bind_iff, mem_localNames_branch_iff,
      mem_localNames_loop_iff] at hz ⊢
    grind

end Stores

/-- A block that mentions views only and binds new ones, where `seen` are the views mentioned before
it and `S` those with storage. -/
structure Opens (S seen : String → Prop) (block : List Stmt) : Prop where
  fresh : AreFresh seen block
  stored : ∀ w, S w → seen w
  seen : ∀ z, seen z → IsView z
  views : ∀ z ∈ namesAll block, IsView z

namespace Opens

variable {S : String → Prop} {test : Expr} {block whenTrue whenFalse body rest : List Stmt} {x : String}

theorem first (h : Opens S seen (s :: rest)) :
    ∀ z ∈ s.names, IsView z := fun z hz => h.views z (mem_append_left _ hz)

theorem part {names : List String} (h : Opens S seen (s :: rest))
    (hfresh : AreFresh (Also seen names) block)
    (hnames : ∀ z ∈ names ++ namesAll block, z ∈ s.names) : Opens S (Also seen names) block where
  fresh := hfresh
  stored w hw := .inl (h.stored w hw)
  seen z hz := hz.elim (h.seen z) fun hz => h.first z (hnames z (mem_append_left _ hz))
  views z hz := h.first z (hnames z (mem_append_right _ hz))

theorem later (h : Opens S seen (s :: rest)) : Opens S (Also seen s.names) rest where
  fresh := h.fresh.2
  stored w hw := .inl (h.stored w hw)
  seen z hz := hz.elim (h.seen z) (h.first z)
  views z hz := h.views z (mem_append_right _ hz)

theorem onTrue (h : Opens S seen (.branch test whenTrue whenFalse :: rest)) :
    Opens S (Also seen test.names) whenTrue :=
  h.part h.fresh.1.1 fun _ hz => mem_append_left _ hz

theorem onFalse (h : Opens S seen (.branch test whenTrue whenFalse :: rest)) :
    Opens S (Also seen (test.names ++ namesAll whenTrue)) whenFalse :=
  h.part h.fresh.1.2 fun _ hz => hz

theorem trip (h : Opens S seen (.loop test body :: rest)) : Opens S (Also seen test.names) body :=
  h.part h.fresh.1 fun _ hz => hz

theorem store (h : Opens S seen block) (hx : seen x) : Opens (Also S [x]) seen block :=
  { h with stored := fun w hw => hw.elim (h.stored w) fun hw => mem_singleton.1 hw ▸ hx }

theorem not_stored (h : Opens S seen (.bind target value :: rest)) (hx : target.symbol? = some x) :
    ¬ S x :=
  fun hstored => (h.fresh.1.2 x (by simp [names_of_symbol hx])).1 (h.stored x hstored)

theorem not_rest (h : Opens S seen (s :: rest)) (hx : x ∈ s.names) : x ∉ localNames rest :=
  fun hmem => h.fresh.2.new hmem (.inr hx)

end Opens

namespace Stores

variable {rest : List Stmt} {S seen' : String → Prop} {block : List Stmt} {x : String}

theorem also_stored {names : List String} (hseen : ∀ z, seen' z → WithStorage seen z)
    (hnames : ∀ z ∈ names', WithStorage (Also seen names) z) :
    ∀ z, Also seen' names' z → WithStorage (Also seen names) z :=
  fun z hz => hz.elim (fun hz => (hseen z hz).mono fun _ hx => .inl hx) (hnames z)

theorem also_same (hseen : ∀ z, seen' z → WithStorage seen z) (names : List String) :
    ∀ z, Also seen' names z → WithStorage (Also seen names) z :=
  also_stored hseen fun _ hz => .inl (.inr hz)

theorem names_stored (h : Stores S block out) (ho : Opens S seen block)
    (hseen : ∀ z, seen' z → WithStorage seen z) :
    ∀ z, Also seen' (namesAll out) z → WithStorage (Also seen (namesAll block)) z := by
  refine also_stored hseen fun z hz => (h.names z hz).imp .inr fun ⟨w, hw, hz⟩ => ⟨w, ?_, hz⟩
  exact hw.imp (ho.stored w) fun hw => mem_namesAll_of_local (h.view_of_storage ho.views hw)

/-- Storage that is bound behind a tuple of views is mentioned there for the first time. -/
theorem tuple_fresh {storage f : Expr} {es es' : List Expr} {typing typing' : Typing}
    (ho : Opens S seen (.bind target (.apply f es typing) :: rest))
    (hseen : ∀ z, seen' z → WithStorage seen z) (hx : target.symbol? = some x)
    (hs : storage.symbol? = some (Name.container x)) (hf : f.symbol? = some Snippet.makeTuple)
    (hstored : Forall₂ (StoredAs S) es es') :
    (Stmt.bind storage (.applySnippet Snippet.makeTuple es' typing')).IsFresh
      (Also seen' (Stmt.bind target (.apply f es typing)).names) := by
  have hunstored : ∀ z, WithStorage seen z → z ≠ Name.container x := by
    rintro z hz rfl
    rcases hz with hz | ⟨w, hw, hz⟩
    · exact ho.seen _ hz x rfl
    · exact (ho.fresh.1.2 x (by simp [names_of_symbol hx])).1 (container_inj hz ▸ hw)
  rw [IsFresh, names_of_symbol hs]
  refine ⟨pairwise_singleton _ _, forall_mem_singleton.2 ⟨?_, fun hz => ?_⟩⟩
  · rintro (hz | hz)
    · exact hunstored _ (hseen _ hz) rfl
    · exact ho.first _ hz x rfl
  · rcases names_applySnippet.1 hz with hz | hz
    · refine ho.first Snippet.makeTuple ?_ x hz.symm
      simp [names_of_symbol hf]
    · rcases names_of_storedAs hstored _ hz with hz | ⟨w, hw, hz⟩
      · exact ho.first _ (by simp [hz]) x rfl
      · exact hunstored _ (.inr ⟨w, ho.stored w hw, rfl⟩) hz.symm

theorem bind_fresh (ho : Opens S seen (.bind target value :: rest))
    (hseen : ∀ z, seen' z → WithStorage seen z) : (Stmt.bind target value).IsFresh seen' := by
  refine ⟨ho.fresh.1.1, fun x hx => ⟨fun hx' => ?_, (ho.fresh.1.2 x hx).2⟩⟩
  exact (ho.fresh.1.2 x hx).1 ((hseen x hx').of_view (ho.first x (mem_append_left _ hx)))

theorem areFresh (h : Stores S block out) (ho : Opens S seen block)
    (hseen : ∀ z, seen' z → WithStorage seen z) : AreFresh seen' out := by
  induction h generalizing seen seen' with
  | nil => trivial
  | view hx _ hstored => exact absurd hstored (ho.not_stored hx)
  | bind _ ih => exact ⟨bind_fresh ho hseen, ih ho.later (also_same hseen _)⟩
  | ret _ ih => exact ⟨trivial, ih ho.later (also_same hseen _)⟩
  | tuple hx hs hf hstored _ ih =>
    have hmem := mem_names_of_symbol hx
    refine ⟨bind_fresh ho hseen, tuple_fresh ho hseen hx hs hf hstored,
      ih (ho.later.store (.inr (mem_append_left _ hmem))) fun z hz => ?_⟩
    rcases hz with hz | hz
    · exact also_same hseen _ z hz
    · refine (tuple_names hs hf hstored z hz).imp .inr fun ⟨w, hw, hz⟩ => ⟨w, hw.imp (ho.stored w) fun hw => ?_, hz⟩
      exact mem_append_left _ (mem_singleton.1 hw ▸ hmem)
  | branch htrue hfalse _ iht ihf ih =>
    have hseenTrue := htrue.names_stored ho.onTrue (also_same hseen _)
    rw [← also_append, ← also_append] at hseenTrue
    have hseenFalse := hfalse.names_stored ho.onFalse hseenTrue
    rw [← also_append, ← also_append] at hseenFalse
    exact ⟨⟨iht ho.onTrue (also_same hseen _), ihf ho.onFalse hseenTrue⟩, ih ho.later hseenFalse⟩
  | loop hbody _ ihb ih =>
    have hseenBody := hbody.names_stored ho.trip (also_same hseen _)
    rw [← also_append, ← also_append] at hseenBody
    exact ⟨ihb ho.trip (also_same hseen _), ih ho.later hseenBody⟩

/-- What a block binds gets its storage in `out`, if the storage is among `N`. -/
def Backs (N : List String) (block out : List Stmt) : Prop :=
  ∀ x ∈ localNames block, container x ∈ N → container x ∈ localNames out

section Backs
variable {N : List String} {test : Expr} {whenTrue whenTrue' whenFalse whenFalse' body body' : List Stmt}

theorem Backs.bind (h : Backs N (.bind target value :: rest) (.bind target value :: out))
    (ho : Opens S seen (.bind target value :: rest)) (hrest : Stores S rest out) :
    Backs N rest out ∧ ∀ x, target.symbol? = some x → container x ∉ N := by
  have htarget : ∀ {x}, target.symbol? ≠ some (container x) := fun {x} hx =>
    ho.first _ (by simp [names_of_symbol hx]) x rfl
  have hbound : ∀ {x}, x ∈ localNames (.bind target value :: rest) → container x ∈ N →
      container x ∈ localNames out :=
    fun hx hmem => (mem_localNames_bind_iff.1 (h _ hx hmem)).resolve_left htarget
  refine ⟨fun x hx => hbound (mem_localNames_rest hx), fun x hx hmem => ?_⟩
  exact ho.not_rest (by simp [names_of_symbol hx])
    (hrest.view_of_storage ho.later.views (hbound (mem_localNames_bind hx) hmem))

/-- A name is bound in one of the three parts only, and its storage in the same. -/
theorem Backs.branch
    (h : Backs N (.branch test whenTrue whenFalse :: rest) (.branch test whenTrue' whenFalse' :: out))
    (ho : Opens S seen (.branch test whenTrue whenFalse :: rest)) (htrue : Stores S whenTrue whenTrue')
    (hfalse : Stores S whenFalse whenFalse') (hrest : Stores S rest out) :
    Backs N whenTrue whenTrue' ∧ Backs N whenFalse whenFalse' ∧ Backs N rest out := by
  have hdisjoint : ∀ {y}, y ∈ localNames whenTrue → y ∉ localNames whenFalse :=
    fun hy hy' => ho.onFalse.fresh.new hy' (.inr (mem_append_right _ (mem_namesAll_of_local hy)))
  have hbehind : ∀ {y}, y ∈ localNames whenTrue ∨ y ∈ localNames whenFalse → y ∉ localNames rest := by
    rintro y (hy | hy) <;> exact ho.not_rest (by simp [mem_namesAll_of_local hy])
  refine ⟨fun y hy hmem => ?_, fun y hy hmem => ?_, fun y hy hmem => ?_⟩
  all_goals
    have hbound := mem_localNames_branch_iff.1 (h y (mem_localNames_branch_iff.2 (by simp [hy])) hmem)
    have := htrue.view_of_storage (x := y) ho.onTrue.views
    have := hfalse.view_of_storage (x := y) ho.onFalse.views
    have := hrest.view_of_storage (x := y) ho.later.views
    grind

theorem Backs.loop (h : Backs N (.loop test body :: rest) (.loop test body' :: out))
    (ho : Opens S seen (.loop test body :: rest)) (hbody : Stores S body body') (hrest : Stores S rest out) :
    Backs N body body' ∧ Backs N rest out := by
  have hbehind : ∀ {y}, y ∈ localNames body → y ∉ localNames rest := fun hy =>
    ho.not_rest (by simp [mem_namesAll_of_local hy])
  refine ⟨fun y hy hmem => ?_, fun y hy hmem => ?_⟩
  · refine (mem_localNames_loop_iff.1 (h y (mem_localNames_loop hy) hmem)).resolve_right fun hbound => ?_
    exact hbehind hy (hrest.view_of_storage ho.later.views hbound)
  · refine (mem_localNames_loop_iff.1 (h y (mem_localNames_rest hy) hmem)).resolve_left fun hbound => ?_
    exact hbehind (hbody.view_of_storage ho.trip.views hbound) hy

theorem Backs.tuple {storage value' : Expr}
    (h : Backs N (.bind target value :: rest) (.bind target value :: .bind storage value' :: out))
    (ho : Opens S seen (.bind target value :: rest)) (hx : target.symbol? = some x)
    (hs : storage.symbol? = some (Name.container x)) : Backs N rest out := by
  have hmem : x ∈ (Stmt.bind target value).names := by simp [names_of_symbol hx]
  intro y hy hyN
  have hbound := h y (mem_localNames_rest hy) hyN
  rw [mem_localNames_bind_iff, mem_localNames_bind_iff, hx, hs] at hbound
  rcases hbound with hbound | hbound | hbound
  · exact absurd (Option.some.inj hbound) (ho.first x hmem y)
  · exact absurd (container_inj (Option.some.inj hbound) ▸ hy) (ho.not_rest hmem)
  · exact hbound

theorem inStep (h : Stores S block out) (ho : Opens S seen block) (hN : ∀ z ∈ namesAll out, z ∈ N)
    (hbacks : Backs N block out) : areInStep N out none = true := by
  induction h generalizing seen with
  | nil => rfl
  | view hx _ hstored => exact absurd hstored (ho.not_stored hx)
  | @bind _ target value rest _ hrest ih =>
    obtain ⟨hrests, htarget⟩ := hbacks.bind ho hrest
    have hstored : (target.symbol?.any fun x => isStorage x || container x ∈ N) = false := by
      cases hx : target.symbol? with
      | none => rfl
      | some x =>
        have hview := ho.first x (by simp [names_of_symbol hx])
        simp [not_storage_of_isView hview, htarget x hx]
    rw [areInStep, hstored]
    exact ih ho.later (fun z hz => hN z (mem_append_right _ hz)) hrests
  | ret _ ih =>
    rw [areInStep_other (by simp), isInStep, Bool.true_and]
    · exact ih ho.later (fun z hz => hN z (mem_append_right _ hz)) hbacks
    all_goals simp
  | @tuple S x target storage f es es' typing typing' rest out hx hs hf hstored _ ih =>
    have hmem : x ∈ target.names := mem_names_of_symbol hx
    have hcontainer : container x ∈ N := hN _ (by simp [names_of_symbol hs])
    have hvalue : x ∉ f.names ∧ x ∉ namesAll es := by simpa using (ho.fresh.1.2 x hmem).2
    have hpaired : arePaired target (.apply f es typing) storage
        (.applySnippet Snippet.makeTuple es' typing') = true := by
      simp only [arePaired, hx, hs, applySnippet]
      simp [hf, not_storage_of_isView (ho.first x (mem_append_left _ hmem)), areStoragesOf_of_storedAs hstored]
      rfl
    have hrest : areInStep N out none = true := ih (ho.later.store (.inr (mem_append_left _ hmem)))
      (fun z hz => hN z (mem_append_right _ (mem_append_right _ hz))) (hbacks.tuple ho hx hs)
    simp [areInStep, hx, hcontainer, hvalue, hpaired, hrest]
  | branch htrue hfalse hrest iht ihf ih =>
    obtain ⟨hbacksTrue, hbacksFalse, hbacksRest⟩ := hbacks.branch ho htrue hfalse hrest
    rw [areInStep_other (by simp), isInStep, iht ho.onTrue (fun z hz => hN z (by simp [hz])) hbacksTrue,
      ihf ho.onFalse (fun z hz => hN z (by simp [hz])) hbacksFalse,
      ih ho.later (fun z hz => hN z (mem_append_right _ hz)) hbacksRest]
    rfl
  | loop hbody hrest ihb ih =>
    obtain ⟨hbacksBody, hbacksRest⟩ := hbacks.loop ho hbody hrest
    rw [areInStep_other (by simp), isInStep, ihb ho.trip (fun z hz => hN z (by simp [hz])) hbacksBody,
      ih ho.later (fun z hz => hN z (mem_append_right _ hz)) hbacksRest]
    rfl

end Backs

end Stores

end Containers

end DataParallel
