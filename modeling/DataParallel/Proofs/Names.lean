import DataParallel.Name.Basic
import DataParallel.Name.Supply
import Mathlib.Data.List.TakeWhile

/-! Drawn names. A supply puts a number behind a stem, so a drawn name ends in a digit, tells its
number, and is no container form. -/

namespace DataParallel

open List

namespace Name

variable {stem x y z : String} {m n : Nat} {name : String}

theorem isDigit_of_mem_toString {c : Char} (h : c ∈ (toString n).toList) : c.isDigit = true := by
  rw [Nat.toString_eq_repr, Nat.toList_repr] at h
  exact Nat.isDigit_of_mem_toDigits (by decide) (by decide) h

theorem toString_ne_nil (n : Nat) : (toString n).toList ≠ [] := by
  rw [Nat.toString_eq_repr, Nat.toList_repr]
  exact Nat.toDigits_ne_nil

theorem ofDigitChars_toString (n : Nat) : Nat.ofDigitChars 10 (toString n).toList 0 = n := by
  rw [Nat.toString_eq_repr, Nat.toList_repr]
  exact Nat.ofDigitChars_ten_toDigits

/-- A number is all there is of digits at the end of a name. -/
theorem append_number_inj {s t : List Char} (hs : ∀ c ∈ s.getLast?, c.isDigit = false)
    (ht : ∀ c ∈ t.getLast?, c.isDigit = false) (h : s ++ (toString m).toList = t ++ (toString n).toList) :
    s = t ∧ m = n := by
  have digits : ∀ (r : List Char) (k : Nat), (∀ c ∈ r.getLast?, c.isDigit = false) →
      (r ++ (toString k).toList).reverse.takeWhile Char.isDigit = (toString k).toList.reverse := by
    intro r k hr
    have hk : ∀ c ∈ (toString k).toList.reverse, c.isDigit = true :=
      fun c hc => isDigit_of_mem_toString (mem_reverse.1 hc)
    rw [reverse_append, takeWhile_append_of_pos hk]
    rw [← head?_reverse] at hr
    cases hrev : r.reverse with
    | nil => simp
    | cons c rest => simp [hr c (by simp [hrev])]
  have hnumber : (toString m).toList = (toString n).toList := by rw [← reverse_inj, ← digits s m hs, ← digits t n ht, h]
  refine ⟨?_, ?_⟩
  · rw [hnumber] at h
    exact append_cancel_right h
  · rw [← ofDigitChars_toString m, hnumber, ofDigitChars_toString]

theorem append_stem_inj {base base' : String} {m n : Nat} {c : Char}
    (hstem : stem.toList.getLast? = some c)
    (hc : c.isDigit = false) (h : base ++ stem ++ toString m = base' ++ stem ++ toString n) : base = base' ∧ m = n := by
  have hlast : ∀ b : String, ∀ d ∈ (b ++ stem).toList.getLast?, d.isDigit = false := by
    intro b d hd
    rw [String.toList_append, getLast?_append, hstem] at hd
    cases hd
    exact hc
  have hlist : (base ++ stem).toList ++ (toString m).toList = (base' ++ stem).toList ++ (toString n).toList := by
    rw [← String.toList_append, ← String.toList_append, h]
  obtain ⟨hbase, hnumber⟩ := append_number_inj (hlast base) (hlast base') hlist
  exact ⟨(String.append_left_inj stem).1 (String.toList_inj.1 hbase), hnumber⟩

theorem toString_inj (h : toString m = toString n) : m = n :=
  (append_number_inj (s := []) (t := []) (by simp) (by simp) (by simp [h])).2

theorem getLast?_append_number (stem : String) (n : Nat) :
    ∃ c, (stem ++ toString n).toList.getLast? = some c ∧ c.isDigit = true := by
  refine ⟨_, ?_, isDigit_of_mem_toString (getLast_mem (toString_ne_nil n))⟩
  rw [String.toList_append, getLast?_append, getLast?_eq_some_getLast (toString_ne_nil n)]
  rfl

theorem append_toString_ne_container (stem base : String) (n : Nat) :
    stem ++ toString n ≠ container base := by
  intro h
  obtain ⟨c, hlast, hdigit⟩ := getLast?_append_number stem n
  rw [h, container, String.toList_append, getLast?_append] at hlast
  cases hlast
  exact absurd hdigit (by decide)

theorem container_ne (x : String) : container x ≠ x := fun h => by
  simpa [container] using congrArg String.length h

theorem container_inj {a b : String} (h : container a = container b) : a = b :=
  (String.append_left_inj "_array").1 h

/-- No container form: the name of a view, not of storage behind one. -/
def IsView (name : String) : Prop := ∀ base, name ≠ container base

theorem isView_of_last (h : name.toList.getLast? ≠ some 'y') : IsView name := by
  rintro base rfl
  simp [container, String.toList_append, getLast?_append] at h

/-- The name of a view that cannot be drawn. -/
def IsOwn (stem name : String) : Prop := IsView name ∧ ∀ n : Nat, name ≠ stem ++ toString n

theorem ne_drawn_of_first (h : name.toList.head? ≠ stem.toList.head?) (hstem : stem ≠ "") (n : Nat) :
    name ≠ stem ++ toString n := by
  rintro rfl
  rw [String.toList_append, head?_append] at h
  cases hs : stem.toList with
  | nil => exact hstem (String.toList_eq_nil_iff.1 hs)
  | cons c rest => simp [hs] at h

/-- `y` is `x`, or was drawn to be read in place of a name that stands for `x`. -/
inductive StandsFor (x : String) : String → Prop where
  | refl : StandsFor x x
  | realized {y : String} (n : Nat) : StandsFor x y → StandsFor x (y ++ "_phase" ++ toString n)

/-- The names that are drawn to be read in place of others. -/
def IsRealized (name : String) : Prop := ∃ (base : String) (n : Nat), name = base ++ "_phase" ++ toString n

/-- The names that phase analysis draws. -/
def IsDrawn (name : String) : Prop := IsRealized name ∨ ∃ n : Nat, name = "_sync" ++ toString n

theorem realized_inj (h : x ++ "_phase" ++ toString m = y ++ "_phase" ++ toString n) : x = y ∧ m = n :=
  @append_stem_inj "_phase" x y m n 'e' (by decide) (by decide) h

theorem temporary_inj (h : "_sync" ++ toString m = "_sync" ++ toString n) : m = n :=
  toString_inj ((String.append_right_inj "_sync").1 h)

theorem realized_ne_temporary (x : String) (m n : Nat) : x ++ "_phase" ++ toString m ≠ "_sync" ++ toString n := by
  intro h
  have hphase : (x ++ "_phase").toList.getLast? = some 'e' := by
    rw [String.toList_append, getLast?_append]
    rfl
  have hlist : (x ++ "_phase").toList ++ (toString m).toList = "_sync".toList ++ (toString n).toList := by
    rw [← String.toList_append, ← String.toList_append, h]
  obtain ⟨hstem, -⟩ := append_number_inj (by rw [hphase]; simp) (by simp) hlist
  rw [hstem] at hphase
  exact absurd hphase (by decide)

theorem temporary_not_realized (n : Nat) : ¬ IsRealized ("_sync" ++ toString n) := by
  rintro ⟨base, m, h⟩
  exact realized_ne_temporary base m n h.symm

theorem not_drawn_of_last (h : (name.toList.getLast?.any Char.isDigit) = false) :
    ¬ IsDrawn name := by
  have number : ∀ (stem : String) (n : Nat), name ≠ stem ++ toString n := by
    rintro stem n rfl
    obtain ⟨c, hlast, hdigit⟩ := getLast?_append_number stem n
    rw [hlast, Option.any_some, hdigit] at h
    cases h
  rintro (⟨base, n, h⟩ | ⟨n, h⟩)
  · exact number _ n h
  · exact number _ n h

theorem container_not_drawn (x : String) : ¬ IsDrawn (container x) := by
  rintro (⟨base, n, h⟩ | ⟨n, h⟩)
  · exact append_toString_ne_container _ _ _ h.symm
  · exact append_toString_ne_container _ _ _ h.symm

namespace StandsFor

theorem trans (h : StandsFor x y) (h' : StandsFor y z) : StandsFor x z := by
  induction h' with
  | refl => exact h
  | realized n _ ih => exact .realized n ih

theorem eq_of_root (h : StandsFor x y) (hy : ¬ IsRealized y) : x = y := by
  cases h with
  | refl => rfl
  | @realized w n _ => exact absurd ⟨w, n, rfl⟩ hy

theorem eq_of_source (h : StandsFor x y) (hy : ¬ IsDrawn y) :
    x = y := h.eq_of_root fun hr => hy (.inl hr)

theorem chain (hx : StandsFor x z) (hy : StandsFor y z) (hroot : ¬ IsRealized x) :
    StandsFor x y := by
  induction hy with
  | refl => exact hx
  | @realized w n _ ih =>
    generalize hz : w ++ "_phase" ++ toString n = z at hx
    cases hx with
    | refl => exact absurd ⟨w, n, hz.symm⟩ hroot
    | realized m h =>
      obtain ⟨rfl, -⟩ := realized_inj hz
      exact ih h

theorem root_unique (hx : StandsFor x z) (hy : StandsFor y z) (hroot : ¬ IsRealized x)
    (hroot' : ¬ IsRealized y) : x = y :=
  (hx.chain hy hroot).eq_of_root hroot'

end StandsFor

def Rooted (P : String → Prop) (z : String) : Prop := ∃ x, StandsFor x z ∧ ¬ IsDrawn x ∧ P x

section
variable {P Q : String → Prop}

theorem rooted_of_source (hz : ¬ IsDrawn z) : Rooted P z ↔ P z := by
  refine ⟨fun ⟨x, hstands, hx, hP⟩ => ?_, fun hP => ⟨z, .refl, hz, hP⟩⟩
  exact hstands.eq_of_source hz ▸ hP

theorem StandsFor.rooted (h : StandsFor x y) : Rooted P y ↔ Rooted P x := by
  refine ⟨fun ⟨z, hstands, hz, hP⟩ => ⟨z, ?_, hz, hP⟩, fun ⟨z, hstands, hz, hP⟩ => ⟨z, hstands.trans h, hz, hP⟩⟩
  exact hstands.chain h fun hr => hz (.inl hr)

theorem not_rooted_temporary (n : Nat) : ¬ Rooted P ("_sync" ++ toString n) := by
  rintro ⟨x, hstands, hx, -⟩
  exact hx (.inr ⟨n, hstands.eq_of_root (temporary_not_realized n)⟩)

end

end Name

end DataParallel
