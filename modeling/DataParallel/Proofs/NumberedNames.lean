import DataParallel.Proofs.Names
import Mathlib.Algebra.Group.Nat.Defs
import Mathlib.Data.List.Nodup

/-! Names that carry a number. The names a supply hands out differ, whatever they are derived from,
since the number can be told from the end of each, as long as no number comes again; and a
projection is read back as the index it was made of. -/

namespace DataParallel

open List

namespace Supply

variable {supply : Supply} {name : String}

/-- One call on a supply, with the name to derive from if there is one. -/
def draw (supply : Supply) : Option String → String × Supply
  | none => supply.next
  | some base => supply.derive base

/-- The names handed out by a sequence of calls, where the counter goes on without end. -/
def drawEach (supply : Supply) : List (Option String) → List String
  | [] => []
  | call :: calls => (supply.draw call).1 :: (supply.draw call).2.drawEach calls

/-- The supply with a counter of 64 bits, which starts over behind its last number. -/
def wrapped (supply : Supply) : Supply := { supply with counter := supply.counter % UInt64.size }

/-- The names handed out by a sequence of calls, where the counter has 64 bits. -/
def drawAll (supply : Supply) : List (Option String) → List String
  | [] => []
  | call :: calls => (supply.draw call).1 :: (supply.draw call).2.wrapped.drawAll calls

theorem draw_eq (supply : Supply) (call : Option String) : ∃ base,
    supply.draw call = (base ++ supply.stem ++ toString supply.counter, ⟨supply.stem, supply.counter + 1⟩) := by
  cases call with
  | none => exact ⟨"", by rw [String.empty_append]; rfl⟩
  | some base => exact ⟨base, rfl⟩

theorem length_drawAll (calls : List (Option String)) :
    (supply.drawAll calls).length = calls.length := by
  induction calls generalizing supply with
  | nil => rfl
  | cons call calls ih => exact congrArg (· + 1) ih

/-- The name of call `i` ends in the number that the counter has by then. -/
theorem number_of_drawAll {calls : List (Option String)} {i : Nat}
    (hcounter : supply.counter < UInt64.size) (h : (supply.drawAll calls)[i]? = some name) :
    ∃ base, name = base ++ supply.stem ++ toString ((supply.counter + i) % UInt64.size) := by
  induction calls generalizing supply i with
  | nil => cases h
  | cons call calls ih =>
    obtain ⟨base, hdraw⟩ := supply.draw_eq call
    rw [drawAll, hdraw] at h
    cases i with
    | zero =>
      cases h
      exact ⟨base, congrArg (base ++ supply.stem ++ toString ·) (Nat.mod_eq_of_lt hcounter).symm⟩
    | succ i =>
      obtain ⟨base, hname⟩ := ih (Nat.mod_lt _ (by decide)) h
      refine ⟨base, hname.trans ?_⟩
      simp only [wrapped, Nat.mod_add_mod, Nat.add_assoc, Nat.add_comm 1 i]

theorem drawEach_eq_drawAll {calls : List (Option String)}
    (h : supply.counter + calls.length ≤ UInt64.size) :
    supply.drawEach calls = supply.drawAll calls := by
  induction calls generalizing supply with
  | nil => rfl
  | cons call calls ih =>
    obtain ⟨base, hdraw⟩ := supply.draw_eq call
    rw [drawEach, drawAll, hdraw]
    cases calls with
    | nil => rfl
    | cons call' calls =>
      rw [length_cons, length_cons] at h
      have hlt : supply.counter + 1 < UInt64.size := by omega
      have hwrapped : wrapped ⟨supply.stem, supply.counter + 1⟩ = ⟨supply.stem, supply.counter + 1⟩ :=
        congrArg (Supply.mk supply.stem) (Nat.mod_eq_of_lt hlt)
      rw [hwrapped, ih (by simp only [length_cons]; omega)]

/-- A supply whose stem does not end in a digit hands out a name again only when its counter has
started over in between, as many calls later as a word of 64 bits has values. Up to there all names
differ. Until the counter starts over, the names are those of a counter that goes on without end. -/
theorem drawAll_nodup {c : Char} (hstem : supply.stem.toList.getLast? = some c)
    (hc : c.isDigit = false)
    (hcounter : supply.counter < UInt64.size) (calls : List (Option String)) :
    (∀ i j name, i < j → (supply.drawAll calls)[i]? = some name → (supply.drawAll calls)[j]? = some name →
      2 ^ 64 ≤ j - i) ∧
    (calls.length ≤ 2 ^ 64 → (supply.drawAll calls).Nodup) ∧
    (supply.counter + calls.length ≤ 2 ^ 64 → supply.drawEach calls = supply.drawAll calls) := by
  have hapart : ∀ i j name, i < j → (supply.drawAll calls)[i]? = some name →
      (supply.drawAll calls)[j]? = some name → 2 ^ 64 ≤ j - i := by
    intro i j name hij hi hj
    obtain ⟨base, rfl⟩ := number_of_drawAll hcounter hi
    obtain ⟨base', hname⟩ := number_of_drawAll hcounter hj
    obtain ⟨-, hnumber⟩ := Name.append_stem_inj hstem hc hname
    rw [UInt64.size] at hnumber
    omega
  refine ⟨hapart, fun hlength => nodup_iff_getElem?_ne_getElem?.2 fun i j hij hj heq => ?_, drawEach_eq_drawAll⟩
  have hname := getElem?_eq_getElem hj
  have hwide := hapart i j _ hij (heq.trans hname) hname
  rw [length_drawAll] at hj
  omega

/-- The second name is derived from the first one, and the third from a name that looks like the
second. The counter starts over behind the first name. -/
theorem drawAll_nodup_phase :
    ((⟨"_phase", 2 ^ 64 - 1⟩ : Supply).drawAll [some "xs", some "xs_phase0", some "xs_phase0_phase", none]).Nodup :=
  (drawAll_nodup (c := 'e') (by decide) (by decide) (by decide) _).2.1 (by decide)

end Supply

namespace Name.Snippet

variable {name : String} {text : List Char} {index : Nat}

/-- Decimal digits after at most one plus sign, which denote an index. -/
def Spells (text : List Char) (index : Nat) : Prop :=
  ∃ sign digits, text = sign ++ digits ∧ (sign = [] ∨ sign = ['+']) ∧ digits ≠ [] ∧ (∀ c ∈ digits, c.isDigit = true) ∧
    Nat.ofDigitChars 10 digits 0 = index ∧ index < 2 ^ 64

theorem readIndex?_eq_some_iff : readIndex? text = some index ↔ Spells text index := by
  have hread : ∀ digits : List Char,
      (if digits ≠ [] ∧ digits.all Char.isDigit ∧ decimal digits < indexLimit then some (decimal digits) else none) =
        some index ↔ digits ≠ [] ∧ (∀ c ∈ digits, c.isDigit = true) ∧ Nat.ofDigitChars 10 digits 0 = index ∧
          index < 2 ^ 64 := by
    intro digits
    rw [Option.ite_none_right_eq_some, all_eq_true, Option.some_inj]
    constructor
    · rintro ⟨⟨hne, hdigits, hlt⟩, rfl⟩
      exact ⟨hne, hdigits, rfl, hlt⟩
    · rintro ⟨hne, hdigits, rfl, hlt⟩
      exact ⟨⟨hne, hdigits, hlt⟩, rfl⟩
  unfold readIndex?
  refine (hread _).trans ⟨fun h => ?_, ?_⟩
  · split at h
    · exact ⟨['+'], _, rfl, .inr rfl, h⟩
    · exact ⟨[], _, rfl, .inl rfl, h⟩
  · rintro ⟨sign, digits, rfl, rfl | rfl, h⟩
    · split
      · next hsign =>
        rw [nil_append] at hsign
        exact absurd (h.2.1 '+' (hsign ▸ mem_cons_self)) (by decide)
      · exact h
    · exact h

theorem projection?_eq_some_iff : projection? name = some index ↔
    ∃ text, name.toList = "thrust::get<".toList ++ text ++ ['>'] ∧ Spells text index := by
  simp only [projection?, Option.bind_eq_bind, Option.bind_eq_some_iff, isPrefixOf?_eq_some_iff_append_eq,
    isSuffixOf?_eq_some_iff_append_eq, readIndex?_eq_some_iff]
  constructor
  · rintro ⟨_, hname, text, rfl, h⟩
    exact ⟨text, by rw [← hname, append_assoc]; rfl, h⟩
  · rintro ⟨text, hname, h⟩
    exact ⟨text ++ ['>'], by rw [hname, append_assoc]; rfl, text, rfl, h⟩

theorem projection?_project (h : index < indexLimit) : projection? (project index) = some index :=
  projection?_eq_some_iff.2 ⟨(toString index).toList, by rw [project, String.toList_append, String.toList_append]; rfl,
    [], _, rfl, .inl rfl, toString_ne_nil index, fun _ => isDigit_of_mem_toString, ofDigitChars_toString index, h⟩

theorem project_inj {m n : Nat} (h : project m = project n) : m = n :=
  toString_inj ((String.append_right_inj projectionStem).1 ((String.append_left_inj ">").1 h))

/-- An index is read back from its projection, no two indices share one, and what is read as a
projection is spelled as one. -/
theorem projection?_decodes : (∀ index < 2 ^ 64, projection? (project index) = some index) ∧
    (∀ i j, project i = project j → i = j) ∧
    ∀ name index, projection? name = some index ↔
      ∃ text, name.toList = "thrust::get<".toList ++ text ++ ['>'] ∧ Spells text index :=
  ⟨fun _ h => projection?_project h, fun _ _ h => project_inj h, fun _ _ => projection?_eq_some_iff⟩

theorem projection?_decodes_largest : projection? (project (2 ^ 64 - 1)) = some (2 ^ 64 - 1) :=
  projection?_decodes.1 _ (by decide)

end Name.Snippet

end DataParallel
