import DataParallel.Interning
import Mathlib.Algebra.Group.Nat.Defs
import Mathlib.Data.List.Nodup

/-! Interned texts. After any run of insertions the numbers and the texts are inverse to each other:
a text keeps the number it was given first, and that is its place among the distinct texts. -/

namespace DataParallel

open List

namespace Interning

variable {table : Interning} {before inserted earlier later : List String} {text : String}

/-- Inserts texts one after another and lists the numbers they are given. -/
def insertAll (table : Interning) : List String → List Nat × Interning
  | [] => ([], table)
  | text :: texts =>
    let rest := (table.insert text).2.insertAll texts
    ((table.insert text).1 :: rest.1, rest.2)

/-- The table that holds the texts inserted. -/
def ofTexts (inserted : List String) : Interning := (empty.insertAll inserted).2

/-- The number of a text: its place in the order of first insertion. -/
def number (inserted : List String) (text : String) : Nat := inserted.eraseDups.idxOf text

theorem eraseDups_concat (before : List String) (text : String) :
    (before ++ [text]).eraseDups = if text ∈ before then before.eraseDups else before.eraseDups ++ [text] := by
  rw [eraseDups_append]
  split <;> simp [removeAll, eraseDups_cons, *]

theorem number_append (h : text ∈ earlier) :
    number (earlier ++ later) text = number earlier text := by
  rw [number, eraseDups_append, idxOf_append_of_mem (mem_eraseDups.2 h), number]

/-- What a table holds of the texts inserted so far. -/
structure Holds (table : Interning) (inserted : List String) : Prop where
  texts : table.texts = inserted.eraseDups
  nodup : inserted.eraseDups.Nodup
  indexOf? : ∀ text, table.indexOf? text = if text ∈ inserted then some (number inserted text) else none

theorem holds_empty : empty.Holds [] := ⟨rfl, nodup_nil, fun _ => rfl⟩

theorem Holds.insert (h : table.Holds before)
    (hlimit : (before ++ [text]).eraseDups.length < 2 ^ 32) :
    (table.insert text).1 = number (before ++ [text]) text ∧ (table.insert text).2.Holds (before ++ [text]) := by
  by_cases hmem : text ∈ before
  · have hsame : ∀ other, other ∈ before ++ [text] ↔ other ∈ before := by
      intro other
      rw [mem_append, mem_singleton, or_iff_left_of_imp (· ▸ hmem)]
    have hdups : (before ++ [text]).eraseDups = before.eraseDups := by rw [eraseDups_concat, if_pos hmem]
    have hnumber : number (before ++ [text]) = number before := funext fun _ => by rw [number, hdups, number]
    rw [Interning.insert, h.indexOf?, if_pos hmem]
    refine ⟨(congrFun hnumber text).symm, hdups ▸ h.texts, hdups ▸ h.nodup, fun other => ?_⟩
    rw [h.indexOf?, hnumber]
    simp only [hsame]
  · have hdups : (before ++ [text]).eraseDups = before.eraseDups ++ [text] := by rw [eraseDups_concat, if_neg hmem]
    have hnew : text ∉ before.eraseDups := fun h => hmem (mem_eraseDups.1 h)
    -- The number of a new text is not narrowed.
    have hnumber : table.texts.length % UInt32.size = number (before ++ [text]) text := by
      rw [hdups, length_append] at hlimit
      rw [number, hdups, idxOf_append_of_notMem hnew, idxOf_cons_self, h.texts,
        Nat.mod_eq_of_lt (by rw [UInt32.size]; omega)]
      rfl
    rw [Interning.insert, h.indexOf?, if_neg hmem]
    refine ⟨hnumber, ?_, ?_, fun other => ?_⟩
    · rw [hdups, h.texts]
    · rw [hdups, nodup_append_comm, singleton_append, nodup_cons]
      exact ⟨hnew, h.nodup⟩
    · rw [Interning.indexOf?, Table.get?_insert, hnumber]
      by_cases hother : other = text
      · rw [if_pos hother, if_pos (by simp [hother]), hother]
      · have hold : other ∈ before ++ [text] ↔ other ∈ before := by simp [hother]
        rw [if_neg hother, ← Interning.indexOf?, h.indexOf?]
        simp only [hold]
        split
        · next hbefore => rw [number_append hbefore]
        · rfl

theorem Holds.insertAll (h : table.Holds before)
    (hlimit : (before ++ inserted).eraseDups.length < 2 ^ 32) :
    (table.insertAll inserted).1 = inserted.map (number (before ++ inserted)) ∧
      (table.insertAll inserted).2.Holds (before ++ inserted) := by
  induction inserted generalizing table before with
  | nil => exact ⟨rfl, (append_nil before).symm ▸ h⟩
  | cons text inserted ih =>
    have happend : before ++ text :: inserted = (before ++ [text]) ++ inserted := append_cons _ _ _
    rw [happend] at hlimit ⊢
    have hone : (before ++ [text]).eraseDups.length < 2 ^ 32 := by
      rw [eraseDups_append, length_append] at hlimit
      omega
    obtain ⟨hnumber, htable⟩ := h.insert hone
    obtain ⟨hnumbers, hlast⟩ := ih htable hlimit
    refine ⟨?_, hlast⟩
    rw [insertAll, map_cons, number_append (by simp), hnumber, hnumbers]

theorem Holds.get? (h : table.Holds inserted) (hmem : text ∈ inserted) :
    table.get? (number inserted text) = some text := by
  rw [Interning.get?, h.texts]
  exact getElem?_idxOf (mem_eraseDups.2 hmem)

theorem holds_insertAll (hlimit : inserted.eraseDups.length < 2 ^ 32) :
    (empty.insertAll inserted).1 = inserted.map (number inserted) ∧ (ofTexts inserted).Holds inserted :=
  holds_empty.insertAll hlimit

theorem mem_numbers (hnodup : inserted.eraseDups.Nodup) (index : Nat) :
    index ∈ inserted.map (number inserted) ↔ index < inserted.eraseDups.length := by
  rw [mem_map]
  constructor
  · rintro ⟨text, htext, rfl⟩
    exact idxOf_lt_length_iff.2 (mem_eraseDups.2 htext)
  · exact fun hlt => ⟨_, mem_eraseDups.1 (getElem_mem hlt), hnodup.idxOf_getElem _ hlt⟩

/-- Equal texts and only these are given the same number, the numbers are counted up in the order of
first insertion, and numbers and texts are found by each other from then on, and nothing else is. -/
theorem insertAll_stable (earlier later : List String)
    (hlimit : (earlier ++ later).eraseDups.length < 2 ^ 32) :
    (empty.insertAll earlier).1 = earlier.map (number earlier) ∧
    (∀ text ∈ earlier, ∀ other ∈ earlier, number earlier text = number earlier other ↔ text = other) ∧
    (∀ index, index ∈ (empty.insertAll earlier).1 ↔ index < earlier.eraseDups.length) ∧
    (∀ text ∈ earlier, (ofTexts (earlier ++ later)).get? (number earlier text) = some text ∧
      (ofTexts (earlier ++ later)).indexOf? text = some (number earlier text)) ∧
    (∀ text, text ∉ earlier ++ later → (ofTexts (earlier ++ later)).indexOf? text = none) ∧
    ∀ index, index ∉ (empty.insertAll (earlier ++ later)).1 → (ofTexts (earlier ++ later)).get? index = none := by
  have hearlier : earlier.eraseDups.length < 2 ^ 32 := by
    rw [eraseDups_append, length_append] at hlimit
    omega
  obtain ⟨hfirst, hholds⟩ := holds_insertAll hearlier
  obtain ⟨hnumbers, htable⟩ := holds_insertAll hlimit
  refine ⟨hfirst, fun text htext other hother => ?_, ?_, fun text htext => ?_,
    fun text htext => ?_, fun index hindex => ?_⟩
  · exact idxOf_inj (mem_eraseDups.2 htext)
  · rw [hfirst]
    exact mem_numbers hholds.nodup
  · have hmem : text ∈ earlier ++ later := mem_append_left later htext
    rw [← number_append htext, htable.indexOf?, if_pos hmem]
    exact ⟨htable.get? hmem, rfl⟩
  · rw [htable.indexOf?, if_neg htext]
  · rw [hnumbers, mem_numbers htable.nodup, Nat.not_lt] at hindex
    rw [get?, htable.texts]
    exact getElem?_eq_none hindex

/-- `ys` is inserted twice, and `xs` keeps its number when `zs` is inserted. -/
theorem insertAll_stable_again :
    (ofTexts (["ys", "xs", "ys"] ++ ["zs"])).indexOf? "xs" = some (number ["ys", "xs", "ys"] "xs") :=
  ((insertAll_stable ["ys", "xs", "ys"] ["zs"] (by decide)).2.2.2.1 "xs" (by decide)).2

end Interning

end DataParallel
