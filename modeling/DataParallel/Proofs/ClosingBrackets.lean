import Mathlib.Data.List.Chain
import DataParallel.Layout.Template

/-! Angle brackets in the spellings of layouts.

Every bracket that a spelling opens is closed in it, and two closing brackets never touch, so that
no reader takes them for a shift. Both are kept when texts are put one behind the other: a balanced
text does not start with a closing bracket. Only where a list of parameters is closed does the last
character in front of the bracket matter. -/

namespace DataParallel.Layout

open List

mutual

/-- The names in a layout. -/
def names : Layout → List String
  | .scalar _ => []
  | .named name parameters => name :: namesAll parameters
  | .sequence element | .zipped element | .container element => names element
  | .tuple fields => namesAll fields
  | .function layouts layout | .quantified layouts layout => namesAll layouts ++ names layout

def namesAll : List Layout → List String
  | [] => []
  | layout :: rest => names layout ++ namesAll rest

end

/-- Texts whose angle brackets are balanced, with no two closing ones side by side. -/
structure Balanced (text : List Char) : Prop where
  closed : text.count '<' = text.count '>'
  opened : ∀ front, front <+: text → front.count '>' ≤ front.count '<'
  apart : text.IsChain fun a b => ¬ (a = '>' ∧ b = '>')

namespace Balanced
variable {text xs ys : List Char}

theorem plain (h : '<' ∉ text ∧ '>' ∉ text) : Balanced text := by
  refine ⟨?_, fun front hfront => ?_, ?_⟩
  · rw [count_eq_zero.2 h.1, count_eq_zero.2 h.2]
  · rw [count_eq_zero.2 fun hmem => h.2 (hfront.subset hmem)]
    exact Nat.zero_le _
  · refine Pairwise.isChain (pairwise_of_forall_mem_list ?_)
    rintro a ha b - ⟨rfl, -⟩
    exact h.2 ha

theorem head_ne (h : Balanced text) : ∀ c ∈ text.head?, c ≠ '>' := by
  intro c hc
  obtain ⟨rest, rfl⟩ := head?_eq_some_iff.1 hc
  rintro rfl
  have := h.opened ['>'] ⟨rest, rfl⟩
  simp at this

theorem append (hxs : Balanced xs) (hys : Balanced ys) : Balanced (xs ++ ys) := by
  refine ⟨?_, fun front hfront => ?_, isChain_append.2 ⟨hxs.apart, hys.apart, ?_⟩⟩
  · rw [count_append, count_append, hxs.closed, hys.closed]
  · rcases prefix_or_prefix_of_prefix hfront (prefix_append xs ys) with h | ⟨more, rfl⟩
    · exact hxs.opened front h
    · have := hys.opened more ((prefix_append_right_inj xs).1 hfront)
      rw [count_append, count_append, hxs.closed]
      omega
  · exact fun _ _ b hb hboth => hys.head_ne b hb hboth.2

theorem bracket (h : Balanced text) (hlast : text.getLast? ≠ some '>') :
    Balanced ('<' :: (text ++ ['>'])) := by
  refine ⟨?_, fun front hfront => ?_, ?_⟩
  · simp [h.closed]
  · rcases prefix_cons_iff.1 hfront with rfl | ⟨front, rfl, hmore⟩
    · simp
    · rcases prefix_concat_iff.1 hmore with rfl | hmore
      · simp [h.closed]
      · have := h.opened front hmore
        simp
        omega
  · have hclosing : (text ++ ['>']).IsChain fun a b => ¬ (a = '>' ∧ b = '>') := by
      refine isChain_append.2 ⟨h.apart, .singleton _, fun a ha _ _ hboth => ?_⟩
      exact hlast (hboth.1 ▸ ha)
    exact hclosing.cons fun _ _ hboth => absurd hboth.1 (by decide)

end Balanced

/-- Whether the last of some texts ends in a closing bracket. -/
def closeLast (texts : List String) : Bool := texts.getLast?.any (·.toList.getLast? = some '>')

section Spelling
variable {target : Target} {name : String} {texts : List String}

theorem closeLast_of_intercalate : ∀ {texts : List String}, (", ".intercalate texts).toList.getLast? = some '>' →
    closeLast texts = true
  | [text], h => by
    rw [String.intercalate_singleton] at h
    simpa [closeLast] using h
  | text :: next :: rest, h => by
    rw [String.intercalate_cons_cons, String.toList_append, getLast?_append] at h
    rw [closeLast, getLast?_cons_cons]
    refine closeLast_of_intercalate ?_
    cases hlast : (", ".intercalate (next :: rest)).toList.getLast? with
    | some c => rwa [hlast] at h
    | none =>
      rw [hlast, Option.none_or, String.toList_append, getLast?_append] at h
      cases h

theorem intercalate_balanced : ∀ {texts : List String}, (∀ text ∈ texts, Balanced text.toList) →
    Balanced (", ".intercalate texts).toList
  | [], _ => .plain (by decide)
  | [text], h => by
    rw [String.intercalate_singleton]
    exact h text mem_cons_self
  | text :: next :: rest, h => by
    rw [String.intercalate_cons_cons, String.toList_append, String.toList_append]
    have hcomma : Balanced ", ".toList := .plain (by decide)
    exact ((h text mem_cons_self).append hcomma).append
      (intercalate_balanced fun text htext => h text (mem_cons_of_mem _ htext))

theorem template_balanced (hname : Balanced name.toList)
    (h : ∀ text ∈ texts, Balanced text.toList) :
    Balanced (template name texts (closeLast texts)).toList := by
  have hinner := intercalate_balanced h
  rw [template, String.toList_append, String.toList_append, String.toList_append, append_assoc, append_assoc]
  refine hname.append ?_
  split
  · have hblank : Balanced [' '] := .plain (by decide)
    have hspaced := (hinner.append hblank).bracket (by simp)
    rwa [append_assoc] at hspaced
  · rename_i hopen
    exact hinner.bracket fun hclosing => hopen (closeLast_of_intercalate hclosing)

theorem closeLast_singleton (target : Target) (layout : Layout) (texts : List String) :
    closeLast (texts ++ [layout.spell target]) = layout.isBracketed := by
  rw [closeLast, getLast?_concat, Option.any_some, Bool.eq_iff_iff, decide_eq_true_iff]
  exact getLast?_spell target layout

theorem closeLast_spellAll (target : Target) : ∀ layouts : List Layout,
    closeLast (spellAll target layouts) = isLastBracketed layouts
  | [] => rfl
  | [layout] => closeLast_singleton target layout []
  | _ :: next :: rest => closeLast_spellAll target (next :: rest)

def Plain (name : String) : Prop := '<' ∉ name.toList ∧ '>' ∉ name.toList

mutual

theorem spell_balanced (target : Target) : ∀ layout : Layout, (∀ name ∈ layout.names, Plain name) →
    Balanced (layout.spell target).toList
  | .scalar kind, _ => by
    rw [spell]
    cases kind <;> exact .plain (by decide)
  | .named name [], h => .plain (h name mem_cons_self)
  | .named name (p :: ps), h => by
    have hall := spellAll_balanced target (p :: ps) fun x hx => h x (mem_cons_of_mem _ hx)
    rw [spell, ← closeLast_spellAll target]
    exact template_balanced (.plain (h name mem_cons_self)) hall
  | .sequence element, h => by
    have htag : Balanced target.tag.toList := by cases target <;> exact .plain (by decide)
    rw [spell, ← closeLast_singleton target element [target.tag]]
    exact template_balanced (.plain (by decide))
      (forall_mem_cons.2 ⟨htag, forall_mem_singleton.2 (spell_balanced target element h)⟩)
  | .zipped columns, h => by
    rw [spell, ← closeLast_singleton target columns []]
    exact template_balanced (.plain (by decide)) (forall_mem_singleton.2 (spell_balanced target columns h))
  | .container _, _ => by
    rw [spell]
    exact .plain (by decide)
  | .tuple fields, h => by
    rw [spell, ← closeLast_spellAll target]
    exact template_balanced (.plain (by decide)) (spellAll_balanced target fields h)
  | .function parameters result, h => by
    have hall := spellAll_balanced target parameters fun x hx => h x (mem_append_left _ hx)
    have hresult := spell_balanced target result fun x hx => h x (mem_append_right _ hx)
    rw [spell, String.toList_append, String.toList_append, String.toList_append]
    exact ((hresult.append (.plain (by decide))).append (intercalate_balanced hall)).append (.plain (by decide))
  | .quantified binders body, h => by
    rw [spell, ← closeLast_spellAll target]
    exact template_balanced (spell_balanced target body fun x hx => h x (mem_append_right _ hx))
      (spellAll_balanced target binders fun x hx => h x (mem_append_left _ hx))

theorem spellAll_balanced (target : Target) :
    ∀ layouts : List Layout, (∀ name ∈ namesAll layouts, Plain name) →
    ∀ text ∈ spellAll target layouts, Balanced text.toList
  | [], _ => forall_mem_nil _
  | layout :: rest, h => forall_mem_cons.2 ⟨spell_balanced target layout fun x hx => h x (mem_append_left _ hx),
      spellAll_balanced target rest fun x hx => h x (mem_append_right _ hx)⟩

end

end Spelling

/-- If no name in a layout holds an angle bracket, the layout is spelled for every target without
two closing brackets side by side, with as many brackets opened as closed, and with none closed
before it was opened. -/
theorem spell_closes_apart {layout : Layout}
    (h : ∀ name ∈ layout.names, '<' ∉ name.toList ∧ '>' ∉ name.toList) (target : Target) :
    ¬ ['>', '>'] <:+: (layout.spell target).toList ∧
    (layout.spell target).toList.count '<' = (layout.spell target).toList.count '>' ∧
    ∀ front, front <+: (layout.spell target).toList → front.count '>' ≤ front.count '<' := by
  have hbalanced := spell_balanced target layout h
  refine ⟨fun hinfix => ?_, hbalanced.closed, hbalanced.opened⟩
  have hpair := hbalanced.apart.infix hinfix
  exact (isChain_cons_cons.1 hpair).1 ⟨rfl, rfl⟩

/-- A template that is named by another one, with a function and an empty tuple among its
parameters. -/
def layered : Layout :=
  .quantified [.named "a" [], .sequence (.tuple [])]
    (.named "Pair" [.function [.zipped (.tuple [.sequence (.named "a" [])])] (.container (.named "b" [])), .tuple []])

theorem layered_closes_apart : layered.spell .cuda =
      "Pair<sp_cuarray(*)(zipped_sequence<thrust::tuple<sequence<cuda_tag, a> > >), thrust::tuple<> >" ++
        "<a, sequence<cuda_tag, thrust::tuple<> > >" ∧
    ¬ ['>', '>'] <:+: (layered.spell .cuda).toList ∧
    (layered.spell .cuda).toList.count '<' = (layered.spell .cuda).toList.count '>' ∧
    ∀ front, front <+: (layered.spell .cuda).toList → front.count '>' ≤ front.count '<' :=
  ⟨by decide +kernel, spell_closes_apart (by decide) .cuda⟩

end DataParallel.Layout
