import DataParallel.Proofs.Reading.Taking
import DataParallel.Proofs.Tokens.Partition

/-! A token does not depend on what stands around it.

What is taken for a token is taken for it again wherever a blank or nothing follows, so the texts of
tokens with blanks between them are cut into the same tokens again. -/

namespace DataParallel

open List Source

namespace Token

/-- A blank follows, or nothing. -/
def Ends (rest : List Char) : Prop := ∀ d ∈ rest.head?, d = ' '

section Munching
variable {c : Char} {cs rest : List Char}

theorem ends_nil : Ends [] := by
  rintro d ⟨⟩

theorem ends_blank : Ends (' ' :: rest) := by
  rintro d ⟨⟩
  rfl

theorem takeWhile_again (p : Char → Bool) (cs : List Char) (hrest : ∀ d ∈ rest.head?, p d = false) :
    (cs.takeWhile p ++ rest).takeWhile p = cs.takeWhile p ∧ (cs.takeWhile p ++ rest).dropWhile p = rest := by
  have hstop : rest.takeWhile p = [] ∧ rest.dropWhile p = rest := by
    cases rest with
    | nil => exact ⟨rfl, rfl⟩
    | cons d ds => simp [hrest d rfl]
  have hall := all_eq_true.1 (@all_takeWhile _ p cs)
  rw [takeWhile_append_of_pos hall, dropWhile_append_of_pos hall, hstop.1, hstop.2]
  exact ⟨append_nil _, rfl⟩

theorem fraction?_again {fraction after : List Char} (h : fraction? cs = some (fraction, after))
    (hrest : Ends rest) :
    fraction? (fraction ++ rest) = some (fraction, rest) ∧ ∃ digits, fraction = '.' :: digits := by
  unfold fraction? at h
  split at h
  · rename_i cs
    split at h
    · cases h
    · rename_i hne
      cases h
      obtain ⟨htake, hdrop⟩ := takeWhile_again Char.isDigit cs fun d hd => hrest d hd ▸ rfl
      rw [cons_append, fraction?, htake, hdrop]
      refine ⟨?_, _, rfl⟩
      split
      · contradiction
      · rfl
  · cases h

theorem fraction?_eq_none :
    fraction? cs = none ↔ ∀ d more, cs = '.' :: d :: more → d.isDigit = false := by
  unfold fraction?
  split
  · rename_i cs
    cases cs with
    | nil => simp
    | cons d more => cases hd : d.isDigit <;> simp [hd]
  · rename_i h
    exact iff_of_true rfl fun d more heq => absurd heq (h _)

theorem pairKind?_blank (c : Char) : pairKind? c ' ' = none := by
  unfold pairKind?
  split <;> simp_all

theorem munch_sign (hdigit : ¬ c.isDigit = true) (hstart : ¬ isWordStart c = true)
    (hrest : Ends rest) : munch c rest = ⟨signKind c, [], rest⟩ := by
  have hfraction : fraction? (c :: rest) = none := by
    refine fraction?_eq_none.2 fun d more heq => ?_
    obtain ⟨-, rfl⟩ := cons.inj heq
    exact hrest d rfl ▸ rfl
  rw [munch.eq_def, if_neg hdigit, if_neg hstart, hfraction]
  cases rest with
  | nil => rfl
  | cons d ds => simp only [hrest d rfl, pairKind?_blank]

theorem munch_again (c : Char) (cs : List Char) (hrest : Ends rest) :
    munch c ((munch c cs).more ++ rest) = { munch c cs with rest } := by
  generalize hbite : munch c cs = bite
  unfold munch at hbite
  split at hbite
  · rename_i hdigit
    dsimp only at hbite
    split at hbite
    · rename_i fraction after hfraction
      subst hbite
      obtain ⟨hagain, digits, rfl⟩ := fraction?_again hfraction hrest
      obtain ⟨htake, hdrop⟩ := @takeWhile_again ('.' :: digits ++ rest) Char.isDigit cs fun d hd => by cases hd; rfl
      rw [append_assoc, munch.eq_def, if_pos hdigit, htake, hdrop]
      simp only [hagain]
    · subst hbite
      obtain ⟨htake, hdrop⟩ := takeWhile_again Char.isDigit cs fun d hd => hrest d hd ▸ rfl
      have hnone : fraction? rest = none := by
        refine fraction?_eq_none.2 ?_
        rintro d more rfl
        exact absurd (hrest '.' rfl) (by decide)
      rw [munch.eq_def, if_pos hdigit, htake, hdrop]
      simp only [hnone]
  · rename_i hdigit
    split at hbite
    · rename_i hstart
      subst hbite
      obtain ⟨htake, hdrop⟩ := takeWhile_again isWordPart cs fun d hd => hrest d hd ▸ rfl
      rw [munch.eq_def, if_neg hdigit, if_pos hstart, htake, hdrop]
    · rename_i hstart
      split at hbite
      · rename_i fraction after hfraction
        subst hbite
        obtain ⟨hagain, digits, rfl⟩ := fraction?_again hfraction hrest
        obtain ⟨rfl, -⟩ := cons.inj (fraction?_eq_some hfraction).1
        rw [munch.eq_def, if_neg hdigit, if_neg hstart]
        simp only [tail_cons, ← cons_append, hagain]
      · rename_i hfraction
        split at hbite
        · subst hbite
          exact munch_sign hdigit hstart hrest
        · split at hbite
          · rename_i d after _ kind hpair
            subst hbite
            have hnone : fraction? (c :: d :: rest) = none := by
              refine fraction?_eq_none.2 fun d' more heq => ?_
              cases heq
              exact fraction?_eq_none.1 hfraction d after rfl
            rw [munch.eq_def, if_neg hdigit, if_neg hstart]
            simp only [cons_append, nil_append, hnone, hpair]
          · subst hbite
            exact munch_sign hdigit hstart hrest

theorem startsComment_again (h : startsComment c cs = false) (hrest : Ends rest) :
    startsComment c ((munch c cs).more ++ rest) = false := by
  rw [← munch_more_append_rest c cs] at h
  cases hmore : (munch c cs).more with
  | nil =>
    cases rest with
    | nil => exact Bool.and_false _
    | cons d ds =>
      rw [hrest d rfl]
      exact Bool.and_false _
  | cons d ds =>
    rw [hmore] at h
    exact h

end Munching

/-- A lexeme that a text can hold. -/
def Lexeme.Stands (l : Lexeme) : Prop :=
  ∃ c cs, l.text.toList = c :: (munch c cs).more ∧ l.kind = (munch c cs).kind ∧ Text.isBlank c = false ∧
    startsComment c cs = false

section Scanning
variable {l : Lexeme} {ls : List Lexeme} {c : Char} {cs rest : List Char} {offset : Nat}

theorem skip_stops {after : Nat} (h : skip offset cs = ⟨after, c :: rest⟩) :
    Text.isBlank c = false ∧ startsComment c rest = false := by
  fun_induction skip offset cs with
  | case1 => cases h
  | case2 _ _ _ _ ih => exact ih h
  | case3 _ _ _ _ _ ih => exact ih h
  | case4 _ _ _ hblank hcomment =>
    cases h
    exact ⟨Bool.not_eq_true _ ▸ hblank, Bool.not_eq_true _ ▸ hcomment⟩

theorem scan_stands (cursor : Cursor) : ∀ token ∈ scan cursor, token.lexeme.Stands := by
  fun_induction scan cursor with
  | case1 => exact forall_mem_nil _
  | case2 cursor token after hfirst ih =>
    refine forall_mem_cons.2 ⟨?_, ih⟩
    unfold first? at hfirst
    split at hfirst
    · cases hfirst
    · rename_i c cs hskip
      cases hfirst
      exact ⟨c, cs, String.toList_ofList, rfl, skip_stops hskip⟩

theorem scan_nil : scan ⟨offset, []⟩ = [] := scan_of_none (by rw [first?, skip])

theorem scan_lexeme (hl : l.Stands) (hrest : Ends rest) : scan ⟨offset, l.text.toList ++ rest⟩ =
    ⟨l.kind, l.text, ⟨offset, offset + size l.text.toList⟩⟩ :: scan ⟨offset + size l.text.toList, rest⟩ := by
  obtain ⟨c, cs, htext, hkind, hblank, hcomment⟩ := hl
  refine scan_of_some ?_
  rw [first?, htext, cons_append, skip, if_neg (Bool.not_eq_true _ ▸ hblank),
    if_neg (Bool.not_eq_true _ ▸ startsComment_again hcomment hrest)]
  dsimp only
  rw [munch_again c cs hrest, ← htext, String.ofList_toList, hkind]

theorem scan_blank (hblank : Text.isBlank c = true) :
    scan ⟨offset, c :: cs⟩ = scan ⟨offset + c.utf8Size, cs⟩ := by
  have hfirst : first? ⟨offset, c :: cs⟩ = first? ⟨offset + c.utf8Size, cs⟩ := by
    rw [first?, first?, skip, if_pos hblank]
  cases hnext : first? ⟨offset + c.utf8Size, cs⟩ with
  | none => rw [scan_of_none (hfirst.trans hnext), scan_of_none hnext]
  | some r => rw [scan_of_some (hfirst.trans hnext), scan_of_some hnext]

theorem scan_spaced (hls : ∀ l ∈ ls, l.Stands) :
    (scan ⟨offset, (" ".intercalate (ls.map Lexeme.text)).toList⟩).map lexeme = ls := by
  induction ls generalizing offset with
  | nil => exact congrArg (map lexeme) scan_nil
  | cons l ls ih =>
    have hl := hls l mem_cons_self
    cases ls with
    | nil =>
      rw [map_singleton, String.intercalate_singleton, ← append_nil l.text.toList, scan_lexeme hl ends_nil, scan_nil]
      rfl
    | cons l' ls =>
      rw [map_cons, map_cons, String.intercalate_cons_cons, String.toList_append, String.toList_append, append_assoc,
        show " ".toList = [' '] from rfl, singleton_append, scan_lexeme hl ends_blank, scan_blank rfl, map_cons]
      exact congrArg (l :: ·) (ih fun l hl => hls l (mem_cons_of_mem _ hl))

end Scanning

/-- Texts of tokens with blanks between them are cut into tokens of the same kinds and texts again,
and the text of one token is that token. -/
theorem ofText_spaced (text : List Char) :
    (ofText (" ".intercalate ((ofText text).map Token.text)).toList).map lexeme = (ofText text).map lexeme ∧
      ∀ token ∈ ofText text, ofText token.text.toList = [{ token with span := ⟨0, size token.text.toList⟩ }] := by
  have hstands : ∀ token ∈ ofText text, token.lexeme.Stands := scan_stands ⟨0, text⟩
  refine ⟨?_, fun token htoken => ?_⟩
  · have hspaced : ∀ offset, (scan ⟨offset, _⟩).map lexeme = _ := fun _ => scan_spaced (forall_mem_map.2 hstands)
    rw [map_map] at hspaced
    exact hspaced 0
  · have hone : scan ⟨0, _⟩ = _ := scan_lexeme (hstands token htoken) ends_nil
    rwa [append_nil, scan_nil, Nat.zero_add] at hone

end Token
end DataParallel
