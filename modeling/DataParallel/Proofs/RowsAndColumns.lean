import DataParallel.Proofs.SourcePositions

/-! A row and a column name one place of a text.

Rows are counted by the line ends in front of a place, columns by the bytes back to the last of
them. The text in front of a place is whole lines, one for each line end, and then the start of a
line, which has none. -/

namespace DataParallel.Source

open List

/-- A text cut after each line end; what follows the last one is a line, even if it is empty. -/
def cutLines : List Char → List (List Char)
  | [] => [[]]
  | c :: cs => if c = '\n' then [c] :: cutLines cs else Text.consFirst c (cutLines cs)

variable {text front back start mid : List Char} {offset further : Nat}

theorem cutLines_ne_nil (text : List Char) : cutLines text ≠ [] := by
  cases text with
  | nil => exact cons_ne_nil _ _
  | cons c cs =>
    rw [cutLines]
    split
    · exact cons_ne_nil _ _
    · cases cutLines cs <;> exact cons_ne_nil _ _

/-- Whole lines are cut off as they are. -/
theorem cutLines_append :
    ∀ front : List Char, front.getLast?.all (· = '\n') = true → ∃ lines : List (List Char),
    lines.length = front.count '\n' ∧ lines.flatten = front ∧
    ∀ back, cutLines (front ++ back) = lines ++ cutLines back
  | [], _ => ⟨[], rfl, rfl, fun _ => rfl⟩
  | c :: cs, h => by
    obtain ⟨lines, hcount, hflat, hcut⟩ := cutLines_append cs (by cases cs <;> simp_all)
    by_cases hc : c = '\n'
    · refine ⟨[c] :: lines, by simp [hc, hcount], by simp [hflat], fun back => ?_⟩
      rw [cons_append, cutLines, if_pos hc, hcut, cons_append]
    · cases lines with
      | nil =>
        -- nothing follows, so the text does not end in a line end
        rw [flatten_nil] at hflat
        subst hflat
        simp [hc] at h
      | cons line lines =>
        refine ⟨(c :: line) :: lines, by rw [count_cons_of_ne (by simpa using hc), ← hcount]; rfl, ?_, fun back => ?_⟩
        · exact congrArg (c :: ·) hflat
        · rw [cons_append, cutLines, if_neg hc, hcut]
          rfl

/-- What has no line end is the start of a line. -/
theorem cutLines_start (back : List Char) : ∀ start : List Char, '\n' ∉ start → ∃ line lines,
    cutLines (start ++ back) = (start ++ line) :: lines
  | [], _ => exists_cons_of_ne_nil (cutLines_ne_nil back)
  | c :: cs, h => by
    obtain ⟨hc, hcs⟩ := not_or.1 (mt mem_cons.2 h)
    obtain ⟨line, lines, hcut⟩ := cutLines_start back cs hcs
    exact ⟨line, lines, by rw [cons_append, cutLines, if_neg (Ne.symm hc), hcut]; rfl⟩

/-- The text in front of a place is whole lines and the start of a line, which is what its column
counts. -/
theorem exists_start (front : List Char) : ∃ whole start, front = whole ++ start ∧
    whole.getLast?.all (· = '\n') = true ∧ '\n' ∉ start ∧ front.reverse.takeWhile (· ≠ '\n') = start.reverse := by
  refine ⟨(front.reverse.dropWhile (· ≠ '\n')).reverse, (front.reverse.takeWhile (· ≠ '\n')).reverse, ?_, ?_, ?_, ?_⟩
  · rw [← reverse_append, takeWhile_append_dropWhile, reverse_reverse]
  · rw [getLast?_reverse]
    cases hc : (front.reverse.dropWhile (· ≠ '\n')).head? with
    | none => rfl
    | some c =>
      have h := head?_dropWhile_not (fun c => decide (c ≠ '\n')) front.reverse
      rw [hc] at h
      simpa using h
  · intro h
    simpa using all_eq_true.1 all_takeWhile _ (mem_reverse.1 h)
  · rw [reverse_reverse]

theorem size_reverse : ∀ text : List Char, size text.reverse = size text
  | [] => rfl
  | c :: cs => by rw [reverse_cons, size_append, size_reverse cs, size, size, size, Nat.add_zero, Nat.add_comm]

theorem size_pos (h : mid ≠ []) : 0 < size mid := by
  cases mid with
  | nil => exact absurd rfl h
  | cons c cs => exact Nat.add_pos_left c.utf8Size_pos _

/-- Whatever stands in front of a later place as well moves the row on, or else the column. -/
theorem later_of_append (hmid : mid ≠ []) :
    front.count '\n' < (front ++ mid).count '\n' ∨ front.count '\n' = (front ++ mid).count '\n' ∧
      size (front.reverse.takeWhile (· ≠ '\n')) < size ((front ++ mid).reverse.takeWhile (· ≠ '\n')) := by
  rw [count_append]
  by_cases hend : '\n' ∈ mid
  · exact .inl (Nat.lt_add_of_pos_right (count_pos_iff.2 hend))
  · refine .inr ⟨by rw [count_eq_zero.2 hend, Nat.add_zero], ?_⟩
    have hpass : ∀ c ∈ mid.reverse, decide (c ≠ '\n') = true := fun c hc =>
      decide_eq_true fun h => hend (h ▸ mem_reverse.1 hc)
    rw [reverse_append, takeWhile_append_of_pos hpass, size_append, size_reverse]
    exact Nat.lt_add_of_pos_left (size_pos hmid)

theorem front_lt {front' back' : List Char} (h : front ++ back = front' ++ back')
    (hlt : size front < size front') : ∃ mid, mid ≠ [] ∧ front' = front ++ mid := by
  rcases append_eq_append_iff.1 h with ⟨mid, rfl, -⟩ | ⟨mid, rfl, -⟩
  · refine ⟨mid, ?_, rfl⟩
    rintro rfl
    simp at hlt
  · rw [size_append] at hlt
    omega

/-- An offset with its row and its column: it lies as many bytes behind the start of the line as the
column says, and no further than the line reaches. -/
structure IsAt (text : List Char) (offset row column : Nat) : Prop where
  hasRow : row? text offset = some row
  hasColumn : column? text offset = some column
  counted : 1 ≤ row ∧ 1 ≤ column
  reached : size ((cutLines text).take (row - 1)).flatten + (column - 1) = offset
  within : ∃ line, (cutLines text)[row - 1]? = some line ∧ column ≤ size (line.filter (· ≠ '\n')) + 1

theorem isAt_size (front back : List Char) :
    IsAt (front ++ back) (size front) (front.count '\n' + 1)
    (size (front.reverse.takeWhile (· ≠ '\n')) + 1) := by
  obtain ⟨whole, start, hfront, hwhole, hstart, hcolumn⟩ := exists_start front
  obtain ⟨lines, hcount, hflat, hcut⟩ := cutLines_append whole hwhole
  obtain ⟨line, rest, hline⟩ := cutLines_start back start hstart
  have hrow : lines.length = front.count '\n' := by
    rw [hfront, count_append, count_eq_zero.2 hstart, hcount, Nat.add_zero]
  have hcuts : cutLines (front ++ back) = lines ++ (start ++ line) :: rest := by
    rw [hfront, append_assoc, hcut, hline]
  refine ⟨congrArg (Option.map _) (before?_size _ _), congrArg (Option.map _) (before?_size _ _),
    ⟨Nat.le_add_left _ _, Nat.le_add_left _ _⟩, ?_, start ++ line, ?_, ?_⟩
  · rw [hcuts, Nat.add_sub_cancel, Nat.add_sub_cancel, ← hrow, take_left, hflat, hcolumn, size_reverse, ← size_append,
      ← hfront]
  · rw [hcuts, Nat.add_sub_cancel, ← hrow, getElem?_append_right (Nat.le_refl _), Nat.sub_self]
    rfl
  · have hkept : start.filter (· ≠ '\n') = start :=
      filter_eq_self.2 fun c hc => decide_eq_true (ne_of_mem_of_not_mem hc hstart)
    rw [filter_append, hkept, size_append, hcolumn, size_reverse]
    omega

/-- Every boundary of a text has a row and a column that name it, and a boundary behind it has a
later row, or the same row and a later column. -/
theorem row_column_place (h : IsBoundary text offset) : ∃ row column, IsAt text offset row column ∧
    ∀ further, IsBoundary text further → offset < further → ∃ row' column', IsAt text further row' column' ∧
      (row < row' ∨ row = row' ∧ column < column') := by
  obtain ⟨front, back, rfl, rfl⟩ := h
  refine ⟨_, _, isAt_size front back, ?_⟩
  rintro _ ⟨front', back', htext, rfl⟩ hlt
  obtain ⟨mid, hmid, rfl⟩ := front_lt htext hlt
  refine ⟨_, _, htext ▸ isAt_size _ back', ?_⟩
  exact (later_of_append hmid).imp Nat.succ_lt_succ fun h => ⟨congrArg (· + 1) h.1, Nat.succ_lt_succ h.2⟩

theorem row_column_place_accent : ∃ row column, IsAt "é\nab".toList 4 row column ∧
    ∀ further, IsBoundary "é\nab".toList further → 4 < further →
      ∃ row' column', IsAt "é\nab".toList further row' column' ∧ (row < row' ∨ row = row' ∧ column < column') :=
  row_column_place ⟨['é', '\n', 'a'], ['b'], rfl, rfl⟩

end DataParallel.Source
