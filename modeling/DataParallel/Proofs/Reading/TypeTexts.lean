import DataParallel.Proofs.Reading.Taking
import DataParallel.Reading.Units

/-! How types are written.

`Spelled` is the grammar of types: what can be written for one type, or for several with commas
between them. Whatever is written for a type is read as that type, and everything behind it is left,
as long as no `<` follows. -/

namespace DataParallel

open Token (Lexeme lexeme Kind)

/-- A name that is no keyword and no literal, and that no name supply draws. -/
def Name.isIdentifier (x : String) : Bool :=
  x.toList.head?.any (fun c => Token.isWordStart c && c != '_') && x.toList.all Token.isWordPart &&
    decide (Token.wordKind x = .identifier)

def Token.Lexeme.sign (c : Char) : Lexeme := ⟨signKind c, String.ofList [c]⟩

namespace Ty
open Token.Lexeme (sign)

/-- One type in parentheses is that type. -/
def grouped : List Ty → Ty
  | [ty] => ty
  | tys => .tuple tys

inductive Spelled : List Ty → List Lexeme → Prop where
  | cons {ty : Ty} {tys : List Ty} {ls ls' : List Lexeme} : Spelled [ty] ls → Spelled tys ls' →
    Spelled (ty :: tys) (ls ++ sign ',' :: ls')
  | name {x : String} : Name.isIdentifier x = true → Spelled [.named x []] [⟨.identifier, x⟩]
  | parameters {x : String} {tys : List Ty} {ls : List Lexeme} : Name.isIdentifier x = true → Spelled tys ls →
    Spelled [.named x tys] (⟨.identifier, x⟩ :: sign '<' :: (ls ++ [sign '>']))
  | sequence {ty : Ty} {ls : List Lexeme} : Spelled [ty] ls → Spelled [.sequence ty] (sign '[' :: (ls ++ [sign ']']))
  | parens {tys : List Ty} {ls : List Lexeme} : Spelled tys ls → Spelled [grouped tys] (sign '(' :: (ls ++ [sign ')']))
  | constant {ty : Ty} {ls : List Lexeme} : Spelled [ty] ls →
    Spelled [.function [] ty] (⟨.keyword .fn, "fn"⟩ :: sign '(' :: sign ')' :: ⟨.arrow, "->"⟩ :: ls)
  | function {tys : List Ty} {ty : Ty} {ls ls' : List Lexeme} : Spelled tys ls → Spelled [ty] ls' →
    Spelled [.function tys ty] (⟨.keyword .fn, "fn"⟩ :: sign '(' :: (ls ++ sign ')' :: ⟨.arrow, "->"⟩ :: ls'))
  | quantified {xs : List String} {ty : Ty} {ls : List Lexeme} : xs ≠ [] → (∀ x ∈ xs, Name.isIdentifier x = true) →
    Spelled [ty] ls → Spelled [.quantified (xs.map (.named · [])) ty]
      (⟨.keyword .forall_, "forall"⟩ :: ((xs.map (Lexeme.mk .identifier) ++ [sign '.']) ++ ls))

def isVariable : Ty → Bool
  | .named x tys => Name.isIdentifier x && tys.isEmpty
  | _ => false

mutual

/-- The types of the grammar: tuples have two fields or more, and type variables have no parameters.
-/
def isWritable : Ty → Bool
  | .named x tys => Name.isIdentifier x && areWritable tys
  | .sequence ty => ty.isWritable
  | .tuple tys => decide (2 ≤ tys.length) && areWritable tys
  | .function tys ty => areWritable tys && ty.isWritable
  | .quantified tys ty => (!tys.isEmpty && tys.all isVariable) && ty.isWritable

def areWritable : List Ty → Bool
  | [] => true
  | ty :: tys => ty.isWritable && areWritable tys

end

theorem exists_variables {tys : List Ty} (h : tys.all isVariable = true) :
    ∃ xs : List String, tys = xs.map (.named · []) ∧ ∀ x ∈ xs, Name.isIdentifier x = true := by
  induction tys with
  | nil => exact ⟨[], rfl, by simp⟩
  | cons ty tys ih =>
    rw [List.all_cons, Bool.and_eq_true] at h
    obtain ⟨xs, rfl, hxs⟩ := ih h.2
    cases ty with
    | named x parameters =>
      obtain ⟨hx, hnone⟩ := Bool.and_eq_true_iff.1 h.1
      exact ⟨x :: xs, by rw [List.isEmpty_iff.1 hnone]; rfl, List.forall_mem_cons.2 ⟨hx, hxs⟩⟩
    | _ => cases h.1

theorem grouped_of_length {tys : List Ty} (h : 2 ≤ tys.length) : grouped tys = .tuple tys := by
  unfold grouped
  split
  · simp at h
  · rfl

mutual

/-- Every type of the grammar can be written. -/
theorem exists_spelled : ∀ {ty : Ty}, ty.isWritable = true → ∃ ls, Spelled [ty] ls
  | .named x tys, h => by
    obtain ⟨hx, htys⟩ := Bool.and_eq_true_iff.1 h
    rcases Decidable.em (tys = []) with rfl | hne
    · exact ⟨_, .name hx⟩
    · exact (exists_spelledAll htys hne).imp' _ fun _ => .parameters hx
  | .sequence ty, h => by
    rw [isWritable] at h
    exact (exists_spelled h).imp' _ fun _ => .sequence
  | .tuple tys, h => by
    obtain ⟨hlength, htys⟩ := Bool.and_eq_true_iff.1 h
    rw [← grouped_of_length (of_decide_eq_true hlength)]
    exact (exists_spelledAll htys (by rintro rfl; cases hlength)).imp' _ fun _ => .parens
  | .function tys ty, h => by
    obtain ⟨htys, hty⟩ := Bool.and_eq_true_iff.1 h
    obtain ⟨ls', hresult⟩ := exists_spelled hty
    rcases Decidable.em (tys = []) with rfl | hne
    · exact ⟨_, .constant hresult⟩
    · exact (exists_spelledAll htys hne).imp' _ fun _ hls => .function hls hresult
  | .quantified tys ty, h => by
    obtain ⟨hbinders, hty⟩ := Bool.and_eq_true_iff.1 h
    obtain ⟨hne, hvariables⟩ := Bool.and_eq_true_iff.1 hbinders
    obtain ⟨xs, rfl, hxs⟩ := exists_variables hvariables
    exact (exists_spelled hty).imp' _ fun _ => .quantified (by rintro rfl; cases hne) hxs

theorem exists_spelledAll :
    ∀ {tys : List Ty}, areWritable tys = true → tys ≠ [] → ∃ ls, Spelled tys ls
  | [], _, hne => absurd rfl hne
  | ty :: tys, h, _ => by
    obtain ⟨hty, htys⟩ := Bool.and_eq_true_iff.1 h
    obtain ⟨ls, hls⟩ := exists_spelled hty
    rcases Decidable.em (tys = []) with rfl | hne
    · exact ⟨ls, hls⟩
    · exact (exists_spelledAll htys hne).imp' _ fun _ => hls.cons

end

end Ty

namespace Reading
variable {c : State} {n : Nat} {β : Type} {follow : Kind → Prop} {ty : Ty} {tys : List Ty} {l : Lexeme}
  {ls ls' : List Lexeme} {q : β → Prop}

theorem identifier_eq {x : String} (hx : Name.isIdentifier x = true) {token : Token}
    (htoken : token.lexeme = ⟨.identifier, x⟩) : identifier token = pure x := by
  have htext : token.text = x := congrArg Lexeme.text htoken
  have hfirst : x.toList.head? ≠ some '_' := fun hfirst => by simp [Name.isIdentifier, hfirst] at hx
  rw [identifier, htext, if_neg hfirst]

theorem takes_variables {xs : List String} (hxs : ∀ x ∈ xs, Name.isIdentifier x = true)
    (hn : xs.length < n) :
    Takes c (fun _ => True) (readVariables n) (xs.map (Lexeme.mk .identifier) ++ [.sign '.'])
      (· = xs.map (.named · [])) := by
  induction xs generalizing n with
  | nil =>
    obtain ⟨n, rfl⟩ := Nat.exists_eq_add_one.2 hn
    exact Takes.eat rfl (.pure rfl)
  | cons x xs ih =>
    obtain ⟨n, rfl⟩ := Nat.exists_eq_add_one.2 (Nat.zero_lt_of_lt hn)
    rw [List.map_cons, List.cons_append]
    refine Takes.eat_not Kind.noConfusion ?_
    rw [if_neg Bool.false_ne_true, readIdentifier, bind_assoc]
    refine (Takes.expect (l := ⟨.identifier, x⟩) rfl Kind.noConfusion).followed fun token htoken => ?_
    rw [identifier_eq (hxs x List.mem_cons_self) htoken]
    simp only [pure_bind]
    refine (ih (fun y hy => hxs y (List.mem_cons_of_mem _ hy)) (Nat.lt_of_succ_lt_succ hn)).last ?_
    rintro _ rfl
    exact .pure rfl

/-- What can follow a list of types. -/
abbrev Closes (kind : Kind) : Prop := kind ≠ .lessThan ∧ kind ≠ .comma

/-- Lexemes that are read as the first of some types, and then as the others. -/
def Lists (c : State) (tys : List Ty) (ls : List Lexeme) : Prop :=
  ∃ ty more l front back, tys = ty :: more ∧ ls = (l :: front) ++ back ∧ l.kind ≠ .closeParen ∧
    (∀ n, front.length < n → Takes c (· ≠ .lessThan) (readType n) (l :: front) (· = ty)) ∧
    (∀ n, back.length < n → Takes c Closes (readMoreTypes n) back (· = more)) ∧
    (∀ l ∈ back.head?, l.kind = .comma) ∧ (more = [] → back = [])

namespace Lists

variable {f : Ty → List Ty → Read β}

theorem one {f : Nat → Token → Read Ty} (hl : l.kind ≠ .closeParen ∧ l.kind ≠ .unknown)
    (hf : ∀ n, readType (n + 1) = expectNext "type" >>= f n)
    (h : ∀ n token, ls.length ≤ n → token.lexeme = l → Takes c (· ≠ .lessThan) (f n token) ls (· = ty)) :
    Lists c [ty] (l :: ls) := by
  refine ⟨ty, [], l, ls, [], rfl, by simp, hl.1, fun n hn => ?_, fun n hn => ?_, by simp, fun _ => rfl⟩
  · obtain ⟨n, rfl⟩ := Nat.exists_eq_add_one.2 (Nat.zero_lt_of_lt hn)
    rw [hf]
    exact (Takes.expectNext hl.2).followed fun token htoken => h n token (Nat.le_of_lt_succ hn) htoken
  · obtain ⟨n, rfl⟩ := Nat.exists_eq_add_one.2 hn
    rw [readMoreTypes]
    exact Takes.eat_end (fun _ h => h.2) (.pure rfl)

theorem readType (h : Lists c [ty] ls) (hn : ls.length ≤ n) :
    Takes c (· ≠ .lessThan) (readType n) ls (· = ty) := by
  obtain ⟨_, _, l, front, back, htys, rfl, -, hfirst, -, -, hback⟩ := h
  cases htys
  rw [hback rfl, List.append_nil] at hn ⊢
  exact hfirst n hn

theorem bind (h : Lists c tys ls) (hn : ls.length ≤ n)
    (hf : ∀ first rest, tys = first :: rest → Takes c follow (f first rest) ls' q)
    (hfirst : ∀ l ∈ ls'.head?, Closes l.kind) (hend : ls' = [] → ∀ kind, follow kind → Closes kind) :
    Takes c follow (Reading.readType n >>= fun first => readMoreTypes n >>= f first) (ls ++ ls') q := by
  obtain ⟨ty, more, l, front, back, rfl, rfl, -, htype, hmore, hcomma, -⟩ := h
  simp only [List.length_append, List.length_cons] at hn
  rw [List.append_assoc]
  refine (htype n (by omega)).bind ?_ (fun l' hl' => ?_) fun hnil kind hkind => ?_
  · rintro _ rfl
    refine (hmore n (by omega)).bind ?_ hfirst hend
    rintro _ rfl
    exact hf _ _ rfl
  · cases back with
    | nil => exact (hfirst l' hl').1
    | cons l₀ back =>
      rw [← Option.some.inj hl', hcomma l₀ rfl]
      exact Kind.noConfusion
  · exact (hend (List.append_eq_nil_iff.1 hnil).2 kind hkind).1

/-- A list of types up to the sign that closes it. -/
theorem closed {close : Kind} (h : Lists c tys ls) (hn : ls.length ≤ n) (hl : l.kind = close)
    (hclose : Closes close ∧ close ≠ .unknown)
    (hf : ∀ first rest, tys = first :: rest → Takes c follow (f first rest) ls' q) :
    Takes c follow (Reading.readType n >>= fun first => readMoreTypes n >>= fun rest =>
      expect close >>= fun _ => f first rest) (ls ++ l :: ls') q := by
  refine h.bind hn (fun first rest htys => ?_) ?_ nofun
  · exact (Takes.expect hl hclose.2).followed fun _ _ => hf first rest htys
  · exact fun _ hl' => Option.some.inj hl' ▸ hl ▸ hclose.1

theorem parameters (h : Lists c tys ls) (hn : ls.length < n) :
    Takes c (· = .closeParen) (readParameterTypes n) ls (· = tys) := by
  obtain ⟨n, rfl⟩ := Nat.exists_eq_add_one.2 (Nat.zero_lt_of_lt hn)
  have hread : Takes c (· = .closeParen) (do return (← Reading.readType n) :: (← readMoreTypes n)) (ls ++ [])
      (· = tys) := by
    refine h.bind (Nat.le_of_lt_succ hn) (fun _ _ htys => .pure htys.symm) (by simp) ?_
    rintro _ _ rfl
    exact ⟨Kind.noConfusion, Kind.noConfusion⟩
  obtain ⟨_, _, l, front, back, -, rfl, hl, -⟩ := h
  rw [List.append_nil] at hread
  rw [readParameterTypes]
  refine Takes.nextIs ?_
  rwa [decide_eq_false hl, if_neg Bool.false_ne_true]

theorem cons (hty : Lists c [ty] ls) (htys : Lists c tys ls') :
    Lists c (ty :: tys) (ls ++ .sign ',' :: ls') := by
  obtain ⟨_, _, l, front, back, heq, rfl, hl, htype, -, -, hback⟩ := hty
  cases heq
  rw [hback rfl, List.append_nil]
  refine ⟨ty, tys, l, front, .sign ',' :: ls', rfl, rfl, hl, htype, fun n hn => ?_, ?_, ?_⟩
  · obtain ⟨n, rfl⟩ := Nat.exists_eq_add_one.2 (Nat.zero_lt_of_lt hn)
    rw [readMoreTypes, ← List.append_nil ls']
    refine Takes.eat rfl (htys.bind ?_ (fun _ _ htys => .pure htys.symm) (by simp) fun _ _ hkind => hkind)
    exact Nat.le_of_succ_le (Nat.le_of_lt_succ hn)
  · exact fun _ hl => Option.some.inj hl ▸ rfl
  · rintro rfl
    obtain ⟨_, _, _, _, _, heq, -⟩ := htys
    cases heq

theorem result {parameters : List Ty} (h : Lists c [ty] ls) (hn : ls.length ≤ n) :
    Takes c (· ≠ .lessThan) (do
      let _ ← expect .closeParen
      let _ ← expect .arrow
      return Ty.function parameters (← Reading.readType n)) (.sign ')' :: ⟨.arrow, "->"⟩ :: ls)
      (· = Ty.function parameters ty) := by
  refine (Takes.expect (l := .sign ')') rfl Kind.noConfusion).followed fun _ _ => ?_
  refine (Takes.expect (l := ⟨.arrow, "->"⟩) rfl Kind.noConfusion).followed fun _ _ => ?_
  exact (h.readType hn).last fun _ h => .pure (h ▸ rfl)

end Lists

theorem lists_of_spelled (c : State) (h : Ty.Spelled tys ls) : Lists c tys ls := by
  induction h with
  | cons _ _ hty htys => exact hty.cons htys
  | name hx =>
    refine .one (by simp) (fun _ => by rw [readType]) fun n token _ htoken => ?_
    rw [identifier_eq hx htoken]
    simp only [show token.kind = .identifier from congrArg Lexeme.kind htoken, pure_bind]
    exact Takes.eat_end (fun _ h => h) (.pure rfl)
  | parameters hx _ ih =>
    refine .one (by simp) (fun _ => by rw [readType]) fun n token hn htoken => ?_
    rw [identifier_eq hx htoken]
    simp only [show token.kind = .identifier from congrArg Lexeme.kind htoken, pure_bind]
    refine Takes.eat rfl (ih.closed ?_ rfl (by decide) fun first rest htys => .pure (htys ▸ rfl))
    simp at hn
    omega
  | sequence _ ih =>
    refine .one (by decide) (fun _ => by rw [readType]) fun n token hn htoken => ?_
    simp only [show token.kind = .openBracket from congrArg Lexeme.kind htoken]
    refine (ih.readType (by simp at hn; omega)).bind ?_ ?_ (by simp)
    · rintro _ rfl
      exact (Takes.expect (l := .sign ']') rfl Kind.noConfusion).followed fun _ _ => .pure rfl
    · exact fun _ hl => Option.some.inj hl ▸ Kind.noConfusion
  | parens _ ih =>
    refine .one (by decide) (fun _ => by rw [readType]) fun n token hn htoken => ?_
    simp only [show token.kind = .openParen from congrArg Lexeme.kind htoken]
    refine ih.closed (by simp at hn; omega) rfl (by decide) fun first rest htys => .pure ?_
    cases rest <;> exact htys.symm ▸ rfl
  | constant _ ih =>
    refine .one (by decide) (fun _ => by rw [readType]) fun n token hn htoken => ?_
    simp only [show token.kind = .keyword .fn from congrArg Lexeme.kind htoken]
    refine (Takes.expect (l := .sign '(') rfl Kind.noConfusion).followed fun _ _ => ?_
    simp only [List.length_cons] at hn
    obtain ⟨n, rfl⟩ := Nat.exists_eq_add_one.2 (Nat.zero_lt_of_lt hn)
    rw [readParameterTypes, bind_assoc]
    refine Takes.nextIs (l := .sign ')') ?_
    rw [if_pos (by decide), pure_bind]
    exact ih.result (by omega)
  | function _ _ ihs ih =>
    refine .one (by decide) (fun _ => by rw [readType]) fun n token hn htoken => ?_
    simp only [show token.kind = .keyword .fn from congrArg Lexeme.kind htoken]
    refine (Takes.expect (l := .sign '(') rfl Kind.noConfusion).followed fun _ _ => ?_
    simp only [List.length_append, List.length_cons] at hn
    refine (ihs.parameters (by omega)).bind ?_ ?_ (by simp)
    · rintro _ rfl
      exact ih.result (by omega)
    · exact fun _ hl => Option.some.inj hl ▸ rfl
  | quantified hne hxs _ ih =>
    refine .one (by decide) (fun _ => by rw [readType]) fun n token hn htoken => ?_
    simp only [show token.kind = .keyword .forall_ from congrArg Lexeme.kind htoken]
    simp only [List.length_append, List.length_cons, List.length_map] at hn
    refine (takes_variables hxs (by omega)).followed ?_
    rintro _ rfl
    rw [if_neg (by simpa using hne)]
    exact (ih.readType (by omega)).last fun _ h => .pure (h ▸ rfl)

/-- Whatever is written for a type is read as that type, up to its end, in front of everything but a
`<`. -/
theorem readType_spelled {tokens rest : List Token} (h : Ty.Spelled [ty] (tokens.map lexeme))
    (hrest : ∀ token ∈ rest.head?, token.kind ≠ .lessThan) (hn : tokens.length ≤ n) :
    (readType n).run { c with tokens := tokens ++ rest } = .ok (ty, { c with tokens := rest }) := by
  have hlength : (tokens.map lexeme).length ≤ n := by simpa using hn
  obtain ⟨_, rfl, hrun⟩ := (lists_of_spelled c h).readType hlength tokens rest rfl hrest
  exact hrun

/-- A quantified function type, with parentheses that change nothing and with some that make a
tuple. -/
def pairingType : List Char := "forall a b. fn((Map<[a], b>, ((b))), fn() -> Int32) -> ([a])".toList

theorem readType_pairingType :
    (readType (Token.ofText pairingType).length).run
        { State.initial [] 0 with tokens := Token.ofText pairingType ++ [] } =
      .ok (.quantified [.named "a" [], .named "b" []] (.function
        [.tuple [.named "Map" [.sequence (.named "a" []), .named "b" []], .named "b" []],
          .function [] (.named "Int32" [])] (.sequence (.named "a" []))),
        { State.initial [] 0 with tokens := [] }) := by
  have ha : Name.isIdentifier "a" = true := by decide
  have hb : Name.isIdentifier "b" = true := by decide
  have hmap : Ty.Spelled [.named "Map" [.sequence (.named "a" []), .named "b" []]] _ :=
    .parameters (by decide) (.cons (.sequence (.name ha)) (.name hb))
  have hpair : Ty.Spelled [.tuple [_, .named "b" []]] _ := .parens (.cons hmap (.parens (.parens (.name hb))))
  have hty := Ty.Spelled.function (.cons hpair (.constant (.name (x := "Int32") (by decide))))
    (.parens (.sequence (.name ha)))
  have hspelled : Ty.Spelled [.quantified (["a", "b"].map (.named · [])) _] _ :=
    hty.quantified (by simp) (by simp [ha, hb])
  exact readType_spelled (Eq.mp (congrArg (Ty.Spelled _) (by decide +kernel)) hspelled)
    (nofun) (Nat.le_refl _)

end Reading
end DataParallel
