import Mathlib.Data.List.DropRight
import SimpleChat.JsonExact

/-! White space around a document: `parse` takes it on both sides of an array and
finds the same value, and nothing else may be there. So where a stream of bytes goes
on with an array, a piece of it is a value only if it is that array. -/
namespace SimpleChat.Json
open Grammar

theorem noSpace : Space [] := nofun

theorem spaceAppend {left right : Text} (front : Space left) (back : Space right) : Space (left ++ right) :=
  fun b member => (List.mem_append.mp member).elim (front b) (back b)

theorem spelledSpace {tokens : List Token} {space text tail : Text} (some_ : tokens ≠ []) (blank : Space space)
    (spelled : Spelled tokens text tail) : Spelled tokens (space ++ text) tail := by
  cases spelled with
  | nil => exact absurd rfl some_
  | cons blank' lexeme later =>
    rw [← List.append_assoc]
    exact .cons (spaceAppend blank blank') lexeme later

theorem rowSome {js : Json} {tokens : List Token} (row : Row (.value js) tokens) : tokens ≠ [] := by
  obtain ⟨_,_,rfl,_⟩ := rowBegins row
  exact List.cons_ne_nil _ _

theorem behindSpace {space space' rest rest' : Text} {b c : UInt8} (blank : Space space) (blank' : Space space')
    (printed : ¬ IsSpace b) (printed' : ¬ IsSpace c) (same : space ++ b :: rest = space' ++ c :: rest') :
    space = space' ∧ b = c ∧ rest = rest' := by
  induction space generalizing space' with
  | nil =>
    cases space' with
    | nil => exact ⟨rfl,List.cons.inj same⟩
    | cons first space' => exact absurd ((List.cons.inj same).1 ▸ blank' first List.mem_cons_self) printed
  | cons first space ih =>
    cases space' with
    | nil => exact absurd ((List.cons.inj same).1 ▸ blank first List.mem_cons_self) printed'
    | cons first' space' =>
      obtain ⟨rfl,later⟩ := List.cons.inj same
      obtain ⟨rfl,others⟩ := ih (fun x member => blank x (List.mem_cons_of_mem _ member))
        (fun x member => blank' x (List.mem_cons_of_mem _ member)) later
      exact ⟨rfl,others⟩

theorem spelledFirst {token : Token} {tokens : List Token} {space rest tail : Text} {b : UInt8} (blank : Space space)
    (printed : ¬ IsSpace b) (spelled : Spelled (token :: tokens) (space ++ b :: rest) tail) :
    ∃ left later, rest = left ++ later ∧ 0x20 < b.toNat ∧ Lexeme token (b :: left) ∧ Spelled tokens later tail := by
  generalize whole : space ++ b :: rest = text at spelled
  cases spelled with
  | cons blank' lexeme later =>
    obtain ⟨c,left,rfl,first,_⟩ := Lexer.lexemeFirst lexeme
    obtain ⟨_,rfl,rfl⟩ := behindSpace blank blank' printed (Lexer.printedNoSpace first) whole
    exact ⟨left,_,rfl,first,lexeme,later⟩

theorem bracketLexeme {b : UInt8} (opens : b = 91 ∨ b = 123) {token : Token} {left : Text}
    (lexeme : Lexeme token (b :: left)) : left = [] ∧ valueOf token = none := by
  generalize whole : b :: left = text at lexeme
  cases lexeme with
  | fixed spelled =>
    cases token <;> simp only [fixedText,Option.some.injEq,reduceCtorEq] at spelled <;> subst spelled <;>
      obtain ⟨rfl,rfl⟩ := List.cons.inj whole <;> simp_all [valueOf]
  | string =>
    obtain ⟨rfl,_⟩ := List.cons.inj whole
    exact absurd opens (by decide)
  | number good =>
    obtain ⟨c,more,text,first,_⟩ := Lexer.numeralRun good
    obtain ⟨rfl,_⟩ := List.cons.inj (whole.trans text)
    rcases opens with rfl | rfl <;> exact absurd first (by decide)

theorem spelledFront {tokens : List Token} {text tail : Text} (spelled : Spelled tokens text tail) : ∃ front, text = front ++ tail := by
  induction spelled with
  | nil => exact ⟨[],rfl⟩
  | @cons _ _ space lexed _ _ _ _ _ ih =>
    obtain ⟨front,rfl⟩ := ih
    exact ⟨space ++ (lexed ++ front),by simp only [List.append_assoc]⟩

theorem spelledSplit {tokens tokens' : List Token} {text tail : Text} (spelled : Spelled (tokens ++ tokens') text tail) :
    ∃ middle, Spelled tokens text middle ∧ Spelled tokens' middle tail := by
  induction tokens generalizing text with
  | nil => exact ⟨text,.nil,spelled⟩
  | cons token tokens ih =>
    cases spelled with
    | cons blank lexeme later =>
      obtain ⟨middle,first,second⟩ := ih later
      exact ⟨middle,.cons blank lexeme first,second⟩

theorem spelledCut {tokens : List Token} {text tail more : Text} (spelled : Spelled tokens (text ++ more) (tail ++ more)) :
    Spelled tokens text tail := by
  generalize whole : text ++ more = longer at spelled
  generalize left : tail ++ more = behind at spelled
  induction spelled generalizing text with
  | nil =>
    obtain rfl := List.append_cancel_right (whole.trans left.symm)
    exact .nil
  | @cons token tokens space lexed rest _ blank lexeme later ih =>
    subst left
    obtain ⟨front,rest_⟩ := spelledFront later
    rw [← List.append_assoc] at rest_
    have text_ : text = space ++ (lexed ++ (front ++ tail)) := by
      refine List.append_cancel_right (whole.trans ?_)
      rw [rest_]
      simp only [List.append_assoc]
    rw [text_]
    exact .cons blank lexeme (ih rest_.symm rfl)

theorem arrayCloses {items : List Json} {tokens : List Token} (row : Row (.value (array items)) tokens) {text tail : Text}
    (spelled : Spelled tokens text tail) : ∃ front, text = front ++ 93 :: tail := by
  have last : ∃ before, tokens = before ++ [.endArray] := by
    cases row with
    | single one => exact absurd one (by rename_i token; cases token <;> simp [valueOf])
    | emptyArray => exact ⟨[.beginArray],rfl⟩
    | @array _ _ tokens tokens' _ _ => exact ⟨.beginArray :: (tokens ++ tokens'),by simp⟩
  obtain ⟨before,rfl⟩ := last
  obtain ⟨middle,first,second⟩ := spelledSplit spelled
  obtain ⟨front,rfl⟩ := spelledFront first
  cases second with
  | @cons _ _ space lexed rest _ _ lexeme later =>
    cases later
    have bracket : lexed = [93] := by
      generalize whole : Token.endArray = token at lexeme
      cases lexeme with
      | fixed spelled =>
        subst whole
        exact (Option.some.inj spelled).symm
      | string => cases whole
      | @number n good => exact absurd (whole ▸ Lexer.numeralNumber n) nofun
    subst bracket
    exact ⟨front ++ space,by simp⟩

theorem spaceEnds {text front tail more : Text} {b : UInt8} (blank : Space more) (printed : ¬ IsSpace b)
    (same : text ++ more = front ++ b :: tail) : ∃ left, tail = left ++ more ∧ text = front ++ b :: left := by
  rcases List.append_eq_append_iff.mp same with ⟨middle,_,whole⟩ | ⟨middle,rfl,whole⟩
  · exact absurd (blank b (whole ▸ List.mem_append_right _ List.mem_cons_self)) printed
  · cases middle with
    | nil => exact absurd (blank b (by rw [← List.nil_append more,← whole]; exact List.mem_cons_self)) printed
    | cons c left =>
      obtain ⟨rfl,rfl⟩ := List.cons.inj whole
      exact ⟨left,rfl,rfl⟩

theorem spaceBefore {space rest : Text} {js : Json} (blank : Space space) :
    parse (space ++ 91 :: rest) = .ok js ↔ parse (91 :: rest) = .ok js := by
  have printed : ¬ IsSpace 91 := Lexer.printedNoSpace (by decide)
  have noMark {body : Text} {front : Text} (white : Space front) : front ++ 91 :: rest ≠ byteOrderMark ++ body := by
    intro same
    cases front with
    | nil => cases (List.cons.inj same).1
    | cons c front =>
      have mark : c = 0xEF := (List.cons.inj same).1
      have first := white c List.mem_cons_self
      rw [mark] at first
      unfold IsSpace at first
      exact absurd first (by decide)
  rw [parseExact,parseExact]
  constructor
  · rintro ⟨mark,body,tokens,tail,whole,isMark,row,spelled,ended⟩
    rcases isMark with rfl | rfl
    · rw [List.nil_append] at whole
      subst whole
      obtain ⟨token,tokens,rfl,_⟩ := rowBegins row
      obtain ⟨left,_,rfl,_,lexeme,later⟩ := spelledFirst blank printed spelled
      exact ⟨[],_,_,tail,rfl,.inl rfl,row,.cons noSpace lexeme later,ended⟩
    · exact absurd whole (noMark blank)
  · rintro ⟨mark,body,tokens,tail,whole,isMark,row,spelled,ended⟩
    rcases isMark with rfl | rfl
    · rw [List.nil_append] at whole
      subst whole
      exact ⟨[],_,tokens,tail,rfl,.inl rfl,row,spelledSpace (rowSome row) blank spelled,ended⟩
    · exact absurd whole (noMark noSpace)

theorem spaceBehind {text more : Text} {items : List Json} (blank : Space more) (clean : (0 : UInt8) ∉ text ++ more)
    (parsed : parse (text ++ more) = .ok (array items)) : parse text = .ok (array items) := by
  obtain ⟨mark,body,tokens,tail,whole,isMark,row,spelled,ended⟩ := parseExact.mp parsed
  have white := endedClean ended (fun member => clean (whole ▸ List.mem_append_right _ (spelledTail spelled member)))
  obtain ⟨front,rfl⟩ := arrayCloses row spelled
  rw [← List.append_assoc] at whole
  obtain ⟨left,rfl,rfl⟩ := spaceEnds blank (Lexer.printedNoSpace (by decide)) whole
  have longer : Spelled tokens ((front ++ 93 :: left) ++ more) (left ++ more) := by simpa using spelled
  have shorter : Spelled tokens (front ++ 93 :: left) left := spelledCut longer
  refine parseExact.mpr ⟨mark,front ++ 93 :: left,tokens,left,List.append_assoc _ _ _,isMark,row,shorter,left,[],?_,?_,.inl rfl⟩
  · exact (List.append_nil _).symm
  · exact fun b member => white b (List.mem_append_left _ member)

theorem blankNoDocument {text : Text} {js : Json} (blank : Space text) : parse text ≠ .ok js := by
  intro parsed
  obtain ⟨mark,body,tokens,tail,rfl,isMark,row,spelled,_⟩ := parseExact.mp parsed
  obtain ⟨token,tokens,rfl,_⟩ := rowBegins row
  cases spelled with
  | cons _ lexeme _ =>
    obtain ⟨b,left,rfl,first,_⟩ := Lexer.lexemeFirst lexeme
    exact Lexer.printedNoSpace first (blank b (by simp))

theorem bracketNoNumber {rest : Text} {js : Json} (parsed : parse (91 :: rest) = .ok js) : ¬ Number js := by
  obtain ⟨mark,body,tokens,tail,whole,isMark,row,spelled,_⟩ := parseExact.mp parsed
  rcases isMark with rfl | rfl
  · rw [List.nil_append] at whole
    subst whole
    cases row with
    | single one =>
      obtain ⟨_,_,_,_,lexeme,_⟩ := spelledFirst noSpace (Lexer.printedNoSpace (by decide)) spelled
      rw [(bracketLexeme (.inl rfl) lexeme).2] at one
      cases one
    | _ => exact not_false
  · cases (List.cons.inj whole).1

/- Of two texts, one the beginning of the other, of which one is an array: the
other is no value, or the same one and white space makes the difference. -/
theorem arrayPrefix {text more : Text} {items : List Json} {js : Json} (opens : text.head? = some 91)
    (clean : (0 : UInt8) ∉ text ++ more) :
    (parse text = .ok (array items) → (parse (text ++ more) = .ok js ↔ js = array items ∧ Space more)) ∧
    (parse (text ++ more) = .ok (array items) → (parse text = .ok js ↔ js = array items ∧ Space more)) := by
  have cleanText : (0 : UInt8) ∉ text := fun member => clean (List.mem_append_left _ member)
  have cleanMore : (0 : UInt8) ∉ more := fun member => clean (List.mem_append_right _ member)
  have followed {found : Json} (parsed : parse text = .ok found) {js : Json} :
      parse (text ++ more) = .ok js ↔ js = found ∧ Space more := by
    obtain ⟨rest,rfl⟩ := List.head?_eq_some_iff.mp opens
    obtain ⟨whole,partly⟩ := parseBehind parsed (bracketNoNumber parsed) cleanText more
    constructor
    · intro read
      by_cases ended : Ended more
      · exact ⟨Except.ok.inj (read.symm.trans (whole ended)),endedClean ended cleanMore⟩
      · obtain ⟨what,thrown⟩ := partly ended
        cases thrown.symm.trans read
    · rintro ⟨rfl,blank⟩
      exact whole ⟨more,[],(List.append_nil _).symm,blank,.inl rfl⟩
  refine ⟨fun parsed => followed parsed,fun parsed => ⟨fun read => ?_,?_⟩⟩
  · obtain ⟨same,blank⟩ := (followed read).mp parsed
    exact ⟨same.symm,blank⟩
  · rintro ⟨rfl,blank⟩
    exact spaceBehind blank clean parsed

def trim (text : Text) : Text := (text.dropWhile Lexer.isSpace).rdropWhile Lexer.isSpace

section Trim
open Lexer (isSpace)

theorem spaceIff {text : Text} : Space text ↔ ∀ b ∈ text, isSpace b = true :=
  forall₂_congr (fun _ _ => Lexer.isSpaceIff.symm)

theorem dropSpace (text : Text) : ∃ space, Space space ∧ text = space ++ text.dropWhile isSpace :=
  ⟨text.takeWhile isSpace,spaceIff.mpr (fun _ => List.mem_takeWhile_imp),List.takeWhile_append_dropWhile.symm⟩

theorem trimPrefix {text more : Text} : (text ++ more).rdropWhile isSpace = text.rdropWhile isSpace ↔ Space more := by
  constructor
  · intro same
    have front := List.rdropWhile_append_rtakeWhile (p := isSpace) (l := text)
    have whole := List.rdropWhile_append_rtakeWhile (p := isSpace) (l := text ++ more)
    rw [same] at whole
    nth_rewrite 3 [← front] at whole
    rw [List.append_assoc] at whole
    have behind := List.append_cancel_left whole
    refine spaceIff.mpr (fun b member => ?_)
    have inside : b ∈ (text ++ more).rtakeWhile isSpace := behind ▸ List.mem_append_right _ member
    exact List.mem_rtakeWhile_imp inside
  · intro blank
    rw [List.rdropWhile,List.reverse_append,List.dropWhile_append_of_pos]
    · rfl
    · exact fun b member => spaceIff.mp blank b (List.mem_reverse.mp member)

theorem dropBehind {more : Text} (blank : Space more) (text : Text) : (more ++ text).dropWhile isSpace = text.dropWhile isSpace :=
  List.dropWhile_append_of_pos (spaceIff.mp blank)

theorem trimBlank {text : Text} (blank : text.dropWhile isSpace = []) : trim text = [] := by
  rw [trim,blank,List.rdropWhile_nil]

theorem trimArray {rest : Text} : (91 :: rest).rdropWhile isSpace ≠ [] := by
  intro nothing
  exact absurd (List.rdropWhile_eq_nil_iff.mp nothing 91 List.mem_cons_self) (by decide)

/- Streams that are the same but for the white space in front: an array at the head
of one, and a piece cut from the head of the other. -/
theorem arrayAlone {text tail piece left : Text} {items : List Json} (opens : (text.dropWhile isSpace).head? = some 91)
    (clean : (0 : UInt8) ∉ text) (clean' : (0 : UInt8) ∉ piece) (parsed : parse text = .ok (array items))
    (same : (piece ++ left).dropWhile isSpace = (text ++ tail).dropWhile isSpace) :
    (∀ js, parse piece = .ok js ↔ js = array items ∧ trim piece = trim text) ∧
    (trim piece = trim text → left.dropWhile isSpace = tail.dropWhile isSpace ∧ (tail = [] → left.length ≤ text.length)) := by
  obtain ⟨space,blank,front⟩ := dropSpace text
  obtain ⟨rest,bare⟩ := List.head?_eq_some_iff.mp opens
  have trimmed : trim text = (91 :: rest).rdropWhile isSpace := by rw [trim,bare]
  rw [List.dropWhile_append,List.dropWhile_append,bare] at same
  rw [bare] at front
  rw [trimmed]
  rw [front] at clean parsed
  rw [spaceBefore blank] at parsed
  cases here : piece.dropWhile isSpace with
  | nil =>
    have white : Space piece := spaceIff.mpr (by simpa using here)
    have other : trim piece ≠ (91 :: rest).rdropWhile isSpace := by
      rw [trimBlank here]
      exact trimArray.symm
    exact ⟨fun js => iff_of_false (blankNoDocument white) (fun both => other both.2),fun both => absurd both other⟩
  | cons b more =>
    rw [here] at same
    obtain ⟨rfl,stream⟩ := List.cons.inj (show b :: (more ++ left) = 91 :: (rest ++ tail) from same)
    obtain ⟨space',blank',front'⟩ := dropSpace piece
    have trimmed' : trim piece = (91 :: more).rdropWhile isSpace := by rw [trim,here]
    rw [here] at front'
    rw [trimmed',front']
    rw [front'] at clean'
    have cleanText : (0 : UInt8) ∉ 91 :: rest := fun member => clean (List.mem_append_right _ member)
    have cleanPiece : (0 : UInt8) ∉ 91 :: more := fun member => clean' (List.mem_append_right _ member)
    simp only [spaceBefore blank']
    rcases List.append_eq_append_iff.mp stream with ⟨between,rfl,rfl⟩ | ⟨between,rfl,rfl⟩
    · have longer : 91 :: (more ++ between) = 91 :: more ++ between := rfl
      rw [longer] at cleanText parsed
      rw [longer,eq_comm,trimPrefix]
      refine ⟨fun js => (arrayPrefix rfl cleanText).2 parsed,fun white => ⟨dropBehind white tail,?_⟩⟩
      rintro rfl
      rw [front]
      simp only [List.append_nil,List.length_append,List.length_cons]
      omega
    · have longer : 91 :: (rest ++ between) = 91 :: rest ++ between := rfl
      rw [longer] at cleanPiece ⊢
      rw [trimPrefix]
      refine ⟨fun js => (arrayPrefix rfl cleanPiece).1 parsed,fun white => ⟨(dropBehind white left).symm,?_⟩⟩
      intro nothing
      rw [(List.append_eq_nil_iff.mp nothing).2]
      exact Nat.zero_le _

end Trim

end SimpleChat.Json
