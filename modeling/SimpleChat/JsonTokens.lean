import SimpleChat.JsonNumbers
import SimpleChat.JsonStrings

/-! One call of `scan`: white space, then a lexeme, up to the first byte that does
not belong to it. -/
namespace SimpleChat.Json.Lexer
open Grammar

variable {l l' : Lexer}

def IsNumber : Token → Prop
  | .valueUnsigned _ | .valueInteger _ | .valueFloat _ => True
  | _ => False

theorem numeralNumber (n : Numeral) : IsNumber n.token := by
  unfold Numeral.token Numeral.double
  split
  · split <;> trivial
  · split <;> trivial
  · trivial

theorem lexemeFirst {token : Token} {text : Text} (lexeme : Lexeme token text) :
    ∃ b more, text = b :: more ∧ 0x20 < b.toNat ∧ b.toNat < 0x80 := by
  cases lexeme with
  | fixed spelled =>
    cases token <;> simp only [fixedText,Option.some.injEq,reduceCtorEq] at spelled <;> subst text <;>
      exact ⟨_,_,rfl,by decide,by decide⟩
  | string pieces => exact ⟨34,_,rfl,by decide,by decide⟩
  | number good =>
    obtain ⟨b,more,text,first,_⟩ := numeralRun good
    refine ⟨b,more,text,?_⟩
    rcases first with rfl | digit
    · decide
    · simp only [isDigit,UInt8.le_iff_toNat_le,UInt8.reduceToNat] at digit
      omega

theorem printedNoSpace {b : UInt8} (printed : 0x20 < b.toNat) : ¬ IsSpace b := by
  rintro (rfl | rfl | rfl | rfl) <;> exact absurd printed (by decide)

theorem scanCurrentNone (current : l.current = none) : l.scanCurrent = (.endOfInput,l) := by
  unfold scanCurrent
  rw [current]

theorem scanCurrentSome {b : UInt8} (current : l.current = some b) : l.scanCurrent =
    if b = 91 then (.beginArray,l) else if b = 93 then (.endArray,l) else if b = 123 then (.beginObject,l)
    else if b = 125 then (.endObject,l) else if b = 58 then (.nameSeparator,l) else if b = 44 then (.valueSeparator,l)
    else if b = 116 then scanLiteral .literalTrue l [114,117,101]
    else if b = 102 then scanLiteral .literalFalse l [97,108,115,101]
    else if b = 110 then scanLiteral .literalNull l [117,108,108]
    else if b = 34 then l.scanString else if b = 45 ∨ isDigit b then l.scanNumber
    else if b = 0 then (.endOfInput,l) else (.parseError,l.complain "invalid literal") := by
  unfold scanCurrent
  rw [current]

structure Behind (l l' : Lexer) (more : Text) : Prop where
  rest : l.rest = more ++ l'.rest
  total : l'.position.charsReadTotal = l.position.charsReadTotal + more.length
  settled : l'.Settled

theorem Took.behind {text value : Text} (took : Took l l' text value) : Behind l l' text :=
  ⟨took.rest,took.total,took.settled⟩

theorem scanStringSound (fresh : l.nextUnget = false) {token : Token} (read : l.scanString = (token,l'))
    (good : token ≠ .parseError) : ∃ more, Lexeme token (34 :: more) ∧ Behind l l' more := by
  obtain ⟨chars,text,same,pieces,left,total,settled⟩ := stringLoopSound (l := l.reset) (freshSettled fresh) read good
  refine ⟨text ++ [34],?_,?_,?_,settled⟩
  · rw [same]
    exact .string pieces
  · rw [List.append_assoc]
    exact left
  · rw [total,List.length_append]
    rfl

theorem scanStringComplete (fresh : l.nextUnget = false) {chars : List Char} {text tail : Text} (pieces : Pieces chars text)
    (left : l.rest = text ++ [34] ++ tail) :
    ∃ l', l.scanString = (.valueString (utf8 chars),l') ∧ Behind l l' (text ++ [34]) := by
  have whole : l.rest = l.ia := by rw [rest,fresh]; rfl
  have short := piecesLength pieces
  rw [List.append_assoc] at left
  obtain ⟨l',read,left',total,settled⟩ := stringLoopComplete (l := l.reset) (freshSettled fresh) pieces left
    (l.ia.length + 1) (by
      rw [← whole,left,List.length_append]
      omega)
  refine ⟨l',read,?_,?_,settled⟩
  · rw [left',List.append_assoc]
    exact left
  · rw [total,List.length_append]
    rfl

theorem scanCurrentSound (fresh : l.nextUnget = false) {b : UInt8} (current : l.current = some b) {token : Token}
    (read : l.scanCurrent = (token,l')) (good : token ≠ .parseError) :
    (token = .endOfInput ∧ b = 0) ∨ ∃ more, Lexeme token (b :: more) ∧ Behind l l' more := by
  have settled := freshSettled fresh
  have none : Behind l l [] := (Took.nil settled).behind
  rw [scanCurrentSome current] at read
  by_cases open_ : b = 91
  · rw [if_pos open_] at read
    cases read
    exact .inr ⟨[],.fixed (open_ ▸ rfl),none⟩
  rw [if_neg open_] at read
  by_cases close : b = 93
  · rw [if_pos close] at read
    cases read
    exact .inr ⟨[],.fixed (close ▸ rfl),none⟩
  rw [if_neg close] at read
  by_cases openBrace : b = 123
  · rw [if_pos openBrace] at read
    cases read
    exact .inr ⟨[],.fixed (openBrace ▸ rfl),none⟩
  rw [if_neg openBrace] at read
  by_cases closeBrace : b = 125
  · rw [if_pos closeBrace] at read
    cases read
    exact .inr ⟨[],.fixed (closeBrace ▸ rfl),none⟩
  rw [if_neg closeBrace] at read
  by_cases colon : b = 58
  · rw [if_pos colon] at read
    cases read
    exact .inr ⟨[],.fixed (colon ▸ rfl),none⟩
  rw [if_neg colon] at read
  by_cases comma : b = 44
  · rw [if_pos comma] at read
    cases read
    exact .inr ⟨[],.fixed (comma ▸ rfl),none⟩
  rw [if_neg comma] at read
  by_cases t : b = 116
  · rw [if_pos t] at read
    obtain ⟨rfl,took⟩ := literalSound settled read good
    exact .inr ⟨_,.fixed (t ▸ rfl),took.behind⟩
  rw [if_neg t] at read
  by_cases f : b = 102
  · rw [if_pos f] at read
    obtain ⟨rfl,took⟩ := literalSound settled read good
    exact .inr ⟨_,.fixed (f ▸ rfl),took.behind⟩
  rw [if_neg f] at read
  by_cases n : b = 110
  · rw [if_pos n] at read
    obtain ⟨rfl,took⟩ := literalSound settled read good
    exact .inr ⟨_,.fixed (n ▸ rfl),took.behind⟩
  rw [if_neg n] at read
  by_cases quote : b = 34
  · rw [if_pos quote] at read
    cases quote
    exact .inr (scanStringSound fresh read good)
  rw [if_neg quote] at read
  by_cases number : b = 45 ∨ isDigit b
  · rw [if_pos number] at read
    obtain ⟨n,more,isGood,text,rfl,left,total,settled'⟩ := numberSound number current fresh read good
    exact .inr ⟨more,text ▸ .number isGood,left,total,settled'⟩
  rw [if_neg number] at read
  by_cases nul : b = 0
  · rw [if_pos nul] at read
    cases read
    exact .inl ⟨rfl,nul⟩
  · rw [if_neg nul] at read
    cases read
    contradiction

theorem scanCurrentComplete (fresh : l.nextUnget = false) {b : UInt8} (current : l.current = some b) {token : Token}
    {more tail : Text} (lexeme : Lexeme token (b :: more)) (left : l.rest = more ++ tail)
    (apart : IsNumber token → ∀ c ∈ tail.head?, ¬ IsNumeric c) : ∃ l', l.scanCurrent = (token,l') ∧ Behind l l' more := by
  have settled := freshSettled fresh
  have none : Behind l l [] := (Took.nil settled).behind
  generalize whole : b :: more = text at lexeme
  cases lexeme with
  | fixed spelled =>
    cases token with
    | literalTrue | literalFalse | literalNull =>
      cases spelled
      cases whole
      obtain ⟨l',read,took⟩ := literalComplete settled left
      exact ⟨l',(scanCurrentSome current).trans read,took.behind⟩
    | beginArray | endArray | beginObject | endObject | nameSeparator | valueSeparator =>
      cases spelled
      cases whole
      exact ⟨l,scanCurrentSome current,none⟩
    | _ => cases spelled
  | string pieces =>
    cases whole
    obtain ⟨l',read,behind⟩ := scanStringComplete fresh pieces left
    exact ⟨l',(scanCurrentSome current).trans read,behind⟩
  | number good =>
    obtain ⟨b',more',text,first,_⟩ := numeralRun good
    cases whole.trans text
    obtain ⟨l',read,left',total,settled'⟩ := numberComplete current fresh good text left (apart (numeralNumber _))
    refine ⟨l',?_,left'.symm ▸ left,total,settled'⟩
    rw [← read]
    have others : b ≠ 91 ∧ b ≠ 93 ∧ b ≠ 123 ∧ b ≠ 125 ∧ b ≠ 58 ∧ b ≠ 44 ∧ b ≠ 116 ∧ b ≠ 102 ∧ b ≠ 110 ∧ b ≠ 34 := by
      refine ⟨?_,?_,?_,?_,?_,?_,?_,?_,?_,?_⟩ <;> rintro rfl <;> exact absurd first (by decide)
    rw [scanCurrentSome current]
    simp only [others,first,if_true,if_false]

theorem restLength (l : Lexer) : l.rest.length ≤ l.ia.length + 1 := by
  unfold rest
  split
  · rw [List.length_append]
    cases l.current <;> simp
    omega
  · omega

structure Scanned (l l' : Lexer) (token : Token) (space text : Text) : Prop where
  blank : Space space
  lexeme : Lexeme token text
  rest : l.rest = space ++ (text ++ l'.rest)
  total : l'.position.charsReadTotal = l.position.charsReadTotal + space.length + text.length
  settled : l'.Settled

theorem scanTokenSound (settled : l.Settled) {token : Token} (read : l.scanToken = (token,l')) (good : token ≠ .parseError) :
    (token = .endOfInput ∧ Ended l.rest) ∨ ∃ space text, Scanned l l' token space text := by
  obtain ⟨space,more,left,blank,stops⟩ := spaceSplit l.rest
  have enough := restLength l
  obtain ⟨current,next,fresh,total⟩ := skipSpaceTakes settled blank left stops (l.ia.length + 2) (by
    rw [left,List.length_append] at enough
    omega)
  unfold scanToken at read
  generalize skipSpace (l.ia.length + 2) l = s at current next fresh total read
  cases more with
  | nil =>
    rw [scanCurrentNone current] at read
    cases read
    exact .inl ⟨rfl,space,[],left,blank,.inl rfl⟩
  | cons b more =>
    rcases scanCurrentSound fresh current read good with ⟨ended,rfl⟩ | ⟨text,lexeme,behind⟩
    · exact .inl ⟨ended,space,_,left,blank,.inr rfl⟩
    · refine .inr ⟨space,_,blank,lexeme,?_,?_,behind.settled⟩
      · rw [left,List.cons_append,← behind.rest,next,List.tail_cons]
      · rw [behind.total,total,List.length_cons]
        omega

theorem scanTokenComplete (settled : l.Settled) {token : Token} {space text tail : Text} (blank : Space space)
    (lexeme : Lexeme token text) (left : l.rest = space ++ (text ++ tail))
    (apart : IsNumber token → ∀ c ∈ tail.head?, ¬ IsNumeric c) :
    ∃ l', l.scanToken = (token,l') ∧ l'.rest = tail ∧ Scanned l l' token space text := by
  obtain ⟨b,more,rfl,printed,_⟩ := lexemeFirst lexeme
  have enough := restLength l
  obtain ⟨current,next,fresh,total⟩ := skipSpaceTakes settled blank left (by simpa using printedNoSpace printed)
    (l.ia.length + 2) (by
      rw [left,List.length_append] at enough
      omega)
  unfold scanToken
  generalize skipSpace (l.ia.length + 2) l = s at current next fresh total
  obtain ⟨l',read,behind⟩ := scanCurrentComplete fresh current lexeme next apart
  have same : l'.rest = tail := List.append_cancel_left (behind.rest.symm.trans next)
  refine ⟨l',read,same,blank,lexeme,same.symm ▸ left,?_,behind.settled⟩
  rw [behind.total,total,List.length_cons]
  omega

theorem nulNoSpace : ¬ IsSpace 0 := by
  unfold IsSpace
  decide

theorem scanTokenEnded (settled : l.Settled) (ended : Ended l.rest) : l.scanToken.1 = .endOfInput := by
  obtain ⟨space,more,left,blank,last⟩ := ended
  have enough := restLength l
  obtain ⟨current,_,_,_⟩ := skipSpaceTakes settled blank left (by
    intro b head
    rcases last with rfl | nul
    · cases head
    · cases nul.symm.trans head
      exact nulNoSpace) (l.ia.length + 2) (by
      rw [left,List.length_append] at enough
      omega)
  unfold scanToken
  generalize skipSpace (l.ia.length + 2) l = s at current
  rcases last with rfl | nul
  · rw [scanCurrentNone current]
  · rw [scanCurrentSome (current.trans nul)]
    rfl

theorem scanStarted (started : 0 < l.position.charsReadTotal) : l.scan = l.scanToken := by
  rw [scan,if_neg (Nat.ne_of_gt started)]

theorem Scanned.started {token : Token} {space text : Text} (scanned : Scanned l l' token space text) :
    0 < l'.position.charsReadTotal := by
  obtain ⟨b,more,rfl,_⟩ := lexemeFirst scanned.lexeme
  rw [scanned.total,List.length_cons]
  omega

theorem scanNew (text : Text) : (new text).scan =
    if (new text).skipBom.1 then (new text).skipBom.2.scanToken
    else (.parseError,(new text).skipBom.2.complain "invalid BOM; must be 0xEF 0xBB 0xBF if given") := rfl

theorem scanPlain {text : Text} (plain : text.head? ≠ some 0xEF) :
    ∃ l : Lexer, l.rest = text ∧ l.Settled ∧ (new text).scan = l.scanToken := by
  have settled : (new text).Settled := freshSettled rfl
  refine ⟨(new text).get.unget,ungetRest settled,ungetSettled settled,?_⟩
  have bom : (new text).skipBom = (true,(new text).get.unget) := if_neg plain
  rw [scanNew,bom]
  rfl

theorem scanMarked (body : Text) :
    ∃ l : Lexer, l.rest = body ∧ l.Settled ∧ (new (byteOrderMark ++ body)).scan = l.scanToken :=
  ⟨(new (byteOrderMark ++ body)).get.get.get,rfl,getSettled,rfl⟩

theorem skipBomMarked (text : Text) : (new (0xEF :: text)).skipBom.1 =
    if text.head? = some 0xBB then decide (text.tail.head? = some 0xBF) else false := by
  have first : (new (0xEF :: text)).get.current = some 0xEF := rfl
  have second : (new (0xEF :: text)).get.get.current = text.head? := rfl
  simp only [skipBom,first,second,if_true]
  split <;> rfl

theorem scanUnmarked {text : Text} (other : ∀ body, 0xEF :: text ≠ byteOrderMark ++ body) :
    (new (0xEF :: text)).scan.1 = .parseError := by
  have bom : (new (0xEF :: text)).skipBom.1 = false := by
    rw [skipBomMarked]
    by_cases second : text.head? = some 0xBB
    · rw [if_pos second]
      refine decide_eq_false (fun third => other text.tail.tail ?_)
      rw [byteOrderMark,List.cons_append,List.cons_append,List.cons_append,List.nil_append,
        List.cons_head?_tail third,List.cons_head?_tail second]
    · rw [if_neg second]
  rw [scanNew,bom]
  rfl

end SimpleChat.Json.Lexer
