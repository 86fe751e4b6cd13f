import SimpleChat.JsonReading

/-! String literals: the lexer takes a row of pieces up to the quote behind them,
and keeps the UTF-8 of the characters they stand for. -/
namespace SimpleChat.Json.Lexer
open Grammar
open Basis
open Basis.Utf8 (Span)

variable {l l' : Lexer}

theorem orAdd (m k : Nat) {x : Nat} (small : x < 2 ^ k) : m * 2 ^ k ||| x = m * 2 ^ k + x := by
  rw [← Nat.shiftLeft_eq,Nat.shiftLeft_add_eq_or_of_lt small]

theorem followerByte (v : Nat) : 0x80 ||| v &&& 0x3F = v % 64 + 128 := by
  have low : v &&& 0x3F = v % 64 := Nat.and_two_pow_sub_one_eq_mod v 6
  have small : v % 64 < 2 ^ 6 := Nat.mod_lt v (by decide)
  rw [low,Nat.add_comm]
  exact orAdd 2 6 small

theorem codepointEncodes (c : Char) : codepointBytes c.val.toNat = String.utf8EncodeChar c := by
  have valid : c.val.toNat < 0xD800 ∨ (0xDFFF < c.val.toNat ∧ c.val.toNat < 0x110000) := c.valid
  unfold codepointBytes String.utf8EncodeChar
  generalize c.val.toNat = v at valid
  simp only [followerByte,Nat.shiftRight_eq_div_pow]
  by_cases one : v < 0x80
  · rw [if_pos one,if_pos (Nat.le_of_lt_succ one)]
  by_cases two : v ≤ 0x7FF
  · have lead : 0xC0 ||| v / 2 ^ 6 = v / 64 % 0x20 + 0xC0 := (orAdd 3 6 (by omega)).trans (by omega)
    rw [if_neg one,if_pos two,if_neg (by omega),if_pos two,lead]
  by_cases three : v ≤ 0xFFFF
  · have lead : 0xE0 ||| v / 2 ^ 12 = v / 4096 % 0x10 + 0xE0 := (orAdd 14 4 (by omega)).trans (by omega)
    rw [if_neg one,if_neg two,if_pos three,if_neg (by omega),if_neg two,if_pos three,lead]
  · have lead : 0xF0 ||| v / 2 ^ 18 = v / 262144 % 0x08 + 0xF0 := (orAdd 15 4 (by omega)).trans (by omega)
    rw [if_neg one,if_neg two,if_neg three,if_neg (by omega),if_neg two,if_neg three,lead]

theorem Took.addCodepoint {text value : Text} (took : Took l l' text value) {c : Char} {v : Nat} (same : c.val.toNat = v) :
    Took l (l'.addCodepoint v) text (value ++ String.utf8EncodeChar c) where
  rest := took.rest
  buffer := by rw [Lexer.addCodepoint,took.buffer,List.append_assoc,← same,codepointEncodes]
  total := took.total
  settled := took.settled

theorem escapedSmall {b e : UInt8} (escape : escaped b = some e) : e.toNat < 0x80 ∧ b ≠ 117 := by
  unfold escaped at escape
  split_ifs at escape with quote backslash slash back form line carriage tab <;> cases escape <;> subst b <;> decide

theorem asciiEncodes {c : Char} {v : Nat} (same : c.val.toNat = v) (small : v < 0x80) :
    String.utf8EncodeChar c = [UInt8.ofNat v] := by
  unfold String.utf8EncodeChar
  rw [same,if_pos (Nat.le_of_lt_succ small)]

theorem firstByte {c : Char} {b : UInt8} {more : Text} (encoded : String.utf8EncodeChar c = b :: more) :
    c.val.toNat = b.toNat ∨ (0x80 ≤ c.val.toNat ∧ 0x80 ≤ b.toNat) := by
  by_cases small : c.val.toNat < 0x80
  · rw [asciiEncodes rfl small] at encoded
    rw [← (List.cons.inj encoded).1,UInt8.toNat_ofNat',Nat.mod_eq_of_lt (by omega)]
    exact .inl rfl
  · unfold String.utf8EncodeChar at encoded
    rw [if_neg (by omega)] at encoded
    split_ifs at encoded <;> have first := congrArg UInt8.toNat (List.cons.inj encoded).1 <;>
      rw [UInt8.toNat_ofNat'] at first <;> omega

theorem hexDigitSmall {b : UInt8} {digit : Nat} (value : hexDigit b = some digit) : digit < 16 := by
  unfold hexDigit at value
  simp only [UInt8.le_iff_toNat_le,UInt8.reduceToNat] at value
  split_ifs at value <;> cases value <;> omega

theorem hexSmall {v : Nat} {hex : Text} (value : Hex v hex) : v < 0x10000 := by
  cases value with
  | digits first second third fourth =>
    have := hexDigitSmall first
    have := hexDigitSmall second
    have := hexDigitSmall third
    have := hexDigitSmall fourth
    omega

theorem unicodeSound (settled : l.Settled) (read : l.scanUnicode = .ok l') :
    ∃ c text, Piece c (92 :: 117 :: text) ∧ Took l l' text (String.utf8EncodeChar c) := by
  unfold scanUnicode at read
  cases first : l.getCodepoint with
  | mk value l₁ =>
    cases value with
    | none =>
      rw [first] at read
      cases read
    | some high =>
      rw [first] at read
      obtain ⟨hex,isHex,took⟩ := hexSound settled first
      dsimp only at read
      by_cases isHigh : 0xD800 ≤ high ∧ high ≤ 0xDBFF
      · rw [if_pos isHigh] at read
        split at read
        · rename_i backslash
          split at read
          · rename_i letter
            cases second : l₁.get.get.getCodepoint with
            | mk value l₂ =>
              cases value with
              | none =>
                rw [second] at read
                cases read
              | some low =>
                rw [second] at read
                obtain ⟨hex',isHex',took'⟩ := hexSound getSettled second
                dsimp only at read
                split at read
                · rename_i isLow
                  cases read
                  obtain ⟨c,value⟩ := @Utf8.charOfNat (0x10000 + (high - 0xD800) * 0x400 + (low - 0xDC00)) (by omega)
                  have both := took.trans ((took'.get getSettled letter).get took.settled backslash)
                  exact ⟨c,_,.pair isHex isHex' isHigh isLow value,both.addCodepoint (by
                    rw [value,Nat.shiftLeft_eq]
                    omega)⟩
                · contradiction
          · contradiction
        · contradiction
      · rw [if_neg isHigh] at read
        split at read
        · contradiction
        · rename_i noLow
          cases read
          obtain ⟨c,rfl⟩ := @Utf8.charOfNat high (by
            have := hexSmall isHex
            omega)
          exact ⟨c,_,.number isHex,took.addCodepoint rfl⟩

theorem unicodeNumber (settled : l.Settled) {c : Char} {hex tail : Text} (value : Hex c.val.toNat hex)
    (left : l.rest = hex ++ tail) : ∃ l', l.scanUnicode = .ok l' ∧ Took l l' hex (String.utf8EncodeChar c) := by
  obtain ⟨l₁,read,took⟩ := hexComplete settled value left
  have valid : c.val.toNat < 0xD800 ∨ (0xDFFF < c.val.toNat ∧ c.val.toNat < 0x110000) := c.valid
  refine ⟨l₁.addCodepoint c.val.toNat,?_,took.addCodepoint rfl⟩
  unfold scanUnicode
  rw [read]
  dsimp only
  rw [if_neg (by omega),if_neg (by omega)]

theorem unicodePair (settled : l.Settled) {c : Char} {high low : Nat} {hex hex' tail : Text} (first : Hex high hex)
    (second : Hex low hex') (isHigh : 0xD800 ≤ high ∧ high ≤ 0xDBFF) (isLow : 0xDC00 ≤ low ∧ low ≤ 0xDFFF)
    (value : c.val.toNat = 0x10000 + (high - 0xD800) * 0x400 + (low - 0xDC00))
    (left : l.rest = hex ++ 92 :: 117 :: hex' ++ tail) :
    ∃ l', l.scanUnicode = .ok l' ∧ Took l l' (hex ++ 92 :: 117 :: hex') (String.utf8EncodeChar c) := by
  rw [List.append_assoc] at left
  obtain ⟨l₁,read,took⟩ := hexComplete settled first left
  have left := took.tail left
  obtain ⟨backslash,left⟩ := (getSome took.settled).mp left
  obtain ⟨letter,left⟩ := (getSome getSettled).mp left
  obtain ⟨l₂,read',took'⟩ := hexComplete getSettled second left
  have both := took.trans ((took'.get getSettled letter).get took.settled backslash)
  refine ⟨_,?_,both.addCodepoint (v := high <<< 10 + low - 0x35FDC00) (by
    rw [value,Nat.shiftLeft_eq]
    omega)⟩
  unfold scanUnicode
  rw [read]
  dsimp only
  rw [if_pos isHigh,if_pos backslash,if_pos letter,read']
  exact if_pos isLow

theorem escapeSound (settled : l.Settled) (read : l.scanEscape = .ok l') :
    ∃ c text, Piece c (92 :: text) ∧ Took l l' text (String.utf8EncodeChar c) := by
  unfold scanEscape at read
  dsimp only at read
  split at read
  · rename_i letter
    obtain ⟨c,text,piece,took⟩ := unicodeSound getSettled read
    exact ⟨c,_,piece,took.get settled letter⟩
  · split at read
    · rename_i e found
      obtain ⟨b,current,escape⟩ := Option.bind_eq_some_iff.mp found
      obtain ⟨small,_⟩ := escapedSmall escape
      obtain ⟨c,value⟩ := @Utf8.charOfNat e.toNat (by omega)
      cases read
      refine ⟨c,[b],.short ?_ (value ▸ small),?_⟩
      · rw [value,UInt8.ofNat_toNat]
        exact escape
      · rw [asciiEncodes value small,UInt8.ofNat_toNat]
        exact (tookGet settled current).add e
    · contradiction

theorem escapeComplete (settled : l.Settled) {c : Char} {text tail : Text} (piece : Piece c (92 :: text))
    (left : l.rest = text ++ tail) : ∃ l', l.scanEscape = .ok l' ∧ Took l l' text (String.utf8EncodeChar c) := by
  generalize whole : 92 :: text = all at piece
  unfold scanEscape
  cases piece with
  | plain printed noQuote noBackslash =>
    rcases firstByte whole.symm with same | ⟨_,big⟩
    · exact absurd same noBackslash
    · exact absurd big (by decide)
  | @short b _ escape small =>
    obtain ⟨_,rfl⟩ := List.cons.inj whole
    obtain ⟨current,left⟩ := (getSome settled).mp left
    refine ⟨l.get.add (UInt8.ofNat c.val.toNat),?_,?_⟩
    · dsimp only
      rw [if_neg (by
        rw [current,Option.some.injEq]
        exact (escapedSmall escape).2),current,Option.bind_some,escape]
    · rw [asciiEncodes rfl small]
      exact (tookGet settled current).add _
  | number value =>
    obtain ⟨_,rfl⟩ := List.cons.inj whole
    obtain ⟨letter,left⟩ := (getSome settled).mp left
    obtain ⟨l',read,took⟩ := unicodeNumber getSettled value left
    exact ⟨l',(if_pos letter).trans read,took.get settled letter⟩
  | pair first second isHigh isLow value =>
    obtain ⟨_,rfl⟩ := List.cons.inj whole
    obtain ⟨letter,left⟩ := (getSome settled).mp left
    obtain ⟨l',read,took⟩ := unicodePair getSettled first second isHigh isLow value left
    exact ⟨l',(if_pos letter).trans read,took.get settled letter⟩

theorem stepClosed (current : l.get.current = some 34) : l.stringStep = .closed l.get := by
  unfold stringStep
  simp only [current]
  rfl

theorem stepEscape (current : l.get.current = some 92) : l.stringStep = .ofExcept l.get.scanEscape := by
  unfold stringStep
  simp only [current]
  rfl

theorem stepControl {b : UInt8} (current : l.get.current = some b) (control : b.toNat < 0x20) :
    l.stringStep = .failed (l.get.complain (controlMessage b)) := by
  unfold stringStep
  simp only [current,← UInt8.toNat_inj,UInt8.lt_iff_toNat_lt,UInt8.reduceToNat]
  rw [if_neg (by omega),if_neg (by omega),if_pos control]

theorem stepPlain {b : UInt8} (current : l.get.current = some b) (printed : 0x20 ≤ b.toNat) (noQuote : b.toNat ≠ 34)
    (noBackslash : b.toNat ≠ 92) : l.stringStep = match Utf8.tails b with
      | some spans => .ofExcept (l.get.nextByteInRange spans)
      | none => .failed (l.get.complain "invalid string: ill-formed UTF-8 byte") := by
  unfold stringStep
  simp only [current,Utf8.tails,← UInt8.toNat_inj,UInt8.lt_iff_toNat_lt,UInt8.le_iff_toNat_le,UInt8.reduceToNat]
  rw [if_neg noQuote,if_neg noBackslash,if_neg (Nat.not_lt.mpr printed)]
  split_ifs <;> first | omega | rfl | skip
  simp only [nextByteInRange,current,Option.getD_some,rangeLoop,StringStep.ofExcept]

inductive StringMoves (l : Lexer) : StringStep → Prop
  | missing (current : l.get.current = none) :
      StringMoves l (.failed (l.get.complain "invalid string: missing closing quote"))
  | closed (current : l.get.current = some 34) : StringMoves l (.closed l.get)
  | escape (current : l.get.current = some 92) : StringMoves l (.ofExcept l.get.scanEscape)
  | control {b : UInt8} (current : l.get.current = some b) : StringMoves l (.failed (l.get.complain (controlMessage b)))
  | plain {b : UInt8} {spans : List Span} (current : l.get.current = some b) (row : Utf8.tails b = some spans)
      (printed : 0x20 ≤ b.toNat) (noQuote : b.toNat ≠ 34) (noBackslash : b.toNat ≠ 92) :
      StringMoves l (.ofExcept ((l.get.add b).rangeLoop spans))
  | illFormed {b : UInt8} (current : l.get.current = some b) :
      StringMoves l (.failed (l.get.complain "invalid string: ill-formed UTF-8 byte"))

theorem stringMoves (l : Lexer) : StringMoves l l.stringStep := by
  cases current : l.get.current with
  | none =>
    unfold stringStep
    simp only [current]
    exact .missing current
  | some b =>
    by_cases quote : b.toNat = 34
    · obtain rfl : b = 34 := UInt8.toNat_inj.mp quote
      rw [stepClosed current]
      exact .closed current
    by_cases backslash : b.toNat = 92
    · obtain rfl : b = 92 := UInt8.toNat_inj.mp backslash
      rw [stepEscape current]
      exact .escape current
    by_cases control : b.toNat < 0x20
    · rw [stepControl current control]
      exact .control current
    rw [stepPlain current (Nat.le_of_not_lt control) quote backslash]
    cases row : Utf8.tails b with
    | none => exact .illFormed current
    | some spans =>
      simp only [nextByteInRange,current,Option.getD_some]
      exact .plain current row (Nat.le_of_not_lt control) quote backslash

theorem ofExceptMore {read : Except Lexer Lexer} (more : StringStep.ofExcept read = .more l') : read = .ok l' := by
  cases read with
  | error l₁ => cases more
  | ok l₁ =>
    cases more
    rfl

theorem ofExceptClosed {read : Except Lexer Lexer} : StringStep.ofExcept read ≠ .closed l' := by
  cases read <;> exact nofun

theorem stringStepSound (settled : l.Settled) (read : l.stringStep = .more l') :
    ∃ c text, Piece c text ∧ Took l l' text (String.utf8EncodeChar c) := by
  have moves := stringMoves l
  rw [read] at moves
  generalize result : StringStep.more l' = step at moves
  cases moves with
  | escape current =>
    obtain ⟨c,text,piece,took⟩ := escapeSound getSettled (ofExceptMore result.symm)
    exact ⟨c,_,piece,took.get settled current⟩
  | @plain b spans current row printed noQuote noBackslash =>
    obtain ⟨more,inside,took⟩ := rangeSound (l := l.get.add b) getSettled (ofExceptMore result.symm)
    obtain ⟨c,encoded⟩ := Utf8.tailsCharacter row inside
    have bigger : 0x20 ≤ c.val.toNat ∧ c.val.toNat ≠ 34 ∧ c.val.toNat ≠ 92 := by
      rcases firstByte encoded with same | ⟨big,_⟩ <;> omega
    refine ⟨c,_,.plain bigger.1 bigger.2.1 bigger.2.2,?_⟩
    rw [encoded]
    exact ((tookGet settled current).add b).trans took
  | _ => cases result

theorem stringStepClosed (read : l.stringStep = .closed l') : l.get.current = some 34 ∧ l' = l.get := by
  have moves := stringMoves l
  rw [read] at moves
  generalize result : StringStep.closed l' = step at moves
  cases moves with
  | closed current =>
    cases result
    exact ⟨current,rfl⟩
  | escape | plain => exact absurd result.symm ofExceptClosed
  | _ => cases result

theorem stringStepComplete (settled : l.Settled) {c : Char} {text tail : Text} (piece : Piece c text)
    (left : l.rest = text ++ tail) : ∃ l', l.stringStep = .more l' ∧ Took l l' text (String.utf8EncodeChar c) := by
  have escape {more : Text} (piece : Piece c (92 :: more)) (left : l.rest = 92 :: more ++ tail) :
      ∃ l', l.stringStep = .more l' ∧ Took l l' (92 :: more) (String.utf8EncodeChar c) := by
    obtain ⟨current,left⟩ := (getSome settled).mp left
    obtain ⟨l',read,took⟩ := escapeComplete getSettled piece left
    exact ⟨l',by rw [stepEscape current,read,StringStep.ofExcept],took.get settled current⟩
  cases piece with
  | plain printed noQuote noBackslash =>
    obtain ⟨b,more,spans,encoded,row,inside⟩ := Utf8.characterTails c
    have bigger : 0x20 ≤ b.toNat ∧ b.toNat ≠ 34 ∧ b.toNat ≠ 92 := by
      rcases firstByte encoded with same | ⟨_,big⟩ <;> omega
    rw [encoded] at left
    obtain ⟨current,left⟩ := (getSome settled).mp left
    obtain ⟨l',read,took⟩ := rangeComplete (l := l.get.add b) getSettled inside left
    refine ⟨l',?_,?_⟩
    · rw [stepPlain current bigger.1 bigger.2.1 bigger.2.2,row]
      simp only [nextByteInRange,current,Option.getD_some,read,StringStep.ofExcept]
    · rw [encoded]
      exact ((tookGet settled current).add b).trans took
  | short found small => exact escape (.short found small) left
  | number value => exact escape (.number value) left
  | pair first second isHigh isLow value => exact escape (.pair first second isHigh isLow value) left

theorem stringLoopSound (settled : l.Settled) {count : Nat} {token : Token} (read : stringLoop count l = (token,l'))
    (good : token ≠ .parseError) : ∃ chars text, token = .valueString (l.tokenBuffer ++ utf8 chars) ∧ Pieces chars text ∧
      l.rest = text ++ 34 :: l'.rest ∧
      l'.position.charsReadTotal = l.position.charsReadTotal + text.length + 1 ∧ l'.Settled := by
  induction count generalizing l with
  | zero =>
    cases read
    contradiction
  | succ count ih =>
    rw [stringLoop] at read
    split at read
    · rename_i step
      obtain ⟨current,rfl⟩ := stringStepClosed step
      cases read
      exact ⟨[],[],by rw [utf8,List.flatMap_nil,List.append_nil,getBuffer],.nil,((getSome settled).mpr ⟨current,rfl⟩),
        getTotal,getSettled⟩
    · rename_i step
      obtain ⟨c,text,piece,took⟩ := stringStepSound settled step
      obtain ⟨chars,more,rfl,pieces,left,total,settled'⟩ := ih took.settled read
      refine ⟨c :: chars,text ++ more,?_,.cons piece pieces,?_,?_,settled'⟩
      · rw [took.buffer,utf8,utf8,List.flatMap_cons,List.append_assoc]
      · rw [took.rest,left,List.append_assoc]
      · rw [total,took.total,List.length_append]
        omega
    · cases read
      contradiction

theorem stringLoopComplete (settled : l.Settled) {chars : List Char} {text tail : Text} (pieces : Pieces chars text)
    (left : l.rest = text ++ 34 :: tail) (count : Nat) (enough : chars.length < count) :
    ∃ l', stringLoop count l = (.valueString (l.tokenBuffer ++ utf8 chars),l') ∧ l'.rest = tail ∧
      l'.position.charsReadTotal = l.position.charsReadTotal + text.length + 1 ∧ l'.Settled := by
  induction pieces generalizing l count with
  | nil =>
    obtain ⟨count,rfl⟩ := Nat.exists_eq_succ_of_ne_zero (Nat.ne_of_gt enough)
    obtain ⟨current,left⟩ := (getSome settled).mp left
    refine ⟨l.get,?_,left,getTotal,getSettled⟩
    rw [stringLoop,stepClosed current,utf8,List.flatMap_nil,List.append_nil]
    rfl
  | @cons c chars text more piece pieces ih =>
    obtain ⟨count,rfl⟩ := Nat.exists_eq_succ_of_ne_zero (Nat.ne_of_gt (Nat.zero_lt_of_lt enough))
    rw [List.append_assoc] at left
    obtain ⟨l₁,step,took⟩ := stringStepComplete settled piece left
    obtain ⟨l',read,left,total,settled'⟩ := ih took.settled (took.tail left) count (Nat.lt_of_succ_lt_succ enough)
    refine ⟨l',?_,left,?_,settled'⟩
    · rw [stringLoop,step]
      dsimp only
      rw [read,took.buffer,utf8,utf8,List.flatMap_cons,List.append_assoc]
    · rw [total,took.total,List.length_append]
      omega

theorem piecesLength {chars : List Char} {text : Text} (pieces : Pieces chars text) : chars.length ≤ text.length := by
  induction pieces with
  | nil => exact Nat.le_refl 0
  | @cons c chars text more piece pieces ih =>
    have some_ : 0 < text.length := by
      cases piece with
      | plain => exact List.length_pos_of_ne_nil (String.utf8EncodeChar_ne_nil)
      | _ => exact Nat.zero_lt_succ _
    rw [List.length_cons,List.length_append]
    omega

end SimpleChat.Json.Lexer
