import SimpleChat.JsonGrammar

/-! The bytes that a lexer has still to read, and what its functions take from
them: `get` and `unget`, the codepoint of an escape, the ranges behind a first
byte, white space and the letters of a literal. -/
namespace SimpleChat.Json.Lexer
open Grammar
open Basis.Utf8 (Span)

def rest (l : Lexer) : Text := if l.nextUnget then l.current.toList ++ l.ia else l.ia

/- An end of input that was put back stands behind all bytes. -/
def Settled (l : Lexer) : Prop := l.nextUnget = true → l.current = none → l.ia = []

structure Took (l l' : Lexer) (text value : Text) : Prop where
  rest : l.rest = text ++ l'.rest
  buffer : l'.tokenBuffer = l.tokenBuffer ++ value
  total : l'.position.charsReadTotal = l.position.charsReadTotal + text.length
  settled : l'.Settled

variable {l l' l'' : Lexer}

theorem freshSettled (fresh : l.nextUnget = false) : l.Settled := by simp [Settled,fresh]

@[simp] theorem getSettled : l.get.Settled := freshSettled rfl
@[simp] theorem getBuffer : l.get.tokenBuffer = l.tokenBuffer := rfl
@[simp] theorem addRest {b : UInt8} : (l.add b).rest = l.rest := rfl
@[simp] theorem complainRest {message : String} : (l.complain message).rest = l.rest := rfl
@[simp] theorem resetRest : l.reset.rest = l.rest := rfl

theorem advancedTotal {p : Position} {current : Option UInt8} :
    (advanced p current).charsReadTotal = p.charsReadTotal + 1 := by
  unfold advanced
  split <;> rfl

theorem getTotal : l.get.position.charsReadTotal = l.position.charsReadTotal + 1 := advancedTotal

theorem getAnswers (settled : l.Settled) : l.get.current = l.rest.head? ∧ l.get.rest = l.rest.tail := by
  unfold get rest
  cases again : l.nextUnget with
  | false => simp
  | true =>
    cases current : l.current with
    | some b => simp
    | none => simp [settled again current]

theorem getSome (settled : l.Settled) {b : UInt8} {tail : Text} :
    l.rest = b :: tail ↔ l.get.current = some b ∧ l.get.rest = tail := by
  rw [(getAnswers settled).1,(getAnswers settled).2]
  cases l.rest <;> simp

theorem getNone (settled : l.Settled) : l.rest = [] ↔ l.get.current = none := by
  rw [(getAnswers settled).1,List.head?_eq_none_iff]

theorem tookGet (settled : l.Settled) {b : UInt8} (current : l.get.current = some b) : Took l l.get [b] [] :=
  ⟨(getSome settled).mpr ⟨current,rfl⟩,(List.append_nil _).symm,getTotal,getSettled⟩

theorem Took.nil (settled : l.Settled) : Took l l [] [] := ⟨rfl,(List.append_nil _).symm,rfl,settled⟩

theorem Took.trans {text more value value' : Text} (first : Took l l' text value) (second : Took l' l'' more value') :
    Took l l'' (text ++ more) (value ++ value') where
  rest := by rw [first.rest,second.rest,List.append_assoc]
  buffer := by rw [second.buffer,first.buffer,List.append_assoc]
  total := by rw [second.total,first.total,List.length_append,Nat.add_assoc]
  settled := second.settled

theorem Took.get {text : Text} {b : UInt8} {value : Text} (later : Took l.get l' text value) (settled : l.Settled)
    (current : l.get.current = some b) : Took l l' (b :: text) value := (tookGet settled current).trans later

theorem Took.add {text value : Text} (took : Took l l' text value) (b : UInt8) :
    Took l (l'.add b) text (value ++ [b]) :=
  ⟨took.rest,by rw [Lexer.add,took.buffer,List.append_assoc],took.total,took.settled⟩

theorem Took.tail {text value tail : Text} (took : Took l l' text value) (left : l.rest = text ++ tail) : l'.rest = tail :=
  List.append_cancel_left (took.rest.symm.trans left)

theorem ungetRest (settled : l.Settled) : l.get.unget.rest = l.rest := by
  have whole : l.get.unget.rest = l.get.current.toList ++ l.get.rest := rfl
  rw [whole,(getAnswers settled).1,(getAnswers settled).2]
  cases l.rest <;> rfl

theorem ungetSettled (settled : l.Settled) : l.get.unget.Settled := by
  intro _ none
  have left : l.get.rest = [] := by
    rw [(getAnswers settled).2,(getNone settled).mpr none]
    rfl
  exact left

theorem tookUnget (settled : l.Settled) : Took l l.get.unget [] [] where
  rest := (ungetRest settled).symm
  buffer := (List.append_nil _).symm
  total := by
    change l.get.position.charsReadTotal - 1 = _
    rw [getTotal,Nat.add_sub_cancel]
    rfl
  settled := ungetSettled settled

theorem codepointCons {codepoint factor v : Nat} {factors : List Nat} :
    codepointLoop codepoint l (factor :: factors) = (some v,l') ↔ ∃ b digit, l.get.current = some b ∧ hexDigit b = some digit ∧
      codepointLoop (codepoint + digit <<< factor) l.get factors = (some v,l') := by
  rw [codepointLoop]
  cases l.get.current with
  | none => simp
  | some b => cases value : hexDigit b <;> simp [value]

theorem codepointValue {x y z w : Nat} :
    0 + x <<< 12 + y <<< 8 + z <<< 4 + w <<< 0 = x * 4096 + y * 256 + z * 16 + w := by
  simp only [Nat.shiftLeft_eq]
  omega

theorem hexSound (settled : l.Settled) {v : Nat} (read : l.getCodepoint = (some v,l')) :
    ∃ hex, Hex v hex ∧ Took l l' hex [] := by
  obtain ⟨a,x,isA,first,read⟩ := codepointCons.mp read
  obtain ⟨b,y,isB,second,read⟩ := codepointCons.mp read
  obtain ⟨c,z,isC,third,read⟩ := codepointCons.mp read
  obtain ⟨d,w,isD,fourth,read⟩ := codepointCons.mp read
  obtain ⟨value,rfl⟩ := Prod.mk.inj read
  rw [codepointValue,Option.some.injEq] at value
  cases value
  exact ⟨_,.digits first second third fourth,
    ((((Took.nil getSettled).get getSettled isD).get getSettled isC).get getSettled isB).get settled isA⟩

theorem hexComplete (settled : l.Settled) {v : Nat} {hex tail : Text} (value : Hex v hex) (left : l.rest = hex ++ tail) :
    ∃ l', l.getCodepoint = (some v,l') ∧ Took l l' hex [] := by
  cases value with
  | digits first second third fourth =>
    obtain ⟨isA,left⟩ := (getSome settled).mp left
    obtain ⟨isB,left⟩ := (getSome getSettled).mp left
    obtain ⟨isC,left⟩ := (getSome getSettled).mp left
    obtain ⟨isD,left⟩ := (getSome getSettled).mp left
    refine ⟨l.get.get.get.get,?_,
      ((((Took.nil getSettled).get getSettled isD).get getSettled isC).get getSettled isB).get settled isA⟩
    refine codepointCons.mpr ⟨_,_,isA,first,codepointCons.mpr ⟨_,_,isB,second,?_⟩⟩
    refine codepointCons.mpr ⟨_,_,isC,third,codepointCons.mpr ⟨_,_,isD,fourth,?_⟩⟩
    rw [codepointLoop,codepointValue]

theorem rangeSound (settled : l.Settled) {spans : List Span} (read : l.rangeLoop spans = .ok l') :
    ∃ more, List.Forall₂ Span.Has spans more ∧ Took l l' more more := by
  induction spans generalizing l with
  | nil =>
    cases read
    exact ⟨[],.nil,.nil settled⟩
  | cons span spans ih =>
    rw [rangeLoop] at read
    split at read
    · rename_i b current
      split at read
      · rename_i has
        obtain ⟨more,inside,took⟩ := ih (l := l.get.add b) getSettled read
        exact ⟨b :: more,.cons has inside,((tookGet settled current).add b).trans took⟩
      · contradiction
    · contradiction

theorem rangeComplete (settled : l.Settled) {spans : List Span} {more tail : Text}
    (inside : List.Forall₂ Span.Has spans more) (left : l.rest = more ++ tail) :
    ∃ l', l.rangeLoop spans = .ok l' ∧ Took l l' more more := by
  induction inside generalizing l with
  | nil => exact ⟨l,rfl,.nil settled⟩
  | @cons span b spans more has inside ih =>
    obtain ⟨current,left⟩ := (getSome settled).mp left
    obtain ⟨l',read,took⟩ := ih (l := l.get.add b) getSettled left
    refine ⟨l',?_,((tookGet settled current).add b).trans took⟩
    rw [rangeLoop]
    simp only [current,if_pos has]
    exact read

theorem isSpaceIff {b : UInt8} : isSpace b = true ↔ IsSpace b := by
  simp [isSpace,IsSpace,or_assoc]

theorem skipSpaceTakes (settled : l.Settled) {space text : Text} (blank : Space space) (left : l.rest = space ++ text)
    (stops : ∀ b ∈ text.head?, ¬ IsSpace b) (count : Nat) (enough : space.length < count) :
    (skipSpace count l).current = text.head? ∧ (skipSpace count l).rest = text.tail ∧ (skipSpace count l).nextUnget = false ∧
      (skipSpace count l).position.charsReadTotal = l.position.charsReadTotal + space.length + 1 := by
  induction space generalizing l count with
  | nil =>
    obtain ⟨count,rfl⟩ := Nat.exists_eq_succ_of_ne_zero (Nat.ne_of_gt enough)
    obtain ⟨current,next⟩ := getAnswers settled
    rw [left,List.nil_append] at current next
    have other : ¬ l.get.current.any isSpace = true := by
      rw [current]
      intro is
      obtain ⟨b,head,white⟩ := (Option.any_eq_true _ _).mp is
      exact stops b head (isSpaceIff.mp white)
    rw [skipSpace]
    rw [if_neg other]
    exact ⟨current,next,rfl,getTotal⟩
  | cons b space ih =>
    obtain ⟨count,rfl⟩ := Nat.exists_eq_succ_of_ne_zero (Nat.ne_of_gt (Nat.zero_lt_of_lt enough))
    obtain ⟨white,blank⟩ := List.forall_mem_cons.mp blank
    obtain ⟨current,left⟩ := (getSome settled).mp left
    have is : l.get.current.any isSpace = true := by
      rw [current]
      exact isSpaceIff.mpr white
    rw [skipSpace]
    rw [if_pos is]
    obtain ⟨found,next,fresh,total⟩ := ih getSettled blank left count (Nat.lt_of_succ_lt_succ enough)
    refine ⟨found,next,fresh,?_⟩
    rw [total,getTotal,List.length_cons]
    omega

theorem spaceSplit (text : Text) : ∃ space more, text = space ++ more ∧ Space space ∧ ∀ b ∈ more.head?, ¬ IsSpace b := by
  induction text with
  | nil => exact ⟨[],[],rfl,by simp [Space],by simp⟩
  | cons b text ih =>
    by_cases white : IsSpace b
    · obtain ⟨space,more,rfl,blank,stops⟩ := ih
      exact ⟨b :: space,more,rfl,List.forall_mem_cons.mpr ⟨white,blank⟩,stops⟩
    · exact ⟨[],b :: text,rfl,by simp [Space],by simpa using white⟩

theorem literalSound {token found : Token} (settled : l.Settled) {text : Text} (read : scanLiteral token l text = (found,l'))
    (good : found ≠ .parseError) : found = token ∧ Took l l' text [] := by
  induction text generalizing l with
  | nil =>
    cases read
    exact ⟨rfl,.nil settled⟩
  | cons b text ih =>
    rw [scanLiteral] at read
    split at read
    · rename_i current
      obtain ⟨same,took⟩ := ih getSettled read
      exact ⟨same,took.get settled current⟩
    · cases read
      contradiction

theorem literalComplete {token : Token} (settled : l.Settled) {text tail : Text} (left : l.rest = text ++ tail) :
    ∃ l', scanLiteral token l text = (token,l') ∧ Took l l' text [] := by
  induction text generalizing l with
  | nil => exact ⟨l,rfl,.nil settled⟩
  | cons b text ih =>
    obtain ⟨current,left⟩ := (getSome settled).mp left
    obtain ⟨l',read,took⟩ := ih getSettled left
    refine ⟨l',?_,took.get settled current⟩
    rw [scanLiteral]
    rw [if_pos current]
    exact read

end SimpleChat.Json.Lexer
