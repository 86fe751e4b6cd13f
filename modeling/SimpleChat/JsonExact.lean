import SimpleChat.JsonTokens

/-! `parse` takes the documents of the grammar and no other text, each with its
value. One direction follows the open containers of a run, the other is by
induction on the grammar; both see the text as the row of tokens read from it. -/
namespace SimpleChat.Json
open Grammar
open Lexer (IsNumber IsNumeric)

inductive Reads : Parser → List Token → Parser → Prop
  | nil {p : Parser} : Reads p [] p
  | cons {p q : Parser} {tokens : List Token} (later : Reads p.getToken tokens q) : Reads p (p.lastToken :: tokens) q

theorem Reads.append {p q r : Parser} {tokens tokens' : List Token} (first : Reads p tokens q) (second : Reads q tokens' r) :
    Reads p (tokens ++ tokens') r := by
  induction first with
  | nil => exact second
  | cons _ ih => exact .cons (ih second)

theorem Reads.one (p : Parser) : Reads p [p.lastToken] p.getToken := .cons .nil

theorem readsCons {p q : Parser} {token : Token} {tokens : List Token} (reads : Reads p (token :: tokens) q) :
    p.lastToken = token ∧ Reads p.getToken tokens q := by
  cases reads with
  | cons later => exact ⟨rfl,later⟩

theorem readsAppend {p q : Parser} {tokens tokens' : List Token} (reads : Reads p (tokens ++ tokens') q) :
    ∃ r, Reads p tokens r ∧ Reads r tokens' q := by
  induction tokens generalizing p with
  | nil => exact ⟨p,.nil,reads⟩
  | cons token tokens ih =>
    obtain ⟨rfl,later⟩ := readsCons reads
    obtain ⟨r,first,second⟩ := ih later
    exact ⟨r,.cons first,second⟩

theorem readsOne {p q : Parser} {token : Token} (reads : Reads p [token] q) : p.lastToken = token ∧ p.getToken = q := by
  obtain ⟨same,last⟩ := readsCons reads
  cases last
  exact ⟨same,rfl⟩

section Text

def Stands (p : Parser) (text : Text) : Prop :=
  ∃ l : Lexer, l.Settled ∧ l.rest = text ∧ p = Parser.ofScan l.scanToken

def Plain (token : Token) : Prop := token ≠ .parseError ∧ token ≠ .endOfInput

theorem lexemePlain {token : Token} {text : Text} (lexeme : Lexeme token text) : Plain token := by
  cases lexeme with
  | fixed spelled => cases token <;> cases spelled <;> exact ⟨nofun,nofun⟩
  | string pieces => exact ⟨nofun,nofun⟩
  | @number n good =>
    have number := Lexer.numeralNumber n
    constructor <;> intro same <;> rw [same] at number <;> exact number

theorem stands {l l' : Lexer} {token : Token} {space text : Text} (scanned : Lexer.Scanned l l' token space text)
    (read : l.scanToken = (token,l')) : Stands (Parser.ofScan l.scanToken).getToken l'.rest := by
  refine ⟨l',scanned.settled,rfl,?_⟩
  rw [read,Parser.ofScan,Parser.getToken,Lexer.scanStarted scanned.started]

theorem readsSpelled {p q : Parser} {tokens : List Token} (reads : Reads p tokens q) {text : Text} (at_ : Stands p text)
    (plain : ∀ token ∈ tokens, Plain token) : ∃ tail, Spelled tokens text tail ∧ Stands q tail := by
  induction reads generalizing text with
  | nil => exact ⟨text,.nil,at_⟩
  | @cons p q tokens later ih =>
    obtain ⟨⟨noError,noEnd⟩,others⟩ := List.forall_mem_cons.mp plain
    obtain ⟨l,settled,rfl,rfl⟩ := at_
    rcases @Lexer.scanTokenSound l l.scanToken.2 settled l.scanToken.1 rfl noError with
      ⟨ended,_⟩ | ⟨space,text,scanned⟩
    · exact absurd ended noEnd
    · obtain ⟨tail,spelled,at_⟩ := ih (stands scanned rfl) others
      rw [scanned.rest]
      exact ⟨tail,.cons scanned.blank scanned.lexeme spelled,at_⟩

def Separate (tokens : List Token) : Prop := tokens.IsChain (fun t t' => ¬ (IsNumber t ∧ IsNumber t'))

theorem spaceNotNumeric {b : UInt8} (space : IsSpace b) : ¬ IsNumeric b := by
  unfold IsNumeric
  rcases space with rfl | rfl | rfl | rfl <;> decide

theorem numericFirst {token : Token} {b : UInt8} {more : Text} (lexeme : Lexeme token (b :: more)) (numeric : IsNumeric b) :
    IsNumber token := by
  generalize whole : b :: more = text at lexeme
  cases lexeme with
  | fixed spelled =>
    refine absurd numeric ?_
    unfold IsNumeric
    cases token <;> simp only [fixedText,Option.some.injEq,reduceCtorEq] at spelled <;> subst text <;> cases spelled <;>
      decide
  | string pieces =>
    cases whole
    refine absurd numeric ?_
    unfold IsNumeric
    decide
  | number good => exact Lexer.numeralNumber _

theorem endedNotNumeric {tail : Text} (ended : Ended tail) : ∀ b ∈ tail.head?, ¬ IsNumeric b := by
  obtain ⟨space,more,rfl,blank,last⟩ := ended
  intro b head
  cases space with
  | cons c space =>
    cases head
    exact spaceNotNumeric (blank b List.mem_cons_self)
  | nil =>
    rw [List.nil_append] at head
    rcases last with rfl | nul
    · cases head
    · cases nul.symm.trans head
      unfold IsNumeric
      decide

def Closed (tokens : List Token) (tail : Text) : Prop :=
  ∀ token ∈ tokens.getLast?, IsNumber token → ∀ b ∈ tail.head?, ¬ IsNumeric b

theorem spelledApart {token : Token} {tokens : List Token} {text tail : Text} (spelled : Spelled tokens text tail)
    (separate : Separate (token :: tokens)) (closed : Closed (token :: tokens) tail) (number : IsNumber token) :
    ∀ b ∈ text.head?, ¬ IsNumeric b := by
  intro b head
  cases spelled with
  | nil => exact closed token rfl number b head
  | @cons next tokens space text rest tail blank lexeme later =>
    have apart : ¬ IsNumber next := fun also => (List.isChain_cons_cons.mp separate).1 ⟨number,also⟩
    cases space with
    | cons c space =>
      cases head
      exact spaceNotNumeric (blank b List.mem_cons_self)
    | nil =>
      obtain ⟨c,more,rfl,_⟩ := Lexer.lexemeFirst lexeme
      cases head
      exact fun numeric => apart (numericFirst lexeme numeric)

theorem closedTail {token : Token} {tokens : List Token} {tail : Text} (closed : Closed (token :: tokens) tail) :
    Closed tokens tail := by
  intro last member
  cases tokens with
  | nil => cases member
  | cons next tokens => exact closed last (by rwa [List.getLast?_cons_cons])

theorem spelledReads {tokens : List Token} {text tail : Text} (spelled : Spelled tokens text tail)
    (separate : Separate tokens) (closed : Closed tokens tail) {p : Parser} (at_ : Stands p text) :
    ∃ q, Reads p tokens q ∧ Stands q tail := by
  induction spelled generalizing p with
  | nil => exact ⟨p,.nil,at_⟩
  | @cons token tokens space text rest tail blank lexeme later ih =>
    obtain ⟨l,settled,left,rfl⟩ := at_
    obtain ⟨l',read,rfl,scanned⟩ := Lexer.scanTokenComplete settled blank lexeme left (spelledApart later separate closed)
    obtain ⟨q,reads,at_⟩ := ih separate.tail (closedTail closed) (stands scanned read)
    refine ⟨q,?_,at_⟩
    have first : (Parser.ofScan l.scanToken).lastToken = token := by rw [read]; rfl
    rw [← first]
    exact .cons reads

theorem standsEnded {p : Parser} {text : Text} (at_ : Stands p text) : p.lastToken = .endOfInput ↔ Ended text := by
  obtain ⟨l,settled,rfl,rfl⟩ := at_
  constructor
  · intro ended
    rcases @Lexer.scanTokenSound l l.scanToken.2 settled l.scanToken.1 rfl (by
      rw [show l.scanToken.1 = .endOfInput from ended]
      exact nofun) with ⟨_,ended⟩ | ⟨space,text,scanned⟩
    · exact ended
    · exact absurd ended (lexemePlain scanned.lexeme).2
  · exact Lexer.scanTokenEnded settled

theorem newStands (text : Text) : (∃ mark body, text = mark ++ body ∧ (mark = [] ∨ mark = byteOrderMark) ∧
    Stands (.new text) body) ∨ (Parser.new text).lastToken = .parseError := by
  by_cases first : text.head? = some 0xEF
  · obtain ⟨rest,rfl⟩ := List.head?_eq_some_iff.mp first
    by_cases marked : ∃ body, 0xEF :: rest = byteOrderMark ++ body
    · obtain ⟨body,same⟩ := marked
      obtain ⟨l,left,settled,read⟩ := Lexer.scanMarked body
      exact .inl ⟨byteOrderMark,body,same,.inr rfl,l,settled,left,by rw [Parser.new,same,read]⟩
    · exact .inr (Lexer.scanUnmarked (fun body same => marked ⟨body,same⟩))
  · obtain ⟨l,left,settled,read⟩ := Lexer.scanPlain first
    exact .inl ⟨[],text,rfl,.inl rfl,l,settled,left,by rw [Parser.new,read]⟩

end Text
section Rows

theorem singlePlain {token : Token} {js : Json} (one : valueOf token = some js) : Plain token := by
  constructor <;> rintro rfl <;> cases one

theorem rowPlain {part : Part} {tokens : List Token} (row : Row part tokens) : ∀ token ∈ tokens, Plain token := by
  induction row with
  | single one => exact List.forall_mem_singleton.mpr (singlePlain one)
  | noItems | noMembers => exact nofun
  | emptyArray | emptyObject =>
    simp only [List.forall_mem_cons]
    exact ⟨⟨nofun,nofun⟩,⟨nofun,nofun⟩,nofun⟩
  | array _ _ items last =>
    simp only [List.forall_mem_cons,List.forall_mem_append]
    exact ⟨⟨nofun,nofun⟩,items,last,⟨nofun,nofun⟩,nofun⟩
  | object _ _ members last =>
    simp only [List.forall_mem_cons,List.forall_mem_append]
    exact ⟨⟨nofun,nofun⟩,members,⟨nofun,nofun⟩,⟨nofun,nofun⟩,last,⟨nofun,nofun⟩,nofun⟩
  | item _ _ items next =>
    simp only [List.forall_mem_cons,List.forall_mem_append]
    exact ⟨items,next,⟨nofun,nofun⟩,nofun⟩
  | member _ _ members next =>
    simp only [List.forall_mem_cons,List.forall_mem_append]
    exact ⟨members,⟨nofun,nofun⟩,⟨nofun,nofun⟩,next,⟨nofun,nofun⟩,nofun⟩

theorem separateAppend {tokens tokens' : List Token} (first : Separate tokens) (second : Separate tokens')
    (between : (∀ t ∈ tokens.getLast?, ¬ IsNumber t) ∨ ∀ t ∈ tokens'.head?, ¬ IsNumber t) :
    Separate (tokens ++ tokens') := by
  refine List.isChain_append.mpr ⟨first,second,fun t last t' head => ?_⟩
  rintro ⟨number,number'⟩
  rcases between with none | none
  · exact none t last number
  · exact none t' head number'

theorem separateCons {token : Token} {tokens : List Token} (other : ¬ IsNumber token) (separate : Separate tokens) :
    Separate (token :: tokens) :=
  @separateAppend [token] tokens (List.isChain_singleton token) separate
    (.inl (by simpa using other))

theorem separateClosed {token : Token} {tokens : List Token} (other : ¬ IsNumber token) (separate : Separate tokens) :
    Separate (tokens ++ [token]) :=
  separateAppend separate (List.isChain_singleton token) (.inr (by simpa using other))

def Open : Part → List Token → Prop
  | .value _, _ => True
  | _, tokens => ∀ t ∈ tokens.getLast?, ¬ IsNumber t

theorem rowSeparate {part : Part} {tokens : List Token} (row : Row part tokens) : Separate tokens ∧ Open part tokens := by
  have none : Separate [] := List.isChain_nil
  induction row with
  | @single token _ _ => exact ⟨List.isChain_singleton token,trivial⟩
  | emptyArray | emptyObject => exact ⟨separateCons nofun (separateCons nofun none),trivial⟩
  | array _ _ items last =>
    exact ⟨separateCons nofun (separateAppend items.1 (separateClosed nofun last.1) (.inl items.2)),trivial⟩
  | object _ _ members last =>
    exact ⟨separateCons nofun (separateAppend members.1 (separateCons nofun (separateCons nofun
      (separateClosed nofun last.1))) (.inl members.2)),trivial⟩
  | noItems | noMembers => exact ⟨none,nofun⟩
  | item _ _ items next =>
    refine ⟨separateAppend items.1 (separateClosed nofun next.1) (.inl items.2),fun t last => ?_⟩
    rw [← List.append_assoc,List.getLast?_concat] at last
    cases last
    exact nofun
  | @member _ key _ tokens tokens' _ _ members next =>
    refine ⟨separateAppend members.1 (separateCons nofun (separateCons nofun (separateClosed nofun next.1)))
      (.inl members.2),fun t last => ?_⟩
    rw [← List.cons_append,← List.cons_append,← List.append_assoc,List.getLast?_concat] at last
    cases last
    exact nofun

def Begins : Part → List Token → Prop
  | .value _, tokens => ∃ token more, tokens = token :: more ∧ token ≠ .endArray
  | .items _, tokens => tokens = [] ∨ ∃ token more, tokens = token :: more ∧ token ≠ .endArray
  | .members _, tokens => tokens = [] ∨ ∃ key more, tokens = .valueString key :: more

theorem rowBegins {part : Part} {tokens : List Token} (row : Row part tokens) : Begins part tokens := by
  induction row with
  | @single token _ one => exact ⟨token,[],rfl,by rintro rfl; cases one⟩
  | emptyArray | array | emptyObject | object => exact ⟨_,_,rfl,nofun⟩
  | noItems | noMembers => exact .inl rfl
  | item _ _ items next =>
    obtain ⟨first,more,rfl,other⟩ := next
    rcases items with rfl | ⟨token,more',rfl,other'⟩
    · exact .inr ⟨first,_,rfl,other⟩
    · exact .inr ⟨token,_,rfl,other'⟩
  | @member _ key _ _ _ _ _ members _ =>
    rcases members with rfl | ⟨key',more,rfl⟩
    · exact .inr ⟨key,_,rfl⟩
    · exact .inr ⟨key',_,rfl⟩

theorem itemsBegin {before : List Json} {js : Json} {tokens tokens' more : List Token} (items : Row (.items before) tokens)
    (last : Row (.value js) tokens') {p q : Parser} (reads : Reads p (tokens ++ (tokens' ++ more)) q) :
    p.lastToken ≠ .endArray := by
  rcases rowBegins items with rfl | ⟨token,rest,rfl,other⟩
  · obtain ⟨token,rest,rfl,other⟩ := rowBegins last
    exact (readsCons reads).1 ▸ other
  · exact (readsCons reads).1 ▸ other

theorem membersBegin {before : List (Text × Json)} {key : Text} {tokens more : List Token}
    (members : Row (.members before) tokens) {p q : Parser} (reads : Reads p (tokens ++ .valueString key :: more) q) :
    p.lastToken ≠ .endObject := by
  rcases rowBegins members with rfl | ⟨key',rest,rfl⟩
  · exact (readsCons reads).1 ▸ nofun
  · exact (readsCons reads).1 ▸ nofun

end Rows
theorem assignTwice (key : Text) (value value' : Json) (members : List (Text × Json)) :
    assign key value' (assign key value members) = assign key value' members := by
  induction members with
  | nil => simp [assign]
  | cons member members ih =>
    obtain ⟨k,v⟩ := member
    by_cases same : k = key
    · simp only [assign,if_pos same]
    by_cases earlier : key < k
    · simp only [assign,if_neg same,if_pos earlier,if_true]
    · simp only [assign,if_neg same,if_neg earlier,ih]

theorem keyAssign {root : Json} {members : List (Text × Json)} {element : Text} {stack : List Container} (key : Text)
    (js : Json) : (SaxDomParser.key ⟨root,.object members element :: stack⟩ key).handleValue js =
      ⟨root,.object (assign key js members) key :: stack⟩ := by
  simp only [SaxDomParser.key]
  split
  · rfl
  · simp only [SaxDomParser.handleValue,assignTwice]

section Complete

def after (count : Nat) (c : Config) : Except String Config := match evaluate c with
  | .error what => .error what
  | .ok (.finished c) => .ok c
  | .ok (.next c) => saxParseInternal count c

def keyDue (count : Nat) (p : Parser) (states : List Bool) (sax : SaxDomParser) : Except String Config :=
  match parseKey p sax with
  | .error what => .error what
  | .ok member => saxParseInternal count ⟨member.1,false :: states,member.2,false⟩

theorem keyReads {p q : Parser} {key : Text} {tokens : List Token}
    (reads : Reads p (.valueString key :: .nameSeparator :: tokens) q) (count : Nat) (states : List Bool) (sax : SaxDomParser) :
    keyDue count p states sax = saxParseInternal count ⟨p.getToken.getToken,false :: states,sax.key key,false⟩ ∧
      Reads p.getToken.getToken tokens q := by
  obtain ⟨isKey,later⟩ := readsCons reads
  obtain ⟨isColon,later⟩ := readsCons later
  refine ⟨?_,later⟩
  simp only [keyDue,parseKey,isKey,isColon,if_true]

theorem afterComma {count : Nat} {p : Parser} {states : List Bool} {sax : SaxDomParser} {skip : Bool}
    (comma : p.getToken.lastToken = .valueSeparator) :
    after count ⟨p,true :: states,sax,skip⟩ = saxParseInternal count ⟨p.getToken.getToken,true :: states,sax,false⟩ ∧
    after count ⟨p,false :: states,sax,skip⟩ = keyDue count p.getToken.getToken states sax := by
  simp only [after,evaluate,comma,if_true,keyDue]
  refine ⟨trivial,?_⟩
  cases parseKey p.getToken.getToken sax <;> rfl

theorem afterClosed {count : Nat} {p : Parser} {states : List Bool} {sax : SaxDomParser} {skip : Bool} :
    (p.getToken.lastToken = .endArray → after (count + 1) ⟨p,true :: states,sax,skip⟩ =
      after count ⟨p.getToken,states,sax.endArray,true⟩) ∧
    (p.getToken.lastToken = .endObject → after (count + 1) ⟨p,false :: states,sax,skip⟩ =
      after count ⟨p.getToken,states,sax.endObject,true⟩) := by
  constructor
  · intro close
    simp only [after,evaluate,close,if_true,if_neg (nofun : Token.endArray ≠ .valueSeparator)]
    rfl
  · intro close
    simp only [after,evaluate,close,if_true,if_neg (nofun : Token.endObject ≠ .valueSeparator)]
    rfl

def Runs : Part → List Token → Prop
  | .value js, tokens => ∀ p q states sax, Reads p tokens q → ∃ k p' skip, k ≤ tokens.length ∧ p'.getToken = q ∧
      ∀ count, saxParseInternal (count + k) ⟨p,states,sax,false⟩ = after count ⟨p',states,sax.handleValue js,skip⟩
  | .items items, tokens => ∀ p q states root stack, Reads p tokens q → ∃ k, k ≤ tokens.length ∧
      ∀ count, saxParseInternal (count + k) ⟨p,true :: states,⟨root,.array [] :: stack⟩,false⟩ =
        saxParseInternal count ⟨q,true :: states,⟨root,.array items :: stack⟩,false⟩
  | .members members, tokens => ∀ p q states root element stack, Reads p tokens q → ∃ k element', k ≤ tokens.length ∧
      ∀ count, keyDue (count + k) p states ⟨root,.object [] element :: stack⟩ =
        keyDue count q states ⟨root,.object members element' :: stack⟩

theorem runsSingle {token : Token} {js : Json} (one : valueOf token = some js) : Runs (.value js) [token] := by
  intro p q states sax reads
  obtain ⟨same,last⟩ := readsOne reads
  refine ⟨1,p,false,Nat.le_refl 1,last,fun count => ?_⟩
  have step : parseStep ⟨p,states,sax,false⟩ = evaluate ⟨p,states,sax.handleValue js,false⟩ := by
    cases token with
    | valueFloat value =>
      cases value with
      | none => cases one
      | some value =>
        cases one
        simp only [parseStep,parseValue,same,Bool.false_eq_true,if_false]
        rfl
    | literalTrue | literalFalse | literalNull | valueString | valueUnsigned | valueInteger =>
      cases one
      simp only [parseStep,parseValue,same,Bool.false_eq_true,if_false]
      rfl
    | _ => cases one
  rw [saxParseInternal,step]
  rfl

theorem stepArray {p : Parser} (opens : p.lastToken = .beginArray) (count : Nat) (states : List Bool) (sax : SaxDomParser) :
    (p.getToken.lastToken = .endArray → saxParseInternal (count + 1) ⟨p,states,sax,false⟩ =
      after count ⟨p.getToken,states,sax.handleValue (array []),false⟩) ∧
    (p.getToken.lastToken ≠ .endArray → saxParseInternal (count + 1) ⟨p,states,sax,false⟩ =
      saxParseInternal count ⟨p.getToken,true :: states,sax.startArray,false⟩) := by
  constructor
  · intro close
    simp only [saxParseInternal,parseStep,parseValue,opens,close,Bool.false_eq_true,if_true,if_false]
    rfl
  · intro other
    simp only [saxParseInternal,parseStep,parseValue,opens,Bool.false_eq_true,if_neg other,if_false]

theorem stepObject {p : Parser} (opens : p.lastToken = .beginObject) (count : Nat) (states : List Bool) (sax : SaxDomParser) :
    (p.getToken.lastToken = .endObject → saxParseInternal (count + 1) ⟨p,states,sax,false⟩ =
      after count ⟨p.getToken,states,sax.handleValue (object []),false⟩) ∧
    (p.getToken.lastToken ≠ .endObject → saxParseInternal (count + 1) ⟨p,states,sax,false⟩ =
      keyDue count p.getToken states sax.startObject) := by
  constructor
  · intro close
    simp only [saxParseInternal,parseStep,parseValue,opens,close,Bool.false_eq_true,if_true,if_false]
    rfl
  · intro other
    simp only [saxParseInternal,parseStep,parseValue,opens,Bool.false_eq_true,if_neg other,if_false,keyDue]
    cases parseKey p.getToken sax.startObject <;> rfl

theorem rowRuns {part : Part} {tokens : List Token} (row : Row part tokens) : Runs part tokens := by
  induction row with
  | single one => exact runsSingle one
  | emptyArray =>
    intro p q states sax reads
    obtain ⟨opens,reads⟩ := readsCons reads
    obtain ⟨close,last⟩ := readsOne reads
    exact ⟨1,p.getToken,false,by decide,last,fun count => (stepArray opens count states sax).1 close⟩
  | emptyObject =>
    intro p q states sax reads
    obtain ⟨opens,reads⟩ := readsCons reads
    obtain ⟨close,last⟩ := readsOne reads
    exact ⟨1,p.getToken,false,by decide,last,fun count => (stepObject opens count states sax).1 close⟩
  | @array before js tokens tokens' items last runsItems runsLast =>
    intro p q states sax reads
    obtain ⟨opens,reads⟩ := readsCons reads
    have other := itemsBegin items last reads
    obtain ⟨m,readsItems,reads⟩ := readsAppend reads
    obtain ⟨m',readsLast,reads⟩ := readsAppend reads
    obtain ⟨close,rfl⟩ := readsOne reads
    obtain ⟨k,short,ran⟩ := runsItems _ _ states sax.root sax.refStack readsItems
    obtain ⟨k',p',skip,short',rfl,ran'⟩ := runsLast _ _ (true :: states) ⟨sax.root,.array before :: sax.refStack⟩ readsLast
    refine ⟨k + k' + 2,p'.getToken,true,?_,rfl,fun count => ?_⟩
    · simp only [List.length_cons,List.length_append,List.length_nil]
      omega
    · have first := (stepArray opens (count + 1 + k' + k) states sax).2 other
      have sum : count + (k + k' + 2) = count + 1 + k' + k + 1 := by omega
      rw [sum,first]
      exact (ran _).trans ((ran' _).trans (afterClosed.1 close))
  | @object before key js tokens tokens' members last runsMembers runsLast =>
    intro p q states sax reads
    obtain ⟨opens,reads⟩ := readsCons reads
    have other := membersBegin members reads
    obtain ⟨m,readsMembers,reads⟩ := readsAppend reads
    obtain ⟨k,element,short,ran⟩ := runsMembers _ _ states sax.root [] sax.refStack readsMembers
    have due (count : Nat) := keyReads reads count states ⟨sax.root,.object before element :: sax.refStack⟩
    obtain ⟨m',readsLast,reads⟩ := readsAppend (due 0).2
    obtain ⟨close,rfl⟩ := readsOne reads
    obtain ⟨k',p',skip,short',rfl,ran'⟩ := runsLast _ _ (false :: states)
      (SaxDomParser.key ⟨sax.root,.object before element :: sax.refStack⟩ key) readsLast
    refine ⟨k + k' + 2,p'.getToken,true,?_,rfl,fun count => ?_⟩
    · simp only [List.length_cons,List.length_append,List.length_nil]
      omega
    · have first := (stepObject opens (count + 1 + k' + k) states sax).2 other
      have sum : count + (k + k' + 2) = count + 1 + k' + k + 1 := by omega
      rw [sum,first]
      refine (ran _).trans ((due _).1.trans ((ran' _).trans ((afterClosed.2 close).trans ?_)))
      rw [keyAssign]
      rfl
  | noItems =>
    intro p q states root stack reads
    cases reads
    exact ⟨0,Nat.le_refl 0,fun count => rfl⟩
  | noMembers =>
    intro p q states root element stack reads
    cases reads
    exact ⟨0,element,Nat.le_refl 0,fun count => rfl⟩
  | @item before js tokens tokens' items next runsItems runsNext =>
    intro p q states root stack reads
    obtain ⟨m,readsItems,reads⟩ := readsAppend reads
    obtain ⟨m',readsNext,reads⟩ := readsAppend reads
    obtain ⟨comma,rfl⟩ := readsOne reads
    obtain ⟨k,short,ran⟩ := runsItems _ _ states root stack readsItems
    obtain ⟨k',p',skip,short',rfl,ran'⟩ := runsNext _ _ (true :: states) ⟨root,.array before :: stack⟩ readsNext
    refine ⟨k + k',?_,fun count => ?_⟩
    · simp only [List.length_append,List.length_cons,List.length_nil]
      omega
    · have sum : count + (k + k') = count + k' + k := by omega
      rw [sum]
      exact (ran _).trans ((ran' _).trans (afterComma comma).1)
  | @member before key js tokens tokens' members next runsMembers runsNext =>
    intro p q states root element stack reads
    obtain ⟨m,readsMembers,reads⟩ := readsAppend reads
    obtain ⟨k,element',short,ran⟩ := runsMembers _ _ states root element stack readsMembers
    have due (count : Nat) := keyReads reads count states ⟨root,.object before element' :: stack⟩
    obtain ⟨m',readsNext,reads⟩ := readsAppend (due 0).2
    obtain ⟨comma,rfl⟩ := readsOne reads
    obtain ⟨k',p',skip,short',rfl,ran'⟩ := runsNext _ _ (false :: states)
      (SaxDomParser.key ⟨root,.object before element' :: stack⟩ key) readsNext
    refine ⟨k + k',key,?_,fun count => ?_⟩
    · simp only [List.length_append,List.length_cons,List.length_nil]
      omega
    · have sum : count + (k + k') = count + k' + k := by omega
      rw [sum]
      refine (ran _).trans ((due _).1.trans ((ran' _).trans ((afterComma comma).2.trans ?_)))
      rw [keyAssign]

end Complete
section Sound

/- The tokens that a run has read where a value is due, by its open containers. -/
inductive Due : List Token → List Bool → List Container → Prop
  | start : Due [] [] []
  | item {tokens more : List Token} {states : List Bool} {stack : List Container} {items : List Json}
      (around : Due tokens states stack) (row : Row (.items items) more) :
      Due (tokens ++ .beginArray :: more) (true :: states) (.array items :: stack)
  | member {tokens more : List Token} {states : List Bool} {stack : List Container} {before members : List (Text × Json)}
      {key : Text} (around : Due tokens states stack) (row : Row (.members before) more)
      (same : ∀ js, assign key js members = assign key js before) :
      Due (tokens ++ .beginObject :: (more ++ [.valueString key,.nameSeparator])) (false :: states)
        (.object members key :: stack)

variable {first : Parser}

def ValueDue (first p : Parser) (states : List Bool) (sax : SaxDomParser) : Prop :=
  ∃ tokens, Reads first tokens p ∧ Due tokens states sax.refStack

def ValueDone (first p : Parser) (states : List Bool) (sax : SaxDomParser) : Prop :=
  ∃ tokens tokens' js root stack, Reads first (tokens ++ tokens') p.getToken ∧ Due tokens states stack ∧
    Row (.value js) tokens' ∧ sax = SaxDomParser.handleValue ⟨root,stack⟩ js

def Kept (first : Parser) (c : Config) : Prop :=
  if c.skip then ValueDone first c.parser c.states c.sax else ValueDue first c.parser c.states c.sax

def Progressed (first : Parser) : Progress → Prop
  | .next c' => Kept first c'
  | .finished c' => c'.states = [] ∧ ValueDone first c'.parser c'.states c'.sax

theorem parseKeyOk {p : Parser} {sax : SaxDomParser} {member : Parser × SaxDomParser} (read : parseKey p sax = .ok member) :
    ∃ key, p.lastToken = .valueString key ∧ p.getToken.lastToken = .nameSeparator ∧
      member = (p.getToken.getToken,sax.key key) := by
  unfold parseKey at read
  split at read
  · rename_i key isKey
    split at read
    · rename_i isColon
      cases read
      exact ⟨key,isKey,isColon,rfl⟩
    · contradiction
  · contradiction

theorem memberDue {tokens more : List Token} {p : Parser} {states : List Bool} {stack : List Container} {root : Json}
    {before : List (Text × Json)} {element : Text} {member : Parser × SaxDomParser} (around : Due tokens states stack)
    (row : Row (.members before) more) (reads : Reads first (tokens ++ .beginObject :: more) p)
    (read : parseKey p ⟨root,.object before element :: stack⟩ = .ok member) :
    ValueDue first member.1 (false :: states) member.2 := by
  obtain ⟨key,isKey,isColon,rfl⟩ := parseKeyOk read
  refine ⟨tokens ++ .beginObject :: (more ++ [.valueString key,.nameSeparator]),?_,?_⟩
  · have later : Reads p [.valueString key,.nameSeparator] p.getToken.getToken := by
      rw [← isKey,← isColon]
      exact .cons (.cons .nil)
    have all := reads.append later
    rwa [List.append_assoc,List.cons_append] at all
  · simp only [SaxDomParser.key]
    refine .member around row (fun js => ?_)
    split
    · rfl
    · exact assignTwice key null js before

theorem evaluateKept {c : Config} {progress : Progress} (done : ValueDone first c.parser c.states c.sax)
    (ran : evaluate c = .ok progress) : Progressed first progress := by
  obtain ⟨p,states,sax,skip⟩ := c
  have whole := done
  obtain ⟨tokens,tokens',js,root,stack,reads,due,row,rfl⟩ := done
  unfold evaluate at ran
  cases due with
  | start =>
    cases ran
    exact ⟨rfl,whole⟩
  | @item tokens more states stack items around rows =>
    dsimp only at ran
    have next : Reads first (tokens ++ .beginArray :: (more ++ (tokens' ++ [p.getToken.lastToken]))) p.getToken.getToken := by
      have all := reads.append (Reads.one p.getToken)
      rwa [List.append_assoc,List.append_assoc,List.cons_append] at all
    split at ran
    · rename_i comma
      rw [comma] at next
      cases ran
      exact ⟨_,next,.item around (.item rows row)⟩
    · split at ran
      · rename_i close
        rw [close] at next
        cases ran
        exact ⟨tokens,_,_,root,stack,next,around,.array rows row,rfl⟩
      · contradiction
  | @member tokens more states stack before members key around rows same =>
    dsimp only at ran
    have next : Reads first (tokens ++ .beginObject :: (more ++ (.valueString key :: .nameSeparator ::
        (tokens' ++ [p.getToken.lastToken])))) p.getToken.getToken := by
      have all := reads.append (Reads.one p.getToken)
      simpa only [List.append_assoc,List.cons_append,List.nil_append] using all
    split at ran
    · rename_i comma
      rw [comma] at next
      obtain ⟨member,read,last⟩ := bindOk.mp ran
      cases last
      simp only [SaxDomParser.handleValue,same js] at read
      exact memberDue around (.member rows row) next read
    · split at ran
      · rename_i close
        rw [close] at next
        cases ran
        refine ⟨tokens,_,_,root,stack,next,around,.object rows row,?_⟩
        simp only [SaxDomParser.handleValue,SaxDomParser.endObject,SaxDomParser.close,same js]
      · contradiction

inductive ValueMoves (c : Config) (progress : Progress) : Prop
  | single {js : Json} (one : valueOf c.parser.lastToken = some js)
      (ran : evaluate {c with sax := c.sax.handleValue js} = .ok progress)
  | emptyArray (opens : c.parser.lastToken = .beginArray) (close : c.parser.getToken.lastToken = .endArray)
      (ran : evaluate {c with parser := c.parser.getToken, sax := c.sax.handleValue (array [])} = .ok progress)
  | array (opens : c.parser.lastToken = .beginArray)
      (same : progress = .next ⟨c.parser.getToken,true :: c.states,c.sax.startArray,false⟩)
  | emptyObject (opens : c.parser.lastToken = .beginObject) (close : c.parser.getToken.lastToken = .endObject)
      (ran : evaluate {c with parser := c.parser.getToken, sax := c.sax.handleValue (object [])} = .ok progress)
  | object {member : Parser × SaxDomParser} (opens : c.parser.lastToken = .beginObject)
      (key : parseKey c.parser.getToken c.sax.startObject = .ok member)
      (same : progress = .next ⟨member.1,false :: c.states,member.2,false⟩)

theorem valueMoves {c : Config} {progress : Progress} (ran : parseValue c = .ok progress) : ValueMoves c progress := by
  unfold parseValue at ran
  split at ran
  · rename_i opens
    dsimp only at ran
    split at ran
    · rename_i close
      exact .emptyObject opens close ran
    · obtain ⟨member,key,last⟩ := bindOk.mp ran
      cases last
      exact .object opens key rfl
  · rename_i opens
    dsimp only at ran
    split at ran
    · rename_i close
      exact .emptyArray opens close ran
    · cases ran
      exact .array opens rfl
  · contradiction
  iterate 7
    · rename_i same
      exact .single (by rw [same]; rfl) ran
  · contradiction
  · contradiction

theorem parseValueKept {c : Config} {progress : Progress} (due : ValueDue first c.parser c.states c.sax)
    (ran : parseValue c = .ok progress) : Progressed first progress := by
  obtain ⟨p,states,⟨root,stack⟩,skip⟩ := c
  obtain ⟨tokens,reads,due⟩ := due
  have one := reads.append (Reads.one p)
  cases valueMoves ran with
  | @single js isSingle ran =>
    exact evaluateKept (c := ⟨p,states,SaxDomParser.handleValue ⟨root,stack⟩ js,skip⟩)
      ⟨tokens,_,js,root,stack,one,due,.single isSingle,rfl⟩ ran
  | emptyArray opens close ran =>
    have two := one.append (Reads.one p.getToken)
    rw [List.append_assoc,opens,close] at two
    exact evaluateKept (c := ⟨p.getToken,states,SaxDomParser.handleValue ⟨root,stack⟩ (array []),skip⟩)
      ⟨tokens,_,array [],root,stack,two,due,.emptyArray,rfl⟩ ran
  | emptyObject opens close ran =>
    have two := one.append (Reads.one p.getToken)
    rw [List.append_assoc,opens,close] at two
    exact evaluateKept (c := ⟨p.getToken,states,SaxDomParser.handleValue ⟨root,stack⟩ (object []),skip⟩)
      ⟨tokens,_,object [],root,stack,two,due,.emptyObject,rfl⟩ ran
  | array opens same =>
    cases same
    rw [opens] at one
    exact ⟨_,one,.item due .noItems⟩
  | object opens key same =>
    cases same
    rw [opens] at one
    exact memberDue due .noMembers one key

theorem parseStepKept {c : Config} {progress : Progress} (kept : Kept first c) (ran : parseStep c = .ok progress) :
    Progressed first progress := by
  unfold parseStep at ran
  unfold Kept at kept
  split at ran
  · rename_i skip
    rw [if_pos skip] at kept
    exact evaluateKept kept ran
  · rename_i skip
    rw [if_neg skip] at kept
    exact parseValueKept kept ran

theorem runKept {count : Nat} {c c' : Config} (kept : Kept first c) (ran : saxParseInternal count c = .ok c') :
    c'.states = [] ∧ ValueDone first c'.parser c'.states c'.sax := by
  induction count generalizing c with
  | zero => cases ran
  | succ count ih =>
    rw [saxParseInternal] at ran
    split at ran
    · contradiction
    · rename_i step
      cases ran
      exact parseStepKept kept step
    · rename_i step
      exact ih (parseStepKept kept step) ran

end Sound

theorem spelledLength {tokens : List Token} {text tail : Text} (spelled : Spelled tokens text tail) :
    tokens.length ≤ text.length := by
  induction spelled with
  | nil => exact Nat.zero_le _
  | cons blank lexeme later ih =>
    obtain ⟨b,more,rfl,_⟩ := Lexer.lexemeFirst lexeme
    simp only [List.length_append,List.length_cons]
    omega

theorem parseSound {text : Text} {js : Json} (parsed : parse text = .ok js) : Document js text := by
  unfold parse at parsed
  split at parsed
  · contradiction
  · rename_i c ran
    dsimp only at parsed
    split at parsed
    · rename_i ended
      cases parsed
      have start : Kept (.new text) ⟨.new text,[],⟨null,[]⟩,false⟩ := ⟨[],.nil,.start⟩
      obtain ⟨none,tokens,tokens',js,root,stack,reads,due,row,sax⟩ := runKept start ran
      rw [none] at due
      cases due
      rw [sax]
      rcases newStands text with ⟨mark,body,same,isMark,at_⟩ | bad
      · obtain ⟨tail,spelled,at_⟩ := readsSpelled reads at_ (rowPlain row)
        exact ⟨mark,body,tokens',tail,same,isMark,row,spelled,(standsEnded at_).mp ended⟩
      · obtain ⟨token,more,rfl,_⟩ := rowBegins row
        obtain ⟨same,_⟩ := readsCons reads
        exact absurd (same.symm.trans bad) (rowPlain row token List.mem_cons_self).1
    · contradiction

theorem documentStands {mark body tail text : Text} {tokens : List Token} {js : Json} (isMark : mark = [] ∨ mark = byteOrderMark)
    (row : Row (.value js) tokens) (spelled : Spelled tokens body tail) (whole : text = mark ++ body) :
    Stands (.new text) body := by
  rcases isMark with rfl | rfl
  · have plain : text.head? ≠ some 0xEF := by
      rw [whole,List.nil_append]
      obtain ⟨token,more,rfl,_⟩ := rowBegins row
      cases spelled with
      | @cons _ _ space lexed _ _ blank lexeme later =>
        obtain ⟨b,rest,rfl,_,small⟩ := Lexer.lexemeFirst lexeme
        cases space with
        | nil =>
          intro head
          cases head
          exact absurd small (by decide)
        | cons c space =>
          intro head
          cases head
          have white := blank 0xEF List.mem_cons_self
          unfold IsSpace at white
          exact absurd white (by decide)
    obtain ⟨l,left,settled,read⟩ := Lexer.scanPlain plain
    exact ⟨l,settled,left.trans whole,by rw [Parser.new,read]⟩
  · obtain ⟨l,left,settled,read⟩ := Lexer.scanMarked body
    exact ⟨l,settled,left,by rw [Parser.new,whole,read]⟩

theorem parseReads {text : Text} {js : Json} {tokens : List Token} (row : Row (.value js) tokens) {q : Parser}
    (reads : Reads (.new text) tokens q) (short : tokens.length ≤ text.length) :
    parse text = if q.lastToken = .endOfInput then .ok js else .error (q.error .endOfInput "value") := by
  obtain ⟨k,p',skip,few,rfl,ran⟩ := rowRuns row _ _ [] ⟨null,[]⟩ reads
  obtain ⟨count,enough⟩ := Nat.exists_eq_add_of_le' (show k ≤ text.length + 2 by omega)
  have run := ran count
  rw [← enough] at run
  unfold parse
  rw [run]
  simp only [after,evaluate]
  rfl

theorem parseComplete {text : Text} {js : Json} (document : Document js text) : parse text = .ok js := by
  obtain ⟨mark,body,tokens,tail,whole,isMark,row,spelled,ended⟩ := document
  have at_ := documentStands isMark row spelled whole
  obtain ⟨q,reads,at_⟩ := spelledReads spelled (rowSeparate row).1 (fun _ _ _ => endedNotNumeric ended) at_
  have short := spelledLength spelled
  rw [parseReads row reads (by
    rw [whole,List.length_append]
    omega),if_pos ((standsEnded at_).mpr ended)]

/- The parser takes exactly the documents, each with its value. -/
theorem parseExact {text : Text} {js : Json} : parse text = .ok js ↔ Document js text := ⟨parseSound,parseComplete⟩

def Number : Json → Prop
  | numberInteger _ | numberUnsigned _ | numberFloat _ => True
  | _ => False

theorem rowClosed {js : Json} {tokens : List Token} (row : Row (.value js) tokens) (other : ¬ Number js) (tail : Text) :
    Closed tokens tail := by
  intro token last number
  cases row with
  | @single single _ one =>
    obtain rfl : single = token := Option.some.inj last
    cases single with
    | valueUnsigned | valueInteger =>
      cases one
      exact absurd trivial other
    | valueFloat value =>
      obtain ⟨_,_,rfl⟩ := Option.map_eq_some_iff.mp one
      exact absurd trivial other
    | _ => exact number.elim
  | emptyArray | emptyObject =>
    cases last
    exact number.elim
  | array items final =>
    rw [← List.append_assoc,← List.cons_append,List.getLast?_concat] at last
    cases last
    exact number.elim
  | object members final =>
    rw [← List.cons_append,← List.cons_append,← List.cons_append,← List.append_assoc,List.getLast?_concat] at last
    cases last
    exact number.elim

theorem spelledMore {tokens : List Token} {text tail : Text} (spelled : Spelled tokens text tail) (more : Text) :
    Spelled tokens (text ++ more) (tail ++ more) := by
  induction spelled with
  | nil => exact .nil
  | cons blank lexeme later ih =>
    rw [List.append_assoc,List.append_assoc]
    exact .cons blank lexeme ih

theorem endedBehind {space more : Text} (blank : Space space) : Ended (space ++ more) ↔ Ended more := by
  constructor
  · rintro ⟨space',rest,whole,blank',last⟩
    induction space generalizing space' with
    | nil => exact ⟨space',rest,whole,blank',last⟩
    | cons b space ih =>
      obtain ⟨white,blank⟩ := List.forall_mem_cons.mp blank
      cases space' with
      | nil =>
        rw [List.nil_append] at whole
        rw [← whole] at last
        rcases last with none | nul
        · cases none
        · cases nul
          exact absurd white Lexer.nulNoSpace
      | cons c space' => exact ih blank space' (List.cons.inj whole).2 (List.forall_mem_cons.mp blank').2
  · rintro ⟨space',rest,rfl,blank',last⟩
    exact ⟨space ++ space',rest,(List.append_assoc _ _ _).symm,List.forall_mem_append.mpr ⟨blank,blank'⟩,last⟩

theorem endedClean {tail : Text} (ended : Ended tail) (clean : (0 : UInt8) ∉ tail) : Space tail := by
  obtain ⟨space,rest,rfl,blank,rfl | nul⟩ := ended
  · rwa [List.append_nil]
  · obtain ⟨rest,rfl⟩ := List.head?_eq_some_iff.mp nul
    exact absurd (List.mem_append_right _ List.mem_cons_self) clean

theorem spelledTail {tokens : List Token} {text tail : Text} (spelled : Spelled tokens text tail) : tail ⊆ text := by
  induction spelled with
  | nil => exact List.Subset.refl _
  | cons _ _ _ ih => exact fun b member => List.mem_append_right _ (List.mem_append_right _ (ih member))

/- Behind a value other than a number the parser takes white space and nothing else. -/
theorem parseBehind {text : Text} {js : Json} (parsed : parse text = .ok js) (other : ¬ Number js)
    (clean : (0 : UInt8) ∉ text) (more : Text) :
    (Ended more → parse (text ++ more) = .ok js) ∧ (¬ Ended more → ∃ what, parse (text ++ more) = .error what) := by
  obtain ⟨mark,body,tokens,tail,rfl,isMark,row,spelled,ended⟩ := parseExact.mp parsed
  have blank := endedClean ended (fun member => clean (List.mem_append_right _ (spelledTail spelled member)))
  have longer := spelledMore spelled more
  have at_ := documentStands isMark row longer (List.append_assoc mark body more)
  obtain ⟨q,reads,at_⟩ := spelledReads longer (rowSeparate row).1 (rowClosed row other _) at_
  have short := spelledLength spelled
  rw [parseReads row reads (by
    simp only [List.length_append]
    omega),← endedBehind blank,← standsEnded at_]
  exact ⟨fun last => if_pos last,fun goesOn => ⟨_,if_neg goesOn⟩⟩

theorem parseFollowed {text more : Text} {js js' : Json} (parsed : parse text = .ok js) (other : ¬ Number js)
    (clean : (0 : UInt8) ∉ text) : parse (text ++ more) = .ok js' ↔ js' = js ∧ Ended more := by
  obtain ⟨whole,partly⟩ := parseBehind parsed other clean more
  by_cases ended : Ended more
  · rw [whole ended,Except.ok.injEq]
    exact ⟨fun same => ⟨same.symm,ended⟩,fun same => same.1.symm⟩
  · obtain ⟨what,thrown⟩ := partly ended
    simp [thrown,ended]

theorem parseFollowedHere : parse ([91,49,93] ++ [32,50]) = .ok (array [numberUnsigned 1]) ↔
    array [numberUnsigned 1] = array [numberUnsigned 1] ∧ Ended [32,50] :=
  have parsed : parse [91,49,93] = .ok (array [numberUnsigned 1]) := rfl
  parseFollowed parsed not_false (by decide)

end SimpleChat.Json
