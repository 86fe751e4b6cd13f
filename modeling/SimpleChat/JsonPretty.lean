import SimpleChat.JsonRoundTrip

/-! `dump(indent)`: the serializer's pretty printing. The string it indents with
starts at 512 characters and is doubled once where it is too short, with blanks
whatever the indentation character is. -/
namespace SimpleChat.Json
open Grammar Basis
namespace Serializer

/- How a call ends without a text: by an exception, or by a read behind the NUL of
`indent_string`, which has no defined result. -/
inductive Failure where
  | thrown (what : String)
  | outside
  deriving DecidableEq, Repr

def indentation (indentString : Text) (length : Nat) : Except Failure Text :=
  if length ≤ indentString.length + 1 then .ok ((indentString ++ [0]).take length) else .error .outside

def lengthened (indentString : Text) (newIndent : Nat) : Text :=
  if indentString.length < newIndent then indentString ++ List.replicate indentString.length 32 else indentString

def newIndent (indentStep currentIndent : Nat) : Nat := (currentIndent + indentStep) % 4294967296

section Pretty
variable (toChars : Rat → Text) (ensureAscii : Bool) (indentStep : Nat)

mutual

def dumpPretty (currentIndent : Nat) (indentString : Text) : Json → Except Failure (Text × Text)
  | .object members =>
      if members.isEmpty then .ok ([123,125],indentString) else do
        let inner := newIndent indentStep currentIndent
        let (text,indentString) ← prettyMembers inner (lengthened indentString inner) members
        let front ← indentation indentString currentIndent
        .ok (123 :: 10 :: (text ++ 10 :: (front ++ [125])),indentString)
  | .array items =>
      if items.isEmpty then .ok ([91,93],indentString) else do
        let inner := newIndent indentStep currentIndent
        let (text,indentString) ← prettyItems inner (lengthened indentString inner) items
        let front ← indentation indentString currentIndent
        .ok (91 :: 10 :: (text ++ 10 :: (front ++ [93])),indentString)
  | other => do
      let text ← (dump toChars ensureAscii other).mapError .thrown
      .ok (text,indentString)

def prettyItems (inner : Nat) (indentString : Text) : List Json → Except Failure (Text × Text)
  | [] => .ok ([],indentString)
  | [js] => do
      let front ← indentation indentString inner
      let (text,indentString) ← dumpPretty inner indentString js
      .ok (front ++ text,indentString)
  | js :: items => do
      let front ← indentation indentString inner
      let (text,indentString) ← dumpPretty inner indentString js
      let (more,indentString) ← prettyItems inner indentString items
      .ok (front ++ (text ++ 44 :: 10 :: more),indentString)

def prettyMembers (inner : Nat) (indentString : Text) : List (Text × Json) → Except Failure (Text × Text)
  | [] => .ok ([],indentString)
  | [(key,js)] => do
      let front ← indentation indentString inner
      let name ← (quoted ensureAscii key).mapError .thrown
      let (value,indentString) ← dumpPretty inner indentString js
      .ok (front ++ (name ++ 58 :: 32 :: value),indentString)
  | (key,js) :: members => do
      let front ← indentation indentString inner
      let name ← (quoted ensureAscii key).mapError .thrown
      let (value,indentString) ← dumpPretty inner indentString js
      let (more,indentString) ← prettyMembers inner indentString members
      .ok (front ++ (name ++ 58 :: 32 :: (value ++ 44 :: 10 :: more)),indentString)

end

end Pretty

def dumpText (toChars : Rat → Text) (indent : Int) (indentChar : UInt8) (ensureAscii : Bool) (js : Json) :
    Except Failure Text :=
  if 0 ≤ indent then
    (dumpPretty toChars ensureAscii indent.toNat 0 (List.replicate 512 indentChar) js).map Prod.fst
  else (dump toChars ensureAscii js).mapError .thrown

/- Doubling keeps `indent_string` as long as what is read of it. -/
structure Room (indentStep currentIndent : Nat) (indentString : Text) : Prop where
  blank : Space indentString
  start : 512 ≤ indentString.length
  current : currentIndent ≤ indentString.length
  step : currentIndent = 0 ∨ indentStep ≤ indentString.length

theorem lengthenedBlank {indentString : Text} {n : Nat} (blank : Space indentString) : Space (lengthened indentString n) := by
  unfold lengthened
  split
  · intro b member
    rcases List.mem_append.mp member with old | fresh
    · exact blank b old
    · exact .inl (List.eq_of_mem_replicate fresh)
  · exact blank

theorem lengthenedLength (indentString : Text) (n : Nat) : (lengthened indentString n).length =
    if indentString.length < n then 2 * indentString.length else indentString.length := by
  unfold lengthened
  split
  · rw [List.length_append,List.length_replicate,Nat.two_mul]
  · rfl

theorem lengthenedLonger (indentString : Text) (n : Nat) : indentString.length ≤ (lengthened indentString n).length := by
  rw [lengthenedLength]
  split <;> omega

theorem Room.inner {indentStep currentIndent : Nat} {indentString : Text} (room : Room indentStep currentIndent indentString)
    (small : indentStep ≤ 1024) :
    Room indentStep (newIndent indentStep currentIndent) (lengthened indentString (newIndent indentStep currentIndent)) := by
  obtain ⟨blank,start,current,step⟩ := room
  have length := lengthenedLength indentString (newIndent indentStep currentIndent)
  refine ⟨lengthenedBlank blank,?_,?_,.inr ?_⟩ <;> rw [length] <;> unfold newIndent <;> split <;> omega

theorem Room.later {indentStep currentIndent : Nat} {indentString later : Text} (room : Room indentStep currentIndent indentString)
    (blank : Space later) (longer : indentString.length ≤ later.length) : Room indentStep currentIndent later :=
  ⟨blank,room.start.trans longer,room.current.trans longer,room.step.imp_right (fun step => step.trans longer)⟩

theorem Room.front {indentStep currentIndent : Nat} {indentString : Text} (room : Room indentStep currentIndent indentString) :
    ∃ front, indentation indentString currentIndent = .ok front ∧ Space front := by
  have inside := room.current
  refine ⟨_,if_pos (by omega),?_⟩
  rw [List.take_append_of_le_length inside]
  exact fun b member => room.blank b (List.mem_of_mem_take member)

theorem newlineBlank {front : Text} (blank : Space front) : Space (10 :: front) :=
  List.forall_mem_cons.mpr ⟨.inr (.inr (.inl rfl)),blank⟩

section Printing
variable {toChars : Rat → Text} {ensureAscii : Bool} {indentStep : Nat}

def Prints (toChars : Rat → Text) (ensureAscii : Bool) (indentStep : Nat) (js : Json) : Prop :=
  ∀ {currentIndent : Nat} {indentString : Text}, Room indentStep currentIndent indentString →
    ∃ text later, dumpPretty toChars ensureAscii indentStep currentIndent indentString js = .ok (text,later) ∧
      Writes (.value (canonical js)) text ∧ Space later ∧ indentString.length ≤ later.length

theorem itemsPrint {js : Json} {items before : List Json} {text₀ indentString : Text} {inner : Nat}
    (held : ∀ i ∈ js :: items, Prints toChars ensureAscii indentStep i) (room : Room indentStep inner indentString)
    (written : Writes (.items before) text₀) :
    ∃ text later, prettyItems toChars ensureAscii indentStep inner indentString (js :: items) = .ok (text,later) ∧
      Space later ∧ indentString.length ≤ later.length ∧ ∀ closing, Space closing →
        Writes (.value (array (before ++ canonicalItems (js :: items)))) (91 :: (text₀ ++ 10 :: (text ++ 10 :: (closing ++ [93])))) := by
  obtain ⟨front,indented,blank⟩ := room.front
  induction items generalizing js before text₀ indentString front with
  | nil =>
    obtain ⟨text,later,printed,writes,blankLater,longer⟩ := held js List.mem_cons_self room
    refine ⟨front ++ text,later,?_,blankLater,longer,fun closing blankClosing => ?_⟩
    · rw [prettyItems,indented,printed]
      rfl
    · have all := writesArray written (newlineBlank blank) writes (newlineBlank blankClosing)
      have whole : 91 :: (text₀ ++ 10 :: ((front ++ text) ++ 10 :: (closing ++ [93]))) =
          91 :: (text₀ ++ (10 :: front ++ (text ++ (10 :: closing ++ [93])))) := by simp
      rw [whole]
      exact all
  | cons next items ih =>
    obtain ⟨text,later,printed,writes,blankLater,longer⟩ := held js List.mem_cons_self room
    have roomLater := room.later blankLater longer
    obtain ⟨front',indented',blank'⟩ := roomLater.front
    obtain ⟨more,last,printedMore,blankLast,longerLast,all⟩ := ih (fun i member => held i (List.mem_cons_of_mem _ member))
      roomLater (writesItem written (newlineBlank blank) writes) front' indented' blank'
    refine ⟨front ++ (text ++ 44 :: 10 :: more),last,?_,blankLast,longer.trans longerLast,fun closing blankClosing => ?_⟩
    · rw [prettyItems,indented,printed]
      · simp only [bind,Except.bind,printedMore]
      · exact nofun
    · have whole : 91 :: (text₀ ++ 10 :: ((front ++ (text ++ 44 :: 10 :: more)) ++ 10 :: (closing ++ [93]))) =
          91 :: ((text₀ ++ (10 :: front ++ (text ++ [44]))) ++ 10 :: (more ++ 10 :: (closing ++ [93]))) := by simp
      rw [whole,canonicalItems,List.append_cons]
      exact all closing blankClosing

theorem membersPrint {key : Text} {js : Json} {members before : List (Text × Json)} {text₀ indentString : Text} {inner : Nat}
    (held : ∀ m ∈ (key,js) :: members, Prints toChars ensureAscii indentStep m.2)
    (formed : ∀ m ∈ (key,js) :: members, Utf8.WellFormed m.1)
    (ascending : Ascending (before ++ canonicalMembers ((key,js) :: members))) (room : Room indentStep inner indentString)
    (written : Writes (.members before) text₀) :
    ∃ text later, prettyMembers toChars ensureAscii indentStep inner indentString ((key,js) :: members) = .ok (text,later) ∧
      Space later ∧ indentString.length ≤ later.length ∧ ∀ closing, Space closing →
        Writes (.value (object (before ++ canonicalMembers ((key,js) :: members))))
          (123 :: (text₀ ++ 10 :: (text ++ 10 :: (closing ++ [125])))) := by
  have between : Space [32] := List.forall_mem_singleton.mpr (.inl rfl)
  obtain ⟨front,indented,blank⟩ := room.front
  induction members generalizing key js before text₀ indentString front with
  | nil =>
    obtain ⟨name,dumpedName,named⟩ := quotedWrites ensureAscii (formed _ List.mem_cons_self)
    obtain ⟨text,later,printed,writes,blankLater,longer⟩ := held _ List.mem_cons_self room
    refine ⟨front ++ (name ++ 58 :: 32 :: text),later,?_,blankLater,longer,fun closing blankClosing => ?_⟩
    · rw [prettyMembers,indented,dumpedName,printed]
      rfl
    · have all := writesObject written (newlineBlank blank) named between writes (newlineBlank blankClosing)
      rw [assignLast (membersBefore ascending)] at all
      have whole : 123 :: (text₀ ++ 10 :: ((front ++ (name ++ 58 :: 32 :: text)) ++ 10 :: (closing ++ [125]))) =
          123 :: (text₀ ++ (10 :: front ++ (name ++ 58 :: ([32] ++ (text ++ (10 :: closing ++ [125])))))) := by simp
      rw [whole]
      exact all
  | cons next members ih =>
    obtain ⟨name,dumpedName,named⟩ := quotedWrites ensureAscii (formed _ List.mem_cons_self)
    obtain ⟨text,later,printed,writes,blankLater,longer⟩ := held _ List.mem_cons_self room
    have roomLater := room.later blankLater longer
    obtain ⟨front',indented',blank'⟩ := roomLater.front
    have member := writesMember written (newlineBlank blank) named between writes
    rw [assignLast (membersBefore ascending)] at member
    obtain ⟨more,last,printedMore,blankLast,longerLast,all⟩ := ih (fun m member => held m (List.mem_cons_of_mem _ member))
      (fun m member => formed m (List.mem_cons_of_mem _ member)) (by rwa [canonicalMembers,List.append_cons] at ascending)
      roomLater member front' indented' blank'
    refine ⟨front ++ (name ++ 58 :: 32 :: (text ++ 44 :: 10 :: more)),last,?_,blankLast,longer.trans longerLast,
      fun closing blankClosing => ?_⟩
    · rw [prettyMembers,indented,dumpedName]
      · simp only [Except.mapError,bind,Except.bind,printed,printedMore]
      · simp
    · have whole : 123 :: (text₀ ++ 10 :: ((front ++ (name ++ 58 :: 32 :: (text ++ 44 :: 10 :: more))) ++
            10 :: (closing ++ [125]))) =
          123 :: ((text₀ ++ (10 :: front ++ (name ++ 58 :: ([32] ++ (text ++ [44]))))) ++ 10 :: (more ++
            10 :: (closing ++ [125]))) := by simp
      rw [whole,canonicalMembers,List.append_cons]
      exact all closing blankClosing

theorem plainPrints {js : Json} (roundTrips : RoundTrips toChars) (held : Held js)
    (plain : ∀ currentIndent indentString, dumpPretty toChars ensureAscii indentStep currentIndent indentString js =
      (dump toChars ensureAscii js).mapError .thrown >>= fun text => .ok (text,indentString)) :
    Prints toChars ensureAscii indentStep js := by
  intro currentIndent indentString room
  obtain ⟨text,dumped,writes⟩ := dumps roundTrips held
  refine ⟨text,indentString,?_,writes,room.blank,Nat.le_refl _⟩
  rw [plain,dumped]
  rfl

def Filled : Json → Prop
  | .array items => items ≠ []
  | .object members => members ≠ []
  | _ => False

theorem unfilledPrints (roundTrips : RoundTrips toChars) {js : Json} (held : Held js) (empty : ¬ Filled js) :
    Prints toChars ensureAscii indentStep js := by
  cases js with
  | array items =>
    obtain rfl := not_not.mp empty
    exact fun room => ⟨_,_,rfl,writesEmptyArray,room.blank,Nat.le_refl _⟩
  | object members =>
    obtain rfl := not_not.mp empty
    exact fun room => ⟨_,_,rfl,writesEmptyObject,room.blank,Nat.le_refl _⟩
  | _ => exact plainPrints roundTrips held (fun _ _ => rfl)

theorem prints (roundTrips : RoundTrips toChars) (small : indentStep ≤ 1024) {js : Json} (held : Held js) :
    Prints toChars ensureAscii indentStep js := by
  induction held with
  | null => exact unfilledPrints roundTrips .null id
  | boolean => exact unfilledPrints roundTrips .boolean id
  | numberInteger low high => exact unfilledPrints roundTrips (.numberInteger low high) id
  | numberUnsigned high => exact unfilledPrints roundTrips (.numberUnsigned high) id
  | numberFloat finite => exact unfilledPrints roundTrips (.numberFloat finite) id
  | string formed => exact unfilledPrints roundTrips (.string formed) id
  | @array items _ ih =>
    intro currentIndent indentString room
    cases items with
    | nil => exact ⟨_,_,rfl,writesEmptyArray,room.blank,Nat.le_refl _⟩
    | cons js items =>
      obtain ⟨text,later,printed,blankLater,longer,all⟩ := itemsPrint ih (room.inner small) writesNoItems
      have longer := (lengthenedLonger indentString _).trans longer
      obtain ⟨front,indented,blank⟩ := (room.later blankLater longer).front
      refine ⟨91 :: 10 :: (text ++ 10 :: (front ++ [93])),later,?_,?_,blankLater,longer⟩
      · simp only [dumpPretty,List.isEmpty_cons,Bool.false_eq_true,if_false,bind,Except.bind,printed,indented]
      · rw [canonical]
        exact all front blank
  | @object members ascending formed _ ih =>
    intro currentIndent indentString room
    cases members with
    | nil => exact ⟨_,_,rfl,writesEmptyObject,room.blank,Nat.le_refl _⟩
    | cons m members =>
      obtain ⟨key,js⟩ := m
      have keys : Ascending ([] ++ canonicalMembers ((key,js) :: members)) := by
        rw [List.nil_append,Ascending,canonicalKeys]
        exact ascending
      obtain ⟨text,later,printed,blankLater,longer,all⟩ := membersPrint ih formed keys (room.inner small) writesNoMembers
      have longer := (lengthenedLonger indentString _).trans longer
      obtain ⟨front,indented,blank⟩ := (room.later blankLater longer).front
      refine ⟨123 :: 10 :: (text ++ 10 :: (front ++ [125])),later,?_,?_,blankLater,longer⟩
      · simp only [dumpPretty,List.isEmpty_cons,Bool.false_eq_true,if_false,bind,Except.bind,printed,indented]
      · rw [canonical]
        exact all front blank

end Printing

theorem wideIndentation {indentStep : Nat} (wide : 1024 < indentStep) (fits : indentStep < 4294967296) {indentChar : UInt8}
    {front : Text} (indented : indentation (lengthened (List.replicate 512 indentChar) (newIndent indentStep 0))
      (newIndent indentStep 0) = .ok front) :
    front = lengthened (List.replicate 512 indentChar) indentStep ++ [0] := by
  have inner : newIndent indentStep 0 = indentStep := by
    rw [newIndent,Nat.zero_add,Nat.mod_eq_of_lt fits]
  have length : (lengthened (List.replicate 512 indentChar) indentStep).length = 1024 := by
    rw [lengthenedLength,List.length_replicate,if_pos (by omega)]
  rw [inner,indentation] at indented
  split at indented
  · cases indented
    refine List.take_of_length_le ?_
    rw [List.length_append,length]
    exact wide
  · contradiction

theorem nulNoToken {token : Token} {tokens : List Token} {space more tail : Text} (blank : Space space) :
    ¬ Spelled (token :: tokens) (space ++ 0 :: more) tail := by
  intro spelled
  obtain ⟨_,_,_,printed,_⟩ := spelledFirst blank Lexer.nulNoSpace spelled
  exact absurd printed (by decide)

theorem rowOne {token : Token} {js : Json} (row : Row (.value js) [token]) : valueOf token = some js := by
  generalize whole : [token] = tokens at row
  cases row with
  | single one =>
    cases whole
    exact one
  | emptyArray | emptyObject => cases whole
  | array | object => simp at whole

theorem bracketOpens {b : UInt8} (opens : b = 91 ∨ b = 123) {js : Json} {tokens : List Token} (row : Row (.value js) tokens)
    {body tail : Text} (spelled : Spelled tokens (b :: body) tail) :
    ∃ token tokens', Spelled (token :: tokens') body tail := by
  have printed : ¬ IsSpace b := by
    unfold IsSpace
    rcases opens with rfl | rfl <;> decide
  obtain ⟨token,tokens,rfl,_⟩ := rowBegins row
  obtain ⟨left,later,rfl,_,lexeme,behind⟩ := spelledFirst noSpace printed spelled
  obtain ⟨rfl,noValue⟩ := bracketLexeme opens lexeme
  cases tokens with
  | nil => exact absurd (noValue.symm.trans (rowOne row)) nofun
  | cons next tokens => exact ⟨next,tokens,behind⟩

theorem nulNoDocument {b : UInt8} {space more : Text} {js : Json} (opens : b = 91 ∨ b = 123) (blank : Space space) :
    parse (b :: (space ++ 0 :: more)) ≠ .ok js := by
  intro parsed
  obtain ⟨mark,body,tokens,tail,whole,isMark,row,spelled,-⟩ := parseExact.mp parsed
  rcases isMark with rfl | rfl
  · rw [List.nil_append] at whole
    subst whole
    obtain ⟨token,tokens',later⟩ := bracketOpens opens row spelled
    exact nulNoToken blank later
  · obtain ⟨rfl,_⟩ := List.cons.inj whole
    exact absurd opens (by decide)

section Text
variable {toChars : Rat → Text} {ensureAscii : Bool}

theorem itemsFront {indentStep inner : Nat} {indentString text later : Text} {js : Json} {items : List Json}
    (printed : prettyItems toChars ensureAscii indentStep inner indentString (js :: items) = .ok (text,later)) :
    ∃ front more, indentation indentString inner = .ok front ∧ text = front ++ more := by
  cases items with
  | nil =>
    obtain ⟨front,indented,printed⟩ := bindOk.mp printed
    obtain ⟨_,_,printed⟩ := bindOk.mp printed
    cases printed
    exact ⟨front,_,indented,rfl⟩
  | cons next items =>
    obtain ⟨front,indented,printed⟩ := bindOk.mp printed
    obtain ⟨_,_,printed⟩ := bindOk.mp printed
    obtain ⟨_,_,printed⟩ := bindOk.mp printed
    cases printed
    exact ⟨front,_,indented,rfl⟩

theorem membersFront {indentStep inner : Nat} {indentString text later : Text} {m : Text × Json} {members : List (Text × Json)}
    (printed : prettyMembers toChars ensureAscii indentStep inner indentString (m :: members) = .ok (text,later)) :
    ∃ front more, indentation indentString inner = .ok front ∧ text = front ++ more := by
  obtain ⟨key,js⟩ := m
  cases members with
  | nil =>
    obtain ⟨front,indented,printed⟩ := bindOk.mp printed
    obtain ⟨_,_,printed⟩ := bindOk.mp printed
    obtain ⟨_,_,printed⟩ := bindOk.mp printed
    cases printed
    exact ⟨front,_,indented,rfl⟩
  | cons next members =>
    obtain ⟨front,indented,printed⟩ := bindOk.mp printed
    obtain ⟨_,_,printed⟩ := bindOk.mp printed
    obtain ⟨_,_,printed⟩ := bindOk.mp printed
    obtain ⟨_,_,printed⟩ := bindOk.mp printed
    cases printed
    exact ⟨front,_,indented,rfl⟩

theorem widePrints {js : Json} (filled : Filled js) {indentStep : Nat} (wide : 1024 < indentStep)
    (fits : indentStep < 4294967296) {indentChar : UInt8} {text later : Text}
    (printed : dumpPretty toChars ensureAscii indentStep 0 (List.replicate 512 indentChar) js = .ok (text,later)) :
    ∃ b more, (b = 91 ∨ b = 123) ∧ text = b :: 10 :: (lengthened (List.replicate 512 indentChar) indentStep ++ 0 :: more) := by
  cases js with
  | array items =>
    cases items with
    | nil => exact absurd rfl filled
    | cons js items =>
      obtain ⟨⟨inside,_⟩,printed',printed⟩ := bindOk.mp printed
      obtain ⟨closing,_,printed⟩ := bindOk.mp printed
      obtain ⟨front,more,indented,same⟩ := itemsFront printed'
      cases printed
      refine ⟨91,more ++ 10 :: (closing ++ [93]),.inl rfl,?_⟩
      rw [same,wideIndentation wide fits indented]
      simp only [List.append_assoc,List.cons_append,List.nil_append]
  | object members =>
    cases members with
    | nil => exact absurd rfl filled
    | cons m members =>
      obtain ⟨⟨inside,_⟩,printed',printed⟩ := bindOk.mp printed
      obtain ⟨closing,_,printed⟩ := bindOk.mp printed
      obtain ⟨front,more,indented,same⟩ := membersFront printed'
      cases printed
      refine ⟨123,more ++ 10 :: (closing ++ [125]),.inr rfl,?_⟩
      rw [same,wideIndentation wide fits indented]
      simp only [List.append_assoc,List.cons_append,List.nil_append]
  | _ => exact filled.elim

theorem startRoom (indentStep : Nat) {indentChar : UInt8} (blank : IsSpace indentChar) :
    Room indentStep 0 (List.replicate 512 indentChar) where
  blank := fun b member => by rwa [List.eq_of_mem_replicate member]
  start := List.length_replicate.ge
  current := Nat.zero_le _
  step := .inl rfl

/- What `dump(indent)` writes, `parse` reads, exactly where the indentation is 1024 at
most or there is nothing to indent: `indent_string` is doubled no more than once a level. -/
theorem dumpTextParses (roundTrips : RoundTrips toChars) {js : Json} (held : Held js) {indentChar : UInt8}
    (blank : IsSpace indentChar) {indent : Int} (isInt : indent ≤ intMax) :
    (∃ text, dumpText toChars indent indentChar ensureAscii js = .ok text ∧ parse text = .ok (canonical js)) ↔
      indent ≤ 1024 ∨ ¬ Filled js := by
  constructor
  · rintro ⟨text,dumped,parsed⟩
    by_contra outside
    obtain ⟨wide,filled⟩ := not_or.mp outside
    have filled := not_not.mp filled
    unfold intMax at isInt
    rw [dumpText,if_pos (by omega)] at dumped
    cases printed : dumpPretty toChars ensureAscii indent.toNat 0 (List.replicate 512 indentChar) js with
    | error failure =>
      rw [printed] at dumped
      cases dumped
    | ok result =>
      rw [printed] at dumped
      cases dumped
      obtain ⟨b,more,opens,same⟩ := widePrints filled (by omega) (by omega) printed
      rw [same] at parsed
      exact nulNoDocument opens (newlineBlank (lengthenedBlank (startRoom 0 blank).blank)) parsed
  · intro inside
    by_cases pretty : 0 ≤ indent
    · have printing : Prints toChars ensureAscii indent.toNat js := by
        rcases inside with small | empty
        · exact prints roundTrips (by omega) held
        · exact unfilledPrints roundTrips held empty
      obtain ⟨text,_,printed,writes,_⟩ := printing (startRoom _ blank)
      refine ⟨text,?_,writesParse writes⟩
      rw [dumpText,if_pos pretty,printed]
      rfl
    · obtain ⟨text,dumped,parsed⟩ := dumpParses roundTrips held
      refine ⟨text,?_,parsed⟩
      rw [dumpText,if_neg pretty,dumped]
      rfl

def sampleValue : Json :=
  object [([97],array [numberFloat (1 / 2),numberInteger 7,null]),([98],string [0xC3,0xA9])]

theorem sampleHeld : Held sampleValue := by
  have half : IsDouble (1 / 2) := ⟨1,-1,by norm_num,by norm_num,by norm_num,by
    rw [abs_of_pos (by norm_num)]
    exact (show (1 / 2 : Rat) < 1 by norm_num).trans_le (one_le_pow₀ (by norm_num))⟩
  have letter : Utf8.WellFormed [0xC3,0xA9] := ⟨[Char.ofNat 0xE9],by decide⟩
  refine .object (by unfold Ascending; decide) ?_ ?_
  · exact List.forall_mem_cons.mpr ⟨⟨['a'],by decide⟩,List.forall_mem_singleton.mpr ⟨['b'],by decide⟩⟩
  · refine List.forall_mem_cons.mpr ⟨.array ?_,List.forall_mem_singleton.mpr (.string letter)⟩
    exact List.forall_mem_cons.mpr ⟨.numberFloat half,List.forall_mem_cons.mpr
      ⟨.numberInteger (by decide) (by decide),List.forall_mem_singleton.mpr .null⟩⟩

theorem dumpTextParsesHere :
    (∃ text, dumpText (fun value => (plainNumeral value).text) 4 9 true sampleValue = .ok text ∧
      parse text = .ok (canonical sampleValue)) ∧
    ¬ ∃ text, dumpText (fun value => (plainNumeral value).text) 1025 9 true sampleValue = .ok text ∧
      parse text = .ok (canonical sampleValue) := by
  have tab : IsSpace 9 := .inr (.inl rfl)
  constructor
  · exact (dumpTextParses plainRoundTrips sampleHeld tab (by decide)).mpr (.inl (by decide))
  · intro reads
    rcases (dumpTextParses plainRoundTrips sampleHeld tab (by decide)).mp reads with small | empty
    · exact absurd small (by decide)
    · exact empty (List.cons_ne_nil _ _)

end Text

end Serializer
end SimpleChat.Json
