import SimpleChat.JsonReading

/-! Numerals: what the states behind the labels of `scan_number` have read, and
that `strtoull`, `strtoll` and `strtod` read a numeral's text back as its value. -/
namespace SimpleChat.Json.Lexer
open Grammar

variable {l l' : Lexer}

def numberRead (at_ : NumberState × NumberType) (b : UInt8) : Option (NumberState × NumberType) :=
  match numberStep at_.1 (some b) with
  | .goto next => some (next,at_.1.retype at_.2)
  | _ => none

def IsNumeric (b : UInt8) : Prop := isDigit b ∨ b = 46 ∨ b = 101 ∨ b = 69

theorem numberReadGoto {state next : NumberState} {type : NumberType} {b : UInt8}
    (step : numberStep state (some b) = .goto next) : numberRead (state,type) b = some (next,state.retype type) := by
  simp only [numberRead,step]

theorem numberReadStep {at_ at' : NumberState × NumberType} {b : UInt8} (read : numberRead at_ b = some at') :
    numberStep at_.1 (some b) = .goto at'.1 ∧ at'.2 = at_.1.retype at_.2 := by
  unfold numberRead at read
  split at read
  · rename_i step
    cases read
    exact ⟨step,rfl⟩
  · contradiction

theorem gotoSome {state next : NumberState} {current : Option UInt8} (step : numberStep state current = .goto next) :
    ∃ b, current = some b := by
  cases current with
  | some b => exact ⟨b,rfl⟩
  | none => cases state <;> simp [numberStep] at step

theorem numberLoopSound (settled : l.Settled) {count : Nat} {state : NumberState} {type : NumberType} {token : Token}
    (read : numberLoop count state type l = (token,l')) (good : token ≠ .parseError) :
    ∃ more state' type', more.foldlM numberRead (state,type) = some (state',type') ∧
      (∃ current, numberStep state' current = .done) ∧ token = numberToken (state'.retype type') (l.tokenBuffer ++ more) ∧
      Took l l' more more := by
  induction count generalizing l state type with
  | zero =>
    cases read
    contradiction
  | succ count ih =>
    rw [numberLoop] at read
    split at read
    · rename_i next step
      obtain ⟨b,current⟩ := gotoSome step
      rw [current,Option.getD_some] at read
      rw [current] at step
      obtain ⟨more,state',type',ran,done,rfl,took⟩ := ih (l := l.get.add b) getSettled read
      refine ⟨b :: more,state',type',?_,done,?_,((tookGet settled current).add b).trans took⟩
      · rw [List.foldlM_cons,numberReadGoto step]
        exact ran
      · rw [Lexer.add,List.append_assoc]
        rfl
    · rename_i step
      cases read
      exact ⟨[],state,type,rfl,⟨_,step⟩,by rw [List.append_nil,getBuffer],tookUnget settled⟩
    · cases read
      contradiction

theorem numberLoopComplete (settled : l.Settled) {more tail : Text} {at_ : NumberState × NumberType}
    {state : NumberState} {type : NumberType} (ran : more.foldlM numberRead at_ = some (state,type))
    (left : l.rest = more ++ tail) (done : numberStep state tail.head? = .done) (count : Nat) (enough : more.length < count) :
    ∃ l', numberLoop count at_.1 at_.2 l = (numberToken (state.retype type) (l.tokenBuffer ++ more),l') ∧ Took l l' more more := by
  induction more generalizing l at_ count with
  | nil =>
    obtain ⟨count,rfl⟩ := Nat.exists_eq_succ_of_ne_zero (Nat.ne_of_gt enough)
    cases ran
    refine ⟨l.get.unget,?_,tookUnget settled⟩
    rw [numberLoop,(getAnswers settled).1,left,List.nil_append,done,List.append_nil]
    rfl
  | cons b more ih =>
    obtain ⟨count,rfl⟩ := Nat.exists_eq_succ_of_ne_zero (Nat.ne_of_gt (Nat.zero_lt_of_lt enough))
    rw [List.foldlM_cons] at ran
    obtain ⟨at',first,ran⟩ := Option.bind_eq_some_iff.mp ran
    obtain ⟨step,same⟩ := numberReadStep first
    obtain ⟨current,left⟩ := (getSome settled).mp left
    obtain ⟨l',read,took⟩ := ih (l := l.get.add b) getSettled ran left count (Nat.lt_of_succ_lt_succ enough)
    refine ⟨l',?_,((tookGet settled current).add b).trans took⟩
    rw [numberLoop,current,step]
    dsimp only
    rw [Option.getD_some,← same,read,Lexer.add,List.append_assoc]
    rfl

def Whole (whole : Text) : Prop := Digits whole ∧ (whole.head? = some 48 → whole = [48])

/- What has been read behind a label. -/
inductive Partial : NumberState → Numeral → Prop
  | minus : Partial .minus ⟨true,[],none,none⟩
  | zero {negative : Bool} : Partial .zero ⟨negative,[48],none,none⟩
  | any1 {negative : Bool} {whole : Text} (digits : Digits whole) (noZero : whole.head? ≠ some 48) :
      Partial .any1 ⟨negative,whole,none,none⟩
  | decimal1 {negative : Bool} {whole : Text} (front : Whole whole) : Partial .decimal1 ⟨negative,whole,some [],none⟩
  | decimal2 {negative : Bool} {whole fraction : Text} (front : Whole whole) (digits : Digits fraction) :
      Partial .decimal2 ⟨negative,whole,some fraction,none⟩
  | exponent {negative : Bool} {whole : Text} {fraction : Option Text} {mark : UInt8} (front : Whole whole)
      (digits : ∀ f ∈ fraction, Digits f) (isMark : mark = 101 ∨ mark = 69) :
      Partial .exponent ⟨negative,whole,fraction,some ⟨mark,[],[]⟩⟩
  | sign {negative : Bool} {whole : Text} {fraction : Option Text} {mark sign : UInt8} (front : Whole whole)
      (digits : ∀ f ∈ fraction, Digits f) (isMark : mark = 101 ∨ mark = 69) (isSign : sign = 43 ∨ sign = 45) :
      Partial .sign ⟨negative,whole,fraction,some ⟨mark,[sign],[]⟩⟩
  | any2 {negative : Bool} {whole : Text} {fraction : Option Text} {power : Power} (front : Whole whole)
      (digits : ∀ f ∈ fraction, Digits f) (good : power.Good) : Partial .any2 ⟨negative,whole,fraction,some power⟩

def typeOf (n : Numeral) : NumberType :=
  if n.fraction.isSome ∨ n.power.isSome then .float else if n.negative then .integer else .unsigned

theorem digitsSnoc {text : Text} {b : UInt8} (digits : ∀ d ∈ text, isDigit d) (digit : isDigit b) : Digits (text ++ [b]) :=
  ⟨List.append_ne_nil_of_right_ne_nil _ (List.cons_ne_nil b []),by
    simp only [List.mem_append,List.mem_singleton]
    rintro d (member | rfl)
    · exact digits d member
    · exact digit⟩

theorem partialGood {state : NumberState} {n : Numeral} (partial_ : Partial state n)
    (done : ∃ current, numberStep state current = .done) : n.Good := by
  obtain ⟨current,done⟩ := done
  cases partial_ with
  | zero => exact ⟨⟨nofun,List.forall_mem_singleton.mpr (by decide)⟩,fun _ => rfl,nofun,nofun⟩
  | any1 digits noZero => exact ⟨digits,fun zero => absurd zero noZero,nofun,nofun⟩
  | decimal2 front digits => exact ⟨front.1,front.2,by simpa using digits,nofun⟩
  | any2 front digits good => exact ⟨front.1,front.2,digits,by simpa using good⟩
  | _ =>
    simp only [numberStep] at done
    split_ifs at done

theorem partialStep {state next : NumberState} {n : Numeral} {b : UInt8} {type : NumberType} (partial_ : Partial state n)
    (typed : state.retype type = typeOf n) (step : numberStep state (some b) = .goto next) :
    ∃ n', Partial next n' ∧ n'.text = n.text ++ [b] ∧ next.retype (state.retype type) = typeOf n' := by
  simp only [numberStep,Option.any_some,decide_eq_true_eq,Option.some.injEq] at step
  rw [typed]
  cases partial_ with
  | minus =>
    dsimp only at step
    split_ifs at step with zero digit
    · cases step
      exact ⟨⟨true,[48],none,none⟩,.zero,by simp [Numeral.text,Numeral.sign,Numeral.point,Numeral.scale,zero],rfl⟩
    · cases step
      exact ⟨⟨true,[b],none,none⟩,.any1 ⟨nofun,List.forall_mem_singleton.mpr digit⟩ (by simpa using zero),
        by simp [Numeral.text,Numeral.sign,Numeral.point,Numeral.scale],rfl⟩
  | @zero negative =>
    dsimp only at step
    have front : Whole [48] := ⟨⟨nofun,List.forall_mem_singleton.mpr (by decide)⟩,fun _ => rfl⟩
    split_ifs at step with point mark
    · cases step
      exact ⟨⟨negative,[48],some [],none⟩,.decimal1 front,
        by simp [Numeral.text,Numeral.sign,Numeral.point,Numeral.scale,point],rfl⟩
    · cases step
      exact ⟨⟨negative,[48],none,some ⟨b,[],[]⟩⟩,.exponent front nofun mark,
        by simp [Numeral.text,Numeral.sign,Numeral.point,Numeral.scale,Power.text],rfl⟩
  | @any1 negative whole digits noZero =>
    dsimp only at step
    have front : Whole whole := ⟨digits,fun zero => absurd zero noZero⟩
    split_ifs at step with digit point mark
    · cases step
      exact ⟨⟨negative,whole ++ [b],none,none⟩,.any1 (digitsSnoc digits.2 digit) (by
        cases whole with
        | nil => exact absurd rfl digits.1
        | cons d whole => exact noZero),
        by simp [Numeral.text,Numeral.sign,Numeral.point,Numeral.scale],rfl⟩
    · cases step
      exact ⟨⟨negative,whole,some [],none⟩,.decimal1 front,
        by simp [Numeral.text,Numeral.sign,Numeral.point,Numeral.scale,point],rfl⟩
    · cases step
      exact ⟨⟨negative,whole,none,some ⟨b,[],[]⟩⟩,.exponent front nofun mark,
        by simp [Numeral.text,Numeral.sign,Numeral.point,Numeral.scale,Power.text],rfl⟩
  | @decimal1 negative whole front =>
    dsimp only at step
    split_ifs at step with digit
    cases step
    exact ⟨⟨negative,whole,some [b],none⟩,.decimal2 front ⟨nofun,List.forall_mem_singleton.mpr digit⟩,
      by simp [Numeral.text,Numeral.sign,Numeral.point,Numeral.scale],rfl⟩
  | @decimal2 negative whole fraction front digits =>
    dsimp only at step
    split_ifs at step with digit mark
    · cases step
      exact ⟨⟨negative,whole,some (fraction ++ [b]),none⟩,.decimal2 front (digitsSnoc digits.2 digit),
        by simp [Numeral.text,Numeral.sign,Numeral.point,Numeral.scale],rfl⟩
    · cases step
      exact ⟨⟨negative,whole,some fraction,some ⟨b,[],[]⟩⟩,.exponent front (by simpa using digits) mark,
        by simp [Numeral.text,Numeral.sign,Numeral.point,Numeral.scale,Power.text],rfl⟩
  | @exponent negative whole fraction mark front digits isMark =>
    dsimp only at step
    split_ifs at step with sign digit
    · cases step
      exact ⟨⟨negative,whole,fraction,some ⟨mark,[b],[]⟩⟩,.sign front digits isMark sign,
        by simp [Numeral.text,Numeral.sign,Numeral.point,Numeral.scale,Power.text],by simp [NumberState.retype,typeOf]⟩
    · cases step
      exact ⟨⟨negative,whole,fraction,some ⟨mark,[],[b]⟩⟩,
        .any2 front digits ⟨isMark,.inl rfl,nofun,List.forall_mem_singleton.mpr digit⟩,
        by simp [Numeral.text,Numeral.sign,Numeral.point,Numeral.scale,Power.text],by simp [NumberState.retype,typeOf]⟩
  | @sign negative whole fraction mark sign front digits isMark isSign =>
    dsimp only at step
    split_ifs at step with digit
    cases step
    exact ⟨⟨negative,whole,fraction,some ⟨mark,[sign],[b]⟩⟩,
      .any2 front digits ⟨isMark,by simpa using isSign,nofun,List.forall_mem_singleton.mpr digit⟩,
      by simp [Numeral.text,Numeral.sign,Numeral.point,Numeral.scale,Power.text],by simp [NumberState.retype,typeOf]⟩
  | @any2 negative whole fraction power front digits good =>
    dsimp only at step
    split_ifs at step with digit
    cases step
    exact ⟨⟨negative,whole,fraction,some ⟨power.mark,power.sign,power.digits ++ [b]⟩⟩,
      .any2 front digits ⟨good.mark,good.sign,digitsSnoc good.digits.2 digit⟩,
      by simp [Numeral.text,Numeral.sign,Numeral.point,Numeral.scale,Power.text],by simp [NumberState.retype,typeOf]⟩

theorem partialRun {more : Text} {at_ : NumberState × NumberType} {state : NumberState} {type : NumberType} {n : Numeral}
    (ran : more.foldlM numberRead at_ = some (state,type)) (partial_ : Partial at_.1 n)
    (typed : at_.1.retype at_.2 = typeOf n) :
    ∃ n', Partial state n' ∧ n'.text = n.text ++ more ∧ state.retype type = typeOf n' := by
  induction more generalizing at_ n with
  | nil =>
    cases ran
    exact ⟨n,partial_,(List.append_nil _).symm,typed⟩
  | cons b more ih =>
    rw [List.foldlM_cons] at ran
    obtain ⟨at',first,ran⟩ := Option.bind_eq_some_iff.mp ran
    obtain ⟨step,same⟩ := numberReadStep first
    obtain ⟨n₁,partial₁,text,typed₁⟩ := partialStep partial_ typed step
    obtain ⟨n',partial',text',typed'⟩ := ih ran partial₁ (same ▸ typed₁)
    refine ⟨n',partial',?_,typed'⟩
    rw [text',text,List.append_assoc]
    rfl

def numberStart (b : UInt8) : NumberState := if b = 45 then .minus else if b = 48 then .zero else .any1
def wholeState (whole : Text) : NumberState := if whole = [48] then .zero else .any1

theorem digitsRun {digits : Text} {state : NumberState} {type : NumberType} (all : ∀ d ∈ digits, isDigit d)
    (loops : ∀ d, isDigit d → numberStep state (some d) = .goto state) (stays : state.retype type = type) :
    digits.foldlM numberRead (state,type) = some (state,type) := by
  induction digits with
  | nil => rfl
  | cons d digits ih =>
    obtain ⟨digit,all⟩ := List.forall_mem_cons.mp all
    rw [List.foldlM_cons,numberReadGoto (loops d digit),stays]
    exact ih all

theorem digitGoto {d : UInt8} (digit : isDigit d) :
    numberStep .any1 (some d) = .goto .any1 ∧ numberStep .decimal1 (some d) = .goto .decimal2 ∧
    numberStep .decimal2 (some d) = .goto .decimal2 ∧ numberStep .sign (some d) = .goto .any2 ∧
    numberStep .any2 (some d) = .goto .any2 := by
  simp [numberStep,digit]

theorem wholeRun {d : UInt8} {more : Text} {type : NumberType} (front : Whole (d :: more)) :
    more.foldlM numberRead (wholeState (d :: more),type) = some (wholeState (d :: more),type) := by
  unfold wholeState
  split
  · rename_i zero
    cases zero
    rfl
  · exact digitsRun (List.forall_mem_cons.mp front.1.2).2 (fun _ digit => (digitGoto digit).1) rfl

theorem wholeFirst {d : UInt8} {more : Text} (front : Whole (d :: more)) :
    numberStart d = wholeState (d :: more) ∧ numberStep .minus (some d) = .goto (wholeState (d :: more)) := by
  have digit : isDigit d := front.1.2 d List.mem_cons_self
  have noMinus : d ≠ 45 := by
    rintro rfl
    exact absurd digit (by decide)
  by_cases zero : d = 48
  · have only := front.2 (congrArg some zero)
    rw [only,wholeState,if_pos rfl,numberStart,if_neg noMinus,if_pos zero]
    exact ⟨rfl,by simp [numberStep,zero]⟩
  · have other : d :: more ≠ [48] := fun same => zero (List.cons.inj same).1
    rw [wholeState,if_neg other,numberStart,if_neg noMinus,if_neg zero]
    exact ⟨rfl,by simp [numberStep,zero,digit]⟩

theorem signRun {n : Numeral} (good : n.Good) : ∃ b more, n.sign ++ n.whole = b :: more ∧ (b = 45 ∨ isDigit b) ∧
    more.foldlM numberRead (numberStart b,.unsigned) =
      some (wholeState n.whole,if n.negative then .integer else .unsigned) := by
  have front : Whole n.whole := ⟨good.whole,good.noZero⟩
  cases whole : n.whole with
  | nil => exact absurd whole good.whole.1
  | cons d more =>
    rw [whole] at front
    obtain ⟨starts,afterMinus⟩ := wholeFirst front
    cases negative : n.negative with
    | false =>
      refine ⟨d,more,by rw [Numeral.sign,negative]; rfl,.inr (front.1.2 d List.mem_cons_self),?_⟩
      rw [starts]
      exact wholeRun front
    | true =>
      refine ⟨45,d :: more,by rw [Numeral.sign,negative]; rfl,.inl rfl,?_⟩
      have step : numberRead (numberStart 45,.unsigned) d = some (wholeState (d :: more),.integer) := numberReadGoto afterMinus
      rw [List.foldlM_cons,step]
      exact wholeRun front

theorem wholeStays (whole : Text) (type : NumberType) : (wholeState whole).retype type = type := by
  unfold wholeState
  split <;> rfl

theorem pointRun {n : Numeral} (good : n.Good) (type : NumberType) :
    n.point.foldlM numberRead (wholeState n.whole,type) =
      some (if n.fraction.isSome then (.decimal2,.float) else (wholeState n.whole,type)) := by
  cases fraction : n.fraction with
  | none =>
    rw [Numeral.point,fraction]
    rfl
  | some f =>
    obtain ⟨some_,all⟩ := good.fraction f fraction
    cases f with
    | nil => exact absurd rfl some_
    | cons d more =>
      obtain ⟨digit,all⟩ := List.forall_mem_cons.mp all
      have point : numberStep (wholeState n.whole) (some 46) = .goto .decimal1 := by
        unfold wholeState
        split <;> rfl
      rw [Numeral.point,fraction,Option.elim_some,List.foldlM_cons,numberReadGoto point,wholeStays]
      have step : numberRead (.decimal1,type) d = some (.decimal2,.float) := numberReadGoto (digitGoto digit).2.1
      change (numberRead (.decimal1,type) d >>= fun at_ => more.foldlM numberRead at_) = _
      rw [step]
      exact digitsRun all (fun _ digit => (digitGoto digit).2.2.1) rfl

theorem scaleRun {n : Numeral} (good : n.Good) {state : NumberState} {type : NumberType}
    (marks : ∀ b, b = 101 ∨ b = 69 → numberStep state (some b) = .goto .exponent) (stays : state.retype type = type) :
    n.scale.foldlM numberRead (state,type) = some (if n.power.isSome then (.any2,.float) else (state,type)) := by
  cases power : n.power with
  | none =>
    rw [Numeral.scale,power]
    rfl
  | some p =>
    obtain ⟨mark,sign,some_,all⟩ := good.power p power
    rw [Numeral.scale,power,Option.elim_some,Power.text,List.foldlM_cons,numberReadGoto (marks _ mark),stays]
    change (p.sign ++ p.digits).foldlM numberRead (.exponent,type) = some (.any2,.float)
    cases digits : p.digits with
    | nil => exact absurd digits some_
    | cons d more =>
      rw [digits] at all
      obtain ⟨digit,all⟩ := List.forall_mem_cons.mp all
      have rest := @digitsRun more .any2 .float all (fun _ digit => (digitGoto digit).2.2.2.2) rfl
      rcases sign with sign | sign | sign
      · have first : numberStep .exponent (some d) = .goto .any2 := by
          have noSign : ¬ (d = 43 ∨ d = 45) := by
            rintro (rfl | rfl) <;> exact absurd digit (by decide)
          simp [numberStep,digit,noSign]
        rw [sign,List.nil_append,List.foldlM_cons,numberReadGoto first]
        exact rest
      all_goals
        rw [sign,List.cons_append,List.nil_append,List.foldlM_cons,@numberReadGoto .exponent .sign _ _ rfl]
        change (numberRead (.sign,.float) d >>= fun at_ => more.foldlM numberRead at_) = _
        rw [numberReadGoto (digitGoto digit).2.2.2.1]
        exact rest

def final (n : Numeral) : NumberState :=
  if n.power.isSome then .any2 else if n.fraction.isSome then .decimal2 else wholeState n.whole

theorem finalStays (n : Numeral) (type : NumberType) : (final n).retype type = type := by
  unfold final
  split
  · rfl
  · split
    · rfl
    · exact wholeStays n.whole type

theorem finalDone (n : Numeral) {current : Option UInt8} (stops : ∀ c ∈ current, ¬ IsNumeric c) :
    numberStep (final n) current = .done := by
  cases current with
  | none =>
    unfold final wholeState
    split_ifs <;> rfl
  | some c =>
    have other := stops c rfl
    simp only [IsNumeric,not_or] at other
    unfold final wholeState
    split_ifs <;> simp [numberStep,other]

theorem tailRun {n : Numeral} (good : n.Good) :
    (n.point ++ n.scale).foldlM numberRead (wholeState n.whole,if n.negative then .integer else .unsigned) =
      some (final n,typeOf n) := by
  have marks (b : UInt8) (mark : b = 101 ∨ b = 69) : numberStep (wholeState n.whole) (some b) = .goto .exponent ∧
      numberStep .decimal2 (some b) = .goto .exponent := by
    unfold wholeState
    rcases mark with rfl | rfl <;> split <;> exact ⟨rfl,rfl⟩
  rw [List.foldlM_append,pointRun good,final,typeOf]
  cases n.fraction with
  | none =>
    refine (scaleRun good (fun b mark => (marks b mark).1) (wholeStays n.whole _)).trans ?_
    cases n.power <;> rfl
  | some f =>
    refine (scaleRun good (fun b mark => (marks b mark).2) rfl).trans ?_
    cases n.power <;> rfl

theorem numeralRun {n : Numeral} (good : n.Good) : ∃ b more, n.text = b :: more ∧ (b = 45 ∨ isDigit b) ∧
    more.foldlM numberRead (numberStart b,.unsigned) = some (final n,typeOf n) := by
  obtain ⟨b,more,front,first,ran⟩ := signRun good
  refine ⟨b,more ++ (n.point ++ n.scale),?_,first,?_⟩
  · rw [Numeral.text,front,List.append_assoc,List.cons_append]
  · rw [List.foldlM_append,ran]
    exact tailRun good

theorem digitsPrefix {front tail : Text} (all : ∀ d ∈ front, isDigit d) (stops : ∀ b ∈ tail.head?, ¬ isDigit b) :
    digits (front ++ tail) = front := by
  rw [digits,List.takeWhile_append_of_pos (by simpa using all)]
  cases tail with
  | nil => exact List.append_nil _
  | cons b tail =>
    rw [List.takeWhile_cons_of_neg (by simpa using stops b rfl),List.append_nil]

theorem digitsAll {text : Text} (all : ∀ d ∈ text, isDigit d) : digits text = text := by
  have prefix_ := @digitsPrefix text [] all nofun
  rwa [List.append_nil] at prefix_

theorem scaleHead {n : Numeral} (good : n.Good) : ∀ b ∈ n.scale.head?, b = 101 ∨ b = 69 := by
  intro b head
  cases power : n.power with
  | none =>
    rw [Numeral.scale,power] at head
    cases head
  | some p =>
    rw [Numeral.scale,power] at head
    cases head
    exact (good.power p power).mark

theorem markNoDigit {b : UInt8} (mark : b = 101 ∨ b = 69) : ¬ isDigit b ∧ b ≠ 46 := by
  rcases mark with rfl | rfl <;> decide

theorem signHead {n : Numeral} (good : n.Good) : n.text.head? = some 45 ↔ n.negative = true := by
  cases whole : n.whole with
  | nil => exact absurd whole good.whole.1
  | cons d more =>
    have noMinus : d ≠ 45 := by
      rintro rfl
      exact absurd (good.whole.2 45 (whole ▸ List.mem_cons_self)) (by decide)
    cases negative : n.negative <;> simp [Numeral.text,Numeral.sign,negative,whole,noMinus]

theorem exponentText {p : Power} (good : p.Good) : exponentOf (p.sign ++ p.digits) = p.value := by
  obtain ⟨_,sign,some_,all⟩ := good
  have back := digitsAll all
  rcases sign with sign | sign | sign
  · cases digits : p.digits with
    | nil => exact absurd digits some_
    | cons d more =>
      have noSign : d ≠ 43 ∧ d ≠ 45 := by
        have digit := all d (digits ▸ List.mem_cons_self)
        constructor <;> rintro rfl <;> exact absurd digit (by decide)
      rw [digits] at back
      rw [sign,List.nil_append,Power.value,sign,digits,if_neg nofun,exponentOf.eq_3 _ (by simpa using noSign.1)
        (by simpa using noSign.2),back]
  · rw [sign,Power.value,sign,if_neg (by decide)]
    exact congrArg (fun text => (numberOf text : Int)) back
  · rw [sign,Power.value,sign,if_pos rfl]
    exact congrArg (fun text => -(numberOf text : Int)) back

theorem signText {n : Numeral} (good : n.Good) : decide (n.text.head? = some 45) = n.negative ∧
    (if n.negative = true then n.text.tail else n.text) = n.whole ++ (n.point ++ n.scale) := by
  constructor
  · rw [Bool.eq_iff_iff,decide_eq_true_eq]
    exact signHead good
  · cases negative : n.negative <;> simp [Numeral.text,Numeral.sign,negative]

theorem pointHead {n : Numeral} (good : n.Good) : ∀ b ∈ (n.point ++ n.scale).head?, ¬ isDigit b := by
  intro b head
  cases fraction : n.fraction with
  | none =>
    rw [Numeral.point,fraction] at head
    exact (markNoDigit (scaleHead good b head)).1
  | some f =>
    rw [Numeral.point,fraction] at head
    cases head
    decide

theorem pointText {n : Numeral} (good : n.Good) :
    (if (n.point ++ n.scale).head? = some 46 then digits (n.point ++ n.scale).tail else []) = n.fraction.getD [] ∧
    (if (n.point ++ n.scale).head? = some 46 then (n.point ++ n.scale).drop ((n.fraction.getD []).length + 1)
      else n.point ++ n.scale) = n.scale := by
  cases fraction : n.fraction with
  | none =>
    have noPoint : ¬ n.scale.head? = some 46 := fun head => (markNoDigit (scaleHead good 46 head)).2 rfl
    rw [Numeral.point,fraction,Option.elim_none,List.nil_append,if_neg noPoint,if_neg noPoint]
    exact ⟨rfl,rfl⟩
  | some f =>
    have back := digitsPrefix (good.fraction f fraction).2 (fun b head => (markNoDigit (scaleHead good b head)).1)
    rw [Numeral.point,fraction,Option.elim_some,List.cons_append,List.head?_cons,if_pos rfl,if_pos rfl]
    exact ⟨back,by rw [Option.getD_some,List.drop_succ_cons,List.drop_left]⟩

theorem scaleText {n : Numeral} (good : n.Good) :
    (if n.scale.head? = some 101 ∨ n.scale.head? = some 69 then exponentOf n.scale.tail else 0) =
      n.power.elim 0 Power.value := by
  cases power : n.power with
  | none =>
    rw [Numeral.scale,power]
    rfl
  | some p =>
    have isGood := good.power p power
    rw [Numeral.scale,power,Option.elim_some,Power.text,if_pos (by simpa using isGood.mark)]
    exact exponentText isGood

theorem strtodText {n : Numeral} (good : n.Good) : Token.valueFloat (strtod n.text) = n.double := by
  have whole := digitsPrefix good.whole.2 (pointHead good)
  unfold strtod
  simp only [(signText good).1,(signText good).2,whole,List.drop_left,(pointText good).1,(pointText good).2,scaleText good]
  rfl

theorem plainText {n : Numeral} (fraction : n.fraction = none) (power : n.power = none) : n.text = n.sign ++ n.whole := by
  rw [Numeral.text,Numeral.point,Numeral.scale,fraction,power,Option.elim_none,Option.elim_none,List.append_nil,
    List.append_nil]

theorem strtoullText {n : Numeral} (good : n.Good) (fraction : n.fraction = none) (power : n.power = none)
    (positive : n.negative = false) :
    strtoull n.text = if numberOf n.whole < 2 ^ 64 then some (numberOf n.whole) else none := by
  have text : n.text = n.whole := by rw [plainText fraction power,Numeral.sign,positive]; rfl
  simp only [strtoull,text,digitsAll good.whole.2]

theorem strtollText {n : Numeral} (good : n.Good) (fraction : n.fraction = none) (power : n.power = none)
    (negative : n.negative = true) :
    strtoll n.text = if numberOf n.whole ≤ 2 ^ 63 then some (-(numberOf n.whole : Int)) else none := by
  have text : n.text = 45 :: n.whole := by rw [plainText fraction power,Numeral.sign,negative]; rfl
  simp only [strtoll,text,List.head?_cons,if_pos,List.tail_cons,digitsAll good.whole.2]
  by_cases fits : numberOf n.whole ≤ 2 ^ 63
  · rw [if_pos fits,if_pos (by omega)]
  · rw [if_neg fits,if_neg (by omega)]

theorem tokenText {n : Numeral} (good : n.Good) : numberToken (typeOf n) n.text = n.token := by
  have double := strtodText good
  cases fraction : n.fraction with
  | some f =>
    have type : typeOf n = .float := by simp [typeOf,fraction]
    have token : n.token = n.double := by simp only [Numeral.token,fraction]
    rw [type,token]
    exact double
  | none =>
    cases power : n.power with
    | some p =>
      have type : typeOf n = .float := by simp [typeOf,power]
      have token : n.token = n.double := by simp only [Numeral.token,fraction,power]
      rw [type,token]
      exact double
    | none =>
      cases negative : n.negative with
      | false =>
        have type : typeOf n = .unsigned := by simp [typeOf,fraction,power,negative]
        rw [type,numberToken,strtoullText good fraction power negative,Numeral.token]
        simp only [fraction,power,negative]
        by_cases fits : numberOf n.whole < 2 ^ 64
        · rw [if_pos fits,if_pos fits]
        · rw [if_neg fits,if_neg fits]
          exact double
      | true =>
        have type : typeOf n = .integer := by simp [typeOf,fraction,power,negative]
        rw [type,numberToken,strtollText good fraction power negative,Numeral.token]
        simp only [fraction,power,negative]
        by_cases fits : numberOf n.whole ≤ 2 ^ 63
        · rw [if_pos fits,if_pos fits]
        · rw [if_neg fits,if_neg fits]
          exact double

theorem startPartial {b : UInt8} (first : b = 45 ∨ isDigit b) : ∃ n, Partial (numberStart b) n ∧ n.text = [b] ∧
    (numberStart b).retype .unsigned = typeOf n := by
  unfold numberStart
  split
  · rename_i minus
    exact ⟨⟨true,[],none,none⟩,.minus,by rw [minus]; rfl,rfl⟩
  · rename_i noMinus
    split
    · rename_i zero
      exact ⟨⟨false,[48],none,none⟩,.zero,by rw [zero]; rfl,rfl⟩
    · rename_i noZero
      exact ⟨⟨false,[b],none,none⟩,.any1 ⟨nofun,List.forall_mem_singleton.mpr (first.resolve_left noMinus)⟩
        (by simpa using noZero),by simp [Numeral.text,Numeral.sign,Numeral.point,Numeral.scale],rfl⟩

section Scan
variable {b : UInt8} (first : b = 45 ∨ isDigit b) (current : l.current = some b)

include current in
theorem scanNumberLoop : l.scanNumber = numberLoop (l.ia.length + 2) (numberStart b) .unsigned (l.reset.add b) := by
  simp only [scanNumber,current,Option.getD_some,Option.some.injEq,numberStart]

include first current in
theorem numberSound (fresh : l.nextUnget = false) {token : Token} (read : l.scanNumber = (token,l'))
    (good : token ≠ .parseError) : ∃ n more, Numeral.Good n ∧ n.text = b :: more ∧ token = n.token ∧
      l.rest = more ++ l'.rest ∧ l'.position.charsReadTotal = l.position.charsReadTotal + more.length ∧ l'.Settled := by
  rw [scanNumberLoop current] at read
  obtain ⟨more,state,type,ran,done,same,took⟩ := numberLoopSound (l := l.reset.add b) (freshSettled fresh) read good
  obtain ⟨n₀,start,one,typed⟩ := startPartial first
  obtain ⟨n,partial_,text,typed⟩ := partialRun ran start typed
  have isGood := partialGood partial_ done
  rw [one] at text
  refine ⟨n,more,isGood,text,?_,took.rest,took.total,took.settled⟩
  rw [same,typed,← tokenText isGood,text]
  rfl

include current in
theorem numberComplete (fresh : l.nextUnget = false) {n : Numeral} (good : n.Good) {more tail : Text}
    (text : n.text = b :: more) (left : l.rest = more ++ tail) (stops : ∀ c ∈ tail.head?, ¬ IsNumeric c) :
    ∃ l', l.scanNumber = (n.token,l') ∧ l'.rest = tail ∧
      l'.position.charsReadTotal = l.position.charsReadTotal + more.length ∧ l'.Settled := by
  obtain ⟨b',more',text',_,ran⟩ := numeralRun good
  cases text.symm.trans text'
  have whole : l.rest = l.ia := by rw [rest,fresh]; rfl
  obtain ⟨l',read,took⟩ := numberLoopComplete (l := l.reset.add b) (freshSettled fresh) ran left (finalDone n stops)
    (l.ia.length + 2) (by
      rw [← whole,left,List.length_append]
      omega)
  refine ⟨l',?_,took.tail left,took.total,took.settled⟩
  rw [scanNumberLoop current,read,finalStays,← tokenText good,text]
  rfl

end Scan
end SimpleChat.Json.Lexer
