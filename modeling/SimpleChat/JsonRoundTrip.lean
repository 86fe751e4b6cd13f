import Mathlib.Data.Nat.Prime.Basic
import SimpleChat.JsonEscaping
import SimpleChat.JsonSpace
import SimpleChat.JsonValues

/-! What `dump` writes, `parse` reads: the same value, but for an integer that is
not negative, which comes back as an unsigned one. -/
namespace SimpleChat.Json
open Grammar Basis
open Serializer (dump dumpItems dumpMembers dumpInteger fillDigits digitsTo99 countDigits quoted)

section Digits

theorem digitByte : ∀ d < 10, UInt8.ofNat (Nat.digitChar d).toNat = UInt8.ofNat (48 + d) := by decide

theorem decimalOne {n : Nat} (small : n < 10) : decimal n = [UInt8.ofNat (48 + n)] := by
  rw [decimalChars,Nat.toDigits_of_lt_base small,List.map_singleton,digitByte n small]

theorem decimalMore {n : Nat} (large : 10 ≤ n) : decimal n = decimal (n / 10) ++ [UInt8.ofNat (48 + n % 10)] := by
  rw [decimalChars,Nat.toDigits_eq_if (by decide),if_neg (by omega),List.map_append,List.map_singleton,
    digitByte _ (Nat.mod_lt n (by decide)),decimalChars]

theorem decimalTwo {n : Nat} (large : 100 ≤ n) : decimal n = decimal (n / 100) ++ digitsTo99 (n % 100) := by
  rw [decimalMore (by omega),decimalMore (by omega),Nat.div_div_eq_div_mul,List.append_assoc,digitsTo99,
    show n / 10 % 10 = n % 100 / 10 by omega,show n % 10 = n % 100 % 10 by omega]
  rfl

theorem fillDecimal (n : Nat) : fillDigits n = decimal n := by
  induction n using Serializer.fillDigits.induct with
  | case1 n large ih => rw [fillDigits,if_pos large,ih,decimalTwo large]
  | case2 n small two =>
    rw [fillDigits,if_neg small,if_pos two,decimalMore two,decimalOne (by omega),digitsTo99]
    rfl
  | case3 n _ small => rw [fillDigits,if_neg (by omega),if_neg small,decimalOne (by omega)]

theorem lengthMore {n : Nat} (large : 10 ≤ n) : (decimal n).length = (decimal (n / 10)).length + 1 := by
  rw [decimalMore large,List.length_append,List.length_singleton]

theorem countFilled (n : Nat) : countDigits n = (fillDigits n).length := by
  rw [fillDecimal]
  have one {n : Nat} (small : n < 10) : (decimal n).length = 1 := by rw [decimalOne small,List.length_singleton]
  induction n using Serializer.countDigits.induct with
  | case1 n small => rw [countDigits,if_pos small,one small]
  | case2 n large small => rw [countDigits,if_neg large,if_pos small,lengthMore (by omega),one (by omega)]
  | case3 n _ large small =>
    rw [countDigits,if_neg (by omega),if_neg large,if_pos small,lengthMore (by omega),lengthMore (by omega),one (by omega)]
  | case4 n _ _ large small =>
    rw [countDigits,if_neg (by omega),if_neg (by omega),if_neg large,if_pos small,lengthMore (by omega),
      lengthMore (by omega),lengthMore (by omega),one (by omega)]
  | case5 n _ _ _ large ih =>
    have fourth : n / 10 / 10 / 10 / 10 = n / 10000 := by omega
    rw [countDigits,if_neg (by omega),if_neg (by omega),if_neg (by omega),if_neg large,ih,lengthMore (show 10 ≤ n by omega),
      lengthMore (show 10 ≤ n / 10 by omega),lengthMore (show 10 ≤ n / 10 / 10 by omega),
      lengthMore (show 10 ≤ n / 10 / 10 / 10 by omega),fourth]

theorem decimalSome (n : Nat) : decimal n ≠ [] := by
  by_cases small : n < 10
  · rw [decimalOne small]
    exact List.cons_ne_nil _ _
  · rw [decimalMore (by omega)]
    exact List.append_ne_nil_of_right_ne_nil _ (List.cons_ne_nil _ _)

theorem decimalZero {n : Nat} (zero : (decimal n).head? = some 48) : n = 0 := by
  induction n using Nat.strongRecOn with
  | ind n ih =>
    by_cases small : n < 10
    · rw [decimalOne small,List.head?_cons,Option.some.injEq] at zero
      have value := congrArg UInt8.toNat zero
      simp only [UInt8.toNat_ofNat',UInt8.reduceToNat] at value
      omega
    · rw [decimalMore (by omega),List.head?_append_of_ne_nil _ (decimalSome _)] at zero
      have := ih (n / 10) (by omega) zero
      omega

theorem decimalDigits (n : Nat) : Digits (decimal n) := ⟨decimalSome n,fun _ => decimalDigit⟩

def integral (negative : Bool) (n : Nat) : Numeral := ⟨negative,decimal n,none,none⟩

theorem integralGood (negative : Bool) (n : Nat) : (integral negative n).Good where
  whole := decimalDigits n
  noZero := fun zero => by
    cases decimalZero zero
    rfl
  fraction := nofun
  power := nofun

end Digits

section Canonical

mutual

def canonical : Json → Json
  | numberInteger value => if 0 ≤ value then numberUnsigned value.toNat else numberInteger value
  | array items => array (canonicalItems items)
  | object members => object (canonicalMembers members)
  | js => js

def canonicalItems : List Json → List Json
  | [] => []
  | js :: items => canonical js :: canonicalItems items

def canonicalMembers : List (Text × Json) → List (Text × Json)
  | [] => []
  | (key,js) :: members => (key,canonical js) :: canonicalMembers members

end

theorem canonicalKeys (members : List (Text × Json)) : (canonicalMembers members).map Prod.fst = members.map Prod.fst := by
  induction members with
  | nil => rfl
  | cons m members ih =>
    obtain ⟨key,js⟩ := m
    rw [canonicalMembers,List.map_cons,List.map_cons,ih]

end Canonical

theorem assignLast {key : Text} {value : Json} {members : List (Text × Json)} (last : ∀ m ∈ members, m.1 < key) :
    assign key value members = members ++ [(key,value)] := by
  induction members with
  | nil => rfl
  | cons m members ih =>
    obtain ⟨k,v⟩ := m
    have before : k < key := last _ List.mem_cons_self
    rw [assign,if_neg (fun same => List.lt_irrefl _ (same ▸ before)),if_neg (fun after => List.lt_asymm after before),
      ih (fun m member => last m (List.mem_cons_of_mem _ member)),List.cons_append]

section Writing

/- A text that spells a row wherever it stands. -/
def Writes (part : Part) (text : Text) : Prop :=
  ∃ tokens, Row part tokens ∧ ∀ rest, Spelled tokens (text ++ rest) rest

theorem spelledAppend {tokens tokens' : List Token} {text rest tail : Text} (first : Spelled tokens text rest)
    (second : Spelled tokens' rest tail) : Spelled (tokens ++ tokens') text tail := by
  induction first with
  | nil => exact second
  | cons blank lexeme _ ih => exact .cons blank lexeme (ih second)

theorem spelledOne {token : Token} {text : Text} (lexeme : Lexeme token text) (rest : Text) :
    Spelled [token] (text ++ rest) rest := by
  exact .cons noSpace lexeme .nil

theorem fixedOne (token : Token) {text : Text} (spelled : fixedText token = some text) (rest : Text) :
    Spelled [token] (text ++ rest) rest := spelledOne (.fixed spelled) rest

theorem writesOne {token : Token} {js : Json} {text : Text} (lexeme : Lexeme token text) (one : valueOf token = some js) :
    Writes (.value js) text := ⟨[token],.single one,spelledOne lexeme⟩

theorem writesFixed (token : Token) {js : Json} {text : Text} (spelled : fixedText token = some text)
    (one : valueOf token = some js) : Writes (.value js) text := writesOne (.fixed spelled) one

theorem fixedSpace (token : Token) {space text : Text} (spelled : fixedText token = some text) (blank : Space space)
    (rest : Text) : Spelled [token] (space ++ (text ++ rest)) rest :=
  spelledSpace (List.cons_ne_nil _ _) blank (fixedOne token spelled rest)

theorem writesEmptyArray : Writes (.value (array [])) [91,93] :=
  ⟨_,.emptyArray,fun rest => spelledAppend (fixedOne .beginArray rfl _) (fixedOne .endArray rfl rest)⟩

theorem writesEmptyObject : Writes (.value (object [])) [123,125] :=
  ⟨_,.emptyObject,fun rest => spelledAppend (fixedOne .beginObject rfl _) (fixedOne .endObject rfl rest)⟩

theorem writesNoItems : Writes (.items []) [] := ⟨[],.noItems,fun _ => .nil⟩
theorem writesNoMembers : Writes (.members []) [] := ⟨[],.noMembers,fun _ => .nil⟩

section Containers
variable {space space' space'' text₀ name text : Text} {key : Text} {js : Json}

theorem writesItem {before : List Json} (written : Writes (.items before) text₀) (blank : Space space)
    (next : Writes (.value js) text) : Writes (.items (before ++ [js])) (text₀ ++ (space ++ (text ++ [44]))) := by
  obtain ⟨tokens₀,row₀,spelled₀⟩ := written
  obtain ⟨tokens,row,spelled⟩ := next
  refine ⟨_,.item row₀ row,fun rest => ?_⟩
  simp only [List.append_assoc]
  exact spelledAppend (spelled₀ _) (spelledAppend (spelledSpace (rowSome row) blank (spelled _))
    (fixedOne .valueSeparator rfl rest))

theorem writesArray {before : List Json} (written : Writes (.items before) text₀) (blank : Space space)
    (last : Writes (.value js) text) (blank' : Space space') :
    Writes (.value (array (before ++ [js]))) (91 :: (text₀ ++ (space ++ (text ++ (space' ++ [93]))))) := by
  obtain ⟨tokens₀,row₀,spelled₀⟩ := written
  obtain ⟨tokens,row,spelled⟩ := last
  refine ⟨_,.array row₀ row,fun rest => ?_⟩
  simp only [List.cons_append,List.append_assoc]
  exact spelledAppend (fixedOne .beginArray rfl _) (spelledAppend (spelled₀ _)
    (spelledAppend (spelledSpace (rowSome row) blank (spelled _)) (fixedSpace .endArray rfl blank' rest)))

theorem memberSpelled {tokens : List Token} (named : Lexeme (.valueString key) name) (row : Row (.value js) tokens)
    (spelled : ∀ rest, Spelled tokens (text ++ rest) rest) (blank : Space space) (blank' : Space space') (rest : Text) :
    Spelled (.valueString key :: .nameSeparator :: tokens) (space ++ (name ++ 58 :: (space' ++ (text ++ rest)))) rest :=
  spelledAppend (spelledSpace (List.cons_ne_nil _ _) blank (spelledOne named _))
    (spelledAppend (fixedOne .nameSeparator rfl _) (spelledSpace (rowSome row) blank' (spelled rest)))

theorem writesMember {before : List (Text × Json)} (written : Writes (.members before) text₀) (blank : Space space)
    (named : Lexeme (.valueString key) name) (blank' : Space space') (next : Writes (.value js) text) :
    Writes (.members (assign key js before)) (text₀ ++ (space ++ (name ++ 58 :: (space' ++ (text ++ [44]))))) := by
  obtain ⟨tokens₀,row₀,spelled₀⟩ := written
  obtain ⟨tokens,row,spelled⟩ := next
  refine ⟨_,.member row₀ row,fun rest => ?_⟩
  simp only [List.append_assoc,List.cons_append]
  exact spelledAppend (spelled₀ _) (spelledAppend (memberSpelled named row spelled blank blank' _)
    (fixedOne .valueSeparator rfl rest))

theorem writesObject {before : List (Text × Json)} (written : Writes (.members before) text₀) (blank : Space space)
    (named : Lexeme (.valueString key) name) (blank' : Space space') (last : Writes (.value js) text)
    (blank'' : Space space'') : Writes (.value (object (assign key js before)))
      (123 :: (text₀ ++ (space ++ (name ++ 58 :: (space' ++ (text ++ (space'' ++ [125]))))))) := by
  obtain ⟨tokens₀,row₀,spelled₀⟩ := written
  obtain ⟨tokens,row,spelled⟩ := last
  refine ⟨_,.object row₀ row,fun rest => ?_⟩
  simp only [List.cons_append,List.append_assoc]
  exact spelledAppend (fixedOne .beginObject rfl _) (spelledAppend (spelled₀ _)
    (spelledAppend (memberSpelled named row spelled blank blank' _) (fixedSpace .endObject rfl blank'' rest)))

end Containers

theorem writesNumeral {n : Numeral} (good : n.Good) {js : Json} (one : valueOf n.token = some js) :
    Writes (.value js) n.text := writesOne (.number good) one

theorem writesUnsigned {n : Nat} (fits : n < 2 ^ 64) : Writes (.value (numberUnsigned n)) (decimal n) := by
  have text : (integral false n).text = decimal n := by
    simp [Numeral.text,Numeral.sign,Numeral.point,Numeral.scale,integral]
  refine text ▸ writesNumeral (integralGood false n) ?_
  simp only [Numeral.token,integral,numberDecimal,if_pos fits]
  rfl

theorem writesNegative {n : Nat} (fits : n ≤ 2 ^ 63) : Writes (.value (numberInteger (-n))) (45 :: decimal n) := by
  have text : (integral true n).text = 45 :: decimal n := by
    simp [Numeral.text,Numeral.sign,Numeral.point,Numeral.scale,integral]
  refine text ▸ writesNumeral (integralGood true n) ?_
  simp only [Numeral.token,integral,numberDecimal,if_pos fits]
  rfl

theorem dumpUnsigned (n : Nat) : dumpInteger n = decimal n := by
  unfold dumpInteger
  split
  · rename_i zero
    rw [Int.natCast_eq_zero.mp zero]
    rfl
  · rw [if_neg (by omega),Int.natAbs_natCast,fillDecimal]

theorem writesInteger {value : Int} (low : -2 ^ 63 ≤ value) (high : value < 2 ^ 63) :
    Writes (.value (canonical (numberInteger value))) (dumpInteger value) := by
  rw [canonical]
  by_cases negative : value < 0
  · rw [if_neg (by omega),dumpInteger,if_neg (by omega),if_pos negative,fillDecimal]
    have same : value = -(value.natAbs : Int) := by omega
    conv => arg 1; rw [same]
    exact writesNegative (by omega)
  · rw [if_pos (by omega)]
    have same : value = (value.toNat : Int) := by omega
    rw [same,dumpUnsigned,Int.toNat_natCast]
    exact writesUnsigned (by omega)

theorem quotedWrites (ensureAscii : Bool) {value : Text} (formed : Utf8.WellFormed value) :
    ∃ text, quoted ensureAscii value = .ok text ∧ Lexeme (.valueString value) text := by
  obtain ⟨chars,rfl⟩ := formed
  refine ⟨_,?_,.string (Serializer.escapePieces ensureAscii chars)⟩
  rw [quoted,show chars.flatMap String.utf8EncodeChar = utf8 chars from rfl,Serializer.dumpCharacters]
  rfl

end Writing

/- The shortest text of a float, or any other that the parser reads back. -/
def RoundTrips (toChars : Rat → Text) : Prop :=
  ∀ value, IsDouble value → ∃ n : Numeral, n.Good ∧ (n.fraction.isSome ∨ n.power.isSome) ∧ n.text = toChars value ∧
    Lexer.nearestDouble n.value = some value

section Plain
open Log (padded)

theorem nearestExact {value : Rat} (double : IsDouble value) : Lexer.nearestDouble value = some value := by
  obtain ⟨whole,least,bound,low,same,finite⟩ := double
  unfold Lexer.nearestDouble
  split
  · rename_i zero
    rw [zero]
  rename_i nonzero
  have positive : 0 < |value| := abs_pos.mpr nonzero
  have two (k : Int) : (0 : Rat) < 2 ^ k := zpow_pos (by norm_num) k
  have size : |value| = |whole| * (2 : Rat) ^ least := by
    rw [same,abs_mul,abs_of_pos (two least),Int.cast_abs]
  have inside : Int.log 2 |value| - 52 ≤ least := by
    by_contra outside
    have logLow : (2 : Rat) ^ Int.log 2 |value| ≤ |value| := Int.zpow_log_le_self (by decide) positive
    have large : (2 : Rat) ^ (least + 53) ≤ |value| := (zpow_le_zpow_right₀ (by norm_num) (by omega)).trans logLow
    have small : |value| < (2 : Rat) ^ (least + 53) := by
      rw [size,zpow_add₀ (by norm_num),mul_comm]
      exact mul_lt_mul_of_pos_left (by exact_mod_cast bound) (two least)
    exact absurd (large.trans_lt small) (lt_irrefl _)
  have fits : max (Int.log 2 |value| - 52) (-1074) ≤ least := max_le inside low
  dsimp only
  generalize max (Int.log 2 |value| - 52) (-1074) = exponent at fits
  obtain ⟨more,rfl⟩ := Int.le.dest fits
  have scaled : |value| / 2 ^ exponent = ((|whole| * 2 ^ more : Int) : Rat) := by
    rw [size,zpow_add₀ (by norm_num),zpow_natCast,div_eq_iff (two exponent).ne']
    push_cast
    ring
  have back : ((|whole| * 2 ^ more : Int) : Rat) * 2 ^ exponent = |value| := by
    rw [← scaled,div_mul_cancel₀ _ (two exponent).ne']
  have exact_ : (0 : Rat) < 1 / 2 ∨ ((0 : Rat) = 1 / 2 ∧ |whole| * 2 ^ more % 2 = 0) := .inl (by norm_num)
  rw [scaled,Int.floor_intCast,sub_self,if_pos exact_,back,if_neg (not_le.mpr finite)]
  split
  · rename_i negative
    rw [abs_of_neg negative,neg_neg]
  · rename_i other
    rw [abs_of_nonneg (not_lt.mp other)]

def places (value : Rat) : Nat := max 1 (Nat.log 2 value.den)
def scaledSize (value : Rat) : Nat := value.num.natAbs * (10 ^ places value / value.den)

def plainNumeral (value : Rat) : Numeral :=
  ⟨decide (value < 0),decimal (scaledSize value / 10 ^ places value),
    some (padded (places value) (scaledSize value % 10 ^ places value)),none⟩

theorem denDivides {value : Rat} (double : IsDouble value) : value.den ∣ 10 ^ places value := by
  obtain ⟨whole,exponent,-,-,same,-⟩ := double
  have power : ∃ k, value.den ∣ 2 ^ k := by
    rcases le_or_gt 0 exponent with up | down
    · obtain ⟨k,rfl⟩ := Int.eq_ofNat_of_zero_le up
      have integer : value = ((whole * 2 ^ k : Int) : Rat) := by
        rw [same]
        push_cast
        rfl
      exact ⟨0,by rw [integer,Rat.den_intCast,pow_zero]⟩
    · obtain ⟨k,rfl⟩ : ∃ k : Nat, exponent = -k := ⟨exponent.natAbs,by omega⟩
      refine ⟨k,?_⟩
      have fraction : value = Rat.divInt whole ((2 ^ k : Nat) : Int) := by
        rw [same,zpow_neg,Rat.divInt_eq_div,zpow_natCast]
        push_cast
        rfl
      rw [fraction]
      exact_mod_cast Rat.den_dvd whole ((2 ^ k : Nat) : Int)
  obtain ⟨k,divides⟩ := power
  obtain ⟨j,_,den⟩ := (Nat.dvd_prime_pow Nat.prime_two).mp divides
  have log : Nat.log 2 value.den = j := by rw [den,Nat.log_pow (by decide)]
  rw [places,log,den]
  exact (pow_dvd_pow_of_dvd (by decide : 2 ∣ 10) j).trans (pow_dvd_pow 10 (le_max_right _ _))

theorem numberAppend (front back : Text) : numberOf (front ++ back) = 10 ^ back.length * numberOf front + numberOf back := by
  rw [numberOf,List.map_append,Nat.ofDigitChars_append,Nat.ofDigitChars_eq_ofDigitChars_zero,List.length_map]
  rfl

theorem plainValue {value : Rat} (double : IsDouble value) : (plainNumeral value).value = value := by
  have positive : 0 < places value := Nat.lt_of_lt_of_le Nat.one_pos (le_max_left _ _)
  have small : scaledSize value % 10 ^ places value < 10 ^ places value := Nat.mod_lt _ (by positivity)
  have length := paddedLength positive small
  have size : (scaledSize value : Rat) * 10 ^ (0 - (places value : Int)) = |value| := by
    obtain ⟨more,ten⟩ := denDivides double
    have den : (0 : Rat) < value.den := by exact_mod_cast value.pos
    have whole : (10 : Rat) ^ places value = value.den * more := by exact_mod_cast ten
    have some_ : (more : Rat) ≠ 0 := by
      rintro none
      rw [none,mul_zero] at whole
      exact absurd whole (by positivity)
    have shape : scaledSize value = value.num.natAbs * more := by
      rw [scaledSize,ten,Nat.mul_div_cancel_left _ value.pos]
    rw [shape,zero_sub,zpow_neg,zpow_natCast,whole,Rat.abs_def,Rat.divInt_eq_div]
    push_cast
    field_simp
    rw [Nat.cast_natAbs,Int.cast_abs]
  simp only [Numeral.value,plainNumeral,Option.getD_some,Option.elim_none,Lexer.literalValue,numberAppend,length,
    numberDecimal,numberPadded,Nat.div_add_mod,size,decide_eq_true_eq]
  split
  · rename_i negative
    rw [abs_of_neg negative,neg_neg]
  · rename_i other
    rw [abs_of_nonneg (not_lt.mp other)]

theorem plainGood (value : Rat) : (plainNumeral value).Good where
  whole := decimalDigits _
  noZero := fun zero => by
    change decimal _ = [48]
    rw [decimalZero zero]
    rfl
  fraction := by
    rintro f ⟨⟩
    exact ⟨List.append_ne_nil_of_right_ne_nil _ (decimalSome _),fun _ => paddedDigit⟩
  power := nofun

theorem plainRoundTrips : RoundTrips (fun value => (plainNumeral value).text) :=
  fun value double => ⟨plainNumeral value,plainGood value,.inl rfl,rfl,by rw [plainValue double,nearestExact double]⟩

end Plain

section Dump
variable {toChars : Rat → Text} {ensureAscii : Bool}

theorem writesFloat (roundTrips : RoundTrips toChars) {value : Rat} (finite : IsDouble value) :
    Writes (.value (numberFloat value)) (toChars value) := by
  obtain ⟨n,good,isFloat,text,nearest⟩ := roundTrips value finite
  refine text ▸ writesNumeral good ?_
  have token : n.token = n.double := by
    unfold Numeral.token
    split
    · simp_all
    · simp_all
    · rfl
  rw [token,Numeral.double,nearest]
  rfl

def Dumps (toChars : Rat → Text) (ensureAscii : Bool) (js : Json) : Prop :=
  ∃ text, dump toChars ensureAscii js = .ok text ∧ Writes (.value (canonical js)) text

theorem membersBefore {key : Text} {js : Json} {before members : List (Text × Json)}
    (ascending : Ascending (before ++ canonicalMembers ((key,js) :: members))) : ∀ m ∈ before, m.1 < key := by
  intro m member
  rw [Ascending,List.map_append,List.pairwise_append] at ascending
  exact ascending.2.2 _ (List.mem_map_of_mem member) _ List.mem_cons_self

theorem itemsWrite {js : Json} {items before : List Json} {text₀ : Text} (held : ∀ i ∈ js :: items, Dumps toChars ensureAscii i)
    (written : Writes (.items before) text₀) :
    ∃ text, dumpItems toChars ensureAscii (js :: items) = .ok text ∧
      Writes (.value (array (before ++ canonicalItems (js :: items)))) (91 :: (text₀ ++ (text ++ [93]))) := by
  induction items generalizing js before text₀ with
  | nil =>
    obtain ⟨text,dumped,writes⟩ := held js List.mem_cons_self
    exact ⟨text,dumped,writesArray written noSpace writes noSpace⟩
  | cons next items ih =>
    obtain ⟨text,dumped,writes⟩ := held js List.mem_cons_self
    obtain ⟨more,dumpedMore,all⟩ := ih (fun i member => held i (List.mem_cons_of_mem _ member))
      (writesItem written noSpace writes)
    refine ⟨text ++ 44 :: more,?_,?_⟩
    · rw [dumpItems,dumped,dumpedMore]
      · rfl
      · exact nofun
    · have whole : 91 :: (text₀ ++ ((text ++ 44 :: more) ++ [93])) =
          91 :: ((text₀ ++ ([] ++ (text ++ [44]))) ++ (more ++ [93])) := by simp
      rw [whole,canonicalItems,List.append_cons]
      exact all

theorem membersWrite {key : Text} {js : Json} {members before : List (Text × Json)} {text₀ : Text}
    (held : ∀ m ∈ (key,js) :: members, Dumps toChars ensureAscii m.2)
    (formed : ∀ m ∈ (key,js) :: members, Utf8.WellFormed m.1)
    (ascending : Ascending (before ++ canonicalMembers ((key,js) :: members))) (written : Writes (.members before) text₀) :
    ∃ text, dumpMembers toChars ensureAscii ((key,js) :: members) = .ok text ∧
      Writes (.value (object (before ++ canonicalMembers ((key,js) :: members)))) (123 :: (text₀ ++ (text ++ [125]))) := by
  induction members generalizing key js before text₀ with
  | nil =>
    obtain ⟨name,dumpedName,named⟩ := quotedWrites ensureAscii (formed _ List.mem_cons_self)
    obtain ⟨text,dumped,writes⟩ := held _ List.mem_cons_self
    refine ⟨name ++ 58 :: text,?_,?_⟩
    · rw [dumpMembers,dumpedName,dumped]
      rfl
    · have all := writesObject written noSpace named noSpace writes noSpace
      rw [assignLast (membersBefore ascending)] at all
      have whole : 123 :: (text₀ ++ ((name ++ 58 :: text) ++ [125])) =
          123 :: (text₀ ++ ([] ++ (name ++ 58 :: ([] ++ (text ++ ([] ++ [125])))))) := by simp
      rw [whole]
      exact all
  | cons next members ih =>
    obtain ⟨name,dumpedName,named⟩ := quotedWrites ensureAscii (formed _ List.mem_cons_self)
    obtain ⟨text,dumped,writes⟩ := held _ List.mem_cons_self
    have member := writesMember written noSpace named noSpace writes
    rw [assignLast (membersBefore ascending)] at member
    obtain ⟨more,dumpedMore,all⟩ := ih (fun m member => held m (List.mem_cons_of_mem _ member))
      (fun m member => formed m (List.mem_cons_of_mem _ member)) (by rwa [canonicalMembers,List.append_cons] at ascending)
      member
    refine ⟨name ++ 58 :: (text ++ 44 :: more),?_,?_⟩
    · rw [dumpMembers,dumpedName,dumped,dumpedMore]
      · rfl
      · exact nofun
    · have whole : 123 :: (text₀ ++ ((name ++ 58 :: (text ++ 44 :: more)) ++ [125])) =
          123 :: ((text₀ ++ ([] ++ (name ++ 58 :: ([] ++ (text ++ [44]))))) ++ (more ++ [125])) := by simp
      rw [whole,canonicalMembers,List.append_cons]
      exact all

theorem dumps (roundTrips : RoundTrips toChars) {js : Json} (held : Held js) : Dumps toChars ensureAscii js := by
  induction held with
  | null => exact ⟨_,rfl,writesFixed .literalNull rfl rfl⟩
  | @boolean value =>
    cases value
    · exact ⟨_,rfl,writesFixed .literalFalse rfl rfl⟩
    · exact ⟨_,rfl,writesFixed .literalTrue rfl rfl⟩
  | numberInteger low high => exact ⟨_,rfl,writesInteger low high⟩
  | numberUnsigned high =>
    refine ⟨_,rfl,?_⟩
    rw [dumpUnsigned]
    exact writesUnsigned high
  | numberFloat finite => exact ⟨_,rfl,writesFloat roundTrips finite⟩
  | string formed =>
    obtain ⟨text,dumped,lexeme⟩ := quotedWrites ensureAscii formed
    exact ⟨text,dumped,writesOne lexeme rfl⟩
  | @array items _ ih =>
    cases items with
    | nil => exact ⟨_,rfl,writesEmptyArray⟩
    | cons js items =>
      obtain ⟨text,dumped,writes⟩ := itemsWrite ih writesNoItems
      refine ⟨91 :: (text ++ [93]),?_,?_⟩
      · rw [dump,dumped]
        rfl
      · rw [canonical]
        exact writes
  | @object members ascending formed _ ih =>
    cases members with
    | nil => exact ⟨_,rfl,writesEmptyObject⟩
    | cons m members =>
      obtain ⟨key,js⟩ := m
      have keys : Ascending ([] ++ canonicalMembers ((key,js) :: members)) := by
        rw [List.nil_append,Ascending,canonicalKeys]
        exact ascending
      obtain ⟨text,dumped,writes⟩ := membersWrite ih formed keys writesNoMembers
      refine ⟨123 :: (text ++ [125]),?_,?_⟩
      · rw [dump,dumped]
        rfl
      · rw [canonical]
        exact writes

theorem writesParse {js : Json} {text : Text} (writes : Writes (.value js) text) : parse text = .ok js := by
  obtain ⟨tokens,row,spelled⟩ := writes
  have whole := spelled []
  rw [List.append_nil] at whole
  exact parseExact.mpr ⟨[],text,tokens,[],rfl,.inl rfl,row,whole,[],[],rfl,noSpace,.inl rfl⟩

/- A value that the parser can make is written as a text that it reads as the same value. -/
theorem dumpParses (roundTrips : RoundTrips toChars) {js : Json} (held : Held js) :
    ∃ text, dump toChars ensureAscii js = .ok text ∧ parse text = .ok (canonical js) := by
  obtain ⟨text,dumped,writes⟩ := dumps roundTrips held
  exact ⟨text,dumped,writesParse writes⟩

end Dump
end SimpleChat.Json
