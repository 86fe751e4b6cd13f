import Mathlib.Data.List.Forall2

/-! UTF-8 as bytes: a text is well formed where it encodes some characters. The
first byte of a character fixes how many bytes follow and the range of each; a
reader that checks these ranges takes the well-formed texts and no others. -/
namespace Basis.Utf8

def WellFormed (text : List UInt8) : Prop := ∃ chars : List Char, text = chars.flatMap String.utf8EncodeChar

structure Span where
  low : UInt8
  high : UInt8
  deriving DecidableEq, Repr

def Span.Has (span : Span) (b : UInt8) : Prop := span.low ≤ b ∧ b ≤ span.high

instance (span : Span) (b : UInt8) : Decidable (span.Has b) := by unfold Span.Has; infer_instance

def follower : Span := ⟨0x80,0xBF⟩

def tails (b : UInt8) : Option (List Span) :=
  if b ≤ 0x7F then some []
  else if b < 0xC2 then none
  else if b ≤ 0xDF then some [follower]
  else if b = 0xE0 then some [⟨0xA0,0xBF⟩,follower]
  else if b = 0xED then some [⟨0x80,0x9F⟩,follower]
  else if b ≤ 0xEF then some [follower,follower]
  else if b = 0xF0 then some [⟨0x90,0xBF⟩,follower,follower]
  else if b ≤ 0xF3 then some [follower,follower,follower]
  else if b = 0xF4 then some [⟨0x80,0x8F⟩,follower,follower]
  else none

inductive Row : Nat → List Span → Prop
  | one {n : Nat} (small : n ≤ 0x7F) : Row n []
  | two {n : Nat} (low : 0xC2 ≤ n) (high : n ≤ 0xDF) : Row n [follower]
  | threeLow : Row 0xE0 [⟨0xA0,0xBF⟩,follower]
  | three {n : Nat} (low : 0xE1 ≤ n) (high : n ≤ 0xEF) (other : n ≠ 0xED) : Row n [follower,follower]
  | threeHigh : Row 0xED [⟨0x80,0x9F⟩,follower]
  | fourLow : Row 0xF0 [⟨0x90,0xBF⟩,follower,follower]
  | four {n : Nat} (low : 0xF1 ≤ n) (high : n ≤ 0xF3) : Row n [follower,follower,follower]
  | fourHigh : Row 0xF4 [⟨0x80,0x8F⟩,follower,follower]

theorem tailsRow {b : UInt8} {spans : List Span} (row : tails b = some spans) : Row b.toNat spans := by
  simp only [tails,UInt8.le_iff_toNat_le,UInt8.lt_iff_toNat_lt,← UInt8.toNat_inj,UInt8.reduceToNat] at row
  split_ifs at row with one none_ two low high three fourLow four fourHigh <;> cases Option.some.inj row
  · exact .one one
  · exact .two (by omega) two
  · exact low ▸ .threeLow
  · exact high ▸ .threeHigh
  · exact .three (by omega) three high
  · exact fourLow ▸ .fourLow
  · exact .four (by omega) four
  · exact fourHigh ▸ .fourHigh

theorem rowTails {b : UInt8} {spans : List Span} (row : Row b.toNat spans) : tails b = some spans := by
  simp only [tails,UInt8.le_iff_toNat_le,UInt8.lt_iff_toNat_lt,← UInt8.toNat_inj,UInt8.reduceToNat]
  generalize b.toNat = n at row
  cases row with
  | one small => rw [if_pos small]
  | two low high => rw [if_neg (by omega),if_neg (by omega),if_pos high]
  | three low high other =>
    rw [if_neg (by omega),if_neg (by omega),if_neg (by omega),if_neg (by omega),if_neg other,if_pos high]
  | four low high =>
    rw [if_neg (by omega),if_neg (by omega),if_neg (by omega),if_neg (by omega),if_neg (by omega),if_neg (by omega),
      if_neg (by omega),if_pos high]
  | threeLow | threeHigh | fourLow | fourHigh => rfl

theorem hasNat (low high : Nat) {n : Nat} (lowSmall : low < 256) (highSmall : high < 256) (small : n < 256) :
    (⟨UInt8.ofNat low,UInt8.ofNat high⟩ : Span).Has (UInt8.ofNat n) ↔ low ≤ n ∧ n ≤ high := by
  simp only [Span.Has,UInt8.le_iff_toNat_le,UInt8.toNat_ofNat',Nat.mod_eq_of_lt,lowSmall,highSmall,small]

theorem followerHas {n : Nat} (small : n < 256) : follower.Has (UInt8.ofNat n) ↔ 0x80 ≤ n ∧ n ≤ 0xBF :=
  hasNat 0x80 0xBF (by decide) (by decide) small

theorem rowOfNat {n : Nat} {spans : List Span} (small : n < 256) (row : Row n spans) :
    tails (UInt8.ofNat n) = some spans := by
  refine rowTails ?_
  rwa [UInt8.toNat_ofNat',Nat.mod_eq_of_lt small]

theorem characterTails (c : Char) :
    ∃ b more spans, String.utf8EncodeChar c = b :: more ∧ tails b = some spans ∧ List.Forall₂ Span.Has spans more := by
  have valid : c.val.toNat < 0xD800 ∨ (0xDFFF < c.val.toNat ∧ c.val.toNat < 0x110000) := c.valid
  unfold String.utf8EncodeChar
  generalize c.val.toNat = v at valid
  have last : follower.Has (UInt8.ofNat (v % 0x40 + 0x80)) := (followerHas (by omega)).mpr (by omega)
  have middle : follower.Has (UInt8.ofNat (v / 64 % 0x40 + 0x80)) := (followerHas (by omega)).mpr (by omega)
  have second : follower.Has (UInt8.ofNat (v / 4096 % 0x40 + 0x80)) := (followerHas (by omega)).mpr (by omega)
  by_cases one : v ≤ 0x7F
  · rw [if_pos one]
    exact ⟨_,_,_,rfl,rowOfNat (by omega) (.one one),.nil⟩
  by_cases two : v ≤ 0x7FF
  · rw [if_neg one,if_pos two]
    exact ⟨_,_,_,rfl,rowOfNat (by omega) (.two (by omega) (by omega)),.cons last .nil⟩
  by_cases three : v ≤ 0xFFFF
  · rw [if_neg one,if_neg two,if_pos three]
    by_cases low : v / 4096 = 0
    · have first : v / 4096 % 0x10 + 0xE0 = 0xE0 := by omega
      rw [first]
      exact ⟨_,_,_,rfl,rowOfNat (by omega) .threeLow,
        .cons ((hasNat 0xA0 0xBF (by decide) (by decide) (by omega)).mpr (by omega)) (.cons last .nil)⟩
    by_cases high : v / 4096 = 13
    · have first : v / 4096 % 0x10 + 0xE0 = 0xED := by omega
      rw [first]
      exact ⟨_,_,_,rfl,rowOfNat (by omega) .threeHigh,
        .cons ((hasNat 0x80 0x9F (by decide) (by decide) (by omega)).mpr (by omega)) (.cons last .nil)⟩
    · exact ⟨_,_,_,rfl,rowOfNat (by omega) (.three (by omega) (by omega) (by omega)),.cons middle (.cons last .nil)⟩
  · rw [if_neg one,if_neg two,if_neg three]
    by_cases low : v / 262144 = 0
    · have first : v / 262144 % 0x08 + 0xF0 = 0xF0 := by omega
      rw [first]
      exact ⟨_,_,_,rfl,rowOfNat (by omega) .fourLow,
        .cons ((hasNat 0x90 0xBF (by decide) (by decide) (by omega)).mpr (by omega)) (.cons middle (.cons last .nil))⟩
    by_cases high : v / 262144 = 4
    · have first : v / 262144 % 0x08 + 0xF0 = 0xF4 := by omega
      rw [first]
      exact ⟨_,_,_,rfl,rowOfNat (by omega) .fourHigh,
        .cons ((hasNat 0x80 0x8F (by decide) (by decide) (by omega)).mpr (by omega)) (.cons middle (.cons last .nil))⟩
    · exact ⟨_,_,_,rfl,rowOfNat (by omega) (.four (by omega) (by omega)),
        .cons second (.cons middle (.cons last .nil))⟩

theorem charOfNat {v : Nat} (valid : v < 0xD800 ∨ (0xDFFF < v ∧ v < 0x110000)) : ∃ c : Char, c.val.toNat = v := by
  have fits : Nat.isValidChar v := valid
  refine ⟨Char.ofNat v,?_⟩
  rw [Char.ofNat,dif_pos fits]
  rfl

theorem byteOfNat {b : UInt8} {n : Nat} (same : b.toNat = n) : UInt8.ofNat n = b := by
  rw [← same,UInt8.ofNat_toNat]

theorem encodeTwo {b x : UInt8} (low : 0xC2 ≤ b.toNat) (high : b.toNat ≤ 0xDF) (next : follower.Has x) :
    ∃ c, String.utf8EncodeChar c = [b,x] := by
  simp only [Span.Has,follower,UInt8.le_iff_toNat_le,UInt8.reduceToNat] at next
  obtain ⟨c,value⟩ := @charOfNat ((b.toNat - 0xC0) * 64 + (x.toNat - 0x80)) (by omega)
  refine ⟨c,?_⟩
  unfold String.utf8EncodeChar
  rw [value,if_neg (by omega),if_pos (by omega),byteOfNat (b := b) (by omega),byteOfNat (b := x) (by omega)]

theorem encodeThree {b x y : UInt8} (low : 0xE0 ≤ b.toNat) (high : b.toNat ≤ 0xEF) (next : follower.Has x)
    (long : b.toNat = 0xE0 → 0xA0 ≤ x.toNat) (noSurrogate : b.toNat = 0xED → x.toNat ≤ 0x9F) (last : follower.Has y) :
    ∃ c, String.utf8EncodeChar c = [b,x,y] := by
  simp only [Span.Has,follower,UInt8.le_iff_toNat_le,UInt8.reduceToNat] at next last
  obtain ⟨c,value⟩ := @charOfNat ((b.toNat - 0xE0) * 4096 + (x.toNat - 0x80) * 64 + (y.toNat - 0x80)) (by omega)
  refine ⟨c,?_⟩
  unfold String.utf8EncodeChar
  rw [value,if_neg (by omega),if_neg (by omega),if_pos (by omega),byteOfNat (b := b) (by omega),
    byteOfNat (b := x) (by omega),byteOfNat (b := y) (by omega)]

theorem encodeFour {b x y z : UInt8} (low : 0xF0 ≤ b.toNat) (high : b.toNat ≤ 0xF4) (next : follower.Has x)
    (long : b.toNat = 0xF0 → 0x90 ≤ x.toNat) (inside : b.toNat = 0xF4 → x.toNat ≤ 0x8F) (third : follower.Has y)
    (last : follower.Has z) : ∃ c, String.utf8EncodeChar c = [b,x,y,z] := by
  simp only [Span.Has,follower,UInt8.le_iff_toNat_le,UInt8.reduceToNat] at next third last
  obtain ⟨c,value⟩ := @charOfNat ((b.toNat - 0xF0) * 262144 + (x.toNat - 0x80) * 4096 + (y.toNat - 0x80) * 64 +
    (z.toNat - 0x80)) (by omega)
  refine ⟨c,?_⟩
  unfold String.utf8EncodeChar
  rw [value,if_neg (by omega),if_neg (by omega),if_neg (by omega),byteOfNat (b := b) (by omega),
    byteOfNat (b := x) (by omega),byteOfNat (b := y) (by omega),byteOfNat (b := z) (by omega)]

theorem tailsCharacter {b : UInt8} {more : List UInt8} {spans : List Span} (row : tails b = some spans)
    (inside : List.Forall₂ Span.Has spans more) : ∃ c, String.utf8EncodeChar c = b :: more := by
  have row := tailsRow row
  generalize number : b.toNat = n at row
  cases row with
  | one small =>
    cases inside
    obtain ⟨c,value⟩ := @charOfNat b.toNat (by omega)
    refine ⟨c,?_⟩
    unfold String.utf8EncodeChar
    rw [value,if_pos (by omega),byteOfNat rfl]
  | two low high =>
    obtain _ | ⟨next,_ | _⟩ := inside
    exact encodeTwo (by omega) (by omega) next
  | three low high other =>
    obtain _ | ⟨next,_ | ⟨last,_ | _⟩⟩ := inside
    exact encodeThree (by omega) (by omega) next (by omega) (by omega) last
  | threeLow | threeHigh =>
    obtain _ | ⟨next,_ | ⟨last,_ | _⟩⟩ := inside
    simp only [Span.Has,UInt8.le_iff_toNat_le,UInt8.reduceToNat] at next
    refine encodeThree (by omega) (by omega) ?_ (by omega) (by omega) last
    simp only [Span.Has,follower,UInt8.le_iff_toNat_le,UInt8.reduceToNat]
    omega
  | four low high =>
    obtain _ | ⟨next,_ | ⟨third,_ | ⟨last,_ | _⟩⟩⟩ := inside
    exact encodeFour (by omega) (by omega) next (by omega) (by omega) third last
  | fourLow | fourHigh =>
    obtain _ | ⟨next,_ | ⟨third,_ | ⟨last,_ | _⟩⟩⟩ := inside
    simp only [Span.Has,UInt8.le_iff_toNat_le,UInt8.reduceToNat] at next
    refine encodeFour (by omega) (by omega) ?_ (by omega) (by omega) third last
    simp only [Span.Has,follower,UInt8.le_iff_toNat_le,UInt8.reduceToNat]
    omega

theorem wellFormedNil : WellFormed [] := ⟨[],rfl⟩

theorem wellFormedAppend {left right : List UInt8} (front : WellFormed left) (back : WellFormed right) :
    WellFormed (left ++ right) := by
  obtain ⟨chars,rfl⟩ := front
  obtain ⟨chars',rfl⟩ := back
  exact ⟨chars ++ chars',List.flatMap_append.symm⟩

theorem wellFormedCons {b : UInt8} {text : List UInt8} :
    WellFormed (b :: text) ↔ ∃ spans more rest, tails b = some spans ∧ text = more ++ rest ∧
      List.Forall₂ Span.Has spans more ∧ WellFormed rest := by
  constructor
  · rintro ⟨chars,whole⟩
    cases chars with
    | nil => cases whole
    | cons c chars =>
      obtain ⟨first,more,spans,encoded,row,inside⟩ := characterTails c
      rw [List.flatMap_cons,encoded,List.cons_append] at whole
      obtain ⟨rfl,rfl⟩ := List.cons.inj whole
      exact ⟨spans,more,_,row,rfl,inside,chars,rfl⟩
  · rintro ⟨spans,more,rest,row,rfl,inside,chars,rfl⟩
    obtain ⟨c,encoded⟩ := tailsCharacter row inside
    exact ⟨c :: chars,by rw [List.flatMap_cons,encoded,List.cons_append]⟩

def read : List Span → UInt8 → Option (List Span)
  | [], b => tails b
  | span :: spans, b => if span.Has b then some spans else none

theorem readFrom {text : List UInt8} {spans : List Span} :
    text.foldlM read spans = some [] ↔ ∃ more rest, text = more ++ rest ∧ List.Forall₂ Span.Has spans more ∧ WellFormed rest := by
  induction text generalizing spans with
  | nil =>
    rw [List.foldlM_nil,Option.pure_def,Option.some.injEq]
    constructor
    · rintro rfl
      exact ⟨[],[],rfl,.nil,wellFormedNil⟩
    · rintro ⟨more,rest,whole,inside,_⟩
      obtain ⟨rfl,rfl⟩ := List.append_eq_nil_iff.mp whole.symm
      cases inside
      rfl
  | cons b text ih =>
    rw [List.foldlM_cons]
    cases spans with
    | nil =>
      constructor
      · intro ran
        obtain ⟨spans,row,later⟩ := Option.bind_eq_some_iff.mp ran
        obtain ⟨more,rest,rfl,inside,good⟩ := ih.mp later
        exact ⟨[],_,rfl,.nil,wellFormedCons.mpr ⟨spans,more,rest,row,rfl,inside,good⟩⟩
      · rintro ⟨more,rest,whole,inside,good⟩
        cases inside
        rw [List.nil_append] at whole
        rw [← whole] at good
        obtain ⟨spans,more,rest,row,rfl,inside,good⟩ := wellFormedCons.mp good
        exact Option.bind_eq_some_iff.mpr ⟨spans,row,ih.mpr ⟨more,rest,rfl,inside,good⟩⟩
    | cons span spans =>
      constructor
      · intro ran
        obtain ⟨_,here,later⟩ := Option.bind_eq_some_iff.mp ran
        obtain ⟨has,same⟩ := Option.ite_none_right_eq_some.mp here
        cases Option.some.inj same
        obtain ⟨more,rest,rfl,inside,good⟩ := ih.mp later
        exact ⟨b :: more,rest,rfl,.cons has inside,good⟩
      · rintro ⟨_,rest,whole,inside,good⟩
        cases inside with
        | @cons _ c _ more has inside =>
          obtain ⟨rfl,rfl⟩ := List.cons.inj whole
          exact Option.bind_eq_some_iff.mpr ⟨spans,if_pos has,ih.mpr ⟨more,rest,rfl,inside,good⟩⟩

theorem readWhole {text : List UInt8} : text.foldlM read [] = some [] ↔ WellFormed text := by
  rw [readFrom]
  constructor
  · rintro ⟨more,rest,rfl,inside,good⟩
    cases inside
    exact good
  · exact fun good => ⟨[],text,rfl,.nil,good⟩

theorem wellFormedCancel {left right : List UInt8} (front : WellFormed left) :
    WellFormed (left ++ right) ↔ WellFormed right := by
  rw [← readWhole,List.foldlM_append,readWhole.mpr front,← readWhole]
  rfl

theorem followerRange {low high : UInt8} (above : 0x80 ≤ low) (below : high ≤ 0xBF) {c : UInt8}
    (has : (⟨low,high⟩ : Span).Has c) : follower.Has c :=
  ⟨UInt8.le_trans above has.1,UInt8.le_trans has.2 below⟩

def Follows (spans : List Span) : Prop := ∀ span ∈ spans, ∀ c, span.Has c → follower.Has c

theorem tailsFollow {b : UInt8} {spans : List Span} (row : tails b = some spans) : Follows spans := by
  have all : ∀ span ∈ spans, (0x80 : UInt8) ≤ span.low ∧ span.high ≤ 0xBF := by
    have row := tailsRow row
    generalize b.toNat = n at row
    cases row <;> decide
  exact fun span member c has => followerRange (all span member).1 (all span member).2 has

theorem tailsNoFollower {b : UInt8} {spans : List Span} (row : tails b = some spans) : ¬ follower.Has b := by
  have row := tailsRow row
  simp only [Span.Has,follower,UInt8.le_iff_toNat_le,UInt8.reduceToNat]
  generalize b.toNat = n at row
  cases row <;> omega

theorem readFollow {spans next : List Span} {b : UInt8} (known : Follows spans) (here : read spans b = some next) :
    Follows next := by
  cases spans with
  | nil => exact tailsFollow here
  | cons span spans =>
    obtain ⟨_,same⟩ := Option.ite_none_right_eq_some.mp here
    cases Option.some.inj same
    exact fun s member => known s (List.mem_cons_of_mem _ member)

theorem readsFollow {text : List UInt8} {spans next : List Span} (known : Follows spans)
    (ran : text.foldlM read spans = some next) : Follows next := by
  induction text generalizing spans with
  | nil => cases ran; exact known
  | cons b text ih =>
    obtain ⟨middle,here,later⟩ := Option.bind_eq_some_iff.mp ran
    exact ih (readFollow known here) later

theorem wellFormedTake {text : List UInt8} (good : WellFormed text) (n : Nat) :
    WellFormed (text.take n) ↔ ∀ b ∈ text[n]?, ¬ follower.Has b := by
  have whole := readWhole.mpr good
  rw [← List.take_append_drop n text,List.foldlM_append] at whole
  obtain ⟨spans,front,back⟩ := Option.bind_eq_some_iff.mp whole
  rw [← readWhole,front,Option.some.injEq,← List.head?_drop]
  cases rest : text.drop n with
  | nil =>
    rw [rest] at back
    cases back
    simp
  | cons b rest' =>
    rw [rest] at back
    obtain ⟨middle,here,_⟩ := Option.bind_eq_some_iff.mp back
    simp only [List.head?_cons,Option.mem_some_iff,forall_eq']
    cases spans with
    | nil => exact iff_of_true rfl (tailsNoFollower here)
    | cons span spans =>
      obtain ⟨has,_⟩ := Option.ite_none_right_eq_some.mp here
      have known := readsFollow (fun _ member => absurd member List.not_mem_nil) front
      exact iff_of_false (by simp) (not_not_intro (known span List.mem_cons_self b has))

end Basis.Utf8
