import Mathlib.Data.Prod.Lex
import SimpleChat.ServerLog

/-! The numbers in time stamps and in file names, read back: decimals are digits,
so a separator ends them, and a date is determined by its text. -/
namespace SimpleChat
open Log (Tm padded)

def isDigit (b : UInt8) : Prop := 48 ≤ b ∧ b ≤ 57

instance (b) : Decidable (isDigit b) := by unfold isDigit; infer_instance

theorem charDigit {c : Char} (digit : c.isDigit = true) :
    isDigit (UInt8.ofNat c.toNat) ∧ Char.ofNat (UInt8.ofNat c.toNat).toNat = c := by
  obtain ⟨low,high⟩ : 48 ≤ c.toNat ∧ c.toNat ≤ 57 := by
    simpa [Char.isDigit,UInt32.le_iff_toNat_le] using digit
  have small : (UInt8.ofNat c.toNat).toNat = c.toNat := by
    rw [UInt8.toNat_ofNat']
    omega
  refine ⟨⟨?_,?_⟩,?_⟩
  · rw [UInt8.le_iff_toNat_le,small]
    exact low
  · rw [UInt8.le_iff_toNat_le,small]
    exact high
  · rw [small]
    exact Char.ofNat_toNat c

theorem decimalChars (n : Nat) : decimal n = (Nat.toDigits 10 n).map (fun c => UInt8.ofNat c.toNat) := by
  rw [decimal,ascii,← Nat.toList_repr]
  rfl

theorem decimalDigit {n : Nat} {b : UInt8} (member : b ∈ decimal n) : isDigit b := by
  rw [decimalChars] at member
  obtain ⟨c,digit,rfl⟩ := List.mem_map.mp member
  exact (charDigit (Nat.isDigit_of_mem_toDigits (by decide) (by decide) digit)).1

def numberOf (text : Text) : Nat := Nat.ofDigitChars 10 (text.map (fun b => Char.ofNat b.toNat)) 0

theorem decimalBack (n : Nat) : (decimal n).map (fun b => Char.ofNat b.toNat) = Nat.toDigits 10 n := by
  rw [decimalChars,List.map_map]
  refine (List.map_congr_left (fun c digit => ?_)).trans (List.map_id _)
  exact (charDigit (Nat.isDigit_of_mem_toDigits (by decide) (by decide) digit)).2

theorem numberDecimal (n : Nat) : numberOf (decimal n) = n := by
  rw [numberOf,decimalBack]
  exact Nat.ofDigitChars_ten_toDigits

theorem numberPadded (width n : Nat) : numberOf (padded width n) = n := by
  have zero : Char.ofNat (48 : UInt8).toNat = '0' := rfl
  rw [numberOf,padded,List.map_append,decimalBack,List.map_replicate,zero,Nat.ofDigitChars_append,
    Nat.ofDigitChars_replicate_zero,Nat.mul_zero]
  exact Nat.ofDigitChars_ten_toDigits

theorem decimalLength {n k : Nat} (positive : 0 < k) (small : n < 10 ^ k) : (decimal n).length ≤ k := by
  rw [decimalChars,List.length_map]
  exact (Nat.length_toDigits_le_iff (by decide) positive).mpr small

theorem paddedLength {width n : Nat} (positive : 0 < width) (small : n < 10 ^ width) : (padded width n).length = width := by
  have digits := decimalLength positive small
  simp only [padded,List.length_append,List.length_replicate]
  omega

theorem paddedDigit {width n : Nat} {b : UInt8} (member : b ∈ padded width n) : isDigit b := by
  rcases List.mem_append.mp member with zero | digit
  · rw [List.eq_of_mem_replicate zero]
    decide
  · exact decimalDigit digit

theorem decimalNonzero (n : Nat) : (0 : UInt8) ∉ decimal n :=
  fun member => absurd (decimalDigit member) (by decide)

theorem paddedNonzero (width n : Nat) : (0 : UInt8) ∉ padded width n :=
  fun member => absurd (paddedDigit member) (by decide)

theorem digitsEnd {p q x y : Text} {separator : UInt8} (digits : ∀ b ∈ p, isDigit b) (digits' : ∀ b ∈ q, isDigit b)
    (other : ¬ isDigit separator) (same : p ++ separator :: x = q ++ separator :: y) : p = q ∧ x = y := by
  induction p generalizing q with
  | nil =>
    cases q with
    | nil => exact ⟨rfl,(List.cons.inj same).2⟩
    | cons b q => exact absurd ((List.cons.inj same).1 ▸ digits' b List.mem_cons_self) other
  | cons a p ih =>
    cases q with
    | nil => exact absurd ((List.cons.inj same).1 ▸ digits a List.mem_cons_self) other
    | cons b q =>
      obtain ⟨first,rest⟩ := List.cons.inj same
      obtain ⟨same,tails⟩ := ih (fun c member => digits c (List.mem_cons_of_mem _ member))
        (fun c member => digits' c (List.mem_cons_of_mem _ member)) rest
      exact ⟨by rw [first,same],tails⟩

abbrev Date := ℕ ×ₗ ℕ ×ₗ ℕ

def calendar (tm : Tm) : Date := toLex (tm.year,toLex (tm.mon,tm.mday))

theorem calendarRead {a b : Tm} {separator stop : UInt8} {x y : Text} (other : ¬ isDigit separator) (stops : ¬ isDigit stop)
    (same : decimal a.year ++ separator :: (padded 2 a.mon ++ separator :: (padded 2 a.mday ++ stop :: x)) =
      decimal b.year ++ separator :: (padded 2 b.mon ++ separator :: (padded 2 b.mday ++ stop :: y))) :
    calendar a = calendar b ∧ x = y := by
  obtain ⟨years,rest⟩ := digitsEnd (fun _ => decimalDigit) (fun _ => decimalDigit) other same
  obtain ⟨months,rest⟩ := digitsEnd (fun _ => paddedDigit) (fun _ => paddedDigit) other rest
  obtain ⟨days,rest⟩ := digitsEnd (fun _ => paddedDigit) (fun _ => paddedDigit) stops rest
  have year := congrArg numberOf years
  have month := congrArg numberOf months
  have day := congrArg numberOf days
  rw [numberDecimal,numberDecimal] at year
  rw [numberPadded,numberPadded] at month day
  exact ⟨by rw [calendar,calendar,year,month,day],rest⟩

theorem dateRead {a b : Tm} {x y : Text} (same : ServerLog.date a ++ x = ServerLog.date b ++ y) :
    calendar a = calendar b ∧ x = y := by
  have bar : ascii "_" = [95] := rfl
  simp only [ServerLog.date,bar,List.append_assoc,List.singleton_append] at same
  exact calendarRead (by decide) (by decide) same

theorem dateSame {a b : Tm} (same : calendar a = calendar b) : ServerLog.date a = ServerLog.date b := by
  simp only [calendar,EmbeddingLike.apply_eq_iff_eq,Prod.mk.injEq] at same
  obtain ⟨year,month,day⟩ := same
  rw [ServerLog.date,ServerLog.date,year,month,day]

def dayOf (d : Date) : Nat := (ofLex (ofLex d).2).2

def dateText (d : Date) : Text := ServerLog.date ⟨(ofLex d).1,(ofLex (ofLex d).2).1,dayOf d,0,0,0⟩

theorem dateTextOf (tm : Tm) : dateText (calendar tm) = ServerLog.date tm := rfl

theorem dateTextRead {d d' : Date} {x y : Text} (same : dateText d ++ x = dateText d' ++ y) : d = d' ∧ x = y :=
  dateRead same

def partSuffix (part : Nat) : Text := if part = 0 then [] else ascii "." ++ decimal part

def partName (dir base : Text) (f : Date × Nat) : Text := dir ++ dateText f.1 ++ base ++ partSuffix f.2

theorem partSuffixInjective {m n : Nat} (same : partSuffix m = partSuffix n) : m = n := by
  have dot : ascii "." = [46] := rfl
  simp only [partSuffix,dot] at same
  split_ifs at same with first second
  · omega
  · cases same
  · cases same
  · have digits : decimal m = decimal n := (List.cons.inj same).2
    rw [← numberDecimal m,digits,numberDecimal]

theorem partNameInjective (dir base : Text) : Function.Injective (partName dir base) := by
  rintro ⟨d,m⟩ ⟨d',n⟩ same
  simp only [partName,List.append_assoc] at same
  obtain ⟨dates,rest⟩ := dateTextRead (List.append_cancel_left same)
  exact Prod.ext dates (partSuffixInjective (List.append_cancel_left rest))

namespace ServerLog

theorem strrchrParts {fileName dir base : Text} (path : strrchr fileName = some (dir,base)) :
    fileName.take dir.length = dir ∧ (∀ b ∈ dir, b ∈ fileName) ∧ ∀ b ∈ base, b ∈ fileName := by
  unfold strrchr at path
  split at path <;> try contradiction
  simp only [Option.some.injEq,Prod.mk.injEq] at path
  obtain ⟨rfl,rfl⟩ := path
  refine ⟨?_,fun b => List.mem_of_mem_take,fun b member => ?_⟩
  · rw [List.length_take,Nat.min_eq_left (Nat.sub_le _ _)]
  · exact List.mem_reverse.mp (List.takeWhile_subset _ (List.mem_reverse.mp member))

theorem copiedParts {fileName dir base : Text} (path : strrchr fileName = some (dir,base)) (text : (0 : UInt8) ∉ fileName)
    (dirFits : dir.length < 128) (baseFits : base.length < 128) :
    cString (strncpy (zeros 128) fileName dir.length) = dir ∧ cString (strcpy (zeros 128) base) = base := by
  obtain ⟨taken,dirFrom,baseFrom⟩ := strrchrParts path
  refine ⟨?_,cStringCopied (fun member => text (baseFrom _ member)) (by simpa [zeros] using baseFits)⟩
  have long : dir.length ≤ fileName.length := by
    have := congrArg List.length taken
    rw [List.length_take] at this
    omega
  have copied : strncpy (zeros 128) fileName dir.length = dir ++ zeros (128 - dir.length) := by
    have stored := @overwriteTail [] dir 128 (by omega)
    rw [List.nil_append,List.length_nil,List.nil_append] at stored
    rw [strncpy,List.take_append_of_le_length long,taken,stored]
  rw [copied,cStringTail]
  exact cStringWhole (fun member => text (dirFrom _ member))

end ServerLog
end SimpleChat
