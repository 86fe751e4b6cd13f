import Mathlib.Data.List.TakeWhile

/-! C's `int`, bytes, and the strings that lie in a `char` array of fixed size:
what `memset`, `memcpy`, `strcpy` and a store of one byte leave in the array,
and the text a reader sees up to the first NUL. -/
namespace SimpleChat

def intMax : Int := 2147483647

def intAdd (a b : Int) : Option Int :=
  if -intMax - 1 ≤ a + b ∧ a + b ≤ intMax then some (a + b) else none

def sizeT (n : Int) : Nat := (n % 18446744073709551616).toNat

abbrev Text := List UInt8

def ascii (s : String) : Text := s.toList.map (fun c => UInt8.ofNat c.toNat)
def decimal (n : Nat) : Text := ascii (toString n)
def newline : UInt8 := 10

def zeros (n : Nat) : Text := List.replicate n 0

/- The array after `memcpy(array + offset, data, data.length)`; the length does not change. -/
def overwrite (array : Text) (offset : Nat) (data : Text) : Text :=
  (array.take offset ++ data ++ array.drop (offset + data.length)).take array.length

def strcpy (array text : Text) : Text := overwrite array 0 (text ++ [0])
/- Exactly `count` bytes; a text that is not shorter is left without its NUL. -/
def strncpy (array text : Text) (count : Nat) : Text := overwrite array 0 ((text ++ zeros count).take count)
def cString (array : Text) : Text := array.takeWhile (· ≠ 0)

theorem overwriteLength (array data : Text) (offset : Nat) (inside : offset ≤ array.length) :
    (overwrite array offset data).length = array.length := by
  rw [overwrite,List.length_take]
  simp only [List.length_append,List.length_take,List.length_drop]
  omega

theorem overwriteTail {content data : Text} {room : Nat} (fits : data.length ≤ room) :
    overwrite (content ++ zeros room) content.length data = content ++ data ++ zeros (room - data.length) := by
  have rest : (content ++ zeros room).drop (content.length + data.length) = zeros (room - data.length) := by
    rw [List.drop_append]
    simp [zeros]
  rw [overwrite,List.take_left,rest]
  exact List.take_of_length_le (by simp [zeros]; omega)

theorem terminateTail (content : Text) (room : Nat) :
    (content ++ zeros room).set content.length 0 = content ++ zeros room := by
  rw [List.set_append_right _ _ (Nat.le_refl _),Nat.sub_self]
  cases room with
  | zero => rfl
  | succ room => rfl

theorem cStringNul (content rest : Text) : cString (content ++ 0 :: rest) = cString content := by
  induction content with
  | nil => rfl
  | cons b content ih =>
    simp only [cString,List.cons_append,List.takeWhile_cons] at ih ⊢
    rw [ih]

theorem cStringTail (content : Text) (room : Nat) : cString (content ++ zeros room) = cString content := by
  cases room with
  | zero => rw [zeros,List.replicate_zero,List.append_nil]
  | succ room => exact cStringNul content (zeros room)

theorem cStringLength (array : Text) : (cString array).length ≤ array.length := (List.takeWhile_prefix _).length_le

theorem cStringFront {front : Text} (clean : (0 : UInt8) ∉ front) (rest : Text) :
    cString (front ++ rest) = front ++ cString rest := by
  rw [cString,List.takeWhile_append_of_pos]
  · rfl
  · intro b member
    simp only [decide_eq_true_eq]
    rintro rfl
    exact clean member

theorem cStringCopied {array text : Text} (clean : (0 : UInt8) ∉ text) (fits : text.length < array.length) :
    cString (strcpy array text) = text := by
  have copied : strcpy array text = text ++ 0 :: array.drop (text.length + 1) := by
    simp only [strcpy,overwrite,List.take_zero,List.nil_append,List.append_assoc,List.singleton_append,
      List.length_append,List.length_singleton,Nat.zero_add]
    exact List.take_of_length_le (by simp; omega)
  rw [copied,cStringFront clean]
  simp [cString]

theorem cStringWhole {content : Text} (clean : (0 : UInt8) ∉ content) : cString content = content :=
  List.takeWhile_eq_self_iff.mpr (fun b member => by
    simp only [decide_eq_true_eq]
    rintro rfl
    exact clean member)

theorem zerosBlank {n i : Nat} {b : UInt8} (found : (zeros n)[i]? = some b) : b = 0 :=
  List.eq_of_mem_replicate (List.mem_of_getElem? found)

theorem cStringAt {array : Text} {i : Nat} (inside : i < (cString array).length) :
    ∃ b, array[i]? = some b ∧ b ≠ 0 := by
  have found : (cString array)[i]? = some (cString array)[i] := List.getElem?_eq_getElem inside
  obtain ⟨rest,whole⟩ := List.takeWhile_prefix (fun b : UInt8 => decide (b ≠ 0)) (l := array)
  refine ⟨(cString array)[i],?_,by simpa using List.mem_takeWhile_imp (List.getElem_mem inside)⟩
  calc array[i]? = (cString array ++ rest)[i]? := congrArg (fun a : Text => a[i]?) whole.symm
    _ = (cString array)[i]? := List.getElem?_append_left inside
    _ = some (cString array)[i] := found

theorem overwriteOutside {array data : Text} {offset i : Nat} {b : UInt8}
    (found : (overwrite array offset data)[i]? = some b) (outside : ¬ (offset ≤ i ∧ i < offset + data.length)) :
    array[i]? = some b := by
  have inside : i < array.length := by
    have bound := (List.getElem?_eq_some_iff.mp found).1
    rw [overwrite,List.length_take] at bound
    omega
  rw [overwrite,List.getElem?_take_of_lt inside] at found
  by_cases before : i < offset
  · have early : i < (array.take offset).length := by rw [List.length_take]; omega
    rwa [List.append_assoc,List.getElem?_append_left early,List.getElem?_take_of_lt before] at found
  · have late : (array.take offset ++ data).length ≤ i := by
      rw [List.length_append,List.length_take]
      omega
    rw [List.getElem?_append_right late,List.getElem?_drop] at found
    have place : offset + data.length + (i - (array.take offset ++ data).length) = i := by
      rw [List.length_append,List.length_take]
      omega
    rwa [place] at found

end SimpleChat
