import SimpleChat.Basis.Memory
import SimpleChat.Dates

/-! How `write_log` composes a line in `m_buf`: `snprintf`, `vsnprintf` behind it,
and a newline and a NUL where the untruncated lengths point. The buffer is the
memory from `m_buf` on, with any old contents, and no store is stopped at its end. -/
namespace SimpleChat.LineBuffer
open Basis (Block storeAll contents contentsTake contentsGet contentsBelow contentsStore storeAt storeBelow)
open Log (snprintf Entry padded)

def printed (size : Nat) (expansion : Text) : Text := if size = 0 then [] else snprintf size expansion ++ [0]

def lineBlocks (headSize textSize : Nat) (head text : Text) : List (Block UInt8) :=
  [⟨0,printed headSize head⟩,⟨head.length,printed textSize text⟩,⟨head.length + text.length,[10]⟩,
   ⟨head.length + text.length + 1,[0]⟩]

/- `std::string log_str = m_buf`; the last store is a NUL. -/
def record (headSize textSize : Nat) (head text : Text) (old : Nat → UInt8) : Text :=
  cString (contents (storeAll (lineBlocks headSize textSize head text) old) (head.length + text.length + 2))

/- Every index written lies in the buffer, and the record is the header, the
text or, where that does not fit, a part of it, and a newline. -/
structure WholeLine (bufSize : Int) (headSize textSize : Nat) (head text : Text) (old : Nat → UInt8) : Prop where
  inside : ∀ block ∈ lineBlocks headSize textSize head text, ∀ i ∈ block.indices, (i : Int) < bufSize
  whole : ∃ part, record headSize textSize head text old = head ++ part ++ [10] ∧
    (part = text ∨ (part <+: text ∧ bufSize < head.length + text.length + 2))

section Line
variable {headSize textSize : Nat} {head text : Text}

theorem printedLength (size : Nat) (expansion : Text) : (printed size expansion).length ≤ expansion.length + 1 := by
  unfold printed snprintf
  split <;> simp

theorem snprintfWhole {size : Nat} {expansion : Text} (fits : expansion.length < size ∨ expansion = []) :
    snprintf size expansion = expansion := by
  rcases fits with fits | rfl
  · exact List.take_of_length_le (by omega)
  · exact List.take_nil

theorem printedCut {size : Nat} {expansion : Text} (positive : 0 < size) (cut : size ≤ expansion.length) :
    (printed size expansion)[size - 1]? = some 0 := by
  have length : (snprintf size expansion).length = size - 1 := by
    rw [snprintf,List.length_take]
    omega
  rw [printed,if_neg (by omega),List.getElem?_append_right (by omega),length,Nat.sub_self]
  rfl

theorem insideIff (bufSize : Int) :
    (∀ block ∈ lineBlocks headSize textSize head text, ∀ i ∈ block.indices, (i : Int) < bufSize) ↔
    ((head.length + text.length + 2 : Nat) : Int) ≤ bufSize := by
  constructor
  · intro inside
    have last := inside ⟨head.length + text.length + 1,[0]⟩ (by simp [lineBlocks]) (head.length + text.length + 1)
      (by simp [Block.indices])
    omega
  · intro fits block member i index
    obtain ⟨_,below⟩ := List.mem_range'_1.mp index
    have headLength := printedLength headSize head
    have textLength := printedLength textSize text
    simp only [lineBlocks,List.mem_cons,List.not_mem_nil,or_false] at member
    rcases member with rfl | rfl | rfl | rfl <;> simp only [List.length_singleton] at below <;> omega

variable (old : Nat → UInt8)

theorem recordClean : (0 : UInt8) ∉ record headSize textSize head text old := by
  intro member
  have nonzero := List.mem_takeWhile_imp member
  simp at nonzero

theorem recordShort {i : Nat} (inside : i < head.length + text.length + 2)
    (zero : storeAll (lineBlocks headSize textSize head text) old i = 0) :
    (record headSize textSize head text old).length ≤ i := by
  by_contra longer
  obtain ⟨b,found,nonzero⟩ := cStringAt (Nat.lt_of_not_le longer)
  rw [contentsGet inside,zero] at found
  exact nonzero (Option.some.inj found).symm

theorem textStored (textSize : Nat) (text : Text) {memory : Nat → UInt8} (held : contents memory head.length = head) :
    contents ((⟨head.length,printed textSize text⟩ : Block UInt8).store memory)
      (head.length + (snprintf textSize text).length) = head ++ snprintf textSize text := by
  rcases Nat.eq_zero_or_pos textSize with rfl | positive
  · have nothing : snprintf 0 text = [] := List.take_zero
    rw [nothing,List.append_nil]
    exact (contentsBelow _ _ (Nat.le_refl head.length)).trans held
  · have stored := contentsStore ⟨head.length,printed textSize text⟩ memory rfl held
    rw [printed,if_neg (by omega)] at stored ⊢
    rw [← contentsTake _ (show _ ≤ head.length + (snprintf textSize text ++ [0]).length by simp),stored,
      ← List.append_assoc,← List.length_append,List.take_left]

theorem headStored (headFits : head.length < headSize) :
    contents ((⟨0,printed headSize head⟩ : Block UInt8).store old) head.length = head := by
  have stored := textStored headSize head (show contents old ([] : Text).length = [] from rfl)
  simpa [snprintfWhole (.inl headFits)] using stored

theorem lineStored (headFits : head.length < headSize) (textFits : text.length < textSize ∨ text = []) :
    contents (storeAll (lineBlocks headSize textSize head text) old) (head.length + text.length + 2) =
      head ++ text ++ [10] ++ [0] := by
  have second := textStored textSize text (headStored old headFits)
  rw [snprintfWhole textFits,← List.length_append] at second
  have third := contentsStore ⟨(head ++ text).length,[10]⟩ _ rfl second
  rw [← List.length_append] at third
  have fourth := contentsStore ⟨(head ++ text ++ [10]).length,[0]⟩ _ rfl third
  simp only [List.length_append,List.length_singleton] at fourth
  exact fourth

theorem endStores (memory : Nat → UInt8) {i : Nat} (early : i < head.length + text.length) :
    storeAll [⟨head.length + text.length,[10]⟩,⟨head.length + text.length + 1,[0]⟩] memory i = memory i := by
  rw [storeAll,storeAll,storeAll,storeBelow _ _ (by simp only; omega),storeBelow _ _ early]

theorem headZero (positive : 0 < headSize) (cut : headSize ≤ head.length) :
    storeAll (lineBlocks headSize textSize head text) old (headSize - 1) = 0 := by
  have stored := storeAt ⟨0,printed headSize head⟩ old (printedCut positive cut)
  rw [Nat.zero_add] at stored
  have behind := storeBelow ⟨head.length,printed textSize text⟩ ((⟨0,printed headSize head⟩ : Block UInt8).store old)
    (show headSize - 1 < head.length by omega)
  exact (endStores _ (by omega)).trans (behind.trans stored)

theorem textZero (headFits : head.length < headSize) (cut : textSize ≤ text.length) (some_ : text ≠ []) :
    storeAll (lineBlocks headSize textSize head text) old (head.length + (textSize - 1)) = 0 := by
  have long := List.length_pos_iff.mpr some_
  refine (endStores _ (by omega)).trans ?_
  rcases Nat.eq_zero_or_pos textSize with rfl | room
  · have ending : (printed headSize head)[head.length]? = some 0 := by
      rw [printed,if_neg (by omega),snprintfWhole (.inl headFits)]
      simp
    have stored := storeAt ⟨0,printed headSize head⟩ old ending
    rw [Nat.zero_add] at stored
    simpa [Block.store,printed] using stored
  · exact storeAt ⟨head.length,printed textSize text⟩ _ (printedCut room cut)

theorem cStringUpTo {bytes known : Text} (held : bytes.take known.length = known)
    (zero : bytes[known.length]? = some 0) : cString bytes = cString known := by
  obtain ⟨inside,value⟩ := List.getElem?_eq_some_iff.mp zero
  rw [← List.take_append_drop known.length bytes,held,List.drop_eq_getElem_cons inside,value,cStringNul]

theorem recordCut (headFits : head.length < headSize) (cut : textSize ≤ text.length) (some_ : text ≠ []) :
    record headSize textSize head text old = cString (head ++ snprintf textSize text) := by
  have long := List.length_pos_iff.mpr some_
  have size : (snprintf textSize text).length = textSize - 1 := by
    rw [snprintf,List.length_take]
    omega
  have second := textStored textSize text (headStored old headFits)
  have known : contents (storeAll (lineBlocks headSize textSize head text) old) (head ++ snprintf textSize text).length =
      head ++ snprintf textSize text := by
    rw [List.length_append]
    exact (contentsBelow _ _ (by simp only; omega)).trans ((contentsBelow _ _ (by simp only; omega)).trans second)
  refine cStringUpTo ?_ ?_
  · rw [contentsTake _ (by rw [List.length_append]; omega)]
    exact known
  · rw [contentsGet (by rw [List.length_append]; omega),List.length_append,size]
    exact congrArg some (textZero old headFits cut some_)

theorem recordStored (headFits : head.length < headSize) (textFits : text.length < textSize ∨ text = []) :
    record headSize textSize head text old = cString (head ++ text ++ [10]) := by
  rw [record,lineStored old headFits textFits,cStringNul]

theorem wholeIff (positive : 0 < headSize) :
    record headSize textSize head text old = head ++ text ++ [10] ↔
    (0 : UInt8) ∉ head ++ text ∧ head.length < headSize ∧ (text.length < textSize ∨ text = []) := by
  constructor
  · intro whole
    have clean : (0 : UInt8) ∉ record headSize textSize head text old := recordClean old
    rw [whole] at clean
    refine ⟨fun member => clean (List.mem_append_left _ member),?_⟩
    by_contra cut
    have shortage : headSize ≤ head.length ∨ (textSize ≤ text.length ∧ text ≠ []) := by
      by_contra room
      simp only [not_or,not_and,ne_eq,Decidable.not_not,Nat.not_le] at room
      exact cut ⟨room.1,Nat.lt_or_ge text.length textSize |>.imp_right room.2⟩
    have length : (record headSize textSize head text old).length = head.length + text.length + 1 := by
      rw [whole,List.length_append,List.length_append,List.length_singleton]
    rcases Nat.lt_or_ge head.length headSize with headFits | headCut
    · obtain ⟨textCut,some_⟩ := shortage.resolve_left (Nat.not_le_of_lt headFits)
      have long := List.length_pos_iff.mpr some_
      have short := recordShort old (by omega) (textZero old headFits textCut some_)
      omega
    · have zero : storeAll (lineBlocks headSize textSize head text) old (headSize - 1) = 0 := headZero old positive headCut
      have short := recordShort old (by omega) zero
      omega
  · rintro ⟨clean,headFits,textFits⟩
    rw [recordStored old headFits textFits]
    refine cStringWhole (fun member => (List.mem_append.mp member).elim clean (fun last => ?_))
    exact absurd (List.mem_singleton.mp last) (by decide)

theorem wholeLineIff (positive : 0 < headSize) (bufSize : Int) :
    WholeLine bufSize headSize textSize head text old ↔
    ((head.length + text.length + 2 : Nat) : Int) ≤ bufSize ∧ (0 : UInt8) ∉ head ++ text ∧ head.length < headSize ∧
      (text.length < textSize ∨ text = []) := by
  constructor
  · rintro ⟨inside,part,same,whole | ⟨_,large⟩⟩
    · subst whole
      exact ⟨(insideIff bufSize).mp inside,(wholeIff old positive).mp same⟩
    · have fits := (insideIff bufSize).mp inside
      omega
  · rintro ⟨fits,whole⟩
    exact ⟨(insideIff bufSize).mpr fits,text,(wholeIff old positive).mpr whole,.inl rfl⟩

end Line
theorem sizeTOf {n : Int} (positive : 0 ≤ n) (int : n ≤ intMax) : sizeT n = n.toNat := by
  unfold sizeT
  rw [Int.emod_eq_of_lt positive (by unfold intMax at int; omega)]

def logStamp (e : Entry) : Text :=
  decimal e.tm.year ++ ascii "-" ++ padded 2 e.tm.mon ++ ascii "-" ++ padded 2 e.tm.mday ++ ascii " " ++
    padded 2 e.tm.hour ++ ascii ":" ++ padded 2 e.tm.min ++ ascii ":" ++ padded 2 e.tm.sec ++ ascii "." ++
    padded 6 e.usec ++ ascii " " ++ Log.levelTag e.level ++ ascii " "

def logRoom (bufSize : Int) (e : Entry) : Nat := sizeT (bufSize - (logStamp e).length - 1)
def serverRoom (bufSize : Int) (e : Entry) : Nat := sizeT (bufSize - (ServerLog.header e).length - 2)

def LogLine (bufSize : Int) (e : Entry) (old : Nat → UInt8) : Prop :=
  WholeLine bufSize 48 (logRoom bufSize e) (logStamp e) e.message old

def ServerLogLine (bufSize : Int) (e : Entry) (old : Nat → UInt8) : Prop :=
  WholeLine bufSize (sizeT (bufSize - 1)) (serverRoom bufSize e) (ServerLog.header e) e.message old

theorem stampClean (e : Entry) : (0 : UInt8) ∉ logStamp e := by
  have tag : (0 : UInt8) ∉ Log.levelTag e.level := by
    unfold Log.levelTag
    repeat' split
    all_goals decide
  have marks : (0 : UInt8) ∉ ascii "-" ∧ (0 : UInt8) ∉ ascii " " ∧ (0 : UInt8) ∉ ascii ":" ∧ (0 : UInt8) ∉ ascii "." := by
    decide
  simp only [logStamp,List.mem_append,decimalNonzero,paddedNonzero,tag,marks,or_self,not_false_eq_true]

theorem headerClean (e : Entry) : (0 : UInt8) ∉ ServerLog.header e := by
  have tag : (0 : UInt8) ∉ ServerLog.levelStr e.level := by
    unfold ServerLog.levelStr
    repeat' split
    all_goals decide
  have marks : (0 : UInt8) ∉ ascii "-" ∧ (0 : UInt8) ∉ ascii " " ∧ (0 : UInt8) ∉ ascii ":" ∧ (0 : UInt8) ∉ ascii "." := by
    decide
  simp only [ServerLog.header,List.mem_append,decimalNonzero,paddedNonzero,tag,marks,or_self,not_false_eq_true]

section Loggers
variable {bufSize : Int} (int : bufSize ≤ intMax) (e : Entry) (old : Nat → UInt8)
include int

theorem logLineIff :
    LogLine bufSize e old ↔
    (0 : UInt8) ∉ e.message ∧ (logStamp e).length < 48 ∧
      (((logStamp e).length + e.message.length + 2 : Nat) : Int) ≤ bufSize := by
  rw [LogLine,wholeLineIff old (by decide)]
  constructor
  · rintro ⟨fits,clean,short,_⟩
    exact ⟨fun member => clean (List.mem_append_right _ member),short,fits⟩
  · rintro ⟨clean,short,fits⟩
    refine ⟨fits,fun member => (List.mem_append.mp member).elim (stampClean e) clean,short,.inl ?_⟩
    rw [logRoom,sizeTOf (by omega) (by omega)]
    omega

theorem serverLogLineIff :
    ServerLogLine bufSize e old ↔
    (0 : UInt8) ∉ e.message ∧
      ((((ServerLog.header e).length + e.message.length + 3 : Nat) : Int) ≤ bufSize ∨
        (e.message = [] ∧ (((ServerLog.header e).length + 2 : Nat) : Int) ≤ bufSize)) := by
  have sizes (fits : (((ServerLog.header e).length + 2 : Nat) : Int) ≤ bufSize) :
      sizeT (bufSize - 1) = (bufSize - 1).toNat ∧
      serverRoom bufSize e = (bufSize - (ServerLog.header e).length - 2).toNat :=
    ⟨sizeTOf (by omega) (by omega),sizeTOf (by omega) (by omega)⟩
  constructor
  · intro line
    have fits := (insideIff bufSize).mp line.inside
    obtain ⟨first,second⟩ := sizes (by omega)
    obtain ⟨_,clean,_,room⟩ := (wholeLineIff old (by omega) bufSize).mp line
    refine ⟨fun member => clean (List.mem_append_right _ member),?_⟩
    rcases room with room | nothing
    · exact .inl (by omega)
    · exact .inr ⟨nothing,by omega⟩
  · rintro ⟨clean,room⟩
    have fits : (((ServerLog.header e).length + e.message.length + 2 : Nat) : Int) ≤ bufSize := by
      rcases room with room | ⟨nothing,room⟩
      · omega
      · rw [nothing,List.length_nil]
        exact room
    obtain ⟨first,second⟩ := sizes (by omega)
    refine (wholeLineIff old (by omega) bufSize).mpr
      ⟨fits,fun member => (List.mem_append.mp member).elim (headerClean e) clean,by omega,?_⟩
    rcases room with room | ⟨nothing,_⟩
    · exact .inl (by omega)
    · exact .inr nothing

/- Both loggers: what keeps the stores in the buffer and the line whole. -/
theorem writeLogLineIff :
    (LogLine bufSize e old ↔
      (0 : UInt8) ∉ e.message ∧ (logStamp e).length < 48 ∧
        (((logStamp e).length + e.message.length + 2 : Nat) : Int) ≤ bufSize) ∧
    (ServerLogLine bufSize e old ↔
      (0 : UInt8) ∉ e.message ∧
        ((((ServerLog.header e).length + e.message.length + 3 : Nat) : Int) ≤ bufSize ∨
          (e.message = [] ∧ (((ServerLog.header e).length + 2 : Nat) : Int) ≤ bufSize))) :=
  ⟨logLineIff int e old,serverLogLineIff int e old⟩

theorem logRecord (short : (logStamp e).length < 48) (room : ((logStamp e).length : Int) < bufSize) :
    record 48 (logRoom bufSize e) (logStamp e) e.message old = Log.logStr bufSize.toNat e := by
  have head : Log.header e = logStamp e := snprintfWhole (.inl short)
  have size : logRoom bufSize e = (bufSize - (logStamp e).length - 1).toNat := sizeTOf (by omega) (by omega)
  rw [Log.logStr,head]
  by_cases fits : e.message.length ≤ bufSize.toNat - (logStamp e).length - 2
  · rw [if_pos fits]
    refine recordStored old short ?_
    rcases Nat.eq_zero_or_pos e.message.length with nothing | some_
    · exact .inr (List.eq_nil_of_length_eq_zero nothing)
    · exact .inl (by omega)
  · rw [if_neg fits,recordCut old short (by omega) (List.length_pos_iff.mp (by omega)),snprintf,
      show logRoom bufSize e - 1 = bufSize.toNat - (logStamp e).length - 2 by omega]

theorem serverLogRecord (room : (((ServerLog.header e).length + 2 : Nat) : Int) ≤ bufSize) :
    record (sizeT (bufSize - 1)) (serverRoom bufSize e) (ServerLog.header e) e.message old = ServerLog.logStr bufSize e := by
  have first : sizeT (bufSize - 1) = (bufSize - 1).toNat := sizeTOf (by omega) (by omega)
  have headFits : (ServerLog.header e).length < sizeT (bufSize - 1) := by omega
  simp only [ServerLog.logStr,snprintfWhole (.inl headFits),Nat.lt_irrefl,if_false]
  rw [← serverRoom]
  by_cases fits : e.message.length < serverRoom bufSize e ∨ e.message = []
  · rw [if_pos fits]
    exact recordStored old headFits fits
  · rw [if_neg fits]
    obtain ⟨cut,some_⟩ := not_or.mp fits
    exact recordCut old headFits (Nat.le_of_not_lt cut) some_

end Loggers

theorem stampShort {e : Entry} (year : e.tm.year < 10 ^ 10) (months : e.tm.mon < 10 ^ 2) (days : e.tm.mday < 10 ^ 2)
    (hours : e.tm.hour < 10 ^ 2) (minutes : e.tm.min < 10 ^ 2) (seconds : e.tm.sec < 10 ^ 2) (usecs : e.usec < 10 ^ 6) :
    (logStamp e).length < 48 := by
  have digits := decimalLength (by decide) year
  have tag : (Log.levelTag e.level).length ≤ 8 := by
    unfold Log.levelTag
    repeat' split
    all_goals decide
  have marks : (ascii "-").length = 1 ∧ (ascii " ").length = 1 ∧ (ascii ":").length = 1 ∧ (ascii ".").length = 1 := by
    decide
  simp only [logStamp,List.length_append,paddedLength (by decide) months,paddedLength (by decide) days,
    paddedLength (by decide) hours,paddedLength (by decide) minutes,paddedLength (by decide) seconds,
    paddedLength (by decide) usecs,marks]
  omega

def fourBytes : Entry := ⟨1,ascii "full",⟨2025,1,1,12,0,0⟩,0⟩

theorem sampleLineIff :
    (LogLine 40 fourBytes (fun _ => 0) ↔
      (0 : UInt8) ∉ fourBytes.message ∧ (logStamp fourBytes).length < 48 ∧
        (((logStamp fourBytes).length + fourBytes.message.length + 2 : Nat) : Int) ≤ 40) ∧
    (ServerLogLine 40 fourBytes (fun _ => 0) ↔
      (0 : UInt8) ∉ fourBytes.message ∧
        ((((ServerLog.header fourBytes).length + fourBytes.message.length + 3 : Nat) : Int) ≤ 40 ∨
          (fourBytes.message = [] ∧ (((ServerLog.header fourBytes).length + 2 : Nat) : Int) ≤ 40))) :=
  writeLogLineIff (by decide) fourBytes (fun _ => 0)

theorem fullBufferBreaksLine :
    (logStamp fourBytes).length < 40 ∧ (ServerLog.header fourBytes).length < 40 ∧
    ¬ LogLine 40 fourBytes (fun _ => 0) ∧ ¬ ServerLogLine 40 fourBytes (fun _ => 0) ∧
    40 ∈ (lineBlocks 48 (logRoom 40 fourBytes) (logStamp fourBytes) fourBytes.message).flatMap Block.indices ∧
    record (sizeT 39) (serverRoom 40 fourBytes) (ServerLog.header fourBytes) fourBytes.message (fun _ => 0) =
      ServerLog.header fourBytes ++ ascii "ful" := by
  refine ⟨by decide +kernel,by decide +kernel,fun line => ?_,fun line => ?_,by decide +kernel,by decide +kernel⟩
  · exact absurd ((logLineIff (by decide) _ _).mp line) (by decide +kernel)
  · exact absurd ((serverLogLineIff (by decide) _ _).mp line) (by decide +kernel)

end SimpleChat.LineBuffer
