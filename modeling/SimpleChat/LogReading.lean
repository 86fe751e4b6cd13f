import SimpleChat.LineBuffer

/-! Log files read back: lines at newlines, in each the time, the level and the message.
The reader is no part of the program. It says what a log file is for, and the lines
that `write_log` composes are shown to be what it reads. -/
namespace SimpleChat.LogReading
open Log (Tm Entry padded)
open LineBuffer (logStamp)

def blank : UInt8 := 32

def field (stop : UInt8) (text : Text) : Option (Nat × Text) := match text.dropWhile (fun b => decide (isDigit b)) with
  | b :: rest => if b = stop then some (numberOf (text.takeWhile (fun b => decide (isDigit b))),rest) else none
  | [] => none

def readTime (text : Text) : Option ((Tm × Nat) × Text) := do
  let (year,text) ← field 45 text
  let (mon,text) ← field 45 text
  let (mday,text) ← field blank text
  let (hour,text) ← field 58 text
  let (min,text) ← field 58 text
  let (sec,text) ← field 46 text
  let (usec,text) ← field blank text
  some ((⟨year,mon,mday,hour,min,sec⟩,usec),text)

def levels : List Int := [0,1,2,3]

def readLevel (tag : Int → Text) (text : Text) : Option (Int × Text) :=
  match levels.find? (fun level => tag level = text.takeWhile (· ≠ blank)), text.dropWhile (· ≠ blank) with
  | some level, _ :: message => some (level,message)
  | _, _ => none

def readEntry (tag : Int → Text) (row : Text) : Option Entry := do
  let (time,text) ← readTime row
  let (level,message) ← readLevel tag text
  some ⟨level,message,time.1,time.2⟩

def readLog (tag : Int → Text) (file : Text) : List (Option Entry) × Text :=
  ((file.splitOn newline).dropLast.map (readEntry tag),(file.splitOn newline).getLastD [])

/- An entry as a reader can know it: other levels are shown as level 1. -/
def shown (e : Entry) : Entry := {e with level := if e.level ∈ levels then e.level else 1}

def timeText (tm : Tm) (usec : Nat) : Text :=
  decimal tm.year ++ ascii "-" ++ padded 2 tm.mon ++ ascii "-" ++ padded 2 tm.mday ++ ascii " " ++ padded 2 tm.hour ++
    ascii ":" ++ padded 2 tm.min ++ ascii ":" ++ padded 2 tm.sec ++ ascii "." ++ padded 6 usec ++ ascii " "

def row (tag : Int → Text) (e : Entry) : Text := timeText e.tm e.usec ++ (tag e.level ++ blank :: e.message)

structure Tags (tag : Int → Text) : Prop where
  word : ∀ level, blank ∉ tag level ∧ newline ∉ tag level ∧ (0 : UInt8) ∉ tag level
  known : ∀ level ∈ levels, ∀ level' ∈ levels, tag level = tag level' → level = level'
  other : ∀ level, level ∉ levels → tag level = tag 1

section Tables

theorem logTags : Tags Log.levelTag := by
  refine ⟨fun level => ?_,by decide,fun level unknown => ?_⟩
  · unfold Log.levelTag
    repeat' split
    all_goals decide
  · simp only [levels,List.mem_cons,List.not_mem_nil,or_false,not_or] at unknown
    simp [Log.levelTag,unknown]

theorem serverLogTags : Tags ServerLog.levelStr := by
  refine ⟨fun level => ?_,by decide,fun level unknown => ?_⟩
  · unfold ServerLog.levelStr
    repeat' split
    all_goals decide
  · simp only [levels,List.mem_cons,List.not_mem_nil,or_false,not_or] at unknown
    simp [ServerLog.levelStr,unknown]

theorem logStampRow (e : Entry) : logStamp e ++ e.message = row Log.levelTag e := by
  have space : ascii " " = [blank] := rfl
  simp only [logStamp,row,timeText,space,List.append_assoc,List.cons_append,List.nil_append]

theorem headerRow (e : Entry) : ServerLog.header e ++ e.message = row ServerLog.levelStr e := by
  have space : ascii " " = [blank] := rfl
  simp only [ServerLog.header,row,timeText,space,List.append_assoc,List.cons_append,List.nil_append]

end Tables

theorem fieldRead {digits : Text} {n : Nat} {stop : UInt8} (number : numberOf digits = n) (all : ∀ b ∈ digits, isDigit b)
    (stops : ¬ isDigit stop) (rest : Text) : field stop (digits ++ stop :: rest) = some (n,rest) := by
  have inside : ∀ b ∈ digits, decide (isDigit b) = true := fun b member => decide_eq_true (all b member)
  have outside : decide (isDigit stop) = false := decide_eq_false stops
  have behind : (digits ++ stop :: rest).dropWhile (fun b => decide (isDigit b)) = stop :: rest := by
    rw [List.dropWhile_append_of_pos inside,List.dropWhile_cons_of_neg (by simp [outside])]
  have before : (digits ++ stop :: rest).takeWhile (fun b => decide (isDigit b)) = digits := by
    rw [List.takeWhile_append_of_pos inside,List.takeWhile_cons_of_neg (by simp [outside]),List.append_nil]
  simp only [field,behind,before,if_true,number]

theorem timeRead (tm : Tm) (usec : Nat) (rest : Text) :
    readTime (timeText tm usec ++ rest) = some ((tm,usec),rest) := by
  have marks : ascii "-" = [45] ∧ ascii " " = [blank] ∧ ascii ":" = [58] ∧ ascii "." = [46] := by decide
  obtain ⟨dash,space,colon,dot⟩ := marks
  have plain (n : Nat) {stop : UInt8} (stops : ¬ isDigit stop) (rest : Text) :=
    fieldRead (numberDecimal n) (fun _ => decimalDigit) stops rest
  have wide (width n : Nat) {stop : UInt8} (stops : ¬ isDigit stop) (rest : Text) :=
    fieldRead (numberPadded width n) (fun _ => paddedDigit) stops rest
  simp only [readTime,timeText,dash,space,colon,dot,List.append_assoc,List.cons_append,List.nil_append]
  rw [plain tm.year (by decide),Option.bind_eq_bind,Option.bind_some,wide 2 tm.mon (by decide),Option.bind_some,
    wide 2 tm.mday (by decide),Option.bind_some,wide 2 tm.hour (by decide),Option.bind_some,wide 2 tm.min (by decide),
    Option.bind_some,wide 2 tm.sec (by decide),Option.bind_some,wide 6 usec (by decide)]
  rfl

variable {tag : Int → Text}

theorem Tags.found (tags : Tags tag) (level : Int) :
    levels.find? (fun l => decide (tag l = tag level)) = some (if level ∈ levels then level else 1) := by
  have first {l : Int} (member : l ∈ levels) : levels.find? (fun k => decide (tag k = tag l)) = some l := by
    have some_ : ∃ k, levels.find? (fun k => decide (tag k = tag l)) = some k :=
      Option.isSome_iff_exists.mp (List.find?_isSome.mpr ⟨l,member,decide_eq_true rfl⟩)
    obtain ⟨k,found⟩ := some_
    have same : tag k = tag l := by simpa using List.find?_some found
    rw [found,tags.known k (List.mem_of_find?_eq_some found) l member same]
  by_cases member : level ∈ levels
  · rw [first member,if_pos member]
  · rw [tags.other level member,first (by decide),if_neg member]

theorem levelRead (tags : Tags tag) (level : Int) (message : Text) :
    readLevel tag (tag level ++ blank :: message) = some (if level ∈ levels then level else 1,message) := by
  have inside : ∀ b ∈ tag level, decide (b ≠ blank) = true :=
    fun b member => decide_eq_true (fun same => (tags.word level).1 (same ▸ member))
  have behind : (tag level ++ blank :: message).dropWhile (fun b => decide (b ≠ blank)) = blank :: message := by
    rw [List.dropWhile_append_of_pos inside,List.dropWhile_cons_of_neg (by simp)]
  have before : (tag level ++ blank :: message).takeWhile (fun b => decide (b ≠ blank)) = tag level := by
    rw [List.takeWhile_append_of_pos inside,List.takeWhile_cons_of_neg (by simp),List.append_nil]
  simp only [readLevel,behind,before,tags.found level]

theorem entryRead (tags : Tags tag) (e : Entry) : readEntry tag (row tag e) = some (shown e) := by
  simp only [readEntry,row,timeRead,levelRead tags,bind,Option.bind]
  rfl

section Parts

theorem fieldSuffix {stop : UInt8} {text rest : Text} {n : Nat} (read : field stop text = some (n,rest)) : rest <:+ text := by
  unfold field at read
  split at read <;> try contradiction
  rename_i b behind here
  split at read <;> try contradiction
  cases Option.some.inj read
  exact (List.suffix_cons b rest).trans (here ▸ List.dropWhile_suffix _)

theorem timeSuffix {text rest : Text} {time : Tm × Nat} (read : readTime text = some (time,rest)) : rest <:+ text := by
  simp only [readTime,Option.bind_eq_bind,Option.bind_eq_some_iff] at read
  obtain ⟨⟨_,a⟩,first,⟨_,b⟩,second,⟨_,c⟩,third,⟨_,d⟩,fourth,⟨_,e⟩,fifth,⟨_,f⟩,sixth,⟨_,g⟩,seventh,last⟩ := read
  cases Option.some.inj last
  calc g <:+ f := fieldSuffix seventh
    _ <:+ e := fieldSuffix sixth
    _ <:+ d := fieldSuffix fifth
    _ <:+ c := fieldSuffix fourth
    _ <:+ b := fieldSuffix third
    _ <:+ a := fieldSuffix second
    _ <:+ text := fieldSuffix first

theorem messageInside {text : Text} {e : Entry} (read : readEntry tag text = some e) : ∀ b ∈ e.message, b ∈ text := by
  obtain ⟨⟨time,behind⟩,first,read⟩ := Option.bind_eq_some_iff.mp read
  obtain ⟨⟨level,message⟩,second,read⟩ := Option.bind_eq_some_iff.mp read
  cases Option.some.inj read
  unfold readLevel at second
  split at second <;> try contradiction
  rename_i b message_ found here
  cases Option.some.inj second
  have suffix : message <:+ text :=
    ((List.suffix_cons b message).trans (here ▸ List.dropWhile_suffix _)).trans (timeSuffix first)
  exact fun b member => suffix.subset member

theorem splitClean (text : Text) : ∀ line ∈ text.splitOn newline, newline ∉ line := by
  induction text with
  | nil => simp
  | cons b text ih =>
    rw [List.splitOn_cons_eq_if_modifyHead]
    split
    · simpa using ih
    · rename_i other
      cases lines : text.splitOn newline with
      | nil => simp
      | cons first rest =>
        rw [lines] at ih
        intro line member
        rcases List.mem_cons.mp member with rfl | later
        · have inFirst := ih first List.mem_cons_self
          have different : newline ≠ b := fun same => other (by simp [same])
          exact fun among => (List.mem_cons.mp among).elim different inFirst
        · exact ih line (List.mem_cons_of_mem _ later)

theorem timeClean {b : UInt8} (other : ¬ isDigit b ∧ b ∉ [45,32,58,46]) (tm : Tm) (usec : Nat) : b ∉ timeText tm usec := by
  obtain ⟨noDigit,noMark⟩ := other
  have marks : b ∉ ascii "-" ∧ b ∉ ascii " " ∧ b ∉ ascii ":" ∧ b ∉ ascii "." := by
    simpa [ascii] using noMark
  have plain (n : Nat) : b ∉ decimal n := fun member => noDigit (decimalDigit member)
  have wide (width n : Nat) : b ∉ padded width n := fun member => noDigit (paddedDigit member)
  simp only [timeText,List.mem_append,plain,wide,marks,or_self,not_false_eq_true]

theorem rowClean (tags : Tags tag) (e : Entry) : newline ∈ row tag e ↔ newline ∈ e.message := by
  have other : newline ≠ blank := by decide
  have time := timeClean (show ¬ isDigit newline ∧ newline ∉ [45,32,58,46] by decide) e.tm e.usec
  simp only [row,List.mem_append,List.mem_cons,time,(tags.word e.level).2.1,other,false_or]

end Parts

def line (tag : Int → Text) (e : Entry) : Text := row tag e ++ [newline]

theorem lineKept (tags : Tags tag) {e : Entry} (clean : (0 : UInt8) ∉ e.message) : cString (line tag e) = line tag e := by
  have time := timeClean (show ¬ isDigit 0 ∧ (0 : UInt8) ∉ [45,32,58,46] by decide) e.tm e.usec
  have others : (0 : UInt8) ≠ blank ∧ (0 : UInt8) ≠ newline := by decide
  refine cStringWhole ?_
  simp only [line,row,List.mem_append,List.mem_cons,List.not_mem_nil,time,(tags.word e.level).2.2,clean,others,or_self,
    not_false_eq_true]

theorem rowsRead (tags : Tags tag) {entries : List Entry} (clean : ∀ e ∈ entries, newline ∉ e.message) :
    (entries.flatMap (line tag)).splitOn newline = entries.map (row tag) ++ [[]] := by
  induction entries with
  | nil => rfl
  | cons e entries ih =>
    obtain ⟨own,others⟩ := List.forall_mem_cons.mp clean
    rw [List.flatMap_cons,line,List.append_assoc,List.singleton_append,
      List.splitOn_append_cons_self_of_not_mem (fun member => own ((rowClean tags e).mp member)),ih others]
    rfl

/- A file of whole lines reads back as what was logged exactly when no message has a
newline in it. -/
theorem logRead (tags : Tags tag) (entries : List Entry) :
    readLog tag (entries.flatMap (line tag)) = (entries.map (fun e => some (shown e)),[]) ↔
      ∀ e ∈ entries, newline ∉ e.message := by
  constructor
  · intro read e member inside
    have lines := congrArg Prod.fst read
    have here : some (shown e) ∈ (readLog tag (entries.flatMap (line tag))).1 := by
      rw [lines]
      exact List.mem_map.mpr ⟨e,member,rfl⟩
    obtain ⟨text,among,reads⟩ := List.mem_map.mp here
    exact splitClean _ text (List.mem_of_mem_dropLast among) (messageInside reads _ inside)
  · intro clean
    rw [readLog,rowsRead tags clean]
    simp [entryRead tags,Function.comp_def]

end SimpleChat.LogReading
