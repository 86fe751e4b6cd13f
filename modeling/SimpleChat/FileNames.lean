import SimpleChat.Dates

/-! The names of the log files. `init` builds one from its argument and a rotation
builds one from `dir_name` and `log_name`, which only a `file_name` with a '/'
fills in. Both loggers do this with their own bounds for `snprintf`. -/
namespace SimpleChat.FileNames
open Log (Tm snprintf padded)
open ServerLog (strrchr date slash)

structure Parts where
  dirName : Text
  logName : Text
  deriving DecidableEq, Repr

def blank : Parts := ⟨zeros 128,zeros 128⟩

def save (p : Parts) (fileName : Text) : Parts := match strrchr fileName with
  | none => p
  | some (dir,base) => ⟨strncpy p.dirName fileName dir.length,strcpy p.logName base⟩

structure Limits where
  full : Nat
  tail : Nat
  positive : 0 < tail
  room : tail + 128 ≤ full
  deriving DecidableEq, Repr

def logLimits : Limits := ⟨300,16,by decide,by decide⟩
def serverLogLimits : Limits := ⟨255,15,by decide,by decide⟩

def initName (limits : Limits) (p : Parts) (fileName : Text) (tm : Tm) : Text := match strrchr fileName with
  | none => snprintf limits.full (date tm ++ fileName)
  | some _ =>
      let saved := save p fileName
      snprintf limits.full (cString saved.dirName ++ date tm ++ cString saved.logName)

def suffix : Option Text → Text
  | none => []
  | some part => ascii "." ++ part

def rotationName (limits : Limits) (dir base : Text) (tm : Tm) (part : Option Text) : Text :=
  snprintf limits.full (dir ++ snprintf limits.tail (date tm) ++ base ++ suffix part)

theorem strrchrNone {fileName : Text} (plain : strrchr fileName = none) : slash ∉ fileName := by
  unfold strrchr at plain
  split at plain
  · cases plain
  · assumption

theorem takeFront {text front back : Text} (whole : text = front ++ back) :
    text.take (text.length - back.length) = front := by
  rw [whole,List.length_append,Nat.add_sub_cancel,List.take_left]

theorem strrchrSplit {fileName dir base : Text} (path : strrchr fileName = some (dir,base)) :
    fileName = dir ++ base ∧ slash ∉ base ∧ ∃ x, dir = x ++ [slash] := by
  unfold strrchr at path
  split at path <;> try contradiction
  rename_i inside
  simp only [Option.some.injEq,Prod.mk.injEq] at path
  obtain ⟨rfl,rfl⟩ := path
  have whole : fileName =
      (fileName.reverse.dropWhile (· ≠ slash)).reverse ++ (fileName.reverse.takeWhile (· ≠ slash)).reverse := by
    rw [← List.reverse_append,List.takeWhile_append_dropWhile,List.reverse_reverse]
  rw [takeFront whole]
  refine ⟨whole,fun member => ?_,?_⟩
  · have other := List.mem_takeWhile_imp (List.mem_reverse.mp member)
    simp at other
  · cases rest : fileName.reverse.dropWhile (· ≠ slash) with
    | nil =>
      have none_ := List.dropWhile_eq_nil_iff.mp rest slash (List.mem_reverse.mpr inside)
      simp at none_
    | cons b more =>
      have last := List.head_dropWhile_not (· ≠ slash) (l := fileName.reverse) (by rw [rest]; simp)
      simp only [rest,List.head_cons,decide_eq_false_iff_not,not_not] at last
      exact ⟨more.reverse,by rw [last,List.reverse_cons]⟩

theorem strrchrTaken {fileName dir base : Text} (path : strrchr fileName = some (dir,base)) :
    fileName.take dir.length = dir ∧ dir.length ≤ fileName.length := by
  obtain ⟨rfl,_⟩ := strrchrSplit path
  rw [List.length_append]
  exact ⟨List.take_left,Nat.le_add_right _ _⟩

theorem strrchrClean {fileName dir base : Text} (path : strrchr fileName = some (dir,base))
    (clean : (0 : UInt8) ∉ fileName) : (0 : UInt8) ∉ dir ∧ (0 : UInt8) ∉ base := by
  obtain ⟨rfl,_⟩ := strrchrSplit path
  rwa [List.mem_append,not_or] at clean

theorem decimalNoSlash (n : Nat) : slash ∉ decimal n := fun member => absurd (decimalDigit member) (by decide)

theorem dateNoSlash (tm : Tm) : slash ∉ date tm := by
  have bar : slash ∉ ascii "_" := by decide
  have digits (width n : Nat) : slash ∉ padded width n := fun member => absurd (paddedDigit member) (by decide)
  simp only [date,List.mem_append,bar,digits,decimalNoSlash,or_self,not_false_eq_true]

theorem datedNoSlash (tm : Tm) {text : Text} (plain : slash ∉ text) : slash ∉ date tm ++ text := by
  rw [List.mem_append,not_or]
  exact ⟨dateNoSlash tm,plain⟩

theorem integerNoSlash (k : Int) : slash ∉ ascii (toString k) := by
  cases k with
  | ofNat n => exact decimalNoSlash n
  | negSucc n =>
    have sign : ascii (toString (Int.negSucc n)) = ascii "-" ++ decimal (n + 1) := by
      show ascii ("-" ++ toString (n + 1)) = _
      simp [ascii,decimal]
    rw [sign,List.mem_append,not_or]
    exact ⟨by decide,decimalNoSlash _⟩

theorem suffixNoSlash {part : Option Text} (digits : ∀ text ∈ part, slash ∉ text) : slash ∉ suffix part := by
  cases part with
  | none => exact List.not_mem_nil
  | some text =>
    rw [suffix,List.mem_append,not_or]
    exact ⟨by decide,digits text rfl⟩

structure Short (fileName : Text) : Prop where
  clean : (0 : UInt8) ∉ fileName
  fits : ∀ dir base, strrchr fileName = some (dir,base) → dir.length < 128 ∧ base.length < 128

inductive Saved : Parts → Prop
  | blank : Saved blank
  | again {p : Parts} (before : Saved p) {fileName : Text} (short : Short fileName) : Saved (save p fileName)

/- `dir_name` is a text and then zeros: `strncpy` stores no NUL, so of a longer
text that was there before the end stays. -/
structure Laid (p : Parts) (dir : Text) : Prop where
  array : p.dirName = dir ++ zeros (128 - dir.length)
  clean : (0 : UInt8) ∉ dir
  short : dir.length < 128
  ends : (dir = [] ∧ p = blank) ∨ ∃ x, dir = x ++ [slash]
  size : p.logName.length = 128

theorem Laid.dirName {p : Parts} {dir : Text} (laid : Laid p dir) : cString p.dirName = dir := by
  rw [laid.array,cStringTail,cStringWhole laid.clean]

theorem Laid.residue {p : Parts} {old : Text} (laid : Laid p old) {n : Nat} (longer : n < old.length) :
    ∃ x, old.drop n = x ++ [slash] := by
  rcases laid.ends with ⟨rfl,_⟩ | ⟨x,rfl⟩
  · simp at longer
  · rw [List.length_append,List.length_singleton] at longer
    exact ⟨x.drop n,List.drop_append_of_le_length (by omega)⟩

theorem laidBlank : Laid blank [] :=
  ⟨rfl,List.not_mem_nil,by decide,.inl ⟨rfl,rfl⟩,List.length_replicate⟩

theorem saveParts {p : Parts} {fileName dir base : Text} (path : strrchr fileName = some (dir,base)) :
    save p fileName = ⟨strncpy p.dirName fileName dir.length,strcpy p.logName base⟩ := by
  simp only [save,path]

theorem strncpyFront {array fileName dir : Text} (size : array.length = 128) (path : fileName.take dir.length = dir)
    (long : dir.length ≤ fileName.length) (fits : dir.length ≤ 128) :
    strncpy array fileName dir.length = dir ++ array.drop dir.length := by
  rw [strncpy,List.take_append_of_le_length long,path,overwrite,List.take_zero,List.nil_append,Nat.zero_add]
  refine List.take_of_length_le ?_
  rw [List.length_append,List.length_drop]
  omega

theorem strncpyLaid {array old dir fileName : Text} (laid : array = old ++ zeros (128 - old.length))
    (short : old.length < 128) (path : fileName.take dir.length = dir) (fits : dir.length < 128)
    (long : dir.length ≤ fileName.length) :
    strncpy array fileName dir.length =
      (dir ++ old.drop dir.length) ++ zeros (128 - (dir ++ old.drop dir.length).length) := by
  have behind : array.drop dir.length = old.drop dir.length ++ zeros (128 - (dir ++ old.drop dir.length).length) := by
    rw [laid,List.drop_append,List.length_append,List.length_drop]
    congr 1
    simp only [zeros,List.drop_replicate]
    congr 1
    omega
  have size : array.length = 128 := by
    rw [laid,List.length_append,zeros,List.length_replicate]
    omega
  rw [strncpyFront size path long (Nat.le_of_lt fits),behind,List.append_assoc]

theorem Laid.save {p : Parts} {old fileName dir base : Text} (laid : Laid p old) (name : Short fileName)
    (path : strrchr fileName = some (dir,base)) :
    Laid (save p fileName) (dir ++ old.drop dir.length) ∧ cString (FileNames.save p fileName).logName = base := by
  obtain ⟨dirFits,baseFits⟩ := name.fits dir base path
  obtain ⟨_,_,x,last⟩ := strrchrSplit path
  obtain ⟨taken,long⟩ := strrchrTaken path
  obtain ⟨dirClean,baseClean⟩ := strrchrClean path name.clean
  rw [saveParts path]
  refine ⟨⟨strncpyLaid laid.array laid.short taken dirFits long,fun member => ?_,?_,.inr ?_,?_⟩,
    cStringCopied baseClean (by rw [laid.size]; exact baseFits)⟩
  · rcases List.mem_append.mp member with front | rest
    · exact dirClean front
    · exact laid.clean (List.mem_of_mem_drop rest)
  · have short := laid.short
    rw [List.length_append,List.length_drop]
    omega
  · rcases Nat.lt_or_ge dir.length old.length with longer | covered
    · obtain ⟨y,rest⟩ := laid.residue longer
      exact ⟨dir ++ y,by rw [rest,List.append_assoc]⟩
    · rw [List.drop_of_length_le covered,List.append_nil]
      exact ⟨x,last⟩
  · rw [strcpy,overwriteLength _ _ _ (Nat.zero_le _),laid.size]

theorem Saved.laid {p : Parts} (saved : Saved p) : ∃ dir, Laid p dir := by
  induction saved with
  | blank => exact ⟨[],laidBlank⟩
  | @again p before fileName short ih =>
    obtain ⟨old,laid⟩ := ih
    cases path : strrchr fileName with
    | none =>
      have same : save p fileName = p := by simp only [save,path]
      rw [same]
      exact ⟨old,laid⟩
    | some parts => exact ⟨_,(laid.save short path).1⟩

theorem snprintfSame (size : Nat) (front left right : Text) :
    snprintf size (front ++ left) = snprintf size (front ++ right) ↔
      left.take (size - 1 - front.length) = right.take (size - 1 - front.length) := by
  rw [snprintf,snprintf,List.take_append,List.take_append,List.append_cancel_left_eq]

theorem snprintfFront {size : Nat} {front : Text} (fits : front.length ≤ size - 1) (rest : Text) :
    snprintf size (front ++ rest) = front ++ rest.take (size - 1 - front.length) := by
  rw [snprintf,List.take_append,List.take_of_length_le fits]

def DateShown (limits : Limits) (dir base : Text) (tm : Tm) : Prop :=
  let room := limits.full - 1 - (dir ++ snprintf limits.tail (date tm)).length
  base.take room = ((date tm).drop (limits.tail - 1) ++ base).take room

def Shown (limits : Limits) (dir base : Text) (tm : Tm) : Option Text → Prop
  | none => DateShown limits dir base tm
  | some part =>
      (date tm).length < limits.tail ∧ (dir ++ date tm ++ base ++ suffix (some part)).length < limits.full

theorem tailWhole {limits : Limits} {tm : Tm} (fits : (date tm).length < limits.tail) :
    snprintf limits.tail (date tm) = date tm := List.take_of_length_le (by omega)

theorem dateShownWhole {limits : Limits} {dir base : Text} {tm : Tm} (fits : (date tm).length < limits.tail) :
    DateShown limits dir base tm := by
  have nothing : (date tm).drop (limits.tail - 1) = [] := List.drop_of_length_le (by omega)
  rw [DateShown,nothing,List.nil_append]

theorem snprintfLength (size : Nat) (text : Text) : (snprintf size text).length = min (size - 1) text.length :=
  List.length_take

theorem shownExactly {limits : Limits} {dir base : Text} {tm : Tm} (part : Option Text) :
    rotationName limits dir base tm part = snprintf limits.full (dir ++ date tm ++ base) ++ suffix part ↔
      Shown limits dir base tm part := by
  cases part with
  | none =>
    have dates : date tm = snprintf limits.tail (date tm) ++ (date tm).drop (limits.tail - 1) :=
      (List.take_append_drop _ _).symm
    have name : dir ++ date tm ++ base =
        (dir ++ snprintf limits.tail (date tm)) ++ ((date tm).drop (limits.tail - 1) ++ base) := by
      conv => lhs; rw [dates]
      simp only [List.append_assoc]
    rw [name,rotationName,suffix,List.append_nil,List.append_nil,snprintfSame]
    rfl
  | some text =>
    have tails := snprintfLength limits.tail (date tm)
    have positive := limits.positive
    constructor
    · intro same
      have lengths := congrArg List.length same
      have point : 0 < (suffix (some text)).length := by rw [suffix,List.length_append]; exact Nat.add_pos_left (by decide) _
      rw [rotationName,List.length_append,snprintfLength,snprintfLength] at lengths
      simp only [List.length_append,tails] at lengths
      refine ⟨by omega,?_⟩
      simp only [List.length_append]
      omega
    · rintro ⟨fits,short⟩
      have whole : (dir ++ date tm ++ base).length ≤ limits.full - 1 := by
        rw [List.length_append] at short
        omega
      rw [rotationName,tailWhole fits,snprintf,snprintf,List.take_of_length_le (by omega),List.take_of_length_le whole]

/- A directory that is left over shows, for neither a date nor a base name has a '/'. -/
theorem residueShows {limits : Limits} {dir rest base name back : Text} {tm : Tm} {part : Option Text}
    (ended : ∃ x, rest = x ++ [slash]) (short : (dir ++ rest).length < 128) (plain : slash ∉ name)
    (plainBack : slash ∉ back) :
    rotationName limits (dir ++ rest) base tm part ≠ snprintf limits.full (dir ++ name) ++ back := by
  intro same
  have room := limits.room
  have positive := limits.positive
  have fits : (dir ++ rest).length ≤ limits.full - 1 := by omega
  have dirFits : dir.length ≤ limits.full - 1 := by
    rw [List.length_append] at fits
    omega
  rw [rotationName,List.append_assoc _ base,List.append_assoc _ (snprintf _ _),snprintfFront fits,snprintfFront dirFits,
    List.append_assoc,List.append_assoc] at same
  have behind := List.append_cancel_left same
  have inside : slash ∈ rest := by
    obtain ⟨x,rfl⟩ := ended
    exact List.mem_append_right _ List.mem_cons_self
  have visible : slash ∈ name.take (limits.full - 1 - dir.length) ++ back := by
    rw [← behind]
    exact List.mem_append_left _ inside
  rcases List.mem_append.mp visible with cut | last
  · exact plain (List.mem_of_mem_take cut)
  · exact plainBack last

def Agrees (limits : Limits) (p : Parts) (fileName : Text) (tm : Tm) (part : Option Text) : Prop :=
  match strrchr fileName with
  | none =>
      p = blank ∧ fileName = [] ∧ (date tm).length < limits.tail ∧ (date tm ++ suffix part).length < limits.full
  | some (dir,base) => Shown limits (dir ++ (cString p.dirName).drop dir.length) base tm part

def Covered (p : Parts) (fileName : Text) : Prop :=
  ∀ dir base, strrchr fileName = some (dir,base) → (cString p.dirName).length ≤ dir.length

theorem plainExactly {limits : Limits} {p : Parts} {old : Text} (laid : Laid p old) {fileName : Text}
    (plain : slash ∉ fileName) (tm : Tm) {part : Option Text} (digits : slash ∉ suffix part) :
    rotationName limits (cString p.dirName) (cString p.logName) tm part =
        snprintf limits.full (date tm ++ fileName) ++ suffix part ↔
      p = blank ∧ fileName = [] ∧ (date tm).length < limits.tail ∧ (date tm ++ suffix part).length < limits.full := by
  rw [laid.dirName]
  rcases laid.ends with ⟨rfl,rfl⟩ | ended
  · have none_ : cString blank.logName = [] := cStringTail [] 128
    have tails := snprintfLength limits.tail (date tm)
    have positive := limits.positive
    have room := limits.room
    rw [none_,rotationName,List.nil_append,List.append_nil]
    constructor
    · intro same
      have lengths := congrArg List.length same
      rw [List.length_append,snprintfLength,snprintfLength] at lengths
      simp only [List.length_append,tails] at lengths
      refine ⟨rfl,List.eq_nil_of_length_eq_zero (by omega),by omega,?_⟩
      rw [List.length_append]
      omega
    · rintro ⟨_,rfl,fits,short⟩
      have whole : (date tm).length ≤ limits.full - 1 := by omega
      rw [tailWhole fits,List.append_nil,snprintf,snprintf,List.take_of_length_le (by omega),
        List.take_of_length_le whole]
  · have shows := @residueShows limits [] old (cString p.logName) (date tm ++ fileName) (suffix part) tm part ended
      laid.short (datedNoSlash tm plain) digits
    rw [List.nil_append,List.nil_append] at shows
    refine ⟨fun same => absurd same shows,?_⟩
    rintro ⟨rfl,_⟩
    obtain ⟨x,last⟩ := ended
    have none_ : old = [] := laid.dirName.symm.trans laidBlank.dirName
    rw [none_] at last
    simp at last

theorem initNamePlain (limits : Limits) (p : Parts) {fileName : Text} (plain : strrchr fileName = none) (tm : Tm) :
    initName limits p fileName tm = snprintf limits.full (date tm ++ fileName) := by
  simp only [initName,plain]

theorem initNamePath (limits : Limits) (p : Parts) {fileName dir base : Text} (path : strrchr fileName = some (dir,base))
    (tm : Tm) : initName limits p fileName tm =
      snprintf limits.full (cString (save p fileName).dirName ++ date tm ++ cString (save p fileName).logName) := by
  simp only [initName,path]

section Rotation
variable {limits : Limits} {p : Parts} {fileName : Text} (saved : Saved p) (name : Short fileName) (tm : Tm)
  {part : Option Text} (digits : slash ∉ suffix part)

include saved name digits in
theorem rotationAgrees :
    rotationName limits (cString (save p fileName).dirName) (cString (save p fileName).logName) tm part =
      initName limits p fileName tm ++ suffix part ↔ Agrees limits p fileName tm part := by
  obtain ⟨old,laid⟩ := saved.laid
  cases path : strrchr fileName with
  | none =>
    have same : save p fileName = p := by simp only [save,path]
    rw [same,initNamePlain limits p path tm]
    simp only [Agrees,path]
    exact plainExactly laid (strrchrNone path) tm digits
  | some parts =>
    obtain ⟨dir,base⟩ := parts
    obtain ⟨laid',baseKept⟩ := laid.save name path
    rw [initNamePath limits p path tm]
    simp only [Agrees,path]
    rw [laid'.dirName,baseKept,laid.dirName]
    exact shownExactly part

include saved name digits in
theorem rotationAgreesNew :
    rotationName limits (cString (save p fileName).dirName) (cString (save p fileName).logName) tm part =
      initName limits blank fileName tm ++ suffix part ↔ Covered p fileName ∧ Agrees limits p fileName tm part := by
  cases path : strrchr fileName with
  | none =>
    rw [initNamePlain limits blank path tm,← initNamePlain limits p path tm,rotationAgrees saved name tm digits]
    refine ⟨fun agrees => ⟨fun dir base here => ?_,agrees⟩,And.right⟩
    rw [path] at here
    cases here
  | some parts =>
    obtain ⟨dir,base⟩ := parts
    obtain ⟨old,laid⟩ := saved.laid
    obtain ⟨laid',baseKept⟩ := laid.save name path
    have fresh : cString (save blank fileName).dirName = dir := by
      rw [(laidBlank.save name path).1.dirName,List.drop_nil,List.append_nil]
    have freshBase := (laidBlank.save name path).2
    rw [initNamePath limits blank path tm,fresh,freshBase,laid'.dirName,baseKept]
    rcases Nat.lt_or_ge dir.length old.length with longer | covered
    · have plain := datedNoSlash tm (strrchrSplit path).2.1
      rw [List.append_assoc dir]
      refine ⟨fun same => absurd same (residueShows (laid.residue longer) laid'.short plain digits),fun both => ?_⟩
      have short := both.1 dir base path
      rw [laid.dirName] at short
      omega
    · have agrees : Agrees limits p fileName tm part = Shown limits dir base tm part := by
        simp only [Agrees,path]
        rw [laid.dirName,List.drop_of_length_le covered,List.append_nil]
      rw [List.drop_of_length_le covered,List.append_nil,agrees,shownExactly part]
      refine ⟨fun shown => ⟨fun dir' base' here => ?_,shown⟩,And.right⟩
      cases Option.some.inj (path.symm.trans here)
      rw [laid.dirName]
      exact covered

end Rotation

/- What the name opened by a rotation has to do with the two names `init` could
open at the same date, of this object and of a new one. -/
def Compared (limits : Limits) (p : Parts) (fileName : Text) (tm : Tm) (part : Option Text) (name : Text) : Prop :=
  (name = initName limits p fileName tm ++ suffix part ↔ Agrees limits p fileName tm part) ∧
  (name = initName limits blank fileName tm ++ suffix part ↔
    Covered p fileName ∧ Agrees limits p fileName tm part)

theorem comparedNames {limits : Limits} {p : Parts} (saved : Saved p) {fileName : Text} (short : Short fileName) {tm : Tm}
    {part : Option Text} (digits : slash ∉ suffix part) :
    Compared limits p fileName tm part
      (rotationName limits (cString (save p fileName).dirName) (cString (save p fileName).logName) tm part) :=
  ⟨rotationAgrees saved short tm digits,rotationAgreesNew saved short tm digits⟩

def newYear : Tm := ⟨2025,1,1,12,0,0⟩

theorem logPath : strrchr (ascii "log/ServerLog") = some (ascii "log/",ascii "ServerLog") := by decide

end SimpleChat.FileNames
