import SimpleChat.ServerLogTrace

/-! The dates of `ServerLog`'s records and of the files they are in. The file changes
with the day of the month, so a record of another month's same day goes on into the
open file, unless its count is one that splits. -/
namespace SimpleChat.ServerLog
open Basis (System)
open Function (update)
open Log (Tm Entry Record Stream snprintf padded)

variable {ω : Type}

def headerDate (tm : Tm) : Text :=
  decimal tm.year ++ ascii "-" ++ padded 2 tm.mon ++ ascii "-" ++ padded 2 tm.mday ++ ascii " "

/- A record lies in a file whose name carries the date of its header. -/
def FiledByDate (s : Traced ω) : Prop :=
  ∀ line ∈ s.state.log.written, ∀ tm, headerDate tm <+: line.2.text →
    cString s.state.log.dirName ++ date tm <+: line.1.name

def KeepsDate (s : Traced ω) (e : Event ω) : Prop :=
  ∀ call ∈ entering s e,
    if Opens s.state.log call.1.tm then (date call.1.tm).length < 15
    else s.dates.getLast? = some (calendar call.1.tm)

instance (s : Traced ω) (e) : Decidable (KeepsDate s e) := by unfold KeepsDate; infer_instance

theorem headerDateRead {a b : Tm} {x y : Text} (same : headerDate a ++ x = headerDate b ++ y) : calendar a = calendar b := by
  have dash : ascii "-" = [45] := rfl
  have blank : ascii " " = [32] := rfl
  simp only [headerDate,dash,blank,List.append_assoc,List.singleton_append] at same
  exact (calendarRead (by decide) (by decide) same).1

theorem headerDated (e : Entry) : headerDate e.tm <+: header e := by
  simp only [header,headerDate,List.append_assoc,List.prefix_append_right_inj]
  exact List.prefix_append _ _

theorem logStrHeader (bufSize : Int) (e : Entry) : logStr bufSize e <+: header e ∨ header e <+: logStr bufSize e := by
  have behind (rest : Text) : cString (header e ++ rest) <+: header e ∨ header e <+: cString (header e ++ rest) :=
    List.prefix_or_prefix_of_prefix (List.takeWhile_prefix _) (List.prefix_append _ _)
  simp only [logStr]
  split
  · exact .inl ((List.takeWhile_prefix _).trans (List.take_prefix _ _))
  · rename_i whole
    have head : snprintf (sizeT (bufSize - 1)) (header e) = header e :=
      (List.take_prefix _ _).eq_of_length_le (not_lt.mp whole)
    rw [head]
    split
    · rw [List.append_assoc]
      exact behind _
    · exact behind _

theorem logStrDate {bufSize : Int} {e : Entry} {tm : Tm} (carries : headerDate tm <+: logStr bufSize e) :
    calendar tm = calendar e.tm := by
  rcases logStrHeader bufSize e with cut | whole
  · obtain ⟨x,left⟩ := carries.trans cut
    obtain ⟨y,right⟩ := headerDated e
    exact headerDateRead (left.trans right.symm)
  · obtain ⟨x,left⟩ := carries
    obtain ⟨y,right⟩ := (headerDated e).trans whole
    exact headerDateRead (left.trans right.symm)

structure Dated (s : Traced ω) : Prop where
  direct : Direct s.state
  array : s.state.log.dirName.length = 128
  latest : ∃ d, s.dates.getLast? = some d ∧
    ∀ stream, s.state.log.mFp = some stream → cString s.state.log.dirName ++ dateText d <+: stream.name
  written : ∀ line ∈ s.state.log.written, ∃ entry,
    cString s.state.log.dirName ++ date entry.tm <+: line.1.name ∧ line.2.text = logStr s.state.log.mLogBufSize entry

theorem Dated.filed {s : Traced ω} (dated : Dated s) : FiledByDate s := by
  intro line member tm carries
  obtain ⟨entry,name,text⟩ := dated.written line member
  rw [text] at carries
  rw [dateSame (logStrDate carries)]
  exact name

theorem prefixCut {beginning rest : Text} (fits : beginning.length ≤ 254) :
    beginning <+: snprintf 255 (beginning ++ rest) := by
  rw [snprintf,List.take_append,List.take_of_length_le fits]
  exact List.prefix_append _ _

theorem newLogDated {log : ServerLog} {tm : Tm} (array : log.dirName.length = 128) (year : (date tm).length < 15) :
    cString log.dirName ++ date tm <+: newLog log tm := by
  have dates : tail tm = date tm := List.take_of_length_le (by omega)
  have dir := cStringLength log.dirName
  have fits : (cString log.dirName ++ date tm).length ≤ 254 := by
    rw [List.length_append]
    omega
  simp only [newLog,dates]
  split
  · exact prefixCut fits
  · rw [List.append_assoc _ (cString log.logName),List.append_assoc _ (_ ++ _)]
    exact prefixCut fits

theorem logFullNameDated {log : ServerLog} (dirs : log.dirName = zeros 128) (fileName : Text) {tm : Tm}
    (year : (date tm).length < 15) :
    (log.logFullName fileName tm).1.dirName.length = 128 ∧
    cString (log.logFullName fileName tm).1.dirName ++ date tm <+: (log.logFullName fileName tm).2 := by
  have size : (zeros 128).length = 128 := List.length_replicate
  unfold logFullName
  split
  · have blank : cString (zeros 128) = [] := cStringTail [] 128
    simp only [dirs,blank,List.nil_append]
    exact ⟨size,prefixCut (by omega)⟩
  · rename_i dir base path
    have array : (strncpy log.dirName fileName dir.length).length = 128 := by
      rw [strncpy,overwriteLength _ _ _ (Nat.zero_le _),dirs,size]
    have short := cStringLength (strncpy log.dirName fileName dir.length)
    have fits : (cString (strncpy log.dirName fileName dir.length) ++ date tm).length ≤ 254 := by
      rw [List.length_append]
      omega
    exact ⟨array,prefixCut fits⟩

theorem begunDated {settings : Settings} (synchronous : Synchronous settings) {tm : Tm} (year : (date tm).length < 15) :
    Dated (begun settings tm : Traced ω) := by
  have direct := @begunDirect ω settings synchronous tm
  obtain ⟨array,name⟩ := @logFullNameDated
    {new with mCloseLog := settings.closeLog, mLogBufSize := settings.logBufSize, mBuf := [],
              mSplitLines := settings.splitLines} rfl settings.fileName tm year
  refine ⟨direct,?_,⟨calendar tm,rfl,?_⟩,?_⟩ <;> simp only [begun,initSync synchronous tm]
  · exact array
  · intro stream here
    rw [← Option.some.inj here]
    exact name
  · exact fun line member => absurd member List.not_mem_nil

section Steps
variable [DecidableEq ω] {s : Traced ω} (dated : Dated s) {w : ω} {call : Nat} {entry : Entry}
include dated

omit [DecidableEq ω] in
theorem Dated.elsewhere {state : State ω} (direct : Direct state) (log : state.log = s.state.log) (clock : Instant) :
    Dated ⟨state,clock,s.dates⟩ := by
  obtain ⟨_,array,latest,written⟩ := dated
  rw [← log] at array latest written
  exact ⟨direct,array,latest,written⟩

omit [DecidableEq ω] in
theorem Dated.wrote {stream : Stream} {line : Text} (name : cString s.state.log.dirName ++ date entry.tm <+: stream.name)
    (composed : line = logStr s.state.log.mLogBufSize entry) :
    ∀ other ∈ s.state.log.written ++ [(stream,(⟨call,line⟩ : Record))], ∃ entry,
      cString s.state.log.dirName ++ date entry.tm <+: other.1.name ∧
      other.2.text = logStr s.state.log.mLogBufSize entry := by
  intro other member
  rcases List.mem_append.mp member with before | now
  · exact dated.written other before
  · rw [List.mem_singleton.mp now]
    exact ⟨entry,name,composed⟩

theorem Dated.traced {s' : Traced ω} {e : Event ω} (keeps : KeepsDate s e) (taken : traceStep s e = some s') : Dated s' := by
  obtain ⟨moves,direct⟩ := traceMoves dated.direct taken
  cases moves with
  | elsewhere _ log clock => exact dated.elsewhere direct log clock
  | @refused w call entry called opens =>
    exact ⟨direct,dated.array,⟨calendar entry.tm,List.getLast?_concat,fun _ here => by contradiction⟩,dated.written⟩
  | @turns w call entry line called opens composed =>
    have year := keeps _ (enteringCalled called true)
    rw [if_pos opens] at year
    have name := newLogDated dated.array year
    rw [fputsOpen rfl] at direct ⊢
    refine ⟨direct,dated.array,⟨calendar entry.tm,List.getLast?_concat,fun stream here => ?_⟩,dated.wrote name composed⟩
    cases Option.some.inj here
    exact name
  | @stays w opened call entry line called stays composed =>
    have same := keeps _ (enteringCalled called opened)
    rw [if_neg stays] at same
    obtain ⟨d,last,carries⟩ := dated.latest
    rw [same] at last
    cases Option.some.inj last
    cases here : s.state.log.mFp with
    | none =>
      rw [fputsClosed (by exact here)] at direct ⊢
      exact ⟨direct,dated.array,⟨calendar entry.tm,same,
        fun stream open_ => carries stream open_⟩,dated.written⟩
    | some stream =>
      rw [fputsOpen (by exact here)] at direct ⊢
      exact ⟨direct,dated.array,⟨calendar entry.tm,same,
        fun stream open_ => carries stream open_⟩,dated.wrote (carries stream here) composed⟩

end Steps

/- While a call that leaves the file open has the whole date of the call that opened
it, every record lies in a file of the date in its header. -/
theorem filedByDate [DecidableEq ω] {settings : Settings} (synchronous : Synchronous settings) {tm : Tm}
    (year : (date tm).length < 15) {s : Traced ω} (reached : (syncSystem ω settings tm).Reach KeepsDate s) :
    FiledByDate s := by
  have dated : Dated s := by
    refine (syncSystem ω settings tm).invariant (fun s start => ?_)
      (fun _ _ _ dated keeps taken => dated.traced keeps taken) reached
    rw [show s = begun settings tm from start]
    exact begunDated synchronous year
  exact dated.filed

def Legible (s : Traced ω) (e : Event ω) : Prop :=
  ∀ call ∈ entering s e,
    call.2 = true ∧ (date call.1.tm).length < 15 ∧ headerDate call.1.tm <+: logStr s.state.log.mLogBufSize call.1

theorem legibleOpen [DecidableEq ω] {s s' : Traced ω} {e : Event ω} (direct : Direct s.state)
    (opened : s.state.log.mFp.isSome = true) (legible : Legible s e) (taken : traceStep s e = some s') :
    s'.state.log.mFp.isSome = true := by
  obtain ⟨moves,_⟩ := traceMoves direct taken
  cases moves with
  | elsewhere _ log => exact log ▸ opened
  | refused called =>
    have answered := (legible _ (enteringCalled called false)).1
    contradiction
  | turns called =>
    rw [fputsOpen rfl]
    rfl
  | stays called =>
    rw [fputsFrame]
    exact opened

theorem Dated.misfiled [DecidableEq ω] {s s' : Traced ω} {e : Event ω} (dated : Dated s)
    (opened : s.state.log.mFp.isSome = true) (legible : Legible s e) (taken : traceStep s e = some s')
    (filed : FiledByDate s') : KeepsDate s e := by
  intro call enters
  obtain ⟨_,year,carries⟩ := legible call enters
  split
  · exact year
  · rename_i still
    obtain ⟨stream,here⟩ := Option.isSome_iff_exists.mp opened
    obtain ⟨moves,_⟩ := traceMoves dated.direct taken
    cases moves with
    | elsewhere nobody =>
      rw [nobody] at enters
      contradiction
    | refused called opens =>
      rw [enteringCalled called] at enters
      cases Option.some.inj enters
      exact absurd opens still
    | turns called opens =>
      rw [enteringCalled called] at enters
      cases Option.some.inj enters
      exact absurd opens still
    | @stays w answer number entry line called stays composed =>
      rw [enteringCalled called] at enters
      cases Option.some.inj enters
      rw [composed,fputsOpen (by exact here)] at filed
      have wrote : (stream,Record.mk number (logStr s.state.log.mLogBufSize entry)) ∈
          s.state.log.written ++ [(stream,Record.mk number (logStr s.state.log.mLogBufSize entry))] := by simp
      have text : headerDate entry.tm <+: (Record.mk number (logStr s.state.log.mLogBufSize entry)).text := by
        simp only
        exact carries
      obtain ⟨x,own⟩ := filed _ wrote entry.tm text
      obtain ⟨d,last,names⟩ := dated.latest
      obtain ⟨y,other⟩ := names stream here
      have same := own.trans other.symm
      rw [List.append_assoc,List.append_assoc,← dateTextOf] at same
      rw [last,(dateTextRead (List.append_cancel_left same)).1]

/- Where every `fopen` succeeds and every record keeps its date, the records of a run
are filed by date after each step exactly when each step meets the condition. -/
theorem filedThroughoutIff [DecidableEq ω] {settings : Settings} (synchronous : Synchronous settings) {tm : Tm}
    (year : (date tm).length < 15) (es : List (Event ω))
    (legible : (syncSystem ω settings tm).Throughout (fun s e _ => Legible s e) (begun settings tm) es) :
    (syncSystem ω settings tm).Throughout (fun _ _ s' => FiledByDate s') (begun settings tm) es ↔
    (syncSystem ω settings tm).Throughout (fun s e _ => KeepsDate s e) (begun settings tm) es := by
  have held {s : Traced ω} (reached : (syncSystem ω settings tm).Reach (fun s e => Legible s e ∧ KeepsDate s e) s) :
      Dated s ∧ s.state.log.mFp.isSome = true := by
    refine (syncSystem ω settings tm).invariant (P := fun s => Dated s ∧ s.state.log.mFp.isSome = true)
      (fun s start => ?_) (fun s e s' held allowed taken => ?_) reached
    · rw [show s = begun settings tm from start]
      refine ⟨begunDated synchronous year,?_⟩
      simp only [begun,initSync synchronous tm,Option.isSome_some]
    · exact ⟨held.1.traced allowed.2 taken,legibleOpen held.1.direct held.2 allowed.1 taken⟩
  have each (s : Traced ω) (e : Event ω) (s' : Traced ω)
      (reached : (syncSystem ω settings tm).Reach (fun s e => Legible s e ∧ KeepsDate s e) s)
      (taken : traceStep s e = some s') : (Legible s e ∧ FiledByDate s') ↔ (Legible s e ∧ KeepsDate s e) := by
    obtain ⟨dated,opened⟩ := held reached
    refine and_congr_right (fun legible => ⟨dated.misfiled opened legible taken,fun keeps => ?_⟩)
    exact (dated.traced keeps taken).filed
  have both := (syncSystem ω settings tm).throughoutExact each (.init rfl) es
  have left := (syncSystem ω settings tm).throughoutAnd (P := fun s e _ => Legible s e)
    (Q := fun _ _ s' => FiledByDate s') (s := begun settings tm) es
  have right := (syncSystem ω settings tm).throughoutAnd (P := fun s e _ => Legible s e)
    (Q := fun s e _ => KeepsDate s e) (s := begun settings tm) es
  constructor
  · intro filed
    exact (right.mp (both.mp (left.mpr ⟨legible,filed⟩))).2
  · intro keeps
    exact (left.mp (both.mpr (right.mpr ⟨legible,keeps⟩))).2

def january : Entry := ⟨1,ascii "one",⟨2025,1,15,12,0,0⟩,0⟩
def february : Entry := ⟨1,ascii "two",⟨2025,2,15,12,0,0⟩,0⟩

def monthRun : List (Event Unit) := [.call () january,.compose () true,.call () february,.compose () true]

theorem sampleFiled :
    ∃ s, (syncSystem Unit (logSettings 2) january.tm).checkedRun KeepsDate
        (begun (logSettings 2) january.tm) monthRun = some s ∧
      s.state.log.written.map (fun line => line.1.name) =
        [ascii "log/2025_01_15_ServerLog",ascii "log/2025_02_15_ServerLog.1"] ∧ FiledByDate s := by
  have ends : ((syncSystem Unit (logSettings 2) january.tm).checkedRun KeepsDate
      (begun (logSettings 2) january.tm) monthRun).map
      (fun s => s.state.log.written.map (fun line => line.1.name)) =
      some [ascii "log/2025_01_15_ServerLog",ascii "log/2025_02_15_ServerLog.1"] := by decide +kernel
  obtain ⟨s,ran,names⟩ := Option.map_eq_some_iff.mp ends
  have year : (date january.tm).length < 15 := by decide +kernel
  refine ⟨s,ran,names,filedByDate (logSynchronous 2 (by decide)) year ?_⟩
  exact (syncSystem Unit (logSettings 2) january.tm).checkedReach (.init rfl) _ ran

theorem sameDayMisfiled :
    ∃ s, (syncSystem Unit (logSettings 5000000) january.tm).Reach (fun s e => Clocked s e ∧ FopenSucceeds e) s ∧
      s.state.log.written.map (fun line => (line.1.name,line.2.text)) =
        [(ascii "log/2025_01_15_ServerLog",ascii "2025-01-15 12:00:00.000000 [INFO] one\n"),
         (ascii "log/2025_01_15_ServerLog",ascii "2025-02-15 12:00:00.000000 [INFO] two\n")] ∧
      ¬ FiledByDate s := by
  have ends : ((syncSystem Unit (logSettings 5000000) january.tm).checkedRun (fun s e => Clocked s e ∧ FopenSucceeds e)
      (begun (logSettings 5000000) january.tm) monthRun).map (fun s => decide (
        s.state.log.written.map (fun line => (line.1.name,line.2.text)) =
          [(ascii "log/2025_01_15_ServerLog",ascii "2025-01-15 12:00:00.000000 [INFO] one\n"),
           (ascii "log/2025_01_15_ServerLog",ascii "2025-02-15 12:00:00.000000 [INFO] two\n")] ∧
        ∃ line ∈ s.state.log.written, headerDate february.tm <+: line.2.text ∧
          ¬ cString s.state.log.dirName ++ date february.tm <+: line.1.name)) = some true := by decide +kernel
  obtain ⟨s,ran,holds⟩ := Option.map_eq_some_iff.mp ends
  obtain ⟨lines,line,member,carries,elsewhere⟩ := of_decide_eq_true holds
  exact ⟨s,(syncSystem Unit (logSettings 5000000) january.tm).checkedReach (.init rfl) _ ran,lines,
    fun filed => elsewhere (filed line member february.tm carries)⟩

end SimpleChat.ServerLog
