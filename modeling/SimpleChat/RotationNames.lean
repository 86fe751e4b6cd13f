import SimpleChat.FileNames
import SimpleChat.LogTrace
import SimpleChat.ServerLogFailure

/-! The two loggers' `init` and rotation build the names of `FileNames`, each with
its own bounds, and nothing else stores into their arrays: what a rotation opens
in any run after any calls of `init`. -/
namespace SimpleChat.FileNames
open Basis (System)
open Log (Tm snprintf)
open ServerLog (strrchr date slash)

section ServerLog
open ServerLog (init rotate step Settings)

def partsOf (log : ServerLog) : Parts := ⟨log.dirName,log.logName⟩

theorem serverLogFullName (log : ServerLog) (fileName : Text) (tm : Tm) :
    partsOf (log.logFullName fileName tm).1 = save (partsOf log) fileName ∧
    (log.logFullName fileName tm).1.openings = log.openings ∧
    (log.logFullName fileName tm).2 = initName serverLogLimits (partsOf log) fileName tm := by
  unfold ServerLog.logFullName
  cases path : strrchr fileName with
  | none => simp only [save,initName,path,serverLogLimits,and_self]
  | some parts => simp only [partsOf,save,initName,path,serverLogLimits,and_self]

theorem serverLogInit {log : ServerLog} {settings : Settings} (logging : settings.closeLog = 0) (tm : Tm)
    (opened created : Bool) :
    partsOf (init log settings tm opened created).1 = save (partsOf log) settings.fileName ∧
    (init log settings tm opened created).1.openings =
      log.openings ++ [initName serverLogLimits (partsOf log) settings.fileName tm] := by
  have named := serverLogFullName {log with
    mCloseLog := settings.closeLog, mLogBufSize := settings.logBufSize, mBuf := [],
    mSplitLines := settings.splitLines} settings.fileName tm
  have file := congrArg₂ (fun openings name => openings ++ [name]) named.2.1 named.2.2
  unfold init
  rw [if_neg (by simp [logging])]
  dsimp only
  split
  · exact ⟨named.1,file⟩
  · split
    · split
      · exact ⟨named.1,file⟩
      · exact ⟨named.1,file⟩
    · exact ⟨named.1,file⟩

def serverLogTurn (log : ServerLog) (tm : Tm) : Option (Option Text) :=
  if log.mToday ≠ tm.mday then some none
  else if log.mSplitLines ≠ 0 ∧ (log.mCount + 1).tmod log.mSplitLines = 0 then
    some (some (ascii (toString ((log.mCount + 1).tdiv log.mSplitLines))))
  else none

theorem serverLogTurns {log : ServerLog} {tm : Tm} {part : Option Text} (turns : serverLogTurn log tm = some part)
    (opened : Bool) :
    ∃ log', log.rotate tm opened = some (log',opened) ∧
      log'.openings = log.openings ++ [rotationName serverLogLimits (cString log.dirName) (cString log.logName) tm part] := by
  unfold serverLogTurn at turns
  unfold ServerLog.rotate
  split at turns
  · rename_i day
    cases Option.some.inj turns
    rw [if_pos day]
    refine ⟨_,rfl,?_⟩
    simp only [ServerLog.fopen,ServerLog.fclose,ServerLog.tail,rotationName,suffix,serverLogLimits,List.append_nil]
  · rename_i day
    split at turns
    · rename_i full
      cases Option.some.inj turns
      rw [if_neg day,if_neg full.1,if_pos full.2]
      refine ⟨_,rfl,?_⟩
      simp only [ServerLog.fopen,ServerLog.fclose,ServerLog.tail,rotationName,suffix,serverLogLimits,List.append_assoc]
    · cases turns

theorem serverLogDigits {log : ServerLog} {tm : Tm} {part : Option Text} (turns : serverLogTurn log tm = some part) :
    slash ∉ suffix part := by
  unfold serverLogTurn at turns
  split at turns
  · cases Option.some.inj turns
    exact List.not_mem_nil
  · split at turns
    · cases Option.some.inj turns
      exact suffixNoSlash (fun text here => by cases Option.some.inj here; exact integerNoSlash _)
    · cases turns

theorem fputsParts (log : ServerLog) (record : Log.Record) : partsOf (log.fputs record) = partsOf log := by
  rw [ServerLog.fputsFrame]
  rfl

variable {ω : Type} [DecidableEq ω]

theorem submitParts (s : ServerLog.State ω) (w : ω) (log : ServerLog) (record : Log.Record) :
    partsOf (ServerLog.submit s w log record).log = partsOf log := by
  unfold ServerLog.submit
  split
  · rfl
  · exact fputsParts log record

theorem serverLogStep {s s' : ServerLog.State ω} {e : ServerLog.Event ω} (taken : step s e = some s') :
    partsOf s'.log = partsOf s.log := by
  cases ServerLog.stepMoves taken with
  | @compose w opened call entry called =>
    have composed := ServerLog.composeEnds s w call entry opened
    generalize ServerLog.compose s w call entry opened = next at composed
    cases composed with
    | crashed => rfl
    | refused => rfl
    | turned line => exact submitParts _ _ _ _
    | stays line => exact submitParts _ _ _ _
  | write popped => exact fputsParts _ _
  | _ => rfl

theorem serverLogRun {settings : Settings} {s s' : ServerLog.State ω} (es : List (ServerLog.Event ω))
    (ran : (ServerLog.system ω settings).run s es = some s') : partsOf s'.log = partsOf s.log :=
  (ServerLog.system ω settings).runKeeps (P := fun t => partsOf t.log = partsOf s.log)
    (fun _ _ _ same taken => (serverLogStep taken).trans same) rfl es ran

end ServerLog

section Log

variable {ω : Type} [DecidableEq ω]

theorem logFullName (fileName : Text) (tm : Tm) :
    Log.logFullName fileName tm =
      (cString (save blank fileName).dirName,cString (save blank fileName).logName,
        initName logLimits blank fileName tm) := by
  have none_ : cString (zeros 128) = [] := cStringTail [] 128
  unfold Log.logFullName
  cases path : strrchr fileName with
  | none => simp only [save,initName,path,blank,none_,logLimits]
  | some parts => simp only [save,initName,path,blank,logLimits]

def Reads (s : Log.State ω) (p : Parts) : Prop := s.dirName = cString p.dirName ∧ s.logName = cString p.logName

def logTurn (s : Log.State ω) (tm : Tm) : Option (Option Text) :=
  if s.mToday ≠ tm.mday then some none
  else if (s.mCount + 1) % s.mSplitLines = 0 then some (some (decimal ((s.mCount + 1) / s.mSplitLines)))
  else none

theorem logTail (tm : Tm) : Log.tail tm = snprintf logLimits.tail (date tm) := rfl

omit [DecidableEq ω] in
theorem logTurns {s : Log.State ω} {tm : Tm} {part : Option Text} (turns : logTurn s tm = some part) :
    (Log.rotate s tm).mFp = ⟨rotationName logLimits s.dirName s.logName tm part,s.openings⟩ := by
  unfold logTurn at turns
  unfold Log.rotate
  split at turns
  · rename_i day
    cases Option.some.inj turns
    rw [if_pos day,rotationName,suffix,List.append_nil]
    exact congrArg (fun tail => (⟨snprintf 300 (s.dirName ++ tail ++ s.logName),s.openings⟩ : Log.Stream)) (logTail tm)
  · rename_i day
    split at turns
    · rename_i full
      cases Option.some.inj turns
      rw [if_neg day,if_pos full,rotationName,suffix,← List.append_assoc]
      exact congrArg (fun tail => (⟨snprintf 300 (s.dirName ++ tail ++ s.logName ++ ascii "." ++
        decimal ((s.mCount + 1) / s.mSplitLines)),s.openings⟩ : Log.Stream)) (logTail tm)
    · cases turns

omit [DecidableEq ω] in
theorem logDigits {s : Log.State ω} {tm : Tm} {part : Option Text} (turns : logTurn s tm = some part) :
    slash ∉ suffix part := by
  unfold logTurn at turns
  split at turns
  · cases Option.some.inj turns
    exact List.not_mem_nil
  · split at turns
    · cases Option.some.inj turns
      exact suffixNoSlash (fun text here => by cases Option.some.inj here; exact decimalNoSlash _)
    · cases turns

theorem logStep {s s' : Log.State ω} {e : Log.Event ω} (taken : Log.step s e = some s') :
    s'.dirName = s.dirName ∧ s'.logName = s.logName := by
  cases Log.stepMoves taken with
  | rotate called =>
    simp only [Log.rotate,Log.fopen]
    split
    · exact ⟨rfl,rfl⟩
    · split <;> exact ⟨rfl,rfl⟩
  | _ => exact ⟨rfl,rfl⟩

theorem logRun {s s' : Log.State ω} {p : Parts} {capacity : Int} (reads : Reads s p) (es : List (Log.Event ω))
    (ran : (Log.system ω capacity).run s es = some s') : Reads s' p :=
  (Log.system ω capacity).runKeeps (P := fun t => Reads t p)
    (fun _ _ _ held taken => ⟨(logStep taken).1.trans held.1,(logStep taken).2.trans held.2⟩) reads es ran

/- `init` on an object whose arrays hold `p`, where `fopen` succeeds. `m_count` is
left as it was. -/
def logInit (s : Log.State ω) (p : Parts) (fileName : Text) (logBufSize splitLines : Nat) (maxQueueSize : Int) (tm : Tm) :
    Log.State ω :=
  let saved := save p fileName
  let queue := if 1 ≤ maxQueueSize then @BlockQueue.new Log.Record ⟨⟨0,[]⟩⟩ maxQueueSize else none
  {s with
    dirName := cString saved.dirName, logName := cString saved.logName,
    mIsAsync := s.mIsAsync || queue.isSome, mLogQueue := queue.getD s.mLogQueue,
    mLogBufSize := logBufSize, mBuf := [], mSplitLines := splitLines, mToday := tm.mday,
    mFp := ⟨initName logLimits p fileName tm,s.openings⟩, openings := s.openings + 1}

end Log

/- After `init` on an object with any earlier calls of `init`, and after any run
from there, a rotation agrees with `init` exactly where `Agrees` says. -/
theorem rotationNames {ω : Type} [DecidableEq ω] {p : Parts} (saved : Saved p) {fileName : Text} (short : Short fileName) :
    (∀ (log : ServerLog) (settings : ServerLog.Settings) (tm₀ : Tm) (created : Bool) (s s' : ServerLog.State ω)
      (es : List (ServerLog.Event ω)) (tm : Tm) (part : Option Text) (opened : Bool),
      partsOf log = p → settings.fileName = fileName → settings.closeLog = 0 →
      ServerLog.init log settings tm₀ true created = (s.log,true) →
      (ServerLog.system ω settings).run s es = some s' → serverLogTurn s'.log tm = some part →
      ∃ log' name, s'.log.rotate tm opened = some (log',opened) ∧ log'.openings = s'.log.openings ++ [name] ∧
        Compared serverLogLimits p fileName tm part name) ∧
    (∀ (s s' : Log.State ω) (logBufSize splitLines : Nat) (maxQueueSize capacity : Int) (tm₀ : Tm)
      (es : List (Log.Event ω)) (tm : Tm) (part : Option Text),
      (Log.system ω capacity).run (logInit s p fileName logBufSize splitLines maxQueueSize tm₀) es = some s' →
      logTurn s' tm = some part →
      ∃ name, (Log.rotate s' tm).mFp = ⟨name,s'.openings⟩ ∧ Compared logLimits p fileName tm part name) := by
  constructor
  · intro log settings tm₀ created s s' es tm part opened parts named logging began ran turns
    have kept := serverLogRun es ran
    have stored := (@serverLogInit log settings logging tm₀ true created).1
    rw [began,parts,named] at stored
    have arrays : partsOf s'.log = save p fileName := kept.trans stored
    obtain ⟨log',rotated,openings⟩ := serverLogTurns turns opened
    refine ⟨log',_,rotated,openings,?_⟩
    have compared := @comparedNames serverLogLimits _ saved _ short tm part (serverLogDigits turns)
    rw [← arrays] at compared
    exact compared
  · intro s s' logBufSize splitLines maxQueueSize capacity tm₀ es tm part ran turns
    obtain ⟨dirName,logName⟩ := logRun (p := save p fileName) ⟨rfl,rfl⟩ es ran
    refine ⟨_,logTurns turns,?_⟩
    rw [dirName,logName]
    exact comparedNames saved short (logDigits turns)

def nextDay : Tm := ⟨2025,1,2,0,0,0⟩
def settings (fileName : Text) : ServerLog.Settings := ⟨fileName,0,8192,5000000,0⟩
def started (fileName : Text) : ServerLog.State Unit :=
  ⟨(ServerLog.init ServerLog.new (settings fileName) newYear true true).1,false,.waiting,fun _ => .outside,0,false⟩

theorem logShort : Short (ascii "log/ServerLog") := by
  refine ⟨by decide,fun dir base path => ?_⟩
  rw [logPath] at path
  obtain ⟨rfl,rfl⟩ := Prod.mk.inj (Option.some.inj path)
  exact ⟨by decide,by decide⟩

theorem nextDayAgrees : ∃ log' name, (started (ascii "log/ServerLog")).log.rotate nextDay true = some (log',true) ∧
    log'.openings = (started (ascii "log/ServerLog")).log.openings ++ [name] ∧
    name = initName serverLogLimits blank (ascii "log/ServerLog") nextDay := by
  obtain ⟨log',name,rotated,openings,compared⟩ := (@rotationNames Unit _ blank .blank _ logShort).1 ServerLog.new
    (settings (ascii "log/ServerLog")) newYear true (started (ascii "log/ServerLog")) _ [] nextDay none true
    rfl rfl rfl rfl rfl rfl
  have agrees : Agrees serverLogLimits blank (ascii "log/ServerLog") nextDay none := by
    simp only [Agrees,logPath]
    exact dateShownWhole (by decide)
  have same := compared.1.mpr agrees
  rw [suffix,List.append_nil] at same
  exact ⟨log',name,rotated,openings,same⟩

theorem plainNameForgotten :
    initName serverLogLimits blank (ascii "ServerLog") nextDay = ascii "2025_01_02_ServerLog" ∧
    ((started (ascii "ServerLog")).log.rotate nextDay true).map (fun rotated => rotated.1.openings) =
      some [ascii "2025_01_01_ServerLog",ascii "2025_01_02_"] ∧
    initName logLimits blank (ascii "ServerLog") nextDay = ascii "2025_01_02_ServerLog" ∧
    (Log.rotate (Log.init (ascii "ServerLog") 8192 5000000 newYear : Log.State Unit) nextDay).mFp =
      ⟨ascii "2025_01_02_",1⟩ ∧
    ascii "2025_01_02_" ≠ ascii "2025_01_02_ServerLog" := by
  refine ⟨?_,?_,?_,?_,?_⟩ <;> decide +kernel

end SimpleChat.FileNames
