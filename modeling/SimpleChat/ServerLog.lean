import SimpleChat.Log
import SimpleChat.SafeQueue

/-! `ServerLog`: `init`, `write_log` and the flush thread. `write_log` holds
`m_mutex` from its line count to its end, also while it is inside the queue's
`push`; the flush thread takes it for one `fputs`. What `fopen` and
`pthread_create` answer is an input. -/
namespace SimpleChat
open Basis (System)
open Function (update)
open Log (Tm Entry Record Stream snprintf padded)

inductive StreamFault where
  | fclose
  | fputs
  deriving DecidableEq, Repr

structure ServerLog where
  dirName : Text
  logName : Text
  mSplitLines : Int
  mLogBufSize : Int
  mCount : Int
  mToday : Nat
  mFp : Option Stream
  mBuf : Text
  mLogQueue : Option (SafeQueue Record)
  mIsAsync : Bool
  mCloseLog : Int
  openings : List Text
  written : List (Stream × Record)
  faults : List StreamFault
  deriving DecidableEq, Repr

namespace ServerLog

/- The object is static, so the arrays that the constructor leaves alone are zero. -/
def new : ServerLog :=
  ⟨zeros 128,zeros 128,5000000,8192,0,0,none,[],none,false,0,[],[],[]⟩

def levelStr (level : Int) : Text :=
  if level = 0 then ascii "[DEBUG]"
  else if level = 1 then ascii "[INFO]"
  else if level = 2 then ascii "[WARN]"
  else if level = 3 then ascii "[ERROR]"
  else ascii "[INFO]"

def date (tm : Tm) : Text :=
  decimal tm.year ++ ascii "_" ++ padded 2 tm.mon ++ ascii "_" ++ padded 2 tm.mday ++ ascii "_"

def tail (tm : Tm) : Text := snprintf 15 (date tm)

/- The whole expansion; `snprintf` returns its length also where it cuts it. -/
def header (e : Entry) : Text :=
  decimal e.tm.year ++ ascii "-" ++ padded 2 e.tm.mon ++ ascii "-" ++ padded 2 e.tm.mday ++ ascii " " ++
    padded 2 e.tm.hour ++ ascii ":" ++ padded 2 e.tm.min ++ ascii ":" ++ padded 2 e.tm.sec ++ ascii "." ++
    padded 6 e.usec ++ ascii " " ++ levelStr e.level ++ ascii " "

/- The string in `m_buf` when the line is composed. The newline is stored behind
the whole length; behind a text that was cut there is a NUL before it, and a
message may have one of its own. -/
def logStr (bufSize : Int) (e : Entry) : Text :=
  let head := snprintf (sizeT (bufSize - 1)) (header e)
  let room := sizeT (bufSize - (header e).length - 2)
  cString (if head.length < (header e).length then head
    else if e.message.length < room ∨ e.message = [] then head ++ e.message ++ [10]
    else head ++ snprintf room e.message)

def fopen (log : ServerLog) (name : Text) (opened : Bool) : ServerLog :=
  {log with mFp := if opened then some ⟨name,log.openings.length⟩ else none, openings := log.openings ++ [name]}

def fclose (log : ServerLog) : ServerLog :=
  {log with faults := if log.mFp.isSome then log.faults else log.faults ++ [.fclose]}

def fputs (log : ServerLog) (record : Record) : ServerLog := match log.mFp with
  | some stream => {log with written := log.written ++ [(stream,record)]}
  | none => {log with faults := log.faults ++ [.fputs]}

def slash : UInt8 := 47

def strrchr (fileName : Text) : Option (Text × Text) :=
  let base := (fileName.reverse.takeWhile (· ≠ slash)).reverse
  if slash ∈ fileName then some (fileName.take (fileName.length - base.length),base) else none

def logFullName (log : ServerLog) (fileName : Text) (tm : Tm) : ServerLog × Text := match strrchr fileName with
  | none => (log,snprintf 255 (date tm ++ fileName))
  | some (dir,base) =>
      let log := {log with logName := strcpy log.logName base, dirName := strncpy log.dirName fileName dir.length}
      (log,snprintf 255 (cString log.dirName ++ date tm ++ cString log.logName))

structure Settings where
  fileName : Text
  closeLog : Int
  logBufSize : Int
  splitLines : Int
  maxQueueSize : Int
  deriving DecidableEq, Repr

def init (log : ServerLog) (settings : Settings) (tm : Tm) (opened created : Bool) : ServerLog × Bool :=
  let log := {log with mCloseLog := settings.closeLog}
  if settings.closeLog ≠ 0 then (log,true)
  else
    let log := {log with mLogBufSize := settings.logBufSize, mBuf := [], mSplitLines := settings.splitLines}
    let named := log.logFullName settings.fileName tm
    let log := {named.1 with mToday := tm.mday}.fopen named.2 opened
    if opened = false then (log,false)
    else if 0 < settings.maxQueueSize then
      if created = false then ({log with mIsAsync := false, mLogQueue := none},false)
      else ({log with mIsAsync := true, mLogQueue := some (SafeQueue.withMax settings.maxQueueSize)},true)
    else (log,true)

/- The line count and the change of file; `none` is the division by zero, and
the flag tells whether the call goes on. -/
def rotate (log : ServerLog) (tm : Tm) (opened : Bool) : Option (ServerLog × Bool) :=
  let count := log.mCount + 1
  let name := cString log.dirName ++ tail tm ++ cString log.logName
  if log.mToday ≠ tm.mday then
    some ({log.fclose with mToday := tm.mday, mCount := 1}.fopen (snprintf 255 name) opened,opened)
  else if log.mSplitLines = 0 then none
  else if count.tmod log.mSplitLines = 0 then
    let part := snprintf 255 (name ++ ascii "." ++ ascii (toString (count.tdiv log.mSplitLines)))
    some ({log.fclose with mCount := count}.fopen part opened,opened)
  else some ({log with mCount := count},true)

inductive WriterPc where
  | outside
  | called (call : Nat) (entry : Entry)
  | pushing (record : Record)
  | leaving
  deriving DecidableEq, Repr

inductive FlushPc where
  | waiting
  | admitted
  | popped (record : Record)
  | threw (message : String)
  deriving DecidableEq, Repr

structure State (ω : Type) where
  log : ServerLog
  locked : Bool
  flushing : FlushPc
  writers : ω → WriterPc
  calls : Nat
  terminated : Bool

inductive Event (ω : Type) where
  | call (w : ω) (entry : Entry)
  | compose (w : ω) (opened : Bool)
  | push (w : ω)
  | unlock (w : ω)
  | flush (w : ω)
  | wait
  | pop
  | write
  deriving DecidableEq, Repr

variable {ω : Type} [DecidableEq ω]

/- A record that goes to the queue keeps `m_mutex` until `push` is back. -/
def submit (s : State ω) (w : ω) (log : ServerLog) (record : Record) : State ω :=
  if log.mIsAsync && log.mLogQueue.isSome then
    {s with log := log, locked := true, writers := update s.writers w (.pushing record)}
  else {s with log := log.fputs record, writers := update s.writers w .outside}

def compose (s : State ω) (w : ω) (call : Nat) (entry : Entry) (opened : Bool) : State ω :=
  match s.log.rotate entry.tm opened with
  | none => {s with terminated := true}
  | some (log,false) => {s with log := log, writers := update s.writers w .outside}
  | some (log,true) =>
      let line := logStr log.mLogBufSize entry
      submit s w {log with mBuf := line} ⟨call,line⟩

def act (s : State ω) : Event ω → Option (State ω)
  | .call w entry =>
      if s.writers w = .outside ∧ s.log.mCloseLog = 0 then
        some {s with calls := s.calls + 1, writers := update s.writers w (.called s.calls entry)}
      else none
  | .compose w opened => match s.writers w with
      | .called call entry => if s.locked then none else some (compose s w call entry opened)
      | _ => none
  | .push w => match s.writers w with
      | .pushing record => do
          let queue ← s.log.mLogQueue
          some {s with log := {s.log with mLogQueue := some (queue.push record)}, writers := update s.writers w .leaving}
      | _ => none
  | .unlock w =>
      if s.writers w = .leaving then some {s with locked := false, writers := update s.writers w .outside} else none
  | .flush w => if s.writers w = .outside ∧ s.log.mCloseLog = 0 ∧ s.locked = false then some s else none
  | .wait =>
      if s.flushing = .waiting then do
        let queue ← s.log.mLogQueue
        let queue ← queue.semWait
        some {s with log := {s.log with mLogQueue := some queue}, flushing := .admitted}
      else none
  | .pop =>
      if s.flushing = .admitted then do
        let queue ← s.log.mLogQueue
        match queue.removeB with
        | .error message => some {s with flushing := .threw message, terminated := true}
        | .ok (record,queue) =>
            some {s with log := {s.log with mLogQueue := some queue}, flushing := .popped record}
      else none
  | .write => match s.flushing with
      | .popped record =>
          if s.locked then none else some {s with log := s.log.fputs record, flushing := .waiting}
      | _ => none

def step (s : State ω) (e : Event ω) : Option (State ω) := if s.terminated then none else act s e

inductive Moves (s : State ω) : Event ω → State ω → Prop where
  | call {w : ω} {entry : Entry} (outside : s.writers w = .outside) :
      Moves s (.call w entry) {s with calls := s.calls + 1, writers := update s.writers w (.called s.calls entry)}
  | compose {w : ω} {opened : Bool} {call : Nat} {entry : Entry} (called : s.writers w = .called call entry) :
      Moves s (.compose w opened) (compose s w call entry opened)
  | push {w : ω} {record : Record} {queue : SafeQueue Record} (pushing : s.writers w = .pushing record)
      (here : s.log.mLogQueue = some queue) :
      Moves s (.push w)
        {s with log := {s.log with mLogQueue := some (queue.push record)}, writers := update s.writers w .leaving}
  | unlock {w : ω} (leaving : s.writers w = .leaving) :
      Moves s (.unlock w) {s with locked := false, writers := update s.writers w .outside}
  | flush {w : ω} (outside : s.writers w = .outside) : Moves s (.flush w) s
  | wait {queue queue' : SafeQueue Record} (waits : s.flushing = .waiting) (here : s.log.mLogQueue = some queue)
      (waited : queue.semWait = some queue') :
      Moves s .wait {s with log := {s.log with mLogQueue := some queue'}, flushing := .admitted}
  | threw {queue : SafeQueue Record} {message : String} (admitted : s.flushing = .admitted)
      (here : s.log.mLogQueue = some queue) (failed : queue.removeB = .error message) :
      Moves s .pop {s with flushing := .threw message, terminated := true}
  | pop {queue queue' : SafeQueue Record} {record : Record} (admitted : s.flushing = .admitted)
      (here : s.log.mLogQueue = some queue) (removed : queue.removeB = .ok (record,queue')) :
      Moves s .pop {s with log := {s.log with mLogQueue := some queue'}, flushing := .popped record}
  | write {record : Record} (popped : s.flushing = .popped record) :
      Moves s .write {s with log := s.log.fputs record, flushing := .waiting}

theorem stepMoves {s s' : State ω} {e : Event ω} (taken : step s e = some s') : Moves s e s' := by
  simp only [step,Option.ite_none_left_eq_some] at taken
  obtain ⟨_,taken⟩ := taken
  cases e with
  | call w entry =>
    simp only [act,Option.ite_none_right_eq_some,Option.some.injEq] at taken
    obtain ⟨⟨outside,_⟩,rfl⟩ := taken
    exact .call outside
  | compose w opened =>
    simp only [act] at taken
    split at taken <;> try contradiction
    rename_i call entry called
    simp only [Option.ite_none_left_eq_some,Option.some.injEq] at taken
    obtain ⟨_,rfl⟩ := taken
    exact .compose called
  | push w =>
    simp only [act] at taken
    split at taken <;> try contradiction
    rename_i record pushing
    obtain ⟨queue,here,last⟩ := Option.bind_eq_some_iff.mp taken
    cases Option.some.inj last
    exact .push pushing here
  | unlock w =>
    simp only [act,Option.ite_none_right_eq_some,Option.some.injEq] at taken
    obtain ⟨leaving,rfl⟩ := taken
    exact .unlock leaving
  | flush w =>
    simp only [act,Option.ite_none_right_eq_some,Option.some.injEq] at taken
    obtain ⟨⟨outside,_⟩,rfl⟩ := taken
    exact .flush outside
  | wait =>
    simp only [act,Option.ite_none_right_eq_some] at taken
    obtain ⟨waits,taken⟩ := taken
    obtain ⟨queue,here,rest⟩ := Option.bind_eq_some_iff.mp taken
    obtain ⟨queue',waited,last⟩ := Option.bind_eq_some_iff.mp rest
    cases Option.some.inj last
    exact .wait waits here waited
  | pop =>
    simp only [act,Option.ite_none_right_eq_some] at taken
    obtain ⟨admitted,taken⟩ := taken
    obtain ⟨queue,here,rest⟩ := Option.bind_eq_some_iff.mp taken
    split at rest
    · rename_i message failed
      cases Option.some.inj rest
      exact .threw admitted here failed
    · rename_i record queue' removed
      cases Option.some.inj rest
      exact .pop admitted here removed
  | write =>
    simp only [act] at taken
    split at taken <;> try contradiction
    rename_i record popped
    simp only [Option.ite_none_left_eq_some,Option.some.injEq] at taken
    obtain ⟨_,rfl⟩ := taken
    exact .write popped

def Begun (settings : Settings) (s : State ω) : Prop :=
  (∃ log tm opened created, init log settings tm opened created = (s.log,true)) ∧
  settings.closeLog = 0 ∧ 0 < settings.maxQueueSize ∧
  s.locked = false ∧ s.flushing = .waiting ∧ (∀ w, s.writers w = .outside) ∧ s.terminated = false

def system (ω : Type) [DecidableEq ω] (settings : Settings) : System (State ω) (Event ω) := ⟨Begun settings,step⟩

end ServerLog
end SimpleChat
