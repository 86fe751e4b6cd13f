import SimpleChat.Dates

/-! `ServerLog` in synchronous mode from `init` on: a call takes `m_mutex` once and
writes its record itself. History variables that change nothing keep the last
reading of the clock and the dates of the calls that opened the files. -/
namespace SimpleChat.ServerLog
open Basis (System)
open Function (update)
open Log (Tm Entry Record Stream snprintf)

variable {ω : Type}

abbrev Instant := Date ×ₗ ℕ ×ₗ ℕ ×ₗ ℕ ×ₗ ℕ

def instant (tm : Tm) (usec : Nat) : Instant := toLex (calendar tm,toLex (tm.hour,toLex (tm.min,toLex (tm.sec,usec))))

structure Traced (ω : Type) where
  state : State ω
  clock : Instant
  dates : List Date

def note (s : Traced ω) (e : Event ω) (state : State ω) : Traced ω := match e with
  | .call _ entry => {s with state := state, clock := instant entry.tm entry.usec}
  | .compose w _ => match s.state.writers w with
      | .called _ entry =>
          let dates :=
            if state.log.openings.length = s.state.log.openings.length then s.dates else s.dates ++ [calendar entry.tm]
          {s with state := state, dates := dates}
      | _ => {s with state := state}
  | _ => {s with state := state}

def entering (s : Traced ω) : Event ω → Option (Entry × Bool)
  | .compose w opened => match s.state.writers w with
      | .called _ entry => some (entry,opened)
      | _ => none
  | _ => none

theorem enteringCalled {s : Traced ω} {w : ω} {call : Nat} {entry : Entry} (called : s.state.writers w = .called call entry)
    (opened : Bool) : entering s (.compose w opened) = some (entry,opened) := by
  simp only [entering,called]

structure Synchronous (settings : Settings) : Prop where
  logging : settings.closeLog = 0
  direct : settings.maxQueueSize ≤ 0
  split : 1 ≤ settings.splitLines

def begun (settings : Settings) (tm : Tm) : Traced ω :=
  ⟨⟨(init new settings tm true true).1,false,.waiting,fun _ => .outside,0,false⟩,instant tm 0,[calendar tm]⟩

def Clocked (s : Traced ω) : Event ω → Prop
  | .call _ entry => s.clock ≤ instant entry.tm entry.usec
  | _ => True

def FopenSucceeds : Event ω → Prop
  | .compose _ opened => opened = true
  | _ => True

instance (s : Traced ω) (e) : Decidable (Clocked s e) := by unfold Clocked; split <;> infer_instance
instance (e : Event ω) : Decidable (FopenSucceeds e) := by unfold FopenSucceeds; split <;> infer_instance

def Opens (log : ServerLog) (tm : Tm) : Prop := log.mToday ≠ tm.mday ∨ (log.mCount + 1).tmod log.mSplitLines = 0

instance (log : ServerLog) (tm) : Decidable (Opens log tm) := by unfold Opens; infer_instance

def newLog (log : ServerLog) (tm : Tm) : Text :=
  let name := cString log.dirName ++ tail tm ++ cString log.logName
  if log.mToday ≠ tm.mday then snprintf 255 name
  else snprintf 255 (name ++ ascii "." ++ ascii (toString ((log.mCount + 1).tdiv log.mSplitLines)))

def turned (log : ServerLog) (tm : Tm) (opened : Bool) : ServerLog :=
  {log.fclose with
    mToday := tm.mday, mCount := if log.mToday ≠ tm.mday then 1 else log.mCount + 1}.fopen (newLog log tm) opened

theorem rotateTurns {log : ServerLog} {tm : Tm} (split : log.mSplitLines ≠ 0) (opens : Opens log tm) (opened : Bool) :
    log.rotate tm opened = some (turned log tm opened,opened) := by
  by_cases day : log.mToday ≠ tm.mday
  · simp only [rotate,turned,newLog,if_pos day]
  · have full : (log.mCount + 1).tmod log.mSplitLines = 0 := opens.resolve_left day
    have same : log.fclose.mToday = tm.mday := not_not.mp day
    simp only [rotate,turned,newLog,if_neg day,if_neg split,if_pos full]
    rw [same]

theorem rotateStays {log : ServerLog} {tm : Tm} (split : log.mSplitLines ≠ 0) (stays : ¬ Opens log tm) (opened : Bool) :
    log.rotate tm opened = some ({log with mCount := log.mCount + 1},true) := by
  obtain ⟨day,full⟩ := not_or.mp stays
  simp only [rotate,if_neg day,if_neg split,if_neg full]

theorem fputsOpen {log : ServerLog} {stream : Stream} (here : log.mFp = some stream) (record : Record) :
    log.fputs record = {log with written := log.written ++ [(stream,record)]} := by
  simp only [fputs,here]

theorem fputsClosed {log : ServerLog} (closed : log.mFp = none) (record : Record) :
    log.fputs record = {log with faults := log.faults ++ [.fputs]} := by
  simp only [fputs,closed]

/- No queue, so nobody is inside `push` and `m_mutex` is free between two steps. -/
structure Direct (s : State ω) : Prop where
  sync : s.log.mIsAsync = false
  noQueue : s.log.mLogQueue = none
  split : 1 ≤ s.log.mSplitLines
  unlocked : s.locked = false
  waits : s.flushing = .waiting
  running : s.terminated = false
  writers : ∀ w, s.writers w = .outside ∨ ∃ call entry, s.writers w = .called call entry

theorem logFullNameFrame (log : ServerLog) (fileName : Text) (tm : Tm) :
    (log.logFullName fileName tm).1 =
      {log with dirName := (log.logFullName fileName tm).1.dirName,
                logName := (log.logFullName fileName tm).1.logName} := by
  unfold logFullName
  split <;> rfl

theorem initSync {settings : Settings} (synchronous : Synchronous settings) (tm : Tm) :
    let log := {new with mCloseLog := settings.closeLog, mLogBufSize := settings.logBufSize, mBuf := [],
                         mSplitLines := settings.splitLines}
    let named := log.logFullName settings.fileName tm
    (init new settings tm true true).1 =
      {log with dirName := named.1.dirName, logName := named.1.logName, mToday := tm.mday,
                mFp := some ⟨named.2,0⟩, openings := [named.2]} := by
  intro log named
  have silent : ¬ 0 < settings.maxQueueSize := not_lt.mpr synchronous.direct
  simp only [init,synchronous.logging,ne_eq,not_true_eq_false,if_false,if_neg silent,fopen,if_true,Bool.true_eq_false]
  rw [logFullNameFrame]
  simp only [named,log,synchronous.logging]
  rfl

theorem begunDirect {settings : Settings} (synchronous : Synchronous settings) (tm : Tm) :
    Direct (begun settings tm : Traced ω).state := by
  refine ⟨?_,?_,?_,rfl,rfl,rfl,fun _ => .inl rfl⟩ <;> simp only [begun,initSync synchronous tm]
  · rfl
  · rfl
  · exact synchronous.split

variable [DecidableEq ω]

def traceStep (s : Traced ω) (e : Event ω) : Option (Traced ω) := do
  let state ← step s.state e
  some (note s e state)

def syncSystem (ω : Type) [DecidableEq ω] (settings : Settings) (tm : Tm) : System (Traced ω) (Event ω) :=
  ⟨fun s => s = begun settings tm,traceStep⟩

inductive DirectMoves (s : State ω) : Event ω → State ω → Prop where
  | call {w : ω} {entry : Entry} (outside : s.writers w = .outside) :
      DirectMoves s (.call w entry) {s with calls := s.calls + 1, writers := update s.writers w (.called s.calls entry)}
  | refused {w : ω} {call : Nat} {entry : Entry} (called : s.writers w = .called call entry)
      (opens : Opens s.log entry.tm) :
      DirectMoves s (.compose w false)
        {s with log := turned s.log entry.tm false, writers := update s.writers w .outside}
  | turns {w : ω} {call : Nat} {entry : Entry} {line : Text} (called : s.writers w = .called call entry)
      (opens : Opens s.log entry.tm) (composed : line = logStr s.log.mLogBufSize entry) :
      DirectMoves s (.compose w true)
        {s with log := {turned s.log entry.tm true with mBuf := line}.fputs ⟨call,line⟩,
                writers := update s.writers w .outside}
  | stays {w : ω} {opened : Bool} {call : Nat} {entry : Entry} {line : Text} (called : s.writers w = .called call entry)
      (stays : ¬ Opens s.log entry.tm) (composed : line = logStr s.log.mLogBufSize entry) :
      DirectMoves s (.compose w opened)
        {s with log := {s.log with mCount := s.log.mCount + 1, mBuf := line}.fputs ⟨call,line⟩,
                writers := update s.writers w .outside}
  | flush {w : ω} : DirectMoves s (.flush w) s

theorem submitDirect (s : State ω) (w : ω) {log : ServerLog} (sync : log.mIsAsync = false) (record : Record) :
    submit s w log record = {s with log := log.fputs record, writers := update s.writers w .outside} := by
  have direct : (log.mIsAsync && log.mLogQueue.isSome) = false := by rw [sync,Bool.false_and]
  rw [submit,direct]
  rfl

theorem composeMoves {s : State ω} (direct : Direct s) {w : ω} {call : Nat} {entry : Entry}
    (called : s.writers w = .called call entry) (opened : Bool) :
    DirectMoves s (.compose w opened) (compose s w call entry opened) := by
  have split : s.log.mSplitLines ≠ 0 := by
    have := direct.split
    omega
  by_cases opens : Opens s.log entry.tm
  · simp only [compose,rotateTurns split opens]
    cases opened with
    | false => exact .refused called opens
    | true =>
      simp only
      rw [submitDirect s w (by exact direct.sync)]
      exact .turns called opens rfl
  · simp only [compose,rotateStays split opens]
    rw [submitDirect s w (by exact direct.sync)]
    exact .stays called opens rfl

theorem directMoves {s s' : State ω} {e : Event ω} (direct : Direct s) (taken : step s e = some s') :
    DirectMoves s e s' := by
  have plain (w : ω) {pc : WriterPc} (here : s.writers w = pc) : pc = .outside ∨ ∃ call entry, pc = .called call entry := by
    rw [← here]
    exact direct.writers w
  cases stepMoves taken with
  | call outside => exact .call outside
  | compose called => exact composeMoves direct called _
  | push pushing => exact absurd (plain _ pushing) (by simp)
  | unlock leaving => exact absurd (plain _ leaving) (by simp)
  | flush outside => exact .flush
  | wait _ here => exact absurd (direct.noQueue.symm.trans here) (by simp)
  | threw admitted => exact absurd (direct.waits.symm.trans admitted) (by simp)
  | pop admitted => exact absurd (direct.waits.symm.trans admitted) (by simp)
  | write popped => exact absurd (direct.waits.symm.trans popped) (by simp)

omit [DecidableEq ω] in
theorem fputsFrame (log : ServerLog) (record : Record) :
    log.fputs record = {log with written := (log.fputs record).written, faults := (log.fputs record).faults} := by
  unfold fputs
  split <;> rfl

theorem movesDirect {s s' : State ω} {e : Event ω} (direct : Direct s) (moves : DirectMoves s e s') : Direct s' := by
  obtain ⟨sync,noQueue,split,unlocked,waits,running,writers⟩ := direct
  have moved {w : ω} {pc : WriterPc} (plain : pc = .outside ∨ ∃ call entry, pc = .called call entry) (v : ω) :
      update s.writers w pc v = .outside ∨ ∃ call entry, update s.writers w pc v = .called call entry := by
    by_cases own : v = w
    · rw [own,Function.update_self]
      exact plain
    · rw [Function.update_of_ne own]
      exact writers v
  cases moves with
  | call outside => exact ⟨sync,noQueue,split,unlocked,waits,running,moved (.inr ⟨_,_,rfl⟩)⟩
  | refused called opens => exact ⟨sync,noQueue,split,unlocked,waits,running,moved (.inl rfl)⟩
  | turns called opens =>
    rw [fputsFrame]
    exact ⟨sync,noQueue,split,unlocked,waits,running,moved (.inl rfl)⟩
  | stays called stays =>
    rw [fputsFrame]
    exact ⟨sync,noQueue,split,unlocked,waits,running,moved (.inl rfl)⟩
  | flush => exact ⟨sync,noQueue,split,unlocked,waits,running,writers⟩

omit [DecidableEq ω] in
theorem noteState (s : Traced ω) (e : Event ω) (state : State ω) : (note s e state).state = state := by
  unfold note
  split
  · rfl
  · split <;> rfl
  · rfl

theorem traceTaken {s s' : Traced ω} {e : Event ω} (taken : traceStep s e = some s') :
    step s.state e = some s'.state ∧ s' = note s e s'.state := by
  obtain ⟨state,moved,last⟩ := Option.bind_eq_some_iff.mp taken
  cases Option.some.inj last
  rw [noteState]
  exact ⟨moved,rfl⟩

omit [DecidableEq ω] in
theorem noteElse {s : Traced ω} {e : Event ω} (calm : ∀ w opened, e ≠ .compose w opened) (state : State ω) :
    ∃ clock, note s e state = ⟨state,clock,s.dates⟩ := by
  unfold note
  split
  · exact ⟨_,rfl⟩
  · exact absurd rfl (calm _ _)
  · exact ⟨_,rfl⟩

omit [DecidableEq ω] in
theorem noteOpened {s : Traced ω} {w : ω} {call : Nat} {entry : Entry} (called : s.state.writers w = .called call entry)
    (opened : Bool) {state : State ω} (more : state.log.openings.length ≠ s.state.log.openings.length) :
    note s (.compose w opened) state = ⟨state,s.clock,s.dates ++ [calendar entry.tm]⟩ := by
  simp only [note,called,if_neg more]

omit [DecidableEq ω] in
theorem noteKept {s : Traced ω} {w : ω} {call : Nat} {entry : Entry} (called : s.state.writers w = .called call entry)
    (opened : Bool) {state : State ω} (same : state.log.openings.length = s.state.log.openings.length) :
    note s (.compose w opened) state = ⟨state,s.clock,s.dates⟩ := by
  simp only [note,called,if_pos same]

inductive TraceMoves (s : Traced ω) : Event ω → Traced ω → Prop where
  | elsewhere {e : Event ω} {state : State ω} (nobody : entering s e = none) (log : state.log = s.state.log)
      (clock : Instant) : TraceMoves s e ⟨state,clock,s.dates⟩
  | refused {w : ω} {call : Nat} {entry : Entry} (called : s.state.writers w = .called call entry)
      (opens : Opens s.state.log entry.tm) :
      TraceMoves s (.compose w false)
        ⟨{s.state with log := turned s.state.log entry.tm false, writers := update s.state.writers w .outside},
          s.clock,s.dates ++ [calendar entry.tm]⟩
  | turns {w : ω} {call : Nat} {entry : Entry} {line : Text} (called : s.state.writers w = .called call entry)
      (opens : Opens s.state.log entry.tm) (composed : line = logStr s.state.log.mLogBufSize entry) :
      TraceMoves s (.compose w true)
        ⟨{s.state with log := {turned s.state.log entry.tm true with mBuf := line}.fputs ⟨call,line⟩,
                       writers := update s.state.writers w .outside},s.clock,s.dates ++ [calendar entry.tm]⟩
  | stays {w : ω} {opened : Bool} {call : Nat} {entry : Entry} {line : Text}
      (called : s.state.writers w = .called call entry) (stays : ¬ Opens s.state.log entry.tm)
      (composed : line = logStr s.state.log.mLogBufSize entry) :
      TraceMoves s (.compose w opened)
        ⟨{s.state with log := {s.state.log with mCount := s.state.log.mCount + 1, mBuf := line}.fputs ⟨call,line⟩,
                       writers := update s.state.writers w .outside},s.clock,s.dates⟩

theorem traceMoves {s s' : Traced ω} {e : Event ω} (direct : Direct s.state) (taken : traceStep s e = some s') :
    TraceMoves s e s' ∧ Direct s'.state := by
  obtain ⟨moved,noted⟩ := traceTaken taken
  have moves := directMoves direct moved
  refine ⟨?_,movesDirect direct moves⟩
  generalize s'.state = next at noted moves
  rw [noted]
  have turned_ (tm : Tm) (opened : Bool) :
      (turned s.state.log tm opened).openings.length ≠ s.state.log.openings.length := by
    simp [turned,fopen,fclose]
  have written (log : ServerLog) (record : Record) : (log.fputs record).openings = log.openings := by rw [fputsFrame]
  cases moves with
  | @call w entry outside =>
    obtain ⟨clock,same⟩ := noteElse (s := s) (e := .call w entry) (fun _ _ => by simp) _
    rw [same]
    exact .elsewhere rfl (by rfl) clock
  | @flush w =>
    obtain ⟨clock,same⟩ := noteElse (s := s) (e := .flush w) (fun _ _ => by simp) _
    rw [same]
    exact .elsewhere rfl rfl clock
  | @refused w call entry called opens =>
    rw [noteOpened called false (turned_ entry.tm false)]
    exact .refused called opens
  | @turns w call entry line called opens composed =>
    rw [noteOpened called true (by rw [written]; exact turned_ entry.tm true)]
    exact .turns called opens composed
  | @stays w opened call entry line called stays composed =>
    rw [noteKept called opened (by rw [written])]
    exact .stays called stays composed

def logSettings (split : Int) : Settings := ⟨ascii "log/ServerLog",0,8192,split,0⟩

theorem logSynchronous (split : Int) (positive : 1 ≤ split) : Synchronous (logSettings split) := ⟨rfl,le_refl 0,positive⟩

end SimpleChat.ServerLog
