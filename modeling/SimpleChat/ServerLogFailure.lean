import SimpleChat.ServerLogQueue
import SimpleChat.ServerLogTrace

/-! What a failed rotation leaves behind. The old stream is closed, `m_fp` is NULL
and no later call looks at it before its `fclose` or `fputs`. History variables
keep the streams that rotations closed and whether one of them found no new one. -/
namespace SimpleChat.ServerLog
open Basis (System)
open Function (update)
open Log (Tm Entry Record Stream)

variable {ω : Type}

structure Rotated (ω : Type) where
  state : State ω
  closed : List Stream
  failed : Bool

def noteRotation (s : Rotated ω) (state : State ω) : Rotated ω :=
  if state.log.openings.length = s.state.log.openings.length then {s with state := state}
  else ⟨state,s.closed ++ s.state.log.mFp.toList,s.failed || state.log.mFp.isNone⟩

inductive Inited : ServerLog → Prop
  | new : Inited new
  | again {log : ServerLog} (before : Inited log) (settings : Settings) (tm : Tm) (opened created : Bool) :
      Inited (init log settings tm opened created).1

structure Started (settings : Settings) (s : State ω) : Prop where
  began : ∃ log tm opened created, Inited log ∧ init log settings tm opened created = (s.log,true)
  logging : settings.closeLog = 0
  unlocked : s.locked = false
  waits : s.flushing = .waiting
  writers : ∀ w, s.writers w = .outside
  running : s.terminated = false

structure Idle (s : State ω) : Prop where
  waits : s.flushing = .waiting
  noSem : ∀ queue, s.log.mLogQueue = some queue → queue.mSem = none

def Quiet (log : ServerLog) : Prop := log.faults = [] ∧ ∀ queue, log.mLogQueue = some queue → queue.mSem = none

theorem logFullNameQuiet {log : ServerLog} (quiet : Quiet log) (fileName : Text) (tm : Tm) :
    Quiet (log.logFullName fileName tm).1 := by
  rw [logFullNameFrame]
  exact quiet

theorem initQuiet {log : ServerLog} (quiet : Quiet log) (settings : Settings) (tm : Tm) (opened created : Bool) :
    Quiet (init log settings tm opened created).1 := by
  unfold init
  split
  · exact quiet
  · have named := @logFullNameQuiet {log with
        mCloseLog := settings.closeLog, mLogBufSize := settings.logBufSize, mBuf := [],
        mSplitLines := settings.splitLines} quiet settings.fileName tm
    dsimp only
    split
    · exact named
    · split
      · split
        · exact ⟨named.1,by simp⟩
        · refine ⟨named.1,fun queue here => ?_⟩
          cases Option.some.inj here
          rfl
      · exact named

theorem initedQuiet {log : ServerLog} (inited : Inited log) : Quiet log := by
  induction inited with
  | new => exact ⟨rfl,by simp [new]⟩
  | again before settings tm opened created ih => exact initQuiet ih settings tm opened created

theorem initOpened {log log' : ServerLog} {settings : Settings} {tm : Tm} {opened created : Bool}
    (logging : settings.closeLog = 0) (began : init log settings tm opened created = (log',true)) :
    ∃ stream, log'.mFp = some stream ∧ stream.opening < log'.openings.length := by
  simp only [init,ne_eq,logging,not_true_eq_false,if_false] at began
  split at began
  · cases (Prod.mk.inj began).2
  · rename_i found
    have yes : opened = true := by simpa using found
    subst yes
    split at began
    · split at began
      · cases (Prod.mk.inj began).2
      · rw [← (Prod.mk.inj began).1]
        exact ⟨_,rfl,by simp [fopen]⟩
    · rw [← (Prod.mk.inj began).1]
      exact ⟨_,rfl,by simp [fopen]⟩

inductive Rotates (log : ServerLog) (tm : Tm) (opened : Bool) : Option (ServerLog × Bool) → Prop where
  | crashed : Rotates log tm opened none
  | turned : Rotates log tm opened (some (turned log tm opened,opened))
  | stays : Rotates log tm opened (some ({log with mCount := log.mCount + 1},true))

theorem rotateEnds (log : ServerLog) (tm : Tm) (opened : Bool) : Rotates log tm opened (log.rotate tm opened) := by
  by_cases split : log.mSplitLines = 0
  · by_cases day : log.mToday ≠ tm.mday
    · have turns : log.rotate tm opened = some (turned log tm opened,opened) := by
        simp only [rotate,turned,newLog,if_pos day]
      rw [turns]
      exact .turned
    · simp only [rotate,if_neg day,if_pos split]
      exact .crashed
  · by_cases opens : Opens log tm
    · rw [rotateTurns split opens]
      exact .turned
    · rw [rotateStays split opens]
      exact .stays

variable [DecidableEq ω]

inductive Composed (s : State ω) (w : ω) (call : Nat) (tm : Tm) : Bool → State ω → Prop where
  | crashed {opened : Bool} : Composed s w call tm opened {s with terminated := true}
  | refused : Composed s w call tm false
      {s with log := turned s.log tm false, writers := update s.writers w .outside}
  | turned (line : Text) :
      Composed s w call tm true (submit s w {turned s.log tm true with mBuf := line} ⟨call,line⟩)
  | stays {opened : Bool} (line : Text) :
      Composed s w call tm opened (submit s w {s.log with mCount := s.log.mCount + 1, mBuf := line} ⟨call,line⟩)

theorem composeEnds (s : State ω) (w : ω) (call : Nat) (entry : Entry) (opened : Bool) :
    Composed s w call entry.tm opened (compose s w call entry opened) := by
  have ends := rotateEnds s.log entry.tm opened
  unfold compose
  generalize s.log.rotate entry.tm opened = rotated at ends
  cases ends with
  | crashed => exact .crashed
  | turned =>
    cases opened with
    | false => exact .refused
    | true => exact .turned _
  | stays => exact .stays _

theorem idleMoves {s s' : State ω} {e : Event ω} (idle : Idle s) (taken : step s e = some s') :
    (∃ w call entry opened, e = .compose w opened ∧ s.writers w = .called call entry ∧
      s' = compose s w call entry opened) ∨
    ((∀ w opened, e ≠ .compose w opened) ∧ s'.flushing = .waiting ∧
      ∃ queue, s'.log = {s.log with mLogQueue := queue} ∧ queue.isSome = s.log.mLogQueue.isSome ∧
        ∀ q, queue = some q → q.mSem = none) := by
  cases stepMoves taken with
  | call outside => exact .inr ⟨by simp,idle.waits,_,rfl,rfl,idle.noSem⟩
  | compose called => exact .inl ⟨_,_,_,_,rfl,called,rfl⟩
  | push pushing here =>
    have none_ := idle.noSem _ here
    refine .inr ⟨by simp,idle.waits,_,rfl,by rw [here]; rfl,fun q same => ?_⟩
    cases Option.some.inj same
    exact none_
  | unlock leaving => exact .inr ⟨by simp,idle.waits,_,rfl,rfl,idle.noSem⟩
  | flush outside => exact .inr ⟨by simp,idle.waits,_,rfl,rfl,idle.noSem⟩
  | wait _ here waited =>
    simp only [SafeQueue.semWait,idle.noSem _ here,bind,Option.bind] at waited
    contradiction
  | threw admitted => exact absurd (idle.waits.symm.trans admitted) (by simp)
  | pop admitted => exact absurd (idle.waits.symm.trans admitted) (by simp)
  | write popped => exact absurd (idle.waits.symm.trans popped) (by simp)

theorem submitOpen (s : State ω) (w : ω) (log : ServerLog) {stream : Stream} (here : log.mFp = some stream)
    (record : Record) :
    ∃ written, (submit s w log record).log = {log with written := written} := by
  unfold submit
  split
  · exact ⟨_,rfl⟩
  · exact ⟨_,fputsOpen here record⟩

theorem composeIdle {s : State ω} (idle : Idle s) (w : ω) (call : Nat) (entry : Entry) (opened : Bool) :
    Idle (compose s w call entry opened) := by
  obtain ⟨queue,flushing⟩ := composeQueue s w call entry opened
  exact ⟨flushing.trans idle.waits,fun q here => idle.noSem q (queue.symm.trans here)⟩

theorem stepIdle {s s' : State ω} {e : Event ω} (idle : Idle s) (taken : step s e = some s') : Idle s' := by
  rcases idleMoves idle taken with ⟨w,call,entry,opened,rfl,_,rfl⟩ | ⟨_,waits,queue,log,_,noSem⟩
  · exact composeIdle idle w call entry opened
  · exact ⟨waits,fun q here => noSem q (by rw [log] at here; exact here)⟩

theorem composedOpen {s s' : State ω} {w : ω} {call : Nat} {tm : Tm} {opened : Bool} {stream : Stream}
    (here : s.log.mFp = some stream) (composed : Composed s w call tm opened s') :
    s'.log.faults = s.log.faults ∧
    ((s'.log.openings = s.log.openings ∧ s'.log.mFp = s.log.mFp) ∨
      ∃ name, s'.log.openings = s.log.openings ++ [name] ∧
        s'.log.mFp = if opened then some ⟨name,s.log.openings.length⟩ else none) := by
  have closes : s.log.fclose.faults = s.log.faults := by rw [fclose,here]; rfl
  cases composed with
  | crashed => exact ⟨rfl,.inl ⟨rfl,rfl⟩⟩
  | refused => exact ⟨closes,.inr ⟨_,rfl,rfl⟩⟩
  | turned line =>
    obtain ⟨written,log⟩ := submitOpen s w {turned s.log tm true with mBuf := line} rfl ⟨call,line⟩
    rw [log]
    exact ⟨closes,.inr ⟨_,rfl,rfl⟩⟩
  | stays line =>
    obtain ⟨written,log⟩ :=
      submitOpen s w {s.log with mCount := s.log.mCount + 1, mBuf := line} here ⟨call,line⟩
    rw [log]
    exact ⟨rfl,.inl ⟨rfl,rfl⟩⟩

/- The record of `call` reaches a file, now or in some continuation. -/
def StillWritten (settings : Settings) (before : List (Stream × Record)) (s : State ω) (call : Nat) : Prop :=
  ∃ es s', (system ω settings).run s es = some s' ∧
    ∃ stream record, (stream,record) ∈ s'.log.written.drop before.length ∧ record.call = call

theorem asyncSilent {s s' : State ω} {e : Event ω} (idle : Idle s)
    (async : (s.log.mIsAsync && s.log.mLogQueue.isSome) = true) (taken : step s e = some s') :
    s'.log.written = s.log.written ∧ (s'.log.mIsAsync && s'.log.mLogQueue.isSome) = true := by
  rcases idleMoves idle taken with ⟨w,call,entry,opened,rfl,_,rfl⟩ | ⟨_,_,queue,log,kept,_⟩
  · have composed := composeEnds s w call entry opened
    generalize compose s w call entry opened = next at composed
    cases composed with
    | crashed => exact ⟨rfl,async⟩
    | refused => exact ⟨rfl,async⟩
    | turned line =>
      rw [submit,if_pos (by exact async)]
      exact ⟨rfl,async⟩
    | stays line =>
      rw [submit,if_pos (by exact async)]
      exact ⟨rfl,async⟩
  · rw [log]
    refine ⟨rfl,?_⟩
    rw [← async]
    exact congrArg _ kept

theorem asyncNeverWritten {settings : Settings} {s : State ω} (idle : Idle s)
    (async : (s.log.mIsAsync && s.log.mLogQueue.isSome) = true) {before : List (Stream × Record)}
    (length : s.log.written.length = before.length) (call : Nat) : ¬ StillWritten settings before s call := by
  rintro ⟨es,s',ran,stream,record,member,_⟩
  have kept := (system ω settings).runKeeps
    (P := fun t => Idle t ∧ (t.log.mIsAsync && t.log.mLogQueue.isSome) = true ∧ t.log.written = s.log.written)
    (fun t e t' held taken => by
      obtain ⟨written,still⟩ := asyncSilent held.1 held.2.1 taken
      exact ⟨stepIdle held.1 taken,still,written.trans held.2.2⟩)
    ⟨idle,async,rfl⟩ es ran
  rw [kept.2.2,← length,List.drop_length] at member
  exact absurd member List.not_mem_nil

theorem crashedNeverWritten {settings : Settings} {s : State ω} (crashed : s.terminated = true)
    {before : List (Stream × Record)} (length : s.log.written.length = before.length) (call : Nat) :
    ¬ StillWritten settings before s call := by
  rintro ⟨es,s',ran,stream,record,member,_⟩
  cases es with
  | nil =>
    cases Option.some.inj ran
    rw [← length,List.drop_length] at member
    exact absurd member List.not_mem_nil
  | cons e es =>
    obtain ⟨next,taken,_⟩ := Option.bind_eq_some_iff.mp ran
    have stopped : step s e = none := by rw [step,if_pos crashed]
    rw [show (system ω settings).step s e = none from stopped] at taken
    cases taken

theorem lateLost {settings : Settings} {s s' : State ω} {w : ω} {call : Nat} {tm : Tm} {opened : Bool}
    (closed : s.log.mFp = none) (composed : Composed s w call tm opened s') (next : Idle s')
    (silent : s'.log.faults = []) : ¬ StillWritten settings s.log.written s' call := by
  have closes : s.log.fclose.faults ≠ [] := by rw [fclose,closed]; simp
  cases composed with
  | crashed => exact crashedNeverWritten rfl rfl call
  | refused => exact absurd silent closes
  | turned line =>
    obtain ⟨written,log⟩ := submitOpen s w {turned s.log tm true with mBuf := line} rfl ⟨call,line⟩
    rw [log] at silent
    exact absurd silent closes
  | stays line =>
    by_cases async : (s.log.mIsAsync && s.log.mLogQueue.isSome) = true
    · have queued : (submit s w {s.log with mCount := s.log.mCount + 1, mBuf := line} ⟨call,line⟩).log =
          {s.log with mCount := s.log.mCount + 1, mBuf := line} := by
        rw [submit,if_pos (by exact async)]
      refine asyncNeverWritten next ?_ ?_ call
      · rw [queued]
        exact async
      · rw [queued]
    · rw [submit,if_neg (by exact async),fputsClosed (by exact closed)] at silent
      simp at silent

def rotatedStep (s : Rotated ω) (e : Event ω) : Option (Rotated ω) := do
  let state ← step s.state e
  some (noteRotation s state)

def failureSystem (ω : Type) [DecidableEq ω] (settings : Settings) : System (Rotated ω) (Event ω) :=
  ⟨fun s => Started settings s.state ∧ s.closed = [] ∧ s.failed = false,rotatedStep⟩

/- `m_fp` was not NULL at any `fclose` or `fputs` so far and is not a closed
stream, and a call that comes after a failed rotation has its record written. -/
def Survives (settings : Settings) (s : Rotated ω) (e : Event ω) (s' : Rotated ω) : Prop :=
  s'.state.log.faults = [] ∧ (∀ stream, s'.state.log.mFp = some stream → stream ∉ s'.closed) ∧
  ∀ w opened call entry, e = .compose w opened → s.state.writers w = .called call entry → s.failed = true →
    StillWritten settings s.state.log.written s'.state call

def Unfailed (s : Rotated ω) (e : Event ω) : Prop := ∀ w opened, e = .compose w opened → s.failed = false

structure Held (s : Rotated ω) : Prop where
  idle : Idle s.state
  faults : s.state.log.faults = []
  live : s.failed = s.state.log.mFp.isNone
  fresh : ∀ stream, s.state.log.mFp = some stream →
    stream.opening < s.state.log.openings.length ∧ stream ∉ s.closed
  old : ∀ stream ∈ s.closed, stream.opening < s.state.log.openings.length

omit [DecidableEq ω] in
theorem startedHeld {settings : Settings} {s : Rotated ω} (started : Started settings s.state) (closed : s.closed = [])
    (failed : s.failed = false) : Held s := by
  obtain ⟨log,tm,opened,created,inited,began⟩ := started.began
  have quiet : Quiet s.state.log := by
    have after := initQuiet (initedQuiet inited) settings tm opened created
    rw [began] at after
    exact after
  obtain ⟨stream,here,place⟩ := initOpened started.logging began
  refine ⟨⟨started.waits,quiet.2⟩,quiet.1,?_,fun f same => ?_,?_⟩
  · rw [failed,here]
    rfl
  · cases Option.some.inj (here.symm.trans same)
    exact ⟨place,by rw [closed]; exact List.not_mem_nil⟩
  · rw [closed]
    exact fun f member => absurd member List.not_mem_nil

omit [DecidableEq ω] in
theorem heldNote {s : Rotated ω} (held : Held s) {state : State ω} {stream : Stream} {opened : Bool}
    (here : s.state.log.mFp = some stream) (idle : Idle state) (faults : state.log.faults = s.state.log.faults)
    (file : (state.log.openings = s.state.log.openings ∧ state.log.mFp = s.state.log.mFp) ∨
      ∃ name, state.log.openings = s.state.log.openings ++ [name] ∧
        state.log.mFp = if opened then some ⟨name,s.state.log.openings.length⟩ else none) :
    Held (noteRotation s state) := by
  rcases file with ⟨openings,fp⟩ | ⟨name,openings,fp⟩
  · rw [noteRotation,if_pos (by rw [openings])]
    refine ⟨idle,faults.trans held.faults,?_,fun f same => ?_,fun f member => ?_⟩
    · rw [held.live,fp]
    · rw [openings]
      exact held.fresh f (fp.symm.trans same)
    · rw [openings]
      exact held.old f member
  · have longer : state.log.openings.length = s.state.log.openings.length + 1 := by rw [openings]; simp
    obtain ⟨place,_⟩ := held.fresh stream here
    have older : ∀ f ∈ s.closed ++ s.state.log.mFp.toList, f.opening < s.state.log.openings.length := by
      intro f member
      rcases List.mem_append.mp member with before | last
      · exact held.old f before
      · rw [here] at last
        cases List.mem_singleton.mp last
        exact place
    rw [noteRotation,if_neg (by omega)]
    refine ⟨idle,faults.trans held.faults,?_,fun f same => ?_,fun f member => ?_⟩
    · have before : s.failed = false := by rw [held.live,here]; rfl
      rw [before,Bool.false_or]
    · have own : f = ⟨name,s.state.log.openings.length⟩ := by
        rw [fp] at same
        split at same
        · exact (Option.some.inj same).symm
        · cases same
      refine ⟨by rw [own,longer]; exact Nat.lt_succ_self _,fun member => ?_⟩
      have early := older f member
      rw [own] at early
      exact absurd early (Nat.lt_irrefl _)
    · have early := older f member
      show f.opening < state.log.openings.length
      omega

theorem rotatedTaken {s s' : Rotated ω} {e : Event ω} (taken : rotatedStep s e = some s') :
    step s.state e = some s'.state ∧ s' = noteRotation s s'.state := by
  obtain ⟨state,moved,last⟩ := Option.bind_eq_some_iff.mp taken
  cases Option.some.inj last
  have same : (noteRotation s state).state = state := by
    unfold noteRotation
    split <;> rfl
  rw [same]
  exact ⟨moved,rfl⟩

theorem heldStep {s s' : Rotated ω} {e : Event ω} (held : Held s) (unfailed : Unfailed s e)
    (taken : rotatedStep s e = some s') : Held s' := by
  obtain ⟨moved,noted⟩ := rotatedTaken taken
  have idle := stepIdle held.idle moved
  rcases idleMoves held.idle moved with ⟨w,call,entry,opened,rfl,_,same⟩ | ⟨_,_,queue,log,_⟩
  · have open_ : s.state.log.mFp.isNone = false := held.live.symm.trans (unfailed w opened rfl)
    obtain ⟨stream,here⟩ := Option.isSome_iff_exists.mp (by simpa using open_)
    have composed := composeEnds s.state w call entry opened
    rw [← same] at composed
    obtain ⟨faults,file⟩ := composedOpen here composed
    rw [noted]
    exact heldNote held here idle faults file
  · rw [noted,noteRotation,if_pos (by rw [log])]
    refine ⟨idle,?_,?_,?_,?_⟩
    · rw [log]; exact held.faults
    · rw [log]; exact held.live
    · rw [log]; exact held.fresh
    · rw [log]; exact held.old

/- In every run, synchronous or not, the logger survives its failed rotations
exactly where no call enters after one. -/
theorem failedRotationExactly {settings : Settings} {s : Rotated ω} (start : (failureSystem ω settings).init s)
    (es : List (Event ω)) :
    (failureSystem ω settings).Throughout (Survives settings) s es ↔
      (failureSystem ω settings).Throughout (fun s e _ => Unfailed s e) s es := by
  refine (failureSystem ω settings).throughoutExact ?_ (.init start) es
  intro s e s' reached taken
  have held : Held s := by
    refine (failureSystem ω settings).invariant ?_ ?_ reached
    · exact fun s start => startedHeld start.1 start.2.1 start.2.2
    · exact fun s e s' held unfailed taken => heldStep held unfailed taken
  constructor
  · rintro ⟨silent,_,written⟩ w opened rfl
    obtain ⟨moved,_⟩ := rotatedTaken taken
    rcases idleMoves held.idle moved with ⟨w',call,entry,opened',event,called,same⟩ | ⟨calm,_⟩
    · cases event
      by_contra late
      have failed : s.failed = true := by simpa using late
      have closed : s.state.log.mFp = none := by
        have none_ := held.live.symm.trans failed
        simpa using none_
      have composed := composeEnds s.state w call entry opened
      rw [← same] at composed
      exact lateLost closed composed (stepIdle held.idle moved) silent (written w opened call entry rfl called failed)
    · exact absurd rfl (calm w opened)
  · intro unfailed
    have held' := heldStep held unfailed taken
    refine ⟨held'.faults,fun stream here => (held'.fresh stream here).2,?_⟩
    intro w opened call entry event _ failed
    rw [unfailed w opened event] at failed
    cases failed

def failureState : Rotated Unit :=
  ⟨⟨(init new (logSettings 5000000) sampleTm true true).1,false,.waiting,fun _ => .outside,0,false⟩,[],false⟩

theorem failureStarts : (failureSystem Unit (logSettings 5000000)).init failureState :=
  ⟨⟨⟨new,sampleTm,true,true,.new,rfl⟩,rfl,rfl,rfl,fun _ => rfl,rfl⟩,rfl,rfl⟩

def nextDay : Entry := ⟨1,ascii "up",{sampleTm with mday := 7},42⟩

theorem lastCallFails : (failureSystem Unit (logSettings 5000000)).Throughout (Survives (logSettings 5000000))
    failureState [.call () nextDay,.compose () false,.flush ()] := by
  refine (failedRotationExactly failureStarts _).mpr ?_
  refine (System.throughoutSome _ _ rfl).mpr ⟨fun _ _ same => (by cases same),?_⟩
  refine (System.throughoutSome _ _ rfl).mpr ⟨fun _ _ _ => rfl,?_⟩
  exact (System.throughoutSome _ _ rfl).mpr ⟨fun _ _ same => (by cases same),trivial⟩

theorem nextCallWritesToNull : (failureSystem Unit (logSettings 5000000)).init failureState ∧
    ¬ (failureSystem Unit (logSettings 5000000)).Throughout (Survives (logSettings 5000000)) failureState
      [.call () nextDay,.compose () false,.call () nextDay,.compose () true] := by
  refine ⟨failureStarts,fun good => ?_⟩
  have last := (good _ rfl).2 _ rfl |>.2 _ rfl |>.2 _ rfl |>.1.1
  exact absurd last (by decide +kernel)

end SimpleChat.ServerLog
