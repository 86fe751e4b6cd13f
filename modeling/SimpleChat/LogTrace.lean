import SimpleChat.Dates
import SimpleChat.LogDelivery

/-! `Log` from `init` on, with history variables that change nothing: the streams
opened so far, the stream that each call's rotation section left open, and the
date of the last of these calls. -/
namespace SimpleChat.Log
open Basis (System)
open Function (update)

variable {ω : Type}

def idleQueue : BlockQueue Record := ⟨fun _ => ⟨0,[]⟩,0,1,-1,-1⟩

/- What `init` leaves in `dir_name` and `log_name`, and the name it opens. The
object is static, so the arrays are zero before. -/
def logFullName (fileName : Text) (tm : Tm) : Text × Text × Text := match ServerLog.strrchr fileName with
  | none => ([],[],snprintf 300 (ServerLog.date tm ++ fileName))
  | some (dir,base) =>
      let dirName := cString (strncpy (zeros 128) fileName dir.length)
      let logName := cString (strcpy (zeros 128) base)
      (dirName,logName,snprintf 300 (dirName ++ ServerLog.date tm ++ logName))

def init (fileName : Text) (logBufSize splitLines : Nat) (tm : Tm) : State ω :=
  let names := logFullName fileName tm
  ⟨names.1,names.2.1,splitLines,logBufSize,0,tm.mday,⟨names.2.2,0⟩,[],false,idleQueue,1,[],none,fun _ => .outside,0⟩

def InitialSync (s : State ω) : Prop := Initial 1 {s with mIsAsync := true} ∧ s.mIsAsync = false

theorem initSync (fileName : Text) (logBufSize : Nat) {splitLines : Nat} (positive : 1 ≤ splitLines) (tm : Tm) :
    InitialSync (init fileName logBufSize splitLines tm : State ω) :=
  ⟨⟨by decide,by decide,rfl,rfl,positive,fun _ => rfl,rfl,rfl,rfl⟩,rfl⟩

structure Traced (ω : Type) where
  log : State ω
  opened : List Stream
  selected : List (Nat × Stream)
  last : Date

def note (s : Traced ω) (e : Event ω) (log : State ω) : Traced ω := match e with
  | .rotate w => match s.log.writers w with
      | .called call entry =>
          let opened := if log.openings = s.log.openings then s.opened else s.opened ++ [log.mFp]
          ⟨log,opened,s.selected ++ [(call,log.mFp)],calendar entry.tm⟩
      | _ => {s with log := log}
  | _ => {s with log := log}

def begun (log : State ω) (tm : Tm) : Traced ω := ⟨log,[log.mFp],[],calendar tm⟩

def Opens (s : State ω) (tm : Tm) : Prop := s.mToday ≠ tm.mday ∨ (s.mCount + 1) % s.mSplitLines = 0

instance (s : State ω) (tm) : Decidable (Opens s tm) := by unfold Opens; infer_instance

theorem rotateStays {s : State ω} {tm : Tm} (stays : ¬ Opens s tm) : rotate s tm = {s with mCount := s.mCount + 1} := by
  obtain ⟨day,full⟩ := not_or.mp stays
  simp only [rotate,if_neg day,if_neg full]

theorem noteLog (s : Traced ω) (e : Event ω) (log : State ω) : (note s e log).log = log := by
  unfold note
  split
  · split <;> rfl
  · rfl

theorem noteElse {s : Traced ω} {e : Event ω} (calm : ∀ w, e ≠ .rotate w) (log : State ω) :
    note s e log = {s with log := log} := by
  unfold note
  split
  · exact absurd rfl (calm _)
  · rfl

theorem noteRotate {s : Traced ω} {w : ω} {call : Nat} {entry : Entry} (called : s.log.writers w = .called call entry)
    (log : State ω) :
    note s (.rotate w) log =
      ⟨log,if log.openings = s.log.openings then s.opened else s.opened ++ [log.mFp],s.selected ++ [(call,log.mFp)],
        calendar entry.tm⟩ := by
  simp only [note,called]

variable [DecidableEq ω]

def traceStep (s : Traced ω) (e : Event ω) : Option (Traced ω) := do
  let log ← step s.log e
  some (note s e log)

theorem tracedRun {ok ok' : State ω → Prop} (s : Traced ω) (es : List (Event ω)) :
    (System.run ⟨fun s => ok s.log,traceStep⟩ s es).map Traced.log = System.run ⟨ok',step⟩ s.log es := by
  induction es generalizing s with
  | nil => rfl
  | cons e es ih =>
    simp only [System.run,traceStep]
    cases taken : step s.log e with
    | none => rfl
    | some log =>
      have later := ih (note s e log)
      rw [noteLog] at later
      simpa using later

theorem traceTaken {s s' : Traced ω} {e : Event ω} (taken : traceStep s e = some s') :
    step s.log e = some s'.log ∧ s' = note s e s'.log := by
  obtain ⟨log,moved,last⟩ := Option.bind_eq_some_iff.mp taken
  cases Option.some.inj last
  rw [noteLog]
  exact ⟨moved,rfl⟩

end SimpleChat.Log
