import SimpleChat.BlockQueue
import Mathlib.Data.Fintype.Basic

/-! `Log` in asynchronous mode: threads in `write_log` and the flush thread in
`async_write_log`. `write_log` takes `m_mutex` up to three times and the queue's
own lock twice; each locked section is one step. Every `fopen` is assumed to
succeed, and `fputs` to write. A call number tells equal texts apart. -/
namespace SimpleChat.Log
open Basis (System)
open Function (update)

def padded (width n : Nat) : Text :=
  let digits := decimal n
  List.replicate (width - digits.length) 48 ++ digits

def snprintf (size : Nat) (expansion : Text) : Text := expansion.take (size - 1)

structure Tm where
  year : Nat
  mon : Nat
  mday : Nat
  hour : Nat
  min : Nat
  sec : Nat
  deriving DecidableEq, Repr

/- The arguments of one `write_log` call: its level, its expanded message and the time it read. -/
structure Entry where
  level : Int
  message : Text
  tm : Tm
  usec : Nat
  deriving DecidableEq, Repr

structure Record where
  call : Nat
  text : Text
  deriving DecidableEq, Repr

/- A file opened in append mode; the number tells two openings of one name apart. -/
structure Stream where
  name : Text
  opening : Nat
  deriving DecidableEq, Repr

def levelTag (level : Int) : Text :=
  if level = 0 then ascii "[debug]:"
  else if level = 1 then ascii "[info]:"
  else if level = 2 then ascii "[warn]:"
  else if level = 3 then ascii "[erro]:"
  else ascii "[info]:"

def tail (tm : Tm) : Text :=
  snprintf 16 (decimal tm.year ++ ascii "_" ++ padded 2 tm.mon ++ ascii "_" ++ padded 2 tm.mday ++ ascii "_")

def header (e : Entry) : Text :=
  snprintf 48 (decimal e.tm.year ++ ascii "-" ++ padded 2 e.tm.mon ++ ascii "-" ++ padded 2 e.tm.mday ++ ascii " " ++
    padded 2 e.tm.hour ++ ascii ":" ++ padded 2 e.tm.min ++ ascii ":" ++ padded 2 e.tm.sec ++ ascii "." ++
    padded 6 e.usec ++ ascii " " ++ levelTag e.level ++ ascii " ")

/- The string in `m_buf` after the line is composed. A message that `vsnprintf`
cuts is followed by its NUL, so the newline stored behind it is not in the string;
behind a NUL of the message nothing is. -/
def logStr (bufSize : Nat) (e : Entry) : Text :=
  let room := bufSize - (header e).length - 2
  cString (if e.message.length ≤ room then header e ++ e.message ++ [10] else header e ++ e.message.take room)

inductive WriterPc where
  | outside
  | called (call : Nat) (entry : Entry)
  | rotated (call : Nat) (entry : Entry)
  | formatted (record : Record)
  | pushing (record : Record)
  | direct (record : Record)
  deriving DecidableEq, Repr

structure State (ω : Type) where
  dirName : Text
  logName : Text
  mSplitLines : Nat
  mLogBufSize : Nat
  mCount : Nat
  mToday : Nat
  mFp : Stream
  mBuf : Text
  mIsAsync : Bool
  mLogQueue : BlockQueue Record
  openings : Nat
  written : List (Stream × Record)
  flushing : Option Record
  writers : ω → WriterPc
  calls : Nat

inductive Event (ω : Type) where
  | call (w : ω) (entry : Entry)
  | rotate (w : ω)
  | format (w : ω)
  | test (w : ω)
  | push (w : ω)
  | write (w : ω)
  | take
  | flush
  deriving DecidableEq, Repr

variable {ω : Type}

def fopen (s : State ω) (name : Text) : State ω :=
  {s with mFp := ⟨name,s.openings⟩, openings := s.openings + 1}

def fputs (s : State ω) (record : Record) : State ω := {s with written := s.written ++ [(s.mFp,record)]}

def rotate (s : State ω) (tm : Tm) : State ω :=
  let count := s.mCount + 1
  if s.mToday ≠ tm.mday then
    fopen { s with mToday := tm.mday, mCount := 0 } (snprintf 300 (s.dirName ++ tail tm ++ s.logName))
  else if count % s.mSplitLines = 0 then
    fopen {s with mCount := count}
      (snprintf 300 (s.dirName ++ tail tm ++ s.logName ++ ascii "." ++ decimal (count / s.mSplitLines)))
  else {s with mCount := count}

variable [DecidableEq ω]

def step (s : State ω) : Event ω → Option (State ω)
  | .call w entry => match s.writers w with
      | .outside => some {s with calls := s.calls + 1, writers := update s.writers w (.called s.calls entry)}
      | _ => none
  | .rotate w => match s.writers w with
      | .called call entry => some {(rotate s entry.tm) with writers := update s.writers w (.rotated call entry)}
      | _ => none
  | .format w => match s.writers w with
      | .rotated call entry =>
          let line := logStr s.mLogBufSize entry
          some {s with mBuf := line, writers := update s.writers w (.formatted ⟨call,line⟩)}
      | _ => none
  | .test w => match s.writers w with
      | .formatted record =>
          let next := if s.mIsAsync && !s.mLogQueue.full then WriterPc.pushing record else .direct record
          some {s with writers := update s.writers w next}
      | _ => none
  | .push w => match s.writers w with
      | .pushing record => do
          -- The result of `push` is not looked at.
          let pushed ← s.mLogQueue.push record
          some {s with mLogQueue := pushed.1, writers := update s.writers w .outside}
      | _ => none
  | .write w => match s.writers w with
      | .direct record => some {(fputs s record) with writers := update s.writers w .outside}
      | _ => none
  | .take =>
      if s.flushing = none ∧ 0 < s.mLogQueue.mSize then do
        let taken ← s.mLogQueue.take
        some {s with mLogQueue := taken.2, flushing := some taken.1}
      else none
  | .flush => do
      let record ← s.flushing
      some {(fputs s record) with flushing := none}

def Initial (capacity : Int) (s : State ω) : Prop :=
  1 ≤ capacity ∧ capacity ≤ intMax ∧ @BlockQueue.new Record ⟨⟨0,[]⟩⟩ capacity = some s.mLogQueue ∧
  s.mIsAsync = true ∧ 1 ≤ s.mSplitLines ∧ (∀ w, s.writers w = .outside) ∧
  s.flushing = none ∧ s.written = [] ∧ s.calls = 0

def system (ω : Type) [DecidableEq ω] (capacity : Int) : System (State ω) (Event ω) := ⟨Initial capacity,step⟩

def WriterPc.call? : WriterPc → Option Nat
  | .outside => none
  | .called call _ | .rotated call _ => some call
  | .formatted record | .pushing record | .direct record => some record.call

section Rotation
omit [DecidableEq ω]

theorem rotateFrame (s : State ω) (tm : Tm) :
    (rotate s tm).mLogQueue = s.mLogQueue ∧ (rotate s tm).written = s.written ∧
    (rotate s tm).flushing = s.flushing ∧ (rotate s tm).calls = s.calls ∧
    (rotate s tm).mIsAsync = s.mIsAsync ∧ (rotate s tm).writers = s.writers := by
  simp only [rotate]
  split
  · exact ⟨rfl,rfl,rfl,rfl,rfl,rfl⟩
  · split <;> exact ⟨rfl,rfl,rfl,rfl,rfl,rfl⟩

end Rotation

inductive Moves (s : State ω) : Event ω → State ω → Prop where
  | call {w : ω} {entry : Entry} (outside : s.writers w = .outside) :
      Moves s (.call w entry) {s with calls := s.calls + 1, writers := update s.writers w (.called s.calls entry)}
  | rotate {w : ω} {call : Nat} {entry : Entry} (called : s.writers w = .called call entry) :
      Moves s (.rotate w) {(Log.rotate s entry.tm) with writers := update s.writers w (.rotated call entry)}
  | format {w : ω} {call : Nat} {entry : Entry} {line : Text} (rotated : s.writers w = .rotated call entry)
      (composed : line = logStr s.mLogBufSize entry) :
      Moves s (.format w) {s with mBuf := line, writers := update s.writers w (.formatted ⟨call,line⟩)}
  | queueing {w : ω} {record : Record} (formatted : s.writers w = .formatted record) (async : s.mIsAsync = true)
      (room : s.mLogQueue.mSize < s.mLogQueue.mMaxSize) :
      Moves s (.test w) {s with writers := update s.writers w (.pushing record)}
  | writing {w : ω} {record : Record} (formatted : s.writers w = .formatted record)
      (refused : s.mIsAsync = false ∨ ¬ s.mLogQueue.mSize < s.mLogQueue.mMaxSize) :
      Moves s (.test w) {s with writers := update s.writers w (.direct record)}
  | push {w : ω} {record : Record} {queue : BlockQueue Record} {accepted : Bool}
      (pushing : s.writers w = .pushing record) (pushed : s.mLogQueue.push record = some (queue,accepted)) :
      Moves s (.push w) {s with mLogQueue := queue, writers := update s.writers w .outside}
  | write {w : ω} {record : Record} (direct : s.writers w = .direct record) :
      Moves s (.write w) {(fputs s record) with writers := update s.writers w .outside}
  | take {record : Record} {queue : BlockQueue Record} (idle : s.flushing = none) (some_ : 0 < s.mLogQueue.mSize)
      (took : s.mLogQueue.take = some (record,queue)) :
      Moves s .take {s with mLogQueue := queue, flushing := some record}
  | flush {record : Record} (held : s.flushing = some record) :
      Moves s .flush {(fputs s record) with flushing := none}

theorem stepMoves {s s' : State ω} {e : Event ω} (taken : step s e = some s') : Moves s e s' := by
  cases e with
  | call w entry =>
    simp only [step] at taken
    split at taken <;> try contradiction
    rename_i outside
    cases Option.some.inj taken
    exact .call outside
  | rotate w =>
    simp only [step] at taken
    split at taken <;> try contradiction
    rename_i call entry called
    cases Option.some.inj taken
    exact .rotate called
  | format w =>
    simp only [step] at taken
    split at taken <;> try contradiction
    rename_i call entry rotated
    cases Option.some.inj taken
    exact .format rotated rfl
  | test w =>
    simp only [step] at taken
    split at taken <;> try contradiction
    rename_i record formatted
    cases Option.some.inj taken
    by_cases asked : (s.mIsAsync && !s.mLogQueue.full) = true
    · rw [if_pos asked]
      simp only [Bool.and_eq_true,Bool.not_eq_true',BlockQueue.full,decide_eq_false_iff_not,Int.not_le] at asked
      exact .queueing formatted asked.1 asked.2
    · rw [if_neg asked]
      simp only [Bool.and_eq_true,Bool.not_eq_true',BlockQueue.full,decide_eq_false_iff_not,Int.not_le] at asked
      refine .writing formatted ?_
      cases async : s.mIsAsync with
      | false => exact .inl rfl
      | true => exact .inr (fun room => asked ⟨async,room⟩)
  | push w =>
    simp only [step] at taken
    split at taken <;> try contradiction
    rename_i record pushing
    obtain ⟨⟨queue,accepted⟩,pushed,last⟩ := Option.bind_eq_some_iff.mp taken
    cases Option.some.inj last
    exact .push pushing pushed
  | write w =>
    simp only [step] at taken
    split at taken <;> try contradiction
    rename_i record direct
    cases Option.some.inj taken
    exact .write direct
  | take =>
    simp only [step,Option.ite_none_right_eq_some] at taken
    obtain ⟨⟨idle,some_⟩,taken⟩ := taken
    obtain ⟨⟨record,queue⟩,took,last⟩ := Option.bind_eq_some_iff.mp taken
    cases Option.some.inj last
    exact .take idle some_ took
  | flush =>
    obtain ⟨record,held,last⟩ := Option.bind_eq_some_iff.mp taken
    cases Option.some.inj last
    exact .flush held

end SimpleChat.Log
