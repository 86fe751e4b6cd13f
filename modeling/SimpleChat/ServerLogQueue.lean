import SimpleChat.ServerLog

/-! The queue between `write_log` and the flush thread. `init` leaves it without
`setblock`, so it has no semaphore: `push` posts none, and `pop_b` waits on one
that nobody initialises. -/
namespace SimpleChat.ServerLog
open Basis (System)
open Function (update)
open Log (Record Entry Tm)

variable {ω : Type} [DecidableEq ω]

def queued (s : State ω) : List Record := (s.log.mLogQueue.map SafeQueue.list).getD []

def SemReady (s : State ω) : Prop := ∃ queue value, s.log.mLogQueue = some queue ∧ queue.mSem = some value

def Able (s : State ω) : Prop :=
  s.flushing ≠ .waiting ∨ ∃ queue value, s.log.mLogQueue = some queue ∧ queue.mSem = some value ∧ 0 < value

structure Drainable (s : State ω) : Prop where
  initialised : s.flushing = .waiting → SemReady s
  able : queued s ≠ [] → (∀ w record, s.writers w ≠ .pushing record) → Able s

def CanDrain (settings : Settings) (s : State ω) : Prop :=
  ∀ es s', (system ω settings).run s es = some s' → Drainable s'

structure Blocked (s : State ω) : Prop where
  waits : s.flushing = .waiting
  noSem : ∃ queue, s.log.mLogQueue = some queue ∧ queue.mSem = none

omit [DecidableEq ω] in
theorem Blocked.notReady {s : State ω} (blocked : Blocked s) : ¬ SemReady s := by
  rintro ⟨queue,value,here,sem⟩
  obtain ⟨own,same,none_⟩ := blocked.noSem
  cases Option.some.inj (here.symm.trans same)
  rw [none_] at sem
  cases sem

omit [DecidableEq ω] in
theorem Blocked.notAble {s : State ω} (blocked : Blocked s) : ¬ Able s := by
  rintro (moved | ⟨queue,value,here,sem,_⟩)
  · exact moved blocked.waits
  · exact blocked.notReady ⟨queue,value,here,sem⟩

theorem fputsQueue (log : ServerLog) (record : Record) : (log.fputs record).mLogQueue = log.mLogQueue := by
  unfold fputs
  split <;> rfl

theorem rotateQueue {log log' : ServerLog} {tm : Tm} {opened on : Bool}
    (rotated : log.rotate tm opened = some (log',on)) : log'.mLogQueue = log.mLogQueue := by
  simp only [rotate] at rotated
  split at rotated
  · cases Option.some.inj rotated
    rfl
  · split at rotated <;> try contradiction
    split at rotated
    · cases Option.some.inj rotated
      rfl
    · cases Option.some.inj rotated
      rfl

theorem submitQueue (s : State ω) (w : ω) (log : ServerLog) (record : Record) :
    (submit s w log record).log.mLogQueue = log.mLogQueue ∧ (submit s w log record).flushing = s.flushing := by
  unfold submit
  split
  · exact ⟨rfl,rfl⟩
  · exact ⟨fputsQueue _ _,rfl⟩

theorem composeQueue (s : State ω) (w : ω) (call : Nat) (entry : Entry) (opened : Bool) :
    (compose s w call entry opened).log.mLogQueue = s.log.mLogQueue ∧
    (compose s w call entry opened).flushing = s.flushing := by
  unfold compose
  split
  · exact ⟨rfl,rfl⟩
  · rename_i log rotated
    exact ⟨rotateQueue rotated,rfl⟩
  · rename_i log rotated
    have kept := rotateQueue rotated
    generalize logStr log.mLogBufSize entry = line
    obtain ⟨queue,flushing⟩ := submitQueue s w {log with mBuf := line} ⟨call,line⟩
    exact ⟨queue.trans kept,flushing⟩

theorem stepBlocked {s s' : State ω} {e : Event ω} (blocked : Blocked s) (taken : step s e = some s') :
    Blocked s' ∧ ∃ more, queued s' = queued s ++ more := by
  obtain ⟨waits,queue,here,none_⟩ := blocked
  have kept {t : State ω} (same : t.log.mLogQueue = s.log.mLogQueue) (flushing : t.flushing = s.flushing) :
      Blocked t ∧ ∃ more, queued t = queued s ++ more :=
    ⟨⟨flushing.trans waits,queue,same.trans here,none_⟩,[],by rw [queued,same,queued,List.append_nil]⟩
  cases stepMoves taken with
  | call outside => exact kept rfl rfl
  | compose called => exact kept (composeQueue _ _ _ _ _).1 (composeQueue _ _ _ _ _).2
  | @push w record own pushing same =>
    cases Option.some.inj (here.symm.trans same)
    refine ⟨⟨waits,queue.push record,rfl,none_⟩,[record],?_⟩
    simp only [queued,here,Option.map_some,Option.getD_some,SafeQueue.push]
  | unlock leaving => exact kept rfl rfl
  | flush outside => exact kept rfl rfl
  | wait _ same waited =>
    cases Option.some.inj (here.symm.trans same)
    simp only [SafeQueue.semWait,none_,bind,Option.bind] at waited
    contradiction
  | threw admitted => exact absurd (waits.symm.trans admitted) (by simp)
  | pop admitted => exact absurd (waits.symm.trans admitted) (by simp)
  | write popped => exact absurd (waits.symm.trans popped) (by simp)

omit [DecidableEq ω] in
theorem initBlocked {settings : Settings} {s : State ω} (begun : Begun settings s) : Blocked s := by
  obtain ⟨⟨log,tm,opened,created,began⟩,logging,async,_,waits,_⟩ := begun
  refine ⟨waits,?_⟩
  simp only [init,ne_eq,logging,not_true_eq_false,if_false,async,if_true] at began
  split at began
  · cases (Prod.mk.inj began).2
  · split at began
    · cases (Prod.mk.inj began).2
    · rw [← (Prod.mk.inj began).1]
      exact ⟨_,rfl,rfl⟩

theorem runQueued {settings : Settings} {s s' : State ω} (blocked : Blocked s) (es : List (Event ω))
    (ran : (system ω settings).run s es = some s') : Blocked s' ∧ queued s <+: queued s' := by
  refine (system ω settings).runKeeps (P := fun t => Blocked t ∧ queued s <+: queued t) ?_
    ⟨blocked,List.prefix_refl _⟩ es ran
  intro t e t' held taken
  obtain ⟨later,more,longer⟩ := stepBlocked held.1 taken
  exact ⟨later,longer ▸ held.2.trans (List.prefix_append _ _)⟩

/- In asynchronous mode no state of any run can drain: the semaphore is never
initialised, the flush thread never passes it, and no pushed record leaves the
queue. -/
theorem neverDrains {settings : Settings} {s : State ω} (begun : Begun settings s) :
    ¬ CanDrain settings s ∧
    ∀ es s', (system ω settings).run s es = some s' →
      ¬ SemReady s' ∧ ¬ Able s' ∧
      ∀ es' s'', (system ω settings).run s' es' = some s'' → queued s' <+: queued s'' := by
  have start := initBlocked begun
  refine ⟨fun drains => start.notReady ((drains [] s rfl).initialised start.waits),fun es s' ran => ?_⟩
  have blocked := (runQueued start es ran).1
  exact ⟨blocked.notReady,blocked.notAble,fun es' s'' ran' => (runQueued blocked es' ran').2⟩

def sampleSettings : Settings := ⟨ascii "log",0,8192,5000000,8⟩
def sampleTm : Tm := ⟨2024,5,6,7,8,9⟩
def sampleState : State Unit :=
  ⟨(init new sampleSettings sampleTm true true).1,false,.waiting,fun _ => .outside,0,false⟩

theorem sampleBegun : Begun sampleSettings sampleState :=
  ⟨⟨new,sampleTm,true,true,rfl⟩,rfl,by decide,rfl,rfl,fun _ => rfl,rfl⟩

theorem sampleNeverDrains : ¬ CanDrain sampleSettings sampleState := (neverDrains sampleBegun).1

def oneLine : List (Event Unit) := [.call () ⟨1,ascii "up",sampleTm,42⟩,.compose () true,.push (),.unlock ()]

theorem lineStaysQueued :
    Begun sampleSettings sampleState ∧ ¬ CanDrain sampleSettings sampleState ∧
    ((system Unit sampleSettings).run sampleState oneLine).map
      (fun s => ((queued s).length,s.writers (),(step s .wait).isNone,(step s .pop).isNone,(step s .write).isNone)) =
      some (1,.outside,true,true,true) := by
  refine ⟨sampleBegun,?_,by decide +kernel⟩
  intro drains
  obtain ⟨queue,value,here,sem⟩ := (drains [] sampleState rfl).initialised rfl
  cases Option.some.inj here
  cases sem

end SimpleChat.ServerLog
