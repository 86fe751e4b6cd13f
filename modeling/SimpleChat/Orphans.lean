import SimpleChat.Arming

/-! No connection is orphaned while no step drops the duty to attend to it. -/
namespace SimpleChat.Server
open Basis (System tally movedCases)
open Function (update)

variable {ω : Type}

def Attending (s : State ω) (fd : Int) : Prop :=
  (∃ events, s.epoll fd = some (.armed events)) ∨ (∃ mask, .client fd mask ∈ s.loop.pending) ∨
  (∃ state, s.pool.clients () = .checked (state,some fd)) ∨ (∃ state, (state,some fd) ∈ s.pool.taskQueue.list) ∨
  ∃ w, (∃ state, s.pool.workers w = .popped (state,some fd)) ∨ ∃ state, s.pool.workers w = .running state fd

/- Every client descriptor that was accepted, added and not closed is registered,
and is armed, or has an event in the batch, or a task queued or running. -/
def NoOrphan (s : State ω) : Prop :=
  s.terminated = none → ∀ fd, s.opened fd = true → s.loop.adds fd = false →
    (s.epoll fd).isSome ∧ Attending s fd

theorem armedSome {epoll : Int → Option Registration} {fd : Int} (some_ : 0 < armedAt epoll fd) :
    ∃ events, epoll fd = some (.armed events) := by
  unfold armedAt at some_
  split at some_ <;> try contradiction
  rename_i events armed
  exact ⟨events,armed⟩

theorem pendingSome {pending : List Ready} {fd : Int} (some_ : 0 < pending.countP (concerns fd)) :
    ∃ mask, .client fd mask ∈ pending := by
  obtain ⟨ready,member,concerned⟩ := List.countP_pos_iff.mp some_
  cases ready with
  | listening => contradiction
  | client userfd mask =>
    have same : userfd = fd := by simpa using concerned
    exact ⟨mask,same ▸ member⟩

theorem namesTask {fd : Int} {task : ThreadPool.Task Int} (named : names fd task = true) : task = (task.1,some fd) := by
  have same : task.2 = some fd := by simpa [names] using named
  rw [← same]

theorem checkedSome {fd : Int} {client : ThreadPool.ClientPc Int} (some_ : 0 < checkedFor fd client) :
    ∃ state, client = .checked (state,some fd) := by
  cases client with
  | checked task =>
    by_cases named : names fd task = true
    · exact ⟨task.1,by rw [← namesTask named]⟩
    · simp [checkedFor,named] at some_
  | _ => contradiction

theorem owedSome {fd : Int} {pc : ThreadPool.WorkerPc Int} {body : Body} (some_ : 0 < owedBy fd (pc,body)) :
    (∃ state, pc = .popped (state,some fd)) ∨ ∃ state, pc = .running state fd := by
  cases pc with
  | popped task =>
    by_cases named : names fd task = true
    · exact .inl ⟨task.1,by rw [← namesTask named]⟩
    · simp [owedBy,named] at some_
  | running state reqstruct =>
    by_cases own : reqstruct = fd
    · exact .inr ⟨state,by rw [own]⟩
    · simp [owedBy,own] at some_
  | _ => contradiction

section Kinds
variable [DecidableEq ω] {parse : Text → Except String Json} {cstate : ConnState}

theorem movesKinds {s s' : State ω} {e : Event ω} (kinds : Kinds s) (moves : Moves parse cstate s e s') : Kinds s' := by
  obtain ⟨funbox,checked,queued,popped⟩ := kinds
  cases moves with
  | @checked fd state mask rest pool here calm kind outside appends =>
    subst appends
    refine ⟨funbox,fun task here => ?_,queued,popped⟩
    simp only [Function.update_self,ThreadPool.ClientPc.checked.injEq] at here
    exact here ▸ ⟨kind,rfl⟩
  | push here clients queue workers funbox_ =>
    obtain ⟨number,pushed⟩ := clients
    refine ⟨funbox_.trans funbox,fun task now => ?_,fun task member => ?_,by rw [workers]; exact popped⟩
    · rw [pushed] at now; contradiction
    · rw [queue] at member
      simp only [SafeQueue.push,List.mem_append,List.mem_singleton] at member
      rcases member with old | new
      · exact queued task old
      · exact new ▸ checked _ here
  | post here pushed clients queue workers funbox_ =>
    refine ⟨funbox_.trans funbox,fun task now => ?_,by rw [queue]; exact queued,by rw [workers]; exact popped⟩
    rw [clients] at now; contradiction
  | @worker _ w pc pool before after workers clients queue funbox_ =>
    refine ⟨funbox_.trans funbox,by rw [clients]; exact checked,by rw [queue]; exact queued,fun v task here => ?_⟩
    rw [workers] at here
    rcases movedCases here with ⟨_,own⟩ | ⟨_,before⟩
    · rw [own] at after
      contradiction
    · exact popped v task before
  | @pop w pool ready workers clients queue funbox_ =>
    refine ⟨funbox_.trans funbox,by rw [clients]; exact checked,fun task member => ?_,fun v task here some_ => ?_⟩
    · rw [queue] at member
      cases list : s.pool.taskQueue.list with
      | nil => simp [SafeQueue.pop,list] at member
      | cons first rest =>
        simp only [SafeQueue.pop,list] at member
        exact queued task (by rw [list]; exact List.mem_cons_of_mem _ member)
    · rw [workers] at here
      rcases movedCases here with ⟨_,own⟩ | ⟨_,before⟩
      · cases list : s.pool.taskQueue.list with
        | nil =>
          simp only [SafeQueue.pop,list,ThreadPool.WorkerPc.popped.injEq] at own
          rw [← own] at some_
          contradiction
        | cons first rest =>
          simp only [SafeQueue.pop,list,ThreadPool.WorkerPc.popped.injEq] at own
          exact queued task (by rw [list,own]; exact List.mem_cons_self)
      · exact popped v task before some_
  | @dispatch w task pool here workers clients queue funbox_ =>
    refine ⟨funbox_.trans funbox,by rw [clients]; exact checked,by rw [queue]; exact queued,fun v other now => ?_⟩
    rw [workers] at now
    rcases movedCases now with ⟨_,own⟩ | ⟨_,before⟩
    · unfold ThreadPool.dispatch at own
      split at own
      · contradiction
      · split at own <;> contradiction
    · exact popped v other before
  | _ => exact ⟨funbox,checked,queued,popped⟩

end Kinds

variable [Fintype ω]

theorem carried {s : State ω} {fd : Int} (some_ : 0 < carriers s fd) : Attending s fd := by
  unfold carriers at some_
  rcases Nat.eq_zero_or_pos (armedAt s.epoll fd) with off | armed
  · rcases Nat.eq_zero_or_pos (s.loop.pending.countP (concerns fd)) with none | pending
    · rcases Nat.eq_zero_or_pos (checkedFor fd (s.pool.clients ())) with calm | checked
      · rcases Nat.eq_zero_or_pos (s.pool.taskQueue.list.countP (names fd)) with empty | queued
        · have working : 0 < tally (owedBy fd) (crew s.pool.workers s.bodies) := by omega
          obtain ⟨w,owed⟩ := (Basis.tallyPos _ _).mp working
          exact .inr (.inr (.inr (.inr ⟨w,owedSome owed⟩)))
        · obtain ⟨task,member,named⟩ := List.countP_pos_iff.mp queued
          exact .inr (.inr (.inr (.inl ⟨task.1,namesTask named ▸ member⟩)))
      · exact .inr (.inr (.inl (checkedSome checked)))
    · exact .inr (.inl (pendingSome pending))
  · exact .inl (armedSome armed)

structure Served (s : State ω) : Prop where
  covered : Covered s
  full : ∀ fd, carriers s fd = inService s fd
  attended : Attended s

theorem Served.noOrphan {s : State ω} (served : Served s) : NoOrphan s := by
  intro _ fd opened added
  have one : inService s fd = 1 := serving.mpr ⟨opened,added⟩
  exact ⟨served.attended.registered fd one,carried (by rw [served.full fd,one]; exact Nat.one_pos)⟩

variable [DecidableEq ω] {parse : Text → Except String Json} {cstate : ConnState}

omit [Fintype ω] in
theorem movesAttended {s s' : State ω} {e : Event ω} (attended : Attended s)
    (rearms : Rearms parse cstate s e) (moves : Moves parse cstate s e s') : Attended s' := by
  have kinds := movesKinds attended.kinds moves
  obtain ⟨registered,range,_⟩ := attended
  cases moves with
  | @wait batch idle distinct from_ =>
    refine ⟨fun fd served => ?_,range,kinds⟩
    have before := registered fd (by simpa [inService,idle,LoopPc.adds] using served)
    exact disarmSome batch before
  | @hangup fd mask rest here hangs =>
    refine ⟨fun g served => ?_,fun g opened => ?_,kinds⟩
    · obtain ⟨other,_⟩ := openOther (serving.mp served).1
      have before := registered g (by simpa [inService,here,LoopPc.adds,other] using served)
      simpa [other] using before
    · exact range g (openOther opened).2
  | @accepted fd rest here unused low =>
    refine ⟨fun g served => ?_,fun g opened => ?_,kinds⟩
    · by_cases same : fd = g
      · simp [inService,LoopPc.adds,same] at served
      · have other : ¬ g = fd := fun h => same h.symm
        exact registered g (by simpa [inService,here,LoopPc.adds,same,other] using served)
    · by_cases same : g = fd
      · exact same ▸ low
      · exact range g (by simpa [same] using opened)
  | @addFails fd rest here =>
    refine ⟨fun g served => ?_,fun g opened => ?_,kinds⟩
    · obtain ⟨other,_⟩ := openOther (serving.mp served).1
      exact registered g (by simpa [inService,here,LoopPc.adds,other,Ne.symm other] using served)
    · exact range g (openOther opened).2
  | @added fd rest here absent =>
    refine ⟨fun g served => ?_,range,kinds⟩
    by_cases same : fd = g
    · simp [same]
    · have other : ¬ g = fd := fun h => same h.symm
      have before := registered g (by simpa [inService,here,LoopPc.adds,same] using served)
      simpa [other] using before
  | listening here | dropped here | checked here | noMore here | post here =>
    exact ⟨fun g served => registered g (by simpa [inService,here,LoopPc.adds] using served),range,kinds⟩
  | tooHigh | push | worker | pop | dispatch | threw => exact ⟨registered,range,kinds⟩
  | @task w e state fd conn body calls faults running taken =>
    refine ⟨fun g served => ?_,range,kinds⟩
    have before := registered g served
    have spec := (taskSpec parse cstate taken).2.2
    simp only [Rearms,running,WorkRearms] at rearms
    rcases spec with ⟨rfl,_⟩ | ⟨_,_,⟨events,rfl⟩ | ⟨_,lost⟩⟩
    · exact before
    · simp only [worked,List.foldl_cons,List.foldl_nil,epollCtl]
      by_cases same : g = (s.users fd).mFd
      · rw [same] at before ⊢
        simpa using before
      · simpa [same] using before
    · exact absurd rearms.1 lost

theorem movesServed {s s' : State ω} {e : Event ω} (served : Served s) (rearms : Rearms parse cstate s e)
    (moves : Moves parse cstate s e s') : Served s' := by
  have balance := movesBalance parse cstate served.covered moves
  refine ⟨movesCovered parse cstate served.covered moves,fun fd => ?_,
    movesAttended served.attended rearms moves⟩
  obtain ⟨lost,sum,keeps⟩ := balance fd
  have none := keeps ⟨rearms,served.attended⟩
  have full := served.full fd
  omega

theorem initialServed {s : State ω} (start : Initial s) : Served s := by
  obtain ⟨covered,full⟩ := initialCovered start
  obtain ⟨empty,outside,two,looping⟩ := initialPool start
  have closed := start.2.2.1
  refine ⟨covered,full,fun fd served => ?_,fun fd opened => ?_,two,fun task here => ?_,fun task member => ?_,
    fun w task here => ?_⟩
  · have opened := (serving.mp served).1
    rw [closed fd] at opened
    contradiction
  · rw [closed fd] at opened
    contradiction
  · rw [outside] at here
    contradiction
  · rw [empty] at member
    contradiction
  · rw [looping w] at here
    contradiction

/- In a run whose steps all keep the duty to arm, no connection is orphaned. -/
theorem noneOrphaned {s : State ω} (reached : (system ω parse cstate).Reach (Rearms parse cstate) s) : NoOrphan s := by
  refine Served.noOrphan ((system ω parse cstate).invariant (fun _ => initialServed) ?_ reached)
  intro s e s' served rearms taken
  exact movesServed served rearms (stepMoves parse cstate taken)

def sampleStart (ω : Type) : State ω where
  mPool := true
  loop := .batch []
  opened := fun _ => false
  epoll := fun _ => none
  users := fun _ => .new
  pool := ⟨.new,0,false,10000,2,fun _ => .outside,fun _ => .loop,[],[],[]⟩
  bodies := fun _ => .returned
  faults := []
  terminated := none

theorem sampleInitial (ω : Type) [DecidableEq ω] [Fintype ω] : Initial (sampleStart ω) :=
  ⟨⟨⟨.new,0,true,10000,2,fun _ => .outside,fun _ => .unborn,[],[],[]⟩,
    ⟨rfl,rfl,rfl,Nat.succ_pos _,fun _ => rfl,fun _ => rfl,rfl,rfl,rfl⟩,rfl,
    by simp [ThreadPool.step,sampleStart,ThreadPool.WorkerPc.isUnborn]⟩,
    rfl,fun _ => rfl,fun _ => rfl,fun _ => rfl,rfl,rfl⟩

def hup : Mask := ⟨false,true,false,false,false,rfl⟩
def readable : Mask := ⟨false,false,false,true,false,rfl⟩
def writable : Mask := ⟨false,false,false,false,true,rfl⟩

def connect (ω : Type) : List (Event ω) :=
  [.wait [.listening],.handle,.accept (some 5),.add true,.accept none]
def deliver {ω : Type} (mask : Mask) (w : ω) : List (Event ω) :=
  [.wait [.client 5 mask],.handle,.push,.post,.pool (.loop w),.pool (.wait w),.pool (.empty w),.pool (.pop w),
   .pool (.dispatch w)]
def readRequest {ω : Type} (w : ω) : List (Event ω) :=
  [.task w .guard,.task w (.read (.bytes TcpConn.loginText)),.task w (.read (.ends .eagain)),.task w .parse,
   .task w .modify]

theorem sampleServed :
    ∃ s, (system Unit TcpConn.sampleParse .LT).checkedRun (Rearms TcpConn.sampleParse .LT) (sampleStart Unit)
        (connect Unit ++ deliver readable () ++ readRequest ()) = some s ∧
      s.epoll 5 = some (.armed .writeEvent) ∧ NoOrphan s := by
  have ends : ((system Unit TcpConn.sampleParse .LT).checkedRun (Rearms TcpConn.sampleParse .LT) (sampleStart Unit)
      (connect Unit ++ deliver readable () ++ readRequest ())).map (fun s => s.epoll 5) =
      some (some (.armed .writeEvent)) := by decide +kernel
  obtain ⟨s,ran,armed⟩ := Option.map_eq_some_iff.mp ends
  exact ⟨s,ran,armed,noneOrphaned ((system Unit TcpConn.sampleParse .LT).checkedReach (.init (sampleInitial Unit)) _ ran)⟩

def hangupRun : List (Event Unit) :=
  [.wait [.listening],.handle,.accept (some 5),.add true,.accept (some 6),.add true,.accept none,
   .wait [.client 5 hup,.client 6 readable],.handle]

def leftAlone (s : State Unit) : Bool :=
  decide (s.terminated = none ∧ s.opened 6 = true ∧ s.epoll 6 = some .disarmed ∧ s.loop = .batch [] ∧
    s.pool.clients () = .outside ∧ s.pool.taskQueue.list = [] ∧ s.pool.workers () = .loop)

theorem hangupOrphansNext :
    ∃ s, (system Unit TcpConn.sampleParse .LT).Reachable s ∧ s.opened 6 = true ∧ ¬ NoOrphan s := by
  have ends : ((system Unit TcpConn.sampleParse .LT).run (sampleStart Unit) hangupRun).map leftAlone = some true := by
    decide +kernel
  obtain ⟨s,ran,final⟩ := Option.map_eq_some_iff.mp ends
  obtain ⟨alive,opened,disarmed,loop,outside,empty,looping⟩ := of_decide_eq_true final
  refine ⟨s,(system Unit TcpConn.sampleParse .LT).runReachable (.init (sampleInitial Unit)) _ ran,opened,
    fun noOrphan => ?_⟩
  have attending := (noOrphan alive 6 opened (by rw [loop]; rfl)).2
  simp [Attending,disarmed,loop,LoopPc.pending,outside,empty,looping] at attending

end SimpleChat.Server
