import SimpleChat.Task
import SimpleChat.ThreadPool

/-! The running server: the event loop, the kernel's epoll table, the thread
pool with the loop as its one client, and workers inside `read_once` and
`sendData`. `users` is the array of connections, indexed by descriptor; a task
in the queue names its slot. -/
namespace SimpleChat.Server
open Basis (System)
open Function (update)

def maxFd : Int := 65536
def epSize : Nat := 1024

/- A one-shot registration is disarmed by the event it delivers, until the next `EPOLL_CTL_MOD`. -/
inductive Registration where
  | armed (events : Interest)
  | disarmed
  deriving DecidableEq, Repr

structure Mask where
  err : Bool
  hup : Bool
  rdhup : Bool
  inp : Bool
  out : Bool
  reported : err || hup || rdhup || inp || out
  deriving DecidableEq, Repr

def Mask.hangs (mask : Mask) : Bool := mask.err || mask.rdhup || mask.hup

def Mask.within (mask : Mask) : Interest → Bool
  | .readEvent => !mask.out
  | .writeEvent => !mask.inp

inductive Ready where
  | listening
  | client (fd : Int) (mask : Mask)
  deriving DecidableEq, Repr

def Ready.fd? : Ready → Option Int
  | .listening => none
  | .client fd _ => some fd

inductive LoopPc where
  | batch (rest : List Ready)
  | accepting (rest : List Ready)
  | adding (fd : Int) (rest : List Ready)
  | appending (rest : List Ready)
  deriving DecidableEq, Repr

structure State (ω : Type) where
  mPool : Bool
  loop : LoopPc
  opened : Int → Bool
  epoll : Int → Option Registration
  users : Int → TcpConn
  pool : ThreadPool.State Unit ω Int
  bodies : ω → Body
  faults : List Fault
  terminated : Option String

inductive Event (ω : Type) where
  | wait (batch : List Ready)
  | handle
  | accept (result : Option Int)
  | add (done : Bool)
  | push
  | post
  | pool (e : ThreadPool.Event Unit ω Int)
  | task (w : ω) (e : TaskEvent)
  | finish (w : ω)
  deriving DecidableEq, Repr

def deliverable (epoll : Int → Option Registration) : Ready → Bool
  | .listening => true
  | .client fd mask => match epoll fd with
      | some (.armed events) => mask.within events
      | _ => false

def disarm (epoll : Int → Option Registration) (batch : List Ready) (fd : Int) : Option Registration :=
  if fd ∈ batch.filterMap Ready.fd? then (epoll fd).map (fun _ => .disarmed) else epoll fd

def epollCtl (epoll : Int → Option Registration) : EpollCall → Int → Option Registration
  | .modify fd events => update epoll fd ((epoll fd).map (fun _ => .armed events))
  | .delete fd => update epoll fd none

variable {ω : Type} [DecidableEq ω] [Fintype ω]

/- `handleRead` and `handleWrite`, up to the size test in `append`. -/
def handleTask (s : State ω) (sockfd state : Int) (rest : List Ready) : Option (State ω) :=
  if maxFd ≤ sockfd ∨ s.mPool = false then some {s with loop := .batch rest}
  else do
    let pool ← ThreadPool.step s.pool (.check () (state,some sockfd))
    let loop := match pool.clients () with
      | .outside => LoopPc.batch rest
      | _ => .appending rest
    some {s with pool := pool, loop := loop}

def handleRead (s : State ω) (sockfd : Int) : List Ready → Option (State ω) := handleTask s sockfd 0
def handleWrite (s : State ω) (sockfd : Int) : List Ready → Option (State ω) := handleTask s sockfd 1

def entry : ThreadPool.WorkerPc Int → Body
  | .running 0 _ => .construct
  | .running _ _ => .sending
  | _ => .returned

def worked (s : State ω) (w : ω) (fd : Int) (conn : TcpConn) (body : Body) (calls : List EpollCall)
    (faults : List Fault) : State ω :=
  {s with users := update s.users fd conn, bodies := update s.bodies w body,
          epoll := calls.foldl epollCtl s.epoll, faults := s.faults ++ faults}

variable (parse : Text → Except String Json) (cstate : ConnState)

def act (s : State ω) : Event ω → Option (State ω)
  | .wait batch =>
      if s.loop = .batch [] ∧ batch.length ≤ epSize ∧ (batch.filterMap Ready.fd?).Nodup ∧
          batch.all (deliverable s.epoll) then
        some {s with loop := .batch batch, epoll := disarm s.epoll batch}
      else none
  | .handle => match s.loop with
      | .batch (.listening :: rest) => some {s with loop := .accepting rest}
      | .batch (.client fd mask :: rest) =>
          -- The loop leaves the batch at the first event of a connection that hangs up.
          if mask.hangs then
            some {s with epoll := update s.epoll fd none, opened := update s.opened fd false, loop := .batch []}
          else if mask.inp then handleRead s fd rest
          else if mask.out then handleWrite s fd rest
          else some {s with loop := .batch rest}
      | _ => none
  | .accept result => match s.loop, result with
      | .accepting rest, none => some {s with loop := .batch rest}
      | .accepting rest, some userfd =>
          if userfd < 0 ∨ s.opened userfd = true then none
          else if maxFd ≤ userfd then some s
          else some {s with opened := update s.opened userfd true, loop := .adding userfd rest,
                            users := update s.users userfd ((s.users userfd).setFd userfd)}
      | _, _ => none
  | .add done => match s.loop with
      | .adding userfd rest =>
          if done = false then
            some {s with users := update s.users userfd (s.users userfd).cleanAllData,
                         opened := update s.opened userfd false, loop := .accepting rest}
          else if (s.epoll userfd).isSome then none
          else some {s with epoll := update s.epoll userfd (some (.armed .readEvent)), loop := .accepting rest}
      | _ => none
  | .push => match s.loop with
      | .appending _ => do
          let pool ← ThreadPool.step s.pool (.push ())
          some {s with pool := pool}
      | _ => none
  | .post => match s.loop with
      | .appending rest => do
          let pool ← ThreadPool.step s.pool (.post ())
          some {s with pool := pool, loop := .batch rest}
      | _ => none
  | .pool e => match e with
      | .loop _ | .wait _ | .empty _ | .pop _ => do
          let pool ← ThreadPool.step s.pool e
          some {s with pool := pool}
      | .dispatch w => do
          let pool ← ThreadPool.step s.pool e
          some {s with pool := pool, bodies := update s.bodies w (entry (pool.workers w))}
      | _ => none
  | .task w e => match s.pool.workers w with
      | .running _ fd => match taskStep parse cstate (s.users fd) (s.bodies w) e with
          | some (.next conn body calls faults) => some (worked s w fd conn body calls faults)
          | some (.threw what) => some {s with terminated := some what}
          | none => none
      | _ => none
  | .finish w =>
      if s.bodies w = .returned then do
        let pool ← ThreadPool.step s.pool (.finish w)
        some {s with pool := pool}
      else none

/- An exception that leaves a task function leaves the thread too, and ends the process. -/
def step (s : State ω) (e : Event ω) : Option (State ω) :=
  if s.terminated = none then act parse cstate s e else none

def Initial (s : State ω) : Prop :=
  (∃ pool, ThreadPool.Initial pool ∧ pool.funbox = 2 ∧ ThreadPool.step pool .start = some s.pool) ∧
  s.loop = .batch [] ∧ (∀ fd, s.opened fd = false) ∧ (∀ fd, s.epoll fd = none) ∧
  (∀ fd, s.users fd = .new) ∧ s.faults = [] ∧ s.terminated = none

def system (ω : Type) [DecidableEq ω] [Fintype ω] (parse : Text → Except String Json) (cstate : ConnState) :
    System (State ω) (Event ω) := ⟨Initial,step parse cstate⟩

def Idle : ThreadPool.WorkerPc Int → Bool
  | .popped _ | .running _ _ => false
  | _ => true

inductive Moves (s : State ω) : Event ω → State ω → Prop where
  | wait {batch : List Ready} (idle : s.loop = .batch []) (distinct : (batch.filterMap Ready.fd?).Nodup)
      (from_ : batch.all (deliverable s.epoll)) :
      Moves s (.wait batch) {s with loop := .batch batch, epoll := disarm s.epoll batch}
  | listening {rest : List Ready} (here : s.loop = .batch (.listening :: rest)) :
      Moves s .handle {s with loop := .accepting rest}
  | hangup {fd : Int} {mask : Mask} {rest : List Ready} (here : s.loop = .batch (.client fd mask :: rest))
      (hangs : mask.hangs = true) :
      Moves s .handle
        {s with epoll := update s.epoll fd none, opened := update s.opened fd false, loop := .batch []}
  | dropped {fd : Int} {mask : Mask} {rest : List Ready} (here : s.loop = .batch (.client fd mask :: rest))
      (calm : mask.hangs = false)
      (refused : maxFd ≤ fd ∨ s.mPool = false ∨ ¬ s.pool.taskQueue.size < s.pool.maxrequest) :
      Moves s .handle {s with loop := .batch rest}
  | checked {fd state : Int} {mask : Mask} {rest : List Ready} {pool : ThreadPool.State Unit ω Int}
      (here : s.loop = .batch (.client fd mask :: rest)) (calm : mask.hangs = false) (kind : state = 0 ∨ state = 1)
      (outside : s.pool.clients () = .outside)
      (appends : pool = {s.pool with clients := update s.pool.clients () (.checked (state,some fd))}) :
      Moves s .handle {s with pool := pool, loop := .appending rest}
  | noMore {rest : List Ready} (here : s.loop = .accepting rest) : Moves s (.accept none) {s with loop := .batch rest}
  | tooHigh {fd : Int} : Moves s (.accept (some fd)) s
  | accepted {fd : Int} {rest : List Ready} (here : s.loop = .accepting rest) (unused : s.opened fd = false)
      (range : fd < maxFd) :
      Moves s (.accept (some fd))
        {s with opened := update s.opened fd true, loop := .adding fd rest,
                users := update s.users fd ((s.users fd).setFd fd)}
  | addFails {fd : Int} {rest : List Ready} (here : s.loop = .adding fd rest) :
      Moves s (.add false)
        {s with users := update s.users fd (s.users fd).cleanAllData, opened := update s.opened fd false,
                loop := .accepting rest}
  | added {fd : Int} {rest : List Ready} (here : s.loop = .adding fd rest) (absent : s.epoll fd = none) :
      Moves s (.add true)
        {s with epoll := update s.epoll fd (some (.armed .readEvent)), loop := .accepting rest}
  | push {task : ThreadPool.Task Int} {pool : ThreadPool.State Unit ω Int}
      (checked : s.pool.clients () = .checked task) (clients : ∃ number, pool.clients () = .pushed number task)
      (queue : pool.taskQueue = s.pool.taskQueue.push task) (workers : pool.workers = s.pool.workers)
      (funbox : pool.funbox = s.pool.funbox) : Moves s .push {s with pool := pool}
  | post {rest : List Ready} {pool : ThreadPool.State Unit ω Int} (here : s.loop = .appending rest)
      (pushed : ∃ number task, s.pool.clients () = .pushed number task) (clients : pool.clients () = .outside)
      (queue : pool.taskQueue = s.pool.taskQueue) (workers : pool.workers = s.pool.workers)
      (funbox : pool.funbox = s.pool.funbox) : Moves s .post {s with pool := pool, loop := .batch rest}
  | worker {e : Event ω} {w : ω} {pc : ThreadPool.WorkerPc Int} {pool : ThreadPool.State Unit ω Int}
      (before : Idle (s.pool.workers w) = true ∨ s.bodies w = .returned ∧ ∃ state fd, s.pool.workers w = .running state fd)
      (after : Idle pc = true) (workers : pool.workers = update s.pool.workers w pc)
      (clients : pool.clients = s.pool.clients) (queue : pool.taskQueue = s.pool.taskQueue)
      (funbox : pool.funbox = s.pool.funbox) : Moves s e {s with pool := pool}
  | pop {w : ω} {pool : ThreadPool.State Unit ω Int} (ready : s.pool.workers w = .ready)
      (workers : pool.workers = update s.pool.workers w (.popped s.pool.taskQueue.pop.1))
      (clients : pool.clients = s.pool.clients) (queue : pool.taskQueue = s.pool.taskQueue.pop.2)
      (funbox : pool.funbox = s.pool.funbox) : Moves s (.pool (.pop w)) {s with pool := pool}
  | dispatch {w : ω} {task : ThreadPool.Task Int} {pool : ThreadPool.State Unit ω Int}
      (popped : s.pool.workers w = .popped task)
      (workers : pool.workers = update s.pool.workers w (ThreadPool.dispatch s.pool.funbox task))
      (clients : pool.clients = s.pool.clients) (queue : pool.taskQueue = s.pool.taskQueue)
      (funbox : pool.funbox = s.pool.funbox) :
      Moves s (.pool (.dispatch w)) {s with pool := pool, bodies := update s.bodies w (entry (pool.workers w))}
  | task {w : ω} {e : TaskEvent} {state : Nat} {fd : Int} {conn : TcpConn} {body : Body} {calls : List EpollCall}
      {faults : List Fault} (running : s.pool.workers w = .running state fd)
      (taken : taskStep parse cstate (s.users fd) (s.bodies w) e = some (.next conn body calls faults)) :
      Moves s (.task w e) (worked s w fd conn body calls faults)
  | threw {w : ω} {e : TaskEvent} {what : String} : Moves s (.task w e) {s with terminated := some what}

theorem handleMoves {s s' : State ω} {fd state : Int} {mask : Mask} {rest : List Ready}
    (here : s.loop = .batch (.client fd mask :: rest)) (calm : mask.hangs = false) (kind : state = 0 ∨ state = 1)
    (taken : handleTask s fd state rest = some s') : Moves parse cstate s .handle s' := by
  unfold handleTask at taken
  split at taken
  · rename_i refused
    cases Option.some.inj taken
    exact .dropped here calm (refused.imp id Or.inl)
  · obtain ⟨pool,appends,taken⟩ := Option.bind_eq_some_iff.mp taken
    cases Option.some.inj taken
    cases ThreadPool.stepMoves appends with
    | checked outside room =>
      simp only [Function.update_self]
      exact .checked here calm kind outside rfl
    | refused outside full =>
      rw [outside]
      exact .dropped here calm (.inr (.inr full))

theorem actMoves {s s' : State ω} {e : Event ω} (taken : act parse cstate s e = some s') :
    Moves parse cstate s e s' := by
  cases e with
  | wait batch =>
    simp only [act,Option.ite_none_right_eq_some,Option.some.injEq] at taken
    obtain ⟨⟨idle,_,distinct,from_⟩,rfl⟩ := taken
    exact .wait idle distinct from_
  | handle =>
    simp only [act] at taken
    split at taken <;> try contradiction
    · rename_i rest here
      cases Option.some.inj taken
      exact .listening here
    · rename_i fd mask rest here
      split at taken
      · rename_i hangs
        cases Option.some.inj taken
        exact .hangup here hangs
      · rename_i calm
        have calm : mask.hangs = false := by simpa using calm
        split at taken
        · exact handleMoves parse cstate here calm (.inl rfl) taken
        · rename_i noInp
          split at taken
          · exact handleMoves parse cstate here calm (.inr rfl) taken
          · rename_i noOut
            have reported := mask.reported
            simp_all [Mask.hangs]
  | accept result =>
    simp only [act] at taken
    split at taken <;> try contradiction
    · rename_i rest here
      cases Option.some.inj taken
      exact .noMore here
    · rename_i rest fd here
      split at taken <;> try contradiction
      rename_i fresh
      have unused : s.opened fd = false := by simpa using (not_or.mp fresh).2
      split at taken
      · cases Option.some.inj taken
        exact .tooHigh
      · rename_i range
        cases Option.some.inj taken
        exact .accepted here unused (by omega)
  | add done =>
    simp only [act] at taken
    split at taken <;> try contradiction
    rename_i fd rest here
    cases done with
    | false =>
      simp only [if_true] at taken
      cases Option.some.inj taken
      exact .addFails here
    | true =>
      simp only [Bool.true_eq_false,if_false] at taken
      split at taken <;> try contradiction
      rename_i absent
      cases Option.some.inj taken
      exact .added here (by simpa using absent)
  | push =>
    simp only [act] at taken
    split at taken <;> try contradiction
    obtain ⟨pool,pushes,taken⟩ := Option.bind_eq_some_iff.mp taken
    cases Option.some.inj taken
    cases ThreadPool.stepMoves pushes with
    | push checked => exact .push checked ⟨s.pool.pushes.length,by simp only [Function.update_self]⟩ rfl rfl rfl
  | post =>
    simp only [act] at taken
    split at taken <;> try contradiction
    rename_i rest here
    obtain ⟨pool,posts,taken⟩ := Option.bind_eq_some_iff.mp taken
    cases Option.some.inj taken
    cases ThreadPool.stepMoves posts with
    | post pushed => exact .post here ⟨_,_,pushed⟩ (by simp only [Function.update_self]) rfl rfl rfl
  | pool e =>
    simp only [act] at taken
    split at taken <;> try contradiction
    all_goals
      obtain ⟨pool,moves,taken⟩ := Option.bind_eq_some_iff.mp taken
      cases Option.some.inj taken
    · cases ThreadPool.stepMoves moves with
      | exit looping | loop looping => exact .worker (.inl (by rw [looping]; rfl)) rfl rfl rfl rfl rfl
    · cases ThreadPool.stepMoves moves with
      | wait waiting positive => exact .worker (.inl (by rw [waiting]; rfl)) rfl rfl rfl rfl rfl
    · cases ThreadPool.stepMoves moves with
      | nothing woken | something woken => exact .worker (.inl (by rw [woken]; rfl)) rfl rfl rfl rfl rfl
    · cases ThreadPool.stepMoves moves with
      | pop ready => exact .pop ready rfl rfl rfl rfl
    · cases ThreadPool.stepMoves moves with
      | dispatch popped => exact .dispatch popped rfl rfl rfl rfl
  | task w e =>
    simp only [act] at taken
    split at taken <;> try contradiction
    rename_i state fd running
    split at taken <;> try contradiction
    · rename_i conn body calls faults stepped
      cases Option.some.inj taken
      exact .task running stepped
    · cases Option.some.inj taken
      exact .threw
  | finish w =>
    simp only [act,Option.ite_none_right_eq_some] at taken
    obtain ⟨returned,taken⟩ := taken
    obtain ⟨pool,finishes,taken⟩ := Option.bind_eq_some_iff.mp taken
    cases Option.some.inj taken
    cases ThreadPool.stepMoves finishes with
    | finish running => exact .worker (.inr ⟨returned,_,_,running⟩) rfl rfl rfl rfl rfl

theorem stepMoves {s s' : State ω} {e : Event ω} (taken : step parse cstate s e = some s') :
    Moves parse cstate s e s' := by
  simp only [step,Option.ite_none_right_eq_some] at taken
  exact actMoves parse cstate taken.2

end SimpleChat.Server
