import SimpleChat.Server

/-! Who is going to arm, read or close a connection: its registration when it is
armed, an event in the batch, a call to `append` past its size test, a task in
the queue, or a worker. Each connection in service has at most one of them, and
exactly one while no step drops the duty. -/
namespace SimpleChat.Server
open Basis (System tally tallyUpdate tallySame tallyMember tallyPair)
open Function (update)

variable {ω : Type}

def LoopPc.pending : LoopPc → List Ready
  | .batch rest | .accepting rest | .adding _ rest | .appending rest => rest

def LoopPc.adds (fd : Int) : LoopPc → Bool
  | .adding userfd _ => decide (userfd = fd)
  | _ => false

def inService (s : State ω) (fd : Int) : Nat :=
  if s.opened fd = true ∧ s.loop.adds fd = false then 1 else 0

def concerns (fd : Int) (ready : Ready) : Bool := decide (ready.fd? = some fd)
def names (fd : Int) (task : ThreadPool.Task Int) : Bool := decide (task.2 = some fd)

def armedAt (epoll : Int → Option Registration) (fd : Int) : Nat := match epoll fd with
  | some (.armed _) => 1
  | _ => 0

def checkedFor (fd : Int) : ThreadPool.ClientPc Int → Nat
  | .checked task => if names fd task then 1 else 0
  | _ => 0

def owedBy (fd : Int) : ThreadPool.WorkerPc Int × Body → Nat
  | (.popped task,_) => if names fd task then 1 else 0
  | (.running _ reqstruct,body) => if reqstruct = fd ∧ body.owes = true then 1 else 0
  | _ => 0

def crew (workers : ω → ThreadPool.WorkerPc Int) (bodies : ω → Body) (w : ω) : ThreadPool.WorkerPc Int × Body :=
  (workers w,bodies w)

theorem inServiceLe (s : State ω) (fd : Int) : inService s fd ≤ 1 := by
  unfold inService
  split <;> omega

theorem serving {s : State ω} {fd : Int} : inService s fd = 1 ↔ s.opened fd = true ∧ s.loop.adds fd = false := by
  unfold inService
  split <;> simp [*]

theorem openOther {opened : Int → Bool} {fd g : Int} (open_ : update opened fd false g = true) :
    g ≠ fd ∧ opened g = true := by
  by_cases same : g = fd
  · simp [same] at open_
  · exact ⟨same,by simpa [same] using open_⟩

@[simp] theorem concernsListening (fd : Int) : concerns fd .listening = false := rfl
@[simp] theorem concernsClient (fd userfd : Int) (mask : Mask) :
    concerns fd (.client userfd mask) = decide (userfd = fd) := by
  simp [concerns,Ready.fd?]

theorem updateOthers [DecidableEq ω] {β : Type} {f : ω → β} {w : ω} {x : β} : ∀ v, v ≠ w → update f w x v = f v :=
  fun _ different => Function.update_of_ne different _ _

theorem movedOthers [DecidableEq ω] {β : Type} {f g : ω → β} {w : ω} {x : β} (moved : g = update f w x) {v : ω}
    (different : v ≠ w) : g v = f v :=
  (congrFun moved v).trans (updateOthers v different)

theorem crewMoved [DecidableEq ω] (workers workers' : ω → ThreadPool.WorkerPc Int) (bodies bodies' : ω → Body) (w : ω)
    (others : ∀ v, v ≠ w → workers' v = workers v) (bodies_ : ∀ v, v ≠ w → bodies' v = bodies v) :
    crew workers' bodies' = update (crew workers bodies) w (workers' w,bodies' w) := by
  funext v
  by_cases same : v = w
  · rw [same,Function.update_self]; rfl
  · rw [Function.update_of_ne same,crew,others v same,bodies_ v same]; rfl

variable [Fintype ω]

def carriers (s : State ω) (fd : Int) : Nat :=
  armedAt s.epoll fd + s.loop.pending.countP (concerns fd) + checkedFor fd (s.pool.clients ()) +
    s.pool.taskQueue.list.countP (names fd) + tally (owedBy fd) (crew s.pool.workers s.bodies)

structure Covered (s : State ω) : Prop where
  once : ∀ fd, carriers s fd ≤ inService s fd
  fds : ∀ fd, s.opened fd = true → (s.users fd).mFd = fd
  adding : ∀ fd, s.loop.adds fd = true → s.opened fd = true

def Registered (task : ThreadPool.Task Int) : Prop := (task.1 = 0 ∨ task.1 = 1) ∧ task.2.isSome

structure Kinds (s : State ω) : Prop where
  funbox : s.pool.funbox = 2
  checked : ∀ task, s.pool.clients () = .checked task → Registered task
  queued : ∀ task ∈ s.pool.taskQueue.list, Registered task
  popped : ∀ w task, s.pool.workers w = .popped task → task.2.isSome → Registered task

structure Attended (s : State ω) : Prop where
  registered : ∀ fd, inService s fd = 1 → (s.epoll fd).isSome
  range : ∀ fd, s.opened fd = true → fd < maxFd
  kinds : Kinds s

theorem Covered.sole {s : State ω} {fd : Int} (covered : Covered s) (some_ : 0 < carriers s fd) :
    inService s fd = 1 ∧ carriers s fd = 1 := by
  have once := covered.once fd
  have most := inServiceLe s fd
  omega

theorem Covered.reported {s : State ω} {fd : Int} {mask : Mask} {rest : List Ready} (covered : Covered s)
    (here : s.loop = .batch (.client fd mask :: rest)) :
    inService s fd = 1 ∧ armedAt s.epoll fd + rest.countP (concerns fd) + checkedFor fd (s.pool.clients ()) +
      s.pool.taskQueue.list.countP (names fd) + tally (owedBy fd) (crew s.pool.workers s.bodies) = 0 := by
  have split : carriers s fd = armedAt s.epoll fd + rest.countP (concerns fd) + checkedFor fd (s.pool.clients ()) +
      s.pool.taskQueue.list.countP (names fd) + tally (owedBy fd) (crew s.pool.workers s.bodies) + 1 := by
    simp only [carriers,here,LoopPc.pending,List.countP_cons,concernsClient,decide_true,if_true]
    omega
  have some_ : 0 < carriers s fd := by omega
  obtain ⟨served,one⟩ := covered.sole some_
  exact ⟨served,by omega⟩

theorem Covered.owed {s : State ω} {w : ω} {fd : Int} (covered : Covered s)
    (one : owedBy fd (crew s.pool.workers s.bodies w) = 1) :
    inService s fd = 1 ∧ armedAt s.epoll fd = 0 ∧ ∀ v, v ≠ w → owedBy fd (crew s.pool.workers s.bodies v) = 0 := by
  have member := tallyMember (owedBy fd) (crew s.pool.workers s.bodies) w
  have some_ : 0 < carriers s fd := by simp only [carriers]; omega
  obtain ⟨served,total⟩ := covered.sole some_
  simp only [carriers] at total
  refine ⟨served,by omega,fun v different => ?_⟩
  have pair := tallyPair (owedBy fd) (crew s.pool.workers s.bodies) different
  omega

variable (parse : Text → Except String Json) (cstate : ConnState)

def HandleRearms (s : State ω) : LoopPc → Prop
  | .batch (.client _ mask :: rest) =>
      if mask.hangs then ∀ ready ∈ rest, ready = .listening
      else s.mPool = true ∧ s.pool.taskQueue.size < s.pool.maxrequest
  | _ => True

def WorkRearms (s : State ω) (e : TaskEvent) : ThreadPool.WorkerPc Int → Prop
  | .running _ fd => TaskRearms parse (s.users fd) e ∧ InBounds cstate (s.users fd) e
  | _ => True

instance (s : State ω) (loop) : Decidable (HandleRearms s loop) := match loop with
  | .batch (.client _ mask :: rest) => inferInstanceAs (Decidable (if mask.hangs then ∀ ready ∈ rest, ready = .listening
      else s.mPool = true ∧ s.pool.taskQueue.size < s.pool.maxrequest))
  | .batch [] | .batch (.listening :: _) | .accepting _ | .adding _ _ | .appending _ => .isTrue trivial

instance (s : State ω) (e) (pc) : Decidable (WorkRearms parse cstate s e pc) := match pc with
  | .running _ fd => inferInstanceAs (Decidable (TaskRearms parse (s.users fd) e ∧ InBounds cstate (s.users fd) e))
  | .unborn | .loop | .waiting | .woken | .ready | .popped _ | .exited => .isTrue trivial

/- The steps after which every connection still has someone to attend to it: a
connection that hangs up is the last one of its batch, `append` takes the task,
and the calls of the workers arm their connections again. -/
def Rearms (s : State ω) : Event ω → Prop
  | .handle => HandleRearms s s.loop
  | .task w e => WorkRearms parse cstate s e (s.pool.workers w)
  | _ => True

instance (s : State ω) (e) : Decidable (Rearms parse cstate s e) := match e with
  | .handle => inferInstanceAs (Decidable (HandleRearms s s.loop))
  | .task w e => inferInstanceAs (Decidable (WorkRearms parse cstate s e (s.pool.workers w)))
  | .wait _ | .accept _ | .add _ | .push | .post | .pool _ | .finish _ => .isTrue trivial

def Balance (kept : Prop) (s s' : State ω) : Prop :=
  ∀ fd, ∃ lost, carriers s' fd + inService s fd + lost = carriers s fd + inService s' fd ∧ (kept → lost = 0)

theorem Balance.same {kept : Prop} {s s' : State ω} (carried : ∀ fd, carriers s' fd = carriers s fd)
    (served : ∀ fd, inService s' fd = inService s fd) : Balance kept s s' :=
  fun fd => ⟨0,by rw [carried fd,served fd,Nat.add_zero],fun _ => rfl⟩

theorem Balance.once {kept : Prop} {s s' : State ω} (balance : Balance kept s s')
    (once : ∀ fd, carriers s fd ≤ inService s fd) : ∀ fd, carriers s' fd ≤ inService s' fd := by
  intro fd
  obtain ⟨lost,sum,_⟩ := balance fd
  have := once fd
  omega

theorem concernsCount (batch : List Ready) (fd : Int) :
    batch.countP (concerns fd) = (batch.filterMap Ready.fd?).count fd := by
  induction batch with
  | nil => rfl
  | cons ready rest ih =>
    cases ready with
    | listening =>
      rw [List.filterMap_cons_none rfl,← ih]
      simp
    | client userfd mask => simp [List.countP_cons,List.count_cons,Ready.fd?,ih]

theorem disarmCount {epoll : Int → Option Registration} {batch : List Ready}
    (distinct : (batch.filterMap Ready.fd?).Nodup) (from_ : batch.all (deliverable epoll)) (fd : Int) :
    armedAt (disarm epoll batch) fd + batch.countP (concerns fd) = armedAt epoll fd := by
  rw [concernsCount]
  by_cases member : fd ∈ batch.filterMap Ready.fd?
  · obtain ⟨ready,here,names⟩ := List.mem_filterMap.mp member
    have armed := List.all_eq_true.mp from_ ready here
    cases ready with
    | listening => contradiction
    | client userfd mask =>
      cases names
      simp only [deliverable] at armed
      split at armed <;> try contradiction
      rename_i events armedFor
      have off : disarm epoll batch fd = some .disarmed := by rw [disarm,if_pos member,armedFor]; rfl
      simp only [armedAt,off,armedFor,List.count_eq_one_of_mem distinct member]
  · have same : disarm epoll batch fd = epoll fd := if_neg member
    simp only [armedAt,same,List.count_eq_zero.mpr member,Nat.add_zero]

theorem disarmSome {epoll : Int → Option Registration} {fd : Int} (batch : List Ready) (some_ : (epoll fd).isSome) :
    (disarm epoll batch fd).isSome := by
  unfold disarm
  split
  · simpa using some_
  · exact some_

variable {kept : Prop} {s s' : State ω}

theorem waitBalance {batch : List Ready} (idle : s.loop = .batch [])
    (distinct : (batch.filterMap Ready.fd?).Nodup) (from_ : batch.all (deliverable s.epoll)) :
    Balance kept s {s with loop := .batch batch, epoll := disarm s.epoll batch} := by
  refine .same (fun fd => ?_) (fun fd => ?_)
  · have moved := disarmCount distinct from_ fd
    simp only [carriers,idle,LoopPc.pending,List.countP_nil]
    omega
  · simp only [inService,idle,LoopPc.adds]

theorem turnBalance {loop : LoopPc} (pending : ∀ fd, loop.pending.countP (concerns fd) = s.loop.pending.countP (concerns fd))
    (adds : ∀ fd, loop.adds fd = s.loop.adds fd) : Balance kept s {s with loop := loop} := by
  refine .same (fun fd => ?_) (fun fd => ?_)
  · simp only [carriers,pending fd]
  · simp only [inService,adds fd]

theorem hangBalance {fd : Int} {mask : Mask} {rest : List Ready} (covered : Covered s)
    (here : s.loop = .batch (.client fd mask :: rest)) (alone : kept → ∀ ready ∈ rest, ready = .listening) :
    Balance kept s {s with epoll := update s.epoll fd none, opened := update s.opened fd false, loop := .batch []} := by
  intro g
  by_cases same : g = fd
  · subst same
    obtain ⟨served,alone⟩ := covered.reported here
    have closed :
        inService {s with epoll := update s.epoll g none, opened := update s.opened g false, loop := .batch []} g = 0 := by
      simp [inService]
    have off : armedAt (update s.epoll g none) g = 0 := by simp [armedAt]
    refine ⟨0,?_,fun _ => rfl⟩
    rw [closed,served]
    simp only [carriers,here,LoopPc.pending,List.countP_cons,List.countP_nil,off,concernsClient,decide_true,if_true]
    omega
  · have other : ¬ fd = g := fun h => same h.symm
    have open_ : inService {s with epoll := update s.epoll fd none, opened := update s.opened fd false, loop := .batch []} g =
        inService s g := by simp [inService,same,here,LoopPc.adds]
    have still : armedAt (update s.epoll fd none) g = armedAt s.epoll g := by simp [armedAt,same]
    refine ⟨rest.countP (concerns g),?_,fun keeps => List.countP_eq_zero.mpr (fun ready member => ?_)⟩
    · rw [open_]
      simp only [carriers,here,LoopPc.pending,List.countP_cons,List.countP_nil,still,concernsClient,other,decide_false,
        Bool.false_eq_true,if_false]
      omega
    · rw [alone keeps ready member]
      simp

theorem leaveBalance {ready : Ready} {rest : List Ready} (here : s.loop = .batch (ready :: rest))
    (kept_ : kept → ready = .listening) {loop : LoopPc} (pending : loop.pending = rest)
    (adds : ∀ fd, loop.adds fd = false) : Balance kept s {s with loop := loop} := by
  intro g
  have pendingBefore : s.loop.pending = ready :: rest := by rw [here]; rfl
  have addsBefore : s.loop.adds g = false := by rw [here]; rfl
  refine ⟨if concerns g ready = true then 1 else 0,?_,fun keeps => ?_⟩
  · have open_ : inService {s with loop := loop} g = inService s g := by
      simp only [inService,adds g,addsBefore]
    rw [open_]
    simp only [carriers,pending,pendingBefore,List.countP_cons]
    omega
  · rw [kept_ keeps]
    simp

theorem checkBalance {fd state : Int} {mask : Mask} {rest : List Ready} {pool : ThreadPool.State Unit ω Int}
    (here : s.loop = .batch (.client fd mask :: rest)) (outside : s.pool.clients () = .outside)
    (checked : pool = {s.pool with clients := update s.pool.clients () (.checked (state,some fd))}) :
    Balance kept s {s with pool := pool, loop := .appending rest} := by
  subst checked
  refine .same (fun g => ?_) (fun g => ?_)
  · have same : concerns g (.client fd mask) = names g (state,some fd) := rfl
    simp only [carriers,here,LoopPc.pending,List.countP_cons,outside,checkedFor,Function.update_self,same]
    omega
  · simp only [inService,here,LoopPc.adds]

theorem acceptBalance {fd : Int} {rest : List Ready} {users : Int → TcpConn} (here : s.loop = .accepting rest)
    (unused : s.opened fd = false) :
    Balance kept s {s with opened := update s.opened fd true, loop := .adding fd rest, users := users} := by
  refine .same (fun g => ?_) (fun g => ?_)
  · simp only [carriers,here,LoopPc.pending]
  · by_cases same : g = fd
    · subst same
      simp [inService,here,LoopPc.adds,unused]
    · have other : ¬ fd = g := fun h => same h.symm
      simp [inService,here,LoopPc.adds,same,other]

theorem addBalance {fd : Int} {rest : List Ready} (covered : Covered s) (here : s.loop = .adding fd rest)
    (absent : s.epoll fd = none) (opened : s.opened fd = true) :
    Balance kept s {s with epoll := update s.epoll fd (some (.armed .readEvent)), loop := .accepting rest} := by
  intro g
  refine ⟨0,?_,fun _ => rfl⟩
  have once := covered.once g
  by_cases same : g = fd
  · subst same
    simp only [carriers,inService,here,LoopPc.pending,LoopPc.adds,opened,armedAt,absent,Function.update_self,
      decide_true] at once ⊢
    simp
    omega
  · have other : ¬ fd = g := fun h => same h.symm
    simp [carriers,inService,here,LoopPc.pending,LoopPc.adds,armedAt,same,other]

theorem addFailBalance {fd : Int} {rest : List Ready} {users : Int → TcpConn} (here : s.loop = .adding fd rest) :
    Balance kept s {s with users := users, opened := update s.opened fd false, loop := .accepting rest} := by
  refine .same (fun g => ?_) (fun g => ?_)
  · simp only [carriers,here,LoopPc.pending]
  · by_cases same : g = fd
    · subst same
      simp [inService,here,LoopPc.adds]
    · have other : ¬ fd = g := fun h => same h.symm
      simp [inService,here,LoopPc.adds,same,other]

theorem poolBalance (pool : ThreadPool.State Unit ω Int) (bodies : ω → Body)
    (moved : ∀ fd, ∃ lost, checkedFor fd (pool.clients ()) + pool.taskQueue.list.countP (names fd) +
      tally (owedBy fd) (crew pool.workers bodies) + lost = checkedFor fd (s.pool.clients ()) +
      s.pool.taskQueue.list.countP (names fd) + tally (owedBy fd) (crew s.pool.workers s.bodies) ∧ (kept → lost = 0)) :
    Balance kept s {s with pool := pool, bodies := bodies} := by
  intro fd
  obtain ⟨lost,sum,keeps⟩ := moved fd
  refine ⟨lost,?_,keeps⟩
  have served : inService {s with pool := pool, bodies := bodies} fd = inService s fd := rfl
  rw [served]
  simp only [carriers]
  omega

theorem armedModify (epoll : Int → Option Registration) (fd : Int) (events : Interest) :
    armedAt (epollCtl epoll (.modify fd events)) fd = if (epoll fd).isSome then 1 else 0 := by
  cases entry : epoll fd <;> simp [armedAt,epollCtl,entry]

theorem armedDelete (epoll : Int → Option Registration) (fd : Int) : armedAt (epollCtl epoll (.delete fd)) fd = 0 := by
  simp [armedAt,epollCtl]

def EpollCall.target : EpollCall → Int
  | .modify fd _ | .delete fd => fd

theorem ctlOther (epoll : Int → Option Registration) (call : EpollCall) {g : Int}
    (other : EpollCall.target call ≠ g) : epollCtl epoll call g = epoll g := by
  cases call <;> exact Function.update_of_ne (Ne.symm other) _ _

theorem Covered.owing {w : ω} {state : Nat} {fd : Int} (covered : Covered s)
    (running : s.pool.workers w = .running state fd) (owes : (s.bodies w).owes = true) :
    inService s fd = 1 ∧ armedAt s.epoll fd = 0 ∧ (s.users fd).mFd = fd := by
  have one : owedBy fd (crew s.pool.workers s.bodies w) = 1 := by
    simp only [crew,running,owedBy,owes,and_self,if_true]
  obtain ⟨served,off,_⟩ := covered.owed one
  exact ⟨served,off,covered.fds fd (serving.mp served).1⟩

section Workers
variable [DecidableEq ω]

theorem crewTally (workers workers' : ω → ThreadPool.WorkerPc Int) (bodies bodies' : ω → Body) (fd : Int) (w : ω)
    (others : ∀ v, v ≠ w → workers' v = workers v) (bodies_ : ∀ v, v ≠ w → bodies' v = bodies v) :
    tally (owedBy fd) (crew workers' bodies') + owedBy fd (workers w,bodies w) =
    tally (owedBy fd) (crew workers bodies) + owedBy fd (workers' w,bodies' w) := by
  rw [crewMoved workers workers' bodies bodies' w others bodies_]
  exact tallyUpdate (owedBy fd) (crew workers bodies) w (workers' w,bodies' w)

theorem workerBalance {w : ω} {pc : ThreadPool.WorkerPc Int} {pool : ThreadPool.State Unit ω Int}
    (workers : pool.workers = update s.pool.workers w pc) (clients : pool.clients = s.pool.clients)
    (queue : pool.taskQueue = s.pool.taskQueue)
    (same : ∀ fd, owedBy fd (pc,s.bodies w) = owedBy fd (s.pool.workers w,s.bodies w)) :
    Balance kept s {s with pool := pool} := by
  refine poolBalance pool s.bodies (fun fd => ⟨0,?_,fun _ => rfl⟩)
  have moved := crewTally s.pool.workers pool.workers s.bodies s.bodies fd w (workers ▸ updateOthers) (fun _ _ => rfl)
  rw [workers,Function.update_self,same fd] at moved
  rw [clients,queue,workers]
  omega

theorem popBalance {w : ω} {pool : ThreadPool.State Unit ω Int} (ready : s.pool.workers w = .ready)
    (workers : pool.workers = update s.pool.workers w (.popped s.pool.taskQueue.pop.1))
    (clients : pool.clients = s.pool.clients) (queue : pool.taskQueue = s.pool.taskQueue.pop.2) :
    Balance kept s {s with pool := pool} := by
  refine poolBalance pool s.bodies (fun fd => ⟨0,?_,fun _ => rfl⟩)
  have moved := crewTally s.pool.workers pool.workers s.bodies s.bodies fd w (workers ▸ updateOthers) (fun _ _ => rfl)
  rw [workers,Function.update_self,ready] at moved
  rw [clients,queue,workers]
  simp only [owedBy] at moved
  cases list : s.pool.taskQueue.list with
  | nil =>
    have none : names fd (default : ThreadPool.Task Int) = false := rfl
    simp only [SafeQueue.pop,list,none,Bool.false_eq_true,if_false] at moved ⊢
    omega
  | cons task rest =>
    simp only [SafeQueue.pop,list,List.countP_cons] at moved ⊢
    omega

theorem dispatchBalance {w : ω} {task : ThreadPool.Task Int} {pool : ThreadPool.State Unit ω Int}
    (popped : s.pool.workers w = .popped task)
    (workers : pool.workers = update s.pool.workers w (ThreadPool.dispatch s.pool.funbox task))
    (clients : pool.clients = s.pool.clients) (queue : pool.taskQueue = s.pool.taskQueue) (kinds : kept → Kinds s) :
    Balance kept s {s with pool := pool, bodies := update s.bodies w (entry (pool.workers w))} := by
  refine poolBalance pool _ (fun fd => ?_)
  have moved := crewTally s.pool.workers pool.workers s.bodies (update s.bodies w (entry (pool.workers w))) fd w
    (workers ▸ updateOthers) updateOthers
  rw [workers,Function.update_self,Function.update_self,popped] at moved
  rw [clients,queue,workers,Function.update_self]
  obtain ⟨state,reqstruct⟩ := task
  cases reqstruct with
  | none =>
    have none : names fd ((state,none) : ThreadPool.Task Int) = false := rfl
    refine ⟨0,?_,fun _ => rfl⟩
    simp only [ThreadPool.dispatch,owedBy,none,Bool.false_eq_true,if_false] at moved ⊢
    omega
  | some sockfd =>
    by_cases registered : 0 ≤ state ∧ state.toNat < s.pool.funbox
    · have starts : ∀ n : Nat, (entry (.running n sockfd)).owes = true := by
        intro n
        cases n <;> rfl
      have same : names fd (state,some sockfd) = decide (sockfd = fd) := by simp [names]
      refine ⟨0,?_,fun _ => rfl⟩
      simp only [ThreadPool.dispatch,if_pos registered,owedBy,starts,same,and_true,decide_eq_true_eq] at moved ⊢
      omega
    · refine ⟨if names fd (state,some sockfd) = true then 1 else 0,?_,fun keeps => ?_⟩
      · simp only [ThreadPool.dispatch,if_neg registered,owedBy] at moved ⊢
        omega
      · have kind := ((kinds keeps).popped w _ popped rfl).1
        rw [(kinds keeps).funbox] at registered
        exact absurd (by rcases kind with zero | one <;> simp_all) registered

theorem taskBalance {w : ω} {state : Nat} {fd : Int} {conn : TcpConn} {body : Body} {calls : List EpollCall}
    {faults : List Fault} {rearms : Prop} (covered : Covered s) (running : s.pool.workers w = .running state fd)
    (duty : Duty (s.users fd) (s.bodies w) body calls rearms)
    (keeps : kept → rearms ∧ (inService s fd = 1 → (s.epoll fd).isSome)) :
    Balance kept s (worked s w fd conn body calls faults) := by
  intro g
  have moved := crewTally s.pool.workers s.pool.workers s.bodies (update s.bodies w body) g w (fun _ _ => rfl) updateOthers
  simp only [running,Function.update_self,owedBy] at moved
  change ∃ lost, armedAt (calls.foldl epollCtl s.epoll) g + s.loop.pending.countP (concerns g) +
    checkedFor g (s.pool.clients ()) + s.pool.taskQueue.list.countP (names g) +
    tally (owedBy g) (crew s.pool.workers (update s.bodies w body)) + inService s g + lost =
    carriers s g + inService s g ∧ (kept → lost = 0)
  simp only [carriers]
  rcases duty with ⟨rfl,same⟩ | ⟨before,after,arms⟩
  · refine ⟨0,?_,fun _ => rfl⟩
    rw [same] at moved
    simp only [List.foldl_nil]
    omega
  · obtain ⟨one,off,own⟩ := covered.owing running before
    by_cases here : fd = g
    · subst here
      simp only [before,after,and_self,and_false,if_true,if_false,Bool.false_eq_true] at moved
      rcases arms with ⟨events,rfl⟩ | ⟨rfl | rfl,lost⟩
      · rw [own]
        simp only [List.foldl_cons,List.foldl_nil,armedModify]
        refine ⟨if (s.epoll fd).isSome then 0 else 1,?_,fun keep => if_pos ((keeps keep).2 one)⟩
        split <;> omega
      · refine ⟨1,?_,fun keep => absurd (keeps keep).1 lost⟩
        simp only [List.foldl_nil]
        omega
      · rw [own]
        refine ⟨1,?_,fun keep => absurd (keeps keep).1 lost⟩
        simp only [List.foldl_cons,List.foldl_nil,armedDelete]
        omega
    · have elsewhere : armedAt (calls.foldl epollCtl s.epoll) g = armedAt s.epoll g := by
        rcases arms with ⟨events,rfl⟩ | ⟨rfl | rfl,_⟩
        · simp only [List.foldl_cons,List.foldl_nil,armedAt,own]
          rw [ctlOther s.epoll (.modify fd events) here]
        · rfl
        · simp only [List.foldl_cons,List.foldl_nil,armedAt,own]
          rw [ctlOther s.epoll (.delete fd) here]
      simp only [here,false_and,if_false] at moved
      refine ⟨0,?_,fun _ => rfl⟩
      rw [elsewhere]
      omega

theorem idleOwes {pc : ThreadPool.WorkerPc Int} (idle : Idle pc = true) (fd : Int) (body : Body) :
    owedBy fd (pc,body) = 0 := by
  cases pc <;> first | rfl | contradiction

theorem movesBalance {e : Event ω} (covered : Covered s) (moves : Moves parse cstate s e s') :
    Balance (Rearms parse cstate s e ∧ Attended s) s s' := by
  cases moves with
  | wait idle distinct from_ => exact waitBalance idle distinct from_
  | listening here => exact leaveBalance here (fun _ => rfl) rfl (fun _ => rfl)
  | hangup here hangs =>
    refine hangBalance covered here (fun keeps => ?_)
    have alone := keeps.1
    simpa only [Rearms,here,HandleRearms,hangs,if_true] using alone
  | @dropped fd mask rest here calm refused =>
    refine leaveBalance here (fun keeps => ?_) rfl (fun _ => rfl)
    have takes := keeps.1
    simp only [Rearms,here,HandleRearms,calm,Bool.false_eq_true,if_false] at takes
    have range := keeps.2.range fd (serving.mp (covered.reported here).1).1
    rcases refused with high | none | full
    · exact absurd range (by omega)
    · rw [takes.1] at none; contradiction
    · exact absurd takes.2 full
  | checked here calm kind outside appends => exact checkBalance here outside appends
  | noMore here =>
    exact turnBalance (fun _ => by rw [here]; rfl) (fun _ => by rw [here]; rfl)
  | tooHigh => exact .same (fun _ => rfl) (fun _ => rfl)
  | accepted here unused range => exact acceptBalance here unused
  | addFails here => exact addFailBalance here
  | added here absent => exact addBalance covered here absent (covered.adding _ (by rw [here]; simp [LoopPc.adds]))
  | @push task pool checked clients queue workers funbox =>
    obtain ⟨number,pushed⟩ := clients
    refine poolBalance pool s.bodies (fun fd => ⟨0,?_,fun _ => rfl⟩)
    rw [checked,pushed,queue,workers]
    simp only [checkedFor,SafeQueue.push,List.countP_append,List.countP_cons,List.countP_nil]
    omega
  | @post rest pool here pushed clients queue workers funbox =>
    obtain ⟨number,task,pushed⟩ := pushed
    refine .same (fun fd => ?_) (fun fd => ?_)
    · simp only [carriers,here,clients,pushed,queue,workers,checkedFor,LoopPc.pending]
    · simp only [inService,here,LoopPc.adds]
  | @worker _ w pc pool before after workers clients queue funbox =>
    refine workerBalance workers clients queue (fun fd => ?_)
    rw [idleOwes after]
    rcases before with idle | ⟨returned,state,sockfd,running⟩
    · rw [idleOwes idle]
    · simp [running,returned,owedBy,Body.owes]
  | pop ready workers clients queue funbox => exact popBalance ready workers clients queue
  | dispatch popped workers clients queue funbox =>
    exact dispatchBalance popped workers clients queue (fun keeps => keeps.2.kinds)
  | @task w e state fd conn body calls faults running taken =>
    refine taskBalance covered running (taskSpec parse cstate taken).2.2 (fun keeps => ?_)
    have works := keeps.1
    simp only [Rearms,running,WorkRearms] at works
    exact ⟨works.1,keeps.2.registered fd⟩
  | threw => exact .same (fun _ => rfl) (fun _ => rfl)

theorem movesCovered {e : Event ω} (covered : Covered s) (moves : Moves parse cstate s e s') : Covered s' := by
  have once := (movesBalance parse cstate covered moves).once covered.once
  cases moves with
  | wait | listening | dropped | checked | noMore | post => exact ⟨once,covered.fds,nofun⟩
  | tooHigh | push | worker | pop | dispatch | threw => exact ⟨once,covered.fds,covered.adding⟩
  | @hangup fd mask rest here hangs =>
    exact ⟨once,fun g opened => covered.fds g (openOther opened).2,nofun⟩
  | @accepted fd rest here unused range =>
    refine ⟨once,fun g opened => ?_,fun g adds => ?_⟩
    · by_cases same : g = fd
      · simp [same,TcpConn.setFd]
      · have before : s.opened g = true := by simpa [same] using opened
        simpa [same] using covered.fds g before
    · have same : fd = g := by simpa [LoopPc.adds] using adds
      simp [same]
  | @addFails fd rest here =>
    refine ⟨once,fun g opened => ?_,nofun⟩
    obtain ⟨other,before⟩ := openOther opened
    simpa [other] using covered.fds g before
  | added here absent => exact ⟨once,covered.fds,nofun⟩
  | @task w e state fd conn body calls faults running taken =>
    refine ⟨once,fun g opened => ?_,covered.adding⟩
    have fds := covered.fds g opened
    by_cases same : g = fd
    · subst same
      simpa [worked,(taskSpec parse cstate taken).1] using fds
    · simpa [worked,same] using fds

theorem initialPool (start : Initial s) : s.pool.taskQueue.list = [] ∧ s.pool.clients () = .outside ∧
    s.pool.funbox = 2 ∧ ∀ w, s.pool.workers w = .loop := by
  obtain ⟨⟨pool,⟨queue,_,_,_,outside,_,_⟩,two,started⟩,_⟩ := start
  simp only [ThreadPool.step,Option.ite_none_right_eq_some,Option.some.injEq] at started
  obtain ⟨_,pool_⟩ := started
  rw [← pool_]
  exact ⟨by rw [queue]; rfl,outside (),two,fun _ => rfl⟩

theorem initialCovered (start : Initial s) : Covered s ∧ ∀ fd, carriers s fd = inService s fd := by
  obtain ⟨empty,outside,_,looping⟩ := initialPool start
  obtain ⟨_,loop,closed,absent,_⟩ := start
  have served : ∀ fd, inService s fd = 0 := fun fd => by simp [inService,closed fd]
  have none : ∀ fd, carriers s fd = 0 := by
    intro fd
    have idle : tally (owedBy fd) (crew s.pool.workers s.bodies) = 0 :=
      (Basis.tallyZero _ _).mpr (fun w => by rw [crew,looping w]; rfl)
    simp only [carriers,idle,loop,LoopPc.pending,armedAt,absent fd,outside,empty,checkedFor,List.countP_nil]
  exact ⟨⟨fun fd => by rw [none fd]; exact Nat.zero_le _,fun fd opened => by rw [closed fd] at opened; contradiction,
    fun fd adds => by rw [loop] at adds; contradiction⟩,fun fd => by rw [none fd,served fd]⟩

end Workers
end SimpleChat.Server
