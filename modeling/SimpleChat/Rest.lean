import SimpleChat.Places
import SimpleChat.ThreadPoolDelivery

/-! The server at rest: the loop in `epoll_wait`, every worker in `sem_wait`, no task
queued. What the clients and the kernel hand in is worked off in a bounded number
of steps, in whatever order the threads make them, and nothing blocks before. -/
namespace SimpleChat.Server
open Basis (System tally tallyUpdate)
open Function (update)

variable {ω : Type}

def Event.own : Event ω → Bool
  | .wait _ | .accept (some _) | .task _ (.read (.bytes _)) => false
  | _ => true

def Event.brings : Event ω → Nat
  | .wait batch => batch.length
  | .accept (some _) => 1
  | _ => 0

section Potential

def LoopPc.toDo : LoopPc → Nat
  | .batch rest | .appending rest => 15 * rest.length
  | .accepting rest => 15 * rest.length + 1
  | .adding _ rest => 15 * rest.length + 2

def clientToDo : ThreadPool.ClientPc Int → Nat
  | .checked _ => 14
  | .pushed _ _ => 13
  | .outside | .closing _ => 0

def bodyToDo : Body → Nat
  | .construct => 6
  | .reading => 5
  | .parsing => 4
  | .rearming | .sending => 3
  | .resetting | .clearing => 2
  | .shrinking | .deleting | .resuming => 1
  | .returned => 0

def crewToDo : ThreadPool.WorkerPc Int × Body → Nat
  | (.woken,_) => 11
  | (.ready,_) => 10
  | (.popped _,_) => 9
  | (.running _ _,body) => 2 + bodyToDo body
  | (.loop,_) => 1
  | (.unborn,_) | (.waiting,_) | (.exited,_) => 0

/- At most so many steps of its own can the server make from here. A token is
worth the way of a worker from `sem_wait` to its loop test. -/
def toDo [Fintype ω] (s : State ω) : Nat :=
  s.loop.toDo + clientToDo (s.pool.clients ()) + 12 * s.pool.sem + tally crewToDo (crew s.pool.workers s.bodies) +
    if s.terminated = none then 1 else 0

end Potential

def LoopPc.appends : LoopPc → Bool
  | .appending _ => true
  | _ => false

section Steps
variable [DecidableEq ω] [Fintype ω] {parse : Text → Except String Json} {cstate : ConnState} {s s' : State ω}

inductive Turns (parse : Text → Except String Json) (cstate : ConnState) (s s' : State ω) : Event ω → Prop where
  | loop {e : Event ω} (moved : (if e.own then 1 else 0) + s'.loop.toDo ≤ s.loop.toDo + 15 * e.brings)
      (before : s.loop.appends = false) (after : s'.loop.appends = false) (pool : s'.pool = s.pool)
      (bodies : s'.bodies = s.bodies) : Turns parse cstate s s' e
  | check {task : ThreadPool.Task Int} (left : s'.loop.toDo + 15 ≤ s.loop.toDo) (before : s.loop.appends = false)
      (after : s'.loop.appends = true) (checks : ThreadPool.step s.pool (.check () task) = some s'.pool)
      (checked : s'.pool = {s.pool with clients := update s.pool.clients () (.checked task)})
      (outside : s.pool.clients () = .outside) (bodies : s'.bodies = s.bodies) : Turns parse cstate s s' .handle
  | push (here : s.loop.appends = true) (loop : s'.loop = s.loop) (pushes : ThreadPool.step s.pool (.push ()) = some s'.pool)
      (bodies : s'.bodies = s.bodies) : Turns parse cstate s s' .push
  | post (here : s.loop.appends = true) (left : s'.loop.toDo = s.loop.toDo) (after : s'.loop.appends = false)
      (posts : ThreadPool.step s.pool (.post ()) = some s'.pool) (bodies : s'.bodies = s.bodies) : Turns parse cstate s s' .post
  | pool {e : ThreadPool.Event Unit ω Int} (kind : ∃ w, e = .loop w ∨ e = .wait w ∨ e = .empty w ∨ e = .pop w)
      (loop : s'.loop = s.loop) (moves : ThreadPool.step s.pool e = some s'.pool) (bodies : s'.bodies = s.bodies) :
      Turns parse cstate s s' (.pool e)
  | dispatch {w : ω} (loop : s'.loop = s.loop) (moves : ThreadPool.step s.pool (.dispatch w) = some s'.pool)
      (bodies : s'.bodies = update s.bodies w (entry (s'.pool.workers w))) : Turns parse cstate s s' (.pool (.dispatch w))
  | finish {w : ω} (loop : s'.loop = s.loop) (returned : s.bodies w = .returned)
      (moves : ThreadPool.step s.pool (.finish w) = some s'.pool) (bodies : s'.bodies = s.bodies) :
      Turns parse cstate s s' (.finish w)
  | task {w : ω} {e : TaskEvent} {state : Nat} {fd : Int} {conn : TcpConn} {body : Body} {calls : List EpollCall}
      {faults : List Fault} (running : s.pool.workers w = .running state fd)
      (moves : TaskMoves parse cstate (s.users fd) (s.bodies w) e conn body calls faults) (loop : s'.loop = s.loop)
      (pool : s'.pool = s.pool) (bodies : s'.bodies = update s.bodies w body) : Turns parse cstate s s' (.task w e)
  | threw {w : ω} {e : TaskEvent} (running : ∃ state fd, s.pool.workers w = .running state fd) (loop : s'.loop = s.loop)
      (pool : s'.pool = s.pool) (bodies : s'.bodies = s.bodies) (ends : s'.terminated ≠ none) :
      Turns parse cstate s s' (.task w e)

theorem handleTurns {fd state : Int} {mask : Mask} {rest : List Ready} (here : s.loop = .batch (.client fd mask :: rest))
    (taken : handleTask s fd state rest = some s') : Turns parse cstate s s' .handle := by
  have before : s.loop.appends = false := by rw [here]; rfl
  have less : 1 + 15 * rest.length ≤ s.loop.toDo + 15 * 0 := by
    rw [here]
    simp only [LoopPc.toDo,List.length_cons]
    omega
  unfold handleTask at taken
  split at taken
  · cases Option.some.inj taken
    exact .loop less before rfl rfl rfl
  · obtain ⟨pool,appends,taken⟩ := Option.bind_eq_some_iff.mp taken
    cases Option.some.inj taken
    cases ThreadPool.stepMoves appends with
    | checked outside room =>
      simp only [Function.update_self]
      refine .check ?_ before rfl appends rfl outside rfl
      rw [here]
      simp only [LoopPc.toDo,List.length_cons]
      omega
    | refused outside full =>
      simp only [outside]
      exact .loop less before rfl rfl rfl

theorem stepTurns {e : Event ω} (taken : step parse cstate s e = some s') :
    s.terminated = none ∧ Turns parse cstate s s' e := by
  simp only [step,Option.ite_none_right_eq_some] at taken
  obtain ⟨alive,taken⟩ := taken
  refine ⟨alive,?_⟩
  cases e with
  | wait batch =>
    simp only [act,Option.ite_none_right_eq_some,Option.some.injEq] at taken
    obtain ⟨⟨idle,_⟩,rfl⟩ := taken
    exact .loop (by simp [Event.own,Event.brings,LoopPc.toDo]) (by rw [idle]; rfl) rfl rfl rfl
  | handle =>
    simp only [act] at taken
    split at taken <;> try contradiction
    · rename_i rest here
      cases Option.some.inj taken
      refine .loop ?_ (by rw [here]; rfl) rfl rfl rfl
      simp only [here,LoopPc.toDo,Event.own,Event.brings,List.length_cons,if_true]
      omega
    · rename_i fd mask rest here
      split at taken
      · cases Option.some.inj taken
        refine .loop ?_ (by rw [here]; rfl) rfl rfl rfl
        simp only [here,LoopPc.toDo,Event.own,Event.brings,List.length_cons,List.length_nil,if_true]
        omega
      · split at taken
        · exact handleTurns here taken
        · split at taken
          · exact handleTurns here taken
          · cases Option.some.inj taken
            refine .loop ?_ (by rw [here]; rfl) rfl rfl rfl
            simp only [here,LoopPc.toDo,Event.own,Event.brings,List.length_cons,if_true]
            omega
  | accept result =>
    simp only [act] at taken
    split at taken <;> try contradiction
    · rename_i rest here
      cases Option.some.inj taken
      refine .loop ?_ (by rw [here]; rfl) rfl rfl rfl
      simp only [here,LoopPc.toDo,Event.own,Event.brings,if_true]
      omega
    · rename_i rest fd here
      split at taken <;> try contradiction
      split at taken
      · cases Option.some.inj taken
        exact .loop (by simp [Event.own]) (by rw [here]; rfl) (by rw [here]; rfl) rfl rfl
      · cases Option.some.inj taken
        refine .loop ?_ (by rw [here]; rfl) rfl rfl rfl
        simp only [here,LoopPc.toDo,Event.own,Event.brings,Bool.false_eq_true,if_false]
        omega
  | add done =>
    simp only [act] at taken
    split at taken <;> try contradiction
    rename_i fd rest here
    have less : 1 + (LoopPc.accepting rest).toDo ≤ s.loop.toDo + 15 * 0 := by
      simp only [here,LoopPc.toDo]
      omega
    split at taken
    · cases Option.some.inj taken
      exact .loop less (by rw [here]; rfl) rfl rfl rfl
    · split at taken <;> try contradiction
      cases Option.some.inj taken
      exact .loop less (by rw [here]; rfl) rfl rfl rfl
  | push =>
    simp only [act] at taken
    split at taken <;> try contradiction
    rename_i rest here
    obtain ⟨pool,pushes,taken⟩ := Option.bind_eq_some_iff.mp taken
    cases Option.some.inj taken
    exact .push (by rw [here]; rfl) rfl pushes rfl
  | post =>
    simp only [act] at taken
    split at taken <;> try contradiction
    rename_i rest here
    obtain ⟨pool,posts,taken⟩ := Option.bind_eq_some_iff.mp taken
    cases Option.some.inj taken
    exact .post (by rw [here]; rfl) (by rw [here]; rfl) rfl posts rfl
  | pool e =>
    simp only [act] at taken
    split at taken <;> try contradiction
    all_goals
      obtain ⟨pool,moves,taken⟩ := Option.bind_eq_some_iff.mp taken
      cases Option.some.inj taken
    · exact .pool ⟨_,.inl rfl⟩ rfl moves rfl
    · exact .pool ⟨_,.inr (.inl rfl)⟩ rfl moves rfl
    · exact .pool ⟨_,.inr (.inr (.inl rfl))⟩ rfl moves rfl
    · exact .pool ⟨_,.inr (.inr (.inr rfl))⟩ rfl moves rfl
    · exact .dispatch rfl moves rfl
  | task w e =>
    simp only [act] at taken
    split at taken <;> try contradiction
    rename_i state fd running
    split at taken <;> try contradiction
    · rename_i conn body calls faults stepped
      cases Option.some.inj taken
      exact .task running (taskMoves parse cstate stepped) rfl rfl rfl
    · cases Option.some.inj taken
      exact .threw ⟨state,fd,running⟩ rfl rfl rfl (by simp)
  | finish w =>
    simp only [act,Option.ite_none_right_eq_some] at taken
    obtain ⟨returned,taken⟩ := taken
    obtain ⟨pool,finishes,taken⟩ := Option.bind_eq_some_iff.mp taken
    cases Option.some.inj taken
    exact .finish rfl returned finishes rfl

omit [DecidableEq ω] [Fintype ω] in
theorem taskToDo {c c' : TcpConn} {body body' : Body} {e : TaskEvent} {calls : List EpollCall} {faults : List Fault} {w : ω}
    (moves : TaskMoves parse cstate c body e c' body' calls faults) :
    (if (Event.task w e).own then 1 else 0) + bodyToDo body' ≤ bodyToDo body := by
  cases moves <;> simp [Event.own,bodyToDo]

omit [Fintype ω] in
theorem entryToDo (funbox : Nat) (task : ThreadPool.Task Int) :
    crewToDo (ThreadPool.dispatch funbox task,entry (ThreadPool.dispatch funbox task)) ≤ 8 := by
  unfold ThreadPool.dispatch
  split
  · decide
  · split
    · rename_i state _ _
      cases state.toNat <;> simp [entry,crewToDo,bodyToDo]
    · decide

theorem crewMoves (s : State ω) {bodies : ω → Body} {w : ω} (pc : ThreadPool.WorkerPc Int)
    (others : ∀ v, v ≠ w → bodies v = s.bodies v) :
    tally crewToDo (crew (update s.pool.workers w pc) bodies) + crewToDo (s.pool.workers w,s.bodies w) =
      tally crewToDo (crew s.pool.workers s.bodies) + crewToDo (pc,bodies w) := by
  have moved := crewMoved s.pool.workers (update s.pool.workers w pc) s.bodies bodies w (fun _ => movedOthers rfl) others
  rw [Function.update_self] at moved
  rw [moved]
  exact tallyUpdate crewToDo (crew s.pool.workers s.bodies) w (pc,bodies w)

theorem spends {e : Event ω} (taken : step parse cstate s e = some s') :
    (if e.own then 1 else 0) + toDo s' ≤ toDo s + 15 * e.brings := by
  obtain ⟨alive,turns⟩ := stepTurns taken
  have most : (if s'.terminated = none then 1 else 0) ≤ 1 := by split <;> omega
  unfold toDo
  rw [if_pos alive]
  cases turns with
  | loop moved before after pool bodies =>
    rw [pool,bodies]
    omega
  | check left before after checks checked outside bodies =>
    rw [bodies,checked,outside]
    simp only [Function.update_self,clientToDo,Event.own,Event.brings,if_true]
    omega
  | push here loop pushes bodies =>
    have moved := ThreadPool.stepMoves pushes
    rw [bodies,loop]
    generalize s'.pool = pool at moved ⊢
    cases moved with
    | push checked =>
      simp only [checked,Function.update_self,clientToDo,Event.own,Event.brings,if_true]
      omega
  | post here left after posts bodies =>
    have moved := ThreadPool.stepMoves posts
    rw [bodies]
    generalize s'.pool = pool at moved ⊢
    cases moved with
    | post pushed =>
      simp only [pushed,Function.update_self,clientToDo,Event.own,Event.brings,if_true]
      omega
  | pool kind loop moves bodies =>
    have moved := ThreadPool.stepMoves moves
    obtain ⟨w,kind⟩ := kind
    rw [loop,bodies]
    generalize s'.pool = pool at moved ⊢
    have crew_ (pc : ThreadPool.WorkerPc Int) := crewMoves s (w := w) pc (fun _ _ => rfl)
    rcases kind with rfl | rfl | rfl | rfl
    · cases moved with
      | exit here =>
        have total := crew_ .exited
        simp only [here,crewToDo,Event.own,Event.brings,if_true] at total ⊢
        omega
      | loop here =>
        have total := crew_ .waiting
        simp only [here,crewToDo,Event.own,Event.brings,if_true] at total ⊢
        omega
    · cases moved with
      | wait here =>
        have total := crew_ .woken
        simp only [here,crewToDo,Event.own,Event.brings,if_true] at total ⊢
        omega
    · cases moved with
      | nothing here =>
        have total := crew_ .loop
        simp only [here,crewToDo,Event.own,Event.brings,if_true] at total ⊢
        omega
      | something here =>
        have total := crew_ .ready
        simp only [here,crewToDo,Event.own,Event.brings,if_true] at total ⊢
        omega
    · cases moved with
      | pop here =>
        have total := crew_ (.popped s.pool.taskQueue.pop.1)
        simp only [here,crewToDo,Event.own,Event.brings,if_true] at total ⊢
        omega
  | @dispatch w loop moves bodies =>
    have moved := ThreadPool.stepMoves moves
    rw [loop,bodies]
    generalize s'.pool = pool at moved ⊢
    cases moved with
    | @dispatch _ task here =>
      have total := crewMoves s (w := w) (ThreadPool.dispatch s.pool.funbox task)
        (updateOthers (x := entry (ThreadPool.dispatch s.pool.funbox task)))
      have entered := entryToDo s.pool.funbox task
      have popped : crewToDo (.popped task,s.bodies w) = 9 := rfl
      rw [here,popped,Function.update_self] at total
      simp only [Function.update_self,Event.own,Event.brings,if_true]
      omega
  | @finish w loop returned moves bodies =>
    have moved := ThreadPool.stepMoves moves
    rw [loop,bodies]
    generalize s'.pool = pool at moved ⊢
    cases moved with
    | finish here =>
      have total := crewMoves s (w := w) .loop (fun _ _ => rfl)
      simp only [here,crewToDo,Event.own,Event.brings,if_true] at total ⊢
      omega
  | @task w te state fd conn body calls faults running moves loop pool bodies =>
    have total := crewMoves s (.running state fd) (updateOthers (f := s.bodies) (w := w) (x := body))
    have less := taskToDo (w := w) moves
    rw [← running,Function.update_eq_self] at total
    rw [loop,pool,bodies]
    simp only [running,crewToDo,Function.update_self] at total
    omega
  | threw _ loop pool bodies ends =>
    rw [loop,pool,bodies,if_neg ends]
    split <;> omega

structure Going (s : State ω) : Prop where
  opened : ThreadPool.Open s.pool
  running : s.pool.isClose = false
  alive : ∀ w, s.pool.workers w ≠ .unborn ∧ s.pool.workers w ≠ .exited
  inside : s.loop.appends = true →
    ∃ task, s.pool.clients () = .checked task ∨ ∃ number, s.pool.clients () = .pushed number task
  outside : s.loop.appends = false → s.pool.clients () = .outside

theorem Going.worker {pool : ThreadPool.State Unit ω Int} {w : ω} {pc : ThreadPool.WorkerPc Int} (going : Going s)
    (loop : s'.loop = s.loop) (pool_ : s'.pool = pool) (opened : ThreadPool.Open pool) (running : pool.isClose = false)
    (workers : pool.workers = update s.pool.workers w pc) (clients : pool.clients = s.pool.clients)
    (lives : pc ≠ .unborn ∧ pc ≠ .exited) : Going s' := by
  subst pool_
  refine ⟨opened,running,fun v => ?_,by rw [loop,clients]; exact going.inside,by rw [loop,clients]; exact going.outside⟩
  by_cases own : v = w
  · rwa [workers,own,Function.update_self]
  · rw [workers,Function.update_of_ne own]
    exact going.alive v

theorem goingStep {e : Event ω} (going : Going s) (taken : step parse cstate s e = some s') : Going s' := by
  have open_ {e : ThreadPool.Event Unit ω Int} (calm : e.ofClose = false) (moves : ThreadPool.step s.pool e = some s'.pool) :
      ThreadPool.Open s'.pool := .step going.opened calm moves
  have running := going.running
  cases (stepTurns taken).2 with
  | loop moved before after pool bodies =>
    have outside := going.outside before
    exact ⟨by rw [pool]; exact going.opened,by rw [pool]; exact running,by rw [pool]; exact going.alive,
      fun appends => absurd (after.symm.trans appends) (by decide),fun _ => by rw [pool]; exact outside⟩
  | @check task left before after checks checked outside bodies =>
    refine ⟨open_ rfl checks,by rw [checked]; exact running,by rw [checked]; exact going.alive,fun _ => ⟨task,.inl ?_⟩,
      fun quiet => absurd (after.symm.trans quiet) (by decide)⟩
    simp only [checked,Function.update_self]
  | push here loop pushes bodies =>
    have opened := open_ rfl pushes
    have moved := ThreadPool.stepMoves pushes
    generalize pool_ : s'.pool = pool at moved opened
    cases moved with
    | @push _ task checked =>
      refine ⟨by rw [pool_]; exact opened,by rw [pool_]; exact running,by rw [pool_]; exact going.alive,fun _ => ⟨task,.inr ?_⟩,
        fun quiet => ?_⟩
      · rw [pool_]
        exact ⟨s.pool.pushes.length,by simp only [Function.update_self]⟩
      · rw [loop,here] at quiet
        cases quiet
  | post here left after posts bodies =>
    have opened := open_ rfl posts
    have moved := ThreadPool.stepMoves posts
    generalize pool_ : s'.pool = pool at moved opened
    cases moved with
    | post pushed =>
      refine ⟨by rw [pool_]; exact opened,by rw [pool_]; exact running,by rw [pool_]; exact going.alive,
        fun appends => absurd (after.symm.trans appends) (by decide),fun _ => ?_⟩
      simp only [pool_,Function.update_self]
  | pool kind loop moves bodies =>
    obtain ⟨w,kind⟩ := kind
    have opened := open_ (by rcases kind with rfl | rfl | rfl | rfl <;> rfl) moves
    have moved := ThreadPool.stepMoves moves
    generalize pool_ : s'.pool = pool at moved opened
    rcases kind with rfl | rfl | rfl | rfl
    · cases moved with
      | exit _ closed =>
        rw [running] at closed
        cases closed
      | loop => exact going.worker loop pool_ opened running rfl rfl (by simp)
    · cases moved with
      | wait => exact going.worker loop pool_ opened running rfl rfl (by simp)
    · cases moved with
      | nothing => exact going.worker loop pool_ opened running rfl rfl (by simp)
      | something => exact going.worker loop pool_ opened running rfl rfl (by simp)
    · cases moved with
      | pop => exact going.worker loop pool_ opened running rfl rfl (by simp)
  | dispatch loop moves bodies =>
    have opened := open_ rfl moves
    have moved := ThreadPool.stepMoves moves
    generalize pool_ : s'.pool = pool at moved opened
    cases moved with
    | dispatch =>
      refine going.worker loop pool_ opened running rfl rfl ?_
      unfold ThreadPool.dispatch
      split
      · simp
      · split <;> simp
  | finish loop returned moves bodies =>
    have opened := open_ rfl moves
    have moved := ThreadPool.stepMoves moves
    generalize pool_ : s'.pool = pool at moved opened
    cases moved with
    | finish => exact going.worker loop pool_ opened running rfl rfl (by simp)
  | task _ _ loop pool | threw _ loop pool =>
    exact ⟨by rw [pool]; exact going.opened,by rw [pool]; exact running,by rw [pool]; exact going.alive,
      by rw [loop,pool]; exact going.inside,by rw [loop,pool]; exact going.outside⟩

theorem initialGoing (start : Initial s) : Going s ∧ toDo s = Fintype.card ω + 1 := by
  obtain ⟨⟨pool,begins,_,started⟩,loop,_,_,_,_,alive⟩ := start
  obtain ⟨_,sem,_,_,outside,_⟩ := id begins
  have moved := ThreadPool.stepMoves started
  have started : (ThreadPool.system Unit ω Int).step pool .start = some s.pool := started
  have opened : ThreadPool.Open s.pool := .step (.init begins) rfl started
  generalize pool_ : s.pool = pool' at moved opened
  cases moved with
  | start unborn =>
    constructor
    · refine ⟨by rw [pool_]; exact opened,by rw [pool_],fun w => by rw [pool_]; simp,fun appends => ?_,
        fun _ => by rw [pool_]; exact outside ()⟩
      rw [loop] at appends
      cases appends
    · have each : tally crewToDo (crew s.pool.workers s.bodies) = Fintype.card ω := by
        simp [tally,crew,pool_,crewToDo]
      rw [toDo,each,if_pos alive,loop,pool_]
      simp only [LoopPc.toDo,List.length_nil,sem,outside (),clientToDo]
      omega

structure AtRest (s : State ω) : Prop where
  loop : s.loop = .batch []
  client : s.pool.clients () = .outside
  queue : s.pool.taskQueue.list = []
  sem : s.pool.sem = 0
  workers : ∀ w, s.pool.workers w = .waiting

omit [DecidableEq ω] [Fintype ω] in
theorem atRestArmed (rest : AtRest s) {fd : Int} {p : Place ω} (at_ : At s fd p) : ∃ events, p = .armed events := by
  cases p with
  | armed events => exact ⟨events,rfl⟩
  | event mask =>
    rw [At,rest.loop] at at_
    cases at_
  | checked state =>
    rw [At,rest.client] at at_
    cases at_
  | queued state =>
    rw [At,rest.queue] at at_
    cases at_
  | popped w state =>
    rw [At,rest.workers w] at at_
    cases at_
  | inside w body =>
    obtain ⟨runs,_⟩ := at_
    rw [rest.workers w] at runs
    cases runs

omit [DecidableEq ω] [Fintype ω] in
theorem ownBrings {e : Event ω} (own : e.own = true) : e.brings = 0 := by
  cases e with
  | wait batch => cases own
  | accept result => cases result <;> first | rfl | cases own
  | _ => rfl

theorem atRestStill (rest : AtRest s) {e : Event ω} (own : e.own = true) : step parse cstate s e = none := by
  have quiet : s.loop.appends = false := by rw [rest.loop]; rfl
  have nothing : s.loop.toDo = 0 := by rw [rest.loop]; rfl
  by_contra possible
  obtain ⟨s',taken⟩ := Option.ne_none_iff_exists'.mp possible
  have waiting (w : ω) {pc : ThreadPool.WorkerPc Int} (here : s.pool.workers w = pc) : pc = .waiting :=
    here.symm.trans (rest.workers w)
  cases (stepTurns taken).2 with
  | loop moved =>
    rw [own,nothing,ownBrings own] at moved
    simp at moved
  | check left => omega
  | push here | post here =>
    rw [quiet] at here
    cases here
  | pool kind loop moves =>
    have moved := ThreadPool.stepMoves moves
    obtain ⟨w,rfl | rfl | rfl | rfl⟩ := kind
    · generalize s'.pool = pool at moved
      cases moved with
      | exit here | loop here => cases waiting w here
    · generalize s'.pool = pool at moved
      cases moved with
      | wait _ positive =>
        rw [rest.sem] at positive
        cases positive
    · generalize s'.pool = pool at moved
      cases moved with
      | nothing here | something here => cases waiting w here
    · generalize s'.pool = pool at moved
      cases moved with
      | pop here => cases waiting w here
  | @dispatch w loop moves =>
    have moved := ThreadPool.stepMoves moves
    generalize s'.pool = pool at moved
    cases moved with
    | dispatch here => cases waiting w here
  | @finish w loop returned moves =>
    have moved := ThreadPool.stepMoves moves
    generalize s'.pool = pool at moved
    cases moved with
    | finish here => cases waiting w here
  | task running => cases waiting _ running
  | threw running =>
    obtain ⟨state,fd,running⟩ := running
    cases waiting _ running

theorem loopOwn (going : Going s) (alive : s.terminated = none) (busy : s.loop ≠ .batch []) :
    ∃ e : Event ω, e.own = true ∧ (step parse cstate s e).isSome = true := by
  cases here : s.loop with
  | batch rest =>
    cases rest with
    | nil => exact absurd here busy
    | cons ready rest =>
      refine ⟨.handle,rfl,?_⟩
      have outside := going.outside (by rw [here]; rfl)
      have handles (fd state : Int) : (handleTask s fd state rest).isSome = true := by
        unfold handleTask
        split
        · rfl
        · simp [ThreadPool.step,outside]
      cases ready with
      | listening => simp [step,alive,act,here]
      | client fd mask =>
        simp only [step,alive,act,here,if_true]
        split
        · rfl
        · split
          · exact handles fd 0
          · split
            · exact handles fd 1
            · rfl
  | accepting rest => exact ⟨.accept none,rfl,by simp [step,alive,act,here]⟩
  | adding fd rest => exact ⟨.add false,rfl,by simp [step,alive,act,here]⟩
  | appending rest =>
    obtain ⟨task,checked | ⟨number,pushed⟩⟩ := going.inside (by rw [here]; rfl)
    · exact ⟨.push,rfl,by simp [step,alive,act,here,ThreadPool.step,checked]⟩
    · exact ⟨.post,rfl,by simp [step,alive,act,here,ThreadPool.step,pushed]⟩

theorem taskOwn (c : TcpConn) {body : Body} (inside : body ≠ .returned) :
    ∃ e : TaskEvent, (∀ data, e ≠ .read (.bytes data)) ∧ (taskStep parse cstate c body e).isSome = true := by
  cases body with
  | returned => exact absurd rfl inside
  | reading => exact ⟨.read (.ends .eof),by simp,rfl⟩
  | parsing =>
    refine ⟨.parse,by simp,?_⟩
    simp only [taskStep]
    split <;> rfl
  | construct => exact ⟨.guard,by simp,rfl⟩
  | rearming => exact ⟨.modify,by simp,rfl⟩
  | resetting => exact ⟨.resetBuf,by simp,rfl⟩
  | shrinking => exact ⟨.resetLen,by simp,rfl⟩
  | deleting => exact ⟨.delete,by simp,rfl⟩
  | sending => exact ⟨.write 0,by simp,rfl⟩
  | clearing => exact ⟨.clear,by simp,rfl⟩
  | resuming => exact ⟨.resume,by simp,rfl⟩

theorem workerOwn (going : Going s) (alive : s.terminated = none) {w : ω} (busy : s.pool.workers w ≠ .waiting) :
    ∃ e : Event ω, e.own = true ∧ (step parse cstate s e).isSome = true := by
  cases here : s.pool.workers w with
  | unborn => exact absurd here (going.alive w).1
  | exited => exact absurd here (going.alive w).2
  | waiting => exact absurd here busy
  | loop => exact ⟨.pool (.loop w),rfl,by simp [step,alive,act,ThreadPool.step,here]⟩
  | woken => exact ⟨.pool (.empty w),rfl,by simp [step,alive,act,ThreadPool.step,here]⟩
  | ready => exact ⟨.pool (.pop w),rfl,by simp [step,alive,act,ThreadPool.step,here]⟩
  | popped task => exact ⟨.pool (.dispatch w),rfl,by simp [step,alive,act,ThreadPool.step,here]⟩
  | running state fd =>
    by_cases returned : s.bodies w = .returned
    · exact ⟨.finish w,rfl,by simp [step,alive,act,ThreadPool.step,here,returned]⟩
    · obtain ⟨te,asks,some_⟩ : ∃ e : TaskEvent, (∀ data, e ≠ .read (.bytes data)) ∧
          (taskStep parse cstate (s.users fd) (s.bodies w) e).isSome = true := taskOwn (s.users fd) returned
      obtain ⟨result,taken⟩ := Option.isSome_iff_exists.mp some_
      refine ⟨.task w te,?_,?_⟩
      · cases te with
        | read result =>
          cases result with
          | bytes data => exact absurd rfl (asks data)
          | ends ending => rfl
        | _ => rfl
      · simp only [step,alive,act,here,taken,if_true]
        cases result <;> rfl

theorem restOrOwn [Nonempty ω] (going : Going s) (alive : s.terminated = none) :
    AtRest s ∨ ∃ e : Event ω, e.own = true ∧ (step parse cstate s e).isSome = true := by
  by_cases busy : s.loop = .batch []
  · by_cases waits : ∀ w, s.pool.workers w = .waiting
    · have outside := going.outside (by rw [busy]; rfl)
      by_cases token : 0 < s.pool.sem
      · obtain ⟨w⟩ := ‹Nonempty ω›
        exact .inr ⟨.pool (.wait w),rfl,by simp [step,alive,act,ThreadPool.step,waits w,token]⟩
      · have sem : s.pool.sem = 0 := by omega
        have posting : tally ThreadPool.inGapOfPush s.pool.clients = 0 :=
          (Basis.tallyZero _ _).mpr (fun c => by rw [show c = () from rfl,outside]; rfl)
        have taking : tally ThreadPool.inGapOfPop s.pool.workers = 0 :=
          (Basis.tallyZero _ _).mpr (fun w => by rw [waits w]; rfl)
        have count := (ThreadPool.openBalanced going.opened).1.count
        simp only [ThreadPool.view,sem,taking,posting] at count
        exact .inl ⟨busy,outside,List.eq_nil_of_length_eq_zero count.symm,sem,waits⟩
    · obtain ⟨w,other⟩ := not_forall.mp waits
      exact .inr (workerOwn going alive other)
  · exact .inr (loopOwn going alive busy)

theorem descends [Nonempty ω] (going : Going s) : (s.terminated ≠ none ∨ AtRest s) ∨
    ∃ e s', e.own = true ∧ (system ω parse cstate).step s e = some s' ∧ Going s' ∧ toDo s' < toDo s := by
  by_cases alive : s.terminated = none
  · rcases restOrOwn going alive with rest | ⟨e,own,moves⟩
    · exact .inl (.inr rest)
    · obtain ⟨s',taken⟩ := Option.isSome_iff_exists.mp moves
      have less := spends taken
      rw [own,ownBrings own,if_pos rfl] at less
      exact .inr ⟨e,s',own,taken,goingStep going taken,by omega⟩
  · exact .inl (.inl alive)

/- What the server does by itself is bounded by what is handed to it. It is stuck at
rest only, can always come to rest unless a text that cannot be decoded ends it,
and at rest every connection on its round waits for the client. -/
theorem comesToRest [Nonempty ω] (start : Initial s) {es : List (Event ω)} (ran : (system ω parse cstate).run s es = some s') :
    es.countP Event.own ≤ Fintype.card ω + 1 + 15 * (es.map Event.brings).sum ∧
    (s'.terminated = none → (AtRest s' ↔ ∀ e, e.own = true → step parse cstate s' e = none)) ∧
    (∃ fs t, (∀ e ∈ fs, e.own = true) ∧ (system ω parse cstate).run s' fs = some t ∧ (t.terminated ≠ none ∨ AtRest t)) ∧
    (AtRest s' → ∀ fd p, At s' fd p → ∃ events, p = .armed events) := by
  obtain ⟨going,most⟩ := initialGoing start
  have kept : ∀ s e s', Going s → (system ω parse cstate).step s e = some s' →
      Going s' ∧ (if e.own then 1 else 0) + toDo s' ≤ toDo s + 15 * e.brings :=
    fun _ _ _ going taken => ⟨goingStep going taken,spends taken⟩
  have bound := (system ω parse cstate).runBudget Event.own Event.brings 15 toDo kept going es ran
  have going' := (system ω parse cstate).runKeeps (fun _ _ _ => goingStep) going es ran
  refine ⟨?_,fun alive => ⟨fun rest e => atRestStill rest,fun stuck => ?_⟩,?_,fun rest fd p => atRestArmed rest⟩
  · omega
  · have progress : AtRest s' ∨ ∃ e : Event ω, e.own = true ∧ (step parse cstate s' e).isSome = true := restOrOwn going' alive
    refine progress.resolve_right (fun ⟨e,own,moves⟩ => ?_)
    rw [stuck e own] at moves
    cases moves
  · obtain ⟨fs,t,owns,ran,_,still⟩ := (system ω parse cstate).runsDown toDo (fun _ => descends) going'
    exact ⟨fs,t,owns,ran,still⟩

end Steps

theorem orderlyRests : ∃ s', (system Bool TcpConn.sampleParse .LT).run (sampleStart Bool) orderlyRun = some s' ∧
    orderlyRun.countP Event.own ≤ 3 + 15 * (orderlyRun.map Event.brings).sum ∧
    ∃ fs t, (∀ e ∈ fs, e.own = true) ∧ (system Bool TcpConn.sampleParse .LT).run s' fs = some t ∧
      (t.terminated ≠ none ∨ AtRest t) := by
  have runs : ((system Bool TcpConn.sampleParse .LT).run (sampleStart Bool) orderlyRun).isSome = true := by decide +kernel
  obtain ⟨s',ran⟩ := Option.isSome_iff_exists.mp runs
  have law := comesToRest (sampleInitial Bool) ran
  exact ⟨s',ran,law.1,law.2.2.1⟩

end SimpleChat.Server
