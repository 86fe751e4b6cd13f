import SimpleChat.Rest
import SimpleChat.SqlGuards

/-! The running server with the guards of its `read_once` calls. A worker builds a
`sqlRAII` before it reads and destroys it when it returns, so it waits in
`GetConnection` while other workers have every connection. -/
namespace SimpleChat.GuardedServer
open Basis (System tally tallyUpdate)
open Function (update)
open SqlPool (GuardPc)

variable {ω : Type}

structure State (ω : Type) where
  server : Server.State ω
  sql : SqlPool.State ω Int

inductive Event (ω : Type) where
  | server (e : Server.Event ω)
  | sql (e : SqlPool.Event ω Int)
  deriving DecidableEq, Repr

def Event.own : Event ω → Bool
  | .server e => e.own
  | .sql _ => true

def Event.brings : Event ω → Nat
  | .server e => e.brings
  | .sql _ => 0

def Event.server? : Event ω → Option (Server.Event ω)
  | .server e => some e
  | .sql _ => none

/- The body of `read_once` begins behind the constructor, and the call returns behind the
destructor. -/
def passes (s : State ω) : Server.Event ω → Bool
  | .task w .guard => match s.sql.guards w with
      | .alive _ _ _ => true
      | _ => false
  | .finish w => decide (s.sql.guards w = .absent)
  | _ => true

def due (s : State ω) : SqlPool.Event ω Int → Bool
  | .construct w conn => decide (s.server.pool.workers w = .running 0 conn ∧ s.server.bodies w = .construct)
  | .destroy w => decide (s.server.bodies w = .returned)
  | _ => true

section Steps
variable [DecidableEq ω] [Fintype ω] (parse : Text → Except String Json) (cstate : ConnState)

def step (s : State ω) : Event ω → Option (State ω)
  | .server e =>
      if passes s e then do
        let server ← Server.step parse cstate s.server e
        some {s with server := server}
      else none
  | .sql e =>
      if s.server.terminated = none ∧ due s e then do
        let sql ← SqlPool.step s.sql e
        some {s with sql := sql}
      else none

def Initial (connections : List Nat) (s : State ω) : Prop :=
  Server.Initial s.server ∧ SqlPool.Initial connections s.sql

def system (ω : Type) [DecidableEq ω] [Fintype ω] (parse : Text → Except String Json) (cstate : ConnState)
    (connections : List Nat) : System (State ω) (Event ω) := ⟨Initial connections,step parse cstate⟩

end Steps

inductive Fits : ThreadPool.WorkerPc Int → Body → GuardPc Int → Prop where
  | elsewhere {pc : ThreadPool.WorkerPc Int} {body : Body} (other : ∀ fd, pc ≠ .running 0 fd)
      (calm : ∀ state fd, pc = .running state fd → body ≠ .construct) : Fits pc body .absent
  | entered {fd : Int} : Fits (.running 0 fd) .construct .absent
  | saved {fd conn : Int} {old : SqlPool.MysqlPtr} : Fits (.running 0 fd) .construct (.saved conn old)
  | admitted {fd conn : Int} {old : SqlPool.MysqlPtr} : Fits (.running 0 fd) .construct (.admitted conn old)
  | popped {fd conn : Int} {old con : SqlPool.MysqlPtr} : Fits (.running 0 fd) .construct (.popped conn old con)
  | alive {fd conn : Int} {body : Body} {old con : SqlPool.MysqlPtr} : Fits (.running 0 fd) body (.alive conn old con)
  | pushed {fd : Int} : Fits (.running 0 fd) .returned .pushed
  | gone {fd : Int} : Fits (.running 0 fd) .returned .absent

section Shifts
variable [DecidableEq ω] [Fintype ω] {parse : Text → Except String Json} {cstate : ConnState}
  {server server' : Server.State ω}

inductive Shifts (parse : Text → Except String Json) (cstate : ConnState) (s s' : Server.State ω) : Server.Event ω → Prop where
  | still {e : Server.Event ω} (crew : ∀ v, Server.crew s'.pool.workers s'.bodies v = Server.crew s.pool.workers s.bodies v) :
      Shifts parse cstate s s' e
  | waits {e : Server.Event ω} {w : ω} {pc : ThreadPool.WorkerPc Int} (before : ∀ state fd, s.pool.workers w ≠ .running state fd)
      (after : ∀ state fd, pc ≠ .running state fd) (workers : s'.pool.workers = update s.pool.workers w pc)
      (bodies : s'.bodies = s.bodies) : Shifts parse cstate s s' e
  | enters {e : Server.Event ω} {w : ω} {pc : ThreadPool.WorkerPc Int} (own : e.own = true)
      (before : ∀ state fd, s.pool.workers w ≠ .running state fd) (workers : s'.pool.workers = update s.pool.workers w pc)
      (bodies : s'.bodies = update s.bodies w (Server.entry pc)) : Shifts parse cstate s s' e
  | leaves {w : ω} {pc : ThreadPool.WorkerPc Int} (after : ∀ state fd, pc ≠ .running state fd)
      (returned : s.bodies w = .returned) (workers : s'.pool.workers = update s.pool.workers w pc)
      (bodies : s'.bodies = s.bodies) : Shifts parse cstate s s' (.finish w)
  | inside {w : ω} {e : TaskEvent} {state : Nat} {fd : Int} {conn : TcpConn} {body : Body} {calls : List EpollCall}
      {faults : List Fault} (running : s.pool.workers w = .running state fd)
      (moves : TaskMoves parse cstate (s.users fd) (s.bodies w) e conn body calls faults)
      (workers : s'.pool.workers = s.pool.workers) (bodies : s'.bodies = update s.bodies w body) :
      Shifts parse cstate s s' (.task w e)

theorem stepShifts {e : Server.Event ω} (taken : Server.step parse cstate server e = some server') :
    Shifts parse cstate server server' e := by
  have quiet (pool : server'.pool.workers = server.pool.workers) (bodies : server'.bodies = server.bodies) :
      Shifts parse cstate server server' e := .still (fun v => by rw [pool,bodies])
  cases (Server.stepTurns taken).2 with
  | loop moved before after pool bodies => exact quiet (by rw [pool]) bodies
  | check left before after checks checked outside bodies => exact quiet (by rw [checked]) bodies
  | push here loop pushes bodies =>
    have moved := ThreadPool.stepMoves pushes
    generalize pool : server'.pool = pool' at moved
    cases moved with
    | push checked => exact quiet (by rw [pool]) bodies
  | post here left after posts bodies =>
    have moved := ThreadPool.stepMoves posts
    generalize pool : server'.pool = pool' at moved
    cases moved with
    | post pushed => exact quiet (by rw [pool]) bodies
  | pool kind loop moves bodies =>
    obtain ⟨w,kind⟩ := kind
    have moved := ThreadPool.stepMoves moves
    generalize pool : server'.pool = pool' at moved
    have waits {old pc : ThreadPool.WorkerPc Int} (here : server.pool.workers w = old)
        (before : ∀ state fd, old ≠ .running state fd) (after : ∀ state fd, pc ≠ .running state fd)
        (workers : server'.pool.workers = update server.pool.workers w pc) {e : Server.Event ω} :
        Shifts parse cstate server server' e :=
      .waits (fun state fd => by rw [here]; exact before state fd) after workers bodies
    rcases kind with rfl | rfl | rfl | rfl
    · cases moved with
      | exit here closed => exact waits here (by simp) (by simp) (congrArg ThreadPool.State.workers pool)
      | loop here => exact waits here (by simp) (by simp) (congrArg ThreadPool.State.workers pool)
    · cases moved with
      | wait here positive => exact waits here (by simp) (by simp) (congrArg ThreadPool.State.workers pool)
    · cases moved with
      | nothing here => exact waits here (by simp) (by simp) (congrArg ThreadPool.State.workers pool)
      | something here => exact waits here (by simp) (by simp) (congrArg ThreadPool.State.workers pool)
    · cases moved with
      | pop here => exact waits here (by simp) (by simp) (congrArg ThreadPool.State.workers pool)
  | @dispatch w loop moves bodies =>
    have moved := ThreadPool.stepMoves moves
    generalize pool : server'.pool = pool' at moved bodies
    cases moved with
    | dispatch here =>
      simp only [Function.update_self] at bodies
      exact .enters rfl (fun state fd => by rw [here]; simp) (congrArg ThreadPool.State.workers pool) bodies
  | finish loop returned moves bodies =>
    have moved := ThreadPool.stepMoves moves
    generalize pool : server'.pool = pool' at moved
    cases moved with
    | finish here => exact .leaves (by simp) returned (congrArg ThreadPool.State.workers pool) bodies
  | task running moves loop pool bodies => exact .inside running moves (by rw [pool]) bodies
  | threw running loop pool bodies ends => exact quiet (by rw [pool]) bodies

variable {pc : ThreadPool.WorkerPc Int} {body : Body} {guard : GuardPc Int}

theorem Fits.absent (fits : Fits pc body guard) (other : ∀ fd, pc ≠ .running 0 fd) : guard = .absent := by
  cases fits <;> first | rfl | exact absurd rfl (other _)

theorem Fits.elsewhere_ (other : ∀ state fd, pc ≠ .running state fd) : Fits pc body .absent :=
  .elsewhere (other 0) (fun state fd running => absurd running (other state fd))

section Guards
omit [DecidableEq ω] [Fintype ω]
variable {conn : Int} {old con : SqlPool.MysqlPtr}

theorem Fits.wait (fits : Fits pc body (.saved conn old)) : Fits pc body (.admitted conn old) := by
  cases fits
  exact .admitted

theorem Fits.pop (fits : Fits pc body (.admitted conn old)) : Fits pc body (.popped conn old con) := by
  cases fits
  exact .popped

theorem Fits.assign (fits : Fits pc body (.popped conn old con)) : Fits pc body (.alive conn old con) := by
  cases fits
  exact .alive

theorem Fits.destroy (fits : Fits pc .returned (.alive conn old con)) : Fits pc .returned .pushed := by
  cases fits
  exact .pushed

theorem Fits.post (fits : Fits pc body .pushed) : Fits pc body .absent := by
  cases fits
  exact .gone

theorem Fits.reads (fits : Fits pc body (.alive conn old con)) : ∃ fd, pc = .running 0 fd := by
  cases fits
  exact ⟨_,rfl⟩

end Guards

omit [DecidableEq ω] [Fintype ω] in
theorem noConstruct {c conn : TcpConn} {e : TaskEvent} {body' : Body} {calls : List EpollCall} {faults : List Fault}
    (moves : TaskMoves parse cstate c body e conn body' calls faults) : body' ≠ .construct := by
  cases moves <;> simp

theorem Fits.inside {fd : Int} (fits : Fits (.running 0 fd) body guard) {c conn : TcpConn} {e : TaskEvent} {body' : Body}
    {calls : List EpollCall} {faults : List Fault} (moves : TaskMoves parse cstate c body e conn body' calls faults)
    (guarded : e = .guard → ∃ conn old con, guard = .alive conn old con) : ∃ conn old con, guard = .alive conn old con := by
  cases fits with
  | elsewhere other => exact absurd rfl (other fd)
  | alive => exact ⟨_,_,_,rfl⟩
  | entered | saved | admitted | popped => cases moves <;> exact guarded rfl
  | pushed | gone => cases moves

structure Sound (connections : List Nat) (s : State ω) : Prop where
  going : Server.Going s.server
  counted : SqlPool.Counted connections s.sql
  fits : ∀ w, Fits (s.server.pool.workers w) (s.server.bodies w) (s.sql.guards w)

variable {connections : List Nat} {s s' : State ω}

omit [DecidableEq ω] [Fintype ω] in
theorem passedGuard {w : ω} (passed : passes s (.task w .guard) = true) :
    ∃ conn old con, s.sql.guards w = .alive conn old con := by
  simp only [passes] at passed
  split at passed
  · exact ⟨_,_,_,by assumption⟩
  · cases passed

omit [Fintype ω] in
theorem shiftsFit {e : Server.Event ω} (fits : ∀ w, Fits (s.server.pool.workers w) (s.server.bodies w) (s.sql.guards w))
    (passed : passes s e = true) (shifts : Shifts parse cstate s.server server' e) (v : ω) :
    Fits (server'.pool.workers v) (server'.bodies v) (s.sql.guards v) := by
  cases shifts with
  | still crew =>
    obtain ⟨workers,bodies⟩ := Prod.mk.inj (crew v)
    rw [workers,bodies]
    exact fits v
  | @waits _ w pc before after workers bodies =>
    rw [workers,bodies]
    by_cases same : v = w
    · rw [same,Function.update_self,(fits w).absent (before 0)]
      exact .elsewhere_ after
    · rw [Function.update_of_ne same]
      exact fits v
  | @enters _ w pc own before workers bodies =>
    rw [workers,bodies]
    by_cases same : v = w
    · rw [same,Function.update_self,Function.update_self,(fits w).absent (before 0)]
      cases pc with
      | running state fd =>
        cases state with
        | zero => exact .entered
        | succ state => exact .elsewhere (by simp) (fun _ _ _ => by simp [Server.entry])
      | _ => exact .elsewhere_ (by simp)
    · rw [Function.update_of_ne same,Function.update_of_ne same]
      exact fits v
  | @leaves w pc after returned workers bodies =>
    rw [workers,bodies]
    by_cases same : v = w
    · rw [same,Function.update_self,of_decide_eq_true passed]
      exact .elsewhere_ after
    · rw [Function.update_of_ne same]
      exact fits v
  | @inside w e state fd conn body calls faults running moves workers bodies =>
    rw [workers,bodies]
    by_cases same : v = w
    · subst same
      have fit := fits v
      rw [running] at fit ⊢
      rw [Function.update_self]
      cases state with
      | zero =>
        obtain ⟨_,_,_,alive⟩ := fit.inside moves (fun guarded => passedGuard (guarded ▸ passed))
        rw [alive]
        exact .alive
      | succ state =>
        rw [fit.absent (by simp)]
        exact .elsewhere (by simp) (fun _ _ _ => noConstruct moves)
    · rw [Function.update_of_ne same]
      exact fits v

theorem guardsFit {e : SqlPool.Event ω Int} (counted : SqlPool.Counted connections s.sql)
    (fits : ∀ w, Fits (s.server.pool.workers w) (s.server.bodies w) (s.sql.guards w))
    (allowed : due s e = true) {sql : SqlPool.State ω Int} (taken : SqlPool.step s.sql e = some sql) (v : ω) :
    Fits (s.server.pool.workers v) (s.server.bodies v) (sql.guards v) := by
  have moved {w : ω} {pc : GuardPc Int} (guards : sql.guards = update s.sql.guards w pc)
      (mine : Fits (s.server.pool.workers w) (s.server.bodies w) pc) :
      Fits (s.server.pool.workers v) (s.server.bodies v) (sql.guards v) := by
    rw [guards]
    by_cases same : v = w
    · rw [same,Function.update_self]
      exact mine
    · rw [Function.update_of_ne same]
      exact fits v
  cases SqlPool.stepGuards taken with
  | @construct w conn here conlist guards =>
    obtain ⟨running,body⟩ := of_decide_eq_true allowed
    refine moved guards ?_
    rw [running,body]
    exact .saved
  | @wait w _ _ _ here token conlist guards => exact moved guards (here ▸ fits w).wait
  | threw here nothing => exact absurd nothing (counted.finds here)
  | @pop w _ _ _ _ here list conlist guards => exact moved guards (here ▸ fits w).pop
  | @assign w _ _ _ here conlist guards => exact moved guards (here ▸ fits w).assign
  | @destroy w _ _ _ here conlist guards =>
    have returned : s.server.bodies w = .returned := of_decide_eq_true allowed
    have fit := fits w
    rw [here,returned] at fit
    refine moved guards ?_
    rw [returned]
    exact fit.destroy
  | @post w _ here token conlist guards => exact moved guards (here ▸ fits w).post

end Shifts

section Potential

def guardToDo (place : (ThreadPool.WorkerPc Int × Body) × GuardPc Int) : Nat := match place.2 with
  | .absent => match place.1 with
      | (.running 0 _,.construct) => 6
      | _ => 0
  | .saved _ _ => 5
  | .admitted _ _ => 4
  | .popped _ _ _ => 3
  | .alive _ _ _ => 2
  | .pushed => 1
  | .threw _ => 0

def places (server : Server.State ω) (guards : ω → GuardPc Int) (w : ω) :
    (ThreadPool.WorkerPc Int × Body) × GuardPc Int :=
  (Server.crew server.pool.workers server.bodies w,guards w)

/- A step of the server is worth seven: it may be the one that lets a worker in. -/
def toDo [Fintype ω] (s : State ω) : Nat :=
  7 * Server.toDo s.server + tally guardToDo (places s.server s.sql.guards)

theorem guardAbsent {pc : ThreadPool.WorkerPc Int} {body : Body} (other : ∀ fd, pc ≠ .running 0 fd) :
    guardToDo ((pc,body),.absent) = 0 := by
  simp only [guardToDo]
  split
  · rename_i fd same
    exact absurd (Prod.mk.inj same).1 (other fd)
  · rfl

theorem guardAtMost (worker : ThreadPool.WorkerPc Int × Body) : guardToDo (worker,.absent) ≤ 6 := by
  simp only [guardToDo]
  split <;> omega

end Potential

section Progress
variable [DecidableEq ω] [Fintype ω] {parse : Text → Except String Json} {cstate : ConnState} {connections : List Nat}
  {s s' : State ω}

theorem placeMoved (server server' : Server.State ω) (guards guards' : ω → GuardPc Int) (w : ω)
    (others : ∀ v, v ≠ w → places server' guards' v = places server guards v) :
    tally guardToDo (places server' guards') + guardToDo (places server guards w) =
      tally guardToDo (places server guards) + guardToDo (places server' guards' w) := by
  have moved : places server' guards' = update (places server guards) w (places server' guards' w) := by
    funext v
    by_cases same : v = w
    · rw [same,Function.update_self]
    · rw [Function.update_of_ne same,others v same]
  have total := tallyUpdate guardToDo (places server guards) w (places server' guards' w)
  rw [← moved] at total
  exact total

theorem shiftsWeigh {server' : Server.State ω} {e : Server.Event ω}
    (fits : ∀ w, Fits (s.server.pool.workers w) (s.server.bodies w) (s.sql.guards w)) (passed : passes s e = true)
    (shifts : Shifts parse cstate s.server server' e) :
    tally guardToDo (places server' s.sql.guards) ≤
      tally guardToDo (places s.server s.sql.guards) + if e.own then 6 else 0 := by
  have moved := placeMoved s.server server' s.sql.guards s.sql.guards
  cases shifts with
  | still crew =>
    have same : places server' s.sql.guards = places s.server s.sql.guards := by
      funext v
      rw [places,crew v]
      rfl
    rw [same]
    exact Nat.le_add_right _ _
  | @waits _ w pc before after workers bodies =>
    have total := moved w (fun v other => by simp [places,Server.crew,workers,bodies,other])
    have absent := (fits w).absent (before 0)
    have idle : guardToDo (places server' s.sql.guards w) = 0 := by
      simp only [places,Server.crew,workers,bodies,Function.update_self,absent]
      exact guardAbsent (after 0)
    omega
  | @enters _ w pc own before workers bodies =>
    have total := moved w (fun v other => by simp [places,Server.crew,workers,bodies,other])
    have absent := (fits w).absent (before 0)
    have most : guardToDo (places server' s.sql.guards w) ≤ 6 := by
      simp only [places,absent]
      exact guardAtMost _
    rw [own,if_pos rfl]
    omega
  | @leaves w pc after returned workers bodies =>
    have total := moved w (fun v other => by simp [places,Server.crew,workers,bodies,other])
    have absent : s.sql.guards w = .absent := of_decide_eq_true passed
    have idle : guardToDo (places server' s.sql.guards w) = 0 := by
      simp only [places,Server.crew,workers,bodies,Function.update_self,absent]
      exact guardAbsent (after 0)
    omega
  | @inside w e state fd conn body calls faults running moves workers bodies =>
    have total := moved w (fun v other => by simp [places,Server.crew,workers,bodies,other])
    have fit := fits w
    rw [running] at fit
    have same : guardToDo (places server' s.sql.guards w) ≤ guardToDo (places s.server s.sql.guards w) := by
      cases state with
      | zero =>
        obtain ⟨_,_,_,alive⟩ := fit.inside moves (fun guarded => passedGuard (guarded ▸ passed))
        simp only [places,alive]
        exact Nat.le_refl 2
      | succ state =>
        simp only [places,Server.crew,workers,running,fit.absent (by simp)]
        rw [guardAbsent (by simp)]
        exact Nat.zero_le _
    omega

theorem guardsWeigh {sql : SqlPool.State ω Int} {e : SqlPool.Event ω Int} (counted : SqlPool.Counted connections s.sql)
    (fits : ∀ w, Fits (s.server.pool.workers w) (s.server.bodies w) (s.sql.guards w)) (allowed : due s e = true) (taken : SqlPool.step s.sql e = some sql) :
    tally guardToDo (places s.server sql.guards) + 1 ≤ tally guardToDo (places s.server s.sql.guards) := by
  have moved {w : ω} {old pc : GuardPc Int} (guards : sql.guards = update s.sql.guards w pc) (here : s.sql.guards w = old)
      (less : guardToDo (Server.crew s.server.pool.workers s.server.bodies w,pc) + 1 ≤
        guardToDo (Server.crew s.server.pool.workers s.server.bodies w,old)) :
      tally guardToDo (places s.server sql.guards) + 1 ≤ tally guardToDo (places s.server s.sql.guards) := by
    have total := placeMoved s.server s.server s.sql.guards sql.guards w (fun v other => by simp [places,guards,other])
    simp only [places,guards,Function.update_self,here] at total ⊢
    omega
  cases SqlPool.stepGuards taken with
  | construct here conlist guards =>
    obtain ⟨running,body⟩ := of_decide_eq_true allowed
    refine moved guards here ?_
    rw [Server.crew,running,body]
    exact Nat.le_refl 6
  | wait here token conlist guards => exact moved guards here (Nat.le_refl 5)
  | threw here nothing => exact absurd nothing (counted.finds here)
  | pop here list conlist guards => exact moved guards here (Nat.le_refl 4)
  | assign here conlist guards => exact moved guards here (Nat.le_refl 3)
  | destroy here conlist guards => exact moved guards here (Nat.le_refl 2)
  | @post w _ here token conlist guards =>
    refine moved guards here ?_
    have fit := fits w
    rw [here] at fit
    rw [Server.crew]
    generalize s.server.pool.workers w = pc, s.server.bodies w = body at fit ⊢
    cases fit
    exact Nat.le_refl 1

theorem stepSound {e : Event ω} (sound : Sound connections s) (taken : step parse cstate s e = some s') :
    Sound connections s' ∧ (if e.own then 1 else 0) + toDo s' ≤ toDo s + 105 * e.brings := by
  cases e with
  | server e =>
    simp only [step,Option.ite_none_right_eq_some] at taken
    obtain ⟨passed,taken⟩ := taken
    obtain ⟨server,moves,taken⟩ := Option.bind_eq_some_iff.mp taken
    cases Option.some.inj taken
    have shifts := stepShifts moves
    refine ⟨⟨Server.goingStep sound.going moves,sound.counted,fun v => shiftsFit sound.fits passed shifts v⟩,?_⟩
    have spent := Server.spends moves
    have weight := shiftsWeigh sound.fits passed shifts
    simp only [toDo,Event.own,Event.brings]
    split at spent <;> rename_i own <;> simp only [own,if_true,if_false,Bool.false_eq_true] at weight ⊢ <;> omega
  | sql e =>
    simp only [step,Option.ite_none_right_eq_some] at taken
    obtain ⟨⟨_,allowed⟩,taken⟩ := taken
    obtain ⟨sql,moves,taken⟩ := Option.bind_eq_some_iff.mp taken
    cases Option.some.inj taken
    refine ⟨⟨sound.going,SqlPool.stepCounted sound.counted moves,guardsFit sound.counted sound.fits allowed moves⟩,?_⟩
    have weight := guardsWeigh sound.counted sound.fits allowed moves
    simp only [toDo,Event.own,Event.brings,if_true]
    omega

theorem initialSound (start : Initial connections s) :
    Sound connections s ∧ toDo s = 7 * (Fintype.card ω + 1) := by
  obtain ⟨begins,made⟩ := start
  obtain ⟨going,most⟩ := Server.initialGoing begins
  have workers : ∀ w, s.server.pool.workers w = .loop := by
    obtain ⟨⟨pool,_,_,started⟩,_⟩ := begins
    have moved := ThreadPool.stepMoves started
    generalize s.server.pool = pool' at moved
    cases moved
    exact fun _ => rfl
  have absent := made.2.2.2
  have idle : tally guardToDo (places s.server s.sql.guards) = 0 := by
    refine (Basis.tallyZero _ _).mpr (fun w => ?_)
    simp only [places,Server.crew,workers w,absent w]
    exact guardAbsent (by simp)
  refine ⟨⟨going,SqlPool.initialCounted made,fun w => ?_⟩,by rw [toDo,most,idle,Nat.add_zero]⟩
  rw [workers w,absent w]
  exact .elsewhere_ (by simp)

theorem guardConstructs {server server' : Server.State ω} {w : ω}
    (taken : Server.step parse cstate server (.task w .guard) = some server') :
    ∃ state fd, server.pool.workers w = .running state fd ∧ server.bodies w = .construct := by
  simp only [Server.step,Option.ite_none_right_eq_some] at taken
  obtain ⟨_,taken⟩ := taken
  simp only [Server.act] at taken
  split at taken <;> try contradiction
  rename_i state fd running
  refine ⟨state,fd,running,?_⟩
  generalize server.bodies w = body at taken ⊢
  cases body <;> first | rfl | cases taken

theorem holderOwn (sound : Sound connections s) (alive : s.server.terminated = none) {w : ω}
    (holding : (s.sql.guards w).holding ≠ 0) :
    ∃ e : Event ω, e.own = true ∧ (step parse cstate s e).isSome = true := by
  obtain ⟨value,sem,_⟩ := sound.counted.sem
  have fit := sound.fits w
  cases here : s.sql.guards w with
  | absent | saved _ _ | threw _ =>
    rw [here] at holding
    exact absurd rfl holding
  | admitted conn old =>
    refine ⟨.sql (.pop w),rfl,?_⟩
    simp only [step,alive,due,SqlPool.step,here]
    cases s.sql.conlist.removeB <;> rfl
  | popped conn old con => exact ⟨.sql (.assign w),rfl,by simp [step,alive,due,SqlPool.step,here]⟩
  | pushed => exact ⟨.sql (.post w),rfl,by simp [step,alive,due,SqlPool.step,here,SafeQueue.semPost,sem]⟩
  | alive conn old con =>
    rw [here] at fit
    by_cases returned : s.server.bodies w = .returned
    · exact ⟨.sql (.destroy w),rfl,by simp [step,alive,due,SqlPool.step,here,returned]⟩
    · obtain ⟨fd,running⟩ := fit.reads
      obtain ⟨te,asks,some_⟩ : ∃ e : TaskEvent, (∀ data, e ≠ .read (.bytes data)) ∧
          (taskStep parse cstate (s.server.users fd) (s.server.bodies w) e).isSome = true :=
        Server.taskOwn (s.server.users fd) returned
      obtain ⟨result,taken⟩ := Option.isSome_iff_exists.mp some_
      refine ⟨.server (.task w te),?_,?_⟩
      · cases te with
        | read result =>
          cases result with
          | bytes data => exact absurd rfl (asks data)
          | ends ending => rfl
        | _ => rfl
      · have passed : passes s (.task w te) = true := by
          cases te <;> first | rfl | simp only [passes,here]
        simp only [step,passed,if_true,Server.step,alive,Server.act,running,taken]
        cases result <;> rfl

theorem readerOwn (sound : Sound connections s) (alive : s.server.terminated = none) (positive : connections ≠ [])
    {w : ω} {fd : Int} (running : s.server.pool.workers w = .running 0 fd) :
    ∃ e : Event ω, e.own = true ∧ (step parse cstate s e).isSome = true := by
  have fit := sound.fits w
  rw [running] at fit
  by_cases holding : (s.sql.guards w).holding = 0
  · generalize here : s.sql.guards w = guard at fit holding
    generalize body : s.server.bodies w = at_ at fit
    cases fit with
    | elsewhere other => exact absurd rfl (other fd)
    | entered => exact ⟨.sql (.construct w fd),rfl,by simp [step,alive,due,SqlPool.step,here,running,body]⟩
    | saved =>
      obtain ⟨value,sem,total⟩ := sound.counted.sem
      have some_ := List.length_pos_iff.mpr positive
      rcases Nat.eq_zero_or_pos value with rfl | token
      · obtain ⟨u,holds⟩ := (Basis.tallyPos GuardPc.holding s.sql.guards).mp (by omega)
        exact holderOwn (w := u) sound alive (by omega)
      · exact ⟨.sql (.wait w),rfl,by simp [step,alive,due,SqlPool.step,here,SafeQueue.semWait,sem,token]⟩
    | admitted | popped | alive | pushed => cases holding
    | gone =>
      exact ⟨.server (.finish w),rfl,
        by simp [step,passes,here,Server.step,alive,Server.act,body,ThreadPool.step,running]⟩
  · exact holderOwn sound alive holding

structure AtRest (connections : List Nat) (s : State ω) : Prop where
  server : Server.AtRest s.server
  guards : ∀ w, s.sql.guards w = .absent
  sem : s.sql.conlist.mSem = some connections.length
  size : s.sql.conlist.list.length = connections.length

theorem serverRests (sound : Sound connections s) (rest : Server.AtRest s.server) : AtRest connections s := by
  have guards (w : ω) : s.sql.guards w = .absent := by
    have fit := sound.fits w
    rw [rest.workers w] at fit
    exact fit.absent (by simp)
  obtain ⟨value,sem,total⟩ := sound.counted.sem
  have size := sound.counted.size
  have nobody (weight : GuardPc Int → Nat) (zero : weight .absent = 0) : tally weight s.sql.guards = 0 :=
    (Basis.tallyZero _ _).mpr (fun w => by rw [guards w,zero])
  rw [nobody _ rfl,Nat.add_zero] at total size
  exact ⟨rest,guards,total ▸ sem,size⟩

theorem restOrOwn [Nonempty ω] (sound : Sound connections s) (alive : s.server.terminated = none)
    (positive : connections ≠ []) :
    AtRest connections s ∨ ∃ e : Event ω, e.own = true ∧ (step parse cstate s e).isSome = true := by
  by_cases reads : ∃ w fd, s.server.pool.workers w = .running 0 fd
  · obtain ⟨w,fd,running⟩ := reads
    exact .inr (readerOwn sound alive positive running)
  · have absent (w : ω) : s.sql.guards w = .absent := (sound.fits w).absent (fun fd running => reads ⟨w,fd,running⟩)
    have progress : Server.AtRest s.server ∨ ∃ e : Server.Event ω, e.own = true ∧
      (Server.step parse cstate s.server e).isSome = true := Server.restOrOwn sound.going alive
    rcases progress with rest | ⟨e,own,moves⟩
    · exact .inl (serverRests sound rest)
    · obtain ⟨server,taken⟩ := Option.isSome_iff_exists.mp moves
      refine .inr ⟨.server e,own,?_⟩
      have passed : passes s e = true := by
        cases e with
        | finish w => exact decide_eq_true (absent w)
        | task w te =>
          cases te with
          | guard =>
            obtain ⟨state,fd,running,body⟩ := guardConstructs taken
            have fit := sound.fits w
            rw [absent w,running,body] at fit
            cases fit with
            | elsewhere other calm => exact absurd rfl (calm state fd rfl)
            | entered => exact absurd ⟨w,fd,running⟩ reads
          | _ => rfl
        | _ => rfl
      simp [step,passed,taken]

theorem atRestStill (rest : AtRest connections s) {e : Event ω} (own : e.own = true) : step parse cstate s e = none := by
  cases e with
  | server e =>
    have still : Server.step parse cstate s.server e = none := Server.atRestStill rest.server own
    simp [step,still]
  | sql e =>
    simp only [step]
    split
    · rename_i allowed
      cases taken : SqlPool.step s.sql e with
      | none => rfl
      | some sql =>
        have nowhere {w : ω} {pc : GuardPc Int} (here : s.sql.guards w = pc) : pc = .absent :=
          here.symm.trans (rest.guards w)
        cases SqlPool.stepGuards taken with
        | construct =>
          obtain ⟨running,_⟩ := of_decide_eq_true allowed.2
          rw [rest.server.workers] at running
          cases running
        | wait here | threw here | pop here | assign here | destroy here | post here => cases nowhere here
    · rfl

def reads (s : State ω) (w : ω) : Bool := match s.server.pool.workers w, s.server.bodies w with
  | .running 0 _, .construct | .running 0 _, .returned => false
  | .running 0 _, _ => true
  | _, _ => false

theorem readsFew (sound : Sound connections s) : (Finset.univ.filter (fun w => reads s w)).card ≤ connections.length := by
  have each (w : ω) : (if reads s w then 1 else 0) ≤ (s.sql.guards w).holding := by
    split
    · rename_i inside
      have fit := sound.fits w
      unfold reads at inside
      generalize s.server.pool.workers w = pc, s.server.bodies w = body, s.sql.guards w = guard at fit inside ⊢
      cases fit <;> simp_all [GuardPc.holding]
    · exact Nat.zero_le _
  obtain ⟨value,_,total⟩ := sound.counted.sem
  calc (Finset.univ.filter (fun w => reads s w)).card
      = ∑ w, (if reads s w then 1 else 0) := Finset.card_filter _ _
    _ ≤ tally GuardPc.holding s.sql.guards := Finset.sum_le_sum (fun w _ => each w)
    _ ≤ connections.length := by omega

theorem descends [Nonempty ω] (positive : connections ≠ []) (sound : Sound connections s) :
    (s.server.terminated ≠ none ∨ AtRest connections s) ∨
    ∃ e s', e.own = true ∧ (system ω parse cstate connections).step s e = some s' ∧ Sound connections s' ∧ toDo s' < toDo s := by
  by_cases alive : s.server.terminated = none
  · rcases restOrOwn sound alive positive with rest | ⟨e,own,moves⟩
    · exact .inl (.inr rest)
    · obtain ⟨s',taken⟩ := Option.isSome_iff_exists.mp moves
      obtain ⟨sound',less⟩ := stepSound sound taken
      have nothing : e.brings = 0 := by
        cases e with
        | server e => exact Server.ownBrings own
        | sql e => rfl
      rw [own,nothing,if_pos rfl] at less
      exact .inr ⟨e,s',own,taken,sound',by omega⟩
  · exact .inl (.inl alive)

theorem serverRun {es : List (Event ω)} (ran : (system ω parse cstate connections).run s es = some s') :
    (Server.system ω parse cstate).run s.server (es.filterMap Event.server?) = some s'.server := by
  refine System.runView (fun s e s' f shown taken => ?_) (fun s e s' hidden taken => ?_) es ran
  · cases e with
    | server e =>
      cases shown
      obtain ⟨_,taken⟩ := Option.ite_none_right_eq_some.mp taken
      obtain ⟨server,moves,taken⟩ := Option.bind_eq_some_iff.mp taken
      cases Option.some.inj taken
      exact moves
    | sql e => cases shown
  · cases e with
    | server e => cases hidden
    | sql e =>
      obtain ⟨_,taken⟩ := Option.ite_none_right_eq_some.mp taken
      obtain ⟨sql,moves,taken⟩ := Option.bind_eq_some_iff.mp taken
      cases Option.some.inj taken
      rfl

/- With one connection or more the workers and the pool do not block each other for
ever: a run is stuck at rest only, where no guard is alive and the pool has as many
entries and tokens as `init` made, and can always come to rest unless a text that
cannot be decoded ends it. No more calls read at once than there are connections, and
the server's own run is one without the guards. -/
theorem guardsNeverDeadlock [Nonempty ω] (positive : connections ≠ []) (start : Initial connections s)
    {es : List (Event ω)} (ran : (system ω parse cstate connections).run s es = some s') :
    es.countP Event.own ≤ 7 * (Fintype.card ω + 1) + 105 * (es.map Event.brings).sum ∧
    (s'.server.terminated = none → (AtRest connections s' ↔ ∀ e, e.own = true → step parse cstate s' e = none)) ∧
    (∃ fs t, (∀ e ∈ fs, e.own = true) ∧ (system ω parse cstate connections).run s' fs = some t ∧
      (t.server.terminated ≠ none ∨ AtRest connections t)) ∧
    (Finset.univ.filter (fun w => reads s' w)).card ≤ connections.length ∧
    (Server.system ω parse cstate).run s.server (es.filterMap Event.server?) = some s'.server := by
  obtain ⟨sound,most⟩ := initialSound start
  have kept : ∀ s e s', Sound connections s → (system ω parse cstate connections).step s e = some s' →
      Sound connections s' ∧ (if e.own then 1 else 0) + toDo s' ≤ toDo s + 105 * e.brings :=
    fun _ _ _ sound taken => stepSound sound taken
  have bound := (system ω parse cstate connections).runBudget Event.own Event.brings 105 toDo kept sound es ran
  have sound' : Sound connections s' := (system ω parse cstate connections).runKeeps
    (fun _ _ _ sound taken => (stepSound sound taken).1) sound es ran
  refine ⟨by omega,fun alive => ⟨fun rest e => atRestStill rest,fun stuck => ?_⟩,?_,readsFew sound',serverRun ran⟩
  · have progress : AtRest connections s' ∨ ∃ e : Event ω, e.own = true ∧ (step parse cstate s' e).isSome = true :=
      restOrOwn sound' alive positive
    refine progress.resolve_right (fun ⟨e,own,moves⟩ => ?_)
    rw [stuck e own] at moves
    cases moves
  · obtain ⟨fs,t,owns,ran,_,still⟩ := (system ω parse cstate connections).runsDown toDo
      (fun _ => descends positive) sound'
    exact ⟨fs,t,owns,ran,still⟩

end Progress

def sampleStart : State Bool := ⟨Server.sampleStart Bool,⟨⟨[some 7],some 1,true,-1⟩,fun _ => none,fun _ => .absent⟩⟩

theorem sampleInitial : Initial [7] sampleStart := ⟨Server.sampleInitial Bool,by decide,rfl,fun _ => rfl,fun _ => rfl⟩

def twoTasks : List (Server.Event Bool) :=
  [.wait [.listening],.handle,.accept (some 5),.add true,.accept (some 6),.add true,.accept none,
   .wait [.client 5 Server.readable,.client 6 Server.readable],.handle,.push,.post,.handle,.push,.post] ++
  [false,true].flatMap (fun w =>
    [.pool (.loop w),.pool (.wait w),.pool (.empty w),.pool (.pop w),.pool (.dispatch w)])

def contendedRun : List (Event Bool) :=
  twoTasks.map .server ++ [.sql (.construct false 5),.sql (.wait false),.sql (.pop false),.sql (.assign false),
    .server (.task false .guard),.sql (.construct true 6)]

theorem contendedNeverDeadlocks : ∃ s', (system Bool TcpConn.sampleParse .LT [7]).run sampleStart contendedRun = some s' ∧
    step TcpConn.sampleParse .LT s' (.sql (.wait true)) = none ∧
    ∃ fs t, (∀ e ∈ fs, e.own = true) ∧ (system Bool TcpConn.sampleParse .LT [7]).run s' fs = some t ∧
      (t.server.terminated ≠ none ∨ AtRest [7] t) := by
  have runs : ((system Bool TcpConn.sampleParse .LT [7]).run sampleStart contendedRun).map
      (fun s => (step TcpConn.sampleParse .LT s (.sql (.wait true))).isNone) = some true := by decide +kernel
  obtain ⟨s',ran,waits⟩ := Option.map_eq_some_iff.mp runs
  exact ⟨s',ran,Option.isNone_iff_eq_none.mp waits,(guardsNeverDeadlock (by decide) sampleInitial ran).2.2.1⟩

end SimpleChat.GuardedServer
