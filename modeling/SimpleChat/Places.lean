import SimpleChat.Isolation

/-! Where a connection stands in its round: armed, an event in the batch, a task on
its way to a worker, or in a call that has still to arm it again or drop it. A
connection in service stands in at most one place, and every step of the server
leads it along the round. -/
namespace SimpleChat.Server
open Basis (tally tallyMember tallyPos)
open Function (update)

variable {ω : Type}

inductive Place (ω : Type) where
  | armed (events : Interest)
  | event (mask : Mask)
  | checked (state : Int)
  | queued (state : Int)
  | popped (w : ω) (state : Int)
  | inside (w : ω) (body : Body)

def At (s : State ω) (fd : Int) : Place ω → Prop
  | .armed events => s.epoll fd = some (.armed events)
  | .event mask => .client fd mask ∈ s.loop.pending
  | .checked state => s.pool.clients () = .checked (state,some fd)
  | .queued state => (state,some fd) ∈ s.pool.taskQueue.list
  | .popped w state => s.pool.workers w = .popped (state,some fd)
  | .inside w body => runsOn fd (s.pool.workers w) = true ∧ s.bodies w = body ∧ body.owes = true

inductive Follows : Body → Body → Prop
  | reads : Follows .construct .reading
  | more : Follows .reading .reading
  | ends : Follows .reading .deleting
  | parses : Follows .reading .parsing
  | answers : Follows .parsing .rearming
  | writes : Follows .sending .clearing
  | clears : Follows .clearing .resuming

inductive Goes : Place ω → Place ω → Prop
  | stays {p : Place ω} : Goes p p
  | reported {events : Interest} {mask : Mask} (within_ : mask.within events = true) : Goes (.armed events) (.event mask)
  | read {mask : Mask} (calm : mask.hangs = false) (readable : mask.inp = true) : Goes (.event mask) (.checked 0)
  | write {mask : Mask} (calm : mask.hangs = false) (unreadable : mask.inp = false) : Goes (.event mask) (.checked 1)
  | pushed {state : Int} : Goes (.checked state) (.queued state)
  | popped {w : ω} {state : Int} : Goes (.queued state) (.popped w state)
  | readOnce {w : ω} : Goes (.popped w 0) (.inside w .construct)
  | sendData {w : ω} : Goes (.popped w 1) (.inside w .sending)
  | follows {w : ω} {body body' : Body} (next : Follows body body') : Goes (.inside w body) (.inside w body')
  | arms {w : ω} : Goes (.inside w .rearming) (.armed .writeEvent)
  | resumes {w : ω} : Goes (.inside w .resuming) (.armed .readEvent)

variable {s s' : State ω} {fd : Int}

theorem insideOwed {w : ω} {body : Body} (at_ : At s fd (.inside w body)) :
    owedBy fd (crew s.pool.workers s.bodies w) = 1 := by
  obtain ⟨runs,rfl,owes⟩ := at_
  obtain ⟨state,running⟩ := runsOnIff.mp runs
  simp only [crew,running,owedBy,owes,and_self,if_true]

theorem atWeight {p : Place ω} (at_ : At s fd p) :
    0 < armedAt s.epoll fd + s.loop.pending.countP (concerns fd) + checkedFor fd (s.pool.clients ()) +
      s.pool.taskQueue.list.countP (names fd) ∨
    ∃ w, owedBy fd (crew s.pool.workers s.bodies w) = 1 ∧
      ((∃ state, p = .popped w state) ∨ ∃ body, p = .inside w body) := by
  cases p with
  | armed events =>
    have one : armedAt s.epoll fd = 1 := by simp only [armedAt,show s.epoll fd = some (.armed events) from at_]
    omega
  | event mask =>
    have some_ : 0 < s.loop.pending.countP (concerns fd) := List.countP_pos_iff.mpr ⟨_,at_,by simp⟩
    omega
  | checked state =>
    have one : checkedFor fd (s.pool.clients ()) = 1 := by
      simp [checkedFor,show s.pool.clients () = .checked (state,some fd) from at_,names]
    omega
  | queued state =>
    have some_ : 0 < s.pool.taskQueue.list.countP (names fd) := List.countP_pos_iff.mpr ⟨_,at_,by simp [names]⟩
    omega
  | popped w state => exact .inr ⟨w,poppedOne at_,.inl ⟨state,rfl⟩⟩
  | inside w body => exact .inr ⟨w,insideOwed at_,.inr ⟨body,rfl⟩⟩

section Carried
variable [Fintype ω]

theorem atServed (covered : Covered s) {p : Place ω} (at_ : At s fd p) : 0 < carriers s fd ∧ inService s fd = 1 := by
  rcases atWeight at_ with some_ | ⟨w,one,_⟩
  · have positive : 0 < carriers s fd := by simp only [carriers]; omega
    exact ⟨positive,(covered.sole positive).1⟩
  · have member := tallyMember (owedBy fd) (crew s.pool.workers s.bodies) w
    exact ⟨by simp only [carriers]; omega,(covered.owed one).1⟩

theorem insideOnly (covered : Covered s) {w : ω} {body : Body} (inside : At s fd (.inside w body)) {p : Place ω}
    (at_ : At s fd p) : p = .inside w body := by
  have own := insideOwed inside
  rcases atWeight at_ with some_ | ⟨v,one,kind⟩
  · have member := tallyMember (owedBy fd) (crew s.pool.workers s.bodies) w
    have positive : 0 < carriers s fd := by simp only [carriers]; omega
    have total := (covered.sole positive).2
    simp only [carriers] at total
    omega
  · have same : v = w := by
      by_contra other
      have none := (covered.owed own).2.2 v other
      omega
    subst same
    obtain ⟨runs,here,owes⟩ := inside
    rcases kind with ⟨state,rfl⟩ | ⟨other,rfl⟩
    · obtain ⟨state',running⟩ := runsOnIff.mp runs
      rw [show s.pool.workers v = .popped (state,some fd) from at_] at running
      cases running
    · rw [← at_.2.1,here]

end Carried

section Task
variable {parse : Text → Except String Json} {cstate : ConnState} {c c' : TcpConn} {body body' : Body} {e : TaskEvent}
  {calls : List EpollCall} {faults : List Fault}

/- What a step inside a call does to the duty: it goes on, or hands it to the epoll set, or ends it. -/
theorem taskFollows (moves : TaskMoves parse cstate c body e c' body' calls faults) :
    (Follows body body' ∧ calls = []) ∨ body'.owes = false := by
  cases moves with
  | room => exact .inl ⟨.reads,rfl⟩
  | bytes => exact .inl ⟨.more,rfl⟩
  | eof => exact .inl ⟨.ends,rfl⟩
  | eagain => exact .inl ⟨.parses,rfl⟩
  | answered => exact .inl ⟨.answers,rfl⟩
  | written => exact .inl ⟨.writes,rfl⟩
  | clear => exact .inl ⟨.clears,rfl⟩
  | _ => exact .inr rfl

end Task

section Steps
variable {p : Place ω}

theorem placeKept (at_ : At s' fd p)
    (epoll : ∀ events, s'.epoll fd = some (.armed events) → s.epoll fd = some (.armed events))
    (pending : ∀ ready ∈ s'.loop.pending, ready ∈ s.loop.pending) (pool : s'.pool = s.pool) (bodies : s'.bodies = s.bodies) :
    At s fd p := by
  cases p with
  | armed events => exact epoll events at_
  | event mask => exact pending _ at_
  | checked | queued | popped | inside =>
    simp only [At,pool,bodies] at at_ ⊢
    exact at_

theorem placeWorker {pool : ThreadPool.State Unit ω Int} {bodies : ω → Body} {w : ω}
    (at_ : At {s with pool := pool, bodies := bodies} fd p) (clients : pool.clients = s.pool.clients)
    (queue : ∀ task ∈ pool.taskQueue.list, task ∈ s.pool.taskQueue.list)
    (workers : ∀ v, v ≠ w → pool.workers v = s.pool.workers v) (others : ∀ v, v ≠ w → bodies v = s.bodies v) :
    At s fd p ∨ (∃ state, p = .popped w state ∧ pool.workers w = .popped (state,some fd)) ∨
    ∃ body, p = .inside w body ∧ runsOn fd (pool.workers w) = true ∧ bodies w = body ∧ body.owes = true := by
  cases p with
  | armed | event => exact .inl at_
  | checked state => exact .inl ((congrFun clients ()).symm.trans at_)
  | queued state => exact .inl (queue _ at_)
  | popped v state =>
    by_cases own : v = w
    · subst own
      exact .inr (.inl ⟨state,rfl,at_⟩)
    · exact .inl ((workers v own).symm.trans at_)
  | inside v body =>
    obtain ⟨runs,here,owes⟩ := at_
    by_cases own : v = w
    · subst own
      exact .inr (.inr ⟨body,rfl,runs,here,owes⟩)
    · exact .inl ⟨workers v own ▸ runs,(others v own).symm.trans here,owes⟩

variable [DecidableEq ω] [Fintype ω] {parse : Text → Except String Json} {cstate : ConnState} {e : Event ω}

theorem handleChecked {sockfd state state' : Int} {rest : List Ready} (taken : handleTask s sockfd state rest = some s')
    (outside : s.pool.clients () = .outside) (checked : s'.pool.clients () = .checked (state',some fd)) : state' = state := by
  simp only [handleTask] at taken
  split at taken
  · cases Option.some.inj taken
    rw [outside] at checked
    cases checked
  · obtain ⟨pool,checks,taken⟩ := Option.bind_eq_some_iff.mp taken
    cases Option.some.inj taken
    cases ThreadPool.stepMoves checks with
    | checked =>
      simp only [Function.update_self,ThreadPool.ClientPc.checked.injEq,Prod.mk.injEq] at checked
      exact checked.1.symm
    | refused =>
      rw [outside] at checked
      cases checked

theorem checkedGoes {userfd state : Int} {mask : Mask} {rest : List Ready} (here : s.loop = .batch (.client userfd mask :: rest))
    (calm : mask.hangs = false) (outside : s.pool.clients () = .outside)
    (stepped : step parse cstate s .handle = some s') (checked : s'.pool.clients () = .checked (state,some fd)) :
    Goes (.event mask : Place ω) (.checked state) := by
  simp only [step,Option.ite_none_right_eq_some,act,here,calm,Bool.false_eq_true,if_false] at stepped
  obtain ⟨_,stepped⟩ := stepped
  split at stepped
  · rename_i readable
    rw [handleChecked stepped outside checked]
    exact .read calm readable
  · rename_i unreadable
    split at stepped
    · rw [handleChecked stepped outside checked]
      exact .write calm (Bool.not_eq_true _ ▸ unreadable)
    · cases Option.some.inj stepped
      rw [outside] at checked
      cases checked

omit [Fintype ω] in
theorem popGoes {pool : ThreadPool.State Unit ω Int} {w : ω} (at_ : At {s with pool := pool} fd p)
    (workers : pool.workers = update s.pool.workers w (.popped s.pool.taskQueue.pop.1))
    (clients : pool.clients = s.pool.clients) (queue : pool.taskQueue = s.pool.taskQueue.pop.2) :
    ∃ q, At s fd q ∧ Goes q p := by
  have stays : ∀ task ∈ pool.taskQueue.list, task ∈ s.pool.taskQueue.list := fun task member => by
    rw [queue] at member
    cases list : s.pool.taskQueue.list with
    | nil => simp [SafeQueue.pop,list] at member
    | cons first rest =>
      simp only [SafeQueue.pop,list] at member
      exact List.mem_cons_of_mem _ member
  rcases placeWorker at_ clients stays (fun _ => movedOthers workers) (fun _ _ => rfl) with
    same | ⟨state,rfl,popped⟩ | ⟨body,rfl,runs,_⟩
  · exact ⟨p,same,.stays⟩
  · rw [workers,Function.update_self] at popped
    refine ⟨.queued state,?_,.popped⟩
    cases list : s.pool.taskQueue.list with
    | nil =>
      simp only [SafeQueue.pop,list,ThreadPool.WorkerPc.popped.injEq] at popped
      cases congrArg Prod.snd popped
    | cons first rest =>
      simp only [SafeQueue.pop,list,ThreadPool.WorkerPc.popped.injEq] at popped
      simp only [At,list,popped]
      exact List.mem_cons_self
  · rw [workers,Function.update_self] at runs
    cases runs

omit [Fintype ω] in
theorem dispatchGoes (kinds : Kinds s) {pool : ThreadPool.State Unit ω Int} {w : ω} {task : ThreadPool.Task Int}
    (at_ : At {s with pool := pool, bodies := update s.bodies w (entry (pool.workers w))} fd p)
    (popped : s.pool.workers w = .popped task)
    (workers : pool.workers = update s.pool.workers w (ThreadPool.dispatch s.pool.funbox task))
    (clients : pool.clients = s.pool.clients) (queue : pool.taskQueue = s.pool.taskQueue) : ∃ q, At s fd q ∧ Goes q p := by
  rcases placeWorker at_ clients (fun _ member => queue ▸ member) (fun _ => movedOthers workers) updateOthers with
    same | ⟨state,rfl,still⟩ | ⟨body,rfl,runs,here,owes⟩
  · exact ⟨p,same,.stays⟩
  · rw [workers,Function.update_self] at still
    unfold ThreadPool.dispatch at still
    split at still
    · cases still
    · split at still <;> cases still
  · rw [workers,Function.update_self] at runs
    simp only [workers,Function.update_self] at here
    obtain ⟨n,running⟩ := runsOnIff.mp runs
    have named := dispatchRuns running
    have kind := (kinds.popped w task popped (by rw [named]; rfl)).1
    obtain ⟨state,reqstruct⟩ := task
    cases named
    refine ⟨.popped w state,popped,?_⟩
    rcases kind with zero | one
    · cases (show state = 0 from zero)
      simp only [ThreadPool.dispatch,kinds.funbox] at here
      cases here
      exact .readOnce
    · cases (show state = 1 from one)
      simp only [ThreadPool.dispatch,kinds.funbox] at here
      cases here
      exact .sendData

omit [DecidableEq ω] in
theorem armedGoes (covered : Covered s) {w : ω} {state : Nat} {userfd : Int} {te : TaskEvent} {conn : TcpConn} {body : Body}
    {calls : List EpollCall} {faults : List Fault} {events : Interest} (running : s.pool.workers w = .running state userfd)
    (moves : TaskMoves parse cstate (s.users userfd) (s.bodies w) te conn body calls faults)
    (armed : calls.foldl epollCtl s.epoll fd = some (.armed events)) : ∃ q, At s fd q ∧ Goes q (.armed events) := by
  have kept (same : s.epoll fd = some (.armed events)) : ∃ q, At s fd q ∧ Goes q (.armed events) := ⟨.armed events,same,.stays⟩
  have modified {wanted : Interest} (owes : (s.bodies w).owes = true) (round : Goes (.inside w (s.bodies w)) (.armed wanted))
      (armed : epollCtl s.epoll ((s.users userfd).updateEvents wanted) fd = some (.armed events)) :
      ∃ q, At s fd q ∧ Goes q (.armed events) := by
    have target := (covered.owing running owes).2.2
    by_cases own : userfd = fd
    · subst own
      simp only [TcpConn.updateEvents,target,epollCtl,Function.update_self] at armed
      cases registered : s.epoll userfd <;> rw [registered] at armed <;> cases armed
      exact ⟨.inside w (s.bodies w),⟨runsOnIff.mpr ⟨state,running⟩,rfl,owes⟩,round⟩
    · rw [ctlOther s.epoll _ (by simpa only [TcpConn.updateEvents,EpollCall.target,target] using own)] at armed
      exact kept armed
  generalize before : s.bodies w = old at moves
  cases moves with
  | modify => exact modified (by rw [before]; rfl) (before ▸ .arms) armed
  | resume => exact modified (by rw [before]; rfl) (before ▸ .resumes) armed
  | delete =>
    simp only [List.foldl_cons,List.foldl_nil,TcpConn.removeFd] at armed
    by_cases target : (s.users userfd).mFd = fd
    · simp [epollCtl,target] at armed
    · rw [ctlOther s.epoll (.delete _) target] at armed
      exact kept armed
  | _ => exact kept armed

theorem stepPlace (covered : Covered s) (kinds : Kinds s) (stepped : step parse cstate s e = some s') (at_ : At s' fd p) :
    (∃ q, At s fd q ∧ Goes q p) ∨ (p = .armed .readEvent ∧ s.loop.adds fd = true) := by
  have kept (same : At s fd p) : (∃ q, At s fd q ∧ Goes q p) ∨ (p = .armed .readEvent ∧ s.loop.adds fd = true) :=
    .inl ⟨p,same,.stays⟩
  cases stepMoves parse cstate stepped with
  | @wait batch idle distinct from_ =>
    cases p with
    | armed events =>
      simp only [At,disarm] at at_
      split at at_
      · cases registered : s.epoll fd <;> rw [registered] at at_ <;> cases at_
      · exact kept at_
    | event mask =>
      have armed := List.all_eq_true.mp from_ _ at_
      simp only [deliverable] at armed
      split at armed <;> try contradiction
      rename_i events registered
      exact .inl ⟨.armed events,registered,.reported armed⟩
    | checked | queued | popped | inside => exact kept at_
  | listening here | dropped here =>
    exact kept (placeKept at_ (fun _ => id) (fun _ member => by rw [here]; exact List.mem_cons_of_mem _ member) rfl rfl)
  | @hangup userfd mask rest here hangs =>
    refine kept (placeKept at_ (fun events armed => ?_) (fun _ member => by cases member) rfl rfl)
    by_cases own : fd = userfd
    · simp [own] at armed
    · simpa [own] using armed
  | noMore here | accepted here | addFails here =>
    exact kept (placeKept at_ (fun _ => id) (fun _ member => by rw [here]; exact member) rfl rfl)
  | @added userfd rest here absent =>
    by_cases own : fd = userfd
    · subst own
      cases p with
      | armed events =>
        simp only [At,Function.update_self,Option.some.injEq,Registration.armed.injEq] at at_
        exact .inr ⟨by rw [at_],by rw [here]; exact decide_eq_true rfl⟩
      | event mask => exact kept (by simp only [At,here] at at_ ⊢; exact at_)
      | checked | queued | popped | inside => exact kept at_
    · refine kept (placeKept at_ (fun events armed => ?_) (fun _ member => by rw [here]; exact member) rfl rfl)
      simpa [own] using armed
  | tooHigh | threw => exact kept at_
  | @checked userfd state mask rest pool here calm kind outside appends =>
    subst appends
    cases p with
    | event other => exact kept (by simp only [At,here] at at_ ⊢; exact List.mem_cons_of_mem _ at_)
    | checked state' =>
      have round := checkedGoes here calm outside stepped at_
      simp only [At,Function.update_self,ThreadPool.ClientPc.checked.injEq,Prod.mk.injEq,Option.some.injEq] at at_
      exact .inl ⟨.event mask,by simp only [At,here,← at_.2]; exact List.mem_cons_self,round⟩
    | armed | queued | popped | inside => exact kept at_
  | @push task pool checked clients queue workers funbox =>
    obtain ⟨number,pushed⟩ := clients
    cases p with
    | armed | event => exact kept at_
    | checked state =>
      rw [At,pushed] at at_
      cases at_
    | queued state =>
      simp only [At,queue,SafeQueue.push,List.mem_append,List.mem_singleton] at at_
      rcases at_ with old | new
      · exact kept old
      · exact .inl ⟨.checked state,by rw [At,checked,new],.pushed⟩
    | popped | inside =>
      simp only [At,workers] at at_
      exact kept at_
  | @post rest pool here pushed clients queue workers funbox =>
    cases p with
    | armed => exact kept at_
    | event => exact kept (by simp only [At,here] at at_ ⊢; exact at_)
    | checked state =>
      rw [At,clients] at at_
      cases at_
    | queued =>
      simp only [At,queue] at at_
      exact kept at_
    | popped | inside =>
      simp only [At,workers] at at_
      exact kept at_
  | @worker _ w pc pool before after workers clients queue funbox =>
    have at_ : At {s with pool := pool, bodies := s.bodies} fd p := at_
    rcases placeWorker at_ clients (fun _ member => queue ▸ member) (fun _ => movedOthers workers) (fun _ _ => rfl) with same | ⟨state,_,popped⟩ | ⟨body,_,runs,_⟩
    · exact kept same
    · rw [workers,Function.update_self] at popped
      rw [popped] at after
      cases after
    · rw [workers,Function.update_self] at runs
      obtain ⟨_,running⟩ := runsOnIff.mp runs
      rw [running] at after
      cases after
  | pop ready workers clients queue funbox => exact .inl (popGoes at_ workers clients queue)
  | dispatch popped workers clients queue funbox => exact .inl (dispatchGoes kinds at_ popped workers clients queue)
  | @task w te state userfd conn body calls faults running taken =>
    have moves := taskMoves parse cstate taken
    cases p with
    | armed events => exact .inl (armedGoes covered running moves at_)
    | event | checked | queued | popped => exact kept at_
    | inside v body' =>
      obtain ⟨runs,here,owes⟩ := at_
      by_cases own : v = w
      · subst own
        simp only [worked,Function.update_self] at here
        subst here
        rcases taskFollows moves with ⟨follows,_⟩ | drops
        · refine .inl ⟨.inside v (s.bodies v),⟨runs,rfl,?_⟩,.follows follows⟩
          generalize s.bodies v = old at follows
          cases follows <;> rfl
        · rw [drops] at owes
          cases owes
      · simp only [worked,Function.update_of_ne own] at here
        exact kept ⟨runs,here,owes⟩

end Steps

section Round

theorem foundOnce {α : Type} {test : α → Bool} {list : List α} {x y : α} (once : list.countP test ≤ 1) (first : x ∈ list)
    (second : y ∈ list) (found : test x = true) (found' : test y = true) : x = y := by
  rw [List.countP_eq_length_filter] at once
  have inside := List.mem_filter.mpr ⟨first,found⟩
  have inside' := List.mem_filter.mpr ⟨second,found'⟩
  generalize list.filter test = few at once inside inside'
  match few, once, inside, inside' with
  | [_], _, inside, inside' => rw [List.mem_singleton.mp inside,List.mem_singleton.mp inside']

variable [Fintype ω]

def share (s : State ω) (fd : Int) : Place ω → Nat
  | .armed _ => armedAt s.epoll fd
  | .event _ => s.loop.pending.countP (concerns fd)
  | .checked _ => checkedFor fd (s.pool.clients ())
  | .queued _ => s.pool.taskQueue.list.countP (names fd)
  | .popped _ _ | .inside _ _ => tally (owedBy fd) (crew s.pool.workers s.bodies)

theorem atShare {p : Place ω} (at_ : At s fd p) : 0 < share s fd p := by
  cases p with
  | armed events => simp [share,armedAt,show s.epoll fd = some (.armed events) from at_]
  | event mask => exact List.countP_pos_iff.mpr ⟨_,at_,by simp⟩
  | checked state => simp [share,checkedFor,show s.pool.clients () = .checked (state,some fd) from at_,names]
  | queued state => exact List.countP_pos_iff.mpr ⟨_,at_,by simp [names]⟩
  | popped w state => exact (tallyPos _ _).mpr ⟨w,by rw [poppedOne at_]; exact Nat.one_pos⟩
  | inside w body => exact (tallyPos _ _).mpr ⟨w,by rw [insideOwed at_]; exact Nat.one_pos⟩

theorem poppedOnly (covered : Covered s) {w v : ω} {state state' : Int} (first : At s fd (.popped w state))
    (second : At s fd (.popped v state')) : (Place.popped w state : Place ω) = .popped v state' := by
  have same : v = w := by
    by_contra other
    have none := (covered.owed (poppedOne first)).2.2 v other
    rw [poppedOne second] at none
    cases none
  subst same
  have task : (state,some fd) = (state',some fd) := ThreadPool.WorkerPc.popped.inj (first.symm.trans second)
  rw [(Prod.mk.inj task).1]

theorem atOnly (covered : Covered s) {p q : Place ω} (first : At s fd p) (second : At s fd q) : p = q := by
  have once := (covered.sole (atServed covered first).1).2
  have here := atShare first
  have there := atShare second
  unfold carriers at once
  cases p with
  | inside w body => exact (insideOnly covered first second).symm
  | armed events =>
    cases q with
    | armed events' => rw [Registration.armed.inj (Option.some.inj (Eq.trans (Eq.symm first) second))]
    | _ => simp only [share] at here there; omega
  | event mask =>
    cases q with
    | event mask' =>
      have alone : s.loop.pending.countP (concerns fd) ≤ 1 := by omega
      cases foundOnce alone first second (by simp) (by simp)
      rfl
    | _ => simp only [share] at here there; omega
  | checked state =>
    cases q with
    | checked state' =>
      have task : (state,some fd) = (state',some fd) := ThreadPool.ClientPc.checked.inj (Eq.trans (Eq.symm first) second)
      rw [(Prod.mk.inj task).1]
    | _ => simp only [share] at here there; omega
  | queued state =>
    cases q with
    | queued state' =>
      have alone : s.pool.taskQueue.list.countP (names fd) ≤ 1 := by omega
      have task := foundOnce alone first second (by simp [names]) (by simp [names])
      rw [(Prod.mk.inj task).1]
    | _ => simp only [share] at here there; omega
  | popped w state =>
    cases q with
    | popped v state' => exact poppedOnly covered first second
    | inside v body => exact insideOnly covered second first
    | _ => simp only [share] at here there; omega

variable [DecidableEq ω] {parse : Text → Except String Json} {cstate : ConnState}

/- Each connection is in one place at most, is in service there, and came there
along the round or has just been added. -/
def OnRound (s s' : State ω) : Prop :=
  ∀ fd, (∀ p q, At s' fd p → At s' fd q → p = q) ∧ ∀ p, At s' fd p → inService s' fd = 1 ∧
    ((∃ q, At s fd q ∧ Goes q p) ∨ (p = .armed .readEvent ∧ s.loop.adds fd = true))

theorem eachOnRound (start : Initial s) (es : List (Event ω)) :
    (system ω parse cstate).Throughout (fun s _ s' => OnRound s s') s es := by
  refine (system ω parse cstate).throughoutKept (P := fun s => Covered s ∧ Kinds s) (fun s e s' held taken => ?_)
    ⟨(initialCovered start).1,(initialServed start).attended.kinds⟩ es
  have moves := stepMoves parse cstate taken
  have covered := movesCovered parse cstate held.1 moves
  exact ⟨⟨covered,movesKinds held.2 moves⟩,fun fd => ⟨fun p q => atOnly covered,
    fun p at_ => ⟨(atServed covered at_).2,stepPlace held.1 held.2 taken at_⟩⟩⟩

theorem orderlyOnRound : (system Bool TcpConn.sampleParse .LT).Throughout (fun s _ s' => OnRound s s') (sampleStart Bool) orderlyRun ∧
    ((system Bool TcpConn.sampleParse .LT).run (sampleStart Bool) orderlyRun).isSome = true :=
  ⟨eachOnRound (sampleInitial Bool) orderlyRun,by decide +kernel⟩

end Round
end SimpleChat.Server
