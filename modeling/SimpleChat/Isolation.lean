import SimpleChat.Slots

/-! Isolation of the clients that use one descriptor in turn. A write is due
only after `parseData` replied on the same connection, and a byte in `m_buf` is
of the current connection unless a call of an earlier one has still to reset the
buffer. -/
namespace SimpleChat.Server
open Basis (tallyMember)
open Function (update)

variable {ω : Type}

/- The connection is armed for writing, or the event, the task or the call that
follows from it is on its way; so is a call that is about to arm it. -/
def WriteDue (s : State ω) (fd : Int) : Prop :=
  s.epoll fd = some (.armed .writeEvent) ∨ (∃ mask, .client fd mask ∈ s.loop.pending ∧ mask.out = true) ∨
  s.pool.clients () = .checked (1,some fd) ∨ (1,some fd) ∈ s.pool.taskQueue.list ∨
  ∃ w, s.pool.workers w = .popped (1,some fd) ∨
    (runsOn fd (s.pool.workers w) = true ∧ (s.bodies w = .sending ∨ s.bodies w = .rearming))

variable {s s' : State ω} {fd : Int}

theorem dueWeight (due : WriteDue s fd) :
    0 < armedAt s.epoll fd + s.loop.pending.countP (concerns fd) + checkedFor fd (s.pool.clients ()) +
      s.pool.taskQueue.list.countP (names fd) ∨
    ∃ w, owedBy fd (crew s.pool.workers s.bodies w) = 1 ∧
      (s.pool.workers w = .popped (1,some fd) ∨ s.bodies w = .sending ∨ s.bodies w = .rearming) := by
  rcases due with armed | ⟨mask,member,_⟩ | checked | queued | ⟨w,popped | ⟨runs,body⟩⟩
  · have one : armedAt s.epoll fd = 1 := by simp only [armedAt,armed]
    omega
  · have some_ : 0 < s.loop.pending.countP (concerns fd) := List.countP_pos_iff.mpr ⟨_,member,by simp⟩
    omega
  · have one : checkedFor fd (s.pool.clients ()) = 1 := by simp [checkedFor,checked,names]
    omega
  · have some_ : 0 < s.pool.taskQueue.list.countP (names fd) := List.countP_pos_iff.mpr ⟨_,queued,by simp [names]⟩
    omega
  · exact .inr ⟨w,poppedOne popped,.inl popped⟩
  · obtain ⟨state,running⟩ := runsOnIff.mp runs
    have owes : (s.bodies w).owes = true := by rcases body with here | here <;> rw [here] <;> rfl
    exact .inr ⟨w,by simp only [crew,running,owedBy,owes,and_self,if_true],.inr body⟩

theorem dueTurn (due : WriteDue s' fd)
    (epoll : s'.epoll fd = some (.armed .writeEvent) → s.epoll fd = some (.armed .writeEvent))
    (pending : ∀ ready ∈ s'.loop.pending, ready ∈ s.loop.pending) (pool : s'.pool = s.pool) (bodies : s'.bodies = s.bodies) :
    WriteDue s fd := by
  unfold WriteDue at due
  rw [pool,bodies] at due
  rcases due with armed | ⟨mask,member,out⟩ | rest
  · exact .inl (epoll armed)
  · exact .inr (.inl ⟨mask,pending _ member,out⟩)
  · exact .inr (.inr rest)

theorem duePool {pool : ThreadPool.State Unit ω Int} {bodies : ω → Body}
    (due : WriteDue {s with pool := pool, bodies := bodies} fd) (clients : pool.clients = s.pool.clients)
    (queue : ∀ task ∈ pool.taskQueue.list, task ∈ s.pool.taskQueue.list)
    (crew : ∀ v, pool.workers v = .popped (1,some fd) ∨
      (runsOn fd (pool.workers v) = true ∧ (bodies v = .sending ∨ bodies v = .rearming)) → WriteDue s fd) :
    WriteDue s fd := by
  rcases due with armed | pending | checked | queued | ⟨v,working⟩
  · exact .inl armed
  · exact .inr (.inl pending)
  · exact .inr (.inr (.inl (clients ▸ checked)))
  · exact .inr (.inr (.inr (.inl (queue _ queued))))
  · exact crew v working

theorem workerDue [DecidableEq ω] {pool : ThreadPool.State Unit ω Int} {w : ω} {pc : ThreadPool.WorkerPc Int}
    (due : WriteDue {s with pool := pool} fd) (after : Idle pc = true) (workers : pool.workers = update s.pool.workers w pc)
    (clients : pool.clients = s.pool.clients) (queue : pool.taskQueue = s.pool.taskQueue) : WriteDue s fd := by
  refine duePool due clients (fun _ member => queue ▸ member) (fun v working => ?_)
  have other : v ≠ w := by
    rintro rfl
    rw [workers,Function.update_self] at working
    rcases working with popped | ⟨runs,_⟩
    · rw [popped] at after
      cases after
    · obtain ⟨_,running⟩ := runsOnIff.mp runs
      rw [running] at after
      cases after
  rw [movedOthers workers other] at working
  exact .inr (.inr (.inr (.inr ⟨v,working⟩)))

theorem popDue [DecidableEq ω] {pool : ThreadPool.State Unit ω Int} {w : ω} (due : WriteDue {s with pool := pool} fd)
    (workers : pool.workers = update s.pool.workers w (.popped s.pool.taskQueue.pop.1))
    (clients : pool.clients = s.pool.clients) (queue : pool.taskQueue = s.pool.taskQueue.pop.2) : WriteDue s fd := by
  refine duePool due clients (fun task member => ?_) (fun v working => ?_)
  · rw [queue] at member
    cases list : s.pool.taskQueue.list with
    | nil => simp [SafeQueue.pop,list] at member
    | cons first rest =>
      simp only [SafeQueue.pop,list] at member
      exact List.mem_cons_of_mem _ member
  · by_cases own : v = w
    · subst own
      rw [workers,Function.update_self] at working
      rcases working with popped | ⟨runs,_⟩
      · cases list : s.pool.taskQueue.list with
        | nil =>
          simp only [SafeQueue.pop,list,ThreadPool.WorkerPc.popped.injEq] at popped
          cases congrArg Prod.snd popped
        | cons first rest =>
          simp only [SafeQueue.pop,list,ThreadPool.WorkerPc.popped.injEq] at popped
          exact .inr (.inr (.inr (.inl (by rw [list,popped]; exact List.mem_cons_self))))
      · cases runs
    · rw [movedOthers workers own] at working
      exact .inr (.inr (.inr (.inr ⟨v,working⟩)))

theorem waitDue {batch : List Ready} (from_ : batch.all (deliverable s.epoll))
    (due : WriteDue {s with loop := .batch batch, epoll := disarm s.epoll batch} fd) : WriteDue s fd := by
  rcases due with armed | ⟨mask,member,out⟩ | rest
  · simp only [disarm] at armed
    split at armed
    · cases registered : s.epoll fd <;> rw [registered] at armed <;> cases armed
    · exact .inl armed
  · have armed := List.all_eq_true.mp from_ _ member
    simp only [deliverable] at armed
    split at armed <;> try contradiction
    rename_i events registered
    cases events with
    | readEvent => simp [Mask.within,out] at armed
    | writeEvent => exact .inl registered
  · exact .inr (.inr rest)

theorem dispatchDue {w : ω} {task : ThreadPool.Task Int} (kinds : Kinds s) (popped : s.pool.workers w = .popped task)
    (runs : runsOn fd (ThreadPool.dispatch s.pool.funbox task) = true)
    (body : entry (ThreadPool.dispatch s.pool.funbox task) = .sending ∨
      entry (ThreadPool.dispatch s.pool.funbox task) = .rearming) : s.pool.workers w = .popped (1,some fd) := by
  obtain ⟨n,runs⟩ := runsOnIff.mp runs
  have named := dispatchRuns runs
  have kind := (kinds.popped w task popped (by rw [named]; rfl)).1
  obtain ⟨state,reqstruct⟩ := task
  cases named
  rw [popped]
  rcases kind with zero | one
  · simp only at zero
    subst zero
    simp only [ThreadPool.dispatch,kinds.funbox] at body
    rcases body with body | body <;> cases body
  · simp only at one
    rw [one]

theorem ctlDue {epoll : Int → Option Registration} {call : EpollCall} (quiet : ∀ g, call ≠ .modify g .writeEvent)
    (armed : epollCtl epoll call fd = some (.armed .writeEvent)) : epoll fd = some (.armed .writeEvent) := by
  cases call with
  | modify g events =>
    by_cases target : g = fd
    · subst target
      cases events with
      | writeEvent => exact absurd rfl (quiet g)
      | readEvent =>
        simp only [epollCtl,Function.update_self] at armed
        cases registered : epoll g <;> rw [registered] at armed <;> cases armed
    · rwa [ctlOther epoll (.modify g events) target] at armed
  | delete g =>
    by_cases target : g = fd
    · subst target
      simp [epollCtl] at armed
    · rwa [ctlOther epoll (.delete g) target] at armed

section Carried
variable [Fintype ω]

theorem dueOpen (covered : Covered s) (due : WriteDue s fd) : inService s fd = 1 := by
  rcases dueWeight due with some_ | ⟨w,one,_⟩
  · exact (covered.sole (by simp only [carriers]; omega)).1
  · exact (covered.owed one).1

theorem dueAlone (covered : Covered s) (due : WriteDue s fd) {w : ω} {state : Nat}
    (running : s.pool.workers w = .running state fd) (owes : (s.bodies w).owes = true) :
    s.bodies w = .sending ∨ s.bodies w = .rearming := by
  have own : owedBy fd (crew s.pool.workers s.bodies w) = 1 := by
    simp only [crew,running,owedBy,owes,and_self,if_true]
  rcases dueWeight due with some_ | ⟨v,one,kind⟩
  · have member := tallyMember (owedBy fd) (crew s.pool.workers s.bodies) w
    have some_ : 0 < carriers s fd := by simp only [carriers]; omega
    have total := (covered.sole some_).2
    simp only [carriers] at total
    omega
  · by_cases same : v = w
    · subst same
      exact kind.resolve_left (fun popped => by rw [running] at popped; cases popped)
    · have none := (covered.owed own).2.2 v same
      omega

theorem workDue {parse : Text → Except String Json} {cstate : ConnState} (covered : Covered s) {w : ω} {state : Nat} {userfd : Int} {te : TaskEvent} {conn : TcpConn} {body : Body}
    {calls : List EpollCall} {faults : List Fault} (running : s.pool.workers w = .running state userfd)
    (moves : TaskMoves parse cstate (s.users userfd) (s.bodies w) te conn body calls faults)
    (armed : calls.foldl epollCtl s.epoll fd = some (.armed .writeEvent)) : WriteDue s fd := by
  generalize before : s.bodies w = old at moves
  cases moves with
  | modify =>
    simp only [List.foldl_cons,List.foldl_nil] at armed
    by_cases own : userfd = fd
    · subst own
      exact .inr (.inr (.inr (.inr ⟨w,.inr ⟨runsOnIff.mpr ⟨state,running⟩,.inr before⟩⟩)))
    · have same := (covered.owing running (by rw [before]; rfl)).2.2
      rw [ctlOther s.epoll _ (by simpa only [TcpConn.updateEvents,EpollCall.target,same] using own)] at armed
      exact .inl armed
  | delete =>
    simp only [List.foldl_cons,List.foldl_nil] at armed
    exact .inl (ctlDue (by simp [TcpConn.removeFd]) armed)
  | resume =>
    simp only [List.foldl_cons,List.foldl_nil] at armed
    exact .inl (ctlDue (by simp [TcpConn.updateEvents]) armed)
  | _ => exact .inl armed

end Carried

section Steps
variable [DecidableEq ω] [Fintype ω] {parse : Text → Except String Json} {cstate : ConnState} {e : Event ω}

theorem readTask {sockfd : Int} {rest : List Ready} (taken : handleRead s sockfd rest = some s')
    (outside : s.pool.clients () = .outside) : s'.pool.clients () ≠ .checked (1,some fd) := by
  simp only [handleRead,handleTask] at taken
  split at taken
  · cases Option.some.inj taken
    rw [outside]
    exact fun same => by cases same
  · obtain ⟨pool,checks,taken⟩ := Option.bind_eq_some_iff.mp taken
    cases Option.some.inj taken
    cases ThreadPool.stepMoves checks with
    | checked =>
      simp only [Function.update_self]
      exact fun same => by cases same
    | refused =>
      rw [outside]
      exact fun same => by cases same

theorem writeTask {userfd : Int} {mask : Mask} {rest : List Ready}
    (here : s.loop = .batch (.client userfd mask :: rest)) (outside : s.pool.clients () = .outside)
    (stepped : step parse cstate s .handle = some s') (checked : s'.pool.clients () = .checked (1,some fd)) :
    mask.out = true := by
  simp only [step,Option.ite_none_right_eq_some,act,here] at stepped
  obtain ⟨_,stepped⟩ := stepped
  split at stepped
  · cases Option.some.inj stepped
    rw [outside] at checked
    cases checked
  · split at stepped
    · exact absurd checked (readTask stepped outside)
    · split at stepped
      · assumption
      · cases Option.some.inj stepped
        rw [outside] at checked
        cases checked

theorem movesDue (covered : Covered s) (kinds : Kinds s) (stepped : step parse cstate s e = some s') (due : WriteDue s' fd) :
    WriteDue s fd ∨
    ∃ w, runsOn fd (s.pool.workers w) = true ∧ s.bodies w = .parsing ∧ s'.bodies w = .rearming := by
  cases stepMoves parse cstate stepped with
  | wait idle distinct from_ => exact .inl (waitDue from_ due)
  | listening here | dropped here =>
    exact .inl (dueTurn due id (fun _ member => by rw [here]; exact List.mem_cons_of_mem _ member) rfl rfl)
  | @hangup userfd mask rest here hangs =>
    refine .inl (dueTurn due (fun armed => ?_) (fun _ member => by cases member) rfl rfl)
    by_cases own : fd = userfd
    · simp [own] at armed
    · simpa [own] using armed
  | noMore here | accepted here | addFails here =>
    exact .inl (dueTurn due id (fun _ member => by rw [here]; exact member) rfl rfl)
  | @added userfd rest here absent =>
    refine .inl (dueTurn due (fun armed => ?_) (fun _ member => by rw [here]; exact member) rfl rfl)
    by_cases own : fd = userfd
    · simp [own] at armed
    · simpa [own] using armed
  | tooHigh | threw => exact .inl due
  | @checked userfd state mask rest pool here calm kind outside appends =>
    subst appends
    left
    rcases due with armed | ⟨other,member,out⟩ | checked | rest
    · exact .inl armed
    · exact .inr (.inl ⟨other,by rw [here]; exact List.mem_cons_of_mem _ member,out⟩)
    · have out := writeTask here outside stepped checked
      simp only [Function.update_self,ThreadPool.ClientPc.checked.injEq,Prod.mk.injEq,Option.some.injEq] at checked
      exact .inr (.inl ⟨mask,by rw [here,← checked.2]; exact List.mem_cons_self,out⟩)
    · exact .inr (.inr (.inr rest))
  | @push task pool checked clients queue workers funbox =>
    obtain ⟨number,pushed⟩ := clients
    left
    rcases due with armed | pending | here | queued | working
    · exact .inl armed
    · exact .inr (.inl pending)
    · rw [pushed] at here
      cases here
    · rw [queue] at queued
      simp only [SafeQueue.push,List.mem_append,List.mem_singleton] at queued
      rcases queued with old | new
      · exact .inr (.inr (.inr (.inl old)))
      · exact .inr (.inr (.inl (by rw [checked,new])))
    · rw [workers] at working
      exact .inr (.inr (.inr (.inr working)))
  | @post rest pool here pushed clients queue workers funbox =>
    left
    rcases due with armed | ⟨mask,member,out⟩ | checked | queued | working
    · exact .inl armed
    · exact .inr (.inl ⟨mask,by rw [here]; exact member,out⟩)
    · rw [clients] at checked
      cases checked
    · exact .inr (.inr (.inr (.inl (queue ▸ queued))))
    · rw [workers] at working
      exact .inr (.inr (.inr (.inr working)))
  | worker before after workers clients queue funbox => exact .inl (workerDue due after workers clients queue)
  | pop ready workers clients queue funbox => exact .inl (popDue due workers clients queue)
  | @dispatch w task pool popped workers clients queue funbox =>
    refine .inl (duePool due clients (fun _ member => queue ▸ member) (fun v working => ?_))
    by_cases own : v = w
    · subst own
      simp only [workers,Function.update_self] at working
      rcases working with still | ⟨runs,body⟩
      · unfold ThreadPool.dispatch at still
        split at still
        · cases still
        · split at still <;> cases still
      · exact .inr (.inr (.inr (.inr ⟨v,.inl (dispatchDue kinds popped runs body)⟩)))
    · simp only [workers,Function.update_of_ne own] at working
      exact .inr (.inr (.inr (.inr ⟨v,working⟩)))
  | @task w te state userfd conn body calls faults running taken =>
    have moves := taskMoves parse cstate taken
    rcases due with armed | pending | checked | queued | ⟨v,popped | ⟨runs,doing⟩⟩
    · exact .inl (workDue covered running moves armed)
    · exact .inl (.inr (.inl pending))
    · exact .inl (.inr (.inr (.inl checked)))
    · exact .inl (.inr (.inr (.inr (.inl queued))))
    · exact .inl (.inr (.inr (.inr (.inr ⟨v,.inl popped⟩))))
    · by_cases own : v = w
      · subst own
        simp only [worked,Function.update_self] at doing
        refine .inr ⟨v,runs,?_⟩
        simp only [worked,Function.update_self]
        generalize s.bodies v = old at moves
        rcases doing with rfl | rfl
        · cases moves
        · cases moves
          exact ⟨rfl,rfl⟩
      · simp only [worked,Function.update_of_ne own] at doing
        exact .inl (.inr (.inr (.inr (.inr ⟨v,.inr ⟨runs,doing⟩⟩))))

end Steps

/- A call entered for an earlier connection of the descriptor has its `memset` of `m_buf` before it. -/
def Stale (t : Traced ω) (fd : Int) : Prop :=
  ∃ v, runsOn fd (t.server.pool.workers v) = true ∧ t.server.bodies v = .resetting ∧ t.marks.session v ≠ t.marks.gen fd

section Marks
variable {parse : Text → Except String Json} {cstate : ConnState} {c c' : TcpConn} {body body' : Body}
  {e : TaskEvent} {calls : List EpollCall} {faults : List Fault}

theorem taskBytes (marks : Marks ω) (fd : Int) (moves : TaskMoves parse cstate c body e c' body' calls faults) {i : Nat} {b : UInt8}
    (found : c'.mBuf[i]? = some b) (used : b ≠ 0) :
    (marks.task parse fd c e).bufFrom fd i = some (marks.gen fd) ∨
    (c.mBuf[i]? = some b ∧ (marks.task parse fd c e).bufFrom fd i = marks.bufFrom fd i ∧ body ≠ .resetting) := by
  have stored {array : Text} {j : Nat} (there : (array.set j 0)[i]? = some b) : array[i]? = some b := by
    rw [List.getElem?_set] at there
    split at there
    · split at there
      · exact absurd (Option.some.inj there).symm used
      · cases there
    · exact there
  cases moves with
  | @bytes data some_ fits =>
    have copied : (overwrite c.mBuf c.alllen data)[i]? = some b := by
      cases cstate with
      | LT => exact stored found
      | ET => exact found
    simp only [Marks.task,Function.update_self,arrived]
    by_cases new : c.alllen ≤ i ∧ i < c.alllen + data.length
    · exact .inl (if_pos new)
    · exact .inr ⟨overwriteOutside copied new,if_neg new,by decide⟩
  | eagain =>
    refine .inr ⟨?_,rfl,by decide⟩
    cases cstate with
    | LT => exact found
    | ET => exact stored found
  | eof | resetBuf => exact absurd (resetBlank c i b found) used
  | @answered request decoded known =>
    have kept : (c.reply request).1.mBuf = c.mBuf := by
      unfold TcpConn.reply
      split <;> rfl
    simp only [Marks.task,decoded,known,if_true]
    exact .inr ⟨kept ▸ found,trivial,by decide⟩
  | unanswered decoded unknown =>
    simp only [Marks.task,decoded,unknown,Bool.false_eq_true,if_false]
    exact .inr ⟨found,trivial,by decide⟩
  | _ => exact .inr ⟨found,rfl,by decide⟩

theorem taskReplies (marks : Marks ω) (fd : Int) (moves : TaskMoves parse cstate c body e c' body' calls faults) :
    ((marks.task parse fd c e).replyFrom fd = marks.replyFrom fd ∧ body' ≠ .rearming) ∨ body = .clearing ∨
    (e = .parse ∧ (marks.task parse fd c e).replyFrom fd = some (marks.gen fd) :: handed c (marks.bufFrom fd)) := by
  cases moves with
  | clear => exact .inr (.inl rfl)
  | answered decoded known =>
    simp only [Marks.task,decoded,known,if_true,Function.update_self]
    exact .inr (.inr ⟨trivial,trivial⟩)
  | unanswered decoded unknown =>
    simp only [Marks.task,decoded,unknown,Bool.false_eq_true,if_false]
    exact .inl ⟨trivial,by decide⟩
  | _ => exact .inl ⟨rfl,by decide⟩

end Marks

theorem actGen [DecidableEq ω] (parse : Text → Except String Json) (marks : Marks ω) (s : State ω) (e : Event ω) : (marks.act parse s e).gen = marks.gen := by
  unfold Marks.act
  split
  · split <;> rfl
  · split <;> rfl
  · split
    · exact (taskMarksGen ..).1
    · rfl
  · rfl

section Accounted
variable [DecidableEq ω] [Fintype ω] {parse : Text → Except String Json} {cstate : ConnState} {t t' : Traced ω}
  {e : Event ω}

theorem genStep (taken : tracedStep parse cstate t e = some t') (fd : Int) :
    t'.marks.gen fd = t.marks.gen fd ∨ (t.server.opened fd = false ∧ t'.marks.gen fd = t.marks.gen fd + 1) := by
  obtain ⟨s',stepped,rfl⟩ := Option.map_eq_some_iff.mp taken
  simp only [Marks.begin,actGen parse]
  split
  · rename_i begins
    simp only [opens,Bool.and_eq_true,Bool.not_eq_true'] at begins
    exact .inr ⟨begins.1,rfl⟩
  · exact .inl rfl

theorem genLe (taken : tracedStep parse cstate t e = some t') (fd : Int) : t.marks.gen fd ≤ t'.marks.gen fd := by
  rcases genStep taken fd with same | ⟨_,next⟩ <;> omega

theorem sessionKept (taken : tracedStep parse cstate t e = some t') {v : ω}
    (runs : runsOn fd (t.server.pool.workers v) = true) : t'.marks.session v = t.marks.session v := by
  obtain ⟨state,running⟩ := runsOnIff.mp runs
  obtain ⟨s',stepped,rfl⟩ := Option.map_eq_some_iff.mp taken
  change (t.marks.act parse t.server e).session v = t.marks.session v
  unfold Marks.act
  split
  · split <;> rfl
  · rename_i w
    split
    · rename_i popped
      have other : v ≠ w := by
        rintro rfl
        rw [running] at popped
        cases popped
      exact updateOthers v other
    · rfl
  · split
    · exact congrFun (taskMarksGen ..).2 v
    · rfl
  · rfl

theorem sessionStep (taken : tracedStep parse cstate t e = some t') {v : ω}
    (runs : runsOn fd (t'.server.pool.workers v) = true) :
    runsOn fd (t.server.pool.workers v) = true ∨ t'.marks.session v = t.marks.gen fd := by
  have moves := tracedMoves taken
  obtain ⟨s',stepped,rfl⟩ := Option.map_eq_some_iff.mp taken
  have calm {w : ω} {pc : ThreadPool.WorkerPc Int} (workers : s'.pool.workers = update t.server.pool.workers w pc)
      (idle : runsOn fd pc = false) : runsOn fd (t.server.pool.workers v) = true := by
    have other : v ≠ w := by
      rintro rfl
      simp only [workers,Function.update_self,idle] at runs
      cases runs
    simpa only [workers,Function.update_of_ne other] using runs
  cases moves with
  | checked here calm kind outside appends =>
    subst appends
    exact .inl runs
  | push _ _ _ workers => exact .inl (workers ▸ runs)
  | post _ _ _ _ workers => exact .inl (workers ▸ runs)
  | @worker _ w pc pool before after workers =>
    refine .inl (calm workers ?_)
    cases pc <;> first | rfl | cases after
  | pop ready workers => exact .inl (calm workers rfl)
  | @dispatch w task pool popped workers clients queue funbox =>
    by_cases own : v = w
    · subst own
      simp only [workers,Function.update_self] at runs
      obtain ⟨n,runs⟩ := runsOnIff.mp runs
      obtain ⟨state,reqstruct⟩ := task
      cases dispatchRuns runs
      right
      simp only [Marks.begin,Marks.act,popped,Function.update_self]
    · left
      simpa only [workers,Function.update_of_ne own] using runs
  | _ => exact .inl runs

/- The invariant of a run: who works for which connection, what lies in the slots
and what it is marked with. -/
structure Accounted (t : Traced ω) : Prop where
  covered : Covered t.server
  kinds : Kinds t.server
  tidy : Tidy t.server
  earlier : ∀ w fd, runsOn fd (t.server.pool.workers w) = true → t.marks.session w ≤ t.marks.gen fd
  current : ∀ fd i b, (t.server.users fd).mBuf[i]? = some b → b ≠ 0 →
    t.marks.bufFrom fd i = some (t.marks.gen fd) ∨ Stale t fd
  answers : ∀ fd, WriteDue t.server fd →
    t.marks.replyFrom fd ≠ [] ∧ ∀ mark ∈ t.marks.replyFrom fd, mark = some (t.marks.gen fd)

omit [DecidableEq ω] in
theorem Accounted.handed (accounted : Accounted t) (settled : Settled t fd) :
    ∀ mark ∈ handed (t.server.users fd) (t.marks.bufFrom fd), mark = some (t.marks.gen fd) := by
  intro mark member
  obtain ⟨i,inside,rfl⟩ := List.mem_map.mp member
  obtain ⟨b,found,used⟩ := cStringAt (List.mem_range.mp inside)
  exact (accounted.current fd i b found used).resolve_right (fun ⟨v,runs,resetting,stale⟩ => stale (settled v runs resetting))

theorem earlierStep (accounted : Accounted t) (taken : tracedStep parse cstate t e = some t') (w : ω) (fd : Int)
    (runs : runsOn fd (t'.server.pool.workers w) = true) : t'.marks.session w ≤ t'.marks.gen fd := by
  have grows := genLe taken fd
  rcases sessionStep taken runs with before | entered
  · rw [sessionKept taken before]
    exact Nat.le_trans (accounted.earlier w fd before) grows
  · rw [entered]
    exact grows

theorem acceptStale (accounted : Accounted t) (taken : tracedStep parse cstate t e = some t')
    (calls : CallsKept t.server t'.server fd) (closed : t.server.opened fd = false)
    (next : t'.marks.gen fd = t.marks.gen fd + 1) {i : Nat} {b : UInt8} (found : (t.server.users fd).mBuf[i]? = some b)
    (used : b ≠ 0) : Stale t' fd := by
  have unserved : inService t.server fd ≠ 1 := fun served => by
    rw [(serving.mp served).1] at closed
    cases closed
  rcases accounted.tidy fd with blank | ⟨v,runs,fill⟩ | stuck
  · exact absurd (blank i b found) used
  · obtain ⟨state,running⟩ := runsOnIff.mp runs
    have resetting : t.server.bodies v = .resetting :=
      (fillsOwes fill).resolve_left (fun owes => unserved (accounted.covered.owing running owes).1)
    obtain ⟨workers,bodies⟩ := calls v runs (fillsInside fill)
    have before := accounted.earlier v fd runs
    refine ⟨v,workers ▸ runs,bodies.trans resetting,?_⟩
    rw [sessionKept taken runs,next]
    omega
  · exact absurd stuck.1 unserved

theorem currentStep (accounted : Accounted t) (taken : tracedStep parse cstate t e = some t') (fd : Int) (i : Nat) (b : UInt8)
    (found : (t'.server.users fd).mBuf[i]? = some b) (used : b ≠ 0) :
    t'.marks.bufFrom fd i = some (t'.marks.gen fd) ∨ Stale t' fd := by
  cases slotMoves taken fd with
  | same buffer bufFrom _ calls =>
    rw [buffer] at found
    rcases genStep taken fd with same | ⟨closed,next⟩
    · rcases accounted.current fd i b found used with mark | ⟨v,runs,resetting,stale⟩
      · exact .inl (by rw [bufFrom,same,mark])
      · obtain ⟨workers,bodies⟩ := calls v runs (by rw [resetting]; decide)
        refine .inr ⟨v,workers ▸ runs,bodies.trans resetting,?_⟩
        rwa [sessionKept taken runs,same]
    · exact .inr (acceptStale accounted taken calls closed next found used)
  | unadded _ blank => exact absurd (blank i b found) used
  | @task w state te conn body calls faults _ running moves server marks =>
    have gen : t'.marks.gen fd = t.marks.gen fd := by rw [marks,(taskMarksGen ..).1]
    have users : t'.server.users fd = conn := by rw [server]; exact Function.update_self ..
    rw [users] at found
    rcases taskBytes t.marks fd moves found used with mark | ⟨before,kept,elsewhere⟩
    · exact .inl (by rw [marks,mark,(taskMarksGen ..).1])
    · rcases accounted.current fd i b before used with mark | ⟨v,runs,resetting,stale⟩
      · exact .inl (by rw [gen,marks,kept,mark])
      · have other : v ≠ w := by
          rintro rfl
          exact elsewhere resetting
        refine .inr ⟨v,?_,?_,?_⟩
        · rw [server]
          exact runs
        · rw [server]
          exact (updateOthers v other).trans resetting
        · rwa [sessionKept taken runs,gen]

theorem answersStep (accounted : Accounted t) (settled : ParsesSettled t e) (taken : tracedStep parse cstate t e = some t')
    (fd : Int) (due : WriteDue t'.server fd) :
    t'.marks.replyFrom fd ≠ [] ∧ ∀ mark ∈ t'.marks.replyFrom fd, mark = some (t'.marks.gen fd) := by
  have before := movesDue accounted.covered accounted.kinds (tracedServer taken) due
  have unmoved (calls : CallsKept t.server t'.server fd) : WriteDue t.server fd :=
    before.resolve_right (fun ⟨w,runs,parsing,rearming⟩ => by
      rw [(calls w runs (by rw [parsing]; decide)).2,parsing] at rearming
      cases rearming)
  cases slotMoves taken fd with
  | same _ _ replyFrom calls =>
    have held := unmoved calls
    rcases genStep taken fd with same | ⟨closed,_⟩
    · rw [replyFrom,same]
      exact accounted.answers fd held
    · rw [(serving.mp (dueOpen accounted.covered held)).1] at closed
      cases closed
  | unadded adds _ calls =>
    rw [(serving.mp (dueOpen accounted.covered (unmoved calls))).2] at adds
    cases adds
  | @task w state te conn body calls faults event running moves server marks =>
    have gen : t'.marks.gen fd = t.marks.gen fd := by rw [marks,(taskMarksGen ..).1]
    have own (none : t.server.bodies w = .parsing → body ≠ .rearming) : WriteDue t.server fd :=
      before.resolve_right (fun ⟨v,_,parsing,rearming⟩ => by
        rw [server] at rearming
        by_cases same : v = w
        · subst same
          exact none parsing (by simpa only [worked,Function.update_self] using rearming)
        · simp only [worked,Function.update_of_ne same] at rearming
          rw [parsing] at rearming
          cases rearming)
    rcases taskReplies t.marks fd moves with ⟨same,quiet⟩ | clearing | ⟨parses,replies⟩
    · rw [gen,marks,same]
      exact accounted.answers fd (own (fun _ => quiet))
    · have held := own (fun parsing => by rw [clearing] at parsing; cases parsing)
      rcases dueAlone accounted.covered held running (by rw [clearing]; rfl) with here | here <;>
        rw [clearing] at here <;> cases here
    · subst event parses
      simp only [ParsesSettled,running] at settled
      rw [gen,marks,replies]
      refine ⟨List.cons_ne_nil _ _,fun mark member => ?_⟩
      rcases List.mem_cons.mp member with rfl | rest
      · rfl
      · exact accounted.handed settled mark rest

theorem accountedStep (accounted : Accounted t) (settled : ParsesSettled t e) (taken : tracedStep parse cstate t e = some t') :
    Accounted t' where
  covered := movesCovered parse cstate accounted.covered (tracedMoves taken)
  kinds := movesKinds accounted.kinds (tracedMoves taken)
  tidy := tracedTidy accounted.covered accounted.tidy taken
  earlier := earlierStep accounted taken
  current := currentStep accounted taken
  answers := answersStep accounted settled taken

theorem initialAccounted (start : Initial t.server ∧ t.marks = .fresh) : Accounted t := by
  obtain ⟨begins,fresh⟩ := start
  obtain ⟨covered,full⟩ := initialCovered begins
  have looping := (initialPool begins).2.2.2
  refine ⟨covered,(initialServed begins).attended.kinds,initialTidy begins,fun w fd _ => ?_,fun fd i b found used => ?_,
    fun fd due => ?_⟩
  · rw [fresh]
    exact Nat.le_refl _
  · rw [begins.2.2.2.2.1 fd] at found
    exact absurd (zerosBlank found) used
  · have opened := (serving.mp (dueOpen covered due)).1
    rw [begins.2.2.1 fd] at opened
    cases opened

theorem writeSending {w : ω} {state : Nat} {written : Int} {s s' : State ω}
    (stepped : step parse cstate s (.task w (.write written)) = some s') (running : s.pool.workers w = .running state fd) :
    s.bodies w = .sending := by
  simp only [step,Option.ite_none_right_eq_some,act,running] at stepped
  cases here : s.bodies w <;> rw [here] at stepped <;> first | rfl | cases stepped.2

theorem isolatedStep (accounted : Accounted t) (settled : ParsesSettled t e) (taken : tracedStep parse cstate t e = some t') :
    Isolated t e := by
  cases e with
  | task w te =>
    simp only [Isolated]
    split <;> try trivial
    rename_i state fd running
    cases te with
    | parse =>
      simp only [ParsesSettled,running] at settled
      exact accounted.handed settled
    | write written =>
      have sending := writeSending (tracedServer taken) running
      exact fun _ => accounted.answers fd
        (.inr (.inr (.inr (.inr ⟨w,.inr ⟨runsOnIff.mpr ⟨state,running⟩,.inl sending⟩⟩))))
    | _ => trivial
  | _ => trivial

/- In a run in which `parseData` never runs while a call of an earlier connection
has still to reset the buffer, each client gets what is its own, whatever is
closed and accepted again in between. -/
theorem settledIsolates (start : Initial t.server ∧ t.marks = .fresh) (es : List (Event ω))
    (settled : (tracedSystem ω parse cstate).Throughout (fun t e _ => ParsesSettled t e) t es) :
    (tracedSystem ω parse cstate).Throughout (fun t e _ => Isolated t e) t es := by
  refine (tracedSystem ω parse cstate).throughoutOf (fun t e t' reached taken settled => ?_) (.init start) es settled
  have accounted : Accounted t := (tracedSystem ω parse cstate).invariant (fun _ => initialAccounted)
    (fun _ _ _ accounted settled taken => accountedStep accounted settled taken) reached
  exact isolatedStep accounted settled taken

end Accounted

def tracedStart : Traced Bool := ⟨sampleStart Bool,.fresh⟩

def leave (w : Bool) : List (Event Bool) := [.task w .resetBuf,.task w .resetLen,.finish w]
def hangUp : List (Event Bool) := [.wait [.client 5 hup],.handle]

def orderlyRun : List (Event Bool) :=
  connect Bool ++ deliver readable false ++ readRequest false ++ leave false ++ hangUp ++ connect Bool ++
  deliver readable true ++ readRequest true ++ leave true ++ deliver writable false ++ [.task false (.write 3)]

theorem orderlyIsolated :
    (tracedSystem Bool TcpConn.sampleParse .LT).Throughout (fun t e _ => Isolated t e) tracedStart orderlyRun ∧
    ((tracedSystem Bool TcpConn.sampleParse .LT).run tracedStart orderlyRun).map (fun t => t.marks.gen 5) = some 2 :=
  ⟨settledIsolates ⟨sampleInitial Bool,rfl⟩ orderlyRun (by decide +kernel),by decide +kernel⟩

def reacceptRun : List (Event Bool) :=
  connect Bool ++ deliver readable false ++ readRequest false ++ hangUp ++ connect Bool ++ deliver readable true ++
  [.task true .guard,.task true (.read (.bytes [0])),.task true (.read (.ends .eagain)),.task true .parse]

def replyOf (t : Traced Bool) : Nat × Text × List (Option Nat) :=
  (t.marks.gen 5,(t.server.users 5).pendingReply,(t.marks.replyFrom 5).dedup)

theorem reacceptLeaks :
    ¬ (tracedSystem Bool TcpConn.sampleParse .LT).Throughout (fun t e _ => Isolated t e) tracedStart reacceptRun ∧
    ((tracedSystem Bool TcpConn.sampleParse .LT).run tracedStart reacceptRun).map replyOf =
      some (2,ascii "[2]",[some 2,some 1]) := by
  decide +kernel

end SimpleChat.Server
