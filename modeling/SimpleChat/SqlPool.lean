import SimpleChat.SafeQueue

/-! `SqlConnectionPool` and its guard `sqlRAII`. Every `read_once` task builds
one guard on the `m_sql` of its own object and destroys it when it returns; a
task is the thread that runs it. A guard is followed with the connection its
`GetConnection` returned, which the code itself keeps in the object only. -/
namespace SimpleChat.SqlPool
open Basis (System tally tallyUpdate tallySame tallyMember movedCases)
open Function (update)

abbrev MysqlPtr := Option Nat

structure Attempt where
  initialised : MysqlPtr
  connected : MysqlPtr
  deriving DecidableEq, Repr

def connect (conlist : SafeQueue MysqlPtr) : List Attempt → Except String (SafeQueue MysqlPtr)
  | [] => .ok conlist
  | attempt :: rest =>
      if attempt.initialised = none then .error "mysql_init failed"
      else if attempt.connected = none then .error "mysql_real_connect failed"
      else
        let pushed := conlist.push attempt.connected
        connect (pushed.semPost.getD pushed) rest

def init (semInit : Bool) (attempts : List Attempt) (conlist : SafeQueue MysqlPtr) :
    Except String (SafeQueue MysqlPtr) := do
  let blocking ← conlist.setblock semInit
  connect blocking attempts

/- Where a task is in the life of its guard; `old` is the guard's own `m_sql`. -/
inductive GuardPc (κ : Type) where
  | absent
  | saved (conn : κ) (old : MysqlPtr)
  | admitted (conn : κ) (old : MysqlPtr)
  | popped (conn : κ) (old con : MysqlPtr)
  | alive (conn : κ) (old con : MysqlPtr)
  | pushed
  | threw (message : String)
  deriving DecidableEq, Repr

structure State (ω κ : Type) where
  conlist : SafeQueue MysqlPtr
  mSql : κ → MysqlPtr
  guards : ω → GuardPc κ

inductive Event (ω κ : Type) where
  | construct (t : ω) (conn : κ)
  | wait (t : ω)
  | pop (t : ω)
  | assign (t : ω)
  | destroy (t : ω)
  | post (t : ω)
  deriving DecidableEq, Repr

variable {ω κ : Type}

section Step
variable [DecidableEq ω] [DecidableEq κ]

def step (s : State ω κ) : Event ω κ → Option (State ω κ)
  | .construct t conn => match s.guards t with
      | .absent => some {s with guards := update s.guards t (.saved conn (s.mSql conn))}
      | _ => none
  | .wait t => match s.guards t with
      | .saved conn old => do
          let conlist ← s.conlist.semWait
          some {s with conlist := conlist, guards := update s.guards t (.admitted conn old)}
      | _ => none
  | .pop t => match s.guards t with
      | .admitted conn old => match s.conlist.removeB with
          | .error message => some {s with guards := update s.guards t (.threw message)}
          | .ok (con,conlist) =>
              some {s with conlist := conlist, guards := update s.guards t (.popped conn old con)}
      | _ => none
  | .assign t => match s.guards t with
      | .popped conn old con =>
          some {s with mSql := update s.mSql conn con, guards := update s.guards t (.alive conn old con)}
      | _ => none
  -- The destructor gives back the saved pointer.
  | .destroy t => match s.guards t with
      | .alive _ old _ => some {s with conlist := s.conlist.push old, guards := update s.guards t .pushed}
      | _ => none
  | .post t => match s.guards t with
      | .pushed => do
          let conlist ← s.conlist.semPost
          some {s with conlist := conlist, guards := update s.guards t .absent}
      | _ => none

def Initial (connections : List Nat) (s : State ω κ) : Prop :=
  connections.Nodup ∧
  init true (connections.map (fun c => ⟨some c,some c⟩)) .new = .ok s.conlist ∧
  (∀ conn, s.mSql conn = none) ∧ ∀ t, s.guards t = .absent

def system (ω κ : Type) [DecidableEq ω] [DecidableEq κ] (connections : List Nat) :
    System (State ω κ) (Event ω κ) := ⟨Initial connections,step⟩

end Step

def GuardPc.held : GuardPc κ → Option MysqlPtr
  | .popped _ _ con | .alive _ _ con => some con
  | _ => none

def GuardPc.old? : GuardPc κ → MysqlPtr
  | .saved _ old | .admitted _ old | .popped _ old _ | .alive _ old _ => old
  | _ => none

def holds (con : MysqlPtr) (pc : GuardPc κ) : Nat := if pc.held = some con then 1 else 0

variable [Fintype ω]

structure Conserves (connections : List Nat) (s : State ω κ) : Prop where
  idle : (∀ t, (s.guards t).held = none) → s.conlist.list.Perm (connections.map some)
  once : ∀ c ∈ connections, s.conlist.list.count (some c) + tally (holds (some c)) s.guards = 1
  noNull : none ∉ s.conlist.list
  taken : ∀ t, (s.guards t).held ≠ some none

def NotDestroyed : Event ω κ → Prop
  | .destroy _ => False
  | _ => True

/- Before the first destructor every pointer is where it started or in the
hands of one guard, and a pointer that an object or a guard kept from an
earlier guard is still in the hands of that one. -/
structure Kept (connections : List Nat) (s : State ω κ) : Prop where
  distinct : connections.Nodup
  total : ∀ con, s.conlist.list.count con + tally (holds con) s.guards = (connections.map some).count con
  object : ∀ conn con, s.mSql conn = some con → ∃ t, (s.guards t).held = some (some con)
  saved : ∀ t con, (s.guards t).old? = some con → ∃ u, u ≠ t ∧ (s.guards u).held = some (some con)

theorem Kept.conserves {connections : List Nat} {s : State ω κ} (kept : Kept connections s) :
    Conserves connections s := by
  have null : (connections.map some).count none = 0 := List.count_eq_zero.mpr (by simp)
  have noNull := kept.total none
  refine ⟨fun idle => List.perm_iff_count.mpr (fun con => ?_),fun c member => ?_,?_,fun t null => ?_⟩
  · have nobody : tally (holds con) s.guards = 0 :=
      (Basis.tallyZero _ _).mpr (fun t => if_neg (by rw [idle t]; exact nofun))
    have total := kept.total con
    omega
  · rw [kept.total (some c)]
    exact List.count_eq_one_of_mem (kept.distinct.map (Option.some_injective _)) (List.mem_map_of_mem member)
  · exact List.count_eq_zero.mp (by omega)
  · have one : holds none (s.guards t) = 1 := if_pos null
    have member := tallyMember (holds none) s.guards t
    omega

theorem connectList {connections : List Nat} {q q' : SafeQueue MysqlPtr}
    (done : connect q (connections.map (fun c => ⟨some c,some c⟩)) = .ok q') :
    q'.list = q.list ++ connections.map some := by
  induction connections generalizing q with
  | nil => cases done; simp
  | cons c rest ih =>
    simp only [List.map_cons,connect,reduceCtorEq,if_false] at done
    rw [ih done]
    cases value : q.mSem <;> simp [SafeQueue.semPost,SafeQueue.push,value]

theorem initialKept {connections : List Nat} {s : State ω κ} (start : Initial connections s) :
    Kept connections s := by
  obtain ⟨distinct,made,fresh,absent⟩ := start
  have list : s.conlist.list = connections.map some := connectList made
  refine ⟨distinct,fun con => ?_,fun conn con here => ?_,fun t con here => ?_⟩
  · have nobody : tally (holds con) s.guards = 0 :=
      (Basis.tallyZero _ _).mpr (fun t => by rw [absent t]; rfl)
    rw [list,nobody,Nat.add_zero]
  · rw [fresh conn] at here
    contradiction
  · rw [absent t] at here
    contradiction

variable [DecidableEq ω]

theorem Kept.advance {connections : List Nat} {s s' : State ω κ} (kept : Kept connections s) {t : ω}
    {pc : GuardPc κ} (guards : s'.guards = update s.guards t pc) (held : pc.held = (s.guards t).held)
    (list : s'.conlist.list = s.conlist.list)
    (object : ∀ conn con, s'.mSql conn = some con → ∃ t, (s.guards t).held = some (some con))
    (saved : ∀ con, pc.old? = some con → ∃ u, u ≠ t ∧ (s.guards u).held = some (some con)) :
    Kept connections s' := by
  have same : ∀ u, (s'.guards u).held = (s.guards u).held := by
    intro u
    rw [guards]
    by_cases here : u = t
    · rw [here,Function.update_self,held]
    · rw [Function.update_of_ne here]
  refine ⟨kept.distinct,fun con => ?_,fun conn con here => ?_,fun u con here => ?_⟩
  · have still : tally (holds con) s'.guards = tally (holds con) s.guards := by
      rw [guards]; exact tallySame (by simp only [holds,held])
    rw [list,still]
    exact kept.total con
  · obtain ⟨v,has⟩ := object conn con here
    exact ⟨v,(same v).trans has⟩
  · rw [guards] at here
    by_cases which : u = t
    · rw [which,Function.update_self] at here
      obtain ⟨v,other,has⟩ := saved con here
      exact ⟨v,which ▸ other,(same v).trans has⟩
    · rw [Function.update_of_ne which] at here
      obtain ⟨v,other,has⟩ := kept.saved u con here
      exact ⟨v,other,(same v).trans has⟩

theorem Kept.popped {connections : List Nat} {s : State ω κ} (kept : Kept connections s) {t : ω} {conn : κ}
    {old con : MysqlPtr} {conlist : SafeQueue MysqlPtr} (here : s.guards t = .admitted conn old)
    (list : s.conlist.list = con :: conlist.list) :
    Kept connections {s with conlist := conlist, guards := update s.guards t (.popped conn old con)} := by
  have still : ∀ {u : ω} {p : Nat}, (s.guards u).held = some (some p) →
      (update s.guards t (.popped conn old con) u).held = some (some p) := by
    intro u p has
    have other : u ≠ t := by rintro rfl; rw [here] at has; contradiction
    rw [Function.update_of_ne other]
    exact has
  refine ⟨kept.distinct,fun p => ?_,fun o p mine => ?_,fun u p mine => ?_⟩
  · have total := kept.total p
    have moved := tallyUpdate (holds p) s.guards t (.popped conn old con)
    have before : holds p (s.guards t) = 0 := by rw [here]; rfl
    have after : holds p (GuardPc.popped conn old con) = if con = p then 1 else 0 := by
      simp only [holds,GuardPc.held,Option.some.injEq]
    rw [list,List.count_cons] at total
    simp only [beq_iff_eq] at total
    change conlist.list.count p + tally (holds p) (update s.guards t (.popped conn old con)) = _
    omega
  · obtain ⟨v,has⟩ := kept.object o p mine
    exact ⟨v,still has⟩
  · have before : (s.guards u).old? = some p := by
      by_cases which : u = t
      · subst which
        rw [here]
        simpa [GuardPc.old?] using mine
      · simpa only [Function.update_of_ne which] using mine
    obtain ⟨v,other,has⟩ := kept.saved u p before
    exact ⟨v,other,still has⟩

variable [DecidableEq κ]

theorem stepKept {connections : List Nat} {s s' : State ω κ} {e} (kept : Kept connections s)
    (open_ : NotDestroyed e) (taken : step s e = some s') : Kept connections s' := by
  cases e with
  | construct t conn =>
    simp only [step] at taken
    split at taken <;> try contradiction
    rename_i absent
    cases Option.some.inj taken
    refine kept.advance rfl (by rw [absent]; rfl) rfl kept.object (fun con mine => ?_)
    obtain ⟨v,has⟩ := kept.object conn con mine
    exact ⟨v,by rintro rfl; rw [absent] at has; contradiction,has⟩
  | wait t =>
    simp only [step] at taken
    split at taken <;> try contradiction
    rename_i conn old here
    simp only [SafeQueue.semWait,bind,Option.bind_eq_some_iff,Option.ite_none_right_eq_some,Option.some.injEq] at taken
    obtain ⟨_,⟨value,_,_,rfl⟩,rfl⟩ := taken
    exact kept.advance rfl (by rw [here]; rfl) rfl kept.object (fun con mine => kept.saved t con (here ▸ mine))
  | pop t =>
    simp only [step] at taken
    split at taken <;> try contradiction
    rename_i conn old here
    unfold SafeQueue.removeB at taken
    cases list : s.conlist.list with
    | nil =>
      rw [list] at taken
      cases Option.some.inj taken
      exact kept.advance rfl (by rw [here]; rfl) rfl kept.object (fun con mine => by contradiction)
    | cons con rest =>
      rw [list] at taken
      cases Option.some.inj taken
      exact kept.popped here list
  | assign t =>
    simp only [step] at taken
    split at taken <;> try contradiction
    rename_i conn old con here
    cases Option.some.inj taken
    refine kept.advance rfl (by rw [here]; rfl) rfl (fun o p mine => ?_) (fun p mine => kept.saved t p (here ▸ mine))
    rcases movedCases mine with ⟨_,own⟩ | ⟨_,before⟩
    · exact ⟨t,by rw [here,own]; rfl⟩
    · exact kept.object o p before
  | destroy t => exact absurd open_ id
  | post t =>
    simp only [step] at taken
    split at taken <;> try contradiction
    rename_i here
    simp only [SafeQueue.semPost,bind,Option.bind_eq_some_iff,Option.some.injEq] at taken
    obtain ⟨_,⟨value,_,rfl⟩,rfl⟩ := taken
    exact kept.advance rfl (by rw [here]; rfl) rfl kept.object (fun con mine => by contradiction)

theorem destroyLoses {connections : List Nat} {s s' : State ω κ} {t : ω} (kept : Kept connections s)
    (taken : step s (.destroy t) = some s') : ¬ Conserves connections s' := by
  simp only [step] at taken
  split at taken <;> try contradiction
  rename_i conn old con here
  cases Option.some.inj taken
  have mine : holds con (s.guards t) = 1 := by rw [here]; exact if_pos rfl
  have bound := tallyMember (holds con) s.guards t
  have total := kept.total con
  have present : con ∈ connections.map some := List.count_pos_iff.mp (by omega)
  obtain ⟨c,member,rfl⟩ := List.mem_map.mp present
  rw [List.count_eq_one_of_mem (kept.distinct.map (Option.some_injective _)) present] at total
  have other : old ≠ some c := by
    rintro rfl
    obtain ⟨u,different,has⟩ := kept.saved t c (by rw [here]; rfl)
    have pair := Basis.tallyPair (holds (some c)) s.guards different
    have one : holds (some c) (s.guards u) = 1 := if_pos has
    omega
  intro conserves
  have moved := tallyUpdate (holds (some c)) s.guards t .pushed
  have after : holds (some c) (GuardPc.pushed : GuardPc κ) = 0 := rfl
  have once := conserves.once c member
  simp only [SafeQueue.push,List.count_append,List.count_singleton,beq_iff_eq,other,if_false] at once
  omega

theorem reachKept {connections : List Nat} {s : State ω κ}
    (reached : (system ω κ connections).Reach (fun _ => NotDestroyed) s) : Kept connections s :=
  (system ω κ connections).invariant (fun _ => initialKept)
    (fun _ _ _ kept open_ taken => stepKept kept open_ taken) reached

/- The guards conserve the pool in exactly the runs in which none is destroyed. -/
theorem poolConservedIff {connections : List Nat} {s : State ω κ} (start : Initial connections s)
    (es : List (Event ω κ)) :
    (system ω κ connections).Throughout (fun _ _ s' => Conserves connections s') s es ↔
    (system ω κ connections).Throughout (fun _ e _ => NotDestroyed e) s es := by
  refine (system ω κ connections).throughoutExact (fun s e s' reached taken => ?_) (.init start) es
  have kept := reachKept reached
  constructor
  · intro conserves
    cases e with
    | destroy t => exact destroyLoses kept taken conserves
    | _ => trivial
  · exact fun open_ => (stepKept kept open_ taken).conserves

def sampleStart : State Unit Unit := ⟨⟨[some 7,some 8],some 2,true,-1⟩,fun _ => none,fun _ => .absent⟩

theorem sampleInitial : Initial [7,8] sampleStart := ⟨by decide,rfl,fun _ => rfl,fun _ => rfl⟩

def oneTask : List (Event Unit Unit) := [.construct () (),.wait (),.pop (),.assign (),.destroy (),.post ()]

theorem samplePoolIff :
    (system Unit Unit [7,8]).Throughout (fun _ _ s' => Conserves [7,8] s') sampleStart oneTask ↔
    (system Unit Unit [7,8]).Throughout (fun _ e _ => NotDestroyed e) sampleStart oneTask :=
  poolConservedIff sampleInitial oneTask

theorem firstTaskFreesNull :
    ∃ s, (system Unit Unit [7,8]).Reachable s ∧ (∀ t, s.guards t = .absent) ∧
      s.conlist.list = [some 8,none] ∧ ¬ Conserves [7,8] s := by
  have ends : ((system Unit Unit [7,8]).run sampleStart oneTask).map (fun s => (s.guards (),s.conlist.list)) =
      some (.absent,[some 8,none]) := by decide +kernel
  obtain ⟨s,ran,final⟩ := Option.map_eq_some_iff.mp ends
  obtain ⟨absent,list⟩ := Prod.mk.inj final
  exact ⟨s,(system Unit Unit [7,8]).runReachable (.init sampleInitial) _ ran,fun _ => absent,list,
    fun conserves => conserves.noNull (by simp [list])⟩

end SimpleChat.SqlPool
