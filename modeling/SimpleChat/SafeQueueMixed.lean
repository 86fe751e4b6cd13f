import SimpleChat.SafeQueue

/-! Threads that call everything `SafeQueue` has on one queue, in whatever mode it
is. The semaphore counts what `push_b` inserts and `pop_b` waits for; `push`, `pop`
and `pop(int)` move items past it, and these are counted beside the run. -/
namespace SimpleChat.MixedQueue
open Basis (System tally tallyEnter tallyLeave tallySame tallyMember)
open BlockingQueue (Pc Reader inGapOfPush inGapOfPop)
open Function (update)

inductive Event (ι α : Type) where
  | setblock (t : ι) (initialised : Bool)
  | push (t : ι) (value : α)
  | pop (t : ι)
  | popNum (t : ι) (num : Int)
  | pushB (t : ι) (value : α)
  | post (t : ι)
  | wait (t : ι)
  | popB (t : ι)
  | read (t : ι) (reader : Reader)
  deriving DecidableEq, Repr

/- `pushed` and `popped` count the items that went past the semaphore, `missed` the
calls of `pop_b` that threw. -/
structure State (ι α : Type) where
  queue : SafeQueue α
  pcs : ι → Pc
  inserted : List α
  removed : List α
  pushed : Nat
  popped : Nat
  missed : Nat

variable {ι α : Type} [DecidableEq ι] [Inhabited α]

def takeOut (s : State ι α) (queue : SafeQueue α) (values : List α) : State ι α :=
  {s with queue := queue, removed := s.removed ++ values, popped := s.popped + values.length}

/- `sem_post` and `sem_wait` have no result before `sem_init`. What `pop_b` throws
leaves the thread free to go on. -/
def step (s : State ι α) : Event ι α → Option (State ι α)
  | .setblock t initialised =>
      if s.pcs t = .outside then match s.queue.setblock initialised with
        | .error _ => some s
        | .ok queue => some {s with queue := queue}
      else none
  | .push t value =>
      if s.pcs t = .outside then
        some {s with queue := s.queue.push value, inserted := s.inserted ++ [value], pushed := s.pushed + 1}
      else none
  | .pop t =>
      if s.pcs t = .outside then match s.queue.list with
        | [] => some s
        | _ :: _ => some (takeOut s s.queue.pop.2 [s.queue.pop.1])
      else none
  | .popNum t num =>
      if s.pcs t = .outside then do
        let popped ← s.queue.popNum num
        some (takeOut s popped.2 popped.1)
      else none
  | .pushB t value =>
      if s.pcs t = .outside then
        some {s with queue := s.queue.push value, pcs := update s.pcs t .inserted, inserted := s.inserted ++ [value]}
      else none
  | .post t =>
      if s.pcs t = .inserted then do
        let queue ← s.queue.semPost
        some {s with queue := queue, pcs := update s.pcs t .outside}
      else none
  | .wait t =>
      if s.pcs t = .outside then do
        let queue ← s.queue.semWait
        some {s with queue := queue, pcs := update s.pcs t .admitted}
      else none
  | .popB t =>
      if s.pcs t = .admitted then match s.queue.removeB with
        | .error _ => some {s with pcs := update s.pcs t .outside, missed := s.missed + 1}
        | .ok (value,queue) =>
            some {s with queue := queue, pcs := update s.pcs t .outside, removed := s.removed ++ [value]}
      else none
  | .read t _ => if s.pcs t = .outside then some s else none

def Initial (s : State ι α) : Prop :=
  (s.queue = .new ∨ ∃ maxCount, s.queue = .withMax maxCount) ∧ (∀ t, s.pcs t = .outside) ∧
  s.inserted = [] ∧ s.removed = [] ∧ s.pushed = 0 ∧ s.popped = 0 ∧ s.missed = 0

def system (ι α : Type) [DecidableEq ι] [Inhabited α] : System (State ι α) (Event ι α) := ⟨Initial,step⟩

variable [Fintype ι] {s s' : State ι α}

structure Counted (s : State ι α) : Prop where
  mode : s.queue.isblock = s.queue.mSem.isSome
  quiet : s.queue.mSem = none → tally inGapOfPop s.pcs = 0
  order : s.removed ++ s.queue.list = s.inserted
  count : s.queue.mSem.getD 0 + tally inGapOfPop s.pcs + tally inGapOfPush s.pcs + s.pushed + s.missed =
    s.queue.list.length + s.popped

omit [DecidableEq ι] [Inhabited α] in
theorem takeOutCounted (counted : Counted s) {queue : SafeQueue α} {values : List α} (mode : queue.isblock = s.queue.isblock)
    (sem : queue.mSem = s.queue.mSem) (took : values ++ queue.list = s.queue.list) : Counted (takeOut s queue values) := by
  have length := congrArg List.length took
  rw [List.length_append] at length
  have count := counted.count
  refine ⟨by simp only [takeOut,mode,sem,counted.mode],by simpa only [takeOut,sem] using counted.quiet,?_,?_⟩
  · simp only [takeOut,List.append_assoc,took,counted.order]
  · simp only [takeOut,sem]
    omega

omit [Inhabited α] in
theorem movedGaps (pcs : ι → Pc) (pc : Pc) {t : ι} {old : Pc} (here : pcs t = old) :
    tally inGapOfPop (update pcs t pc) + inGapOfPop old = tally inGapOfPop pcs + inGapOfPop pc ∧
    tally inGapOfPush (update pcs t pc) + inGapOfPush old = tally inGapOfPush pcs + inGapOfPush pc :=
  ⟨here ▸ Basis.tallyUpdate inGapOfPop pcs t pc,here ▸ Basis.tallyUpdate inGapOfPush pcs t pc⟩

theorem stepCounted {e : Event ι α} (counted : Counted s) (taken : step s e = some s') : Counted s' := by
  obtain ⟨mode,quiet,order,count⟩ := id counted
  cases e with
  | setblock t initialised =>
    simp only [step,Option.ite_none_right_eq_some] at taken
    obtain ⟨_,taken⟩ := taken
    split at taken
    · cases Option.some.inj taken
      exact counted
    · rename_i queue done
      cases Option.some.inj taken
      obtain ⟨list,sem,block⟩ := SafeQueue.setblockFresh done
      have off : s.queue.mSem = none := by
        cases known : s.queue.mSem with
        | none => rfl
        | some value =>
          rw [SafeQueue.setblock,if_pos (by rw [mode,known]; rfl)] at done
          cases done
      rw [off,Option.getD_none] at count
      refine ⟨by simp only [block,sem,Option.isSome_some],fun none => ?_,by simp only [list,order],?_⟩
      · simp only [sem] at none
        cases none
      · simp only [sem,list,Option.getD_some]
        exact count
  | push t value =>
    simp only [step,Option.ite_none_right_eq_some,Option.some.injEq] at taken
    obtain ⟨_,rfl⟩ := taken
    refine ⟨mode,quiet,?_,?_⟩
    · simp only [SafeQueue.push,← List.append_assoc,order]
    · simp only [SafeQueue.push,List.length_append,List.length_singleton]
      omega
  | pop t =>
    simp only [step,Option.ite_none_right_eq_some] at taken
    obtain ⟨_,taken⟩ := taken
    split at taken
    · cases Option.some.inj taken
      exact counted
    · rename_i value rest list
      cases Option.some.inj taken
      simp only [SafeQueue.pop,list]
      exact takeOutCounted counted rfl rfl list.symm
  | popNum t num =>
    simp only [step,Option.ite_none_right_eq_some] at taken
    obtain ⟨_,popped,took,last⟩ := taken.imp_right Option.bind_eq_some_iff.mp
    cases Option.some.inj last
    rw [SafeQueue.popNumTakes] at took
    cases Option.some.inj took
    exact takeOutCounted counted rfl rfl (List.take_append_drop _ _)
  | pushB t value =>
    simp only [step,Option.ite_none_right_eq_some,Option.some.injEq] at taken
    obtain ⟨here,rfl⟩ := taken
    obtain ⟨pops,pushes⟩ := movedGaps s.pcs .inserted here
    simp only [inGapOfPop,inGapOfPush] at pops pushes
    refine ⟨mode,fun off => pops.trans (quiet off),?_,?_⟩
    · simp only [SafeQueue.push,← List.append_assoc,order]
    · simp only [SafeQueue.push,List.length_append,List.length_singleton]
      omega
  | post t =>
    simp only [step,Option.ite_none_right_eq_some] at taken
    obtain ⟨here,queue,posted,last⟩ := taken.imp_right Option.bind_eq_some_iff.mp
    cases Option.some.inj last
    obtain ⟨value,sem,last⟩ := Option.bind_eq_some_iff.mp posted
    cases Option.some.inj last
    obtain ⟨pops,pushes⟩ := movedGaps s.pcs .outside here
    simp only [inGapOfPop,inGapOfPush] at pops pushes
    rw [sem,Option.getD_some] at count
    refine ⟨by rw [mode,sem]; rfl,fun off => absurd off (by simp),order,?_⟩
    simp only [Option.getD_some]
    omega
  | wait t =>
    simp only [step,Option.ite_none_right_eq_some] at taken
    obtain ⟨here,queue,waited,last⟩ := taken.imp_right Option.bind_eq_some_iff.mp
    cases Option.some.inj last
    obtain ⟨value,sem,last⟩ := Option.bind_eq_some_iff.mp waited
    simp only [Option.ite_none_right_eq_some,Option.some.injEq] at last
    obtain ⟨positive,rfl⟩ := last
    obtain ⟨pops,pushes⟩ := movedGaps s.pcs .admitted here
    simp only [inGapOfPop,inGapOfPush] at pops pushes
    rw [sem,Option.getD_some] at count
    refine ⟨by rw [mode,sem]; rfl,fun off => absurd off (by simp),order,?_⟩
    simp only [Option.getD_some]
    omega
  | popB t =>
    simp only [step,Option.ite_none_right_eq_some] at taken
    obtain ⟨here,taken⟩ := taken
    obtain ⟨pops,pushes⟩ := movedGaps s.pcs .outside here
    simp only [inGapOfPop,inGapOfPush] at pops pushes
    have still (off : s.queue.mSem = none) : tally inGapOfPop (update s.pcs t .outside) = 0 := by
      have none := quiet off
      omega
    cases list : s.queue.list with
    | nil =>
      simp only [SafeQueue.removeB,list,Option.some.injEq] at taken
      subst taken
      refine ⟨mode,still,order,?_⟩
      simp only
      omega
    | cons value rest =>
      simp only [SafeQueue.removeB,list,Option.some.injEq] at taken
      subst taken
      rw [list] at order count
      refine ⟨mode,still,by simpa using order,?_⟩
      simp only [List.length_cons] at count ⊢
      omega
  | read t reader =>
    simp only [step,Option.ite_none_right_eq_some,Option.some.injEq] at taken
    obtain ⟨_,rfl⟩ := taken
    exact counted

omit [DecidableEq ι] [Inhabited α] in
theorem initialCounted (start : Initial s) : Counted s := by
  obtain ⟨queue,outside,inserted,removed,pushed,popped,missed⟩ := start
  have pushes : tally inGapOfPush s.pcs = 0 := (Basis.tallyZero _ _).mpr (fun t => by rw [outside t]; rfl)
  have pops : tally inGapOfPop s.pcs = 0 := (Basis.tallyZero _ _).mpr (fun t => by rw [outside t]; rfl)
  rcases queue with queue | ⟨maxCount,queue⟩ <;>
    exact ⟨by rw [queue]; rfl,fun _ => pops,by rw [queue,inserted,removed]; rfl,
      by rw [queue,pushes,pops,pushed,popped,missed]; rfl⟩

/- How far the two ways of using one queue may be mixed. The order is first in,
first out for both together. `pop_b` meets an empty list only when more items have
been taken past the semaphore than put past it; and between the calls the tokens
are as many as the items exactly when the two numbers agree, each throw making up
for one item. -/
theorem mixedExactly (reached : (system ι α).Reachable s) :
    s.removed ++ s.queue.list = s.inserted ∧
    (∀ t message, s.pcs t = .admitted → s.queue.removeB = .error message → s.pushed + s.missed < s.popped) ∧
    ((∀ t, s.pcs t = .outside) → ((s.queue.mSem.getD 0 = s.queue.list.length ↔ s.popped = s.pushed + s.missed) ∧
      (s.queue.mSem.getD 0 = 0 → s.queue.list.length + s.popped = s.pushed + s.missed))) := by
  have counted : Counted s :=
    (system ι α).invariant (fun _ => initialCounted) (fun _ _ _ counted _ => stepCounted counted) reached
  have count := counted.count
  refine ⟨counted.order,fun t message here threw => ?_,fun outside => ?_⟩
  · have taker : 0 < tally inGapOfPop s.pcs :=
      Nat.lt_of_lt_of_le (by rw [here]; exact Nat.one_pos) (tallyMember inGapOfPop s.pcs t)
    cases list : s.queue.list with
    | nil =>
      rw [list,List.length_nil] at count
      omega
    | cons value rest =>
      simp only [SafeQueue.removeB,list] at threw
      cases threw
  · have pushes : tally inGapOfPush s.pcs = 0 := (Basis.tallyZero _ _).mpr (fun t => by rw [outside t]; rfl)
    have pops : tally inGapOfPop s.pcs = 0 := (Basis.tallyZero _ _).mpr (fun t => by rw [outside t]; rfl)
    rw [pushes,pops] at count
    exact ⟨⟨fun same => by omega,fun same => by omega⟩,fun none => by omega⟩

def sampleMixed : List (Event Bool Nat) :=
  [.setblock true true,.pushB true 7,.post true,.wait false,.pop true]

theorem mixedThrows : ∃ s : State Bool Nat,
    (system Bool Nat).run ⟨.new,fun _ => .outside,[],[],0,0,0⟩ sampleMixed = some s ∧
    s.queue.removeB = .error "list is empty!" ∧ s.pushed + s.missed < s.popped := by
  have reached := (system Bool Nat).runReachable (s := ⟨.new,fun _ => .outside,[],[],0,0,0⟩)
    (.init ⟨.inl rfl,fun _ => rfl,rfl,rfl,rfl,rfl,rfl⟩) sampleMixed rfl
  exact ⟨_,rfl,rfl,(mixedExactly reached).2.1 false _ rfl rfl⟩

end SimpleChat.MixedQueue
