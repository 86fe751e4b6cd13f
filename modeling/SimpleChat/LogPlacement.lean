import SimpleChat.LogTrace

/-! The file a record goes to. `write_log` gives up `m_mutex` between its rotation
section and its write, and the queue delays the write further, so another call
may change the file while a record is on its way. -/
namespace SimpleChat.Log
open Basis (System)
open Function (update)

variable {ω : Type}

def WriterPc.onWay? : WriterPc → Option Nat
  | .rotated call _ => some call
  | .formatted record | .pushing record | .direct record => some record.call
  | _ => none

inductive OnItsWay (s : State ω) (call : Nat) : Prop where
  | writer {w : ω} (here : (s.writers w).onWay? = some call)
  | queued {record : Record} (member : record ∈ s.mLogQueue.toList) (number : record.call = call)
  | taken {record : Record} (held : s.flushing = some record) (number : record.call = call)

def Quiet (s : State ω) : Prop :=
  (∀ w, (s.writers w).onWay? = none) ∧ s.mLogQueue.mSize = 0 ∧ s.flushing = none

/- A rotation section that changes the file finds no record of another call on
its way. -/
def RotatesAlone (s : Traced ω) : Event ω → Prop
  | .rotate w => match s.log.writers w with
      | .called _ entry => Opens s.log entry.tm → Quiet s.log
      | _ => True
  | _ => True

instance [Fintype ω] (s : State ω) : Decidable (Quiet s) := by unfold Quiet; infer_instance

instance [Fintype ω] (s : Traced ω) (e) : Decidable (RotatesAlone s e) := by
  unfold RotatesAlone
  split
  · split <;> infer_instance
  · infer_instance

def Placed (s : Traced ω) : Prop :=
  ∀ line ∈ s.log.written, (line.2.call,line.1) ∈ s.selected ∧ ∀ stream, (line.2.call,stream) ∈ s.selected → stream = line.1

structure Numbered (s : Traced ω) : Prop where
  below : ∀ p ∈ s.selected, p.1 < s.log.calls
  pending : ∀ w call entry, s.log.writers w = .called call entry → call < s.log.calls ∧ call ∉ s.selected.map Prod.fst
  apart : ∀ v w call entry entry', s.log.writers v = .called call entry → s.log.writers w = .called call entry' → v = w
  once : (s.selected.map Prod.fst).Nodup

structure Placing (s : Traced ω) : Prop where
  valid : s.log.mLogQueue.Valid
  way : ∀ call, OnItsWay s.log call → (call,s.log.mFp) ∈ s.selected
  written : ∀ line ∈ s.log.written, (line.2.call,line.1) ∈ s.selected
  numbered : Numbered s

theorem nodupSecond {selected : List (Nat × Stream)} (once : (selected.map Prod.fst).Nodup) {call : Nat} {a b : Stream}
    (first : (call,a) ∈ selected) (second : (call,b) ∈ selected) : a = b := by
  have same := List.inj_on_of_nodup_map once first second rfl
  exact (Prod.mk.inj same).2

theorem Placing.placed {s : Traced ω} (placing : Placing s) : Placed s :=
  fun line member => ⟨placing.written line member,
    fun _ other => nodupSecond placing.numbered.once other (placing.written line member)⟩

def Begun (s : Traced ω) : Prop :=
  ((∃ capacity, Initial capacity s.log) ∨ InitialSync s.log) ∧ s.opened = [s.log.mFp] ∧ s.selected = []

theorem initialParts {s : State ω} (start : (∃ capacity, Initial capacity s) ∨ InitialSync s) :
    s.mLogQueue.Valid ∧ s.mLogQueue.toList = [] ∧ (∀ w, s.writers w = .outside) ∧ s.flushing = none ∧ s.written = [] := by
  obtain ⟨capacity,_,small,made,_,_,outside,idle,nothing,_⟩ : ∃ capacity, Initial capacity {s with mIsAsync := true} := by
    rcases start with ⟨capacity,start⟩ | ⟨start,_⟩
    · obtain ⟨positive,small,made,_,rest⟩ := start
      exact ⟨capacity,positive,small,made,rfl,rest⟩
    · exact ⟨1,start⟩
  have shape := @BlockQueue.newShape Record ⟨⟨0,[]⟩⟩ capacity s.mLogQueue small made
  exact ⟨⟨_,_,_,_,shape⟩,List.eq_nil_of_length_eq_zero shape.length,outside,idle,nothing⟩

theorem begunPlacing {s : Traced ω} (start : Begun s) : Placing s := by
  obtain ⟨modes,_,none_⟩ := start
  obtain ⟨valid,empty,outside,idle,nothing⟩ := initialParts modes
  refine ⟨valid,fun call way => ?_,by simp [nothing],⟨by simp [none_],fun w call entry called => ?_,
    fun v w call entry entry' called => ?_,by simp [none_]⟩⟩
  · cases way with
    | @writer w here => simp [outside w,WriterPc.onWay?] at here
    | queued member => simp [empty] at member
    | taken held => simp [idle] at held
  · simp [outside w] at called
  · simp [outside v] at called

variable [DecidableEq ω]

/- What a step outside the rotation sections does to the records on their way. -/
structure Forwards (s s' : State ω) : Prop where
  valid : s'.mLogQueue.Valid
  stream : s'.mFp = s.mFp
  way : ∀ call, OnItsWay s' call → OnItsWay s call
  written : ∀ line ∈ s'.written, line ∈ s.written ∨ (line.1 = s.mFp ∧ OnItsWay s line.2.call)

theorem advanceForwards {s s' : State ω} (valid : s.mLogQueue.Valid) {w : ω} {pc : WriterPc}
    (same : ∀ call, pc.onWay? = some call → OnItsWay s call) (writers : s'.writers = update s.writers w pc)
    (queue : s'.mLogQueue = s.mLogQueue) (flushing : s'.flushing = s.flushing) (stream : s'.mFp = s.mFp)
    (written : ∀ line ∈ s'.written, line ∈ s.written ∨ (line.1 = s.mFp ∧ OnItsWay s line.2.call)) : Forwards s s' := by
  refine ⟨queue ▸ valid,stream,fun call way => ?_,written⟩
  cases way with
  | @writer v here =>
    rw [writers] at here
    by_cases own : v = w
    · rw [own,Function.update_self] at here
      exact same call here
    · rw [Function.update_of_ne own] at here
      exact .writer here
  | queued member number => exact .queued (queue ▸ member) number
  | taken held number => exact .taken (flushing ▸ held) number

theorem movesForwards {s s' : State ω} {e : Event ω} (valid : s.mLogQueue.Valid) (calm : ∀ w, e ≠ .rotate w)
    (moves : Moves s e s') : Forwards s s' := by
  cases moves with
  | call outside =>
    exact advanceForwards valid (fun _ here => by simp [WriterPc.onWay?] at here) rfl rfl rfl rfl (fun _ => .inl)
  | @rotate w => exact absurd rfl (calm w)
  | format rotated =>
    exact advanceForwards valid (fun _ here => .writer (by rw [rotated]; exact here)) rfl rfl rfl rfl (fun _ => .inl)
  | queueing formatted | writing formatted =>
    exact advanceForwards valid (fun _ here => .writer (by rw [formatted]; exact here)) rfl rfl rfl rfl (fun _ => .inl)
  | @push w record queue accepted pushing pushed =>
    have mine : OnItsWay s record.call := .writer (by rw [pushing]; rfl)
    obtain ⟨valid',list⟩ : queue.Valid ∧ ∀ other ∈ queue.toList, other ∈ s.mLogQueue.toList ∨ other = record := by
      by_cases room : s.mLogQueue.mSize < s.mLogQueue.mMaxSize
      · obtain ⟨q,done,valid',_,list⟩ := valid.pushed room record
        rw [done] at pushed
        cases pushed
        exact ⟨valid',fun other member => by simpa [list] using member⟩
      · rw [BlockQueue.pushRefused room record] at pushed
        cases pushed
        exact ⟨valid,fun _ => .inl⟩
    have idle : Forwards s {s with writers := update s.writers w .outside} :=
      advanceForwards valid (fun _ here => by simp [WriterPc.onWay?] at here) rfl rfl rfl rfl (fun _ => .inl)
    refine ⟨valid',rfl,fun call way => ?_,fun _ => .inl⟩
    cases way with
    | writer here => exact idle.way call (.writer here)
    | taken held number => exact .taken held number
    | queued member number =>
      rcases list _ member with before | rfl
      · exact .queued before number
      · exact number ▸ mine
  | @write w record direct =>
    refine advanceForwards valid (fun _ here => by simp [WriterPc.onWay?] at here) rfl rfl rfl rfl (fun line member => ?_)
    rcases List.mem_append.mp member with before | now
    · exact .inl before
    · rw [List.mem_singleton.mp now]
      exact .inr ⟨rfl,.writer (by rw [direct]; rfl)⟩
  | take idle some_ took =>
    obtain ⟨record,q,done,valid',_,list⟩ := valid.took some_
    rw [done] at took
    cases took
    refine ⟨valid',rfl,fun call way => ?_,fun _ => .inl⟩
    cases way with
    | writer here => exact .writer here
    | queued member number => exact .queued (by rw [list]; exact List.mem_cons_of_mem _ member) number
    | taken held number =>
      cases Option.some.inj held
      exact .queued (by rw [list]; exact List.mem_cons_self) number
  | @flush record held =>
    refine ⟨valid,rfl,fun call way => ?_,fun line member => ?_⟩
    · cases way with
      | writer here => exact .writer here
      | queued member number => exact .queued member number
      | taken held => contradiction
    · rcases List.mem_append.mp member with before | now
      · exact .inl before
      · rw [List.mem_singleton.mp now]
        exact .inr ⟨rfl,.taken held rfl⟩

omit [DecidableEq ω] in
theorem Numbered.advance {s : Traced ω} (numbered : Numbered s) {log : State ω} (calls : log.calls = s.log.calls)
    (still : ∀ w call entry, log.writers w = .called call entry → s.log.writers w = .called call entry) :
    Numbered {s with log := log} :=
  ⟨fun p member => by rw [calls]; exact numbered.below p member,
    fun w call entry called => by rw [calls]; exact numbered.pending w call entry (still w call entry called),
    fun v w call entry entry' first second =>
      numbered.apart v w call entry entry' (still v call entry first) (still w call entry' second),
    numbered.once⟩

theorem Numbered.called {s : Traced ω} (numbered : Numbered s) {w : ω} {entry : Entry} :
    Numbered {s with log := {s.log with
      calls := s.log.calls + 1, writers := update s.log.writers w (.called s.log.calls entry)}} := by
  have cases_ {v : ω} {call : Nat} {other : Entry}
      (here : update s.log.writers w (.called s.log.calls entry) v = .called call other) :
      (v = w ∧ call = s.log.calls) ∨ s.log.writers v = .called call other := by
    rcases Basis.movedCases here with ⟨rfl,own⟩ | ⟨_,before⟩
    · cases own
      exact .inl ⟨rfl,rfl⟩
    · exact .inr before
  refine ⟨fun p member => Nat.lt_succ_of_lt (numbered.below p member),fun v call other here => ?_,
    fun v u call first second here here' => ?_,numbered.once⟩
  · rcases cases_ here with ⟨_,rfl⟩ | before
    · refine ⟨Nat.lt_succ_self _,fun member => ?_⟩
      obtain ⟨p,selected,same⟩ := List.mem_map.mp member
      exact absurd same (Nat.ne_of_lt (numbered.below p selected))
    · obtain ⟨less,unseen⟩ := numbered.pending v call other before
      exact ⟨Nat.lt_succ_of_lt less,unseen⟩
  · rcases cases_ here with ⟨rfl,rfl⟩ | before
    · rcases cases_ here' with ⟨rfl,_⟩ | before'
      · rfl
      · exact absurd (numbered.pending u _ second before').1 (Nat.lt_irrefl _)
    · rcases cases_ here' with ⟨rfl,rfl⟩ | before'
      · exact absurd (numbered.pending v _ first before).1 (Nat.lt_irrefl _)
      · exact numbered.apart v u call first second before before'

theorem movesNumbered {s : Traced ω} {log : State ω} {e : Event ω} (numbered : Numbered s) (calm : ∀ w, e ≠ .rotate w)
    (moves : Moves s.log e log) : Numbered {s with log := log} := by
  have still {w : ω} {pc : WriterPc} (other : ∀ call entry, pc ≠ .called call entry) :
      ∀ v call entry, update s.log.writers w pc v = .called call entry → s.log.writers v = .called call entry := by
    intro v call entry here
    rcases Basis.movedCases here with ⟨_,own⟩ | ⟨_,before⟩
    · exact absurd own (other call entry)
    · exact before
  cases moves with
  | call outside => exact numbered.called
  | @rotate w => exact absurd rfl (calm w)
  | format rotated => exact numbered.advance rfl (still (by simp))
  | queueing formatted | writing formatted => exact numbered.advance rfl (still (by simp))
  | push pushing => exact numbered.advance rfl (still (by simp))
  | write direct => exact numbered.advance rfl (still (by simp))
  | take => exact numbered.advance rfl (fun _ _ _ here => here)
  | flush held => exact numbered.advance rfl (fun _ _ _ here => here)

theorem rotateNumbered {s : Traced ω} (numbered : Numbered s) {w : ω} {call : Nat} {entry : Entry}
    (called : s.log.writers w = .called call entry) {log : State ω} (calls : log.calls = s.log.calls)
    (writers : log.writers = update s.log.writers w (.rotated call entry)) (opened : List Stream) (stream : Stream)
    (last : Date) : Numbered ⟨log,opened,s.selected ++ [(call,stream)],last⟩ := by
  obtain ⟨less,unseen⟩ := numbered.pending w call entry called
  have others {v : ω} {number : Nat} {other : Entry} (here : log.writers v = .called number other) :
      v ≠ w ∧ s.log.writers v = .called number other := by
    rw [writers] at here
    rcases Basis.movedCases here with ⟨_,own⟩ | before
    · cases own
    · exact before
  refine ⟨fun p member => ?_,fun v number other here => ?_,fun v u number first second here here' => ?_,?_⟩
  · rw [calls]
    rcases List.mem_append.mp member with before | now
    · exact numbered.below p before
    · rw [List.mem_singleton.mp now]
      exact less
  · obtain ⟨different,before⟩ := others here
    obtain ⟨below,new⟩ := numbered.pending v number other before
    rw [calls]
    refine ⟨below,fun member => ?_⟩
    rw [List.map_append,List.mem_append] at member
    rcases member with early | now
    · exact new early
    · have same : number = call := by simpa using now
      subst same
      exact different (numbered.apart v w number other entry before called)
  · exact numbered.apart v u number first second (others here).2 (others here').2
  · rw [List.map_append]
    exact List.Nodup.append numbered.once (List.nodup_singleton _) (by simpa using unseen)

theorem rotatePlacing {s : Traced ω} (placing : Placing s) {w : ω} {call : Nat} {entry : Entry}
    (called : s.log.writers w = .called call entry) (alone : RotatesAlone s (.rotate w)) {opened : List Stream}
    {log : State ω} (moved : log = {(Log.rotate s.log entry.tm) with
      writers := update s.log.writers w (.rotated call entry)}) {last : Date} :
    Placing ⟨log,opened,s.selected ++ [(call,log.mFp)],last⟩ := by
  obtain ⟨queue,written,flushing,calls,_,_⟩ := rotateFrame s.log entry.tm
  have earlier {number : Nat} (way : OnItsWay s.log number) : (number,log.mFp) ∈ s.selected := by
    by_cases opens : Opens s.log entry.tm
    · simp only [RotatesAlone,called] at alone
      obtain ⟨writers,drained,idle⟩ := alone opens
      cases way with
      | @writer v here => rw [writers v] at here; contradiction
      | taken held => rw [idle] at held; contradiction
      | queued member =>
        have empty : s.log.mLogQueue.toList = [] := List.eq_nil_of_length_eq_zero (by
          rw [placing.valid.size] at drained
          omega)
        rw [empty] at member
        contradiction
    · have same : log.mFp = s.log.mFp := by rw [moved,rotateStays opens]
      rw [same]
      exact placing.way number way
  subst moved
  refine ⟨queue ▸ placing.valid,fun number way => ?_,fun line member => ?_,
    rotateNumbered placing.numbered called (by exact calls) rfl _ _ _⟩
  · cases way with
    | @writer v here =>
      by_cases own : v = w
      · rw [own] at here
        simp only [Function.update_self,WriterPc.onWay?,Option.some.injEq] at here
        exact List.mem_append_right _ (here ▸ List.mem_singleton.mpr rfl)
      · simp only [Function.update_of_ne own] at here
        exact List.mem_append_left _ (earlier (.writer here))
    | queued member number =>
      exact List.mem_append_left _ (earlier (.queued (queue ▸ member) number))
    | taken held number =>
      exact List.mem_append_left _ (earlier (.taken (flushing ▸ held) number))
  · exact List.mem_append_left _ (placing.written line (written ▸ member))

theorem tracePlacing {s s' : Traced ω} {e : Event ω} (placing : Placing s) (alone : RotatesAlone s e)
    (taken : traceStep s e = some s') : Placing s' := by
  obtain ⟨moved,noted⟩ := traceTaken taken
  have moves := stepMoves moved
  generalize log : s'.log = next at moves noted moved
  by_cases rotates : ∃ w, e = .rotate w
  · obtain ⟨w,rfl⟩ := rotates
    cases moves with
    | rotate called =>
      rw [noted,noteRotate called]
      exact rotatePlacing placing called alone rfl
  · have calm : ∀ w, e ≠ .rotate w := fun w same => rotates ⟨w,same⟩
    rw [noted,noteElse calm]
    obtain ⟨valid,stream,way,written⟩ := movesForwards placing.valid calm moves
    refine ⟨valid,fun call onWay => ?_,fun line member => ?_,movesNumbered placing.numbered calm moves⟩
    · simp only [stream]
      exact placing.way call (way call onWay)
    · rcases written line member with before | ⟨file,onWay⟩
      · exact placing.written line before
      · rw [file]
        exact placing.way _ onWay

def tracedSystem (ω : Type) [DecidableEq ω] : System (Traced ω) (Event ω) := ⟨Begun,traceStep⟩

/- In either mode, every record of a run whose file changes each find no other
record on its way lies in the file its own call selected. -/
theorem recordsPlaced {s : Traced ω} (reached : (tracedSystem ω).Reach RotatesAlone s) : Placed s := by
  have placing : Placing s :=
    (tracedSystem ω).invariant (fun _ => begunPlacing)
      (fun _ _ _ placing alone taken => tracePlacing placing alone taken) reached
  exact placing.placed

def lateEntry : Entry := ⟨1,ascii "late",⟨2025,1,1,23,59,59⟩,0⟩
def nextEntry : Entry := ⟨1,ascii "next",⟨2025,1,2,0,0,0⟩,0⟩

def syncStart : Traced Bool :=
  begun (init (ascii "log/ServerLog") 8192 5000000 ⟨2025,1,1,12,0,0⟩) ⟨2025,1,1,12,0,0⟩

theorem syncBegun : Begun syncStart := ⟨.inr (initSync _ _ (by decide) _),rfl,rfl⟩

def lineOf (w : Bool) (entry : Entry) : List (Event Bool) := [.call w entry,.rotate w,.format w,.test w,.write w]

theorem samplePlaced :
    ∃ s, (tracedSystem Bool).checkedRun RotatesAlone syncStart (lineOf false lateEntry ++ lineOf true nextEntry) = some s ∧
      s.log.written.length = 2 ∧ Placed s := by
  have ends : ((tracedSystem Bool).checkedRun RotatesAlone syncStart (lineOf false lateEntry ++ lineOf true nextEntry)).map
      (fun s => s.log.written.length) = some 2 := by decide +kernel
  obtain ⟨s,ran,count⟩ := Option.map_eq_some_iff.mp ends
  exact ⟨s,ran,count,recordsPlaced ((tracedSystem Bool).checkedReach (.init syncBegun) _ ran)⟩

def midnightRun : List (Event Bool) :=
  [.call false lateEntry,.rotate false,.call true nextEntry,.rotate true,.format false,.test false,.write false]

theorem midnightMisplaces :
    ∃ s, (tracedSystem Bool).Reachable s ∧ ¬ Placed s ∧
      s.log.written.map (fun line => (line.1.name,line.2.call)) = [(ascii "log/2025_01_02_ServerLog",0)] ∧
      s.selected.map (fun p => (p.1,p.2.name)) = [(0,ascii "log/2025_01_01_ServerLog"),(1,ascii "log/2025_01_02_ServerLog")] := by
  have ends : ((tracedSystem Bool).run syncStart midnightRun).map (fun s =>
      decide ((∃ line ∈ s.log.written, (line.2.call,line.1) ∉ s.selected) ∧
        s.log.written.map (fun line => (line.1.name,line.2.call)) = [(ascii "log/2025_01_02_ServerLog",0)] ∧
        s.selected.map (fun p => (p.1,p.2.name)) =
          [(0,ascii "log/2025_01_01_ServerLog"),(1,ascii "log/2025_01_02_ServerLog")])) = some true := by
    decide +kernel
  obtain ⟨s,ran,misplaced⟩ := Option.map_eq_some_iff.mp ends
  obtain ⟨⟨line,member,elsewhere⟩,names⟩ := of_decide_eq_true misplaced
  exact ⟨s,(tracedSystem Bool).runReachable (.init syncBegun) _ ran,
    fun placed => elsewhere (placed line member).1,names⟩

end SimpleChat.Log
