import SimpleChat.ThreadPool

/-! Delivery by `ThreadPool` while nobody calls `close`. The pool is a token
queue: a client between its push and its `sem_post` is the producers' gap, a
worker between its `sem_wait` and its pop the consumers'. -/
namespace SimpleChat.ThreadPool
open Basis (System tally tallyEnter tallyLeave tallySame tallyMember movedCases)
open Function (update)

variable {κ ι T : Type}

def inGapOfPush : ClientPc T → Nat
  | .pushed _ _ => 1
  | _ => 0

def inGapOfPop : WorkerPc T → Nat
  | .woken | .ready => 1
  | _ => 0

section Tickets

structure Ticketed (s : State κ ι T) : Prop where
  pending : ∀ c number task, s.clients c = .pushed number task →
    s.pushes[number]? = some task ∧ ∀ task', (number,task') ∉ s.accepted
  apart : ∀ c c' number task task', s.clients c = .pushed number task →
    s.clients c' = .pushed number task' → c = c'
  returned : ∀ number task, (number,task) ∈ s.accepted → s.pushes[number]? = some task
  once : (s.accepted.map Prod.fst).Nodup

theorem Ticketed.frame {s s' : State κ ι T} (ticketed : Ticketed s) (clients : s'.clients = s.clients)
    (pushes : s'.pushes = s.pushes) (accepted : s'.accepted = s.accepted) : Ticketed s' := by
  obtain ⟨pending,apart,returned,once⟩ := ticketed
  exact ⟨by rw [clients,pushes,accepted]; exact pending,by rw [clients]; exact apart,
    by rw [pushes,accepted]; exact returned,by rw [accepted]; exact once⟩

theorem Ticketed.fresh {s : State κ ι T} (ticketed : Ticketed s) (task : Task T) :
    (s.pushes.length,task) ∉ s.accepted := by
  intro earlier
  have found := ticketed.returned _ _ earlier
  simp at found

variable [DecidableEq κ]

theorem Ticketed.withdraw {s s' : State κ ι T} (ticketed : Ticketed s) {c : κ} {pc : ClientPc T}
    (clients : s'.clients = update s.clients c pc) (calm : ∀ number task, pc ≠ .pushed number task)
    (pushes : s'.pushes = s.pushes) (accepted : s'.accepted = s.accepted) : Ticketed s' := by
  have still : ∀ d number task, s'.clients d = .pushed number task → s.clients d = .pushed number task := by
    intro d number task here
    rw [clients] at here
    rcases movedCases here with ⟨_,own⟩ | ⟨_,before⟩
    · exact absurd own (calm number task)
    · exact before
  obtain ⟨pending,apart,returned,once⟩ := ticketed
  constructor
  · intro d number task here
    rw [pushes,accepted]; exact pending d number task (still d number task here)
  · intro d d' number task task' here here'
    exact apart d d' number task task' (still d number task here) (still d' number task' here')
  · rw [pushes,accepted]; exact returned
  · rw [accepted]; exact once

theorem Ticketed.push {s s' : State κ ι T} (ticketed : Ticketed s) {c : κ} {task : Task T}
    (clients : s'.clients = update s.clients c (.pushed s.pushes.length task))
    (pushes : s'.pushes = s.pushes ++ [task]) (accepted : s'.accepted = s.accepted) : Ticketed s' := by
  have earlier : ∀ number task', s.pushes[number]? = some task' → (s.pushes ++ [task])[number]? = some task' :=
    fun number task' found => by
      rw [List.getElem?_append_left (List.getElem?_eq_some_iff.mp found).1]; exact found
  have pushed : ∀ d number task', s'.clients d = .pushed number task' →
      (d = c ∧ number = s.pushes.length ∧ task' = task) ∨ (d ≠ c ∧ s.clients d = .pushed number task') := by
    intro d number task' here
    rw [clients] at here
    rcases movedCases here with ⟨rfl,own⟩ | other
    · cases own
      exact .inl ⟨rfl,rfl,rfl⟩
    · exact .inr other
  have older : ∀ d number task', s.clients d = .pushed number task' → number ≠ s.pushes.length := by
    intro d number task' here same
    have found := (ticketed.pending d number task' here).1
    rw [same] at found
    simp at found
  constructor
  · intro d number task' here
    rw [pushes,accepted]
    rcases pushed d number task' here with ⟨_,rfl,rfl⟩ | ⟨_,before⟩
    · exact ⟨by simp,ticketed.fresh⟩
    · have known := ticketed.pending d number task' before
      exact ⟨earlier _ _ known.1,known.2⟩
  · intro d d' number task₁ task₂ here here'
    rcases pushed d number task₁ here with ⟨rfl,rfl,_⟩ | ⟨_,before⟩
    · rcases pushed d' _ task₂ here' with ⟨rfl,_,_⟩ | ⟨_,before'⟩
      · rfl
      · exact absurd rfl (older _ _ _ before')
    · rcases pushed d' number task₂ here' with ⟨_,rfl,_⟩ | ⟨_,before'⟩
      · exact absurd rfl (older _ _ _ before)
      · exact ticketed.apart d d' number task₁ task₂ before before'
  · intro number task' found
    rw [accepted] at found
    rw [pushes]
    exact earlier _ _ (ticketed.returned number task' found)
  · rw [accepted]; exact ticketed.once

theorem Ticketed.post {s s' : State κ ι T} (ticketed : Ticketed s) {c : κ} {number : Nat} {task : Task T}
    (here : s.clients c = .pushed number task) (clients : s'.clients = update s.clients c .outside)
    (pushes : s'.pushes = s.pushes) (accepted : s'.accepted = s.accepted ++ [(number,task)]) : Ticketed s' := by
  have other : ∀ d n task', s'.clients d = .pushed n task' → d ≠ c ∧ s.clients d = .pushed n task' := by
    intro d n task' here
    rw [clients] at here
    rcases movedCases here with ⟨_,own⟩ | other
    · contradiction
    · exact other
  have own := ticketed.pending c number task here
  constructor
  · intro d n task' here'
    obtain ⟨different,before⟩ := other d n task' here'
    have known := ticketed.pending d n task' before
    refine ⟨by rw [pushes]; exact known.1,fun task'' found => ?_⟩
    rw [accepted,List.mem_append,List.mem_singleton] at found
    rcases found with early | late
    · exact known.2 task'' early
    · cases late
      exact different (ticketed.apart d c _ _ _ before here)
  · intro d d' n task₁ task₂ at₁ at₂
    exact ticketed.apart d d' n task₁ task₂ (other d n task₁ at₁).2 (other d' n task₂ at₂).2
  · intro n task' found
    rw [pushes]
    rw [accepted,List.mem_append,List.mem_singleton] at found
    rcases found with early | late
    · exact ticketed.returned n task' early
    · cases late; exact own.1
  · rw [accepted,List.map_append,List.nodup_append]
    refine ⟨ticketed.once,by simp,fun n early m late => ?_⟩
    simp only [List.map_cons,List.map_nil,List.mem_singleton] at late
    obtain ⟨⟨n',task'⟩,found,rfl⟩ := List.mem_map.mp early
    rintro rfl
    subst late
    exact own.2 task' found

end Tickets

section Delivery
variable [Fintype κ] [Fintype ι]

def view (s : State κ ι T) : Basis.TokenQueue.State (Task T) :=
  ⟨s.taskQueue.list,s.sem,tally inGapOfPush s.clients,tally inGapOfPop s.workers,s.pushes,s.pops.map Prod.snd⟩

theorem taker {s : State κ ι T} {w : ι} (here : s.workers w = .woken ∨ s.workers w = .ready) :
    0 < (view s).taking := by
  have one : 1 ≤ inGapOfPop (s.workers w) := by rcases here with h | h <;> rw [h] <;> exact Nat.le_refl 1
  exact Nat.lt_of_lt_of_le one (tallyMember inGapOfPop s.workers w)

theorem initialView {s : State κ ι T} (start : Initial s) :
    view s = Basis.TokenQueue.empty ∧ Ticketed s := by
  obtain ⟨queue,sem,_,_,outside,unborn,pushes,pops,accepted⟩ := start
  have clients : tally inGapOfPush s.clients = 0 :=
    (Basis.tallyZero _ _).mpr (fun c => by rw [outside c]; rfl)
  have workers : tally inGapOfPop s.workers = 0 :=
    (Basis.tallyZero _ _).mpr (fun w => by rw [unborn w]; rfl)
  constructor
  · simp [view,queue,sem,pushes,pops,clients,workers,SafeQueue.new,Basis.TokenQueue.empty]
  · constructor
    · intro c number task here; rw [outside c] at here; contradiction
    · intro c c' number task task' here _; rw [outside c] at here; contradiction
    · intro number task found; rw [accepted] at found; simp at found
    · rw [accepted]; simp

variable [DecidableEq κ] [DecidableEq ι]

/- Each step outside `close` is one step of the token queue or invisible to it:
the empty test and the pop of a woken worker find a task, by the balance. -/
theorem movesView {s s' : State κ ι T} {e} (balanced : Basis.TokenQueue.Balanced (view s))
    (ticketed : Ticketed s) (calm : e.ofClose = false) (moves : Moves s e s') :
    Ticketed s' ∧ (view s' = view s ∨ ∃ f, Basis.TokenQueue.step (view s) f = some (view s')) := by
  cases moves with
  | start unborn =>
    refine ⟨ticketed.frame rfl rfl rfl,.inl ?_⟩
    have before : tally inGapOfPop s.workers = 0 :=
      (Basis.tallyZero _ _).mpr (fun w => by
        have none := unborn w
        cases here : s.workers w <;> simp_all [WorkerPc.isUnborn,inGapOfPop])
    have after : tally (inGapOfPop (T := T)) (fun _ : ι => .loop) = 0 :=
      (Basis.tallyZero _ _).mpr (fun w => rfl)
    simp only [view,before,after]
  | @checked c task outside room =>
    refine ⟨ticketed.withdraw rfl (by simp) rfl rfl,.inl ?_⟩
    have same : tally inGapOfPush (update s.clients c (.checked task)) = tally inGapOfPush s.clients :=
      tallySame (by rw [outside]; rfl)
    simp only [view,same]
  | refused outside full => exact ⟨ticketed,.inl rfl⟩
  | @push c task checked =>
    refine ⟨ticketed.push rfl rfl rfl,.inr ⟨.insert task,?_⟩⟩
    have pushed : tally inGapOfPush (update s.clients c (.pushed s.pushes.length task)) =
        tally inGapOfPush s.clients + 1 := tallyEnter (by rw [checked]; rfl) rfl
    simp only [view,Basis.TokenQueue.step,SafeQueue.push,pushed]
  | @post c number task pushed =>
    refine ⟨ticketed.post pushed rfl rfl rfl,.inr ⟨.post,?_⟩⟩
    have posted : tally inGapOfPush (update s.clients c .outside) + 1 = tally inGapOfPush s.clients :=
      tallyLeave (by rw [pushed]; rfl) rfl
    simp [view,Basis.TokenQueue.step,← posted]
  | close | closed | closePost => contradiction
  | @exit w looping closed =>
    refine ⟨ticketed.frame rfl rfl rfl,.inl ?_⟩
    have same : tally inGapOfPop (update s.workers w .exited) = tally inGapOfPop s.workers :=
      tallySame (by rw [looping]; rfl)
    simp only [view,same]
  | @loop w looping open_ =>
    refine ⟨ticketed.frame rfl rfl rfl,.inl ?_⟩
    have same : tally inGapOfPop (update s.workers w .waiting) = tally inGapOfPop s.workers :=
      tallySame (by rw [looping]; rfl)
    simp only [view,same]
  | @wait w waiting positive =>
    refine ⟨ticketed.frame rfl rfl rfl,.inr ⟨.wait,?_⟩⟩
    have woke : tally inGapOfPop (update s.workers w .woken) = tally inGapOfPop s.workers + 1 :=
      tallyEnter (by rw [waiting]; rfl) rfl
    simp [view,Basis.TokenQueue.step,woke,positive]
  | @nothing w woken none =>
    have present := balanced.takerFinds (taker (.inl woken))
    exact absurd (by simpa [view,SafeQueue.empty] using none) present
  | @something w woken some_ =>
    refine ⟨ticketed.frame rfl rfl rfl,.inl ?_⟩
    have same : tally inGapOfPop (update s.workers w .ready) = tally inGapOfPop s.workers :=
      tallySame (by rw [woken]; rfl)
    simp only [view,same]
  | @pop w ready =>
    refine ⟨ticketed.frame rfl rfl rfl,.inr ⟨.remove,?_⟩⟩
    obtain ⟨task,rest,items⟩ := List.exists_cons_of_ne_nil (balanced.takerFinds (taker (.inr ready)))
    have list : s.taskQueue.list = task :: rest := items
    have took : tally inGapOfPop (update s.workers w (.popped task)) + 1 = tally inGapOfPop s.workers :=
      tallyLeave (by rw [ready]; rfl) rfl
    simp [view,Basis.TokenQueue.step,SafeQueue.pop,list,← took]
  | @dispatch w task popped =>
    refine ⟨ticketed.frame rfl rfl rfl,.inl ?_⟩
    have same : tally inGapOfPop (update s.workers w (dispatch s.funbox task)) = tally inGapOfPop s.workers :=
      tallySame (by rw [popped]; unfold dispatch; split <;> (try split) <;> rfl)
    simp only [view,same]
  | @finish w state reqstruct running =>
    refine ⟨ticketed.frame rfl rfl rfl,.inl ?_⟩
    have same : tally inGapOfPop (update s.workers w .loop) = tally inGapOfPop s.workers :=
      tallySame (by rw [running]; rfl)
    simp only [view,same]

abbrev Open (s : State κ ι T) : Prop := (system κ ι T).Reach (fun _ e => e.ofClose = false) s

theorem viewSimulation : Basis.Simulation (system κ ι T) (fun _ e => e.ofClose = false)
    (Basis.TokenQueue.system (Task T)) view Ticketed where
  init _ start := initialView start
  step _ _ _ reached ticketed calm taken :=
    movesView (Basis.TokenQueue.reachBalanced reached) ticketed calm (stepMoves taken)

theorem openBalanced {s : State κ ι T} (reached : Open s) :
    Basis.TokenQueue.Balanced (view s) ∧ Ticketed s := by
  obtain ⟨viewed,ticketed⟩ := viewSimulation.reach reached
  exact ⟨Basis.TokenQueue.reachBalanced viewed,ticketed⟩

/- Every accepted task is delivered once, in push order, and no wake-up is lost:
a woken worker finds a task; an accepted push number is that of a queued task or
of one worker's pop; a waiting task has a token or a worker on its way to it. -/
theorem acceptedOnce {s : State κ ι T} (reached : Open s) :
    (∀ w, s.workers w = .woken ∨ s.workers w = .ready → s.taskQueue.list ≠ []) ∧
    s.pops.map Prod.snd ++ s.taskQueue.list = s.pushes ∧
    (s.accepted.map Prod.fst).Nodup ∧
    (∀ number task, (number,task) ∈ s.accepted →
      (number < s.pops.length ∧ ∃! w, s.pops[number]? = some (w,task)) ∨
      (s.pops.length ≤ number ∧ s.taskQueue.list[number - s.pops.length]? = some task)) ∧
    (s.taskQueue.list ≠ [] → (∀ c number task, s.clients c ≠ .pushed number task) →
      0 < s.sem ∨ ∃ w, s.workers w = .woken ∨ s.workers w = .ready) := by
  obtain ⟨balanced,ticketed⟩ := openBalanced reached
  refine ⟨fun w here => balanced.takerFinds (taker here),balanced.order,ticketed.once,?_,?_⟩
  · intro number task returned
    rcases balanced.position (ticketed.returned number task returned) with ⟨early,popped⟩ | ⟨late,queued⟩
    · refine .inl ⟨by simpa [view] using early,?_⟩
      simp only [view,List.getElem?_map,Option.map_eq_some_iff] at popped
      obtain ⟨⟨w,task'⟩,found,rfl⟩ := popped
      exact ⟨w,found,fun w' found' => by rw [found] at found'; cases found'; rfl⟩
    · exact .inr ⟨by simpa [view] using late,by simpa [view] using queued⟩
  · intro present settled
    have quiet : (view s).posting = 0 := by
      refine (Basis.tallyZero _ _).mpr (fun c => ?_)
      cases here : s.clients c with
      | pushed number task => exact absurd here (settled c number task)
      | _ => rfl
    rcases balanced.announced present quiet with token | taking
    · exact .inl token
    · obtain ⟨w,positive⟩ := (Basis.tallyPos _ _).mp taking
      refine .inr ⟨w,?_⟩
      cases here : s.workers w with
      | woken => exact .inl rfl
      | ready => exact .inr rfl
      | _ => rw [here] at positive; contradiction

end Delivery

def sampleWoken : State Unit Unit Nat :=
  ⟨⟨[(0,some 5)],none,false,-1⟩,0,false,10000,2,
    update (update (update (fun _ => .outside) () (.checked (0,some 5))) () (.pushed 0 (0,some 5))) () .outside,
    update (update (fun _ => .loop) () .waiting) () .woken,[(0,some 5)],[],[(0,0,some 5)]⟩

theorem sampleReached : Open sampleWoken :=
  (system Unit Unit Nat).runReach (s := ⟨.new,0,true,10000,2,fun _ => .outside,fun _ => .unborn,[],[],[]⟩)
    (.init ⟨rfl,rfl,rfl,by decide,fun _ => rfl,fun _ => rfl,rfl,rfl,rfl⟩)
    [.start,.check () (0,some 5),.push (),.post (),.loop (),.wait ()]
    (fun _ e member => by
      simp only [List.mem_cons,List.not_mem_nil,or_false] at member
      rcases member with rfl | rfl | rfl | rfl | rfl | rfl <;> rfl) rfl

theorem sampleDelivery :
    sampleWoken.taskQueue.list ≠ [] ∧
    sampleWoken.pops.map Prod.snd ++ sampleWoken.taskQueue.list = sampleWoken.pushes ∧
    (0 < sampleWoken.sem ∨ ∃ w, sampleWoken.workers w = .woken ∨ sampleWoken.workers w = .ready) := by
  have law := acceptedOnce sampleReached
  refine ⟨law.1 () (.inl rfl),law.2.1,law.2.2.2.2 (by simp [sampleWoken]) ?_⟩
  intro c number task here
  simp [sampleWoken] at here

end SimpleChat.ThreadPool
