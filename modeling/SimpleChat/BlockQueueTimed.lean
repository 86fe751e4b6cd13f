import SimpleChat.BlockQueueRuns

/-! The timed `pop`: the deadline it computes, and threads that use the queue
while a clock runs. `timewait` returns true on a wake-up before its absolute
time and false at that time; its thread gets the lock back in a later step. -/
namespace SimpleChat.BlockQueue
open Basis (System Simulation)
open Function (update)

structure Timeval where
  tvSec : Int
  tvUsec : Int
  deriving DecidableEq, Repr

structure Timespec where
  tvSec : Int
  tvNsec : Int
  deriving DecidableEq, Repr

def Timeval.nanos (t : Timeval) : Int := t.tvSec * 1000000000 + t.tvUsec * 1000
def Timespec.nanos (t : Timespec) : Int := t.tvSec * 1000000000 + t.tvNsec

def gettimeofday (clock : Int) : Timeval := ⟨clock / 1000000000,clock % 1000000000 / 1000⟩

def deadline (now : Timeval) (msTimeout : Int) : Timespec :=
  ⟨now.tvSec + msTimeout.tdiv 1000,msTimeout.tmod 1000 * 1000⟩

theorem deadlineInRange (now : Timeval) {ms : Int} (natural : 0 ≤ ms) :
    0 ≤ (deadline now ms).tvNsec ∧ (deadline now ms).tvNsec < 1000000000 := by
  simp only [deadline,Int.tmod_eq_emod_of_nonneg natural]
  omega

theorem deadlineNanos (now : Timeval) {ms : Int} (natural : 0 ≤ ms) :
    (deadline now ms).nanos = now.tvSec * 1000000000 + ms / 1000 * 1000000000 + ms % 1000 * 1000 := by
  simp only [deadline,Timespec.nanos,Int.tmod_eq_emod_of_nonneg natural,Int.tdiv_eq_ediv_of_nonneg natural]
  omega

theorem deadlineOrdered (now : Timeval) {ms longer : Int} (natural : 0 ≤ ms) (more : ms ≤ longer) :
    (deadline now ms).nanos ≤ (deadline now longer).nanos := by
  rw [deadlineNanos now natural,deadlineNanos now (by omega)]
  omega

theorem deadlineEarly (now : Timeval) {ms : Int} (natural : 0 ≤ ms) :
    (deadline now ms).nanos = now.nanos + ms * 1000000 - (now.tvUsec * 1000 + ms % 1000 * 999000) := by
  rw [deadlineNanos now natural,Timeval.nanos]
  omega

theorem deadlinePast (now : Timeval) {ms : Int} (natural : 0 ≤ ms) :
    (deadline now ms).nanos < now.nanos ↔ ms / 1000 * 1000000 + ms % 1000 < now.tvUsec := by
  rw [deadlineNanos now natural,Timeval.nanos]
  omega

def Punctual (now : Timeval) (ms : Int) : Prop :=
  (0 ≤ (deadline now ms).tvNsec ∧ (deadline now ms).tvNsec < 1000000000) ∧
  (deadline now ms).nanos = now.nanos + ms * 1000000 ∧
  now.nanos ≤ (deadline now ms).nanos ∧
  ∀ longer, ms ≤ longer → (deadline now ms).nanos ≤ (deadline now longer).nanos

theorem deadlinePunctual {now : Timeval} {ms : Int} (micros : 0 ≤ now.tvUsec ∧ now.tvUsec < 1000000)
    (natural : 0 ≤ ms) : Punctual now ms ↔ now.tvUsec = 0 ∧ ms % 1000 = 0 := by
  have early := deadlineEarly now natural
  constructor
  · rintro ⟨_,exact_,_⟩
    omega
  · rintro ⟨whole,seconds⟩
    have exact_ : (deadline now ms).nanos = now.nanos + ms * 1000000 := by omega
    exact ⟨deadlineInRange now natural,exact_,by omega,fun longer more => deadlineOrdered now natural more⟩

theorem twoSecondsPunctual : Punctual ⟨5,0⟩ 2000 :=
  (deadlinePunctual (by decide) (by decide)).mpr (by decide)

theorem tenthOfSecondPast : deadline ⟨5,500000⟩ 100 = ⟨5,100000⟩ ∧ ¬ Punctual ⟨5,500000⟩ 100 := by
  refine ⟨rfl,fun punctual => ?_⟩
  exact absurd punctual.2.1 (by decide)

inductive Phase where
  | outside
  | asked (now : Timeval) (msTimeout : Int)
  | sleeping (due : Timespec)
  | woken (due : Timespec) (waited : Bool)
  deriving DecidableEq, Repr

inductive TimedEvent (ι T : Type) where
  | use (e : Event ι T)
  | ask (t : ι) (msTimeout : Int)
  | popFor (t : ι) (item : Option T)
  | wakeUp (t : ι)
  | timewake (t : ι) (item : Option T)
  | tick (nanos : Nat)

structure TimedState (ι T : Type) where
  base : State ι T
  phases : ι → Phase
  clock : Int

def Event.user {ι T : Type} : Event ι T → Option ι
  | .push t _ _ | .pop t _ | .wake t _ _ | .clear t | .back t _ | .size t _ | .full t _ | .empty t _ => some t
  | .popFor _ _ | .timewake _ _ _ => none

variable {ι T : Type} [DecidableEq ι] [DecidableEq T]

def timedStep (s : TimedState ι T) : TimedEvent ι T → Option (TimedState ι T)
  | .use e => do
      let t ← e.user
      if s.phases t = .outside then (step s.base e).map (fun base => {s with base := base}) else none
  | .ask t msTimeout =>
      if s.base.pcs t = .outside ∧ s.phases t = .outside then
        some {s with phases := update s.phases t (.asked (gettimeofday s.clock) msTimeout)}
      else none
  | .popFor t item => match s.phases t with
      | .asked now msTimeout => do
          let base ← step s.base (.popFor t item)
          let phase := if base.pcs t = .timedWaiting then .sleeping (deadline now msTimeout) else .outside
          some {s with base := base, phases := update s.phases t phase}
      | _ => none
  | .wakeUp t => match s.phases t with
      | .sleeping due =>
          some {s with phases := update s.phases t (.woken due (decide (s.clock < due.nanos)))}
      | _ => none
  | .timewake t item => match s.phases t with
      | .woken _ waited => do
          let base ← step s.base (.timewake t waited item)
          some {s with base := base, phases := update s.phases t .outside}
      | _ => none
  | .tick nanos => some {s with clock := s.clock + nanos}

def timedSystem (ι T : Type) [DecidableEq ι] [DecidableEq T] [Inhabited T] (maxSize : Int) :
    System (TimedState ι T) (TimedEvent ι T) :=
  ⟨fun s => (system ι T maxSize).init s.base ∧ ∀ t, s.phases t = .outside,timedStep⟩

inductive TimedMoves (s : TimedState ι T) : TimedEvent ι T → TimedState ι T → Prop where
  | use {e : Event ι T} {base : State ι T} (moved : step s.base e = some base) :
      TimedMoves s (.use e) {s with base := base}
  | ask {t : ι} {msTimeout : Int} (outside : s.phases t = .outside) :
      TimedMoves s (.ask t msTimeout)
        {s with phases := update s.phases t (.asked (gettimeofday s.clock) msTimeout)}
  | popFor {t : ι} {item : Option T} {now : Timeval} {msTimeout : Int} {base : State ι T} {phase : Phase}
      (asked : s.phases t = .asked now msTimeout) (moved : step s.base (.popFor t item) = some base)
      (next : phase = .sleeping (deadline now msTimeout) ∨ phase = .outside) :
      TimedMoves s (.popFor t item) {s with base := base, phases := update s.phases t phase}
  | wakeUp {t : ι} {due : Timespec} (sleeping : s.phases t = .sleeping due) :
      TimedMoves s (.wakeUp t) {s with phases := update s.phases t (.woken due (decide (s.clock < due.nanos)))}
  | timewake {t : ι} {item : Option T} {due : Timespec} {waited : Bool} {base : State ι T}
      (woken : s.phases t = .woken due waited) (moved : step s.base (.timewake t waited item) = some base) :
      TimedMoves s (.timewake t item) {s with base := base, phases := update s.phases t .outside}
  | tick {nanos : Nat} : TimedMoves s (.tick nanos) {s with clock := s.clock + nanos}

theorem timedMoves {s s' : TimedState ι T} {e} (taken : timedStep s e = some s') : TimedMoves s e s' := by
  cases e with
  | use e =>
    simp only [timedStep,bind,Option.bind_eq_some_iff,Option.ite_none_right_eq_some,Option.map_eq_some_iff] at taken
    obtain ⟨t,_,_,base,moved,rfl⟩ := taken
    exact .use moved
  | ask t ms =>
    simp only [timedStep,Option.ite_none_right_eq_some,Option.some.injEq] at taken
    obtain ⟨⟨_,outside⟩,rfl⟩ := taken
    exact .ask outside
  | popFor t item =>
    simp only [timedStep] at taken
    split at taken <;> try contradiction
    rename_i asked
    obtain ⟨base,moved,last⟩ := Option.bind_eq_some_iff.mp taken
    cases Option.some.inj last
    refine .popFor asked moved ?_
    split
    · exact .inl rfl
    · exact .inr rfl
  | wakeUp t =>
    simp only [timedStep] at taken
    split at taken <;> try contradiction
    rename_i sleeping
    cases Option.some.inj taken
    exact .wakeUp sleeping
  | timewake t item =>
    simp only [timedStep] at taken
    split at taken <;> try contradiction
    rename_i woken
    obtain ⟨base,moved,last⟩ := Option.bind_eq_some_iff.mp taken
    cases Option.some.inj last
    exact .timewake woken moved
  | tick nanos =>
    cases Option.some.inj taken
    exact .tick

theorem timedBase {s s' : TimedState ι T} {e} (taken : timedStep s e = some s') :
    s'.base = s.base ∨ ∃ f, step s.base f = some s'.base := by
  cases timedMoves taken with
  | use moved => exact .inr ⟨_,moved⟩
  | ask outside => exact .inl rfl
  | popFor asked moved next => exact .inr ⟨_,moved⟩
  | wakeUp sleeping => exact .inl rfl
  | timewake woken moved => exact .inr ⟨_,moved⟩
  | tick => exact .inl rfl

theorem timedSimulation [Inhabited T] (maxSize : Int) (ok : TimedState ι T → TimedEvent ι T → Prop) :
    Simulation (timedSystem ι T maxSize) ok (system ι T maxSize) TimedState.base (fun _ => True) where
  init := fun _ start => ⟨start.1,trivial⟩
  step := fun _ _ _ _ _ _ taken => ⟨trivial,timedBase taken⟩

def Expired (s : TimedState ι T) : Prop := ∀ t due, s.phases t = .woken due false → due.nanos ≤ s.clock

omit [DecidableEq T] in
theorem Expired.moved {s : TimedState ι T} (expired : Expired s) {t : ι} {phase : Phase}
    (sound : ∀ due, phase = .woken due false → due.nanos ≤ s.clock) (base : State ι T) :
    Expired {s with base := base, phases := update s.phases t phase} := by
  intro u due late
  change update s.phases t phase u = .woken due false at late
  by_cases same : u = t
  · subst same
    rw [Function.update_self] at late
    exact sound due late
  · rw [Function.update_of_ne same] at late
    exact expired u due late

theorem expiredStep {s s' : TimedState ι T} {e} (expired : Expired s) (taken : timedStep s e = some s') :
    Expired s' := by
  cases timedMoves taken with
  | use moved => exact expired
  | ask outside => exact expired.moved (by simp) s.base
  | popFor asked moved next => exact expired.moved (by rcases next with rfl | rfl <;> simp) _
  | wakeUp sleeping =>
    refine expired.moved (fun due late => ?_) s.base
    simp only [Phase.woken.injEq,decide_eq_false_iff_not,Int.not_lt] at late
    obtain ⟨rfl,late⟩ := late
    exact late
  | timewake woken moved => exact expired.moved (by simp) _
  | @tick nanos =>
    intro t due late
    have before := expired t due late
    show due.nanos ≤ s.clock + nanos
    omega

/- A timed `pop` that returns false does it at its deadline or later, and takes nothing. -/
def GivesUpInTime (s : TimedState ι T) (e : TimedEvent ι T) (s' : TimedState ι T) : Prop :=
  ∀ t due waited, e = .timewake t none → s.phases t = .woken due waited →
    due.nanos ≤ s.clock ∧ s'.base.queue.toList = s.base.queue.toList

/- A thread that was woken early and has the lock back before its deadline finds an item. -/
def FindsItem (s : TimedState ι T) (e : TimedEvent ι T) : Prop :=
  ∀ t item due, e = .timewake t item → s.phases t = .woken due true → s.clock < due.nanos → 0 < s.base.queue.mSize

theorem timewakeEnds {s s' : TimedState ι T} {t : ι} {item : Option T}
    (taken : timedStep s (.timewake t item) = some s') :
    ∃ due waited, s.phases t = .woken due waited ∧ step s.base (.timewake t waited item) = some s'.base ∧
      (waited = true → (item = none ↔ s.base.queue.mSize ≤ 0)) := by
  cases timedMoves taken with
  | @timewake _ _ due waited base woken moved =>
    refine ⟨due,waited,woken,moved,?_⟩
    rintro rfl
    simp only [step,Option.ite_none_right_eq_some,if_true] at moved
    obtain ⟨pc,ends⟩ := attemptTries moved.2
    rcases tryPopEnds ends with ⟨empty,rfl,_⟩ | ⟨filled,x,_,rfl,_⟩
    · exact ⟨fun _ => empty,fun _ => rfl⟩
    · exact ⟨fun gaveUp => absurd gaveUp (Option.some_ne_none x),fun empty => absurd empty (Int.not_le.mpr filled)⟩

theorem givesUpExactly [Inhabited T] {maxSize : Int} (small : maxSize ≤ intMax)
    {ok : TimedState ι T → TimedEvent ι T → Prop} {s s' : TimedState ι T} {e : TimedEvent ι T}
    (reached : (timedSystem ι T maxSize).Reach ok s) (taken : timedStep s e = some s') :
    GivesUpInTime s e s' ↔ FindsItem s e := by
  have expired : Expired s := by
    refine (timedSystem ι T maxSize).invariant (fun s start t due late => ?_)
      (fun _ _ _ expired _ taken => expiredStep expired taken) reached
    rw [start.2 t] at late
    cases late
  have valid := reachValid small ((timedSimulation maxSize ok).reach reached).1
  constructor
  · rintro inTime t item due rfl woken early
    obtain ⟨due',waited,woken',_,ends⟩ := timewakeEnds taken
    cases woken.symm.trans woken'
    by_contra empty
    have gaveUp : item = none := (ends rfl).mpr (Int.not_lt.mp empty)
    subst gaveUp
    have late := (inTime t due true rfl woken).1
    omega
  · rintro finds t due waited rfl woken
    obtain ⟨due',waited',woken',moved,ends⟩ := timewakeEnds taken
    cases woken.symm.trans woken'
    refine ⟨?_,(stepFifo valid moved).2⟩
    cases waited with
    | false => exact expired t due woken
    | true =>
      by_contra early
      have filled := finds t none due rfl woken (Int.not_le.mp early)
      have empty := (ends rfl).mp rfl
      omega

/- In every run of producers, consumers and the clock, timed `pop`s give up at
their deadline exactly where every early wake-up that gets the lock in time
finds an item: the plain `pop` waits again, this one does not. -/
theorem timedPopExactly [Inhabited T] {maxSize : Int} (small : maxSize ≤ intMax) {s : TimedState ι T}
    (start : (timedSystem ι T maxSize).init s) (es : List (TimedEvent ι T)) :
    (timedSystem ι T maxSize).Throughout GivesUpInTime s es ↔
      (timedSystem ι T maxSize).Throughout (fun s e _ => FindsItem s e) s es := by
  refine (timedSystem ι T maxSize).throughoutExact ?_ (.init start) es
  intro s e s' reached taken
  exact givesUpExactly small reached taken

def queueOfTwo : TimedState Nat Nat := ⟨⟨⟨fun _ => 0,0,2,-1,-1⟩,fun _ => .outside⟩,fun _ => .outside,0⟩

theorem queueOfTwoStarts : (timedSystem Nat Nat 2).init queueOfTwo := ⟨⟨rfl,fun _ => rfl⟩,fun _ => rfl⟩

theorem itemEndsWait : (timedSystem Nat Nat 2).Throughout GivesUpInTime queueOfTwo
    [.ask 0 1000,.popFor 0 none,.use (.push 1 7 true),.wakeUp 0,.timewake 0 (some 7)] := by
  refine (timedPopExactly (by decide) queueOfTwoStarts _).mpr ?_
  iterate 4 refine ((timedSystem Nat Nat 2).throughoutSome _ rfl).mpr ⟨fun _ _ _ same => (by cases same),?_⟩
  exact ((timedSystem Nat Nat 2).throughoutSome _ rfl).mpr ⟨fun _ _ _ _ _ _ => (by decide),trivial⟩

theorem stolenItemEndsWait : (timedSystem Nat Nat 2).init queueOfTwo ∧
    ¬ (timedSystem Nat Nat 2).Throughout GivesUpInTime queueOfTwo
      [.ask 0 1000,.popFor 0 none,.use (.push 1 7 true),.wakeUp 0,.use (.pop 2 (some 7)),.timewake 0 none] := by
  refine ⟨queueOfTwoStarts,fun good => ?_⟩
  have last := (good _ rfl).2 _ rfl |>.2 _ rfl |>.2 _ rfl |>.2 _ rfl |>.2 _ rfl |>.1
  exact absurd (last 0 ⟨1,0⟩ true rfl rfl).1 (by decide)

end SimpleChat.BlockQueue
