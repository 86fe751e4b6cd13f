import SimpleChat.Basis.Transition

/-! A value behind a mutex and a condition variable. A thread sleeps only when it
has found the guard false, and whoever makes the guard true wakes them all; so
nobody sleeps while the guard holds. -/
namespace Basis.Monitor
open Function (update)

universe u v
variable {ι : Type v} {α : Type u}

inductive Status where
  | awake
  | asleep
  | woken
  deriving DecidableEq, Repr

def Status.wake : Status → Status
  | .asleep => .woken
  | status => status

structure State (ι : Type v) (α : Type u) where
  value : α
  status : ι → Status

/- `act` is one critical section that ends awake, with a broadcast or without;
`stir` is a wake-up, asked for or not, and `quit` ends a wait that did not succeed. -/
inductive Event (ι : Type v) (α : Type u) where
  | act (t : ι) (value : α) (wakes : Bool)
  | sleep (t : ι)
  | stir (t : ι)
  | quit (t : ι)

variable [DecidableEq ι] (guard : α → Prop) [DecidablePred guard]

def step (s : State ι α) : Event ι α → Option (State ι α)
  | .act t value wakes =>
      if s.status t ≠ .asleep ∧ (wakes = true ∨ (guard value → guard s.value)) then
        let status := if wakes then fun t => (s.status t).wake else s.status
        some ⟨value,update status t .awake⟩
      else none
  | .sleep t => if s.status t ≠ .asleep ∧ ¬ guard s.value then some {s with status := update s.status t .asleep} else none
  | .stir t => if s.status t = .asleep then some {s with status := update s.status t .woken} else none
  | .quit t => if s.status t = .asleep then some {s with status := update s.status t .awake} else none

def system (ι : Type v) [DecidableEq ι] (guard : α → Prop) [DecidablePred guard] (begins : α → Prop) :
    System (State ι α) (Event ι α) := ⟨fun s => begins s.value ∧ ∀ t, s.status t = .awake,step guard⟩

def Attentive (s : State ι α) : Prop := ∀ t, s.status t = .asleep → ¬ guard s.value

variable {guard}

omit [DecidablePred guard] in
theorem attentiveMoved {s : State ι α} (attentive : Attentive guard s) {t : ι} {status : Status} (up : status ≠ .asleep) :
    Attentive guard {s with status := update s.status t status} := by
  intro u asleep
  by_cases own : u = t
  · subst own
    exact absurd ((Function.update_self u status s.status).symm.trans asleep) up
  · exact attentive u ((Function.update_of_ne own status s.status).symm.trans asleep)

theorem stepAttentive {s s' : State ι α} {e : Event ι α} (attentive : Attentive guard s) (taken : step guard s e = some s') :
    Attentive guard s' := by
  cases e with
  | act t value wakes =>
    simp only [step,Option.ite_none_right_eq_some,Option.some.injEq] at taken
    obtain ⟨⟨_,announced⟩,rfl⟩ := taken
    cases wakes with
    | true =>
      intro u asleep
      by_cases own : u = t
      · simp [own] at asleep
      · simp only [if_true,Function.update_of_ne own] at asleep
        cases before : s.status u <;> rw [before] at asleep <;> cases asleep
    | false =>
      have kept := announced.resolve_left (by decide)
      have quiet : Attentive guard (⟨value,s.status⟩ : State ι α) :=
        fun u asleep holds => attentive u asleep (kept holds)
      exact attentiveMoved quiet (by decide)
  | sleep t =>
    simp only [step,Option.ite_none_right_eq_some,Option.some.injEq] at taken
    obtain ⟨⟨_,unguarded⟩,rfl⟩ := taken
    exact fun _ _ => unguarded
  | stir t | quit t =>
    simp only [step,Option.ite_none_right_eq_some,Option.some.injEq] at taken
    obtain ⟨_,rfl⟩ := taken
    exact attentiveMoved attentive (by decide)

theorem reachAttentive {begins : α → Prop} {s : State ι α} (reached : (system ι guard begins).Reachable s) :
    Attentive guard s := by
  refine (system ι guard begins).invariant (fun s start t asleep => ?_) (fun _ _ _ attentive _ taken => stepAttentive attentive taken)
    reached
  rw [start.2 t] at asleep
  cases asleep

end Basis.Monitor
