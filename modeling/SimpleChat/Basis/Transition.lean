import Mathlib.Algebra.GroupWithZero.Nat
import Mathlib.Logic.Function.Basic

/-! Guarded step functions, the states they reach and the runs they replay.
An event is enabled exactly when the step function returns a state, so one
definition serves replay by evaluation and proof by induction over runs. -/
namespace Basis

universe u v w

structure System (S : Type u) (E : Type v) where
  init : S → Prop
  step : S → E → Option S

namespace System
variable {S : Type u} {E : Type v} (sys : System S E)

inductive Reach (ok : S → E → Prop) : S → Prop where
  | init {s} (start : sys.init s) : Reach ok s
  | step {s e s'} (before : Reach ok s) (allowed : ok s e) (taken : sys.step s e = some s') :
      Reach ok s'

abbrev Reachable : S → Prop := sys.Reach (fun _ _ => True)

theorem invariant {ok : S → E → Prop} {P : S → Prop} (atInit : ∀ s, sys.init s → P s)
    (preserved : ∀ s e s', P s → ok s e → sys.step s e = some s' → P s')
    {s} (reached : sys.Reach ok s) : P s := by
  induction reached with
  | init start => exact atInit _ start
  | step before allowed taken ih => exact preserved _ _ _ ih allowed taken

def run : S → List E → Option S
  | s, [] => some s
  | s, e :: es => (sys.step s e).bind (fun s' => run s' es)

theorem runReach {ok : S → E → Prop} {s} (reached : sys.Reach ok s) (es : List E) {s'}
    (allowed : ∀ s, ∀ e ∈ es, ok s e) (ran : sys.run s es = some s') : sys.Reach ok s' := by
  induction es generalizing s with
  | nil => cases Option.some.inj ran; exact reached
  | cons e es ih =>
    obtain ⟨next, taken, rest⟩ := Option.bind_eq_some_iff.mp ran
    exact ih (.step reached (allowed s e List.mem_cons_self) taken)
      (fun t f member => allowed t f (List.mem_cons_of_mem e member)) rest

theorem runReachable {s} (reached : sys.Reachable s) (es : List E) {s'} (ran : sys.run s es = some s') :
    sys.Reachable s' :=
  sys.runReach reached es (fun _ _ _ => trivial) ran

theorem runFold {H : Type*} {P : S → H → Prop} {next : H → E → H}
    (preserved : ∀ s h e s', P s h → sys.step s e = some s' → P s' (next h e))
    {s h} (held : P s h) (es : List E) {s'} (ran : sys.run s es = some s') : P s' (es.foldl next h) := by
  induction es generalizing s h with
  | nil => cases Option.some.inj ran; exact held
  | cons e es ih =>
    obtain ⟨between, taken, rest⟩ := Option.bind_eq_some_iff.mp ran
    exact ih (preserved s h e between held taken) rest

theorem runHistory {H : Type*} {P : S → List H → Prop} {shown : E → Option H}
    (preserved : ∀ s h e s', P s h → sys.step s e = some s' → P s' (h ++ (shown e).toList))
    {s h} (held : P s h) (es : List E) {s'} (ran : sys.run s es = some s') : P s' (h ++ es.filterMap shown) := by
  induction es generalizing s h with
  | nil => cases Option.some.inj ran; rwa [List.filterMap_nil, List.append_nil]
  | cons e es ih =>
    obtain ⟨between, taken, rest⟩ := Option.bind_eq_some_iff.mp ran
    have later := ih (preserved s h e between held taken) rest
    rw [List.append_assoc] at later
    cases visible : shown e with
    | none => rwa [visible, Option.toList_none, List.nil_append, ← List.filterMap_cons_none visible] at later
    | some x => rwa [visible, Option.toList_some, List.singleton_append, ← List.filterMap_cons_some visible] at later

theorem runKeeps {P : S → Prop} (preserved : ∀ s e s', P s → sys.step s e = some s' → P s') {s} (held : P s)
    (es : List E) {s'} (ran : sys.run s es = some s') : P s' :=
  @runFold S E sys Unit (fun s _ => P s) (fun h _ => h) (fun s _ e s' => preserved s e s') s () held es s' ran

theorem runPotential {P : S → Prop} (costs : E → Bool) (potential : S → Nat)
    (pays : ∀ s e s', P s → sys.step s e = some s' → P s' ∧ (if costs e then 1 else 0) + potential s' ≤ potential s)
    {s} (held : P s) (es : List E) {s'} (ran : sys.run s es = some s') : es.countP costs + potential s' ≤ potential s := by
  induction es generalizing s with
  | nil => cases Option.some.inj ran; simp
  | cons e es ih =>
    obtain ⟨between, taken, rest⟩ := Option.bind_eq_some_iff.mp ran
    obtain ⟨holds, paid⟩ := pays s e between held taken
    have later := ih holds rest
    rw [List.countP_cons]
    omega

theorem runBudget {P : S → Prop} (costs : E → Bool) (brings : E → Nat) (price : Nat) (potential : S → Nat)
    (pays : ∀ s e s', P s → sys.step s e = some s' →
      P s' ∧ (if costs e then 1 else 0) + potential s' ≤ potential s + price * brings e)
    {s} (held : P s) (es : List E) {s'} (ran : sys.run s es = some s') :
    es.countP costs + potential s' ≤ potential s + price * (es.map brings).sum := by
  induction es generalizing s with
  | nil => cases Option.some.inj ran; simp
  | cons e es ih =>
    obtain ⟨between, taken, rest⟩ := Option.bind_eq_some_iff.mp ran
    obtain ⟨holds, paid⟩ := pays s e between held taken
    have later := ih holds rest
    simp only [List.countP_cons, List.map_cons, List.sum_cons, Nat.mul_add]
    omega

theorem runsDown {P rest : S → Prop} {own : E → Prop} (potential : S → Nat)
    (goes : ∀ s, P s → rest s ∨ ∃ e s', own e ∧ sys.step s e = some s' ∧ P s' ∧ potential s' < potential s)
    {s} (held : P s) : ∃ es s', (∀ e ∈ es, own e) ∧ sys.run s es = some s' ∧ P s' ∧ rest s' := by
  generalize most : potential s = n
  induction n using Nat.strongRecOn generalizing s with
  | ind n ih =>
    rcases goes s held with still | ⟨e, s', mine, taken, held', less⟩
    · exact ⟨[], s, by simp, rfl, held, still⟩
    · obtain ⟨es, t, owns, ran, good, still⟩ := ih (potential s') (most ▸ less) held' rfl
      refine ⟨e :: es, t, List.forall_mem_cons.mpr ⟨mine, owns⟩, ?_, good, still⟩
      exact Option.bind_eq_some_iff.mpr ⟨s', taken, ran⟩

def checkedRun (ok : S → E → Prop) [∀ s e, Decidable (ok s e)] : S → List E → Option S
  | s, [] => some s
  | s, e :: es => if ok s e then (sys.step s e).bind (fun s' => checkedRun ok s' es) else none

theorem checkedReach {ok : S → E → Prop} [∀ s e, Decidable (ok s e)] {s} (reached : sys.Reach ok s) (es : List E)
    {s'} (ran : sys.checkedRun ok s es = some s') : sys.Reach ok s' := by
  induction es generalizing s with
  | nil => cases Option.some.inj ran; exact reached
  | cons e es ih =>
    simp only [checkedRun,Option.ite_none_right_eq_some] at ran
    obtain ⟨allowed, ran⟩ := ran
    obtain ⟨next, taken, rest⟩ := Option.bind_eq_some_iff.mp ran
    exact ih (.step reached allowed taken) rest

/- `Q` holds of every step the event list makes from `s`, up to the first
event that is not enabled. -/
def Throughout (Q : S → E → S → Prop) : S → List E → Prop
  | _, [] => True
  | s, e :: es => ∀ s', sys.step s e = some s' → Q s e s' ∧ Throughout Q s' es

theorem throughoutNone {Q : S → E → S → Prop} {s e} (es : List E) (blocked : sys.step s e = none) :
    sys.Throughout Q s (e :: es) :=
  fun s' taken => by rw [blocked] at taken; cases taken

theorem throughoutSome {Q : S → E → S → Prop} {s e s'} (es : List E) (moved : sys.step s e = some s') :
    sys.Throughout Q s (e :: es) ↔ Q s e s' ∧ sys.Throughout Q s' es := by
  constructor
  · exact fun good => good s' moved
  · intro good t taken
    cases Option.some.inj (moved.symm.trans taken)
    exact good

instance decidableThroughout (Q : S → E → S → Prop) [∀ s e s', Decidable (Q s e s')] :
    ∀ s es, Decidable (sys.Throughout Q s es)
  | _, [] => .isTrue trivial
  | s, e :: es => match moved : sys.step s e with
      | none => .isTrue (sys.throughoutNone es moved)
      | some s' =>
          have := decidableThroughout Q s' es
          decidable_of_iff _ (sys.throughoutSome es moved).symm

theorem throughoutAnd {P Q : S → E → S → Prop} {s} (es : List E) :
    sys.Throughout (fun s e s' => P s e s' ∧ Q s e s') s es ↔ sys.Throughout P s es ∧ sys.Throughout Q s es := by
  induction es generalizing s with
  | nil => exact ⟨fun _ => ⟨trivial,trivial⟩,fun _ => trivial⟩
  | cons e es ih =>
    constructor
    · intro both
      exact ⟨fun s' taken => ⟨(both s' taken).1.1,(ih.mp (both s' taken).2).1⟩,
        fun s' taken => ⟨(both s' taken).1.2,(ih.mp (both s' taken).2).2⟩⟩
    · intro both s' taken
      exact ⟨⟨(both.1 s' taken).1,(both.2 s' taken).1⟩,ih.mpr ⟨(both.1 s' taken).2,(both.2 s' taken).2⟩⟩

theorem throughoutOf {ok : S → E → Prop} {Q : S → E → S → Prop}
    (good : ∀ s e s', sys.Reach ok s → sys.step s e = some s' → ok s e → Q s e s')
    {s} (reached : sys.Reach ok s) (es : List E) (allowed : sys.Throughout (fun s e _ => ok s e) s es) :
    sys.Throughout Q s es := by
  induction es generalizing s with
  | nil => trivial
  | cons e es ih =>
    intro s' taken
    have meets := (allowed s' taken).1
    exact ⟨good s e s' reached taken meets, ih (.step reached meets taken) (allowed s' taken).2⟩

theorem throughoutKept {P : S → Prop} {Q : S → E → S → Prop}
    (good : ∀ s e s', P s → sys.step s e = some s' → P s' ∧ Q s e s') {s} (held : P s) (es : List E) :
    sys.Throughout Q s es := by
  induction es generalizing s with
  | nil => trivial
  | cons e es ih => exact fun s' taken => ⟨(good s e s' held taken).2,ih (good s e s' held taken).1⟩

/- Where one step is good exactly when it meets `ok`, from every state that
`ok` steps reach, a whole run is good exactly when all its steps meet `ok`. -/
theorem throughoutExact {ok : S → E → Prop} {Q : S → E → S → Prop}
    (exact : ∀ s e s', sys.Reach ok s → sys.step s e = some s' → (Q s e s' ↔ ok s e))
    {s} (reached : sys.Reach ok s) (es : List E) :
    sys.Throughout Q s es ↔ sys.Throughout (fun s e _ => ok s e) s es := by
  refine ⟨fun good => ?_, sys.throughoutOf (fun s e s' reached taken => (exact s e s' reached taken).mpr) reached es⟩
  induction es generalizing s with
  | nil => trivial
  | cons e es ih =>
    intro s' taken
    have meets := (exact s e s' reached taken).mp (good s' taken).1
    exact ⟨meets, ih (.step reached meets taken) (good s' taken).2⟩

end System

theorem System.runView {S : Type u} {E : Type v} {T : Type u} {F : Type w} {conc : System S E} {abs : System T F}
    {view : S → T} {shown : E → Option F}
    (moves : ∀ s e s' f, shown e = some f → conc.step s e = some s' → abs.step (view s) f = some (view s'))
    (still : ∀ s e s', shown e = none → conc.step s e = some s' → view s' = view s)
    {s} (es : List E) {s'} (ran : conc.run s es = some s') : abs.run (view s) (es.filterMap shown) = some (view s') := by
  induction es generalizing s with
  | nil => cases Option.some.inj ran; rfl
  | cons e es ih =>
    obtain ⟨next, taken, rest⟩ := Option.bind_eq_some_iff.mp ran
    have later := ih rest
    cases visible : shown e with
    | none => rwa [List.filterMap_cons_none visible, ← still s e next visible taken]
    | some f =>
      rw [List.filterMap_cons_some visible]
      exact Option.bind_eq_some_iff.mpr ⟨view next, moves s e next f visible taken, later⟩

/- Each step shows as one step of `abs` or not at all; `side` is what else must
be known of a state to see that. -/
structure Simulation {S : Type u} {E : Type v} {T : Type u} {F : Type w} (conc : System S E)
    (ok : S → E → Prop) (abs : System T F) (view : S → T) (side : S → Prop) : Prop where
  init : ∀ s, conc.init s → abs.init (view s) ∧ side s
  step : ∀ s e s', abs.Reachable (view s) → side s → ok s e → conc.step s e = some s' →
    side s' ∧ (view s' = view s ∨ ∃ f, abs.step (view s) f = some (view s'))

theorem Simulation.reach {S : Type u} {E : Type v} {T : Type u} {F : Type w} {conc : System S E}
    {ok : S → E → Prop} {abs : System T F} {view : S → T} {side : S → Prop}
    (sim : Simulation conc ok abs view side) {s} (reached : conc.Reach ok s) :
    abs.Reachable (view s) ∧ side s := by
  induction reached with
  | init start =>
    obtain ⟨begins, sound⟩ := sim.init _ start
    exact ⟨.init begins, sound⟩
  | step before allowed taken ih =>
    obtain ⟨sound, same | ⟨f, moved⟩⟩ := sim.step _ _ _ ih.1 ih.2 allowed taken
    · exact ⟨same ▸ ih.1, sound⟩
    · exact ⟨.step ih.1 trivial moved, sound⟩

theorem forwardSimulation {S : Type u} {E : Type v} {T : Type u} {F : Type w} {conc : System S E} {ok : S → E → Prop}
    {abs : System T F} {fine : T → F → Prop} {R : S → T → Prop} (init : ∀ s, conc.init s → ∃ t, abs.init t ∧ R s t)
    (step : ∀ s t e s', R s t → ok s e → conc.step s e = some s' →
      R s' t ∨ ∃ f t', fine t f ∧ abs.step t f = some t' ∧ R s' t')
    {s} (reached : conc.Reach ok s) : ∃ t, abs.Reach fine t ∧ R s t := by
  induction reached with
  | init start =>
    obtain ⟨t,begins,related⟩ := init _ start
    exact ⟨t,.init begins,related⟩
  | step before allowed taken ih =>
    obtain ⟨t,reached,related⟩ := ih
    rcases step _ t _ _ related allowed taken with same | ⟨f,t',fine,moved,related'⟩
    · exact ⟨t,reached,same⟩
    · exact ⟨t',.step reached fine moved,related'⟩

end Basis
