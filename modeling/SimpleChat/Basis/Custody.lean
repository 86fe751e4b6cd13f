import Mathlib.Logic.ExistsUnique
import Mathlib.Logic.Function.Basic

/-! Resources that are handed on: each live resource has one holder, who alone may
pass it on or release it. -/
namespace Basis.Custody
open Function (update)

universe u v
variable {H : Type v} {R : Type u}

structure State (H : Type v) (R : Type u) where
  live : R → Bool
  held : H → Option R

inductive Event (H : Type v) (R : Type u) where
  | obtain_ (h : H) (r : R)
  | pass (h g : H)
  | release (h : H)

variable [DecidableEq H] [DecidableEq R]

def step (s : State H R) : Event H R → Option (State H R)
  | .obtain_ h r =>
      if s.live r = false ∧ s.held h = none then some ⟨update s.live r true,update s.held h (some r)⟩ else none
  | .pass h g =>
      if s.held g = none then some {s with held := update (update s.held h none) g (s.held h)} else none
  | .release h => match s.held h with
      | some r => some ⟨update s.live r false,update s.held h none⟩
      | none => none

structure Kept (s : State H R) : Prop where
  only : ∀ h g r, s.held h = some r → s.held g = some r → h = g
  live : ∀ h r, s.held h = some r → s.live r = true
  found : ∀ r, s.live r = true → ∃ h, s.held h = some r

omit [DecidableEq R] in
theorem keptPassed {s : State H R} (kept : Kept s) {h g : H} (free : s.held g = none) :
    Kept {s with held := update (update s.held h none) g (s.held h)} := by
  have was {k : H} {r : R} (now : update (update s.held h none) g (s.held h) k = some r) :
      (k = g ∧ s.held h = some r) ∨ (k ≠ g ∧ k ≠ h ∧ s.held k = some r) := by
    by_cases taker : k = g
    · subst taker
      exact .inl ⟨rfl,by rwa [Function.update_self] at now⟩
    · rw [Function.update_of_ne taker] at now
      by_cases giver : k = h
      · rw [giver,Function.update_self] at now
        cases now
      · rw [Function.update_of_ne giver] at now
        exact .inr ⟨taker,giver,now⟩
  refine ⟨fun k l r first second => ?_,fun k r now => ?_,fun r alive => ?_⟩
  · rcases was first with ⟨rfl,had⟩ | ⟨_,giver,has⟩ <;> rcases was second with ⟨rfl,had'⟩ | ⟨_,giver',has'⟩
    · rfl
    · exact absurd (kept.only _ _ _ has' had) giver'
    · exact absurd (kept.only _ _ _ has had') giver
    · exact kept.only _ _ _ has has'
  · rcases was now with ⟨_,had⟩ | ⟨_,_,has⟩
    · exact kept.live _ _ had
    · exact kept.live _ _ has
  · obtain ⟨k,has⟩ := kept.found r alive
    by_cases giver : k = h
    · exact ⟨g,by simp only [Function.update_self,← giver,has]⟩
    · refine ⟨k,?_⟩
      have taker : k ≠ g := fun same => by rw [same,free] at has; cases has
      simp only [Function.update_of_ne taker,Function.update_of_ne giver,has]

theorem stepKept {s s' : State H R} {e : Event H R} (kept : Kept s) (taken : step s e = some s') : Kept s' := by
  cases e with
  | obtain_ h r =>
    simp only [step,Option.ite_none_right_eq_some,Option.some.injEq] at taken
    obtain ⟨⟨fresh,free⟩,rfl⟩ := taken
    have other {k : H} {q : R} (has : s.held k = some q) : q ≠ r := fun same => by
      have alive := kept.live k q has
      rw [same,fresh] at alive
      cases alive
    have was {k : H} {q : R} (now : update s.held h (some r) k = some q) : (k = h ∧ q = r) ∨ (k ≠ h ∧ s.held k = some q) := by
      by_cases own : k = h
      · rw [own,Function.update_self] at now
        exact .inl ⟨own,(Option.some.inj now).symm⟩
      · exact .inr ⟨own,by rwa [Function.update_of_ne own] at now⟩
    refine ⟨fun k l q first second => ?_,fun k q now => ?_,fun q alive => ?_⟩
    · rcases was first with ⟨rfl,rfl⟩ | ⟨_,has⟩ <;> rcases was second with ⟨rfl,same⟩ | ⟨_,has'⟩
      · rfl
      · exact absurd rfl (other has')
      · exact absurd same (other has)
      · exact kept.only _ _ _ has has'
    · rcases was now with ⟨_,rfl⟩ | ⟨_,has⟩
      · exact Function.update_self ..
      · simp only [Function.update_of_ne (other has),kept.live _ _ has]
    · by_cases own : q = r
      · exact ⟨h,by simp only [own,Function.update_self]⟩
      · simp only [Function.update_of_ne own] at alive
        obtain ⟨k,has⟩ := kept.found q alive
        have empty : k ≠ h := fun same => by rw [same,free] at has; cases has
        exact ⟨k,by simp only [Function.update_of_ne empty,has]⟩
  | pass h g =>
    simp only [step,Option.ite_none_right_eq_some,Option.some.injEq] at taken
    obtain ⟨free,rfl⟩ := taken
    exact keptPassed kept free
  | release h =>
    simp only [step] at taken
    split at taken <;> try contradiction
    rename_i r had
    cases Option.some.inj taken
    have was {k : H} {q : R} (now : update s.held h none k = some q) : k ≠ h ∧ s.held k = some q := by
      by_cases own : k = h
      · rw [own,Function.update_self] at now
        cases now
      · exact ⟨own,by rwa [Function.update_of_ne own] at now⟩
    refine ⟨fun k l q first second => kept.only _ _ _ (was first).2 (was second).2,fun k q now => ?_,fun q alive => ?_⟩
    · obtain ⟨other,has⟩ := was now
      have apart : q ≠ r := fun same => other (kept.only _ _ _ has (same ▸ had))
      simp only [Function.update_of_ne apart,kept.live _ _ has]
    · by_cases own : q = r
      · simp only [own,Function.update_self] at alive
        cases alive
      · simp only [Function.update_of_ne own] at alive
        obtain ⟨k,has⟩ := kept.found q alive
        have other : k ≠ h := fun same => own (Option.some.inj (has.symm.trans (same ▸ had)))
        exact ⟨k,by simp only [Function.update_of_ne other,has]⟩

theorem heldFrom {s s' : State H R} {e : Event H R} (taken : step s e = some s') {h : H} {r : R} (has : s'.held h = some r) :
    s.held h = some r ∨ (e = .obtain_ h r ∧ s.live r = false) ∨ ∃ g, e = .pass g h ∧ s.held g = some r := by
  cases e with
  | obtain_ k q =>
    simp only [step,Option.ite_none_right_eq_some,Option.some.injEq] at taken
    obtain ⟨⟨fresh,_⟩,rfl⟩ := taken
    by_cases own : h = k
    · simp only [own,Function.update_self,Option.some.injEq] at has
      exact .inr (.inl ⟨by rw [own,has],has ▸ fresh⟩)
    · exact .inl (by simpa only [Function.update_of_ne own] using has)
  | pass k g =>
    simp only [step,Option.ite_none_right_eq_some,Option.some.injEq] at taken
    obtain ⟨_,rfl⟩ := taken
    by_cases own : h = g
    · simp only [own,Function.update_self] at has
      exact .inr (.inr ⟨k,by rw [own],has⟩)
    · simp only [Function.update_of_ne own] at has
      by_cases giver : h = k
      · rw [giver,Function.update_self] at has
        cases has
      · exact .inl (by rwa [Function.update_of_ne giver] at has)
  | release k =>
    simp only [step] at taken
    split at taken <;> try contradiction
    cases Option.some.inj taken
    by_cases own : h = k
    · simp only [own,Function.update_self] at has
      cases has
    · exact .inl (by simpa only [Function.update_of_ne own] using has)

theorem releaseHeld {s : State H R} {h : H} {r : R} (had : s.held h = some r) :
    step s (.release h) = some ⟨update s.live r false,update s.held h none⟩ := by
  simp only [step,had]

omit [DecidableEq H] [DecidableEq R] in
theorem startKept {s : State H R} (nothing : ∀ r, s.live r = false) (nobody : ∀ h, s.held h = none) : Kept s := by
  have empty {h : H} {r : R} (has : s.held h = some r) : False := by
    rw [nobody h] at has
    cases has
  exact ⟨fun _ _ _ has => (empty has).elim,fun _ _ has => (empty has).elim,fun r alive => absurd alive (by rw [nothing r]; decide)⟩

omit [DecidableEq H] [DecidableEq R] in
theorem Kept.holder {s : State H R} (kept : Kept s) {r : R} (alive : s.live r = true) : ∃! h, s.held h = some r := by
  obtain ⟨h,has⟩ := kept.found r alive
  exact ⟨h,has,fun g held => kept.only _ _ _ held has⟩

end Basis.Custody
