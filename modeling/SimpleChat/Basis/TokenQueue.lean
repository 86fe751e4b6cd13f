import SimpleChat.Basis.Transition

/-! A list whose elements are announced by tokens of a counting semaphore. The
insertion precedes its token and the removal follows it, so at any time some
producers stand after an insertion and some consumers before a removal. The
counts of both gaps are part of the state; who stands there is not. -/
namespace Basis.TokenQueue

universe u
variable {α : Type u}

structure State (α : Type u) where
  items : List α
  tokens : Nat
  posting : Nat
  taking : Nat
  inserted : List α
  removed : List α

inductive Event (α : Type u) where
  | insert (x : α)
  | post
  | wait
  | remove
  deriving DecidableEq, Repr

def step (s : State α) : Event α → Option (State α)
  | .insert x => some {s with items := s.items ++ [x], posting := s.posting + 1, inserted := s.inserted ++ [x]}
  | .post => if 0 < s.posting then some {s with posting := s.posting - 1, tokens := s.tokens + 1} else none
  | .wait => if 0 < s.tokens then some {s with tokens := s.tokens - 1, taking := s.taking + 1} else none
  | .remove => match s.items with
      | [] => none
      | x :: rest =>
          if 0 < s.taking then some {s with items := rest, taking := s.taking - 1, removed := s.removed ++ [x]}
          else none

def empty : State α := ⟨[], 0, 0, 0, [], []⟩

def system (α : Type u) : System (State α) (Event α) := ⟨fun s => s = empty, step⟩

/- Every element has exactly one of: a token, a producer about to post it, a
consumer that already took it; and the list is the insertions less the removals. -/
structure Balanced (s : State α) : Prop where
  count : s.tokens + s.taking + s.posting = s.items.length
  order : s.removed ++ s.items = s.inserted

theorem emptyBalanced : Balanced (empty : State α) := ⟨rfl, rfl⟩

theorem stepBalanced {s : State α} {e s'} (balanced : Balanced s) (taken : step s e = some s') :
    Balanced s' := by
  obtain ⟨count, order⟩ := balanced
  cases e with
  | insert x =>
    cases Option.some.inj taken
    constructor
    · simp only [List.length_append, List.length_singleton]; omega
    · simp only [← List.append_assoc, order]
  | post =>
    simp only [step, Option.ite_none_right_eq_some, Option.some.injEq] at taken
    obtain ⟨pending, rfl⟩ := taken
    exact ⟨by simp only; omega, order⟩
  | wait =>
    simp only [step, Option.ite_none_right_eq_some, Option.some.injEq] at taken
    obtain ⟨available, rfl⟩ := taken
    exact ⟨by simp only; omega, order⟩
  | remove =>
    cases items : s.items with
    | nil => simp [step, items] at taken
    | cons x rest =>
      simp only [step, items, Option.ite_none_right_eq_some, Option.some.injEq] at taken
      obtain ⟨admitted, rfl⟩ := taken
      rw [items] at count order
      exact ⟨by simp only [List.length_cons] at count ⊢; omega, by simpa using order⟩

theorem reachBalanced {s : State α} (reached : (system α).Reachable s) : Balanced s :=
  (system α).invariant (fun _ start => start ▸ emptyBalanced) (fun _ _ _ balanced _ => stepBalanced balanced) reached

theorem Balanced.takerFinds {s : State α} (balanced : Balanced s) (taking : 0 < s.taking) : s.items ≠ [] := by
  intro none
  have count := balanced.count
  simp only [none, List.length_nil] at count
  omega

theorem Balanced.announced {s : State α} (balanced : Balanced s) (present : s.items ≠ [])
    (quiet : s.posting = 0) : 0 < s.tokens ∨ 0 < s.taking := by
  have count := balanced.count
  have some := List.length_pos_iff.mpr present
  omega

theorem Balanced.position {s : State α} (balanced : Balanced s) {k : Nat} {x : α}
    (found : s.inserted[k]? = some x) :
    (k < s.removed.length ∧ s.removed[k]? = some x) ∨
    (s.removed.length ≤ k ∧ s.items[k - s.removed.length]? = some x) := by
  rw [← balanced.order] at found
  rcases Nat.lt_or_ge k s.removed.length with early | late
  · exact .inl ⟨early, by rwa [List.getElem?_append_left early] at found⟩
  · exact .inr ⟨late, by rwa [List.getElem?_append_right late] at found⟩

end Basis.TokenQueue
