import Mathlib.Data.List.Count
import Mathlib.Data.List.Nodup
import Mathlib.Order.Basic
import SimpleChat.Basis.Transition

/-! Dated entries filed in numbered parts. An entry whose day differs from that
of the open file begins part 0 of its date and sets the count back; otherwise
every entry that makes the count a multiple of `split` begins the next part. -/
namespace Basis.Rotation

universe u
variable {D Δ : Type u}

structure State (D Δ : Type u) where
  today : Δ
  count : Nat
  current : D × Nat
  opened : List (D × Nat)
  filed : List (D × Nat)

def begin (day : D → Δ) (d : D) : State D Δ := ⟨day d,0,(d,0),[(d,0)],[]⟩

def file (s : State D Δ) : State D Δ := {s with filed := s.filed ++ [s.current]}

def turn (s : State D Δ) (f : D × Nat) : State D Δ := {s with current := f, opened := s.opened ++ [f]}

def enter [DecidableEq Δ] (day : D → Δ) (split reset : Nat) (s : State D Δ) (d : D) : State D Δ :=
  if s.today ≠ day d then file (turn {s with today := day d, count := reset} (d,0))
  else if (s.count + 1) % split = 0 then file (turn {s with count := s.count + 1} (d,(s.count + 1) / split))
  else file {s with count := s.count + 1}

def Turns (day : D → Δ) (split : Nat) (s : State D Δ) (d : D) : Prop := s.today ≠ day d ∨ (s.count + 1) % split = 0

def part [DecidableEq Δ] (day : D → Δ) (split : Nat) (s : State D Δ) (d : D) : Nat :=
  if s.today ≠ day d then 0 else (s.count + 1) / split

def counted [DecidableEq Δ] (day : D → Δ) (reset : Nat) (s : State D Δ) (d : D) : Nat :=
  if s.today ≠ day d then reset else s.count + 1

section Enter
variable [DecidableEq Δ] {day : D → Δ} {split : Nat} {s : State D Δ} {d : D}

theorem enterTurns (turns : Turns day split s d) (reset : Nat) :
    enter day split reset s d =
      file (turn {s with today := day d, count := counted day reset s d} (d,part day split s d)) := by
  by_cases other : s.today ≠ day d
  · simp only [enter,counted,part,if_pos other]
  · have full : (s.count + 1) % split = 0 := turns.resolve_left other
    have same : s.today = day d := not_not.mp other
    simp only [enter,counted,part,if_neg other,if_pos full]
    rw [← same]

theorem enterStays (stays : ¬ Turns day split s d) (reset : Nat) :
    enter day split reset s d = file {s with count := s.count + 1} := by
  obtain ⟨same,within⟩ := not_or.mp stays
  simp only [enter,if_neg same,if_neg within]

theorem partReached (reset : Nat) : part day split s d ≤ counted day reset s d / split := by
  unfold part counted
  split
  · exact Nat.zero_le _
  · exact Nat.le_refl _

end Enter

def system [DecidableEq Δ] (day : D → Δ) (split reset : Nat) : System (State D Δ) D :=
  ⟨fun s => ∃ d, s = begin day d,fun s d => some (enter day split reset s d)⟩

theorem modNext {split c : Nat} (positive : 0 < split) (within : (c + 1) % split ≠ 0) : (c + 1) % split = c % split + 1 := by
  have small := Nat.mod_lt c positive
  rw [Nat.add_mod] at within ⊢
  rcases Nat.lt_or_ge (c % split + 1) split with less | more
  · rw [Nat.mod_eq_of_lt (show 1 < split by omega)] at within ⊢
    exact Nat.mod_eq_of_lt less
  · have full : c % split + 1 = split := by omega
    rcases Nat.lt_or_ge 1 split with several | one
    · rw [Nat.mod_eq_of_lt several,full,Nat.mod_self] at within
      exact absurd rfl within
    · rw [show split = 1 by omega,Nat.mod_one] at within
      exact absurd rfl within

theorem divNext {split c : Nat} (full : (c + 1) % split = 0) : c / split < (c + 1) / split := by
  have whole : split * ((c + 1) / split) = c + 1 := Nat.mul_div_cancel' (Nat.dvd_of_mod_eq_zero full)
  exact Nat.div_lt_of_lt_mul (by omega)

theorem countOther [DecidableEq D] {f g : D × Nat} (other : f ≠ g) (filed : List (D × Nat)) :
    (filed ++ [g]).count f = filed.count f := by
  rw [List.count_append,List.count_singleton,beq_false_of_ne other.symm]
  rfl

section Order
variable [PartialOrder D]

def Onward (day : D → Δ) (split : Nat) (s : State D Δ) (d : D) : Prop := Turns day split s d → s.current.1 ≤ d

variable [DecidableEq D]

/- A file of the open file's date has a part that the count has reached, the open
file holds no more than its share, and no other file more than `split`. -/
structure Kept (day : D → Δ) (split : Nat) (s : State D Δ) : Prop where
  today : day s.current.1 = s.today
  opens : s.current ∈ s.opened
  past : ∀ f ∈ s.opened, f.1 ≤ s.current.1
  parts : ∀ f ∈ s.opened, f.1 = s.current.1 → f.2 ≤ s.count / split
  fresh : s.opened.Nodup
  ordered : (s.opened.map Prod.fst).Pairwise (· ≤ ·)
  known : ∀ f ∈ s.filed, f ∈ s.opened
  share : s.filed.count s.current ≤ s.count % split + 1
  bound : ∀ f, s.filed.count f ≤ split

section Steps
variable {day : D → Δ} {split : Nat} {s : State D Δ} {d : D}

theorem beginKept (d : D) : Kept day split (begin day d) where
  today := rfl
  opens := by simp [begin]
  past := by simp [begin]
  parts := by simp [begin]
  fresh := by simp [begin]
  ordered := by simp [begin]
  known := by simp [begin]
  share := by simp [begin]
  bound := by simp [begin]

theorem Kept.older (kept : Kept day split s) (onward : s.current.1 ≤ d) {f : D × Nat} (opened : f ∈ s.opened)
    (same : f.1 = d) :
    d = s.current.1 ∧ f.2 ≤ s.count / split := by
  have last : s.current.1 = d := le_antisymm onward (same ▸ kept.past f opened)
  exact ⟨last.symm,kept.parts f opened (same.trans last.symm)⟩

theorem Kept.stay (kept : Kept day split s) (positive : 0 < split) (within : (s.count + 1) % split ≠ 0) :
    Kept day split (file {s with count := s.count + 1}) := by
  have next := modNext positive within
  have small := Nat.mod_lt (s.count + 1) positive
  have share : (s.filed ++ [s.current]).count s.current ≤ (s.count + 1) % split + 1 := by
    have before := kept.share
    rw [List.count_append,List.count_singleton_self]
    omega
  refine ⟨kept.today,kept.opens,kept.past,fun f opened now => ?_,kept.fresh,kept.ordered,fun f member => ?_,share,fun f => ?_⟩
  · exact Nat.le_trans (kept.parts f opened now) (Nat.div_le_div_right (Nat.le_succ _))
  · rcases List.mem_append.mp member with before | now
    · exact kept.known f before
    · exact List.mem_singleton.mp now ▸ kept.opens
  · simp only [file]
    rcases eq_or_ne f s.current with rfl | other
    · omega
    · rw [countOther other]
      exact kept.bound f

theorem Kept.turned (kept : Kept day split s) (positive : 0 < split) (onward : s.current.1 ≤ d) {count k : Nat}
    (older : ∀ f ∈ s.opened, f.1 = d → f.2 < k) (reached : k ≤ count / split) :
    Kept day split (file (turn {s with today := day d, count := count} (d,k))) := by
  have unseen : (d,k) ∉ s.opened := fun opened => Nat.lt_irrefl k (older _ opened rfl)
  have unfiled : s.filed.count (d,k) = 0 := List.count_eq_zero.mpr (fun member => unseen (kept.known _ member))
  have one : (s.filed ++ [(d,k)]).count (d,k) = 1 := by
    rw [List.count_append,unfiled,List.count_singleton_self]
  refine ⟨rfl,List.mem_append_right _ List.mem_cons_self,fun f member => ?_,fun f member now => ?_,?_,?_,
    fun f member => ?_,?_,fun f => ?_⟩
  · rcases List.mem_append.mp member with before | new
    · exact le_trans (kept.past f before) onward
    · rw [List.mem_singleton.mp new]
      exact le_refl d
  · rcases List.mem_append.mp member with before | new
    · exact Nat.le_trans (Nat.le_of_lt (older f before now)) reached
    · rw [List.mem_singleton.mp new]
      exact reached
  · exact List.Nodup.append kept.fresh (List.nodup_singleton _) (by simpa using unseen)
  · simp only [file,turn,List.map_append,List.map_cons,List.map_nil]
    refine List.pairwise_append.mpr ⟨kept.ordered,List.pairwise_singleton _ _,fun a early b late => ?_⟩
    obtain ⟨f,opened,rfl⟩ := List.mem_map.mp early
    rw [List.mem_singleton.mp late]
    exact le_trans (kept.past f opened) onward
  · rcases List.mem_append.mp member with before | new
    · exact List.mem_append_left _ (kept.known f before)
    · exact List.mem_append_right _ new
  · simp only [file,turn,one]
    exact Nat.le_add_left 1 _
  · simp only [file,turn]
    rcases eq_or_ne f (d,k) with rfl | other
    · omega
    · rw [countOther other]
      exact kept.bound f

theorem Kept.partOlder [DecidableEq Δ] (kept : Kept day split s) (onward : s.current.1 ≤ d) (turns : Turns day split s d)
    {f : D × Nat} (opened : f ∈ s.opened) (same : f.1 = d) : f.2 < part day split s d := by
  obtain ⟨last,reached⟩ := kept.older onward opened same
  have today : ¬ s.today ≠ day d := fun other => other (last ▸ kept.today.symm)
  rw [part,if_neg today]
  exact Nat.lt_of_le_of_lt reached (divNext (turns.resolve_left today))

theorem Kept.unseen [DecidableEq Δ] (kept : Kept day split s) (onward : s.current.1 ≤ d) (turns : Turns day split s d) :
    (d,part day split s d) ∉ s.opened :=
  fun opened => Nat.lt_irrefl _ (kept.partOlder onward turns opened rfl)

theorem enterKept [DecidableEq Δ] (kept : Kept day split s) (positive : 0 < split) (reset : Nat)
    (onward : Onward day split s d) : Kept day split (enter day split reset s d) := by
  by_cases turns : Turns day split s d
  · have forward := onward turns
    rw [enterTurns turns]
    exact kept.turned positive forward (fun f opened same => kept.partOlder forward turns opened same) (partReached reset)
  · rw [enterStays turns]
    exact kept.stay positive (not_or.mp turns).2

theorem Kept.named (kept : Kept day split s) {N : Type*} [BEq N] [LawfulBEq N] {name : D × Nat → N}
    (injective : Function.Injective name) (n : N) : (s.filed.map name).count n ≤ split := by
  by_cases named : ∃ f, name f = n
  · obtain ⟨f,rfl⟩ := named
    rw [List.count_map_of_injective _ _ injective]
    exact kept.bound f
  · have unseen : n ∉ s.filed.map name := fun member => by
      obtain ⟨f,_,same⟩ := List.mem_map.mp member
      exact named ⟨f,same⟩
    rw [List.count_eq_zero.mpr unseen]
    exact Nat.zero_le _

end Steps

theorem reachKept [DecidableEq Δ] {day : D → Δ} {split : Nat} (positive : 0 < split) {reset : Nat} {s : State D Δ}
    (reached : (system day split reset).Reach (Onward day split) s) : Kept day split s := by
  refine (system day split reset).invariant (fun s start => ?_) (fun s d s' kept onward taken => ?_) reached
  · obtain ⟨d,rfl⟩ := start
    exact beginKept d
  · cases Option.some.inj taken
    exact enterKept kept positive reset onward

end Order
end Basis.Rotation
