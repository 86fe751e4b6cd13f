import SimpleChat.SqlClients

/-! What the guards of the connection pool take and put back. A guard gives back another
pointer than it took, but as many: the semaphore and the length of the list follow
from where the guards are, and `GetConnection` throws in no run. -/
namespace SimpleChat.SqlPool
open Basis (System tally tallyUpdate)
open Function (update)

variable {ω κ : Type}

inductive Guards [DecidableEq ω] (s s' : State ω κ) : Event ω κ → Prop where
  | construct {t : ω} {conn : κ} (here : s.guards t = .absent) (conlist : s'.conlist = s.conlist)
      (guards : s'.guards = update s.guards t (.saved conn (s.mSql conn))) : Guards s s' (.construct t conn)
  | wait {t : ω} {conn : κ} {old : MysqlPtr} {value : Nat} (here : s.guards t = .saved conn old)
      (token : s.conlist.mSem = some (value + 1)) (conlist : s'.conlist = {s.conlist with mSem := some value})
      (guards : s'.guards = update s.guards t (.admitted conn old)) : Guards s s' (.wait t)
  | threw {t : ω} {conn : κ} {old : MysqlPtr} {message : String} (here : s.guards t = .admitted conn old)
      (nothing : s.conlist.list = []) (guards : s'.guards = update s.guards t (.threw message)) : Guards s s' (.pop t)
  | pop {t : ω} {conn : κ} {old con : MysqlPtr} {rest : List MysqlPtr} (here : s.guards t = .admitted conn old)
      (list : s.conlist.list = con :: rest) (conlist : s'.conlist = {s.conlist with list := rest})
      (guards : s'.guards = update s.guards t (.popped conn old con)) : Guards s s' (.pop t)
  | assign {t : ω} {conn : κ} {old con : MysqlPtr} (here : s.guards t = .popped conn old con)
      (conlist : s'.conlist = s.conlist) (guards : s'.guards = update s.guards t (.alive conn old con)) :
      Guards s s' (.assign t)
  | destroy {t : ω} {conn : κ} {old con : MysqlPtr} (here : s.guards t = .alive conn old con)
      (conlist : s'.conlist = s.conlist.push old) (guards : s'.guards = update s.guards t .pushed) :
      Guards s s' (.destroy t)
  | post {t : ω} {value : Nat} (here : s.guards t = .pushed) (token : s.conlist.mSem = some value)
      (conlist : s'.conlist = {s.conlist with mSem := some (value + 1)})
      (guards : s'.guards = update s.guards t .absent) : Guards s s' (.post t)

theorem stepGuards [DecidableEq ω] [DecidableEq κ] {s s' : State ω κ} {e : Event ω κ} (taken : step s e = some s') :
    Guards s s' e := by
  cases e with
  | construct t conn =>
    simp only [step] at taken
    split at taken <;> try contradiction
    rename_i here
    cases Option.some.inj taken
    exact .construct here rfl rfl
  | wait t =>
    simp only [step] at taken
    split at taken <;> try contradiction
    rename_i conn old here
    obtain ⟨conlist,waited,taken⟩ := Option.bind_eq_some_iff.mp taken
    cases Option.some.inj taken
    obtain ⟨value,token,waited⟩ := Option.bind_eq_some_iff.mp waited
    simp only [Option.ite_none_right_eq_some,Option.some.injEq] at waited
    obtain ⟨positive,rfl⟩ := waited
    have counted : s.conlist.mSem = some (value - 1 + 1) := by rw [token,Nat.sub_add_cancel positive]
    exact .wait here counted rfl rfl
  | pop t =>
    simp only [step] at taken
    split at taken <;> try contradiction
    rename_i conn old here
    unfold SafeQueue.removeB at taken
    cases list : s.conlist.list with
    | nil =>
      rw [list] at taken
      cases Option.some.inj taken
      exact .threw here list rfl
    | cons con rest =>
      rw [list] at taken
      cases Option.some.inj taken
      exact .pop here list rfl rfl
  | assign t =>
    simp only [step] at taken
    split at taken <;> try contradiction
    rename_i conn old con here
    cases Option.some.inj taken
    exact .assign here rfl rfl
  | destroy t =>
    simp only [step] at taken
    split at taken <;> try contradiction
    rename_i conn old con here
    cases Option.some.inj taken
    exact .destroy here rfl rfl
  | post t =>
    simp only [step] at taken
    split at taken <;> try contradiction
    rename_i here
    obtain ⟨conlist,posted,taken⟩ := Option.bind_eq_some_iff.mp taken
    cases Option.some.inj taken
    obtain ⟨value,token,posted⟩ := Option.bind_eq_some_iff.mp posted
    cases Option.some.inj posted
    exact .post here token rfl rfl

def GuardPc.holding : GuardPc κ → Nat
  | .admitted _ _ | .popped _ _ _ | .alive _ _ _ | .pushed => 1
  | .absent | .saved _ _ | .threw _ => 0

def GuardPc.carrying : GuardPc κ → Nat
  | .popped _ _ _ | .alive _ _ _ => 1
  | .absent | .saved _ _ | .admitted _ _ | .pushed | .threw _ => 0

variable [Fintype ω]

/- The pool is as full as the guards leave it: whatever pointers come back, as many
come back as went out. -/
structure Counted (connections : List Nat) (s : State ω κ) : Prop where
  sem : ∃ value, s.conlist.mSem = some value ∧ value + tally GuardPc.holding s.guards = connections.length
  size : s.conlist.list.length + tally GuardPc.carrying s.guards = connections.length
  returns : ∀ t message, s.guards t ≠ .threw message

theorem initialCounted {connections : List Nat} {s : State ω κ} (start : Initial connections s) : Counted connections s := by
  obtain ⟨_,made,_,absent⟩ := start
  have list : s.conlist.list = connections.map some := connectList made
  have sem : s.conlist.mSem = some (0 + connections.length) := SqlClients.connectQueue rfl made
  have nobody (weight : GuardPc κ → Nat) (zero : weight .absent = 0) : tally weight s.guards = 0 :=
    (Basis.tallyZero _ _).mpr (fun t => by rw [absent t,zero])
  refine ⟨⟨_,sem,?_⟩,?_,fun t message threw => ?_⟩
  · rw [nobody _ rfl,Nat.zero_add,Nat.add_zero]
  · rw [list,nobody _ rfl,List.length_map,Nat.add_zero]
  · rw [absent t] at threw
    cases threw

variable [DecidableEq ω]

theorem Counted.finds {connections : List Nat} {s : State ω κ} (counted : Counted connections s) {t : ω} {conn : κ}
    {old : MysqlPtr} (here : s.guards t = .admitted conn old) : s.conlist.list ≠ [] := by
  obtain ⟨value,_,total⟩ := counted.sem
  have each (u : ω) : (s.guards u).carrying + (if u = t then 1 else 0) ≤ (s.guards u).holding := by
    split
    · rename_i same
      rw [same,here]
      exact Nat.le_refl 1
    · cases s.guards u <;> simp [GuardPc.carrying,GuardPc.holding]
  have fewer : tally GuardPc.carrying s.guards + 1 ≤ tally GuardPc.holding s.guards := by
    have sum := Finset.sum_le_sum (fun u (_ : u ∈ Finset.univ) => each u)
    rwa [Finset.sum_add_distrib,Finset.sum_ite_eq' Finset.univ t,if_pos (Finset.mem_univ t)] at sum
  intro nothing
  have size := counted.size
  rw [nothing,List.length_nil] at size
  omega

theorem Counted.moved {connections : List Nat} {s s' : State ω κ} (counted : Counted connections s) {t : ω}
    {pc : GuardPc κ} (guards : s'.guards = update s.guards t pc) (fine : ∀ message, pc ≠ .threw message)
    (tokens : ∀ value, s.conlist.mSem = some value →
      ∃ value', s'.conlist.mSem = some value' ∧ value' + pc.holding = value + (s.guards t).holding)
    (size : s'.conlist.list.length + pc.carrying = s.conlist.list.length + (s.guards t).carrying) :
    Counted connections s' := by
  obtain ⟨value,sem,total⟩ := counted.sem
  obtain ⟨value',sem',balance⟩ := tokens value sem
  have holding := tallyUpdate GuardPc.holding s.guards t pc
  have carrying := tallyUpdate GuardPc.carrying s.guards t pc
  have before := counted.size
  refine ⟨⟨value',sem',by rw [guards]; omega⟩,by rw [guards]; omega,fun u message threw => ?_⟩
  rw [guards] at threw
  rcases Basis.movedCases threw with ⟨_,own⟩ | ⟨_,other⟩
  · exact fine message own
  · exact counted.returns u message other

theorem stepCounted [DecidableEq κ] {connections : List Nat} {s s' : State ω κ} {e : Event ω κ}
    (counted : Counted connections s) (taken : step s e = some s') : Counted connections s' := by
  have kept {value : Nat} (sem : s.conlist.mSem = some value) {pc old : GuardPc κ} (same : pc.holding = old.holding)
      (conlist : s'.conlist.mSem = s.conlist.mSem) :
      ∃ value', s'.conlist.mSem = some value' ∧ value' + pc.holding = value + old.holding :=
    ⟨value,conlist.trans sem,by rw [same]⟩
  cases stepGuards taken with
  | construct here conlist guards =>
    exact counted.moved guards (by simp) (fun _ sem => kept sem (by rw [here]; rfl) (by rw [conlist])) (by rw [here,conlist]; rfl)
  | @wait _ _ _ less here token conlist guards =>
    refine counted.moved guards (by simp) (fun value sem => ⟨less,by rw [conlist],?_⟩) (by rw [here,conlist]; rfl)
    rw [here,Option.some.inj (sem.symm.trans token)]
    rfl
  | threw here nothing => exact absurd nothing (counted.finds here)
  | pop here list conlist guards =>
    refine counted.moved guards (by simp) (fun _ sem => kept sem (by rw [here]; rfl) (by rw [conlist])) ?_
    rw [here,list,conlist]
    rfl
  | assign here conlist guards =>
    exact counted.moved guards (by simp) (fun _ sem => kept sem (by rw [here]; rfl) (by rw [conlist])) (by rw [here,conlist]; rfl)
  | destroy here conlist guards =>
    refine counted.moved guards (by simp) (fun _ sem => kept sem (by rw [here]; rfl) (by rw [conlist]; rfl)) ?_
    rw [here,conlist,SafeQueue.push,List.length_append]
    rfl
  | @post _ before here token conlist guards =>
    refine counted.moved guards (by simp) (fun value sem => ⟨before + 1,by rw [conlist],?_⟩) (by rw [here,conlist]; rfl)
    rw [here,Option.some.inj (sem.symm.trans token)]
    rfl

end SimpleChat.SqlPool
