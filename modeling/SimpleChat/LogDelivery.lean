import SimpleChat.Basis.Tally
import SimpleChat.Log

/-! Where the record of a returned `write_log` call is. `push` refuses a full
queue through a result that nothing reads, so a record is lost exactly when its
push meets a full queue, which `full()` said a step earlier it was not. -/
namespace SimpleChat.Log
open Basis (System tally tallyUpdate tallySame tallyMember)
open Function (update)

variable {ω : Type}

def inFile (s : State ω) (k : Nat) : Nat := s.written.countP (fun line => line.2.call = k)
def inQueue (s : State ω) (k : Nat) : Nat := s.mLogQueue.toList.countP (fun record => record.call = k)
def inHand (s : State ω) (k : Nat) : Nat := s.flushing.toList.countP (fun record => record.call = k)
def kept (s : State ω) (k : Nat) : Nat := inFile s k + inQueue s k + inHand s k

def carries (k : Nat) (pc : WriterPc) : Nat := if pc.call? = some k then 1 else 0

def Returned (s : State ω) (k : Nat) : Prop := k < s.calls ∧ ∀ w, (s.writers w).call? ≠ some k

/- Each record of a returned call is in the file, in the queue or in the flush
thread's hands, in exactly one place and once. -/
def NoLoss (s : State ω) : Prop := ∀ k, Returned s k → kept s k = 1

def PushFindsRoom (s : State ω) : Event ω → Prop
  | .push w => ∀ record, s.writers w = .pushing record → s.mLogQueue.mSize < s.mLogQueue.mMaxSize
  | _ => True

theorem oneRecord (record : Record) (k : Nat) :
    [record].countP (fun r => r.call = k) = if record.call = k then 1 else 0 := by
  simp [List.countP_cons]

variable [Fintype ω]

structure Conserved (s : State ω) : Prop where
  valid : s.mLogQueue.Valid
  counts : ∀ k, kept s k + tally (carries k) s.writers = if k < s.calls then 1 else 0

theorem Conserved.noLoss {s : State ω} (conserved : Conserved s) : NoLoss s := by
  intro k returned
  have count := conserved.counts k
  have gone : tally (carries k) s.writers = 0 :=
    (Basis.tallyZero _ _).mpr (fun w => if_neg (returned.2 w))
  rw [if_pos returned.1] at count
  omega

theorem initialConserved {capacity : Int} {s : State ω} (start : Initial capacity s) : Conserved s := by
  obtain ⟨_,small,made,_,_,outside,idle,nothing,none⟩ := start
  have shape := @BlockQueue.newShape Record ⟨⟨0,[]⟩⟩ capacity s.mLogQueue small made
  refine ⟨⟨_,_,_,_,shape⟩,fun k => ?_⟩
  have empty : s.mLogQueue.toList = [] := List.eq_nil_of_length_eq_zero shape.length
  have gone : tally (carries k) s.writers = 0 :=
    (Basis.tallyZero _ _).mpr (fun w => by rw [outside w]; rfl)
  simp [kept,inFile,inQueue,inHand,empty,idle,nothing,none,gone]

variable [DecidableEq ω]

theorem Conserved.advance {s s' : State ω} (conserved : Conserved s) {w : ω} {pc : WriterPc}
    (same : pc.call? = (s.writers w).call?) (writers : s'.writers = update s.writers w pc)
    (queue : s'.mLogQueue = s.mLogQueue) (written : s'.written = s.written)
    (flushing : s'.flushing = s.flushing) (calls : s'.calls = s.calls) : Conserved s' := by
  refine ⟨queue ▸ conserved.valid,fun k => ?_⟩
  have still : tally (carries k) s'.writers = tally (carries k) s.writers := by
    rw [writers]; exact tallySame (by simp only [carries,same])
  have places : kept s' k = kept s k := by
    simp only [kept,inFile,inQueue,inHand,queue,written,flushing]
  rw [still,places,calls]
  exact conserved.counts k

theorem Conserved.deliver {s s' : State ω} (conserved : Conserved s) {w : ω} {record : Record}
    (here : (s.writers w).call? = some record.call) (writers : s'.writers = update s.writers w .outside)
    (valid : s'.mLogQueue.Valid) (calls : s'.calls = s.calls)
    (placed : ∀ k, kept s' k = kept s k + if record.call = k then 1 else 0) : Conserved s' := by
  refine ⟨valid,fun k => ?_⟩
  have moved := tallyUpdate (carries k) s.writers w .outside
  have before : carries k (s.writers w) = if record.call = k then 1 else 0 := by
    simp only [carries,here,Option.some.injEq]
  have after : carries k .outside = 0 := rfl
  have count := conserved.counts k
  rw [writers,calls,placed k]
  omega

theorem movesConserved {s s' : State ω} {e} (conserved : Conserved s) (room : PushFindsRoom s e)
    (moves : Moves s e s') : Conserved s' := by
  cases moves with
  | @call w entry outside =>
    refine ⟨conserved.valid,fun k => ?_⟩
    have moved := tallyUpdate (carries k) s.writers w (.called s.calls entry)
    have before : carries k (s.writers w) = 0 := by rw [outside]; rfl
    have after : carries k (.called s.calls entry) = if s.calls = k then 1 else 0 := by
      simp only [carries,WriterPc.call?,Option.some.injEq]
    have count := conserved.counts k
    change kept s k + tally (carries k) (update s.writers w (.called s.calls entry)) =
      if k < s.calls + 1 then 1 else 0
    rcases Nat.lt_trichotomy k s.calls with less | same | more
    · rw [if_pos less] at count; rw [if_neg (by omega)] at after; rw [if_pos (by omega)]; omega
    · rw [if_neg (by omega)] at count; rw [if_pos same.symm] at after; rw [if_pos (by omega)]; omega
    · rw [if_neg (by omega)] at count; rw [if_neg (by omega)] at after; rw [if_neg (by omega)]; omega
  | @rotate w call entry called =>
    obtain ⟨queue,written,flushing,calls,_,_⟩ := rotateFrame s entry.tm
    exact conserved.advance (by rw [called]; rfl) rfl queue written flushing calls
  | format rotated composed => exact conserved.advance (by rw [rotated]; rfl) rfl rfl rfl rfl rfl
  | queueing formatted | writing formatted => exact conserved.advance (by rw [formatted]; rfl) rfl rfl rfl rfl rfl
  | @push w record queue accepted pushing pushed =>
    obtain ⟨q,done,valid,_,list⟩ := conserved.valid.pushed (room record pushing) record
    rw [done] at pushed
    cases pushed
    refine conserved.deliver (by rw [pushing]; rfl) rfl valid rfl (fun k => ?_)
    simp only [kept,inFile,inQueue,inHand,list,List.countP_append,oneRecord]
    omega
  | write direct =>
    refine conserved.deliver (by rw [direct]; rfl) rfl conserved.valid rfl (fun k => ?_)
    simp only [kept,inFile,inQueue,inHand,fputs,List.countP_append,List.countP_singleton,decide_eq_true_eq]
    omega
  | take idle some_ took =>
    obtain ⟨record,q,done,valid,_,list⟩ := conserved.valid.took some_
    rw [done] at took
    cases took
    refine ⟨valid,fun k => ?_⟩
    have count := conserved.counts k
    simp only [kept,inFile,inQueue,inHand,idle,list,List.countP_cons,Option.toList_none,Option.toList_some,
      List.countP_nil] at count ⊢
    omega
  | flush held =>
    refine ⟨conserved.valid,fun k => ?_⟩
    have count := conserved.counts k
    simp only [kept,inFile,inQueue,inHand,held,fputs,List.countP_append,List.countP_singleton,
      Option.toList_none,Option.toList_some,List.countP_nil] at count ⊢
    omega

theorem refusedLoses {s s' : State ω} {w : ω} {record : Record} (conserved : Conserved s)
    (pushing : s.writers w = .pushing record) (full : ¬ s.mLogQueue.mSize < s.mLogQueue.mMaxSize)
    (taken : step s (.push w) = some s') : ¬ NoLoss s' := by
  have count := conserved.counts record.call
  have own : carries record.call (s.writers w) = 1 := by rw [pushing]; exact if_pos rfl
  have member := tallyMember (carries record.call) s.writers w
  have begun : record.call < s.calls := by
    by_contra late
    rw [if_neg late] at count
    omega
  rw [if_pos begun] at count
  simp only [step,pushing,BlockQueue.pushRefused full record,bind,Option.bind,Option.some.injEq] at taken
  subst taken
  intro noLoss
  have one : kept s record.call = 1 := by
    refine noLoss record.call ⟨begun,fun v carried => ?_⟩
    change (update s.writers w .outside v).call? = some record.call at carried
    by_cases same : v = w
    · subst v; simp [WriterPc.call?] at carried
    · rw [Function.update_of_ne same] at carried
      have other : carries record.call (s.writers v) = 1 := if_pos carried
      have pair := Basis.tallyPair (carries record.call) s.writers same
      omega
  omega

theorem roomConserved {capacity : Int} {s : State ω} (reached : (system ω capacity).Reach PushFindsRoom s) :
    Conserved s :=
  (system ω capacity).invariant (fun _ => initialConserved)
    (fun _ _ _ conserved room taken => movesConserved conserved room (stepMoves taken)) reached

/- A run loses no record exactly when every push in it finds a free slot. -/
theorem noRecordLostIff {capacity : Int} {s : State ω} (start : Initial capacity s) (es : List (Event ω)) :
    (system ω capacity).Throughout (fun _ _ s' => NoLoss s') s es ↔
    (system ω capacity).Throughout (fun s e _ => PushFindsRoom s e) s es := by
  refine (system ω capacity).throughoutExact (fun s e s' reached taken => ?_) (.init start) es
  have conserved := roomConserved reached
  constructor
  · intro noLoss
    cases e with
    | push w =>
      intro record pushing
      by_contra full
      exact refusedLoses conserved pushing full taken noLoss
    | _ => trivial
  · exact fun room => (movesConserved conserved room (stepMoves taken)).noLoss

def sampleEntry (message : String) : Entry := ⟨1,ascii message,⟨2025,1,1,12,0,0⟩,0⟩

def sampleStart (ω : Type) : State ω :=
  ⟨[],ascii "ServerLog",5000000,8192,0,1,⟨ascii "2025_01_01_ServerLog",0⟩,[],true,
    ⟨fun _ => ⟨0,[]⟩,0,1,-1,-1⟩,1,[],none,fun _ => .outside,0⟩

theorem sampleInitial (ω : Type) : Initial 1 (sampleStart ω) :=
  ⟨by decide,by decide,rfl,rfl,by simp [sampleStart],fun _ => rfl,rfl,rfl,rfl⟩

def staleRun : List (Event Bool) :=
  [.call false (sampleEntry "a"),.rotate false,.format false,.test false,
   .call true (sampleEntry "b"),.rotate true,.format true,.test true,.push false,.push true]

theorem sampleLostIff :
    (system Bool 1).Throughout (fun _ _ s' => NoLoss s') (sampleStart Bool) staleRun ↔
    (system Bool 1).Throughout (fun s e _ => PushFindsRoom s e) (sampleStart Bool) staleRun :=
  noRecordLostIff (sampleInitial Bool) staleRun

def secondLost (s : State Bool) : Bool :=
  decide (1 < s.calls ∧ (∀ w, (s.writers w).call? ≠ some 1) ∧ kept s 1 = 0)

theorem staleFullLosesRecord :
    ∃ s, (system Bool 1).Reachable s ∧ Returned s 1 ∧ kept s 1 = 0 ∧ ¬ NoLoss s := by
  have ends : ((system Bool 1).run (sampleStart Bool) staleRun).map secondLost = some true := by decide +kernel
  obtain ⟨s,ran,lost⟩ := Option.map_eq_some_iff.mp ends
  obtain ⟨begun,gone,nowhere⟩ := of_decide_eq_true lost
  exact ⟨s,(system Bool 1).runReachable (.init (sampleInitial Bool)) _ ran,⟨begun,gone⟩,nowhere,
    fun noLoss => absurd (noLoss 1 ⟨begun,gone⟩) (by omega)⟩

end SimpleChat.Log
