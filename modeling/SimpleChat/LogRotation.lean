import SimpleChat.Basis.Rotation
import SimpleChat.LogOrder
import SimpleChat.LogPlacement

/-! The files of `Log` in synchronous mode with one writer. One counter serves the
split test and the suffix, and goes back to 0 when the day of the month changes;
the rotation sections are those of `Basis.Rotation` with that reset. -/
namespace SimpleChat.Log
open Basis
open Function (update)
open ServerLog (strrchr copiedParts)

structure Fits (fileName dir base : Text) (tm : Tm) : Prop where
  path : strrchr fileName = some (dir,base)
  text : (0 : UInt8) ∉ fileName
  dirName : dir.length < 128
  logName : base.length < 128
  whole : (dir ++ ServerLog.date tm ++ base).length < 256

theorem Fits.names {fileName dir base : Text} {tm : Tm} (fits : Fits fileName dir base tm) :
    logFullName fileName tm = (dir,base,partName dir base (calendar tm,0)) := by
  obtain ⟨dirName,logName⟩ := copiedParts fits.path fits.text fits.dirName fits.logName
  have whole := fits.whole
  simp only [logFullName,fits.path,dirName,logName,partName,dateTextOf,partSuffix,if_true,List.append_nil]
  rw [snprintf,List.take_of_length_le (by omega)]

def partOf (s : State Unit) (tm : Tm) : Nat := if s.mToday ≠ tm.mday then 0 else (s.mCount + 1) / s.mSplitLines

/- The calendar does not go back from one call to the next, and no name is cut. -/
def Faithful (s : Traced Unit) : Event Unit → Prop
  | .rotate w => match s.log.writers w with
      | .called _ entry => s.last ≤ calendar entry.tm ∧ (Opens s.log entry.tm →
          (rotate s.log entry.tm).mFp.name = partName s.log.dirName s.log.logName (calendar entry.tm,partOf s.log entry.tm))
      | _ => True
  | _ => True

instance (s : Traced Unit) (e) : Decidable (Faithful s e) := by
  unfold Faithful
  split
  · split <;> infer_instance
  · infer_instance

def rotating (fileName : Text) (bufSize split : Nat) (tm : Tm) : System (Traced Unit) (Event Unit) :=
  ⟨fun s => s = begun (init fileName bufSize split tm) tm,traceStep⟩

structure RotatesWell (split : Nat) (s : Traced Unit) : Prop where
  bounded : ∀ name, s.log.written.countP (fun line => line.1.name = name) ≤ split
  opened : ∀ line ∈ s.log.written, line.1.name ∈ s.opened.map Stream.name
  once : ∀ k, Returned s.log k → inFile s.log k = 1
  fresh : (s.opened.map Stream.name).Nodup

structure Sync (s : State Unit) : Prop where
  mode : s.mIsAsync = false
  empty : s.mLogQueue.mSize = 0
  idle : s.flushing = none
  direct : ∀ record, s.writers () ≠ .pushing record

def pendingName (s : State Unit) : List Text := ((s.writers ()).onWay?.map (fun _ => s.mFp.name)).toList

theorem movesSync {s s' : State Unit} {e : Event Unit} (sync : Sync s) (moves : Moves s e s') : Sync s' := by
  obtain ⟨mode,empty,idle,direct⟩ := sync
  cases moves with
  | call outside => exact ⟨mode,empty,idle,fun _ here => by simp at here⟩
  | @rotate w call entry called =>
    obtain ⟨queue,_,flushing,_,async,_⟩ := rotateFrame s entry.tm
    have drained := (congrArg BlockQueue.mSize queue).trans empty
    exact ⟨async.trans mode,drained,flushing.trans idle,fun _ here => by simp at here⟩
  | format rotated => exact ⟨mode,empty,idle,fun _ here => by simp at here⟩
  | queueing formatted async => rw [mode] at async; contradiction
  | writing formatted => exact ⟨mode,empty,idle,fun _ here => by simp at here⟩
  | push pushing => exact absurd pushing (direct _)
  | write => exact ⟨mode,empty,idle,fun _ here => by simp at here⟩
  | take _ some_ => rw [empty] at some_; contradiction
  | flush held => rw [idle] at held; contradiction

theorem Sync.nothingPending {s : State Unit} (sync : Sync s) (e : Event Unit) : NothingPending s e := by
  cases e <;> first | exact ⟨sync.empty,sync.idle⟩ | trivial

/- The run of the code beside that of the abstract rotation; a record on its way
is filed already there. -/
structure Linked (dir base : Text) (split : Nat) (s : Traced Unit) (book : Rotation.State Date Nat) : Prop where
  sync : Sync s.log
  ordered : Ordered s.log
  dirName : s.log.dirName = dir
  logName : s.log.logName = base
  splitLines : s.log.mSplitLines = split
  today : s.log.mToday = book.today
  count : s.log.mCount = book.count
  last : book.current.1 ≤ s.last
  stream : s.log.mFp.name = partName dir base book.current
  opened : s.opened.map Stream.name = book.opened.map (partName dir base)
  filed : s.log.written.map (fun line => line.1.name) ++ pendingName s.log = book.filed.map (partName dir base)

theorem initLinked {fileName dir base : Text} {tm : Tm} (fits : Fits fileName dir base tm) (bufSize : Nat) {split : Nat}
    (positive : 1 ≤ split) :
    Linked dir base split (begun (init fileName bufSize split tm) tm) (Rotation.begin dayOf (calendar tm)) := by
  have ordered := initialOrdered (@initSync Unit fileName bufSize split positive tm).1
  refine ⟨⟨rfl,rfl,rfl,fun _ => by simp [begun,init]⟩,⟨ordered.valid,ordered.calls,ordered.room⟩,
    ?_,?_,rfl,rfl,rfl,le_refl _,?_,?_,rfl⟩
  · exact congrArg Prod.fst fits.names
  · exact congrArg (fun names => names.2.1) fits.names
  · exact congrArg (fun names => names.2.2) fits.names
  · exact congrArg (fun names => [names.2.2]) fits.names

theorem Linked.forward {dir base : Text} {split : Nat} {s : Traced Unit} {book : Rotation.State Date Nat}
    (linked : Linked dir base split s book) {log : State Unit} {e : Event Unit} (calm : ∀ w, e ≠ .rotate w)
    (moves : Moves s.log e log) : Linked dir base split {s with log := log} book := by
  have sync := movesSync linked.sync moves
  have ordered := movesOrdered linked.ordered (linked.sync.nothingPending e) moves
  have ⟨_,_,dirName,logName,splitLines,today,count,last,stream,opened,filed⟩ := linked
  cases moves with
  | call outside =>
    refine ⟨sync,ordered,dirName,logName,splitLines,today,count,last,stream,opened,?_⟩
    simpa [pendingName,outside,WriterPc.onWay?] using filed
  | @rotate w => exact absurd rfl (calm w)
  | format rotated =>
    refine ⟨sync,ordered,dirName,logName,splitLines,today,count,last,stream,opened,?_⟩
    simpa [pendingName,rotated,WriterPc.onWay?] using filed
  | queueing formatted | writing formatted =>
    refine ⟨sync,ordered,dirName,logName,splitLines,today,count,last,stream,opened,?_⟩
    simpa [pendingName,formatted,WriterPc.onWay?] using filed
  | push pushing => exact absurd pushing (linked.sync.direct _)
  | write direct =>
    refine ⟨sync,ordered,dirName,logName,splitLines,today,count,last,stream,opened,?_⟩
    simpa [pendingName,direct,fputs,WriterPc.onWay?] using filed
  | take _ some_ =>
    rw [linked.sync.empty] at some_
    contradiction
  | flush held =>
    rw [linked.sync.idle] at held
    contradiction

def countOf (s : State Unit) (tm : Tm) : Nat := if s.mToday ≠ tm.mday then 0 else s.mCount + 1

theorem rotateTurns {s : State Unit} {tm : Tm} (opens : Opens s tm) :
    rotate s tm = {s with mToday := tm.mday, mCount := countOf s tm, mFp := ⟨(rotate s tm).mFp.name,s.openings⟩,
                          openings := s.openings + 1} := by
  by_cases day : s.mToday ≠ tm.mday
  · simp only [rotate,countOf,if_pos day,fopen]
  · have full : (s.mCount + 1) % s.mSplitLines = 0 := opens.resolve_left day
    have same : s.mToday = tm.mday := not_not.mp day
    simp only [rotate,countOf,if_neg day,if_pos full,fopen]
    rw [same]

section Rotates
variable {dir base : Text} {split : Nat} {s : Traced Unit} {book : Rotation.State Date Nat}
  (linked : Linked dir base split s book) {w : Unit} {call : Nat} {entry : Entry}
include linked

theorem Linked.turns (tm : Tm) :
    (Opens s.log tm ↔ Rotation.Turns dayOf split book (calendar tm)) ∧
    partOf s.log tm = Rotation.part dayOf split book (calendar tm) ∧
    countOf s.log tm = Rotation.counted dayOf 0 book (calendar tm) := by
  have day : dayOf (calendar tm) = tm.mday := rfl
  simp only [Opens,countOf,partOf,Rotation.Turns,Rotation.part,Rotation.counted,day,linked.today,linked.count,
    linked.splitLines,and_self]

theorem Linked.rotates (called : s.log.writers w = .called call entry) (faithful : Faithful s (.rotate w)) :
    Linked dir base split (note s (.rotate w)
      {(rotate s.log entry.tm) with writers := update s.log.writers w (.rotated call entry)})
      (Rotation.enter dayOf split 0 book (calendar entry.tm)) := by
  have sync := movesSync linked.sync (.rotate called)
  have ordered := movesOrdered linked.ordered (linked.sync.nothingPending (.rotate w)) (.rotate called)
  have filed := linked.filed
  simp only [pendingName,called,WriterPc.onWay?,Option.map_none,Option.toList_none,List.append_nil] at filed
  simp only [Faithful,called] at faithful
  obtain ⟨same,part,count⟩ := linked.turns entry.tm
  rw [noteRotate called]
  by_cases opens : Opens s.log entry.tm
  · have name := faithful.2 opens
    rw [linked.dirName,linked.logName,part] at name
    rw [Rotation.enterTurns (same.mp opens)]
    have turns := rotateTurns opens
    rw [name] at turns
    rw [turns] at sync ordered ⊢
    refine ⟨sync,ordered,linked.dirName,linked.logName,linked.splitLines,rfl,count,le_refl _,rfl,?_,?_⟩
    · simp [Rotation.file,Rotation.turn,linked.opened]
    · simp [Rotation.file,Rotation.turn,pendingName,WriterPc.onWay?,filed]
  · rw [Rotation.enterStays (mt same.mpr opens)]
    rw [rotateStays opens] at sync ordered ⊢
    refine ⟨sync,ordered,linked.dirName,linked.logName,linked.splitLines,linked.today,?_,
      linked.last.trans faithful.1,linked.stream,?_,?_⟩
    · exact congrArg (· + 1) linked.count
    · simpa [Rotation.file] using linked.opened
    · simp [Rotation.file,pendingName,WriterPc.onWay?,filed,linked.stream]

end Rotates

theorem traceLinked {dir base : Text} {split : Nat} {s s' : Traced Unit} {book : Rotation.State Date Nat} {e : Event Unit}
    (linked : Linked dir base split s book) (faithful : Faithful s e) (taken : traceStep s e = some s') :
    Linked dir base split s' book ∨
    ∃ d book', Rotation.Onward dayOf split book d ∧ (Rotation.system dayOf split 0).step book d = some book' ∧
      Linked dir base split s' book' := by
  obtain ⟨moved,noted⟩ := traceTaken taken
  have moves := stepMoves moved
  generalize log : s'.log = next at moves noted moved
  by_cases rotates : ∃ w, e = .rotate w
  · obtain ⟨w,rfl⟩ := rotates
    cases moves with
    | @rotate _ call entry called =>
      have onward : s.last ≤ calendar entry.tm := by
        simp only [Faithful,called] at faithful
        exact faithful.1
      rw [noted]
      exact .inr ⟨calendar entry.tm,_,fun _ => linked.last.trans onward,rfl,linked.rotates called faithful⟩
  · have calm : ∀ w, e ≠ .rotate w := fun w same => rotates ⟨w,same⟩
    rw [noted,noteElse calm]
    exact .inl (linked.forward calm moves)

theorem Ordered.once {s : State Unit} (ordered : Ordered s) (sync : Sync s) {k : Nat} (returned : Returned s k) :
    inFile s k = 1 := by
  obtain ⟨less,gone⟩ := returned
  have empty : s.mLogQueue.toList = [] := List.eq_nil_of_length_eq_zero (by
    have size := ordered.valid.size
    rw [sync.empty] at size
    omega)
  have calls := ordered.calls
  simp only [heldCalls,queueCalls,sync.idle,empty,Option.toList_none,List.map_nil,List.append_nil] at calls
  have open_ : k ∉ openCalls s := fun member => gone () (Option.mem_toList.mp member)
  have total : (fileCalls s ++ openCalls s).count k = 1 := by
    rw [calls]
    exact List.count_eq_one_of_mem List.nodup_range (List.mem_range.mpr less)
  rw [List.count_append,List.count_eq_zero.mpr open_,fileCalls,List.count_eq_countP,List.countP_map] at total
  rw [← total,inFile]
  exact List.countP_congr (fun line _ => by simp)

theorem Linked.rotatesWell {dir base : Text} {split : Nat} {s : Traced Unit} {book : Rotation.State Date Nat}
    (linked : Linked dir base split s book) (kept : Rotation.Kept dayOf split book) : RotatesWell split s := by
  refine ⟨fun name => ?_,fun line member => ?_,fun k returned => ?_,?_⟩
  · have all := kept.named (partNameInjective dir base) name
    rw [← linked.filed,List.count_append,List.count_eq_countP,List.countP_map] at all
    refine Nat.le_trans (Nat.le_of_eq ?_) (Nat.le_trans (Nat.le_add_right _ _) all)
    exact List.countP_congr (fun line _ => by simp)
  · have filed : line.1.name ∈ book.filed.map (partName dir base) := by
      rw [← linked.filed]
      exact List.mem_append_left _ (List.mem_map_of_mem member)
    obtain ⟨f,known,same⟩ := List.mem_map.mp filed
    rw [linked.opened,← same]
    exact List.mem_map_of_mem (kept.known f known)
  · exact linked.ordered.once linked.sync returned
  · rw [linked.opened]
    exact kept.fresh.map (partNameInjective dir base)

/- From `init` on, while the date does not go back and no name is cut, no file
receives more than `split_lines` records, the record of every call that is over is
in one file, and no file is opened a second time. -/
theorem rotationKept {fileName dir base : Text} {tm : Tm} (fits : Fits fileName dir base tm) {split : Nat}
    (positive : 1 ≤ split) (bufSize : Nat) {s : Traced Unit}
    (reached : (rotating fileName bufSize split tm).Reach Faithful s) : RotatesWell split s := by
  obtain ⟨book,walked,linked⟩ : ∃ book,
      (Rotation.system dayOf split 0).Reach (Rotation.Onward dayOf split) book ∧ Linked dir base split s book := by
    refine forwardSimulation (R := Linked dir base split) (fun s start => ?_)
      (fun _ _ _ _ linked faithful taken => ?_) reached
    · rw [show s = begun (init fileName bufSize split tm) tm from start]
      exact ⟨_,⟨calendar tm,rfl⟩,initLinked fits bufSize positive⟩
    · exact traceLinked linked faithful taken
  exact linked.rotatesWell (Rotation.reachKept positive walked)

def yearEnd : Tm := ⟨2024,12,31,23,59,58⟩
def newYear : Tm := ⟨2025,1,1,0,0,0⟩

def lineAt (tm : Tm) : List (Event Unit) := [.call () ⟨1,ascii "line",tm,0⟩,.rotate (),.format (),.test (),.write ()]

theorem sampleRotation :
    ∃ s, (rotating (ascii "log/ServerLog") 8192 2 yearEnd).checkedRun Faithful
        (begun (init (ascii "log/ServerLog") 8192 2 yearEnd) yearEnd)
        (lineAt yearEnd ++ lineAt yearEnd ++ lineAt newYear ++ lineAt newYear ++ lineAt newYear) = some s ∧
      s.opened.map Stream.name = [ascii "log/2024_12_31_ServerLog",ascii "log/2024_12_31_ServerLog.1",
        ascii "log/2025_01_01_ServerLog",ascii "log/2025_01_01_ServerLog.1"] ∧ RotatesWell 2 s := by
  have ends : ((rotating (ascii "log/ServerLog") 8192 2 yearEnd).checkedRun Faithful
      (begun (init (ascii "log/ServerLog") 8192 2 yearEnd) yearEnd)
      (lineAt yearEnd ++ lineAt yearEnd ++ lineAt newYear ++ lineAt newYear ++ lineAt newYear)).map
      (fun s => s.opened.map Stream.name) = some [ascii "log/2024_12_31_ServerLog",ascii "log/2024_12_31_ServerLog.1",
        ascii "log/2025_01_01_ServerLog",ascii "log/2025_01_01_ServerLog.1"] := by decide +kernel
  obtain ⟨s,ran,names⟩ := Option.map_eq_some_iff.mp ends
  have fits : Fits (ascii "log/ServerLog") (ascii "log/") (ascii "ServerLog") yearEnd :=
    ⟨by decide +kernel,by decide +kernel,by decide +kernel,by decide +kernel,by decide +kernel⟩
  refine ⟨s,ran,names,rotationKept fits (by decide) 8192 ?_⟩
  exact (rotating _ 8192 2 yearEnd).checkedReach (.init rfl) _ ran

end SimpleChat.Log
