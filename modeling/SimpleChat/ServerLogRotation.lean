import SimpleChat.Basis.Rotation
import SimpleChat.ServerLogTrace

/-! The files of `ServerLog` under several writers. A call reads the clock before it
takes `m_mutex`, so a call from before midnight may change the file back. While the
calls that change it come in the order of their dates, the runs are those of
`Basis.Rotation`; the first record of a new day counts as 1. -/
namespace SimpleChat.ServerLog
open Basis
open Function (update)
open Log (Tm Entry Record Stream snprintf)

variable {ω : Type}

/- The two names that `init` keeps of `file_name` and the name it opens. Without a
directory part it keeps nothing, and later names are bare dates. -/
inductive Named (fileName : Text) (tm : Tm) : Text → Text → Text → Prop where
  | inDirectory {dir base : Text} (path : strrchr fileName = some (dir,base)) (text : (0 : UInt8) ∉ fileName)
      (dirName : dir.length < 128) (logName : base.length < 128) (whole : (dir ++ date tm ++ base).length < 255) :
      Named fileName tm dir base (dir ++ date tm ++ base)
  | bare (path : strrchr fileName = none) (whole : (date tm ++ fileName).length < 255)
      (other : ∀ part, part ≠ 0 → fileName ≠ partSuffix part) : Named fileName tm [] [] (date tm ++ fileName)

def partOf (log : ServerLog) (tm : Tm) : Nat :=
  if log.mToday ≠ tm.mday then 0 else ((log.mCount + 1) / log.mSplitLines).toNat

structure Whole (log : ServerLog) (tm : Tm) : Prop where
  date : (date tm).length < 15
  name : (partName (cString log.dirName) (cString log.logName) (calendar tm,partOf log tm)).length < 255

def Plain (s : Traced ω) (e : Event ω) : Prop :=
  ∀ call ∈ entering s e, Opens s.state.log call.1.tm → call.2 = true ∧ Whole s.state.log call.1.tm

/- A call that changes the file is dated no earlier than the call that opened the
file it leaves. -/
def Forward (s : Traced ω) (e : Event ω) : Prop :=
  ∀ call ∈ entering s e, Opens s.state.log call.1.tm → ∀ d ∈ s.dates.getLast?, d ≤ calendar call.1.tm

def Enters (s : Traced ω) (e : Event ω) : Prop := Plain s e ∧ Forward s e

instance (log : ServerLog) (tm) : Decidable (Whole log tm) :=
  decidable_of_iff (_ ∧ _) ⟨fun h => ⟨h.1,h.2⟩,fun h => ⟨h.date,h.name⟩⟩

instance (s : Traced ω) (e) : Decidable (Enters s e) := by unfold Enters Plain Forward; infer_instance

structure Stable (split : Int) (s : Traced ω) : Prop where
  bounded : ∀ name, (s.state.log.written.countP (fun line => line.1.name = name) : Int) ≤ split
  fresh : s.state.log.openings.Nodup
  forward : s.dates.Pairwise (· ≤ ·)
  dated : List.Forall₂ (fun name d => cString s.state.log.dirName ++ dateText d <+: name) s.state.log.openings s.dates

def fileOf (first : Text) (tm : Tm) (dir base : Text) (f : Date × Nat) : Text :=
  if f = (calendar tm,0) then first else partName dir base f

section Names
variable {fileName dir base first : Text} {tm : Tm} (named : Named fileName tm dir base first)
include named

theorem Named.clear {f : Date × Nat} (same : partName dir base f = first) : f = (calendar tm,0) := by
  obtain ⟨d,k⟩ := f
  cases named with
  | inDirectory =>
    refine partNameInjective dir base ?_
    rw [same,partName,dateTextOf,partSuffix,if_pos rfl,List.append_nil]
  | bare path whole other =>
    rw [partName,List.nil_append,List.append_nil,← dateTextOf] at same
    obtain ⟨rfl,suffix⟩ := dateTextRead same
    by_cases zero : k = 0
    · rw [zero]
    · exact absurd suffix.symm (other k zero)

theorem Named.injective : Function.Injective (fileOf first tm dir base) := by
  intro f g same
  unfold fileOf at same
  split at same <;> rename_i own
  · split at same <;> rename_i other
    · rw [own,other]
    · rw [own,named.clear same.symm]
  · split at same <;> rename_i other
    · rw [other,named.clear same]
    · exact partNameInjective dir base same

theorem Named.dated (f : Date × Nat) : dir ++ dateText f.1 <+: fileOf first tm dir base f := by
  unfold fileOf
  split
  · rename_i own
    rw [own]
    cases named with
    | inDirectory => exact List.prefix_append _ _
    | bare => exact List.prefix_append _ _
  · rw [partName,List.append_assoc]
    exact List.prefix_append _ _

theorem Named.started (log : ServerLog) (dirs : log.dirName = zeros 128) (logs : log.logName = zeros 128) :
    cString (log.logFullName fileName tm).1.dirName = dir ∧ cString (log.logFullName fileName tm).1.logName = base ∧
    (log.logFullName fileName tm).2 = first := by
  have blank : cString (zeros 128) = [] := cStringTail [] 128
  cases named with
  | inDirectory path text dirFits baseFits whole =>
    obtain ⟨dirName,logName⟩ := copiedParts path text dirFits baseFits
    simp only [logFullName,path,dirs,logs,dirName,logName,true_and]
    rw [snprintf,List.take_of_length_le (by omega)]
  | bare path whole =>
    simp only [logFullName,path,dirs,logs,blank,true_and]
    rw [snprintf,List.take_of_length_le (by omega)]

end Names

structure Linked (first : Text) (tm : Tm) (dir base : Text) (split : Nat) (s : Traced ω) (book : Rotation.State Date Nat) :
    Prop where
  direct : Direct s.state
  kept : Rotation.Kept dayOf split book
  dirName : cString s.state.log.dirName = dir
  logName : cString s.state.log.logName = base
  splitLines : s.state.log.mSplitLines = split
  today : s.state.log.mToday = book.today
  count : s.state.log.mCount = book.count
  began : (calendar tm,0) ∈ book.opened
  stream : ∃ opening, s.state.log.mFp = some ⟨fileOf first tm dir base book.current,opening⟩
  openings : s.state.log.openings = book.opened.map (fileOf first tm dir base)
  dates : s.dates = book.opened.map Prod.fst
  latest : s.dates.getLast? = some book.current.1
  filed : s.state.log.written.map (fun line => line.1.name) = book.filed.map (fileOf first tm dir base)

theorem begunLinked {settings : Settings} (synchronous : Synchronous settings) {tm : Tm} {dir base first : Text}
    (named : Named settings.fileName tm dir base first) {split : Nat} (same : settings.splitLines = split) :
    Linked first tm dir base split (begun settings tm : Traced ω) (Rotation.begin dayOf (calendar tm)) := by
  have direct := @begunDirect ω settings synchronous tm
  obtain ⟨dirName,logName,opened⟩ := named.started
    {new with mCloseLog := settings.closeLog, mLogBufSize := settings.logBufSize, mBuf := [],
              mSplitLines := settings.splitLines} rfl rfl
  have name : fileOf first tm dir base (calendar tm,0) = first := if_pos rfl
  refine ⟨direct,Rotation.beginKept _,?_,?_,?_,?_,?_,?_,?_,?_,rfl,rfl,?_⟩ <;>
    simp only [begun,initSync synchronous tm,Rotation.begin,List.map_cons,List.map_nil,name]
  · exact dirName
  · exact logName
  · exact same
  · rfl
  · rfl
  · exact List.mem_singleton.mpr rfl
  · exact ⟨0,by rw [opened]⟩
  · rw [opened]
  · rfl

section Steps
variable {settings : Settings} {first dir base : Text} {tm : Tm} {split : Nat} {s : Traced ω} {book : Rotation.State Date Nat}
  (linked : Linked first tm dir base split s book)
include linked

theorem Linked.turns (now : Tm) :
    (Opens s.state.log now ↔ Rotation.Turns dayOf split book (calendar now)) ∧
    partOf s.state.log now = Rotation.part dayOf split book (calendar now) ∧
    (if s.state.log.mToday ≠ now.mday then 1 else s.state.log.mCount + 1) =
      (Rotation.counted dayOf 1 book (calendar now) : Int) := by
  have day : dayOf (calendar now) = now.mday := rfl
  have next : s.state.log.mCount + 1 = ((book.count + 1 : Nat) : Int) := by rw [linked.count]; rfl
  refine ⟨?_,?_,?_⟩
  · simp only [Opens,Rotation.Turns,day,linked.today,next,linked.splitLines]
    rw [← Int.ofNat_tmod]
    exact or_congr_right Int.natCast_eq_zero
  · simp only [partOf,Rotation.part,day,linked.today,next,linked.splitLines]
    rfl
  · simp only [Rotation.counted,day,linked.today,next]
    split <;> rfl

theorem Linked.newName {now : Tm} (opens : Opens s.state.log now) (whole : Whole s.state.log now) :
    newLog s.state.log now = partName dir base (calendar now,Rotation.part dayOf split book (calendar now)) := by
  obtain ⟨_,part,_⟩ := linked.turns now
  have whole' := whole.name
  rw [linked.dirName,linked.logName,part] at whole'
  have dates : tail now = date now := List.take_of_length_le (by have := whole.date; omega)
  have fits : snprintf 255 (partName dir base (calendar now,Rotation.part dayOf split book (calendar now))) =
      partName dir base (calendar now,Rotation.part dayOf split book (calendar now)) := List.take_of_length_le (by omega)
  rw [← fits]
  simp only [newLog,linked.dirName,linked.logName,dates,partName,dateTextOf,← part,partOf]
  by_cases day : s.state.log.mToday ≠ now.mday
  · simp only [if_pos day,partSuffix,if_true,List.append_nil]
  · have full : (s.state.log.mCount + 1).tmod s.state.log.mSplitLines = 0 := opens.resolve_left day
    rw [linked.count,linked.splitLines] at full ⊢
    have next : (book.count : Int) + 1 = ((book.count + 1 : Nat) : Int) := rfl
    have quotient : ((book.count + 1 : Nat) : Int) / (split : Int) = (((book.count + 1) / split : Nat) : Int) := rfl
    have positive : (book.count + 1) / split ≠ 0 := by
      intro zero
      rw [next,← Int.ofNat_tmod] at full
      have := Nat.div_add_mod (book.count + 1) split
      rw [zero,Nat.mul_zero,Int.natCast_eq_zero.mp full] at this
      omega
    simp only [if_neg day,next,Int.natCast_tdiv_eq_ediv,quotient,Int.toNat_natCast,partSuffix,if_neg positive,List.append_assoc]
    rfl

variable {w : ω} {call : Nat} {entry : Entry} [DecidableEq ω]

theorem Linked.changes (called : s.state.writers w = .called call entry) (opens : Opens s.state.log entry.tm)
    (whole : Whole s.state.log entry.tm) (positive : 0 < split) (forward : book.current.1 ≤ calendar entry.tm)
    {line : Text} (composed : line = logStr s.state.log.mLogBufSize entry) :
    Linked first tm dir base split
      ⟨{s.state with log := {turned s.state.log entry.tm true with mBuf := line}.fputs ⟨call,line⟩,
                     writers := update s.state.writers w .outside},s.clock,s.dates ++ [calendar entry.tm]⟩
      (Rotation.enter dayOf split 1 book (calendar entry.tm)) := by
  have kept := Rotation.enterKept linked.kept positive 1 (fun _ => forward)
  have direct := movesDirect linked.direct (.turns called opens composed)
  obtain ⟨same,part,count⟩ := linked.turns entry.tm
  have turns := same.mp opens
  have other : (calendar entry.tm,Rotation.part dayOf split book (calendar entry.tm)) ≠ (calendar tm,0) :=
    fun first => linked.kept.unseen forward turns (first ▸ linked.began)
  have name : newLog s.state.log entry.tm =
      fileOf first tm dir base (calendar entry.tm,Rotation.part dayOf split book (calendar entry.tm)) := by
    rw [linked.newName opens whole,fileOf,if_neg other]
  have openings : s.state.log.openings ++ [newLog s.state.log entry.tm] =
      (book.opened ++ [(calendar entry.tm,Rotation.part dayOf split book (calendar entry.tm))]).map
        (fileOf first tm dir base) := by
    rw [List.map_append,← linked.openings,name]
    rfl
  have dates : s.dates ++ [calendar entry.tm] =
      (book.opened ++ [(calendar entry.tm,Rotation.part dayOf split book (calendar entry.tm))]).map Prod.fst := by
    rw [List.map_append,← linked.dates]
    rfl
  have filed : (s.state.log.written ++
      [((⟨newLog s.state.log entry.tm,s.state.log.openings.length⟩ : Stream),(⟨call,line⟩ : Record))]).map
        (fun line => line.1.name) =
      (book.filed ++ [(calendar entry.tm,Rotation.part dayOf split book (calendar entry.tm))]).map
        (fileOf first tm dir base) := by
    rw [List.map_append,List.map_append,linked.filed,List.map_singleton,List.map_singleton,← name]
  rw [Rotation.enterTurns turns] at kept ⊢
  rw [fputsOpen rfl] at direct ⊢
  exact ⟨direct,kept,linked.dirName,linked.logName,linked.splitLines,rfl,count,List.mem_append_left _ linked.began,
    ⟨s.state.log.openings.length,congrArg (fun n => some (Stream.mk n s.state.log.openings.length)) name⟩,openings,
    dates,List.getLast?_concat,filed⟩

theorem Linked.keeps (called : s.state.writers w = .called call entry) (stays : ¬ Opens s.state.log entry.tm)
    (positive : 0 < split) {line : Text} (composed : line = logStr s.state.log.mLogBufSize entry) :
    Linked first tm dir base split
      ⟨{s.state with log := {s.state.log with mCount := s.state.log.mCount + 1, mBuf := line}.fputs ⟨call,line⟩,
                     writers := update s.state.writers w .outside},s.clock,s.dates⟩
      (Rotation.enter dayOf split 1 book (calendar entry.tm)) := by
  have stay : ¬ Rotation.Turns dayOf split book (calendar entry.tm) := mt (linked.turns entry.tm).1.mpr stays
  have kept := Rotation.enterKept linked.kept positive 1 (fun turns => absurd turns stay)
  have moves : DirectMoves s.state (.compose w true) _ := .stays called stays composed
  have direct := movesDirect linked.direct moves
  obtain ⟨opening,here⟩ := linked.stream
  have count : s.state.log.mCount + 1 = ((book.count + 1 : Nat) : Int) := by rw [linked.count]; rfl
  have filed : (s.state.log.written ++
      [((⟨fileOf first tm dir base book.current,opening⟩ : Stream),(⟨call,line⟩ : Record))]).map (fun line => line.1.name) =
      (book.filed ++ [book.current]).map (fileOf first tm dir base) := by
    rw [List.map_append,List.map_append,linked.filed,List.map_singleton,List.map_singleton]
  rw [Rotation.enterStays stay] at kept ⊢
  rw [fputsOpen (by exact here)] at direct ⊢
  exact ⟨direct,kept,linked.dirName,linked.logName,linked.splitLines,linked.today,count,linked.began,⟨opening,here⟩,
    linked.openings,linked.dates,linked.latest,filed⟩

omit [DecidableEq ω] in
theorem Linked.elsewhere {state : State ω} (moves : Direct state) (log : state.log = s.state.log) (clock : Instant) :
    Linked first tm dir base split ⟨state,clock,s.dates⟩ book := by
  obtain ⟨_,kept,dirName,logName,splitLines,today,count,began,stream,openings,dates,latest,filed⟩ := linked
  rw [← log] at dirName logName splitLines today count stream openings filed
  exact ⟨moves,kept,dirName,logName,splitLines,today,count,began,stream,openings,dates,latest,filed⟩

theorem Linked.traced {s' : Traced ω} {e : Event ω} (positive : 0 < split) (enters : Enters s e)
    (taken : traceStep s e = some s') :
    Linked first tm dir base split s' book ∨
    ∃ d book', Rotation.Onward dayOf split book d ∧ (Rotation.system dayOf split 1).step book d = some book' ∧
      Linked first tm dir base split s' book' := by
  obtain ⟨moves,direct⟩ := traceMoves linked.direct taken
  cases moves with
  | elsewhere _ log clock => exact .inl (linked.elsewhere direct log clock)
  | refused called opens =>
    have answered := (enters.1 _ (enteringCalled called false) opens).1
    contradiction
  | @turns w call entry line called opens composed =>
    have whole := (enters.1 _ (enteringCalled called true) opens).2
    have forward : book.current.1 ≤ calendar entry.tm := enters.2 _ (enteringCalled called true) opens _ linked.latest
    exact .inr ⟨calendar entry.tm,_,fun _ => forward,rfl,linked.changes called opens whole positive forward composed⟩
  | @stays w opened call entry line called stays composed =>
    have stay : ¬ Rotation.Turns dayOf split book (calendar entry.tm) := mt (linked.turns entry.tm).1.mpr stays
    exact .inr ⟨calendar entry.tm,_,fun turns => absurd turns stay,rfl,linked.keeps called stays positive composed⟩

omit [DecidableEq ω] in
theorem Linked.stable {fileName : Text} (named : Named fileName tm dir base first) : Stable split s := by
  refine ⟨fun name => ?_,?_,?_,?_⟩
  · have all := linked.kept.named named.injective name
    rw [← linked.filed,List.count_eq_countP,List.countP_map] at all
    refine Int.ofNat_le.mpr (Nat.le_trans (Nat.le_of_eq ?_) all)
    exact List.countP_congr (fun line _ => by simp)
  · rw [linked.openings]
    exact linked.kept.fresh.map named.injective
  · rw [linked.dates]
    exact linked.kept.ordered
  · rw [linked.openings,linked.dates,linked.dirName,List.forall₂_map_left_iff,List.forall₂_map_right_iff,List.forall₂_same]
    exact fun f _ => named.dated f

end Steps

theorem reachLinked [DecidableEq ω] {settings : Settings} (synchronous : Synchronous settings) {tm : Tm}
    {dir base first : Text} (named : Named settings.fileName tm dir base first) {s : Traced ω}
    (reached : (syncSystem ω settings tm).Reach Enters s) :
    ∃ split : Nat, settings.splitLines = split ∧ ∃ book, Linked first tm dir base split s book := by
  obtain ⟨split,same⟩ : ∃ split : Nat, settings.splitLines = split :=
    ⟨settings.splitLines.toNat,(Int.toNat_of_nonneg (by have := synchronous.split; omega)).symm⟩
  have positive : 0 < split := by
    have := synchronous.split
    omega
  obtain ⟨book,_,linked⟩ : ∃ book, (Rotation.system dayOf split 1).Reach (Rotation.Onward dayOf split) book ∧
      Linked first tm dir base split s book := by
    refine forwardSimulation (R := Linked first tm dir base split) (fun s start => ?_)
      (fun _ _ _ _ linked enters taken => ?_) reached
    · rw [show s = begun settings tm from start]
      exact ⟨_,⟨calendar tm,rfl⟩,begunLinked synchronous named same⟩
    · exact linked.traced positive enters taken
  exact ⟨split,same,book,linked⟩

theorem reachStable [DecidableEq ω] {settings : Settings} (synchronous : Synchronous settings) {tm : Tm}
    {dir base first : Text} (named : Named settings.fileName tm dir base first) {s : Traced ω}
    (reached : (syncSystem ω settings tm).Reach Enters s) : Direct s.state ∧ Stable settings.splitLines s := by
  obtain ⟨split,same,book,linked⟩ := reachLinked synchronous named reached
  rw [same]
  exact ⟨linked.direct,linked.stable named⟩

/- From `init` on, with any number of writers: while no call that changes the file is
dated before the call that opened the file it leaves, and no name is cut, no file
receives more than `split_lines` records, no name is opened twice, and the dates of
the files do not go back. -/
theorem rotationStable [DecidableEq ω] {settings : Settings} (synchronous : Synchronous settings) {tm : Tm}
    {dir base first : Text} (named : Named settings.fileName tm dir base first) {s : Traced ω}
    (reached : (syncSystem ω settings tm).Reach Enters s) : Stable settings.splitLines s :=
  (reachStable synchronous named reached).2

theorem turnsBack [DecidableEq ω] {s s' : Traced ω} {e : Event ω} (direct : Direct s.state) (back : ¬ Forward s e)
    (taken : traceStep s e = some s') : ¬ s'.dates.Pairwise (· ≤ ·) := by
  simp only [Forward,not_forall] at back
  obtain ⟨call,enters,opens,d,latest,later⟩ := back
  have grown {entry : Entry} (here : (call.1 : Entry) = entry) : ¬ (s.dates ++ [calendar entry.tm]).Pairwise (· ≤ ·) := by
    rw [← here]
    intro ordered
    exact later ((List.pairwise_append.mp ordered).2.2 d (List.mem_of_getLast? latest) _ (List.mem_singleton.mpr rfl))
  obtain ⟨moves,_⟩ := traceMoves direct taken
  cases moves with
  | elsewhere nobody =>
    rw [nobody] at enters
    contradiction
  | refused called =>
    rw [enteringCalled called] at enters
    exact grown (congrArg Prod.fst (Option.some.inj enters)).symm
  | turns called =>
    rw [enteringCalled called] at enters
    exact grown (congrArg Prod.fst (Option.some.inj enters)).symm
  | stays called stays =>
    rw [enteringCalled called] at enters
    cases Option.some.inj enters
    exact absurd opens stays

/- Where every `fopen` succeeds on a whole name, a run is stable after each step
exactly when the calls that change the file come in the order of their dates. -/
theorem stableThroughoutIff [DecidableEq ω] {settings : Settings} (synchronous : Synchronous settings) {tm : Tm}
    {dir base first : Text} (named : Named settings.fileName tm dir base first) (es : List (Event ω))
    (plain : (syncSystem ω settings tm).Throughout (fun s e _ => Plain s e) (begun settings tm) es) :
    (syncSystem ω settings tm).Throughout (fun _ _ s' => Stable settings.splitLines s') (begun settings tm) es ↔
    (syncSystem ω settings tm).Throughout (fun s e _ => Forward s e) (begun settings tm) es := by
  have each (s : Traced ω) (e : Event ω) (s' : Traced ω) (reached : (syncSystem ω settings tm).Reach Enters s)
      (taken : traceStep s e = some s') : (Plain s e ∧ Stable settings.splitLines s') ↔ Enters s e := by
    constructor
    · rintro ⟨plain,stable⟩
      refine ⟨plain,Classical.byContradiction fun back => ?_⟩
      exact turnsBack (reachStable synchronous named reached).1 back taken stable.forward
    · intro enters
      exact ⟨enters.1,(reachStable synchronous named (.step reached enters taken)).2⟩
  have both := (syncSystem ω settings tm).throughoutExact each (.init rfl) es
  have left := (syncSystem ω settings tm).throughoutAnd (P := fun s e _ => Plain s e)
    (Q := fun _ _ s' => Stable settings.splitLines s') (s := begun settings tm) es
  have right := (syncSystem ω settings tm).throughoutAnd (P := fun s e _ => Plain s e)
    (Q := fun s e _ => Forward s e) (s := begun settings tm) es
  constructor
  · intro stable
    exact (right.mp (both.mp (left.mpr ⟨plain,stable⟩))).2
  · intro forward
    exact (left.mp (both.mpr (right.mpr ⟨plain,forward⟩))).2

def noon : Tm := ⟨2025,1,1,12,0,0⟩
def late : Entry := ⟨1,ascii "late",⟨2025,1,1,23,59,59⟩,0⟩
def early : Entry := ⟨1,ascii "early",⟨2025,1,2,0,0,0⟩,0⟩

theorem logNamed :
    Named (ascii "log/ServerLog") noon (ascii "log/") (ascii "ServerLog") (ascii "log/2025_01_01_ServerLog") := by
  have path : strrchr (ascii "log/ServerLog") = some (ascii "log/",ascii "ServerLog") := by decide +kernel
  have name : ascii "log/" ++ date noon ++ ascii "ServerLog" = ascii "log/2025_01_01_ServerLog" := by decide +kernel
  rw [← name]
  exact .inDirectory path (by decide +kernel) (by decide +kernel) (by decide +kernel) (by decide +kernel)

def orderedRun : List (Event Bool) :=
  [.call false late,.call true late,.compose true true,.compose false true,.call false early,.compose false true]

theorem sampleStable :
    ∃ s, (syncSystem Bool (logSettings 2) noon).checkedRun Enters (begun (logSettings 2) noon) orderedRun = some s ∧
      s.state.log.openings = [ascii "log/2025_01_01_ServerLog",ascii "log/2025_01_01_ServerLog.1",
        ascii "log/2025_01_02_ServerLog"] ∧ Stable 2 s := by
  have ends : ((syncSystem Bool (logSettings 2) noon).checkedRun Enters (begun (logSettings 2) noon) orderedRun).map
      (fun s => s.state.log.openings) = some [ascii "log/2025_01_01_ServerLog",ascii "log/2025_01_01_ServerLog.1",
        ascii "log/2025_01_02_ServerLog"] := by decide +kernel
  obtain ⟨s,ran,openings⟩ := Option.map_eq_some_iff.mp ends
  refine ⟨s,ran,openings,rotationStable (logSynchronous 2 (by decide)) logNamed ?_⟩
  exact (syncSystem Bool (logSettings 2) noon).checkedReach (.init rfl) _ ran

def midnightRun : List (Event Bool) :=
  [.call false late,.call true early,.compose true true,.compose false true,.call true early,.compose true true]

theorem lateCallReopens :
    ∃ s, (syncSystem Bool (logSettings 1) noon).Reach (fun s e => Clocked s e ∧ FopenSucceeds e) s ∧
      s.state.log.openings = [ascii "log/2025_01_01_ServerLog",ascii "log/2025_01_02_ServerLog",
        ascii "log/2025_01_01_ServerLog",ascii "log/2025_01_02_ServerLog"] ∧
      s.state.log.written.countP (fun line => line.1.name = ascii "log/2025_01_02_ServerLog") = 2 ∧
      ¬ s.dates.Pairwise (· ≤ ·) ∧ ¬ Stable 1 s := by
  have ends : ((syncSystem Bool (logSettings 1) noon).checkedRun (fun s e => Clocked s e ∧ FopenSucceeds e)
      (begun (logSettings 1) noon) midnightRun).map (fun s => decide (
        s.state.log.openings = [ascii "log/2025_01_01_ServerLog",ascii "log/2025_01_02_ServerLog",
          ascii "log/2025_01_01_ServerLog",ascii "log/2025_01_02_ServerLog"] ∧
        s.state.log.written.countP (fun line => line.1.name = ascii "log/2025_01_02_ServerLog") = 2 ∧
        ¬ s.dates.Pairwise (· ≤ ·))) = some true := by decide +kernel
  obtain ⟨s,ran,holds⟩ := Option.map_eq_some_iff.mp ends
  obtain ⟨openings,twice,back⟩ := of_decide_eq_true holds
  exact ⟨s,(syncSystem Bool (logSettings 1) noon).checkedReach (.init rfl) _ ran,openings,twice,back,
    fun stable => back stable.forward⟩

end SimpleChat.ServerLog
