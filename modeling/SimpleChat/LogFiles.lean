import SimpleChat.LogPlacement
import SimpleChat.LogReading
import SimpleChat.ServerLogTrace

/-! What a log file holds at any moment of a run: the lines of the calls whose records
were written to it, in that order. A file of either logger, read back, gives the time,
the level and the message of each of these calls where the lines are whole and no
message has a newline. -/
namespace SimpleChat
open Basis (System)
open Function (update)
open Log (Entry Record Stream)
open LogReading (readLog shown line row)

def Composed (compose : Entry → Text) (entries : List Entry) (record : Record) : Prop :=
  ∃ e, entries[record.call]? = some e ∧ record.text = compose e

theorem entryLater {entries : List Entry} {k : Nat} {e : Entry} (here : entries[k]? = some e) (more : List Entry) :
    (entries ++ more)[k]? = some e := by
  obtain ⟨inside,_⟩ := List.getElem?_eq_some_iff.mp here
  rw [List.getElem?_append_left inside]
  exact here

theorem Composed.later {compose : Entry → Text} {entries : List Entry} {record : Record}
    (composed : Composed compose entries record) (more : List Entry) : Composed compose (entries ++ more) record := by
  obtain ⟨e,here,text⟩ := composed
  exact ⟨e,entryLater here more,text⟩

def recordsIn (written : List (Stream × Record)) (name : Text) : List Record :=
  (written.filter (fun line => line.1.name = name)).map Prod.snd

def fileText (written : List (Stream × Record)) (name : Text) : Text :=
  (recordsIn written name).flatMap Record.text

/- The file of that name reads back as the calls behind its records. -/
def ReadsBack (tag : Int → Text) (entries : List Entry) (written : List (Stream × Record)) (name : Text) : Prop :=
  readLog tag (fileText written name) =
    ((recordsIn written name).map (fun record => (entries[record.call]?).map shown),[])

def OneLine (entries : List Entry) (record : Record) : Prop := ∀ e ∈ entries[record.call]?, newline ∉ e.message

theorem behindAll {compose : Entry → Text} {entries : List Entry} {records : List Record}
    (composed : ∀ record ∈ records, Composed compose entries record) :
    ∃ calls : List Entry, records.map (fun record => entries[record.call]?) = calls.map some ∧
      records.flatMap Record.text = calls.flatMap compose := by
  induction records with
  | nil => exact ⟨[],rfl,rfl⟩
  | cons record records ih =>
    obtain ⟨⟨e,here,text⟩,others⟩ := List.forall_mem_cons.mp composed
    obtain ⟨calls,same,texts⟩ := ih others
    exact ⟨e :: calls,by rw [List.map_cons,List.map_cons,here,same],by rw [List.flatMap_cons,List.flatMap_cons,text,texts]⟩

theorem readsBackIff {tag : Int → Text} (tags : LogReading.Tags tag) {entries : List Entry} {written : List (Stream × Record)}
    {name : Text} (composed : ∀ record ∈ recordsIn written name, Composed (line tag) entries record) :
    ReadsBack tag entries written name ↔ ∀ record ∈ recordsIn written name, OneLine entries record := by
  obtain ⟨calls,same,texts⟩ := behindAll composed
  have views : (recordsIn written name).map (fun record => (entries[record.call]?).map shown) =
      calls.map (fun e => some (shown e)) := by
    have both := congrArg (List.map (Option.map shown)) same
    simpa [Function.comp_def] using both
  rw [ReadsBack,fileText,texts,views,LogReading.logRead tags]
  constructor
  · intro clean record member e here
    have among : entries[record.call]? ∈ calls.map some := same ▸ List.mem_map.mpr ⟨record,member,rfl⟩
    obtain ⟨e',called,found⟩ := List.mem_map.mp among
    rw [← found] at here
    exact Option.some.inj here ▸ clean e' called
  · intro oneLine e called
    have among : some e ∈ (recordsIn written name).map (fun record => entries[record.call]?) :=
      same ▸ List.mem_map.mpr ⟨e,called,rfl⟩
    obtain ⟨record,member,found⟩ := List.mem_map.mp among
    exact oneLine record member e found

theorem recordsWritten {written : List (Stream × Record)} {name : Text} {record : Record}
    (member : record ∈ recordsIn written name) : ∃ stream, (stream,record) ∈ written := by
  obtain ⟨⟨stream,record⟩,among,rfl⟩ := List.mem_map.mp member
  exact ⟨stream,List.mem_of_mem_filter among⟩

inductive Hand where
  | empty
  | entry (call : Nat) (e : Entry)
  | composed (record : Record)

def Hand.Composes (compose : Entry → Text) (entries : List Entry) : Hand → Prop
  | .empty => True
  | .entry call e => entries[call]? = some e
  | .composed record => Composed compose entries record

theorem Hand.Composes.later {compose : Entry → Text} {entries : List Entry} {hand : Hand} (composes : hand.Composes compose entries)
    (more : List Entry) : hand.Composes compose (entries ++ more) := by
  cases hand with
  | empty => trivial
  | entry => exact entryLater composes more
  | composed => exact Composed.later composes more

/- Wherever a record is on its way, it carries the line of its call. -/
structure Carried {ω : Type} (compose : Entry → Text) (calls : Nat) (hands : ω → Hand) (records : List Record)
    (entries : List Entry) : Prop where
  calls : calls = entries.length
  hands : ∀ w, (hands w).Composes compose entries
  records : ∀ record ∈ records, Composed compose entries record

section Carried
variable {ω : Type} {compose : Entry → Text} {calls : Nat} {hands : ω → Hand} {records records' : List Record}
  {entries : List Entry}

theorem Carried.begun (fresh : calls = 0) (empty : ∀ w, hands w = .empty) (nothing : records = []) :
    Carried compose calls hands records [] :=
  ⟨fresh,fun w => by rw [empty w]; trivial,by simp [nothing]⟩

theorem Carried.kept (carried : Carried compose calls hands records entries) (fewer : ∀ record ∈ records', record ∈ records) :
    Carried compose calls hands records' entries :=
  ⟨carried.calls,carried.hands,fun record member => carried.records record (fewer record member)⟩

theorem Carried.entry (carried : Carried compose calls hands records entries) {w : ω} {call : Nat} {e : Entry}
    (here : hands w = .entry call e) : entries[call]? = some e := by
  have held := carried.hands w
  rwa [here] at held

variable [DecidableEq ω]

theorem Carried.called (carried : Carried compose calls hands records entries) (w : ω) (e : Entry) :
    Carried compose (calls + 1) (update hands w (.entry calls e)) records (entries ++ [e]) := by
  refine ⟨by simp [carried.calls],fun v => ?_,fun record member => (carried.records record member).later _⟩
  by_cases same : v = w
  · have own : (entries ++ [e])[calls]? = some e := by rw [carried.calls]; simp
    rw [same,Function.update_self]
    exact own
  · rw [Function.update_of_ne same]
    exact (carried.hands v).later _

theorem Carried.moved (carried : Carried compose calls hands records entries) {w : ω} {hand : Hand}
    (composes : hand.Composes compose entries) (fewer : ∀ record ∈ records', record ∈ records ∨ hands w = .composed record) :
    Carried compose calls (update hands w hand) records' entries := by
  refine ⟨carried.calls,fun v => ?_,fun record member => ?_⟩
  · by_cases same : v = w
    · rw [same,Function.update_self]
      exact composes
    · rw [Function.update_of_ne same]
      exact carried.hands v
  · rcases fewer record member with before | held
    · exact carried.records record before
    · have composed := carried.hands w
      rwa [held] at composed

end Carried

namespace Log

variable {ω : Type}

def Event.entry? : Event ω → Option Entry
  | .call _ entry => some entry
  | _ => none

def WriterPc.hand : WriterPc → Hand
  | .outside => .empty
  | .called call entry | .rotated call entry => .entry call entry
  | .formatted record | .pushing record | .direct record => .composed record

def State.onWay (s : State ω) : List Record :=
  s.mLogQueue.toList ++ s.flushing.toList ++ s.written.map Prod.snd

structure Composing (bufSize : Nat) (s : State ω) (entries : List Entry) : Prop where
  size : s.mLogBufSize = bufSize
  valid : s.mLogQueue.Valid
  carried : Carried (logStr bufSize) s.calls (WriterPc.hand ∘ s.writers) s.onWay entries

theorem rotateSize (s : State ω) (tm : Tm) : (rotate s tm).mLogBufSize = s.mLogBufSize := by
  simp only [rotate]
  split
  · rfl
  · split <;> rfl

variable [DecidableEq ω]

theorem movesComposing {bufSize : Nat} {s s' : State ω} {entries : List Entry} {e : Event ω}
    (composing : Composing bufSize s entries) (moves : Moves s e s') :
    Composing bufSize s' (entries ++ e.entry?.toList) := by
  have still (calm : e.entry? = none) (after : Composing bufSize s' entries) :
      Composing bufSize s' (entries ++ e.entry?.toList) := by
    rw [calm,Option.toList_none,List.append_nil]
    exact after
  obtain ⟨size,valid,carried⟩ := composing
  have hand {w : ω} {pc : WriterPc} (here : s.writers w = pc) : (WriterPc.hand ∘ s.writers) w = pc.hand :=
    congrArg WriterPc.hand here
  have moved {w : ω} (pc : WriterPc) {records : List Record} (composes : pc.hand.Composes (logStr bufSize) entries)
      (fewer : ∀ record ∈ records, record ∈ s.onWay ∨ (WriterPc.hand ∘ s.writers) w = .composed record) :
      Carried (logStr bufSize) s.calls (WriterPc.hand ∘ update s.writers w pc) records entries := by
    rw [Function.comp_update]
    exact carried.moved composes fewer
  have held {w : ω} {record : Record} (here : (WriterPc.hand ∘ s.writers) w = .composed record) :
      Composed (logStr bufSize) entries record := by
    have composes := carried.hands w
    rwa [here] at composes
  cases moves with
  | @call w entry outside =>
    refine ⟨size,valid,?_⟩
    rw [Function.comp_update]
    exact carried.called w entry
  | @rotate w call entry called =>
    obtain ⟨queue,lines,flushing,number,_,_⟩ := rotateFrame s entry.tm
    refine still rfl ⟨(rotateSize s entry.tm).trans size,by simp only [queue]; exact valid,?_⟩
    simp only [State.onWay,queue,flushing,lines,number]
    exact moved (.rotated call entry) (carried.entry (hand called)) (fun _ member => .inl member)
  | @format w call entry text rotated composed =>
    have line : Composed (logStr bufSize) entries ⟨call,text⟩ := ⟨entry,carried.entry (hand rotated),by rw [composed,size]⟩
    exact still rfl ⟨size,valid,moved (.formatted ⟨call,text⟩) line (fun _ member => .inl member)⟩
  | @queueing w record formatted =>
    exact still rfl ⟨size,valid,moved (.pushing record) (held (hand formatted)) (fun _ member => .inl member)⟩
  | @writing w record formatted =>
    exact still rfl ⟨size,valid,moved (.direct record) (held (hand formatted)) (fun _ member => .inl member)⟩
  | @push w record queue accepted pushing pushed =>
    by_cases room : s.mLogQueue.mSize < s.mLogQueue.mMaxSize
    · obtain ⟨q,done,valid',_,list⟩ := valid.pushed room record
      rw [done] at pushed
      cases pushed
      refine still rfl ⟨size,valid',moved .outside trivial (fun other member => ?_)⟩
      simp only [State.onWay,list,List.mem_append,List.mem_singleton] at member ⊢
      rcases member with ((before | rfl) | taken) | written
      · exact .inl (.inl (.inl before))
      · exact .inr (hand pushing)
      · exact .inl (.inl (.inr taken))
      · exact .inl (.inr written)
    · rw [BlockQueue.pushRefused room record] at pushed
      cases pushed
      exact still rfl ⟨size,valid,moved .outside trivial (fun _ member => .inl member)⟩
  | @write w record direct =>
    refine still rfl ⟨size,valid,moved .outside trivial (fun other member => ?_)⟩
    simp only [State.onWay,fputs,List.map_append,List.map_singleton,List.mem_append,List.mem_singleton] at member ⊢
    rcases member with before | written | rfl
    · exact .inl (.inl before)
    · exact .inl (.inr written)
    · exact .inr (hand direct)
  | take idle some_ took =>
    obtain ⟨record,q,done,valid',_,list⟩ := valid.took some_
    rw [done] at took
    cases took
    refine still rfl ⟨size,valid',carried.kept (fun other member => ?_)⟩
    simp only [State.onWay,list,Option.toList_some,List.mem_append,List.mem_cons] at member ⊢
    tauto
  | @flush record here =>
    refine still rfl ⟨size,valid,carried.kept (fun other member => ?_)⟩
    simp only [State.onWay,fputs,here,Option.toList_some,Option.toList_none,List.append_nil,List.map_append,
      List.map_singleton,List.mem_append,List.mem_singleton] at member ⊢
    tauto

def LineWhole (bufSize : Nat) (e : Entry) : Prop :=
  (0 : UInt8) ∉ e.message ∧ (LineBuffer.logStamp e).length < 48 ∧
    (LineBuffer.logStamp e).length + e.message.length + 2 ≤ bufSize

instance (bufSize : Nat) (e : Entry) : Decidable (LineWhole bufSize e) := by unfold LineWhole; infer_instance

theorem wholeLine {bufSize : Nat} {e : Entry} (whole : LineWhole bufSize e) : logStr bufSize e = line levelTag e := by
  obtain ⟨clean,short,fits⟩ := whole
  have head : header e = LineBuffer.logStamp e := LineBuffer.snprintfWhole (.inl short)
  rw [logStr,head,if_pos (by omega),LogReading.logStampRow]
  exact LogReading.lineKept LogReading.logTags clean

def begunSystem (ω : Type) [DecidableEq ω] : System (State ω) (Event ω) :=
  ⟨fun s => (∃ capacity, Initial capacity s) ∨ InitialSync s,step⟩

theorem begunComposing {s : State ω} (start : (begunSystem ω).init s) : Composing s.mLogBufSize s [] := by
  obtain ⟨valid,empty,outside,idle,nothing⟩ := initialParts start
  have fresh : s.calls = 0 := by
    rcases start with ⟨_,_,_,_,_,_,_,_,_,calls⟩ | ⟨⟨_,_,_,_,_,_,_,_,calls⟩,_⟩ <;> exact calls
  exact ⟨rfl,valid,.begun fresh (fun w => congrArg WriterPc.hand (outside w)) (by simp [State.onWay,empty,idle,nothing])⟩

/- Whoever writes, rotates or empties the queue in whatever order: each log file reads
back as the calls behind its records exactly when none of these has a newline in its
message. -/
theorem logReadsBackIff {s s' : State ω} (start : (begunSystem ω).init s) {es : List (Event ω)}
    (ran : (begunSystem ω).run s es = some s') (whole : ∀ e ∈ es.filterMap Event.entry?, LineWhole s.mLogBufSize e)
    (name : Text) :
    ReadsBack levelTag (es.filterMap Event.entry?) s'.written name ↔
      ∀ record ∈ recordsIn s'.written name, OneLine (es.filterMap Event.entry?) record := by
  have composing := (begunSystem ω).runHistory
    (fun _ _ _ _ composing taken => movesComposing composing (stepMoves taken)) (begunComposing start) es ran
  rw [List.nil_append] at composing
  refine readsBackIff LogReading.logTags (fun record member => ?_)
  obtain ⟨stream,among⟩ := recordsWritten member
  obtain ⟨e,here,text⟩ := composing.carried.records record (List.mem_append_right _ (List.mem_map.mpr ⟨_,among,rfl⟩))
  exact ⟨e,here,text.trans (wholeLine (whole e (List.mem_of_getElem? here)))⟩

def filedRun : List (Event Bool) :=
  [.call false {sampleEntry "disk" with level := 2},.rotate false,.call true {sampleEntry "net" with level := 7},.format false,
   .test false,.push false,.take,.rotate true,.flush,.format true,.test true,.push true,.take,.flush]

theorem filedReadsBack : ∃ s', (begunSystem Bool).run (sampleStart Bool) filedRun = some s' ∧
    ReadsBack levelTag (filedRun.filterMap Event.entry?) s'.written (ascii "2025_01_01_ServerLog") ∧
    (readLog levelTag (fileText s'.written (ascii "2025_01_01_ServerLog"))).1.map (Option.map Entry.level) =
      [some 2,some 1] := by
  have runs : ((begunSystem Bool).run (sampleStart Bool) filedRun).map
      (fun s => (readLog levelTag (fileText s.written (ascii "2025_01_01_ServerLog"))).1.map (Option.map Entry.level)) =
      some [some 2,some 1] := by decide +kernel
  obtain ⟨s',ran,levels⟩ := Option.map_eq_some_iff.mp runs
  have clean : ∀ e ∈ filedRun.filterMap Event.entry?, newline ∉ e.message := by decide +kernel
  exact ⟨s',ran,(logReadsBackIff (.inl ⟨1,sampleInitial Bool⟩) ran (by decide +kernel) _).mpr
    (fun record member e here => clean e (List.mem_of_getElem? (Option.mem_def.mp here))),levels⟩

end Log

namespace ServerLog
open Log (Tm)

variable {ω : Type}

def Event.entry? : Event ω → Option Entry
  | .call _ entry => some entry
  | _ => none

def WriterPc.hand : WriterPc → Hand
  | .called call entry => .entry call entry
  | .pushing record => .composed record
  | .outside | .leaving => .empty

def FlushPc.record? : FlushPc → Option Record
  | .popped record => some record
  | _ => none

def State.onWay (s : State ω) : List Record :=
  s.log.mLogQueue.toList.flatMap SafeQueue.list ++ s.flushing.record?.toList ++ s.log.written.map Prod.snd

structure Composing (bufSize : Int) (s : State ω) (entries : List Entry) : Prop where
  size : s.log.mLogBufSize = bufSize
  carried : Carried (logStr bufSize) s.calls (WriterPc.hand ∘ s.writers) s.onWay entries

theorem rotateFrame {log log' : ServerLog} {tm : Tm} {opened goes : Bool} (turned : log.rotate tm opened = some (log',goes)) :
    log'.mLogBufSize = log.mLogBufSize ∧ log'.written = log.written ∧ log'.mLogQueue = log.mLogQueue := by
  simp only [rotate] at turned
  split at turned
  · cases turned
    exact ⟨rfl,rfl,rfl⟩
  · split at turned
    · cases turned
    · split at turned <;> cases turned <;> exact ⟨rfl,rfl,rfl⟩

theorem fputsWritten (log : ServerLog) (record : Record) : ∀ line ∈ (log.fputs record).written, line ∈ log.written ∨ line.2 = record := by
  unfold fputs
  split
  · intro line member
    rcases List.mem_append.mp member with before | now
    · exact .inl before
    · exact .inr (by rw [List.mem_singleton.mp now])
  · exact fun line => .inl

theorem fputsRest (log : ServerLog) (record : Record) :
    (log.fputs record).mLogBufSize = log.mLogBufSize ∧ (log.fputs record).mLogQueue = log.mLogQueue := by
  unfold fputs
  split <;> exact ⟨rfl,rfl⟩

variable [DecidableEq ω]

theorem Composing.moved {bufSize : Int} {s : State ω} {entries : List Entry} (composing : Composing bufSize s entries)
    {w : ω} (pc : WriterPc) {records : List Record} (composes : pc.hand.Composes (logStr bufSize) entries)
    (fewer : ∀ record ∈ records, record ∈ s.onWay ∨ (WriterPc.hand ∘ s.writers) w = .composed record) :
    Carried (logStr bufSize) s.calls (WriterPc.hand ∘ update s.writers w pc) records entries := by
  rw [Function.comp_update]
  exact composing.carried.moved composes fewer

theorem composeComposing {bufSize : Int} {s : State ω} {entries : List Entry} (composing : Composing bufSize s entries)
    {w : ω} {call : Nat} {entry : Entry} (called : s.writers w = .called call entry) (opened : Bool) :
    Composing bufSize (compose s w call entry opened) entries := by
  have mine : entries[call]? = some entry := composing.carried.entry (congrArg WriterPc.hand called)
  unfold compose
  split
  · exact ⟨composing.size,composing.carried⟩
  · rename_i log turned
    obtain ⟨buf,lines,queue⟩ := rotateFrame turned
    refine ⟨buf.trans composing.size,composing.moved .outside trivial (fun record member => .inl ?_)⟩
    simpa only [State.onWay,queue,lines] using member
  · rename_i log turned
    obtain ⟨buf,lines,queue⟩ := rotateFrame turned
    have line_ : Composed (logStr bufSize) entries ⟨call,logStr log.mLogBufSize entry⟩ :=
      ⟨entry,mine,by rw [buf,composing.size]⟩
    simp only [submit]
    split
    · refine ⟨buf.trans composing.size,composing.moved (.pushing _) line_ (fun record member => .inl ?_)⟩
      simpa only [State.onWay,queue,lines] using member
    · obtain ⟨buf',queue'⟩ := fputsRest {log with mBuf := logStr log.mLogBufSize entry} ⟨call,logStr log.mLogBufSize entry⟩
      refine ⟨buf'.trans (buf.trans composing.size),?_⟩
      have left : Carried (logStr bufSize) s.calls (WriterPc.hand ∘ update s.writers w .outside) s.onWay entries :=
        composing.moved .outside trivial (fun record member => .inl member)
      refine ⟨left.calls,left.hands,fun record member => ?_⟩
      simp only [State.onWay,show _ = s.log.mLogQueue from queue'.trans queue,List.mem_append,List.mem_map] at member
      rcases member with before | ⟨line,member,rfl⟩
      · exact left.records record (List.mem_append_left _ (List.mem_append.mpr before))
      · rcases fputsWritten _ _ line member with before | now
        · exact left.records _ (List.mem_append_right _ (List.mem_map.mpr ⟨line,lines ▸ before,rfl⟩))
        · rw [now]
          exact line_

theorem movesComposing {bufSize : Int} {s s' : State ω} {entries : List Entry} {e : Event ω}
    (composing : Composing bufSize s entries) (moves : Moves s e s') :
    Composing bufSize s' (entries ++ e.entry?.toList) := by
  have still (calm : e.entry? = none) (after : Composing bufSize s' entries) :
      Composing bufSize s' (entries ++ e.entry?.toList) := by
    rw [calm,Option.toList_none,List.append_nil]
    exact after
  obtain ⟨size,carried⟩ := id composing
  cases moves with
  | @call w entry outside =>
    refine ⟨size,?_⟩
    rw [Function.comp_update]
    exact carried.called w entry
  | compose called => exact still rfl (composeComposing composing called _)
  | @push w record queue pushing here =>
    refine still rfl ⟨size,composing.moved .leaving trivial (fun other member => ?_)⟩
    simp only [State.onWay,here,Option.toList_some,List.flatMap_singleton,List.mem_append] at member ⊢
    rcases member with (queued | taken) | written
    · rcases List.mem_append.mp queued with before | last
      · exact .inl (.inl (.inl before))
      · exact .inr (List.mem_singleton.mp last ▸ congrArg WriterPc.hand pushing)
    · exact .inl (.inl (.inr taken))
    · exact .inl (.inr written)
  | unlock leaving => exact still rfl ⟨size,composing.moved .outside trivial (fun _ member => .inl member)⟩
  | flush outside => exact still rfl composing
  | @wait queue queue' waits here waited =>
    have list : queue'.list = queue.list := by
      obtain ⟨value,_,last⟩ := Option.bind_eq_some_iff.mp waited
      simp only [Option.ite_none_right_eq_some,Option.some.injEq] at last
      rw [← last.2]
    refine still rfl ⟨size,carried.kept (fun other member => ?_)⟩
    simpa [State.onWay,here,waits,FlushPc.record?,list] using member
  | threw admitted here failed =>
    refine still rfl ⟨size,carried.kept (fun other member => ?_)⟩
    simpa [State.onWay,here,admitted,FlushPc.record?] using member
  | @pop queue queue' record admitted here removed =>
    have parts : queue.list = record :: queue'.list := by
      unfold SafeQueue.removeB at removed
      split at removed <;> cases removed
      assumption
    refine still rfl ⟨size,carried.kept (fun other member => ?_)⟩
    simp only [State.onWay,here,admitted,FlushPc.record?,Option.toList_some,Option.toList_none,List.flatMap_singleton,
      parts,List.append_nil,List.mem_append,List.mem_cons] at member ⊢
    tauto
  | @write record popped =>
    obtain ⟨_,queue⟩ := fputsRest s.log record
    refine still rfl ⟨(fputsRest s.log record).1.trans size,carried.kept (fun other member => ?_)⟩
    simp only [State.onWay,queue,popped,FlushPc.record?,Option.toList_some,Option.toList_none,List.append_nil,
      List.mem_append,List.mem_map,List.mem_singleton] at member ⊢
    rcases member with before | ⟨line,member,rfl⟩
    · exact .inl (.inl before)
    · rcases fputsWritten _ _ line member with before | now
      · exact .inr ⟨line,before,rfl⟩
      · exact .inl (.inr now)

def LineWhole (bufSize : Int) (e : Entry) : Prop :=
  (0 : UInt8) ∉ e.message ∧ bufSize ≤ intMax ∧
    ((((header e).length + e.message.length + 3 : Nat) : Int) ≤ bufSize ∨
      (e.message = [] ∧ (((header e).length + 2 : Nat) : Int) ≤ bufSize))

instance (bufSize : Int) (e : Entry) : Decidable (LineWhole bufSize e) := by unfold LineWhole; infer_instance

theorem wholeLine {bufSize : Int} {e : Entry} (whole : LineWhole bufSize e) : logStr bufSize e = line levelStr e := by
  obtain ⟨clean,int,room⟩ := whole
  have first : sizeT (bufSize - 1) = (bufSize - 1).toNat := LineBuffer.sizeTOf (by omega) (by omega)
  have second : sizeT (bufSize - (header e).length - 2) = (bufSize - (header e).length - 2).toNat :=
    LineBuffer.sizeTOf (by omega) (by omega)
  have fits : e.message.length < sizeT (bufSize - (header e).length - 2) ∨ e.message = [] :=
    room.imp (fun _ => by omega) And.left
  simp only [logStr,LineBuffer.snprintfWhole (.inl (show (header e).length < sizeT (bufSize - 1) by omega)),
    Nat.lt_irrefl,if_false]
  rw [if_pos fits,LogReading.headerRow]
  exact LogReading.lineKept LogReading.serverLogTags clean

def begunSystem (ω : Type) [DecidableEq ω] (settings : Settings) : System (State ω) (Event ω) where
  init s := (∃ tm opened created, init new settings tm opened created = (s.log,true)) ∧ s.locked = false ∧
    s.flushing = .waiting ∧ (∀ w, s.writers w = .outside) ∧ s.calls = 0 ∧ s.terminated = false
  step := step

theorem initFresh (settings : Settings) (tm : Tm) (opened created : Bool) :
    (init new settings tm opened created).1.written = [] ∧
    ∀ queue ∈ (init new settings tm opened created).1.mLogQueue, queue.list = [] := by
  simp only [init]
  split
  · exact ⟨rfl,by simp [new]⟩
  · split
    · rw [logFullNameFrame]
      exact ⟨rfl,by simp [new,fopen]⟩
    · split
      · split
        · rw [logFullNameFrame]
          exact ⟨rfl,by simp⟩
        · rw [logFullNameFrame]
          exact ⟨rfl,by simp [SafeQueue.withMax]⟩
      · rw [logFullNameFrame]
        exact ⟨rfl,by simp [new,fopen]⟩

theorem begunComposing {settings : Settings} {s : State ω} (start : (begunSystem ω settings).init s) :
    Composing s.log.mLogBufSize s [] := by
  obtain ⟨⟨tm,opened,created,done⟩,_,waits,outside,calls,_⟩ := start
  obtain ⟨nothing,empty⟩ := initFresh settings tm opened created
  rw [done] at nothing empty
  have queued : s.log.mLogQueue.toList.flatMap SafeQueue.list = [] :=
    List.flatMap_eq_nil_iff.mpr (fun queue here => empty queue (Option.mem_toList.mp here))
  exact ⟨rfl,.begun calls (fun w => congrArg WriterPc.hand (outside w))
    (by simp [State.onWay,queued,waits,FlushPc.record?,show s.log.written = [] from nothing])⟩

theorem serverLogReadsBackIff {settings : Settings} {s s' : State ω} (start : (begunSystem ω settings).init s)
    {es : List (Event ω)} (ran : (begunSystem ω settings).run s es = some s')
    (whole : ∀ e ∈ es.filterMap Event.entry?, LineWhole s.log.mLogBufSize e) (name : Text) :
    ReadsBack levelStr (es.filterMap Event.entry?) s'.log.written name ↔
      ∀ record ∈ recordsIn s'.log.written name, OneLine (es.filterMap Event.entry?) record := by
  have composing := (begunSystem ω settings).runHistory
    (fun _ _ _ _ composing taken => movesComposing composing (stepMoves taken)) (begunComposing start) es ran
  rw [List.nil_append] at composing
  refine readsBackIff LogReading.serverLogTags (fun record member => ?_)
  obtain ⟨stream,among⟩ := recordsWritten member
  obtain ⟨e,here,text⟩ := composing.carried.records record (List.mem_append_right _ (List.mem_map.mpr ⟨_,among,rfl⟩))
  exact ⟨e,here,text.trans (wholeLine (whole e (List.mem_of_getElem? here)))⟩

def forgedEntry : Entry :=
  ⟨1,ascii "login" ++ [newline] ++ ascii "2025-01-01 12:00:00.000000 [ERROR] forged",⟨2025,1,1,12,0,0⟩,0⟩

def forgedRun : List (Event Unit) := [.call () forgedEntry,.compose () true]

theorem forgedMisreads :
    ∃ s', (begunSystem Unit (logSettings 5000000)).run (begun (logSettings 5000000) forgedEntry.tm).state forgedRun = some s' ∧
      ¬ ReadsBack levelStr (forgedRun.filterMap Event.entry?) s'.log.written (ascii "log/2025_01_01_ServerLog") := by
  have runs : ((begunSystem Unit (logSettings 5000000)).run (begun (logSettings 5000000) forgedEntry.tm).state forgedRun).map
      (fun s => (recordsIn s.log.written (ascii "log/2025_01_01_ServerLog")).map Record.call) = some [0] := by decide +kernel
  obtain ⟨s',ran,calls⟩ := Option.map_eq_some_iff.mp runs
  have start : (begunSystem Unit (logSettings 5000000)).init (begun (logSettings 5000000) forgedEntry.tm).state :=
    ⟨⟨forgedEntry.tm,true,true,rfl⟩,rfl,rfl,fun _ => rfl,rfl,rfl⟩
  refine ⟨s',ran,fun reads => ?_⟩
  have oneLine := (serverLogReadsBackIff start ran (by decide +kernel) _).mp reads
  obtain ⟨record,rest,records⟩ := List.exists_cons_of_ne_nil (show recordsIn s'.log.written _ ≠ [] from
    fun nothing => by rw [nothing] at calls; cases calls)
  rw [records] at calls oneLine
  have first : record.call = 0 := (List.cons.inj calls).1
  have own := oneLine record List.mem_cons_self
  rw [OneLine,first] at own
  exact own forgedEntry rfl (by decide)

end ServerLog
end SimpleChat
