import SimpleChat.Basis.Memory
import SimpleChat.FileNames

/-! The stores of `init` into `dir_name`, `log_name` and `log_full_name`, each with
its own rule: `strcpy` stops at the NUL, `strncpy` at a count taken from the
source, `snprintf` at a size that is not that of the array. -/
namespace SimpleChat.FileNames
open Basis (Block storeAll contents contentsGet contentsLength storeBelow)
open Log (Tm snprintf)
open ServerLog (strrchr date slash)

inductive Buffer where
  | dirName
  | logName
  | logFullName
  deriving DecidableEq, Repr

def Buffer.size : Buffer → Nat
  | .dirName | .logName => 128
  | .logFullName => 256

structure Store where
  buffer : Buffer
  block : Block UInt8
  deriving DecidableEq, Repr

def Store.Inside (s : Store) : Prop := s.block.offset + s.block.bytes.length ≤ s.buffer.size

instance (s : Store) : Decidable s.Inside := by unfold Store.Inside; infer_instance

def stores (limits : Limits) (p : Parts) (fileName : Text) (tm : Tm) : List Store :=
  let full : Store := ⟨.logFullName,⟨0,initName limits p fileName tm ++ [0]⟩⟩
  match strrchr fileName with
  | none => [full]
  | some (dir,base) =>
      [⟨.logName,⟨0,base ++ [0]⟩⟩,⟨.dirName,⟨0,(fileName ++ zeros dir.length).take dir.length⟩⟩,full]

def blocksOf (buffer : Buffer) (stores : List Store) : List (Block UInt8) :=
  (stores.filter (fun s => s.buffer = buffer)).map Store.block

theorem contentsOverwrite (b : Block UInt8) (memory : Nat → UInt8) {n : Nat} (starts : b.offset ≤ n) :
    contents (b.store memory) n = overwrite (contents memory n) b.offset b.bytes := by
  have size := contentsLength memory n
  refine List.ext_getElem? (fun i => ?_)
  rcases Nat.lt_or_ge i n with inside | outside
  · rw [contentsGet inside,overwrite,List.getElem?_take_of_lt (by rw [size]; exact inside),List.append_assoc]
    rcases Nat.lt_or_ge i b.offset with before | behind
    · rw [storeBelow b memory before,List.getElem?_append_left (by rw [List.length_take,size]; omega),
        List.getElem?_take_of_lt before,contentsGet inside]
    · have front : ((contents memory n).take b.offset).length = b.offset := by
        rw [List.length_take,size]
        omega
      rw [Block.store,if_pos behind,List.getElem?_append_right (by rw [front]; exact behind),front]
      rcases Nat.lt_or_ge (i - b.offset) b.bytes.length with here | after
      · rw [List.getElem?_append_left here,List.getElem?_eq_getElem here]
        rfl
      · have place : b.offset + b.bytes.length + (i - b.offset - b.bytes.length) = i := by omega
        rw [List.getElem?_append_right after,List.getElem?_eq_none after,List.getElem?_drop,place,contentsGet inside]
        rfl
  · rw [List.getElem?_eq_none (by rw [contentsLength]; exact outside),List.getElem?_eq_none]
    rw [overwrite,List.length_take,size]
    omega

theorem storesSave (limits : Limits) {p : Parts} (fileName : Text) (tm : Tm) {dirs names : Nat → UInt8}
    (dirName : contents dirs 128 = p.dirName) (logName : contents names 128 = p.logName) :
    contents (storeAll (blocksOf .dirName (stores limits p fileName tm)) dirs) 128 = (save p fileName).dirName ∧
    contents (storeAll (blocksOf .logName (stores limits p fileName tm)) names) 128 = (save p fileName).logName := by
  cases path : strrchr fileName with
  | none =>
    simp only [stores,path,save]
    exact ⟨dirName,logName⟩
  | some parts =>
    obtain ⟨dir,base⟩ := parts
    simp only [stores,path,save]
    refine ⟨(contentsOverwrite ⟨0,(fileName ++ zeros dir.length).take dir.length⟩ dirs (Nat.zero_le _)).trans ?_,
      (contentsOverwrite ⟨0,base ++ [0]⟩ names (Nat.zero_le _)).trans ?_⟩
    · rw [dirName,strncpy]
    · rw [logName,strcpy]

def partsOfName (fileName : Text) : Text × Text := (strrchr fileName).getD ([],fileName)

structure Copies (p : Parts) (dir base : Text) : Prop where
  dirEnds : (0 : UInt8) ∈ p.dirName
  dirName : cString p.dirName <+: dir
  baseEnds : (0 : UInt8) ∈ p.logName
  logName : cString p.logName <+: base

/- Every byte is stored inside its array, and what lies in the two arrays are
terminated copies of the two parts or of beginnings of them. -/
def Safe (limits : Limits) (p : Parts) (fileName : Text) (tm : Tm) : Prop :=
  (∀ store ∈ stores limits p fileName tm, store.Inside) ∧
  Copies (save p fileName) (partsOfName fileName).1 (partsOfName fileName).2

def NameFits (limits : Limits) (name : Text) : Prop := limits.full ≤ 256 ∨ name.length < 256

def Fits (limits : Limits) (p : Parts) (fileName : Text) (tm : Tm) : Prop := match strrchr fileName with
  | none =>
      p.dirName[0]? = some 0 ∧ (0 : UInt8) ∈ p.logName ∧ cString p.logName <+: fileName ∧
      NameFits limits (date tm ++ fileName)
  | some (dir,base) =>
      dir.length < 128 ∧ base.length < 128 ∧ p.dirName[dir.length]? = some 0 ∧
      NameFits limits (dir ++ date tm ++ base)

theorem fullInside (limits : Limits) (name : Text) :
    (⟨.logFullName,⟨0,snprintf limits.full name ++ [0]⟩⟩ : Store).Inside ↔ NameFits limits name := by
  have positive := limits.positive
  have room := limits.room
  simp only [Store.Inside,Buffer.size,List.length_append,snprintfLength,List.length_singleton,NameFits]
  omega

theorem cStringEmpty {array : Text} (ends : (0 : UInt8) ∈ array) : cString array = [] ↔ array[0]? = some 0 := by
  cases array with
  | nil => cases ends
  | cons b rest =>
    simp only [cString,List.takeWhile_cons,List.getElem?_cons_zero,Option.some.injEq]
    by_cases zero : b = 0
    · simp [zero]
    · simp [zero]

theorem dirWhole {array dir : Text} (clean : (0 : UInt8) ∉ dir) (zero : array[dir.length]? = some 0) :
    (0 : UInt8) ∈ array.drop dir.length ∧ cString (dir ++ array.drop dir.length) = dir := by
  have head : (array.drop dir.length)[0]? = some 0 := by rw [List.getElem?_drop,Nat.add_zero,zero]
  have ends := List.mem_of_getElem? head
  exact ⟨ends,by rw [cStringFront clean,(cStringEmpty ends).mpr head,List.append_nil]⟩

theorem dirCopied {array dir : Text} (clean : (0 : UInt8) ∉ dir) :
    ((0 : UInt8) ∈ dir ++ array.drop dir.length ∧ cString (dir ++ array.drop dir.length) <+: dir) ↔
      array[dir.length]? = some 0 := by
  constructor
  · rintro ⟨ends,short⟩
    have behind := (List.mem_append.mp ends).resolve_left clean
    have lengths := short.length_le
    rw [cStringFront clean,List.length_append] at lengths
    have head := (cStringEmpty behind).mp (List.eq_nil_of_length_eq_zero (by omega))
    rwa [List.getElem?_drop,Nat.add_zero] at head
  · intro zero
    obtain ⟨behind,whole⟩ := dirWhole clean zero
    exact ⟨List.mem_append_right _ behind,by rw [whole]⟩

theorem strcpyEnds {array base : Text} (fits : base.length < array.length) : (0 : UInt8) ∈ strcpy array base := by
  rw [strcpy,overwrite,List.take_zero,List.nil_append]
  have zero : (base ++ [0] ++ array.drop (0 + (base ++ [0]).length))[base.length]? = some 0 := by
    rw [List.getElem?_append_left (by simp)]
    exact List.getElem?_concat_length
  exact List.mem_of_getElem? ((List.getElem?_take_of_lt fits).trans zero)

theorem safeFits {p : Parts} (sizes : p.dirName.length = 128 ∧ p.logName.length = 128) {fileName : Text}
    (text : (0 : UInt8) ∉ fileName) (limits : Limits) (tm : Tm) :
    Safe limits p fileName tm ↔ Fits limits p fileName tm := by
  cases path : strrchr fileName with
  | none =>
    have full := fullInside limits (date tm ++ fileName)
    simp only [Safe,Fits,stores,save,partsOfName,path,initName,Option.getD_none,List.mem_singleton,forall_eq,full]
    constructor
    · rintro ⟨room,copies⟩
      exact ⟨(cStringEmpty copies.dirEnds).mp (List.prefix_nil.mp copies.dirName),copies.baseEnds,copies.logName,room⟩
    · rintro ⟨zero,ends,logName,room⟩
      have dirEnds := List.mem_of_getElem? zero
      exact ⟨room,dirEnds,by rw [(cStringEmpty dirEnds).mpr zero],ends,logName⟩
  | some parts =>
    obtain ⟨dir,base⟩ := parts
    obtain ⟨dirClean,baseClean⟩ := strrchrClean path text
    obtain ⟨taken,long⟩ := strrchrTaken path
    have block : (fileName ++ zeros dir.length).take dir.length = dir := by
      rw [List.take_append_of_le_length long,taken]
    have copied (fits : dir.length ≤ 128) := strncpyFront sizes.1 taken long fits
    have named (fits : base.length < 128) : cString (strcpy p.logName base) = base :=
      cStringCopied baseClean (by rw [sizes.2]; exact fits)
    simp only [Safe,Fits,stores,save,partsOfName,path,initName,Option.getD_some,block,List.forall_mem_cons,
      List.not_mem_nil,false_implies,implies_true,and_true,fullInside]
    simp only [Store.Inside,Buffer.size,List.length_append,List.length_singleton,Nat.zero_add]
    constructor
    · rintro ⟨⟨baseFits,dirFits,room⟩,copies⟩
      have dirEnds := copies.dirEnds
      have dirName := copies.dirName
      simp only [copied dirFits] at dirEnds dirName room
      have zero := (dirCopied dirClean).mp ⟨dirEnds,dirName⟩
      have inside := (List.getElem?_eq_some_iff.mp zero).1
      rw [sizes.1] at inside
      rw [named baseFits,(dirWhole dirClean zero).2] at room
      exact ⟨inside,baseFits,zero,room⟩
    · rintro ⟨dirFits,baseFits,zero,room⟩
      obtain ⟨dirEnds,dirName⟩ := (dirCopied dirClean).mpr zero
      rw [← copied (Nat.le_of_lt dirFits)] at dirEnds dirName
      have baseEnds := @strcpyEnds p.logName base (by rw [sizes.2]; exact baseFits)
      refine ⟨⟨baseFits,Nat.le_of_lt dirFits,?_⟩,dirEnds,dirName,baseEnds,by rw [named baseFits]⟩
      rw [copied (Nat.le_of_lt dirFits),named baseFits,(dirWhole dirClean zero).2]
      exact room

/- For every text, every date and whatever the arrays of the object held before,
in `Log::init` and in `ServerLog::init`. -/
theorem nameStoresExactly {p : Parts} (sizes : p.dirName.length = 128 ∧ p.logName.length = 128) {fileName : Text}
    (text : (0 : UInt8) ∉ fileName) (tm : Tm) :
    (Safe logLimits p fileName tm ↔ Fits logLimits p fileName tm) ∧
    (Safe serverLogLimits p fileName tm ↔ Fits serverLogLimits p fileName tm) :=
  ⟨safeFits sizes text _ tm,safeFits sizes text _ tm⟩

theorem blankSizes : blank.dirName.length = 128 ∧ blank.logName.length = 128 :=
  ⟨List.length_replicate,List.length_replicate⟩

def longBase : Text := ascii "log/" ++ List.replicate 128 97
def longPlain : Text := List.replicate 245 97

theorem longBasePath : strrchr longBase = some (ascii "log/",List.replicate 128 97) := by decide +kernel
theorem longPlainPath : strrchr longPlain = none := by decide +kernel

theorem logNameSafe : Safe logLimits blank (ascii "log/ServerLog") newYear ∧
    Safe serverLogLimits blank (ascii "log/ServerLog") newYear := by
  have fits (limits : Limits) : Fits limits blank (ascii "log/ServerLog") newYear := by
    simp only [Fits,logPath]
    exact ⟨by decide,by decide,by decide,.inr (by decide)⟩
  have exactly_ := @nameStoresExactly blank blankSizes (ascii "log/ServerLog") (by decide) newYear
  exact ⟨exactly_.1.mpr (fits _),exactly_.2.mpr (fits _)⟩

theorem longNamesOverrun :
    ¬ Safe logLimits blank longBase newYear ∧ ¬ Safe serverLogLimits blank longBase newYear ∧
    ¬ Safe logLimits blank longPlain newYear := by
  have base (limits : Limits) : ¬ Safe limits blank longBase newYear := by
    intro safe
    have inside := safe.1 ⟨.logName,⟨0,List.replicate 128 97 ++ [0]⟩⟩ (by simp [stores,longBasePath])
    exact absurd inside (by simp [Store.Inside,Buffer.size])
  refine ⟨base _,base _,fun safe => ?_⟩
  have inside := safe.1 ⟨.logFullName,⟨0,initName logLimits blank longPlain newYear ++ [0]⟩⟩
    (by simp [stores,longPlainPath])
  exact absurd inside (by decide +kernel)

end SimpleChat.FileNames
