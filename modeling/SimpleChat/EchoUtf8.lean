import SimpleChat.EchoServer
import SimpleChat.Basis.Utf8

/-! Where the lines are UTF-8, what a Qt client receives is UTF-8 from end to end, as
`handle_client` notes at its `send`, unless `snprintf` cuts a reply inside a character.
A line that `mbstowcs` takes beyond UTF-8 is sent back as it is. -/
namespace SimpleChat.EchoServer
open Basis
open Basis.Utf8 (Span WellFormed follower)
open Log (snprintf)

def Pending.spans (state : Pending) : List Span :=
  if state.tails = 0 then [] else ⟨state.low,state.high⟩ :: List.replicate (state.tails - 1) follower

theorem settledSpans (tails : Nat) : ({settled with tails := tails} : Pending).spans = List.replicate tails follower := by
  cases tails <;> rfl

def Covers (wide spans : List Span) : Prop :=
  List.Forall₂ (fun w span => w.low ≤ span.low ∧ span.high ≤ w.high) wide spans

instance (wide spans) : Decidable (Covers wide spans) := by unfold Covers; infer_instance

/- Behind a first byte `mbstowcs` asks for the same number of bytes as UTF-8 does,
in ranges at least as wide: it has no upper end behind 0xF4. -/
theorem leadByte {low high b : UInt8} {spans : List Span} (row : Utf8.tails b = some spans) :
    ∃ next, readByte ⟨0,low,high⟩ b = some next ∧ Covers next.spans spans := by
  have every : ∀ n < 256, ∀ spans ∈ Utf8.tails (UInt8.ofNat n),
      ∃ next ∈ readByte settled (UInt8.ofNat n), Covers next.spans spans := by
    decide +kernel
  have here := every b.toNat b.toNat_lt
  rw [UInt8.ofNat_toNat] at here
  exact here spans row

theorem readByteSpans {state : Pending} {b : UInt8} {spans after : List Span} (covers : Covers state.spans spans)
    (read : Utf8.read spans b = some after) : ∃ next, readByte state b = some next ∧ Covers next.spans after := by
  obtain ⟨tails,low,high⟩ := state
  cases tails with
  | zero =>
    cases covers
    exact leadByte read
  | succ n =>
    obtain _ | ⟨here,later⟩ := covers
    obtain ⟨has,same⟩ := Option.ite_none_right_eq_some.mp read
    cases Option.some.inj same
    have inside : low ≤ b ∧ b ≤ high := ⟨UInt8.le_trans here.1 has.1,UInt8.le_trans has.2 here.2⟩
    refine ⟨{settled with tails := n},?_,(settledSpans n).symm ▸ later⟩
    rw [readByte,if_pos (Nat.succ_pos n),if_pos inside,Nat.add_sub_cancel]

theorem readBytesSpans {text : Text} {state : Pending} {spans after : List Span} (covers : Covers state.spans spans)
    (read : text.foldlM Utf8.read spans = some after) :
    ∃ next, text.foldlM readByte state = some next ∧ Covers next.spans after := by
  induction text generalizing state spans with
  | nil =>
    cases read
    exact ⟨state,rfl,covers⟩
  | cons b text ih =>
    obtain ⟨middle,here,later⟩ := Option.bind_eq_some_iff.mp read
    obtain ⟨next,step,covers'⟩ := readByteSpans covers here
    obtain ⟨last,steps,same⟩ := ih covers' later
    exact ⟨last,Option.bind_eq_some_iff.mpr ⟨next,step,steps⟩,same⟩

theorem spansNil (state : Pending) : state.spans = [] ↔ state.tails = 0 := by
  rw [Pending.spans]
  split <;> simp_all

theorem mbstowcsTakes {text : Text} (good : WellFormed text) : mbstowcs text = true := by
  have begun : Covers settled.spans [] := .nil
  obtain ⟨last,ran,covers⟩ := readBytesSpans begun (Utf8.readWhole.mpr good)
  rw [mbstowcs,ran]
  exact decide_eq_true ((spansNil last).mp (List.forall₂_nil_right_iff.mp covers))

theorem utf8WellFormed (s : String) : WellFormed (utf8 s) := ⟨s.toList,rfl⟩

theorem newlineWellFormed : WellFormed [newline] := ⟨['\n'],by decide⟩

theorem wellFormedParts {text later : Text} (begins : ∀ b ∈ later.head?, ¬ follower.Has b) :
    WellFormed (text ++ later) ↔ WellFormed text ∧ WellFormed later := by
  constructor
  · intro whole
    have front : WellFormed text := by
      have cut := (Utf8.wellFormedTake whole text.length).mpr (by
        rw [List.getElem?_append_right (Nat.le_refl _),Nat.sub_self,← List.head?_eq_getElem?]
        exact begins)
      rwa [List.take_left] at cut
    exact ⟨front,(Utf8.wellFormedCancel front).mp whole⟩
  · exact fun parts => Utf8.wellFormedAppend parts.1 parts.2

theorem replyCutWellFormed (text : Text) :
    WellFormed (snprintf bufferSize (reply text)) ↔ WellFormed (text.take 1002) := by
  have kept : snprintf bufferSize (reply text) = greeting ++ (text ++ [newline]).take 1002 := by
    rw [snprintf,reply,List.append_assoc,List.take_append,greetingLength,List.take_of_length_le (by decide)]
    rfl
  have greets : WellFormed greeting := utf8WellFormed _
  rw [kept,Utf8.wellFormedCancel greets]
  by_cases long : 1002 ≤ text.length
  · rw [List.take_append_of_le_length long]
  · rw [List.take_of_length_le (by rw [List.length_append,List.length_singleton]; omega),
      List.take_of_length_le (by omega),wellFormedParts (by simp; decide)]
    exact and_iff_left newlineWellFormed

def opening : UInt8 := 0xE6

theorem errMsgOpening : errMsg.head? = some opening := by decide

theorem replyOpening (text : Text) : (snprintf bufferSize (reply text)).head? = some opening := by
  have first : (snprintf bufferSize (reply text)).head? = greeting.head? := by
    rw [snprintf,reply,List.append_assoc,List.head?_take,if_neg (by decide)]
    exact List.head?_append_of_ne_nil _ (by decide)
  rw [first]
  decide

theorem answerOpening (read : Text) : (answer read).head? = some opening := by
  rw [answer]
  split
  · exact replyOpening _
  · exact errMsgOpening

theorem streamOpening (reads : List Text) : ∀ b ∈ (handleClient reads).flatten.head?, b = opening := by
  cases reads with
  | nil => simp [handleClient]
  | cons read reads =>
    rw [handleClient]
    split
    · simp
    · have first := answerOpening read
      cases text : answer read with
      | nil => rw [text] at first; cases first
      | cons b rest =>
        rw [text] at first
        simpa using first

def Unbroken (read : Text) : Prop := mbstowcs (bufferText read) = true → WellFormed ((bufferText read).take 1002)

theorem answerWellFormed (read : Text) : WellFormed (answer read) ↔ Unbroken read := by
  rw [answer,Unbroken]
  by_cases valid : mbstowcs (bufferText read) = true
  · rw [if_pos valid,replyCutWellFormed]
    exact ⟨fun unbroken _ => unbroken,fun unbroken => unbroken valid⟩
  · rw [if_neg valid]
    exact iff_of_true (utf8WellFormed _) (fun taken => absurd taken valid)

theorem streamUnbroken (reads : List Text) :
    WellFormed (handleClient reads).flatten ↔ ∀ read ∈ reads.takeWhile (· ≠ []), Unbroken read := by
  induction reads with
  | nil => simp [handleClient,Utf8.wellFormedNil]
  | cons read reads ih =>
    by_cases ended : read = []
    · simp [handleClient,ended,Utf8.wellFormedNil]
    · have begins : ∀ b ∈ (handleClient reads).flatten.head?, ¬ follower.Has b := by
        intro b member
        rw [streamOpening reads b member]
        decide
      rw [handleClient,if_neg ended,List.flatten_cons,wellFormedParts begins,answerWellFormed,ih,
        List.takeWhile_cons_of_pos (by simpa using ended),List.forall_mem_cons]

/- The bytes sent to a client, one text behind the other, are UTF-8 exactly where
the first 1002 bytes of each line that `mbstowcs` takes are. It takes every
well-formed line, and of such a line they are UTF-8 where no following byte
comes next. -/
theorem streamWellFormedIff (reads : List Text) :
    (WellFormed (handleClient reads).flatten ↔ ∀ read ∈ reads.takeWhile (· ≠ []),
      mbstowcs (bufferText read) = true → WellFormed ((bufferText read).take 1002)) ∧
    ∀ text, WellFormed text →
      mbstowcs text = true ∧ (WellFormed (text.take 1002) ↔ ∀ b ∈ text[1002]?, ¬ follower.Has b) :=
  ⟨streamUnbroken reads,fun _ good => ⟨mbstowcsTakes good,Utf8.wellFormedTake good 1002⟩⟩

/- A line that glibc takes and UTF-8 does not have, and the answer to it. -/
example : mbstowcs [0xF4,0x90,0x80,0x80] = true ∧ mbstowcs [0xFC,0x84,0x80,0x80,0x80,0x80] = true ∧
    mbstowcs [0xED,0xA0,0x80] = false ∧ mbstowcs [0xFE] = false := by decide

end SimpleChat.EchoServer
