import SimpleChat.JsonSerializer
import SimpleChat.JsonStrings

/-! `dump_escaped`: the table of `decode` follows UTF-8, the stores stay inside
`string_buffer`, and each character leaves a piece of a string literal. -/
namespace SimpleChat.Json.Serializer
open Basis Grammar
open Basis.Utf8 (Span follower)

section Table

def known : List (List Span) :=
  [[],[follower],[follower,follower],[⟨0xA0,0xBF⟩,follower],[⟨0x80,0x9F⟩,follower],[⟨0x90,0xBF⟩,follower,follower],
   [follower,follower,follower],[⟨0x80,0x8F⟩,follower,follower]]

def stateOf (spans : List Span) : Nat := match known.idxOf spans with
  | 0 => utf8Accept
  | n + 1 => n + 2

theorem tableReads : ∀ spans ∈ known, ∀ n < 256,
    utf8d.getD (256 + stateOf spans * 16 + utf8d.getD n 0) 0 = ((Utf8.read spans (UInt8.ofNat n)).map stateOf).getD utf8Reject ∧
    ∀ next ∈ Utf8.read spans (UInt8.ofNat n), next ∈ known := by
  decide +kernel

theorem tableLead : ∀ n < 256, ∀ spans ∈ Utf8.tails (UInt8.ofNat n),
    (0xFF >>> utf8d.getD n 0) &&& n = n - [0,0xC0,0xE0,0xF0].getD spans.length 0 := by
  decide +kernel

theorem stateAccept {spans : List Span} (there : spans ∈ known) : stateOf spans = utf8Accept ↔ spans = [] := by
  revert spans
  decide +kernel

theorem stateNoReject {spans : List Span} (there : spans ∈ known) : stateOf spans ≠ utf8Reject := by
  revert spans
  decide +kernel

theorem knownShort : ∀ spans ∈ known, spans.length ≤ 3 := by decide +kernel

theorem byteBack (b : UInt8) : UInt8.ofNat b.toNat = b := UInt8.ofNat_toNat

theorem decodeReads {spans : List Span} (there : spans ∈ known) (codep : Nat) (b : UInt8) :
    (decode (stateOf spans) codep b).1 = ((Utf8.read spans b).map stateOf).getD utf8Reject ∧
    ∀ next ∈ Utf8.read spans b, next ∈ known := by
  have table := tableReads spans there b.toNat b.toNat_lt
  rwa [byteBack] at table

end Table
section Hex

theorem hexDigits {v : Nat} (small : v < 65536) :
    List.replicate (4 - (Nat.toDigits 16 v).length) '0' ++ Nat.toDigits 16 v =
      [(v / 4096).digitChar,(v / 256 % 16).digitChar,(v / 16 % 16).digitChar,(v % 16).digitChar] := by
  have step (n : Nat) : Nat.toDigits 16 n = if n < 16 then [n.digitChar] else Nat.toDigits 16 (n / 16) ++ [(n % 16).digitChar] :=
    Nat.toDigits_eq_if (by decide)
  have zero : '0' = Nat.digitChar 0 := rfl
  have two : v / 16 / 16 = v / 256 := Nat.div_div_eq_div_mul v 16 16
  have three : v / 256 / 16 = v / 4096 := Nat.div_div_eq_div_mul v 256 16
  by_cases one : v < 16
  · rw [step,if_pos one,show v / 4096 = 0 by omega,show v / 256 % 16 = 0 by omega,show v / 16 % 16 = 0 by omega,
      Nat.mod_eq_of_lt one]
    rfl
  by_cases second : v / 16 < 16
  · rw [step,if_neg one,step,if_pos second,show v / 4096 = 0 by omega,show v / 256 % 16 = 0 by omega,
      Nat.mod_eq_of_lt second]
    rfl
  by_cases third : v / 256 < 16
  · rw [step,if_neg one,step,if_neg second,two,step,if_pos third,show v / 4096 = 0 by omega,Nat.mod_eq_of_lt third]
    rfl
  · rw [step,if_neg one,step,if_neg second,two,step,if_neg third,three,step,if_pos (show v / 4096 < 16 by omega)]
    rfl

theorem hexDigitBack : ∀ d < 16, Lexer.hexDigit (UInt8.ofNat (Nat.digitChar d).toNat) = some d := by decide

theorem hex4Hex {v : Nat} (small : v < 65536) : Hex v (hex4 v) := by
  have digits : hex4 v = [(v / 4096).digitChar,(v / 256 % 16).digitChar,(v / 16 % 16).digitChar,(v % 16).digitChar].map
      (fun c => UInt8.ofNat c.toNat) := by
    rw [← hexDigits small,List.map_append,List.map_replicate]
    simp only [hex4,ascii,String.toList_ofList,List.length_map]
    rfl
  have value : v = v / 4096 * 4096 + v / 256 % 16 * 256 + v / 16 % 16 * 16 + v % 16 := by omega
  rw [digits]
  conv => arg 1; rw [value]
  exact .digits (hexDigitBack _ (by omega)) (hexDigitBack _ (by omega)) (hexDigitBack _ (by omega))
    (hexDigitBack _ (by omega))

theorem hex4Length {v : Nat} (small : v < 65536) : (hex4 v).length = 4 := by
  have hex := hex4Hex small
  generalize hex4 v = text at hex
  cases hex with
  | digits => rfl

theorem u16Length (n : Nat) : (hex4 (u16 n)).length = 4 := hex4Length (Nat.mod_lt n (by decide))

end Hex

section Bounds
variable {ensureAscii : Bool} {e e' : Escaping}

def pending (state : Nat) : Nat := [0,0,3,2,2,2,1,1,1].getD state 0

/- Between two bytes: room for the longest escape behind the finished characters. -/
structure Inside (ensureAscii : Bool) (e : Escaping) : Prop where
  state : ∃ spans ∈ known, e.state = stateOf spans
  buffer : e.stringBuffer.length ≤ 499 + if ensureAscii then 0 else pending e.state
  extent : e.extent ≤ stringBufferSize

theorem pendingStep : ∀ spans ∈ known, ∀ n < 256, ∀ next ∈ Utf8.read spans (UInt8.ofNat n), next ≠ [] →
    pending (stateOf spans) + 1 ≤ pending (stateOf next) := by
  decide +kernel

theorem pendingMost : ∀ spans ∈ known, pending (stateOf spans) ≤ 3 := by decide +kernel

theorem flushShort (e : Escaping) : e.flush.stringBuffer.length ≤ 499 ∧ e.flush.extent = e.extent ∧ e.flush.state = e.state := by
  unfold Escaping.flush stringBufferSize
  split
  · exact ⟨Nat.zero_le _,rfl,rfl⟩
  · exact ⟨by omega,rfl,rfl⟩

@[simp] theorem putBuffer (e : Escaping) (text : Text) : (e.put text).stringBuffer = e.stringBuffer ++ text := by
  rw [Escaping.put,Escaping.store,List.take_length]

theorem storeExtent {text : Text} {kept : Nat} (extent : e.extent ≤ stringBufferSize)
    (room : e.stringBuffer.length + text.length ≤ stringBufferSize) : (e.store text kept).extent ≤ stringBufferSize :=
  max_le extent room

theorem acceptedInside (byte : UInt8) (extent : e.extent ≤ stringBufferSize)
    (room : e.stringBuffer.length + (if ensureAscii then 13 else 7) ≤ stringBufferSize) :
    (accepted ensureAscii byte e).extent ≤ stringBufferSize ∧ (accepted ensureAscii byte e).state = e.state := by
  have seven : e.stringBuffer.length + 7 ≤ stringBufferSize := by split at room <;> omega
  unfold accepted
  split
  · exact ⟨storeExtent extent (by simp only [List.length_cons,List.length_nil]; omega),rfl⟩
  · split
    · rename_i escapes
      split
      · refine ⟨storeExtent extent ?_,rfl⟩
        simp only [List.length_cons,List.length_append,List.length_nil,u16Length]
        omega
      · rename_i large
        have ascii : ensureAscii = true := by
          rcases escapes with small | ⟨ascii,_⟩
          · omega
          · exact ascii
        rw [if_pos ascii] at room
        refine ⟨storeExtent extent ?_,rfl⟩
        simp only [List.length_cons,List.length_append,List.length_nil,u16Length]
        omega
    · exact ⟨storeExtent extent (by simp only [List.length_cons,List.length_nil]; omega),rfl⟩

theorem startInside : Inside ensureAscii .start := ⟨⟨[],List.mem_cons_self,rfl⟩,Nat.zero_le _,Nat.zero_le _⟩

theorem stepInside (inside : Inside ensureAscii e) {i : Nat} {byte : UInt8}
    (step : escapeStep ensureAscii i e byte = .ok e') : Inside ensureAscii e' := by
  obtain ⟨spans,there,state⟩ := inside.state
  have buffer := inside.buffer
  have most := pendingMost spans there
  obtain ⟨reads,next⟩ := decodeReads there e.codepoint byte
  have grows := pendingStep spans there byte.toNat byte.toNat_lt
  rw [byteBack] at grows
  rw [state] at buffer
  rw [← state] at reads
  unfold escapeStep at step
  dsimp only at step
  split at step
  · rename_i accept
    cases step
    have room : (e.decoded byte).stringBuffer.length + (if ensureAscii then 13 else 7) ≤ stringBufferSize := by
      change e.stringBuffer.length + _ ≤ 512
      cases ensureAscii <;> simp only [Bool.false_eq_true,if_false,if_true] at buffer ⊢ <;> omega
    obtain ⟨extent,same⟩ := acceptedInside (e := e.decoded byte) byte inside.extent room
    obtain ⟨short,extent',state'⟩ := flushShort (accepted ensureAscii byte (e.decoded byte))
    refine ⟨⟨[],List.mem_cons_self,?_⟩,Nat.le_add_right_of_le short,extent' ▸ extent⟩
    rw [state',same]
    exact accept
  · rename_i noAccept
    split at step
    · contradiction
    · rename_i noReject
      cases read : Utf8.read spans byte with
      | none =>
        rw [read] at reads
        exact absurd reads noReject
      | some follow =>
        rw [read] at reads
        have isKnown := next follow read
        have more : follow ≠ [] := fun none => noAccept (reads.trans ((stateAccept isKnown).mpr none))
        have grown := grows follow read more
        cases step
        cases ensureAscii with
        | true => exact ⟨⟨follow,isKnown,reads⟩,buffer,inside.extent⟩
        | false =>
          simp only [Bool.false_eq_true,if_false] at buffer ⊢
          refine ⟨⟨follow,isKnown,reads⟩,?_,storeExtent inside.extent ?_⟩
          · have state' : ((e.decoded byte).put [byte]).state = stateOf follow := reads
            rw [putBuffer,List.length_append,List.length_singleton,state']
            change e.stringBuffer.length + 1 ≤ 499 + pending (stateOf follow)
            omega
          · change e.stringBuffer.length + 1 ≤ 512
            omega

/- No string, well formed or not, makes `dump_escaped` store behind its buffer. -/
theorem escapeInside {i : Nat} {s : Text} (inside : Inside ensureAscii e) (ran : escapeLoop ensureAscii i e s = .ok e') :
    Inside ensureAscii e' := by
  induction s generalizing i e with
  | nil =>
    cases ran
    exact inside
  | cons byte s ih =>
    rw [escapeLoop] at ran
    split at ran
    · contradiction
    · rename_i step
      exact ih (stepInside inside step) ran

theorem bufferHolds {i : Nat} {s : Text} (ran : escapeLoop ensureAscii i .start s = .ok e) :
    e.extent ≤ stringBufferSize ∧ e.stringBuffer.length ≤ stringBufferSize := by
  have inside := escapeInside startInside ran
  obtain ⟨spans,there,state⟩ := inside.state
  have most := pendingMost spans there
  have buffer := inside.buffer
  rw [state] at buffer
  refine ⟨inside.extent,?_⟩
  unfold stringBufferSize
  split at buffer <;> omega

theorem bufferHoldsHere : ∃ e, escapeLoop true 0 .start [0x22,0xF0,0x9F,0x98,0x80] = .ok e ∧
    e.stringBuffer.length = 14 ∧ e.extent = 15 ∧ e.extent ≤ stringBufferSize ∧ e.stringBuffer.length ≤ stringBufferSize := by
  have ran : escapeLoop true 0 .start [0x22,0xF0,0x9F,0x98,0x80] =
      .ok ⟨0,0x1F600,[92,34,92,117,100,56,51,100,92,117,100,101,48,48],15,[]⟩ := by decide +kernel
  exact ⟨_,ran,rfl,rfl,bufferHolds ran⟩

end Bounds
section Characters

def escapeOf (ensureAscii : Bool) (c : Char) : Text := match shortEscapes.lookup c.val.toNat with
  | some letter => [92,letter]
  | none =>
      if c.val.toNat ≤ 0x1F ∨ (ensureAscii = true ∧ 0x7F ≤ c.val.toNat) then
        if c.val.toNat ≤ 0xFFFF then 92 :: 117 :: hex4 c.val.toNat
        else 92 :: 117 :: (hex4 (0xD7C0 + c.val.toNat / 1024) ++ 92 :: 117 :: hex4 (0xDC00 + c.val.toNat % 1024))
      else String.utf8EncodeChar c

theorem shortLetter : ∀ entry ∈ shortEscapes, Lexer.escaped entry.2 = some (UInt8.ofNat entry.1) ∧ entry.1 < 0x80 := by decide

theorem lookupMem {v : Nat} {letter : UInt8} (found : shortEscapes.lookup v = some letter) : (v,letter) ∈ shortEscapes := by
  obtain ⟨before,after,same,_⟩ := List.lookup_eq_some_iff.mp found
  rw [same]
  exact List.mem_append_right _ List.mem_cons_self

theorem escapePiece (ensureAscii : Bool) (c : Char) : Piece c (escapeOf ensureAscii c) := by
  have valid : c.val.toNat < 0xD800 ∨ (0xDFFF < c.val.toNat ∧ c.val.toNat < 0x110000) := c.valid
  unfold escapeOf
  split
  · rename_i letter found
    obtain ⟨escape,small⟩ := shortLetter _ (lookupMem found)
    exact .short escape small
  · rename_i none
    split
    · split
      · exact .number (hex4Hex (by omega))
      · exact .pair (hex4Hex (by omega)) (hex4Hex (by omega)) (by omega) (by omega) (by omega)
    · rename_i plain
      have other (v : Nat) (letter : UInt8) (there : (v,letter) ∈ shortEscapes) : c.val.toNat ≠ v := by
        rintro rfl
        exact absurd (List.lookup_eq_none_iff.mp none _ there) (by simp)
      exact .plain (by omega) (other 34 34 (by decide)) (other 92 92 (by decide))

def code (lead : Nat) (more : Text) : Nat := more.foldl (fun codep x => codep * 64 + x.toNat % 64) lead

theorem codeOfChar {c : Char} {b : UInt8} {more : Text} {spans : List Span} (encoded : String.utf8EncodeChar c = b :: more)
    (inside : List.Forall₂ Span.Has spans more) : code (b.toNat - [0,0xC0,0xE0,0xF0].getD spans.length 0) more = c.val.toNat := by
  have valid : c.val.toNat < 0xD800 ∨ (0xDFFF < c.val.toNat ∧ c.val.toNat < 0x110000) := c.valid
  rw [inside.length_eq]
  unfold String.utf8EncodeChar at encoded
  generalize c.val.toNat = v at valid encoded
  dsimp only at encoded
  split_ifs at encoded with one two three <;> obtain ⟨rfl,rfl⟩ := List.cons.inj encoded <;>
    simp only [code,List.foldl_cons,List.foldl_nil,List.length_cons,List.length_nil,UInt8.toNat_ofNat',List.getD_cons_succ,
      List.getD_cons_zero,Nat.reduceAdd] <;> omega

theorem decodeFollower {state codep : Nat} {b : UInt8} (begun : state ≠ utf8Accept) (small : (codep + 1) * 64 ≤ 4294967296) :
    (decode state codep b).2 = codep * 64 + b.toNat % 64 := by
  have low : b.toNat &&& 0x3F = b.toNat % 64 := Nat.and_two_pow_sub_one_eq_mod b.toNat 6
  have bound : b.toNat % 64 < 2 ^ 6 := Nat.mod_lt _ (by decide)
  simp only [decode,if_pos begun,low]
  rw [Nat.or_comm,← Nat.shiftLeft_add_eq_or_of_lt bound,Nat.shiftLeft_eq,Nat.mod_eq_of_lt (by omega)]

def Escaping.text (e : Escaping) : Text := e.output ++ e.stringBuffer

@[simp] theorem putText (e : Escaping) (text : Text) : (e.put text).text = e.text ++ text := by
  rw [Escaping.text,putBuffer,← List.append_assoc]
  rfl

theorem flushText (e : Escaping) : e.flush.text = e.text := by
  unfold Escaping.flush
  split
  · exact List.append_nil _
  · rfl

variable {ensureAscii : Bool} {e : Escaping} {i : Nat}

theorem escapeAccepts {byte : UInt8} (accept : (decode e.state e.codepoint byte).1 = utf8Accept) :
    escapeStep ensureAscii i e byte = .ok (accepted ensureAscii byte (e.decoded byte)).flush := if_pos accept

theorem escapeGoes {byte : UInt8} (noAccept : (decode e.state e.codepoint byte).1 ≠ utf8Accept)
    (noReject : (decode e.state e.codepoint byte).1 ≠ utf8Reject) :
    escapeStep ensureAscii i e byte = .ok (if ensureAscii then e.decoded byte else (e.decoded byte).put [byte]) :=
  (if_neg noAccept).trans (if_neg noReject)

theorem followLoop {spans : List Span} {more rest : Text} (inside : List.Forall₂ Span.Has spans more) (there : spans ∈ known)
    (some_ : spans ≠ []) (state : e.state = stateOf spans) (small : (e.codepoint + 1) * 64 ^ more.length ≤ 4294967296) :
    ∃ e' last, escapeLoop ensureAscii i e (more ++ rest) =
        escapeLoop ensureAscii (i + more.length) (accepted ensureAscii last e').flush rest ∧
      e'.state = utf8Accept ∧ e'.codepoint = code e.codepoint more ∧
      (if ensureAscii then e'.text else e'.text ++ [last]) = (if ensureAscii then e.text else e.text ++ more) := by
  induction inside generalizing e i with
  | nil => exact absurd rfl some_
  | @cons span x spans more has inside ih =>
    have begun : e.state ≠ utf8Accept := fun accept => absurd ((stateAccept there).mp (state.symm.trans accept)) some_
    have read : Utf8.read (span :: spans) x = some spans := if_pos has
    obtain ⟨reads,next⟩ := decodeReads there e.codepoint x
    rw [read,← state] at reads
    have isKnown := next spans read
    have codep : (e.decoded x).codepoint = e.codepoint * 64 + x.toNat % 64 := decodeFollower begun (by
      rw [List.length_cons,pow_succ] at small
      have : 1 ≤ 64 ^ more.length := Nat.one_le_pow _ _ (by decide)
      nlinarith)
    cases inside with
    | nil =>
      have accept : (decode e.state e.codepoint x).1 = utf8Accept := reads
      refine ⟨e.decoded x,x,?_,accept,codep,rfl⟩
      rw [List.cons_append,List.nil_append,escapeLoop,escapeAccepts accept]
      rfl
    | @cons span' y spans' more' has' inside' =>
      have noAccept : (decode e.state e.codepoint x).1 ≠ utf8Accept :=
        fun accept => absurd ((stateAccept isKnown).mp (reads.symm.trans accept)) (List.cons_ne_nil _ _)
      have noReject : (decode e.state e.codepoint x).1 ≠ utf8Reject :=
        fun reject => stateNoReject isKnown (reads.symm.trans reject)
      have bound : ((e.decoded x).codepoint + 1) * 64 ^ (y :: more').length ≤ 4294967296 := by
        rw [List.length_cons,pow_succ] at small
        rw [codep]
        have := Nat.mul_le_mul_right (64 ^ (y :: more').length) (show e.codepoint * 64 + x.toNat % 64 + 1 ≤ (e.codepoint + 1) * 64 by omega)
        linarith
      have sum : i + 1 + (y :: more').length = i + (x :: y :: more').length := by
        simp only [List.length_cons]
        omega
      cases ensureAscii with
      | true =>
        obtain ⟨e',last,ran,accept,codep',text⟩ := @ih (e.decoded x) (i + 1) isKnown (List.cons_ne_nil _ _) reads bound
        refine ⟨e',last,?_,accept,?_,text⟩
        · rw [List.cons_append,escapeLoop,escapeGoes noAccept noReject]
          exact sum ▸ ran
        · rw [codep',codep]
          rfl
      | false =>
        obtain ⟨e',last,ran,accept,codep',text⟩ :=
          @ih ((e.decoded x).put [x]) (i + 1) isKnown (List.cons_ne_nil _ _) reads bound
        refine ⟨e',last,?_,accept,?_,?_⟩
        · rw [List.cons_append,escapeLoop,escapeGoes noAccept noReject]
          exact sum ▸ ran
        · rw [codep']
          change code (e.decoded x).codepoint _ = _
          rw [codep]
          rfl
        · simp only [Bool.false_eq_true,if_false,putText,List.append_assoc] at text ⊢
          exact text

def Escapes (ensureAscii : Bool) (c : Char) : Prop :=
  (shortEscapes.lookup c.val.toNat).isSome ∨ c.val.toNat ≤ 0x1F ∨ (ensureAscii = true ∧ 0x7F ≤ c.val.toNat)

theorem plainEscape {c : Char} (plain : ¬ Escapes ensureAscii c) : escapeOf ensureAscii c = String.utf8EncodeChar c := by
  simp only [Escapes,not_or,Bool.not_eq_true,Option.isSome_eq_false_iff,Option.isNone_iff_eq_none] at plain
  simp only [escapeOf,plain.1]
  rw [if_neg (by simpa only [not_or] using plain.2)]

theorem acceptedEscape {c : Char} (codep : e.codepoint = c.val.toNat) (byte : UInt8) (escapes : Escapes ensureAscii c) :
    (accepted ensureAscii byte e).text = e.text ++ escapeOf ensureAscii c := by
  have valid : c.val.toNat < 0xD800 ∨ (0xDFFF < c.val.toNat ∧ c.val.toNat < 0x110000) := c.valid
  have stored (text : Text) : (e.store (text ++ [0]) text.length).text = e.text ++ text := by
    rw [Escaping.text,Escaping.store,List.take_left,← List.append_assoc]
    rfl
  unfold accepted escapeOf
  rw [codep]
  cases found : shortEscapes.lookup c.val.toNat with
  | some letter => exact putText e _
  | none =>
    simp only [Escapes,found,Option.isSome_none,Bool.false_eq_true,false_or] at escapes
    dsimp only
    rw [if_pos escapes,if_pos escapes]
    by_cases small : c.val.toNat ≤ 0xFFFF
    · have whole : u16 c.val.toNat = c.val.toNat := Nat.mod_eq_of_lt (by omega)
      have length : 6 = (92 :: 117 :: hex4 c.val.toNat).length := by
        rw [List.length_cons,List.length_cons,hex4Length (by omega)]
      rw [if_pos small,if_pos small,whole,length]
      exact stored _
    · have high : u16 (0xD7C0 + (c.val.toNat >>> 10)) = 0xD7C0 + c.val.toNat / 1024 := by
        rw [Nat.shiftRight_eq_div_pow]
        exact Nat.mod_eq_of_lt (by omega)
      have low : u16 (0xDC00 + (c.val.toNat &&& 0x3FF)) = 0xDC00 + c.val.toNat % 1024 := by
        have rest : c.val.toNat &&& 0x3FF = c.val.toNat % 1024 := Nat.and_two_pow_sub_one_eq_mod c.val.toNat 10
        rw [rest]
        exact Nat.mod_eq_of_lt (by omega)
      have length : 12 = (92 :: 117 :: (hex4 (0xD7C0 + c.val.toNat / 1024) ++
          92 :: 117 :: hex4 (0xDC00 + c.val.toNat % 1024))).length := by
        simp only [List.length_cons,List.length_append,hex4Length (show 0xD7C0 + c.val.toNat / 1024 < 65536 by omega),
          hex4Length (show 0xDC00 + c.val.toNat % 1024 < 65536 by omega)]
      have shape : 92 :: 117 :: (hex4 (0xD7C0 + c.val.toNat / 1024) ++ 92 :: 117 :: (hex4 (0xDC00 + c.val.toNat % 1024) ++ [0])) =
          (92 :: 117 :: (hex4 (0xD7C0 + c.val.toNat / 1024) ++ 92 :: 117 :: hex4 (0xDC00 + c.val.toNat % 1024))) ++ [0] := by
        simp
      rw [if_neg small,if_neg small,high,low,shape,length]
      exact stored _

theorem acceptedPlain {c : Char} (codep : e.codepoint = c.val.toNat) (byte : UInt8) (plain : ¬ Escapes ensureAscii c) :
    (accepted ensureAscii byte e).text = e.text ++ [byte] := by
  simp only [Escapes,not_or,Bool.not_eq_true,Option.isSome_eq_false_iff,Option.isNone_iff_eq_none] at plain
  unfold accepted
  rw [codep,plain.1]
  dsimp only
  rw [if_neg (by simpa only [not_or] using plain.2)]
  exact putText e _

theorem tailsKnown {b : UInt8} {spans : List Span} (row : Utf8.tails b = some spans) : spans ∈ known := by
  have nothing : ([] : List Span) ∈ known := List.mem_cons_self
  exact (decodeReads nothing 0 b).2 spans row

theorem acceptedState (byte : UInt8) : (accepted ensureAscii byte e).state = e.state := by
  unfold accepted
  split
  · rfl
  · split
    · split <;> rfl
    · rfl

theorem characterEscaped (accept : e.state = utf8Accept) (c : Char) (rest : Text) :
    ∃ e' n, escapeLoop ensureAscii i e (String.utf8EncodeChar c ++ rest) = escapeLoop ensureAscii (i + n) e' rest ∧
      e'.state = utf8Accept ∧ e'.text = e.text ++ escapeOf ensureAscii c := by
  obtain ⟨b,more,spans,encoded,row,inside⟩ := Utf8.characterTails c
  have isKnown := tailsKnown row
  have nothing : ([] : List Span) ∈ known := List.mem_cons_self
  obtain ⟨reads,_⟩ := decodeReads nothing e.codepoint b
  have lead : (e.decoded b).codepoint = b.toNat - [0,0xC0,0xE0,0xF0].getD spans.length 0 := by
    rw [← tableLead b.toNat b.toNat_lt spans (by rwa [byteBack])]
    simp only [Escaping.decoded,decode,accept,ne_eq,not_true_eq_false,if_false]
  have value := codeOfChar encoded inside
  have begins : (decode e.state e.codepoint b).1 = stateOf spans := by
    rw [accept]
    exact reads.trans (by rw [show Utf8.read [] b = some spans from row]; rfl)
  rw [encoded,List.cons_append,escapeLoop]
  by_cases none : spans = []
  · cases none
    cases inside
    have codep : (e.decoded b).codepoint = c.val.toNat := lead.trans value
    rw [escapeAccepts begins]
    refine ⟨_,1,rfl,?_,?_⟩
    · rw [(flushShort _).2.2,acceptedState]
      exact begins
    · rw [flushText]
      by_cases escapes : Escapes ensureAscii c
      · exact acceptedEscape codep b escapes
      · rw [acceptedPlain codep b escapes,plainEscape escapes,encoded]
        rfl
  · have noAccept : (decode e.state e.codepoint b).1 ≠ utf8Accept :=
      fun done => none ((stateAccept isKnown).mp (begins.symm.trans done))
    have noReject : (decode e.state e.codepoint b).1 ≠ utf8Reject :=
      fun reject => stateNoReject isKnown (begins.symm.trans reject)
    have small : ((e.decoded b).codepoint + 1) * 64 ^ more.length ≤ 4294967296 := by
      have short := knownShort spans isKnown
      have byte : b.toNat < 256 := b.toNat_lt
      have power : 64 ^ more.length ≤ 64 ^ 3 := Nat.pow_le_pow_right (by decide) (inside.length_eq ▸ short)
      rw [lead]
      calc _ ≤ 256 * 64 ^ 3 := Nat.mul_le_mul (by omega) power
        _ ≤ 4294967296 := by decide
    have large : 0x80 ≤ c.val.toNat := by
      rcases Lexer.firstByte encoded with same | ⟨large,_⟩
      · by_contra low
        exact none (Option.some.inj (row.symm.trans (Utf8.rowTails (.one (by omega)))))
      · exact large
    have noLetter : shortEscapes.lookup c.val.toNat = .none := by
      refine List.lookup_eq_none_iff.mpr (fun entry there => ?_)
      have := (shortLetter entry there).2
      simp only [bne_iff_ne]
      omega
    rw [escapeGoes noAccept noReject]
    cases ensureAscii with
    | true =>
      obtain ⟨e',last,ran,accept',codep,text⟩ := @followLoop true (e.decoded b) (i + 1) spans more rest inside isKnown none begins small
      refine ⟨_,1 + more.length,(Nat.add_assoc i 1 _) ▸ ran,?_,?_⟩
      · rw [(flushShort _).2.2,acceptedState]
        exact accept'
      · rw [flushText,acceptedEscape (codep.trans (lead ▸ value)) last (.inr (.inr ⟨rfl,by omega⟩))]
        exact congrArg (· ++ _) text
    | false =>
      obtain ⟨e',last,ran,accept',codep,text⟩ :=
        @followLoop false ((e.decoded b).put [b]) (i + 1) spans more rest inside isKnown none begins small
      have plain : ¬ Escapes false c := by
        simp only [Escapes,noLetter,Option.isSome_none,Bool.false_eq_true,false_or,false_and,or_false]
        omega
      refine ⟨_,1 + more.length,(Nat.add_assoc i 1 _) ▸ ran,?_,?_⟩
      · rw [(flushShort _).2.2,acceptedState]
        exact accept'
      · rw [flushText,acceptedPlain (codep.trans (lead ▸ value)) last plain,plainEscape plain,encoded]
        simp only [Bool.false_eq_true,if_false,putText,List.append_assoc] at text
        exact text

theorem charactersEscaped (chars : List Char) (accept : e.state = utf8Accept) :
    ∃ e', escapeLoop ensureAscii i e (chars.flatMap String.utf8EncodeChar) = .ok e' ∧ e'.state = utf8Accept ∧
      e'.text = e.text ++ chars.flatMap (escapeOf ensureAscii) := by
  induction chars generalizing e i with
  | nil => exact ⟨e,rfl,accept,(List.append_nil _).symm⟩
  | cons c chars ih =>
    obtain ⟨e₁,n,ran,accept₁,text₁⟩ := characterEscaped accept c (chars.flatMap String.utf8EncodeChar)
    obtain ⟨e',ran',accept',text'⟩ := ih accept₁
    exact ⟨e',ran.trans ran',accept',by rw [text',text₁,List.append_assoc,List.flatMap_cons]⟩

theorem dumpCharacters (ensureAscii : Bool) (chars : List Char) :
    dumpEscaped ensureAscii (utf8 chars) = .ok (chars.flatMap (escapeOf ensureAscii)) := by
  have begun : Escaping.start.state = utf8Accept := rfl
  obtain ⟨e,ran,accept,text⟩ := @charactersEscaped ensureAscii .start 0 chars begun
  unfold dumpEscaped utf8
  rw [ran]
  dsimp only
  rw [if_pos accept]
  exact congrArg Except.ok text

theorem escapePieces (ensureAscii : Bool) (chars : List Char) : Pieces chars (chars.flatMap (escapeOf ensureAscii)) := by
  induction chars with
  | nil => exact .nil
  | cons c chars ih => exact .cons (escapePiece ensureAscii c) ih

theorem escapeReads {s : Text} {spans : List Span} {e' : Escaping} (there : spans ∈ known) (state : e.state = stateOf spans)
    (ran : escapeLoop ensureAscii i e s = .ok e') :
    ∃ after ∈ known, s.foldlM Utf8.read spans = some after ∧ e'.state = stateOf after := by
  induction s generalizing e i spans with
  | nil =>
    cases ran
    exact ⟨spans,there,rfl,state⟩
  | cons byte s ih =>
    rw [escapeLoop] at ran
    split at ran
    · contradiction
    · rename_i e₁ step
      obtain ⟨reads,next⟩ := decodeReads there e.codepoint byte
      rw [← state] at reads
      have kept : e₁.state = (decode e.state e.codepoint byte).1 ∧ (decode e.state e.codepoint byte).1 ≠ utf8Reject := by
        unfold escapeStep at step
        dsimp only at step
        split at step
        · rename_i accept
          cases step
          refine ⟨?_,fun reject => by cases accept.symm.trans reject⟩
          rw [(flushShort _).2.2,acceptedState]
          rfl
        · split at step
          · contradiction
          · rename_i noReject
            cases step
            exact ⟨by split <;> rfl,noReject⟩
      cases read : Utf8.read spans byte with
      | none =>
        rw [read] at reads
        exact absurd reads kept.2
      | some follow =>
        rw [read] at reads
        obtain ⟨after,known',run,state'⟩ := ih (next follow read) (kept.1.trans reads) ran
        exact ⟨after,known',by rw [List.foldlM_cons,read]; exact run,state'⟩

theorem stepRefuses {byte : UInt8} {what : String} (step : escapeStep ensureAscii i e byte = .error what) :
    what = invalidByte i byte := by
  unfold escapeStep at step
  dsimp only at step
  split at step
  · cases step
  · split at step
    · exact (Except.error.inj step).symm
    · cases step

theorem loopRefuses {s : Text} {what : String} (ran : escapeLoop ensureAscii i e s = .error what) :
    ∃ j byte, what = invalidByte j byte := by
  induction s generalizing e i with
  | nil => cases ran
  | cons byte s ih =>
    rw [escapeLoop] at ran
    split at ran
    · rename_i said step
      cases ran
      exact ⟨i,byte,stepRefuses step⟩
    · exact ih ran

theorem dumpRefuses {s : Text} {what : String} (ran : dumpEscaped ensureAscii s = .error what) :
    ∃ said, what = typeError 316 said := by
  unfold dumpEscaped at ran
  split at ran
  · rename_i said loop
    cases ran
    obtain ⟨j,byte,rfl⟩ := loopRefuses loop
    exact ⟨_,rfl⟩
  · split at ran
    · cases ran
    · cases ran
      exact ⟨_,rfl⟩

theorem dumpReads {s text : Text} (ran : dumpEscaped ensureAscii s = .ok text) : Utf8.WellFormed s := by
  unfold dumpEscaped at ran
  split at ran
  · contradiction
  · rename_i e loop
    split at ran
    · rename_i accept
      have nothing : ([] : List Span) ∈ known := List.mem_cons_self
      obtain ⟨after,there,run,state⟩ := escapeReads nothing rfl loop
      rw [accept] at state
      rw [(stateAccept there).mp state.symm] at run
      exact Utf8.readWhole.mp run
    · contradiction

/- UTF-8 is what `dump_escaped` writes; anything else is error 316. -/
theorem dumpWellFormed {s : Text} :
    ((∃ text, dumpEscaped ensureAscii s = .ok text) ↔ Utf8.WellFormed s) ∧
    (¬Utf8.WellFormed s → ∃ said, dumpEscaped ensureAscii s = .error (typeError 316 said)) := by
  refine ⟨⟨?_,?_⟩,?_⟩
  · rintro ⟨text,ran⟩
    exact dumpReads ran
  · rintro ⟨chars,rfl⟩
    exact ⟨_,dumpCharacters ensureAscii chars⟩
  · intro ill
    cases ran : dumpEscaped ensureAscii s with
    | ok text => exact absurd (dumpReads ran) ill
    | error what =>
      obtain ⟨said,rfl⟩ := dumpRefuses ran
      exact ⟨said,rfl⟩

end Characters
end SimpleChat.Json.Serializer
