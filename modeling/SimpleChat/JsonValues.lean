import SimpleChat.JsonExact

/-! What a parsed value can be: whole texts of UTF-8, integers that fit their type,
finite doubles, and objects whose keys ascend. -/
namespace SimpleChat.Json
open Grammar Basis

/- A finite `double`: a whole number below 2 ^ 53 times a power of two, below 2 ^ 1024. -/
def IsDouble (value : Rat) : Prop :=
  ∃ whole exponent : Int, |whole| < 2 ^ 53 ∧ -1074 ≤ exponent ∧ value = whole * 2 ^ exponent ∧ |value| < 2 ^ (1024 : Nat)

def Ascending (members : List (Text × Json)) : Prop := (members.map Prod.fst).Pairwise (· < ·)

inductive Held : Json → Prop
  | null : Held null
  | boolean {value : Bool} : Held (boolean value)
  | numberInteger {value : Int} (low : -2 ^ 63 ≤ value) (high : value < 2 ^ 63) : Held (numberInteger value)
  | numberUnsigned {value : Nat} (high : value < 2 ^ 64) : Held (numberUnsigned value)
  | numberFloat {value : Rat} (finite : IsDouble value) : Held (numberFloat value)
  | string {value : Text} (formed : Utf8.WellFormed value) : Held (string value)
  | array {items : List Json} (held : ∀ js ∈ items, Held js) : Held (array items)
  | object {members : List (Text × Json)} (ascending : Ascending members) (formed : ∀ m ∈ members, Utf8.WellFormed m.1)
      (held : ∀ m ∈ members, Held m.2) : Held (object members)

section Double

theorem wholeBound {size : Rat} (positive : 0 < size) :
    0 ≤ size / 2 ^ max (Int.log 2 size - 52) (-1074) ∧ size / 2 ^ max (Int.log 2 size - 52) (-1074) < 2 ^ 53 := by
  have power : (0 : Rat) < 2 ^ max (Int.log 2 size - 52) (-1074) := zpow_pos (by norm_num) _
  refine ⟨div_nonneg positive.le power.le,?_⟩
  rw [div_lt_iff₀ power]
  have below : size < 2 ^ (Int.log 2 size + 1) := Int.lt_zpow_succ_log_self (by decide) size
  have split : (2 : Rat) ^ (Int.log 2 size + 1) = 2 ^ 53 * 2 ^ (Int.log 2 size - 52) := by
    rw [← zpow_natCast,← zpow_add₀ (by norm_num)]
    congr 1
    push_cast
    ring
  calc size < 2 ^ 53 * 2 ^ (Int.log 2 size - 52) := split ▸ below
    _ ≤ 2 ^ 53 * 2 ^ max (Int.log 2 size - 52) (-1074) :=
      mul_le_mul_of_nonneg_left (zpow_le_zpow_right₀ (by norm_num) (le_max_left _ _)) (by norm_num)

theorem doubleOf {whole exponent : Int} (low : 0 ≤ whole) (high : whole ≤ 2 ^ 53) (least : -1074 ≤ exponent)
    (finite : (whole : Rat) * 2 ^ exponent < 2 ^ (1024 : Nat)) : IsDouble (whole * 2 ^ exponent) := by
  have positive : (0 : Rat) ≤ whole * 2 ^ exponent := mul_nonneg (by exact_mod_cast low) (zpow_nonneg (by norm_num) _)
  have bounded := (abs_of_nonneg positive).symm ▸ finite
  by_cases full : whole = 2 ^ 53
  · refine ⟨2 ^ 52,exponent + 1,by norm_num,by omega,?_,bounded⟩
    rw [full,zpow_add₀ (by norm_num)]
    norm_num
    ring
  · refine ⟨whole,exponent,?_,least,rfl,bounded⟩
    rw [abs_of_nonneg low]
    omega

theorem negDouble {value : Rat} (double : IsDouble value) : IsDouble (-value) := by
  obtain ⟨whole,exponent,bound,least,same,finite⟩ := double
  refine ⟨-whole,exponent,by rwa [abs_neg],least,?_,by rwa [abs_neg]⟩
  rw [same]
  push_cast
  ring

theorem nearestIsDouble {value rounded : Rat} (nearest : Lexer.nearestDouble value = some rounded) : IsDouble rounded := by
  unfold Lexer.nearestDouble at nearest
  split at nearest
  · cases nearest
    exact ⟨0,0,by norm_num,by norm_num,by norm_num,by norm_num⟩
  · rename_i nonzero
    have positive : 0 < |value| := abs_pos.mpr nonzero
    obtain ⟨low,high⟩ := wholeBound positive
    have least : -1074 ≤ max (Int.log 2 |value| - 52) (-1074) := le_max_right _ _
    dsimp only at nearest
    generalize max (Int.log 2 |value| - 52) (-1074) = exponent at low high least nearest
    generalize |value| / 2 ^ exponent = scaled at low high nearest
    have floorLow : 0 ≤ ⌊scaled⌋ := Int.floor_nonneg.mpr low
    have floorHigh : ⌊scaled⌋ < 2 ^ 53 := by
      rw [Int.floor_lt]
      exact_mod_cast high
    generalize chosen : (if scaled - ⌊scaled⌋ < 1 / 2 ∨ (scaled - ⌊scaled⌋ = 1 / 2 ∧ ⌊scaled⌋ % 2 = 0) then ⌊scaled⌋
      else ⌊scaled⌋ + 1) = whole at nearest
    have bounds : 0 ≤ whole ∧ whole ≤ 2 ^ 53 := by
      rw [← chosen]
      split <;> constructor <;> omega
    split at nearest
    · contradiction
    · rename_i finite
      have double := doubleOf bounds.1 bounds.2 least (not_le.mp finite)
      split at nearest <;> cases nearest
      · exact negDouble double
      · exact double

end Double

theorem laterKey {key k : Text} (other : k ≠ key) (notBefore : ¬ key < k) : k < key := by
  rcases List.le_iff_lt_or_eq.mp (List.not_lt.mp notBefore) with later | same
  · exact later
  · exact absurd same other

theorem assignMem {key : Text} {value : Json} {members : List (Text × Json)} {m : Text × Json}
    (member : m ∈ assign key value members) : m = (key,value) ∨ m ∈ members := by
  induction members with
  | nil => exact .inl (List.mem_singleton.mp member)
  | cons first members ih =>
    obtain ⟨k,v⟩ := first
    by_cases same : k = key
    · simp only [assign,if_pos same,List.mem_cons] at member
      rcases member with rfl | member
      · exact .inl (by rw [same])
      · exact .inr (List.mem_cons_of_mem _ member)
    by_cases earlier : key < k
    · simp only [assign,if_neg same,if_pos earlier,List.mem_cons] at member
      exact member.imp_right List.mem_cons.mpr
    · simp only [assign,if_neg same,if_neg earlier,List.mem_cons] at member
      rcases member with rfl | member
      · exact .inr List.mem_cons_self
      · exact (ih member).imp_right (List.mem_cons_of_mem _)

theorem assignAscending {key : Text} {value : Json} {members : List (Text × Json)} (ascending : Ascending members) :
    Ascending (assign key value members) := by
  induction members with
  | nil => exact List.pairwise_singleton _ _
  | cons first members ih =>
    obtain ⟨k,v⟩ := first
    obtain ⟨before,rest⟩ := List.pairwise_cons.mp ascending
    by_cases same : k = key
    · simp only [assign,if_pos same]
      exact ascending
    by_cases earlier : key < k
    · simp only [assign,if_neg same,if_pos earlier]
      refine List.pairwise_cons.mpr ⟨fun k' member => ?_,ascending⟩
      rcases List.mem_cons.mp member with rfl | member
      · exact earlier
      · exact List.lt_trans earlier (before k' member)
    · simp only [assign,if_neg same,if_neg earlier]
      refine List.pairwise_cons.mpr ⟨fun k' member => ?_,ih rest⟩
      obtain ⟨m,there,rfl⟩ := List.mem_map.mp member
      rcases assignMem there with rfl | there
      · exact laterKey same earlier
      · exact before _ (List.mem_map_of_mem there)

theorem piecesFormed (chars : List Char) : Utf8.WellFormed (utf8 chars) := ⟨chars,rfl⟩

theorem numeralHeld {n : Numeral} {js : Json} (one : valueOf n.token = some js) : Held js := by
  have double {js : Json} (one : valueOf n.double = some js) : Held js := by
    unfold Numeral.double valueOf at one
    obtain ⟨value,nearest,rfl⟩ := Option.map_eq_some_iff.mp one
    exact .numberFloat (nearestIsDouble nearest)
  unfold Numeral.token at one
  split at one
  · split at one
    · rename_i fits
      cases one
      exact .numberUnsigned fits
    · exact double one
  · split at one
    · rename_i fits
      cases one
      exact .numberInteger (by omega) (by omega)
    · exact double one
  · exact double one

theorem lexemeHeld {token : Token} {text : Text} {js : Json} (lexeme : Lexeme token text) (one : valueOf token = some js) :
    Held js := by
  cases lexeme with
  | fixed spelled =>
    cases token <;> cases spelled <;> cases one
    · exact .boolean
    · exact .boolean
    · exact .null
  | string pieces =>
    cases one
    exact .string (piecesFormed _)
  | number good => exact numeralHeld one

def Meant (token : Token) : Prop :=
  (∀ js, valueOf token = some js → Held js) ∧ ∀ key, token = .valueString key → Utf8.WellFormed key

theorem spelledMeant {tokens : List Token} {text tail : Text} (spelled : Spelled tokens text tail) :
    ∀ token ∈ tokens, Meant token := by
  induction spelled with
  | nil => exact nofun
  | @cons token tokens space text rest tail blank lexeme later ih =>
    refine List.forall_mem_cons.mpr ⟨⟨fun js one => lexemeHeld lexeme one,?_⟩,ih⟩
    rintro key rfl
    have held := lexemeHeld lexeme rfl
    cases held with
    | string formed => exact formed

def PartHeld : Part → Prop
  | .value js => Held js
  | .items items => ∀ js ∈ items, Held js
  | .members members => Ascending members ∧ (∀ m ∈ members, Utf8.WellFormed m.1) ∧ ∀ m ∈ members, Held m.2

theorem membersAssign {before : List (Text × Json)} {key : Text} {js : Json} (members : PartHeld (.members before))
    (formed : Utf8.WellFormed key) (held : Held js) : PartHeld (.members (assign key js before)) := by
  obtain ⟨ascending,keys,values⟩ := members
  refine ⟨assignAscending ascending,fun m member => ?_,fun m member => ?_⟩
  · rcases assignMem member with rfl | there
    · exact formed
    · exact keys m there
  · rcases assignMem member with rfl | there
    · exact held
    · exact values m there

theorem rowHeld {part : Part} {tokens : List Token} (row : Row part tokens) (meant : ∀ token ∈ tokens, Meant token) :
    PartHeld part := by
  induction row with
  | single one => exact (meant _ List.mem_cons_self).1 _ one
  | emptyArray => exact .array nofun
  | emptyObject => exact .object List.Pairwise.nil nofun nofun
  | noItems => exact nofun
  | noMembers => exact ⟨List.Pairwise.nil,nofun,nofun⟩
  | array _ _ items last =>
    simp only [List.forall_mem_cons,List.forall_mem_append] at meant
    exact .array (List.forall_mem_append.mpr ⟨items meant.2.1,List.forall_mem_singleton.mpr (last meant.2.2.1)⟩)
  | item _ _ items next =>
    simp only [List.forall_mem_append] at meant
    exact List.forall_mem_append.mpr ⟨items meant.1,List.forall_mem_singleton.mpr (next meant.2.1)⟩
  | object _ _ members last =>
    simp only [List.forall_mem_cons,List.forall_mem_append] at meant
    obtain ⟨ascending,keys,values⟩ := membersAssign (members meant.2.1) (meant.2.2.1.2 _ rfl) (last meant.2.2.2.2.1)
    exact .object ascending keys values
  | member _ _ members next =>
    simp only [List.forall_mem_cons,List.forall_mem_append] at meant
    exact membersAssign (members meant.1) (meant.2.1.2 _ rfl) (next meant.2.2.2.1)

theorem parseHeld {text : Text} {js : Json} (parsed : parse text = .ok js) : Held js := by
  obtain ⟨_,_,_,_,_,_,row,spelled,_⟩ := parseExact.mp parsed
  exact rowHeld row (spelledMeant spelled)

/- The parser takes exactly the documents. None says two values, and a value that one
says fits the types it is stored in. -/
theorem documentsExactly {text : Text} {js : Json} :
    (parse text = .ok js ↔ Document js text) ∧
    (Document js text → Held js ∧ ∀ js', Document js' text → js' = js) := by
  refine ⟨parseExact,fun document => ⟨parseHeld (parseExact.mpr document),fun js' other => ?_⟩⟩
  have same := (parseExact.mpr other).symm.trans (parseExact.mpr document)
  exact Except.ok.inj same

end SimpleChat.Json
