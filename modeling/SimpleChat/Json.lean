import SimpleChat.CTypes

/-! The part of `nlohmann::json` that `parseData` uses: a parsed value, the
`operator[]` of a value that may be changed, and `get<int>` and
`get<std::string>`, with the texts of their exceptions. The parser itself is a
parameter of the modules that call it. -/
namespace SimpleChat

inductive Json where
  | null
  | boolean (value : Bool)
  | numberInteger (value : Int)
  | numberUnsigned (value : Nat)
  | numberFloat (value : Rat)
  | string (value : Text)
  | array (items : List Json)
  | object (members : List (Text × Json))

namespace Json

def typeName : Json → String
  | null => "null"
  | object _ => "object"
  | array _ => "array"
  | string _ => "string"
  | boolean _ => "boolean"
  | numberInteger _ | numberUnsigned _ | numberFloat _ => "number"

def typeError (number : Nat) (what : String) : String :=
  "[json.exception.type_error." ++ toString number ++ "] " ++ what

/- An index behind the end fills the array with nulls; null itself becomes an array first. -/
def filled (items : List Json) (idx : Nat) : Json × Json :=
  let longer := items ++ List.replicate (idx + 1 - items.length) null
  (longer.getD idx null,array longer)

def index (js : Json) (idx : Nat) : Except String (Json × Json) := match js with
  | null => .ok (filled [] idx)
  | array items => .ok (filled items idx)
  | other => .error (typeError 305 ("cannot use operator[] with a numeric argument with " ++ other.typeName))

def toInt32 (value : Int) : Int := value.bmod 4294967296

/- `static_cast<int>` of a double: what lies outside `int` has no defined
result, and is the least `int` where the code runs. -/
def truncate (value : Rat) : Int :=
  let whole := value.num.tdiv value.den
  if -intMax - 1 ≤ whole ∧ whole ≤ intMax then whole else -intMax - 1

def getInt : Json → Except String Int
  | numberUnsigned value => .ok (toInt32 value)
  | numberInteger value => .ok (toInt32 value)
  | numberFloat value => .ok (truncate value)
  | boolean value => .ok (if value then 1 else 0)
  | other => .error (typeError 302 ("type must be number, but is " ++ other.typeName))

def getString : Json → Except String Text
  | string value => .ok value
  | other => .error (typeError 302 ("type must be string, but is " ++ other.typeName))

theorem bindOk {ε α β : Type} {first : Except ε α} {next : α → Except ε β} {result : β} :
    (first >>= next) = .ok result ↔ ∃ value, first = .ok value ∧ next value = .ok result := by
  cases first <;> simp [bind,Except.bind]

theorem filledGet (items : List Json) (fill idx : Nat) :
    (items ++ List.replicate fill null).getD idx null = items.getD idx null := by
  simp only [List.getD_eq_getElem?_getD,List.getElem?_append]
  split
  · rfl
  · rename_i behind
    simp only [List.getElem?_replicate,List.getElem?_eq_none (Nat.le_of_not_lt behind)]
    split <;> rfl

theorem indexArray (items : List Json) (idx : Nat) :
    ∃ fill, (array items).index idx = .ok (items.getD idx null,array (items ++ List.replicate fill null)) :=
  ⟨idx + 1 - items.length,by simp only [index,filled,filledGet]⟩

def IsArithmetic : Json → Prop
  | numberUnsigned _ | numberInteger _ | numberFloat _ | boolean _ => True
  | _ => False

theorem getIntTyped {js : Json} : (∃ value, js.getInt = .ok value) ↔ js.IsArithmetic := by
  cases js <;> simp [getInt,IsArithmetic]

theorem getStringTyped {js : Json} {text : Text} : js.getString = .ok text ↔ js = string text := by
  cases js <;> simp [getString]

end Json
end SimpleChat
