import SimpleChat.SqlPool

/-! `tcp_conn::initAllResult`: the table of users, read once from the database.
What `sem_wait` and the MySQL calls answer is an input. A column is the C string
that `row[i]` points to, or NULL. -/
namespace SimpleChat.InitAllResult
open Function (update)
open SqlPool (MysqlPtr)

abbrev Row := Nat → Option Text

structure Result where
  numFields : Nat
  rows : List Row

structure Answers where
  semWait : Bool
  query : Bool
  storeResult : Option Result
  error : String

structure State where
  user : Text → Option (List Text)
  conlist : SafeQueue MysqlPtr
  released : List MysqlPtr

def column (row : Row) (i : Nat) : Text := (row i).getD []
def cols (num : Nat) (row : Row) : List Text := (List.range' 1 (num - 1)).map (column row)

def load (num : Nat) (user : Text → Option (List Text)) : List Row → Text → Option (List Text)
  | [] => user
  | row :: rest => load num (update user (column row 0) (some (cols num row))) rest

def obtained (answers : Answers) (s : State) : MysqlPtr :=
  if answers.semWait then s.conlist.list.head?.join else none

def connectionsOf (q : SafeQueue MysqlPtr) : List Nat := q.list.filterMap id

def Answered (answers : Answers) (s : State) : Prop :=
  (obtained answers s).isSome ∧ answers.query = true ∧ answers.storeResult.isSome

def Settled (answers : Answers) (s s' : State) : Prop :=
  s'.released = s.released ++ (obtained answers s).toList.map some ∧
  (connectionsOf s'.conlist).Perm (connectionsOf s.conlist)

end SimpleChat.InitAllResult
