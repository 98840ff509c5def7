import Stallwatch.Base.Float

/-! Tokens and expressions of the filter language. Text is a list of characters, and a
token remembers the byte offset it starts at. -/
namespace Stallwatch.Filter

inductive Op where
  | eq | ne | gt | lt | ge | le | match
  deriving DecidableEq, Repr

def Op.display : Op → String
  | .eq => "=="
  | .ne => "!="
  | .gt => ">"
  | .lt => "<"
  | .ge => ">="
  | .le => "<="
  | .match => "~"

inductive Value where
  | num (n : F64)
  | str (s : List Char)
  deriving DecidableEq

inductive Node where
  | compare (field : List Char) (op : Op) (value : Value)
  | truthy (field : List Char)
  | and (a b : Node)
  | or (a b : Node)
  | not (a : Node)
  deriving DecidableEq

inductive Kind where
  | word | str
  | num (n : F64)
  | op (o : Op)
  | lParen | rParen
  deriving DecidableEq

structure Token where
  text : List Char
  kind : Kind
  at_ : ℕ
  deriving DecidableEq

structure ParseError where
  at_ : ℕ
  msg : String
  deriving DecidableEq, Repr

/-- The message that quotes a piece of the input. -/
def quoted (before : String) (text : List Char) (after : String) : String :=
  before ++ "`" ++ String.ofList text ++ "`" ++ after

end Stallwatch.Filter
