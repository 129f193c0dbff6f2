/-!
# Request methods
-/

namespace CrashCourier.Http

/-- The method of a request. -/
inductive Method where
  | get
  | post
  | put
  | delete
  deriving DecidableEq

namespace Method

/-- The methods, in the order in which messages list them. -/
def all : List Method := [get, post, put, delete]

def name : Method → String
  | get => "GET"
  | post => "POST"
  | put => "PUT"
  | delete => "DELETE"

def ofName? (name : String) : Option Method :=
  all.find? (·.name == name)

/-- The method that reports are sent with unless another is set. -/
def standard : Method := post

/-- Whether requests of the method carry a body. -/
def hasBody : Method → Bool
  | post | put => true
  | get | delete => false

theorem ofName?_name (m : Method) : ofName? m.name = some m := by
  cases m <;> decide

end Method

end CrashCourier.Http
