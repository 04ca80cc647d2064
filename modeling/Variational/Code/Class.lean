import Variational.Code.Statement

/-! Classes of generated code: members with a line of documentation each, and names for classes that are
already there. -/
namespace Variational.Code

/-- What a member function returns. -/
inductive Value where
  | plain (s : String)
  | quoted (s : String)
  /-- A new instance of a class. -/
  | create (className : String)
  deriving DecidableEq, Repr

/-- Text inside of double quotes: backslashes and quotes are escaped. -/
def escaped (s : String) : String := (s.replace "\\" "\\\\").replace "\"" "\\\""

namespace Value

def text : Value → String
  | plain s => s
  | quoted s => "\"" ++ escaped s ++ "\""
  | create c => s!"new {c}()"

def created? : Value → Option String
  | create c => some c
  | _ => none

def number (n : Nat) : Value := plain (toString n)
def truth (b : Bool) : Value := plain (if b then "true" else "false")

end Value

inductive Body (α : Type) where
  | returns (v : Value)
  /-- One value for each of some numbers, another one for all others. -/
  | select (argument : String) (cases : List (Nat × Value)) (otherwise : Value)
  | run (blocks : List (Block α))
  /-- Statements whose literals do not depend on the chosen precision. -/
  | runPrecise (body : List (Statement α))
  /-- Fail with a message. -/
  | throws (message : String)

namespace Body

def returnLine (v : Value) : String := "return " ++ v.text ++ ";"

def lines (places : Nat) : Body Float → List String
  | returns v => [returnLine v]
  | select _ [] v => [returnLine v]
  | select argument cases v =>
    [s!"switch ({argument})", "\x7b"] ++
      (cases.flatMap fun (k, w) => [s!"case {k}:", "  " ++ returnLine w, "  break;"]) ++
      ["\x7d", "", returnLine v]
  | run blocks => blocks.flatMap (·.lines places)
  | runPrecise body => Code.lines fullPlaces body
  | throws message => ["throw std::runtime_error(\"" ++ escaped message ++ "\");"]

/-- Names of the classes of which instances are created. -/
def created {α : Type} : Body α → List String
  | returns v => v.created?.toList
  | select _ cases v => cases.filterMap (·.2.created?) ++ v.created?.toList
  | _ => []

/-- A body that does nothing. -/
def idle {α : Type} : Body α := run [.plain [.comment "Do nothing"]]

end Body

structure Member (α : Type) where
  doc : String
  declaration : String
  body : Body α

def Member.lines (places : Nat) (m : Member Float) : List String :=
  ["/// " ++ m.doc, m.declaration, "\x7b"] ++ Lines.indent 2 (m.body.lines places) ++ ["\x7d", ""]

structure Class (α : Type) where
  doc : List String
  name : String
  /-- The interface that the class implements. -/
  base : String
  /-- Private data. -/
  fields : List String
  /-- What the constructor does. -/
  initial : Body α
  members : List (Member α)

namespace Class

/-- Constructor and destructor come before the other members. -/
def allMembers {α : Type} (c : Class α) : List (Member α) :=
  ⟨"Constructor", s!"{c.name}() : ufc::{c.base}()", c.initial⟩ ::
    ⟨"Destructor", s!"virtual ~{c.name}()", .idle⟩ :: c.members

def lines (places : Nat) (c : Class Float) : List String :=
  let data := if c.fields.isEmpty then [] else ["private:", ""] ++ Lines.indent 2 c.fields ++ [""]
  c.doc.map ("/// " ++ ·) ++ ["", s!"class {c.name}: public ufc::{c.base}", "\x7b"] ++ data ++
    ["public:", ""] ++ Lines.indent 2 (c.allMembers.flatMap (·.lines places)) ++ ["\x7d;", ""]

/-- Names of the classes of which the members create instances. -/
def created {α : Type} (c : Class α) : List String := c.allMembers.flatMap (·.body.created)

end Class

/-- A class, or another name for a class. -/
inductive Item (α : Type) where
  | define (c : Class α)
  | rename (target name : String)

namespace Item

/-- The name that an item introduces. -/
def name {α : Type} : Item α → String
  | define c => c.name
  | rename _ n => n

def lines (places : Nat) : Item Float → List String
  | define c => c.lines places
  | rename target n => [s!"typedef {target} {n};", ""]

end Item
end Variational.Code
