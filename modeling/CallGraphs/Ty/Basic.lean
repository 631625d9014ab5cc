import CallGraphs.QualifiedName

/-!
# CallGraphs.Ty.Basic

Types of a checked program and the parameters that may stand in them.  A
type parameter belongs to the callable that declares it, so its identity is
the callable's name together with its own.

* `Ty.text` — the text of a type; a parameter is written without its owner;
* `Ty.mentions` — whether a parameter occurs in a type, at any depth.
-/

namespace CallGraphs

/-- A type parameter: the callable that declares it and its name there. -/
structure TypeParameter where
  origin : QualifiedName
  name : String
  deriving DecidableEq, Repr

namespace TypeParameter

/-- By declaring callable, then by name. -/
instance : Ord TypeParameter :=
  ⟨compareLex (compareOn (·.origin)) (compareOn (·.name))⟩

instance : Std.TransOrd TypeParameter :=
  inferInstanceAs (Std.TransCmp (compareLex (compareOn TypeParameter.origin) (compareOn (·.name))))

instance : Std.LawfulEqOrd TypeParameter where
  compare_self := by
    intro a
    show (compare a.origin a.origin).then (compare a.name a.name) = .eq
    simp
  eq_of_compare {a b} h := by
    obtain ⟨h₁, h₂⟩ := Ordering.then_eq_eq.1 h
    cases a; cases b
    simp only [TypeParameter.mk.injEq]
    exact ⟨Std.LawfulEqOrd.eq_of_compare h₁, Std.LawfulEqOrd.eq_of_compare h₂⟩

/-- The text of a parameter, its owner first. -/
def text (p : TypeParameter) : String := p.origin.text ++ ".'" ++ p.name

end TypeParameter

/-- The types without parts. -/
inductive Primitive where
  | unit
  | int
  | bigInt
  | double
  | bool
  | string
  | qubit
  | result
  | pauli
  | range
  deriving DecidableEq, Repr

/-- The text of a primitive type. -/
def Primitive.text : Primitive → String
  | .unit => "Unit"
  | .int => "Int"
  | .bigInt => "BigInt"
  | .double => "Double"
  | .bool => "Bool"
  | .string => "String"
  | .qubit => "Qubit"
  | .result => "Result"
  | .pauli => "Pauli"
  | .range => "Range"

/-- A checked type.  `missing` stands for one that could not be determined. -/
inductive Ty where
  | primitive (p : Primitive)
  | array (item : Ty)
  | tuple (items : List Ty)
  | function (input output : Ty)
  | operation (input output : Ty)
  | userDefined (name : QualifiedName)
  | parameter (p : TypeParameter)
  | missing
  deriving Repr

namespace Ty

/-! ## text -/

mutual

/-- The text of a type. -/
def text : Ty → String
  | .primitive p => p.text
  | .array item => item.text ++ "[]"
  | .tuple items => "(" ++ textList items ++ ")"
  | .function input output => "(" ++ input.text ++ " -> " ++ output.text ++ ")"
  | .operation input output => "(" ++ input.text ++ " => " ++ output.text ++ ")"
  | .userDefined name => name.text
  | .parameter p => "'" ++ p.name
  | .missing => "?"

/-- The texts of several types with a comma and a space between neighbours. -/
def textList : List Ty → String
  | [] => ""
  | t :: ts => t.text ++ textTail ts

/-- The texts of several types, each after a comma and a space. -/
def textTail : List Ty → String
  | [] => ""
  | t :: ts => ", " ++ t.text ++ textTail ts

end

/-! ## occurrences of a parameter -/

mutual

/-- Whether the parameter `p` occurs in a type, at any depth. -/
def mentions (p : TypeParameter) : Ty → Bool
  | .primitive _ => false
  | .array item => item.mentions p
  | .tuple items => anyMentions p items
  | .function input output => input.mentions p || output.mentions p
  | .operation input output => input.mentions p || output.mentions p
  | .userDefined _ => false
  | .parameter q => q == p
  | .missing => false

/-- Whether the parameter `p` occurs in one of several types. -/
def anyMentions (p : TypeParameter) : List Ty → Bool
  | [] => false
  | t :: ts => t.mentions p || anyMentions p ts

end

/-- Whether a type is the bare parameter `p`. -/
def isParameter (p : TypeParameter) : Ty → Bool
  | .parameter q => q == p
  | _ => false

@[simp] theorem isParameter_iff {p : TypeParameter} {t : Ty} :
    t.isParameter p = true ↔ t = .parameter p := by
  cases t <;> simp [isParameter]

end Ty

end CallGraphs
