/-!
# Function signatures

A signature is a coarse type of a function: the names of its result type and of its parameter
types, array dimensions included. A call knows only how many arguments it has, so its signature
leaves every type open. Matching lets an open type stand for any type.
-/

namespace ShaderSource

/-- The types of a function, by name. -/
structure Signature where
  result : String
  parameters : List String
  deriving DecidableEq, Repr, Inhabited

namespace Signature

/-- The type that a call leaves open. -/
def openType : String := "UNKNOWN"

/-- The parameter of a function that takes none. -/
def void : String := "void"

/-- The signature of a declaration. One without parameters has the single parameter `void`. -/
def declared (result : String) (parameters : List String) : Signature :=
  ⟨result, if parameters.isEmpty then [void] else parameters⟩

/-- The signature of a call with the given number of arguments. -/
def call (arguments : Nat) : Signature :=
  ⟨openType, if arguments = 0 then [void] else List.replicate arguments openType⟩

/-- The signature as text. Overloads of one name are told apart by it. -/
def key (s : Signature) : String :=
  s.result ++ ": " ++ ", ".intercalate s.parameters

/-- All types of the signature, the result first. -/
def types (s : Signature) : List String :=
  s.result :: s.parameters

/-- Whether two types agree, an open type agreeing with all. -/
def typesAgree (a b : String) : Bool :=
  a == b || a == openType || b == openType

/-- Whether just one of two parameter lists is the single parameter `void`. -/
def voidDiffers : List String → List String → Bool
  | [a], [b] => (a == void) != (b == void)
  | _, _ => false

/-- Whether a call or declaration with one signature can mean a function with the other. -/
def agrees (a b : Signature) : Bool :=
  a.key == b.key ||
    (a.parameters.length == b.parameters.length && !voidDiffers a.parameters b.parameters &&
      (a.types.zip b.types).all fun (x, y) => typesAgree x y)

end Signature

end ShaderSource
