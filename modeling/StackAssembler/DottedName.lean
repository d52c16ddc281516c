import StackAssembler.Text.Pieces

/-! Names made of parts, written with dots between them, such as `lart.abstract.sym`. -/
namespace StackAssembler

structure DottedName where
  parts : List String
  deriving DecidableEq, Repr, Inhabited

namespace DottedName

/-- Read the parts off a text. An empty last part is lost. -/
def parse (s : String) : DottedName := ⟨Text.cutAll s '.' false⟩

def text (a : DottedName) : String := ".".intercalate a.parts

def last? (a : DottedName) : Option String := a.parts.getLast?

def size (a : DottedName) : Nat := a.parts.length

/-- All parts but the last. -/
def parent (a : DottedName) : DottedName := ⟨a.parts.dropLast⟩

/-- Whether the parts of `ns` are the first ones of `a` and not all of them. -/
def isWithin (a ns : DottedName) : Bool :=
  decide (ns.size < a.size) && ns.parts.isPrefixOf a.parts

end DottedName
end StackAssembler
