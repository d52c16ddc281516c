/-! One-to-one tables with look-up in both directions. -/
namespace StackAssembler

/-- Why a pair cannot be added. -/
inductive BijectionError where
  | leftTaken
  | rightTaken
  deriving DecidableEq, Repr

def BijectionError.message : BijectionError → String
  | leftTaken => "left key is already mapped to another right value"
  | rightTaken => "right key is already mapped to another left value"

/-- Pairs in the order in which they were added. -/
structure Bijection (α β : Type) where
  pairs : List (α × β) := []
  deriving Repr

namespace Bijection
variable {α β : Type} [DecidableEq α] [DecidableEq β]

def empty : Bijection α β := ⟨[]⟩

instance : Inhabited (Bijection α β) := ⟨⟨[]⟩⟩

def right? (m : Bijection α β) (a : α) : Option β :=
  (m.pairs.find? fun p => p.1 = a).map Prod.snd

def left? (m : Bijection α β) (b : β) : Option α :=
  (m.pairs.find? fun p => p.2 = b).map Prod.fst

def size (m : Bijection α β) : Nat := m.pairs.length

/-- Add a pair. Answers `false` when exactly that pair is there already. -/
def insert (m : Bijection α β) (a : α) (b : β) : Except BijectionError (Bool × Bijection α β) :=
  match m.right? a with
  | some b₀ => if b₀ = b then .ok (false, m) else .error .leftTaken
  | none =>
    match m.left? b with
    | some _ => .error .rightTaken
    | none => .ok (true, ⟨m.pairs ++ [(a, b)]⟩)

/-- Add the pairs one after another up to the first that does not fit. -/
def ofPairs (pairs : List (α × β)) : Except BijectionError (Bijection α β) :=
  pairs.foldlM (fun m p => (m.insert p.1 p.2).map Prod.snd) empty

def eraseLeft (m : Bijection α β) (a : α) : Option (α × β) × Bijection α β :=
  (m.pairs.find? fun p => p.1 = a, ⟨m.pairs.filter fun p => p.1 ≠ a⟩)

def eraseRight (m : Bijection α β) (b : β) : Option (α × β) × Bijection α β :=
  (m.pairs.find? fun p => p.2 = b, ⟨m.pairs.filter fun p => p.2 ≠ b⟩)

end Bijection
end StackAssembler
