import StackAssembler.Proofs.LongestMatch
import StackAssembler.Proofs.StrictArithmetic

/-! Slices of texts. Positions are counted in bytes, and there is no slice at a position that is inside of a character or
behind the end. -/
namespace StackAssembler.Text.Strict
open IR.Strict (sub)
open Script.Lexeme (bytes bytes_append)

/-- A text without its first bytes. -/
def dropBytes : Nat → List Char → Option (List Char)
  | 0, cs => some cs
  | _ + 1, [] => none
  | n + 1, c :: cs => do dropBytes (← sub (n + 1) c.utf8Size) cs

/-- The first bytes of a text. -/
def takeBytes : Nat → List Char → Option (List Char)
  | 0, _ => some []
  | _ + 1, [] => none
  | n + 1, c :: cs => return c :: (← takeBytes (← sub (n + 1) c.utf8Size) cs)

/-- What stands from one position up to another. -/
def slice (cs : List Char) (start stop : Nat) : Option (List Char) := do
  takeBytes (← sub stop start) (← dropBytes start cs)

/-- Where a character first stands. -/
def position? (d : Char) : List Char → Option Nat
  | [] => none
  | c :: cs => if c = d then some 0 else (position? d cs).map (c.utf8Size + ·)

/-- Where a text last starts within another. -/
def lastPosition? (marker : List Char) : List Char → Option Nat
  | [] => none
  | c :: cs =>
    match lastPosition? marker cs with
    | some n => some (c.utf8Size + n)
    | none => if marker <+: c :: cs then some 0 else none

/-- What stands in front of the first `d` and behind it, or the whole text and nothing. -/
def cut (d : Char) (cs : List Char) : Option (List Char × List Char) :=
  match position? d cs with
  | none => return (cs, [])
  | some n => return (← takeBytes n cs, ← dropBytes (n + d.utf8Size) cs)

/-- What stands in front of the last `d` and behind it, or nothing and the whole text. -/
def cutLast (d : Char) (cs : List Char) : Option (List Char × List Char) :=
  match lastPosition? [d] cs with
  | none => return ([], cs)
  | some n => return (← takeBytes n cs, ← dropBytes (n + d.utf8Size) cs)

/-- A text without the white space around it. -/
def trim (cs : List Char) : List Char :=
  ((cs.dropWhile Char.isWhitespace).reverse.dropWhile Char.isWhitespace).reverse

section
variable {cs ds : List Char}

theorem bytes_cons (c : Char) (cs : List Char) : bytes (c :: cs) = c.utf8Size + bytes cs := rfl

/-- The size of a character is a part of the size of a text that starts with it. -/
private theorem sub_size (c : Char) (n : Nat) :
    ∃ m, c.utf8Size + n = m + 1 ∧ sub (m + 1) c.utf8Size = some n := by
  have hpos := c.utf8Size_pos
  refine ⟨c.utf8Size + n - 1, by omega, ?_⟩
  rw [sub, if_pos (by omega)]
  exact congrArg some (by omega)

theorem dropBytes_append (cs ds : List Char) : dropBytes (bytes cs) (cs ++ ds) = some ds := by
  induction cs with
  | nil => cases ds <;> rfl
  | cons c cs ih =>
    obtain ⟨m, hm, hs⟩ := sub_size c (bytes cs)
    rw [bytes_cons, hm, List.cons_append, dropBytes, hs]
    exact ih

/-- The text behind a character starts where the character ends. -/
theorem dropBytes_behind (cs : List Char) (d : Char) (ds : List Char) :
    dropBytes (bytes cs + d.utf8Size) (cs ++ d :: ds) = some ds := by
  have := dropBytes_append (cs ++ [d]) ds
  rwa [bytes_append, List.append_assoc] at this

theorem takeBytes_append (cs ds : List Char) : takeBytes (bytes cs) (cs ++ ds) = some cs := by
  induction cs with
  | nil => cases ds <;> rfl
  | cons c cs ih =>
    obtain ⟨m, hm, hs⟩ := sub_size c (bytes cs)
    rw [bytes_cons, hm, List.cons_append, takeBytes, hs]
    dsimp only [bind, Option.bind]
    rw [ih]
    rfl

/-- A part of a text stands between the ends of what is in front of it and of itself. -/
theorem slice_append (cs ds es : List Char) : slice (cs ++ (ds ++ es)) (bytes cs) (bytes cs + bytes ds) = some ds := by
  have hs : sub (bytes cs + bytes ds) (bytes cs) = some (bytes ds) := by
    rw [sub, if_pos (Nat.le_add_right _ _), Nat.add_sub_cancel_left]
  rw [slice, hs]
  dsimp only [bind, Option.bind]
  rw [dropBytes_append]
  exact takeBytes_append ds es

theorem position?_eq_none {d : Char} (h : ∀ c ∈ cs, c ≠ d) : position? d cs = none := by
  induction cs with
  | nil => rfl
  | cons c cs ih =>
    obtain ⟨hc, hcs⟩ := List.forall_mem_cons.mp h
    rw [position?, if_neg hc, ih hcs]
    rfl

theorem position?_append {d : Char} (h : ∀ c ∈ cs, c ≠ d) (ds : List Char) :
    position? d (cs ++ d :: ds) = some (bytes cs) := by
  induction cs with
  | nil => exact if_pos rfl
  | cons c cs ih =>
    obtain ⟨hc, hcs⟩ := List.forall_mem_cons.mp h
    rw [List.cons_append, position?, if_neg hc, ih hcs]
    rfl

theorem cut_append {d : Char} (h : ∀ c ∈ cs, c ≠ d) (ds : List Char) : cut d (cs ++ d :: ds) = some (cs, ds) := by
  unfold cut
  rw [position?_append h]
  dsimp only
  rw [takeBytes_append, dropBytes_behind]
  rfl

private theorem dropWhile_of_neg {p : Char → Bool} (h : ∀ c ∈ cs, p c = false) : cs.dropWhile p = cs := by
  cases cs with
  | nil => rfl
  | cons c cs => exact List.dropWhile_cons_of_neg (by simp [h c (.head _)])

/-- White space behind a text that has none is taken away. -/
theorem trim_append (h : ∀ c ∈ cs, c.isWhitespace = false) {ws : List Char} (hws : ∀ c ∈ ws, c.isWhitespace) :
    trim (cs ++ ws) = cs := by
  have hback : (ws.reverse ++ cs.reverse).dropWhile Char.isWhitespace = cs.reverse := by
    rw [List.dropWhile_append_of_pos fun c hc => hws c (List.mem_reverse.mp hc)]
    exact dropWhile_of_neg fun c hc => h c (List.mem_reverse.mp hc)
  cases cs with
  | nil =>
    rw [List.nil_append, trim, List.dropWhile_eq_nil_iff.mpr hws]
    rfl
  | cons c cs =>
    rw [trim, List.cons_append, List.dropWhile_cons_of_neg (by simp [h c (.head _)]), ← List.cons_append,
      List.reverse_append, hback, List.reverse_reverse]

theorem lastPosition?_eq_none {m : Char} {marker : List Char} (h : ∀ c ∈ cs, c ≠ m) :
    lastPosition? (m :: marker) cs = none := by
  induction cs with
  | nil => rfl
  | cons c cs ih =>
    obtain ⟨hc, hcs⟩ := List.forall_mem_cons.mp h
    rw [lastPosition?, ih hcs]
    exact if_neg fun hp => hc (List.cons_prefix_cons.mp hp).1.symm

/-- A marker is found where it stands when what is behind its first character does not start another one. -/
theorem lastPosition?_append {m : Char} {marker ds : List Char} (cs : List Char) (h : ∀ c ∈ marker ++ ds, c ≠ m) :
    lastPosition? (m :: marker) (cs ++ m :: (marker ++ ds)) = some (bytes cs) := by
  induction cs with
  | nil =>
    rw [List.nil_append, lastPosition?, lastPosition?_eq_none h]
    exact if_pos (List.prefix_append (m :: marker) ds)
  | cons c cs ih =>
    rw [List.cons_append, lastPosition?, ih]
    rfl

end
end StackAssembler.Text.Strict
