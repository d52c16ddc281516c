import Mathlib.Data.List.Induction
import Mathlib.Data.Option.Basic
import StackAssembler.Proofs.TypeRecursion

/-! The name of a type tells the type. Read from its end, a name tells at each place what kind of type ends there, and
where that type starts. -/
namespace StackAssembler.IR

/-- What holds of a type as soon as it holds of its components holds of all types. -/
theorem Ty.induct {P : Ty → Prop} (h : ∀ t, (∀ c ∈ t.components, P c) → P t) (t : Ty) : P t :=
  h t fun c _ => Ty.induct h c
termination_by sizeOf t
decreasing_by
  rename_i hc
  cases t with
  | void | int | float => cases hc
  | pointer p | array p =>
    obtain rfl := List.mem_singleton.mp hc
    simp only [Ty.pointer.sizeOf_spec, Ty.array.sizeOf_spec]
    omega
  | struct fs =>
    have hfs : c ∈ fs := hc
    have := List.sizeOf_lt_of_mem hfs
    simp only [Ty.struct.sizeOf_spec]
    omega
  | function r ps =>
    simp only [Ty.function.sizeOf_spec]
    rcases List.mem_cons.mp hc with rfl | hps
    · omega
    · have := List.sizeOf_lt_of_mem hps
      omega

/-! ### Texts from their ends -/

section
variable {α : Type} {r s xs ys : List α} {c d : α}

theorem last_eq (ts us : List α) (hx : xs = ts ++ [c]) (hy : ys = us ++ [d]) (h : r ++ xs = s ++ ys) : c = d := by
  rw [hx, hy, ← List.append_assoc, ← List.append_assoc] at h
  exact (List.append_singleton_inj.mp h).2

/-- What stands behind the last item that is not of a kind is told by that kind. -/
theorem eq_of_append_run {p : α → Prop} (hxs : ∀ x ∈ xs, p x) (hys : ∀ y ∈ ys, p y) (hc : ¬ p c) (hd : ¬ p d)
    (h : r ++ c :: xs = s ++ d :: ys) : r = s ∧ c = d ∧ xs = ys := by
  rcases List.append_eq_append_iff.mp h with ⟨as, hs, hrest⟩ | ⟨as, hr, hrest⟩
  · cases as with
    | nil => exact ⟨by simpa using hs.symm, by simpa using hrest⟩
    | cons a as =>
      obtain ⟨-, rfl⟩ := List.cons.inj hrest
      exact absurd (hxs d (by simp)) hd
  · cases as with
    | nil => exact ⟨by simpa using hr, by simpa [eq_comm] using hrest⟩
    | cons a as =>
      obtain ⟨-, rfl⟩ := List.cons.inj hrest
      exact absurd (hys c (by simp)) hc

end

/-- The digits of a number. -/
def digits (n : Nat) : List Char := (toString n).toList

theorem digits_eq (n : Nat) : digits n = Nat.toDigits 10 n := by
  rw [digits, Nat.toString_eq_ofList_toDigits, String.toList_ofList]

theorem isDigit_digits {n : Nat} : ∀ c ∈ digits n, c.isDigit := by
  rw [digits_eq]
  exact fun c hc => Nat.isDigit_of_mem_toDigits (by decide) (by decide) hc

theorem digits_inj {n k : Nat} (h : digits n = digits k) : n = k := by
  rw [digits_eq, digits_eq] at h
  rw [← Nat.ofDigitChars_ten_toDigits (n := n), h, Nat.ofDigitChars_ten_toDigits]

/-- A number at the end of a text is told down to what is in front of it. -/
theorem digits_told {r s : List Char} {c d : Char} {n k : Nat} (hc : ¬ c.isDigit) (hd : ¬ d.isDigit)
    (h : r ++ c :: digits n = s ++ d :: digits k) : r = s ∧ c = d ∧ n = k := by
  obtain ⟨hr, hcd, hdigits⟩ := eq_of_append_run (p := fun c => c.isDigit) isDigit_digits isDigit_digits hc hd h
  exact ⟨hr, hcd, digits_inj hdigits⟩

theorem exists_digits (n : Nat) : ∃ cs c, digits n = cs ++ [c] ∧ c.isDigit := by
  have hne : digits n ≠ [] := by
    rw [digits_eq]
    exact Nat.toDigits_ne_nil
  obtain ⟨cs, c, hcs⟩ := (List.eq_nil_or_concat' (digits n)).resolve_left hne
  exact ⟨cs, c, hcs, isDigit_digits c (hcs ▸ List.mem_append_right cs (.head _))⟩

namespace Ty

/-! ### Spellings -/

def spelling (t : Ty) : List Char := t.name.toList

/-- A type in a list, or the dots at the end of a list of parameters. -/
def itemSpelling : Option Ty → List Char
  | some t => t.spelling
  | none => ['.', '.', '.']

def listSpelling (items : List (Option Ty)) : List Char := [',', ' '].intercalate (items.map itemSpelling)

/-- What a pointer adds to the type that it points to. -/
def pointerEnd (space : Nat) : List Char :=
  if space = 0 then ['*'] else " addrspace".toList ++ '(' :: digits space ++ [')', '*']

/-- The items of a list of parameters. -/
def parameterItems (ps : List Ty) (variadic : Bool) : List (Option Ty) :=
  ps.map some ++ if variadic then [none] else []

theorem toList_names (ts : List Ty) : (Ty.names ts).map String.toList = (ts.map some).map itemSpelling := by
  rw [Ty.names_eq, List.map_map, List.map_map]
  rfl

theorem spelling_int (n : Nat) : (int n).spelling = 'i' :: digits n := by
  rw [spelling, name, String.toList_append]
  rfl

theorem spelling_pointer (p : Ty) (space : Nat) : (pointer p space).spelling = p.spelling ++ pointerEnd space := by
  rw [spelling, name, pointerEnd]
  split
  · rw [String.toList_append]
    rfl
  · simp [spelling, digits]

theorem spelling_array (e : Ty) (n : Nat) :
    (array e n).spelling = '[' :: digits n ++ [' ', 'x', ' '] ++ e.spelling ++ [']'] := by
  rw [spelling, name]
  simp [spelling, digits]

theorem spelling_struct (fs : List Ty) (packed : Bool) : (struct fs packed).spelling =
    (if packed then ['<', '{', ' '] else ['{', ' ']) ++ listSpelling (fs.map some) ++
      if packed then [' ', '}', '>'] else [' ', '}'] := by
  rw [spelling, name, listSpelling, ← toList_names]
  cases packed <;> simp [commas, String.toList_intercalate]

theorem spelling_function (r : Ty) (ps : List Ty) (variadic : Bool) : (function r ps variadic).spelling =
    r.spelling ++ [' ', '('] ++ listSpelling (parameterItems ps variadic) ++ [')'] := by
  have hitems : (Ty.names ps ++ if variadic then ["..."] else []).map String.toList =
      (parameterItems ps variadic).map itemSpelling := by
    rw [List.map_append, toList_names, parameterItems, List.map_append]
    cases variadic <;> rfl
  rw [spelling, name, listSpelling, ← hitems]
  simp [spelling, commas, String.toList_intercalate]

/-! ### Last characters -/

/-- What the last character of a name tells about the type. -/
inductive Ending where
  | void
  | integer
  | float (format : FloatFormat)
  | pointer
  | array
  | struct (packed : Bool)
  | function
  deriving DecidableEq

def Ending.of? (c : Char) : Option Ending :=
  if c.isDigit then some integer
  else match c with
  | 'd' => some void
  | 'f' => some (float .half)
  | 't' => some (float .single)
  | 'e' => some (float .double)
  | '*' => some pointer
  | ']' => some array
  | '}' => some (struct false)
  | '>' => some (struct true)
  | ')' => some function
  | _ => none

def ending : Ty → Ending
  | void => .void
  | int _ => .integer
  | float f => .float f
  | pointer .. => .pointer
  | array .. => .array
  | struct _ packed => .struct packed
  | function .. => .function

theorem exists_ending (t : Ty) : ∃ cs c, t.spelling = cs ++ [c] ∧ Ending.of? c = some t.ending := by
  cases t with
  | void => exact ⟨['v', 'o', 'i'], 'd', rfl, rfl⟩
  | int n =>
    obtain ⟨cs, c, hn, hc⟩ := exists_digits n
    exact ⟨'i' :: cs, c, by rw [spelling_int, hn]; rfl, if_pos hc⟩
  | float f =>
    cases f with
    | half => exact ⟨['h', 'a', 'l'], 'f', rfl, rfl⟩
    | single => exact ⟨['f', 'l', 'o', 'a'], 't', rfl, rfl⟩
    | double => exact ⟨['d', 'o', 'u', 'b', 'l'], 'e', rfl, rfl⟩
  | pointer p space =>
    rw [spelling_pointer, pointerEnd]
    split
    · exact ⟨_, '*', rfl, rfl⟩
    · exact ⟨p.spelling ++ (" addrspace".toList ++ '(' :: digits space ++ [')']), '*', by simp, rfl⟩
  | array e n => exact ⟨_, ']', spelling_array e n, rfl⟩
  | struct fs packed =>
    rw [spelling_struct]
    cases packed with
    | false => exact ⟨['{', ' '] ++ listSpelling (fs.map some) ++ [' '], '}', by simp, rfl⟩
    | true => exact ⟨['<', '{', ' '] ++ listSpelling (fs.map some) ++ [' ', '}'], '>', by simp, rfl⟩
  | function r ps variadic => exact ⟨_, ')', spelling_function r ps variadic, rfl⟩

theorem ending_eq {t u : Ty} {r s : List Char} (h : r ++ t.spelling = s ++ u.spelling) : t.ending = u.ending := by
  obtain ⟨ts, c, ht, hc⟩ := t.exists_ending
  obtain ⟨us, d, hu, hd⟩ := u.exists_ending
  obtain rfl := last_eq _ _ ht hu h
  exact Option.some.inj (hc.symm.trans hd)

/-! ### Lists -/

/-- Items with commas behind them. -/
def leadSpelling (items : List (Option Ty)) : List Char := (items.map fun x => itemSpelling x ++ [',', ' ']).flatten

theorem leadSpelling_concat (items : List (Option Ty)) (x : Option Ty) :
    leadSpelling (items ++ [x]) = leadSpelling items ++ itemSpelling x ++ [',', ' '] := by
  simp [leadSpelling]

theorem listSpelling_concat (items : List (Option Ty)) (x : Option Ty) :
    listSpelling (items ++ [x]) = leadSpelling items ++ itemSpelling x := by
  induction items with
  | nil => simp [listSpelling, leadSpelling]
  | cons y items ih =>
    obtain ⟨z, zs, hz⟩ := List.exists_cons_of_ne_nil (List.append_ne_nil_of_right_ne_nil items (List.cons_ne_nil x []))
    have hcons : listSpelling (y :: z :: zs) = itemSpelling y ++ [',', ' '] ++ listSpelling (z :: zs) :=
      List.intercalate_cons_cons
    rw [List.cons_append, hz, hcons, ← hz, ih]
    simp [leadSpelling]

/-- What ends an item is neither a blank nor a parenthesis that opens. -/
theorem exists_item_last (x : Option Ty) : ∃ cs c, itemSpelling x = cs ++ [c] ∧ c ≠ ' ' ∧ c ≠ '(' := by
  cases x with
  | none => exact ⟨['.', '.'], '.', rfl, by decide, by decide⟩
  | some t =>
    obtain ⟨cs, c, ht, hc⟩ := t.exists_ending
    refine ⟨cs, c, ht, ?_, ?_⟩
    · rintro rfl
      cases hc
    · rintro rfl
      cases hc

/-- Where the text of a type ends, it tells the type and where it starts. -/
def Told (t : Ty) : Prop :=
  ∀ (u : Ty) (r s : List Char), r ++ t.spelling = s ++ u.spelling → r = s ∧ t = u

section
variable {r s : List Char} {xs ys : List (Option Ty)} {a b : Char}

theorem item_told {x y : Option Ty} (hx : ∀ t ∈ x, t.Told) (h : r ++ itemSpelling x = s ++ itemSpelling y) :
    r = s ∧ x = y := by
  have dots {r s : List Char} (t : Ty) (h : r ++ ['.', '.', '.'] = s ++ t.spelling) : False := by
    obtain ⟨cs, c, ht, hc⟩ := t.exists_ending
    obtain rfl : '.' = c := last_eq ['.', '.'] _ rfl ht h
    cases hc
  cases x with
  | none =>
    cases y with
    | none => exact ⟨List.append_cancel_right h, rfl⟩
    | some u => exact (dots u h).elim
  | some t =>
    cases y with
    | none => exact (dots t h.symm).elim
    | some u =>
      obtain ⟨hr, rfl⟩ := hx t rfl u r s h
      exact ⟨hr, rfl⟩

/-- Items with commas behind them are told down to where the list opens, if it does not open like a comma. -/
theorem lead_told (hab : [a, b] ≠ [',', ' ']) (hxs : ∀ x ∈ xs, ∀ t ∈ x, Told t)
    (h : r ++ [a, b] ++ leadSpelling xs = s ++ [a, b] ++ leadSpelling ys) : r = s ∧ xs = ys := by
  have closed {r s : List Char} {ys : List (Option Ty)} (y : Option Ty)
      (h : r ++ [a, b] = s ++ [a, b] ++ leadSpelling (ys ++ [y])) : False := by
    rw [leadSpelling_concat, ← List.append_assoc] at h
    exact hab (List.append_inj_right' h rfl)
  induction xs using List.reverseRecOn generalizing ys with
  | nil =>
    rcases List.eq_nil_or_concat' ys with rfl | ⟨ys, y, rfl⟩
    · exact ⟨by simpa [leadSpelling] using h, rfl⟩
    · exact (closed y (by simpa [leadSpelling] using h)).elim
  | append_singleton xs x ih =>
    rcases List.eq_nil_or_concat' ys with rfl | ⟨ys, y, rfl⟩
    · exact (closed x (by simpa [leadSpelling] using h.symm)).elim
    · rw [leadSpelling_concat, leadSpelling_concat] at h
      simp only [← List.append_assoc] at h
      obtain ⟨hrest, rfl⟩ := item_told (hxs x (by simp)) (List.append_cancel_right h)
      obtain ⟨hr, rfl⟩ := ih (fun x hx => hxs x (List.mem_append_left _ hx)) hrest
      exact ⟨hr, by simp⟩

/-- So is a list, if what opens it does not end like an item. -/
theorem list_told (hab : [a, b] ≠ [',', ' ']) (hb : b = ' ' ∨ b = '(') (hxs : ∀ x ∈ xs, ∀ t ∈ x, Told t)
    (h : r ++ [a, b] ++ listSpelling xs = s ++ [a, b] ++ listSpelling ys) : r = s ∧ xs = ys := by
  have closed {r s : List Char} {ys : List (Option Ty)} (y : Option Ty)
      (h : r ++ [a, b] = s ++ [a, b] ++ listSpelling (ys ++ [y])) : False := by
    obtain ⟨cs, c, hy, hblank, hparen⟩ := exists_item_last y
    rw [listSpelling_concat, ← List.append_assoc] at h
    obtain rfl : b = c := last_eq [a] _ rfl hy h
    exact hb.elim hblank hparen
  rcases List.eq_nil_or_concat' xs with rfl | ⟨xs, x, rfl⟩ <;> rcases List.eq_nil_or_concat' ys with rfl | ⟨ys, y, rfl⟩
  · exact ⟨by simpa [listSpelling] using h, rfl⟩
  · exact (closed y (by simpa [listSpelling] using h)).elim
  · exact (closed x (by simpa [listSpelling] using h.symm)).elim
  · rw [listSpelling_concat, listSpelling_concat, ← List.append_assoc, ← List.append_assoc] at h
    obtain ⟨hrest, rfl⟩ := item_told (hxs x (by simp)) h
    obtain ⟨hr, rfl⟩ := lead_told hab (fun x hx => hxs x (by simp [hx])) hrest
    exact ⟨hr, rfl⟩

end

/-! ### Pointers -/

theorem parameterItems_inj {ps qs : List Ty} {v w : Bool} (h : parameterItems ps v = parameterItems qs w) :
    ps = qs ∧ v = w := by
  have some_inj := List.map_injective_iff.mpr (Option.some_injective Ty)
  have open_ne (ps qs : List Ty) : ps.map some ++ [none] ≠ qs.map some := fun h => by
    have hnone : none ∈ qs.map some := by simp [← h]
    simp at hnone
  cases v <;> cases w
  · exact ⟨some_inj (by simpa [parameterItems] using h), rfl⟩
  · exact (open_ne qs ps (by simpa [parameterItems] using h.symm)).elim
  · exact (open_ne ps qs (by simpa [parameterItems] using h)).elim
  · exact ⟨some_inj (by simpa [parameterItems] using h), rfl⟩

theorem exists_int {t : Ty} {r s : List Char} {c : Char} (hc : c.isDigit) (h : r ++ t.spelling = s ++ [c]) :
    ∃ n, t = int n := by
  obtain ⟨ts, d, ht, hd⟩ := t.exists_ending
  obtain rfl : d = c := last_eq _ [] ht rfl h
  have hend : t.ending = .integer := Option.some.inj (hd.symm.trans (if_pos hc))
  cases t with
  | int n => exact ⟨n, rfl⟩
  | _ => cases hend

/-- No list ends in a number that a parenthesis opens. Where a list ends in digits, they follow a letter. -/
theorem list_ne_number {xs : List (Option Ty)} {r s : List Char} {n : Nat} :
    r ++ [' ', '('] ++ listSpelling xs ≠ s ++ '(' :: digits n := by
  intro h
  obtain ⟨ds, d, hn, hd⟩ := exists_digits n
  have hnumber : '(' :: digits n = ('(' :: ds) ++ [d] := by rw [hn, List.cons_append]
  rcases List.eq_nil_or_concat' xs with rfl | ⟨xs, x, rfl⟩
  · rw [listSpelling, List.map_nil, List.intercalate_nil, List.append_nil] at h
    obtain rfl : '(' = d := last_eq [' '] _ rfl hnumber h
    cases hd
  · rw [listSpelling_concat, ← List.append_assoc] at h
    cases x with
    | none =>
      obtain rfl : '.' = d := last_eq ['.', '.'] _ rfl hnumber h
      cases hd
    | some p =>
      rw [hnumber, ← List.append_assoc] at h
      obtain ⟨k, rfl⟩ := exists_int hd h
      rw [List.append_assoc s, ← hnumber, itemSpelling, spelling_int] at h
      obtain ⟨-, hletter, -⟩ := digits_told (by decide) (by decide) h
      exact absurd hletter (by decide)

/-- So no name does, in parentheses. -/
theorem spelling_ne_number {t : Ty} {r s : List Char} {n : Nat} : r ++ t.spelling ≠ s ++ '(' :: digits n ++ [')'] := by
  intro h
  obtain ⟨ts, c, ht, hc⟩ := t.exists_ending
  obtain rfl : c = ')' := last_eq _ [] ht rfl h
  have hend : t.ending = .function := (Option.some.inj hc).symm
  cases t with
  | function res ps variadic =>
    rw [spelling_function, ← List.append_assoc, ← List.append_assoc, ← List.append_assoc] at h
    exact list_ne_number (List.append_cancel_right h)
  | _ => cases hend

theorem pointer_told {p q : Ty} {a b : Nat} {r s : List Char} (hp : p.Told)
    (h : r ++ (pointer p a).spelling = s ++ (pointer q b).spelling) : r = s ∧ pointer p a = pointer q b := by
  have near {p q : Ty} {r s : List Char} {b : Nat} (h : r ++ (pointer p 0).spelling = s ++ (pointer q b).spelling) :
      b = 0 := by
    by_contra hb
    rw [spelling_pointer, spelling_pointer, pointerEnd, pointerEnd, if_pos rfl, if_neg hb] at h
    have hend : (r ++ p.spelling) ++ ['*'] =
        (s ++ q.spelling ++ " addrspace".toList ++ '(' :: digits b ++ [')']) ++ ['*'] := by simpa using h
    exact spelling_ne_number (List.append_cancel_right hend)
  rcases Nat.eq_zero_or_pos a with rfl | ha
  · obtain rfl := near h
    rw [spelling_pointer, spelling_pointer, ← List.append_assoc, ← List.append_assoc] at h
    obtain ⟨hr, rfl⟩ := hp q r s (List.append_cancel_right h)
    exact ⟨hr, rfl⟩
  · have hb : b ≠ 0 := by
      rintro rfl
      exact absurd (near h.symm) (by omega)
    rw [spelling_pointer, spelling_pointer, pointerEnd, pointerEnd, if_neg (by omega), if_neg hb] at h
    have hend : (r ++ p.spelling ++ " addrspace".toList) ++ '(' :: digits a ++ [')', '*'] =
        (s ++ q.spelling ++ " addrspace".toList) ++ '(' :: digits b ++ [')', '*'] := by simpa using h
    obtain ⟨hspace, -, rfl⟩ := digits_told (by decide) (by decide) (List.append_cancel_right hend)
    obtain ⟨hr, rfl⟩ := hp q r s (List.append_cancel_right hspace)
    exact ⟨hr, rfl⟩

/-! ### Types -/

theorem struct_told {fs gs : List Ty} {packed : Bool} {r s : List Char} (hfs : ∀ f ∈ fs, f.Told)
    (h : r ++ (struct fs packed).spelling = s ++ (struct gs packed).spelling) : r = s ∧ fs = gs := by
  have hitems : ∀ x ∈ fs.map some, ∀ t ∈ x, t.Told := by simpa using hfs
  have fields {r s : List Char} (h : r ++ ['{', ' '] ++ listSpelling (fs.map some) =
      s ++ ['{', ' '] ++ listSpelling (gs.map some)) : r = s ∧ fs = gs := by
    obtain ⟨hr, hmap⟩ := list_told (by decide) (.inl rfl) hitems h
    exact ⟨hr, List.map_injective_iff.mpr (Option.some_injective Ty) hmap⟩
  rw [spelling_struct, spelling_struct] at h
  simp only [← List.append_assoc] at h
  cases packed with
  | false =>
    exact fields (List.append_cancel_right h)
  | true =>
    have hlist : (r ++ ['<', '{', ' '] ++ listSpelling (fs.map some)) = s ++ ['<', '{', ' '] ++ listSpelling (gs.map some) :=
      List.append_cancel_right h
    have hopen : (r ++ ['<']) ++ ['{', ' '] ++ listSpelling (fs.map some) =
        (s ++ ['<']) ++ ['{', ' '] ++ listSpelling (gs.map some) := by simpa using hlist
    obtain ⟨hr, hfields⟩ := fields hopen
    exact ⟨List.append_cancel_right hr, hfields⟩

theorem told (t : Ty) : t.Told := by
  induction t using Ty.induct with
  | h t ih =>
    intro u r s h
    have hend := ending_eq h
    cases t with
    | void =>
      cases u with
      | void => exact ⟨List.append_cancel_right h, rfl⟩
      | _ => cases hend
    | int n =>
      cases u with
      | int k =>
        rw [spelling_int, spelling_int] at h
        obtain ⟨hr, -, rfl⟩ := digits_told (by decide) (by decide) h
        exact ⟨hr, rfl⟩
      | _ => cases hend
    | float f =>
      cases u with
      | float g =>
        obtain rfl := Ending.float.inj hend
        exact ⟨List.append_cancel_right h, rfl⟩
      | _ => cases hend
    | pointer p a =>
      cases u with
      | pointer q b => exact pointer_told (ih p (.head _)) h
      | _ => cases hend
    | array e n =>
      cases u with
      | array f k =>
        rw [spelling_array, spelling_array] at h
        simp only [← List.append_assoc] at h
        obtain ⟨hlength, rfl⟩ := ih e (.head _) f _ _ (List.append_cancel_right h)
        obtain ⟨hr, -, rfl⟩ := digits_told (by decide) (by decide) (List.append_cancel_right hlength)
        exact ⟨hr, rfl⟩
      | _ => cases hend
    | struct fs packed =>
      cases u with
      | struct gs packed' =>
        obtain rfl := Ending.struct.inj hend
        obtain ⟨hr, rfl⟩ := struct_told ih h
        exact ⟨hr, rfl⟩
      | _ => cases hend
    | function res ps variadic =>
      cases u with
      | function res' qs variadic' =>
        rw [spelling_function, spelling_function] at h
        simp only [← List.append_assoc] at h
        have hitems : ∀ x ∈ parameterItems ps variadic, ∀ t ∈ x, t.Told := by
          intro x hx t ht
          obtain rfl : x = some t := ht
          have ht : t ∈ ps := by
            rcases List.mem_append.mp hx with hx | hx
            · simpa using hx
            · cases variadic <;> simp at hx
          exact ih t (.tail _ ht)
        obtain ⟨hresult, hparams⟩ := list_told (by decide) (.inr rfl) hitems (List.append_cancel_right h)
        obtain ⟨hr, rfl⟩ := ih res (.head _) res' r s hresult
        obtain ⟨rfl, rfl⟩ := parameterItems_inj hparams
        exact ⟨hr, rfl⟩
      | _ => cases hend

theorem name_inj {t u : Ty} (h : t.name = u.name) : t = u :=
  (t.told u [] [] (congrArg String.toList h)).2

end Ty
end StackAssembler.IR

namespace StackAssembler.Build
open IR

/-- Types with the same name are the same type. In a context, types whose names are the same have the same number, and
the table that follows numbers tells so from the texts it spells. -/
theorem Reachable.names_unambiguous {m : Machine} (h : Reachable m) :
    (∀ t u : Ty, t.name = u.name → t = u) ∧
    (∀ (i j : Nat) (t u : Ty), m.context.types.toList[i]? = some t → m.context.types.toList[j]? = some u →
      t.name = u.name → i = j) ∧
    ∀ i j depth : Nat, i < m.context.kinds.length → j < m.context.kinds.length → i < depth → j < depth →
      ∃ text text', m.context.typeTable.name depth i = some text ∧ m.context.typeTable.name depth j = some text' ∧
        (text = text' ↔ i = j) := by
  have hl := h.layered
  have number (i j : Nat) (t u : Ty) (ht : m.context.types.toList[i]? = some t) (hu : m.context.types.toList[j]? = some u)
      (hname : t.name = u.name) : i = j := by
    obtain rfl := Ty.name_inj hname
    rw [← hl.number_eq ht, ← hl.number_eq hu]
  refine ⟨fun t u => Ty.name_inj, number, fun i j depth hi hj hid hjd => ?_⟩
  rw [Context.kinds, List.length_map] at hi hj
  have ht := List.getElem?_eq_getElem hi
  have hu := List.getElem?_eq_getElem hj
  refine ⟨_, _, hl.name_eq i _ ht depth hid, hl.name_eq j _ hu depth hjd, number i j _ _ ht hu, ?_⟩
  rintro rfl
  rfl

/-- One number only is spelled like the function. -/
theorem Reachable.names_unambiguous_double :
    Machine.double.context.typeTable.name 5 1 = some "i32 (i32)" ∧
      ∀ j < 5, Machine.double.context.typeTable.name 5 j = some "i32 (i32)" → j = 1 := by
  have hcount : Machine.double.context.kinds.length = 5 := by decide +kernel
  have hname : Machine.double.context.typeTable.name 5 1 = some "i32 (i32)" := by decide +kernel
  refine ⟨hname, fun j hj hspelled => ?_⟩
  obtain ⟨_, _, hone, hother, hsame⟩ :=
    Reachable.double.names_unambiguous.2.2 1 j 5 (by omega) (by omega) (by decide) hj
  exact (hsame.mp (Option.some.inj (hone.symm.trans (hname.trans (hspelled.symm.trans hother))))).symm

end StackAssembler.Build
