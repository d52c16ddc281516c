import StackAssembler.Script.Lexer
import StackAssembler.Proofs.Extents

/-! Looking ahead loses nothing. A lexer with room for one token hands out what a stream of all tokens does, and calls
of either one, in any order, take what was scanned of a script piece by piece. -/
namespace StackAssembler.Script

/-- A text is its first piece and what is scanned behind that. -/
theorem Lexeme.scan_eq_advance (offset : Nat) (cs : List Char) : scan offset cs =
    match advance offset cs with
    | none => []
    | some (i, stop, rest) => i :: scan stop rest := by
  induction offset, cs using scan.induct with
  | case1 offset => rw [scan, advance]
  | case2 offset c cs n lexeme stop hf ih =>
    rw [scan, advance, hf]
    exact ih
  | case3 offset c cs n lexeme stop t hf ih | case4 offset c cs n lexeme stop hf ih =>
    rw [scan, advance, hf]

namespace Lexer

/-! ### The buffer -/

/-- What is left behind the token that was looked at. -/
def behind (l : Lexer) : List (Except Unreadable PlacedToken) :=
  if l.ended then [] else Lexeme.scan l.offset l.rest

/-- A lexer without a token that was looked at. -/
structure Bare (l : Lexer) (pending : List (Except Unreadable PlacedToken)) (size : Nat) : Prop where
  peeked : l.peeked = none
  behind : l.behind = pending
  size : l.size = size

/-- A lexer and a stream have the same left. A token that was looked at is still to be taken. -/
inductive Shows (l : Lexer) (s : TokenStream) : Prop where
  | bare : Bare l s.pending s.size → Shows l s
  | ahead {t : PlacedToken} {rest : List (Except Unreadable PlacedToken)} :
    l.peeked = some t → s.pending = .ok t :: rest → Bare { l with peeked := none } rest s.size → Shows l s
  | done : l.peeked = some s.endToken → s.pending = [] → Bare { l with peeked := none } [] s.size → Shows l s

variable {l : Lexer} {s : TokenStream}

/-- What the next token of a lexer is, and what is left behind it. -/
def Serves (l : Lexer) (pending : List (Except Unreadable PlacedToken)) (size : Nat) : Prop :=
  match pending with
  | [] => ∃ l', next l = .ok ⟨.endOfInput, ⟨size, size⟩⟩ l' ∧ Bare l' [] size
  | .ok t :: rest => ∃ l', next l = .ok t l' ∧ Bare l' rest size
  | .error u :: rest => ∃ l', next l = .error (.lexer u.text u.span) l' ∧ Bare l' rest size

theorem Bare.serves {pending : List (Except Unreadable PlacedToken)} {size : Nat} (h : Bare l pending size) :
    Serves l pending size := by
  obtain ⟨rest, offset, n, peeked, ended⟩ := l
  obtain ⟨rfl, hbehind, rfl⟩ := h
  cases ended with
  | true =>
    obtain rfl : [] = pending := hbehind
    exact ⟨_, rfl, rfl, rfl, rfl⟩
  | false =>
    obtain rfl : Lexeme.scan offset rest = pending := hbehind
    have hscan := Lexeme.scan_eq_advance offset rest
    have hnext : next ⟨rest, offset, n, none, false⟩ = scan ⟨rest, offset, n, none, false⟩ := rfl
    unfold Serves
    rw [hnext, hscan]
    unfold scan
    dsimp only
    cases Lexeme.advance offset rest with
    | none => exact ⟨_, rfl, rfl, rfl, rfl⟩
    | some found =>
      obtain ⟨i, stop, rest⟩ := found
      cases i with
      | ok t => exact ⟨_, rfl, rfl, rfl, rfl⟩
      | error u => exact ⟨_, rfl, rfl, rfl, rfl⟩

theorem Shows.serves (h : Shows l s) : Serves l s.pending s.size := by
  cases h with
  | bare h => exact h.serves
  | ahead hl hs h =>
    rw [hs]
    refine ⟨_, ?_, h⟩
    unfold next
    rw [hl]
  | done hl hs h =>
    rw [hs]
    refine ⟨_, ?_, h⟩
    unfold next
    rw [hl]
    rfl

/-! ### A lexer and a stream side by side -/

/-- Two runs come to the same, and leave the same. -/
inductive Agree {α : Type} : EStateM.Result ScriptError Lexer α → EStateM.Result ScriptError TokenStream α → Prop where
  | ok {a : α} {l : Lexer} {s : TokenStream} : Shows l s → Agree (.ok a l) (.ok a s)
  | error {e : ScriptError} {l : Lexer} {s : TokenStream} : Shows l s → Agree (.error e l) (.error e s)

/-- Whatever is left, one does what the other does. -/
def Refines {α : Type} (x : Lexing α) (y : Reading α) : Prop := ∀ l s, Shows l s → Agree (x l) (y s)

namespace Refines
variable {α β : Type}

theorem pure (a : α) : Refines (Pure.pure a) (Pure.pure a) := fun _ _ h => .ok h

theorem throw (e : ScriptError) : Refines (MonadExcept.throw e : Lexing α) (MonadExcept.throw e) :=
  fun _ _ h => .error h

theorem bind {x : Lexing α} {y : Reading α} {f : α → Lexing β} {g : α → Reading β} (h : Refines x y)
    (k : ∀ a, Refines (f a) (g a)) : Refines (x >>= f) (y >>= g) := by
  intro l s hs
  have hx := h l s hs
  rw [bind_run, bind_run]
  generalize x l = r at hx ⊢
  generalize y s = r' at hx ⊢
  cases hx with
  | ok h => exact k _ _ _ h
  | error h => exact .error h

theorem ite {c : Prop} [Decidable c] {x x' : Lexing α} {y y' : Reading α} (h : Refines x y) (h' : Refines x' y') :
    Refines (if c then x else x') (if c then y else y') := by
  split
  · exact h
  · exact h'

end Refines

theorem next_refines : Refines next TokenStream.next := by
  rintro l ⟨pending, size, lastStop⟩ h
  have hserves := h.serves
  match pending with
  | [] =>
    obtain ⟨l', hl, hbare⟩ := hserves
    rw [hl]
    exact .ok (.bare hbare)
  | .ok t :: rest =>
    obtain ⟨l', hl, hbare⟩ := hserves
    rw [hl]
    exact .ok (.bare hbare)
  | .error u :: rest =>
    obtain ⟨l', hl, hbare⟩ := hserves
    rw [hl]
    exact .error (.bare hbare)

theorem peek_refines : Refines peek TokenStream.peek := by
  rintro l ⟨pending, size, lastStop⟩ h
  have hserves := h.serves
  unfold peek
  match pending with
  | [] =>
    obtain ⟨l', hl, hbare⟩ := hserves
    rw [bind_of_ok hl]
    exact .ok (.done rfl rfl ⟨rfl, hbare.behind, hbare.size⟩)
  | .ok t :: rest =>
    obtain ⟨l', hl, hbare⟩ := hserves
    rw [bind_of_ok hl]
    exact .ok (.ahead rfl rfl ⟨rfl, hbare.behind, hbare.size⟩)
  | .error u :: rest =>
    obtain ⟨l', hl, hbare⟩ := hserves
    rw [bind_of_error hl]
    exact .error (.bare hbare)

theorem check_refines (t : Token) : Refines (check t) (TokenStream.check t) := peek_refines.bind fun _ => .pure _

theorem accept_refines (t : Token) : Refines (accept t) (TokenStream.accept t) :=
  (check_refines t).bind fun _ => .ite (next_refines.bind fun _ => .pure _) (.pure _)

theorem expect_refines (t : Token) : Refines (expect t) (TokenStream.expect t) :=
  next_refines.bind fun _ => .ite (.pure _) (.throw _)

/-- Calls of a stream. -/
def streamed : Call → Reading Answer
  | .next => return .token (← TokenStream.next)
  | .peek => return .token (← TokenStream.peek)
  | .check t => return .verdict (← TokenStream.check t)
  | .accept t => return .verdict (← TokenStream.accept t)
  | .expect t => return .token (← TokenStream.expect t)

theorem call_refines (c : Call) : Refines (call c) (streamed c) := by
  cases c with
  | next => exact next_refines.bind fun _ => .pure _
  | peek => exact peek_refines.bind fun _ => .pure _
  | check t => exact (check_refines t).bind fun _ => .pure _
  | accept t => exact (accept_refines t).bind fun _ => .pure _
  | expect t => exact (expect_refines t).bind fun _ => .pure _

/-! ### Calls -/

/-- What is handed out for a piece of what was scanned. There is nothing but the end of input behind the last one. -/
def served (size : Nat) : Option (Except Unreadable PlacedToken) → Except ScriptError PlacedToken
  | none => .ok ⟨.endOfInput, ⟨size, size⟩⟩
  | some (.ok t) => .ok t
  | some (.error u) => .error (.lexer u.text u.span)

/-- What a call answers when it meets a token or an unreadable piece. -/
def Call.reply : Call → Except ScriptError PlacedToken → Except ScriptError Answer
  | _, .error e => .error e
  | .next, .ok t | .peek, .ok t => .ok (.token t)
  | .check k, .ok t | .accept k, .ok t => .ok (.verdict (t.token.sameKind k))
  | .expect k, .ok t =>
    if t.token.sameKind k then .ok (.token t) else .error (.parser (.unexpected (.token k) t.token) t.span)

/-- Whether a call takes what it meets. All calls take what is unreadable. -/
def Call.takes : Call → Except ScriptError PlacedToken → Bool
  | _, .error _ | .next, .ok _ | .expect _, .ok _ => true
  | .accept k, .ok t => t.token.sameKind k
  | .peek, .ok _ | .check _, .ok _ => false

theorem check_run (k : Token) {t : PlacedToken} {s : TokenStream} (hpeek : TokenStream.peek s = .ok t s) :
    TokenStream.check k s = .ok (t.token.sameKind k) s :=
  bind_of_ok hpeek _

theorem accept_run (k : Token) {t : PlacedToken} {s s' : TokenStream} (hpeek : TokenStream.peek s = .ok t s)
    (hnext : TokenStream.next s = .ok t s') :
    TokenStream.accept k s = if t.token.sameKind k then .ok true s' else .ok false s := by
  unfold TokenStream.accept
  rw [bind_of_ok (check_run k hpeek), ite_run, bind_of_ok hnext]
  rfl

theorem expect_run (k : Token) {t : PlacedToken} {s s' : TokenStream} (hnext : TokenStream.next s = .ok t s') :
    TokenStream.expect k s = if t.token.sameKind k then .ok t s'
      else .error (.parser (.unexpected (.token k) t.token) t.span) s' := by
  unfold TokenStream.expect
  rw [bind_of_ok hnext, ite_run]
  rfl

/-- A call meets what comes first in a stream, and takes it or leaves it. -/
def Meets (c : Call) (s : TokenStream) (first : Except ScriptError PlacedToken) : Prop :=
  ∃ s', (streamed c s = match c.reply first with
      | .ok a => .ok a s'
      | .error e => .error e s') ∧
    s'.pending = (if c.takes first then s.pending.tail else s.pending) ∧ s'.size = s.size

theorem meets_token (c : Call) {t : PlacedToken} {s s' : TokenStream} (hpeek : TokenStream.peek s = .ok t s)
    (hnext : TokenStream.next s = .ok t s') (hpending : s'.pending = s.pending.tail) (hsize : s'.size = s.size) :
    Meets c s (.ok t) := by
  unfold Meets
  cases c with
  | next => exact ⟨s', bind_of_ok hnext _, hpending, hsize⟩
  | peek => exact ⟨s, bind_of_ok hpeek _, rfl, rfl⟩
  | check k => exact ⟨s, bind_of_ok (check_run k hpeek) _, rfl, rfl⟩
  | accept k =>
    have haccept := accept_run k hpeek hnext
    cases hk : t.token.sameKind k with
    | true =>
      rw [hk] at haccept
      simp only [Call.reply, Call.takes, hk]
      exact ⟨s', bind_of_ok haccept _, hpending, hsize⟩
    | false =>
      rw [hk] at haccept
      simp only [Call.reply, Call.takes, hk]
      exact ⟨s, bind_of_ok haccept _, rfl, rfl⟩
  | expect k =>
    have hexpect := expect_run k hnext
    cases hk : t.token.sameKind k with
    | true =>
      rw [hk] at hexpect
      simp only [Call.reply, Call.takes, hk]
      exact ⟨s', bind_of_ok hexpect _, hpending, hsize⟩
    | false =>
      rw [hk] at hexpect
      simp only [Call.reply, Call.takes, hk]
      exact ⟨s', bind_of_error hexpect _, hpending, hsize⟩

theorem meets_first (c : Call) (s : TokenStream) : Meets c s (served s.size s.pending.head?) := by
  obtain ⟨pending, size, lastStop⟩ := s
  match pending with
  | [] => exact meets_token c rfl rfl rfl rfl
  | .ok t :: rest => exact meets_token c rfl rfl rfl rfl
  | .error u :: rest => cases c <;> exact ⟨_, rfl, rfl, rfl⟩

/-- What a lexer has left. -/
def Has (l : Lexer) (pending : List (Except Unreadable PlacedToken)) (size : Nat) : Prop :=
  ∃ s, Shows l s ∧ s.pending = pending ∧ s.size = size

/-- A call of a lexer meets what it has left. -/
theorem Has.answer {pending : List (Except Unreadable PlacedToken)} {size : Nat} (h : Has l pending size) (c : Call) :
    let first := served size pending.head?
    ∃ l', answer c l = (c.reply first, l') ∧ Has l' (if c.takes first then pending.tail else pending) size := by
  obtain ⟨s, hshows, rfl, rfl⟩ := h
  obtain ⟨s', hrun, hpending, hsize⟩ := meets_first c s
  have hagree := call_refines c l s hshows
  rw [hrun] at hagree
  dsimp only
  unfold Lexer.answer
  generalize call c l = r at hagree ⊢
  cases hreply : c.reply (served s.size s.pending.head?) with
  | ok a =>
    rw [hreply] at hagree
    cases hagree with
    | ok h => exact ⟨_, rfl, s', h, hpending, hsize⟩
  | error e =>
    rw [hreply] at hagree
    cases hagree with
    | error h => exact ⟨_, rfl, s', h, hpending, hsize⟩

theorem has_ofSource (source : String) :
    Has (ofSource source) (Lexeme.scan 0 source.toList) source.utf8ByteSize :=
  ⟨.ofSource source, .bare ⟨rfl, rfl, rfl⟩, rfl, rfl⟩

/-! ### Sequences of calls -/

/-- What is handed out in the n-th place: the n-th piece that is scanned of a script, and behind the last one the end of
input. -/
def result (source : String) (n : Nat) : Except ScriptError PlacedToken :=
  served source.utf8ByteSize (Lexeme.scan 0 source.toList)[n]?

/-- By induction on the calls: each one meets the first result that none before it took. -/
theorem answers_meet (source : String) (calls : List Call) (n : Nat)
    (h : Has l ((Lexeme.scan 0 source.toList).drop n) source.utf8ByteSize) :
    (answers calls l).length = calls.length ∧ ∃ taken : Nat → Nat, taken 0 = n ∧ ∀ (i : Nat) (c : Call),
      calls[i]? = some c → (answers calls l)[i]? = some (c.reply (result source (taken i))) ∧
        taken (i + 1) = taken i + if c.takes (result source (taken i)) then 1 else 0 := by
  induction calls generalizing l n with
  | nil => exact ⟨rfl, fun _ => n, rfl, nofun⟩
  | cons c calls ih =>
    obtain ⟨l', hanswer, hleft⟩ := h.answer c
    rw [List.head?_drop, List.tail_drop, ← apply_ite fun k => (Lexeme.scan 0 source.toList).drop k] at hleft
    obtain ⟨hlength, taken, hzero, htaken⟩ := ih _ hleft
    have hcons : answers (c :: calls) l = c.reply (result source n) :: answers calls l' := by
      rw [answers, hanswer, List.head?_drop]
      rfl
    rw [hcons]
    refine ⟨congrArg Nat.succ hlength, fun i => i.casesOn n taken, rfl, ?_⟩
    rintro (_ | i) d hd
    · cases hd
      refine ⟨rfl, hzero.trans ?_⟩
      change _ = n + if c.takes (result source n) then 1 else 0
      unfold result
      split <;> rfl
    · exact htaken i d hd

/-- Where a token or an error stands. -/
def place : Except ScriptError PlacedToken → Span
  | .ok t => t.span
  | .error e => e.span

theorem place_served {size : Nat} (i : Except Unreadable PlacedToken) : place (served size (some i)) = itemSpan i := by
  cases i <;> rfl

/-- Results come in the order of the text. -/
theorem results_ordered (source : String) {m n : Nat} (h : m < n) :
    (place (result source m)).stop ≤ (place (result source n)).start := by
  have hordered := List.pairwise_iff_getElem.mp (scan_ordered 0 source.toList).2
  have hwithin : ∀ i ∈ Lexeme.scan 0 source.toList, (itemSpan i).Within source := scan_within 0 _ [] rfl rfl
  unfold result
  by_cases hn : n < (Lexeme.scan 0 source.toList).length
  · rw [List.getElem?_eq_getElem hn, List.getElem?_eq_getElem (h.trans hn), place_served, place_served]
    exact hordered m n _ hn h
  · rw [List.getElem?_eq_none (Nat.le_of_not_lt hn)]
    by_cases hm : m < (Lexeme.scan 0 source.toList).length
    · rw [List.getElem?_eq_getElem hm, place_served]
      exact (hwithin _ (List.getElem_mem hm)).size
    · rw [List.getElem?_eq_none (Nat.le_of_not_lt hm)]
      exact Nat.le_refl _

/-- The end of input comes behind all that is scanned, again and again. -/
theorem result_eq_end (source : String) (n : Nat) :
    result source n = .ok ⟨.endOfInput, ⟨source.utf8ByteSize, source.utf8ByteSize⟩⟩ ↔
      (Lexeme.scan 0 source.toList).length ≤ n := by
  unfold result
  constructor
  · intro h
    by_contra hn
    have hlt : n < (Lexeme.scan 0 source.toList).length := Nat.lt_of_not_le hn
    rw [List.getElem?_eq_getElem hlt] at h
    have hmem := List.getElem_mem hlt
    cases hi : (Lexeme.scan 0 source.toList)[n] with
    | error u => rw [hi] at h; cases h
    | ok t =>
      rw [hi] at h hmem
      exact Parser.endless_ofSource source t hmem (congrArg PlacedToken.token (Except.ok.inj h))
  · intro hn
    rw [List.getElem?_eq_none hn]
    rfl

/-- What grows by at most one in each step meets each number on its way in exactly one step. -/
theorem exists_unique_step {k : Nat → Nat} {m n : Nat} (hk : ∀ i < m, k (i + 1) = k i ∨ k (i + 1) = k i + 1)
    (h : k 0 ≤ n) (hn : n < k m) : ∃! i, i < m ∧ k i = n ∧ k (i + 1) = n + 1 := by
  have mono {i j : Nat} (hij : i ≤ j) (hj : j ≤ m) : k i ≤ k j := by
    induction j, hij using Nat.le_induction with
    | base => exact Nat.le_refl _
    | succ j hij ih =>
      have := ih (Nat.le_of_succ_le hj)
      have := hk j hj
      omega
  have exist : ∃ i, i < m ∧ k i = n ∧ k (i + 1) = n + 1 := by
    clear mono
    induction m with
    | zero => omega
    | succ m ih =>
      by_cases hm : n < k m
      · obtain ⟨i, hi, hstep⟩ := ih (fun i hi => hk i (by omega)) hm
        exact ⟨i, by omega, hstep⟩
      · have := hk m (Nat.lt_succ_self m)
        exact ⟨m, Nat.lt_succ_self m, by omega, by omega⟩
  obtain ⟨i, hi, hstart, hstop⟩ := exist
  refine ⟨i, ⟨hi, hstart, hstop⟩, fun j ⟨hj, hstart', hstop'⟩ => ?_⟩
  -- the step that comes first ends above the number at which the other one starts
  by_contra hne
  rcases Nat.lt_or_gt_of_ne hne with hlt | hlt
  · have : k (j + 1) ≤ k i := mono hlt (Nat.le_of_lt hi)
    omega
  · have : k (i + 1) ≤ k j := mono hlt (Nat.le_of_lt hj)
    omega

/-- How calls of a lexer hand out the results of a script, when `taken i` results were taken before the i-th call. Each
result that was taken was taken by exactly one call, and each error was met by one only. -/
structure InOrder (source : String) (calls : List Call) (answers : List (Except ScriptError Answer))
    (taken : Nat → Nat) : Prop where
  length : answers.length = calls.length
  first : taken 0 = 0
  reply (i : Nat) (c : Call) : calls[i]? = some c → answers[i]? = some (c.reply (result source (taken i)))
  takes (i : Nat) (c : Call) : calls[i]? = some c →
    taken (i + 1) = taken i + if c.takes (result source (taken i)) then 1 else 0
  once (n : Nat) : n < taken calls.length → ∃! i, i < calls.length ∧ taken i = n ∧ taken (i + 1) = n + 1
  reported (n : Nat) (e : ScriptError) : n < taken calls.length → result source n = .error e →
    ∃! i, i < calls.length ∧ taken i = n

/-- Whatever is called in whatever order, the results of a script are handed out in the order of its text, and none is
lost or handed out again. Behind the last piece of the text there is only the end of input. -/
theorem answers_in_order (source : String) (calls : List Call) :
    (∃ taken, InOrder source calls (answers calls (ofSource source)) taken) ∧
    (∀ m n, m < n → (place (result source m)).stop ≤ (place (result source n)).start) ∧
    ∀ n, result source n = .ok ⟨.endOfInput, ⟨source.utf8ByteSize, source.utf8ByteSize⟩⟩ ↔
      (Lexeme.scan 0 source.toList).length ≤ n := by
  refine ⟨?_, fun m n => results_ordered source, result_eq_end source⟩
  obtain ⟨hlength, taken, hzero, hmeet⟩ := answers_meet source calls 0 (has_ofSource source)
  have step (i : Nat) (hi : i < calls.length) : taken (i + 1) = taken i ∨ taken (i + 1) = taken i + 1 := by
    rw [(hmeet i _ (List.getElem?_eq_getElem hi)).2]
    split
    · exact .inr rfl
    · exact .inl rfl
  have once (n : Nat) (hn : n < taken calls.length) :
      ∃! i, i < calls.length ∧ taken i = n ∧ taken (i + 1) = n + 1 :=
    exists_unique_step step (hzero.le.trans (Nat.zero_le n)) hn
  refine ⟨taken, hlength, hzero, fun i c hc => (hmeet i c hc).1, fun i c hc => (hmeet i c hc).2, once, ?_⟩
  intro n e hn he
  obtain ⟨i, ⟨hi, hstart, -⟩, hunique⟩ := once n hn
  refine ⟨i, ⟨hi, hstart⟩, fun j ⟨hj, hstart'⟩ => hunique j ⟨hj, hstart', ?_⟩⟩
  -- a call that meets an error takes it
  have htakes := (hmeet j _ (List.getElem?_eq_getElem hj)).2
  rw [hstart', he] at htakes
  exact htakes

/-- A character that starts no token is reported by the call that looks at it, and what is behind it comes next. -/
example : answers [.peek, .accept .comma, .next, .check .comma, .expect .comma, .accept .star, .next, .next]
    (ofSource "a ?* b") = [.ok (.token ⟨.ident "a", ⟨0, 1⟩⟩), .ok (.verdict false), .ok (.token ⟨.ident "a", ⟨0, 1⟩⟩),
      .error (.lexer "?" ⟨2, 3⟩), .error (.parser (.unexpected (.token .comma) .star) ⟨3, 4⟩), .ok (.verdict false),
      .ok (.token ⟨.ident "b", ⟨5, 6⟩⟩), .ok (.token ⟨.endOfInput, ⟨6, 6⟩⟩)] := by
  decide +kernel

end Lexer
end StackAssembler.Script
