import StackAssembler.Proofs.Grammar

/-! Taking tokens from a stream, and looking at the one that comes next. -/
namespace StackAssembler.Script
open Grammar TokenStream

/-! ### Streams -/

/-- The stream that is left behind some tokens. -/
structure Took (s : TokenStream) (ts : List PlacedToken) (s' : TokenStream) : Prop where
  pending : s.pending = ts.map .ok ++ s'.pending
  size : s'.size = s.size
  lastStop : s'.lastStop = stopAfter s.lastStop ts

/-- The token that comes next, which is the end of input behind the last one. -/
inductive Sees (s : TokenStream) : Token → Prop where
  | token {t : PlacedToken} {rest : List (Except Unreadable PlacedToken)} : s.pending = .ok t :: rest → Sees s t.token
  | done : s.pending = [] → Sees s .endOfInput

/-- Whether the next token has a property. -/
def Ahead (s : TokenStream) (p : Token → Prop) : Prop := ∃ t, Sees s t ∧ p t

section Streams
variable {s t u : TokenStream} {ts us : List PlacedToken}

theorem took_nil : Took s [] t ↔ t = s := by
  constructor
  · intro h
    obtain ⟨hp, hsize, hstop⟩ := h
    cases s
    cases t
    cases hp
    cases hsize
    cases hstop
    rfl
  · rintro rfl
    exact ⟨rfl, rfl, rfl⟩

theorem Took.append (h : Took s ts t) (h' : Took t us u) : Took s (ts ++ us) u where
  pending := by rw [h.pending, h'.pending, List.map_append, List.append_assoc]
  size := h'.size.trans h.size
  lastStop := by rw [h'.lastStop, h.lastStop, stopAfter, stopAfter, stopAfter, List.foldl_append]

/-- What is taken in two parts can be taken one after the other. -/
theorem took_append : Took s (ts ++ us) u ↔ ∃ t, Took s ts t ∧ Took t us u := by
  refine ⟨fun h => ?_, fun ⟨t, h, h'⟩ => h.append h'⟩
  refine ⟨⟨us.map .ok ++ u.pending, s.size, stopAfter s.lastStop ts⟩, ⟨?_, rfl, rfl⟩, ⟨rfl, h.size, ?_⟩⟩
  · rw [h.pending, List.map_append, List.append_assoc]
  · rw [h.lastStop, stopAfter, stopAfter, stopAfter, List.foldl_append]

theorem took_cons {x : PlacedToken} : Took s (x :: ts) u ↔ ∃ t, Took s [x] t ∧ Took t ts u := by
  rw [← List.singleton_append, took_append]

theorem Took.sees {x : PlacedToken} (h : Took s (x :: ts) t) : Sees s x.token := .token h.pending

theorem Took.length_eq (h : Took s ts t) : s.pending.length = ts.length + t.pending.length := by
  rw [h.pending, List.length_append, List.length_map]

/-- What is left behind a token is shorter. -/
theorem Took.length_lt {x : PlacedToken} (h : Took s (x :: ts) t) : t.pending.length < s.pending.length := by
  have := h.length_eq
  rw [List.length_cons] at this
  omega

/-- Tokens that come first can be taken. -/
theorem exists_took (ts us : List PlacedToken) (h : s.pending = (ts ++ us).map .ok) :
    ∃ t, Took s ts t ∧ t.pending = us.map .ok :=
  ⟨⟨us.map .ok, s.size, stopAfter s.lastStop ts⟩, ⟨by rw [h, List.map_append], rfl, rfl⟩, rfl⟩

theorem Sees.unique {x y : Token} (h : Sees s x) (h' : Sees s y) : x = y := by
  cases h with
  | token hp =>
    cases h' with
    | token hp' =>
      rw [hp] at hp'
      cases hp'
      rfl
    | done hp' => rw [hp] at hp'; cases hp'
  | done hp =>
    cases h' with
    | token hp' => rw [hp] at hp'; cases hp'
    | done => rfl

theorem Ahead.iff_of_sees {x : Token} {p : Token → Prop} (h : Sees s x) : Ahead s p ↔ p x :=
  ⟨fun ⟨_, hy, hp⟩ => h.unique hy ▸ hp, fun hp => ⟨x, h, hp⟩⟩

theorem Ahead.imp {p q : Token → Prop} (h : Ahead s p) (hpq : ∀ x, p x → q x) : Ahead s q :=
  let ⟨x, hs, hp⟩ := h
  ⟨x, hs, hpq x hp⟩

end Streams

/-! ### Readers -/

/-- A token that is always spelled the same. -/
def Token.IsMark (k : Token) : Prop := k ∈ Lexeme.marks.map Prod.snd
  deriving Decidable

theorem Token.IsMark.sameKind_iff {k t : Token} (hk : k.IsMark) : t.sameKind k ↔ t = k := by
  simp only [IsMark, Lexeme.marks, List.map_cons, List.map_nil, List.mem_cons, List.not_mem_nil, or_false] at hk
  rcases hk with rfl | rfl | rfl | rfl | rfl | rfl | rfl | rfl | rfl | rfl | rfl <;> cases t <;> simp [sameKind]

theorem Token.IsMark.ne_endOfInput {k : Token} (hk : k.IsMark) : Token.endOfInput ≠ k := by
  rintro rfl
  revert hk
  decide

section Readers
variable {α β : Type} {s s' : TokenStream}

theorem bind_ok {P : Reading α} {Q : α → Reading β} {b : β} :
    (P >>= Q) s = .ok b s' ↔ ∃ a t, P s = .ok a t ∧ Q a t = .ok b s' := by
  change EStateM.bind P Q s = _ ↔ _
  unfold EStateM.bind
  cases h : P s with
  | ok a t =>
    constructor
    · exact fun hq => ⟨a, t, rfl, hq⟩
    · rintro ⟨_, _, h, hq⟩
      cases h
      exact hq
  | error e t => exact ⟨nofun, nofun⟩

theorem pure_ok {a b : α} : (pure a : Reading α) s = .ok b s' ↔ b = a ∧ s' = s := by
  constructor
  · intro h
    cases h
    exact ⟨rfl, rfl⟩
  · rintro ⟨rfl, rfl⟩
    rfl

theorem throw_ok {e : ScriptError} {b : α} : ¬ (throw e : Reading α) s = .ok b s' := nofun

theorem get_ok {a : TokenStream} : (get : Reading TokenStream) s = .ok a s' ↔ a = s ∧ s' = s := pure_ok (a := s)

theorem next_ok {t : PlacedToken} :
    next s = .ok t s' ↔ Took s [t] s' ∨ s.pending = [] ∧ t = s.endToken ∧ s' = s := by
  unfold next
  cases hp : s.pending with
  | nil =>
    constructor
    · intro h
      cases h
      exact .inr ⟨rfl, rfl, rfl⟩
    · rintro (h | ⟨_, rfl, rfl⟩)
      · have := h.pending
        rw [hp] at this
        cases this
      · rfl
  | cons x rest =>
    cases x with
    | ok x =>
      constructor
      · intro h
        cases h
        exact .inl ⟨hp, rfl, rfl⟩
      · rintro (h | ⟨h, _⟩)
        · obtain ⟨hpend, hsize, hstop⟩ := h
          rw [hp] at hpend
          obtain ⟨hx, hrest⟩ := List.cons.inj hpend
          cases hx
          cases s'
          cases hsize
          cases hstop
          cases hrest
          rfl
        · cases h
    | error u =>
      refine ⟨nofun, ?_⟩
      rintro (h | ⟨h, _⟩)
      · have := h.pending
        rw [hp] at this
        cases this
      · cases h

theorem peek_ok {t : PlacedToken} : peek s = .ok t s' → s' = s ∧ Sees s t.token := by
  unfold peek
  cases hp : s.pending with
  | nil =>
    intro h
    cases h
    exact ⟨rfl, .done hp⟩
  | cons x rest =>
    cases x with
    | ok x =>
      intro h
      cases h
      exact ⟨rfl, .token hp⟩
    | error u => nofun

theorem exists_peek {x : Token} (h : Sees s x) : ∃ t, peek s = .ok t s ∧ t.token = x := by
  unfold peek
  cases h with
  | token hp => exact ⟨_, by rw [hp], rfl⟩
  | done hp => exact ⟨_, by rw [hp], rfl⟩

/-- A look at the next token leaves it where it is. -/
theorem look_ok {q : Token → Bool} {b : Bool} :
    (do return q (← peek).token : Reading Bool) s = .ok b s' ↔ s' = s ∧ Ahead s fun t => q t = b := by
  rw [bind_ok]
  constructor
  · rintro ⟨t, s'', hpeek, h⟩
    obtain ⟨rfl, hs⟩ := peek_ok hpeek
    obtain ⟨rfl, rfl⟩ := pure_ok.mp h
    exact ⟨rfl, _, hs, rfl⟩
  · rintro ⟨rfl, x, hs, rfl⟩
    obtain ⟨t, hpeek, rfl⟩ := exists_peek hs
    exact ⟨t, _, hpeek, rfl⟩

theorem check_ok {k : Token} {b : Bool} : check k s = .ok b s' ↔ s' = s ∧ Ahead s fun t => t.sameKind k = b :=
  look_ok (q := fun t => t.sameKind k)

/-- What starts with a token takes it. -/
theorem next_bind_ok {f : PlacedToken → Reading α} {a : α} (hend : ∀ span u, f ⟨.endOfInput, span⟩ u ≠ .ok a s') :
    (next >>= f) s = .ok a s' ↔ ∃ t u, Took s [t] u ∧ f t u = .ok a s' := by
  simp only [bind_ok, next_ok]
  constructor
  · rintro ⟨t, u, h | ⟨_, rfl, rfl⟩, hf⟩
    · exact ⟨t, u, h, hf⟩
    · exact absurd hf (hend _ _)
  · exact fun ⟨t, u, h, hf⟩ => ⟨t, u, .inl h, hf⟩

theorem expect_ok {k : Token} (hk : k.IsMark) {t : PlacedToken} :
    expect k s = .ok t s' ↔ Took s [t] s' ∧ t.token = k := by
  unfold expect
  simp only [hk.sameKind_iff]
  rw [next_bind_ok]
  · constructor
    · rintro ⟨x, u, h, hf⟩
      split at hf
      · next hx =>
        obtain ⟨rfl, rfl⟩ := pure_ok.mp hf
        exact ⟨h, hx⟩
      · exact absurd hf throw_ok
    · rintro ⟨h, ht⟩
      exact ⟨t, s', h, by rw [if_pos ht]; rfl⟩
  · intro span u
    rw [if_neg hk.ne_endOfInput]
    exact throw_ok

/-- A choice by the next token. -/
theorem choose_ok {look : Reading Bool} {q : Token → Bool} {P Q : Reading α} {a : α}
    (hlook : ∀ {b s''}, look s = .ok b s'' ↔ s'' = s ∧ Ahead s fun t => q t = b) :
    (do if ← look then P else Q) s = .ok a s' ↔
      (Ahead s (q · = true) ∧ P s = .ok a s') ∨ Ahead s (q · = false) ∧ Q s = .ok a s' := by
  simp only [bind_ok, hlook]
  constructor
  · rintro ⟨b, _, ⟨rfl, hb⟩, h⟩
    cases b with
    | true => exact .inl ⟨hb, h⟩
    | false => exact .inr ⟨hb, h⟩
  · rintro (⟨hb, h⟩ | ⟨hb, h⟩)
    · exact ⟨true, s, ⟨rfl, hb⟩, h⟩
    · exact ⟨false, s, ⟨rfl, hb⟩, h⟩

theorem accept_ok {k : Token} (hk : k.IsMark) {b : Bool} : accept k s = .ok b s' ↔
    (b = true ∧ ∃ span, Took s [⟨k, span⟩] s') ∨ b = false ∧ s' = s ∧ Ahead s (· ≠ k) := by
  unfold accept
  rw [choose_ok check_ok, pure_ok]
  simp only [← Bool.not_eq_true, hk.sameKind_iff]
  refine or_congr ?_ ⟨fun ⟨h, hb, hs⟩ => ⟨hb, hs, h⟩, fun ⟨hb, hs, h⟩ => ⟨h, hb, hs⟩⟩
  constructor
  · rintro ⟨⟨_, hs, rfl⟩, h⟩
    obtain ⟨⟨x, span⟩, u, hnext, h⟩ := bind_ok.mp h
    obtain ⟨rfl, rfl⟩ := pure_ok.mp h
    rcases next_ok.mp hnext with ht | ⟨hp, _⟩
    · obtain rfl : _ = x := hs.unique ht.sees
      exact ⟨rfl, span, ht⟩
    · exact absurd (hs.unique (.done hp)).symm hk.ne_endOfInput
  · rintro ⟨rfl, span, ht⟩
    exact ⟨⟨_, ht.sees, rfl⟩, bind_ok.mpr ⟨_, s', next_ok.mpr (.inl ht), rfl⟩⟩

/-- A choice by the next token, which is taken if it is the one looked for. -/
theorem accept_bind_ok {k : Token} (hk : k.IsMark) {P Q : Reading α} {a : α} :
    (do if ← accept k then P else Q) s = .ok a s' ↔
      (∃ span u, Took s [⟨k, span⟩] u ∧ P u = .ok a s') ∨ Ahead s (· ≠ k) ∧ Q s = .ok a s' := by
  simp only [bind_ok, accept_ok hk]
  constructor
  · rintro ⟨b, u, ⟨rfl, span, ht⟩ | ⟨rfl, rfl, hahead⟩, h⟩
    · exact .inl ⟨span, u, ht, h⟩
    · exact .inr ⟨hahead, h⟩
  · rintro (⟨span, u, ht, h⟩ | ⟨hahead, h⟩)
    · exact ⟨true, u, .inl ⟨rfl, span, ht⟩, h⟩
    · exact ⟨false, s, .inr ⟨rfl, rfl, hahead⟩, h⟩

end Readers

end StackAssembler.Script
