import JossLang.Command.Reading
import Mathlib

/-!
# Readers

What is known of a reader from the readers it is made of: which lexemes it takes
and with which result (`Reads`), and what holds whenever it has a result
(`Ensures`).
-/

namespace JossLang

def Stream.lexemes (s : Stream) : List Lexeme := s.rest.map (·.lexeme)

theorem Stream.peek_of_cons {s : Stream} {l : Lexeme} {ls : List Lexeme} (h : s.lexemes = l :: ls) :
    s.peek.lexeme = l ∧ s.next.2.lexemes = ls := by
  obtain ⟨t, ts, hr, rfl, rfl⟩ := List.map_eq_cons_iff.mp h
  exact ⟨by rw [Stream.peek, hr, List.headD_cons], by rw [Stream.next, Stream.lexemes, hr, List.tail_cons]⟩

theorem run_bind {ε σ α β : Type} (r : ExceptT ε (StateM σ) α) (f : α → ExceptT ε (StateM σ) β) (s : σ) :
    (r >>= f).run s = match r.run s with
      | (.ok a, s') => (f a).run s'
      | (.error e, s') => (.error e, s') := by
  show (ExceptT.bindCont f (r.run s).1) (r.run s).2 = _
  rcases r.run s with ⟨_ | _, _⟩ <;> rfl

theorem run_cases {ε σ α : Type} (r : ExceptT ε (StateM σ) α) (s : σ) :
    (∃ a t, r.run s = (.ok a, t)) ∨ ∃ e t, r.run s = (.error e, t) := by
  generalize r.run s = x
  obtain ⟨e | a, t⟩ := x
  · exact .inr ⟨e, t, rfl⟩
  · exact .inl ⟨a, t, rfl⟩

theorem run_bind_ok {ε σ α β : Type} {r : ExceptT ε (StateM σ) α} {f : α → ExceptT ε (StateM σ) β} {s t : σ} {b : β}
    (h : (r >>= f).run s = (.ok b, t)) : ∃ a u, r.run s = (.ok a, u) ∧ (f a).run u = (.ok b, t) := by
  rw [run_bind] at h
  generalize r.run s = x at h
  obtain ⟨_ | a, u⟩ := x
  · cases h
  · exact ⟨a, u, rfl, h⟩

/-! ## Lexemes taken -/

/-- A reader takes the first of these lexemes and leaves the others, with a result that is as wanted. -/
def Reads {α : Type} (r : Reader α) (ls : List Lexeme) (P : α → Prop) (k : List Lexeme) : Prop :=
  ∀ s : Stream, s.lexemes = ls → ∃ a s', r.run s = (.ok a, s') ∧ P a ∧ s'.lexemes = k

section
variable {α β : Type} {ls ks ms : List Lexeme} {P : α → Prop} {Q : β → Prop}

theorem Reads.bind {r : Reader α} {f : α → Reader β} (h : Reads r ls P ks) (hf : ∀ a, P a → Reads (f a) ks Q ms) :
    Reads (r >>= f) ls Q ms := by
  intro s hs
  obtain ⟨a, s', hr, ha, hs'⟩ := h s hs
  obtain ⟨b, s'', hb, hQ, hs''⟩ := hf a ha s' hs'
  exact ⟨b, s'', by rw [run_bind, hr]; exact hb, hQ, hs''⟩

theorem reads_pure {a : α} (ha : P a) : Reads (pure a) ls P ls := fun s hs => ⟨a, s, rfl, ha, hs⟩

theorem Reads.of_eq {r : Reader α} {a : α} (h : Reads r ls (· = a) ks) (ha : P a) : Reads r ls P ks := by
  intro s hs
  obtain ⟨b, s', hr, rfl, hs'⟩ := h s hs
  exact ⟨b, s', hr, ha, hs'⟩

theorem Reads.discard {r : Reader α} (h : Reads r ls P ks) : Reads (discard r) ls (fun _ => True) ks := by
  rw [Functor.discard]
  exact h.bind fun a _ => reads_pure trivial

end

section
variable (l : Lexeme) (ls : List Lexeme)

open Reader

theorem reads_peek : Reads peek (l :: ls) (·.lexeme = l) (l :: ls) := fun s hs =>
  ⟨s.peek, s, rfl, (s.peek_of_cons hs).1, hs⟩

theorem reads_next : Reads next (l :: ls) (·.lexeme = l) ls := fun s hs =>
  ⟨s.peek, s.next.2, rfl, (s.peek_of_cons hs).1, (s.peek_of_cons hs).2⟩

theorem reads_accept : Reads (accept l) (l :: ls) (· = true) ls := by
  refine (reads_peek l ls).bind fun t ht => ?_
  rw [if_pos ht]
  exact (reads_next l ls).discard.bind fun _ _ => reads_pure rfl

theorem reads_accept_of_ne {m : Lexeme} (h : l ≠ m) : Reads (accept m) (l :: ls) (· = false) (l :: ls) := by
  refine (reads_peek l ls).bind fun t ht => ?_
  rw [if_neg (ht ▸ h)]
  exact reads_pure rfl

theorem reads_expect (place : Place) : Reads (expect place l) (l :: ls) (fun _ => True) ls := by
  refine (reads_next l ls).bind fun t ht => ?_
  rw [if_pos ht]
  exact reads_pure trivial

theorem reads_expectKind (place : Place) : Reads (expectKind place l.kind) (l :: ls) (fun _ => True) ls := by
  refine (reads_next l ls).bind fun t ht => ?_
  rw [if_pos (congrArg _ ht)]
  exact reads_pure trivial

theorem reads_expectName (place : Place) (s : String) :
    Reads (expectName place) (.name s :: ls) (·.1 = s) ls := by
  refine (reads_next _ ls).bind fun t ht => ?_
  rw [ht]
  exact reads_pure rfl

theorem reads_expectNumber (place : Place) (s : String) :
    Reads (expectNumber place) (.number s :: ls) (· = s) ls := by
  refine (reads_next _ ls).bind fun t ht => ?_
  rw [ht]
  exact reads_pure rfl

theorem reads_nextPrecedence (o : Operator) :
    Reads nextPrecedence (.operator o :: ls) (· = some (o, o.precedence)) (.operator o :: ls) := by
  refine (reads_peek _ ls).bind fun t ht => ?_
  rw [ht]
  exact reads_pure rfl

theorem reads_nextPrecedence_none (h : l.kind ≠ .operator) :
    Reads nextPrecedence (l :: ls) (· = none) (l :: ls) := by
  refine (reads_peek l ls).bind fun t ht => ?_
  rw [ht]
  cases l with
  | operator | caret => exact absurd rfl h
  | _ => exact reads_pure rfl

end

/-! ## Results -/

def Ensures {α : Type} (I : Stream → Prop) (r : Reader α) (Q : α → Stream → Prop) : Prop :=
  ∀ s a s', I s → r.run s = (.ok a, s') → Q a s'

section
variable {α β : Type} {I I' : Stream → Prop} {Q Q' : α → Stream → Prop} {R : β → Stream → Prop}

theorem Ensures.bind {r : Reader α} {f : α → Reader β} (h : Ensures I r Q) (hf : ∀ a, Ensures (Q a) (f a) R) :
    Ensures I (r >>= f) R := by
  intro s b s'' hs hr
  obtain ⟨a, s', hrun, hr⟩ := run_bind_ok hr
  exact hf a s' b s'' (h s a s' hs hrun) hr

theorem Ensures.mono {r : Reader α} (h : Ensures I r Q) (hQ : ∀ a s, Q a s → Q' a s) : Ensures I r Q' :=
  fun s a s' hs hr => hQ a s' (h s a s' hs hr)

theorem Ensures.pre {r : Reader α} (h : Ensures I r Q) (hI : ∀ s, I' s → I s) : Ensures I' r Q :=
  fun s a s' hs hr => h s a s' (hI s hs) hr

theorem ensures_pure {a : α} (h : ∀ s, I s → Q a s) : Ensures I (pure a) Q := by
  intro s b s' hs hr
  cases hr
  exact h s hs

theorem ensures_prop {P : Prop} {r : Reader α} : Ensures (fun _ => P) r fun _ _ => P := fun _ _ _ hP _ => hP

theorem ensures_throw {e : ParseError} : Ensures I (throw e : Reader α) Q := by
  rintro _ _ _ - ⟨⟩

theorem ensures_fail {cause : ParseCause} {t : Token} : Ensures I (Reader.fail cause t : Reader α) Q := ensures_throw

end

end JossLang
