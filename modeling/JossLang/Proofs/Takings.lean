import JossLang.Proofs.Readers

/-!
# What a reader takes

A reader that has a result has taken the tokens between two places of a line (`Stream.Takes`). For the readers of single
lexemes this says which lexeme it was, and how the reading went on.
-/

namespace JossLang

/-! ## Streams -/

def Stream.Ends (s : Stream) : Prop := s.finish.lexeme = .finish

structure Stream.Takes (s : Stream) (ls : List Lexeme) (s' : Stream) : Prop where
  finish : s'.finish = s.finish
  tokens : ∃ ts : List Token, ts.map (·.lexeme) = ls ∧ s.rest = ts ++ s'.rest ∧ s'.taken = s.taken + ts.length

namespace Stream

variable {s s' s'' : Stream} {ls ms : List Lexeme} {l : Lexeme}

theorem Takes.refl (s : Stream) : s.Takes [] s := ⟨rfl, [], rfl, rfl, rfl⟩

theorem Takes.trans (h : s.Takes ls s') (h' : s'.Takes ms s'') : s.Takes (ls ++ ms) s'' := by
  obtain ⟨hf, ts, rfl, hr, ht⟩ := h
  obtain ⟨hf', ts', rfl, hr', ht'⟩ := h'
  refine ⟨hf'.trans hf, ts ++ ts', List.map_append, by rw [hr, hr', List.append_assoc], ?_⟩
  rw [ht', ht, List.length_append, Nat.add_assoc]

theorem Takes.cons (h : s.Takes [l] s') (h' : s'.Takes ms s'') : s.Takes (l :: ms) s'' := h.trans h'

theorem Takes.ends (h : s.Takes ls s') (hs : s.Ends) : s'.Ends := by
  rw [Ends, h.finish]
  exact hs

theorem Ends.takes_next (hs : s.Ends) (hl : s.peek.lexeme = l) (hf : l ≠ .finish) : s.Takes [l] s.next.2 := by
  cases hr : s.rest with
  | nil =>
    rw [peek, hr, List.headD_nil, hs] at hl
    exact absurd hl.symm hf
  | cons t ts =>
    rw [peek, hr, List.headD_cons] at hl
    exact ⟨rfl, [t], congrArg (· :: []) hl, by simp [Stream.next, hr], rfl⟩

end Stream

/-! ## Readers -/

section
variable {α : Type} {s s' : Stream} {a : α}

open Reader

theorem run_peek_bind (f : Token → Reader α) : (peek >>= f).run s = (f s.peek).run s := rfl

theorem run_next_bind (f : Token → Reader α) : (next >>= f).run s = (f s.peek).run s.next.2 := rfl

theorem run_discard_next_bind (f : Unit → Reader α) : (discard next >>= f).run s = (f ()).run s.next.2 := rfl

theorem discard_bind_ok {β : Type} {r : Reader β} {f : Unit → Reader α} (h : (discard r >>= f).run s = (.ok a, s')) :
    ∃ b s₁, r.run s = (.ok b, s₁) ∧ (f ()).run s₁ = (.ok a, s') := by
  obtain ⟨u, s₁, hdiscard, h⟩ := run_bind_ok h
  obtain ⟨b, s₂, hb, hpure⟩ := run_bind_ok hdiscard
  cases hpure
  exact ⟨b, s₁, hb, h⟩

variable (hs : s.Ends)
include hs

theorem accept_bind_ok {l : Lexeme} {r r' : Reader α}
    (h : (accept l >>= fun c => if c then r else r').run s = (.ok a, s')) (hl : l ≠ .finish) :
    (∃ s₁, s.Takes [l] s₁ ∧ r.run s₁ = (.ok a, s')) ∨ r'.run s = (.ok a, s') := by
  obtain ⟨c, s₁, haccept, h⟩ := run_bind_ok h
  rw [accept, run_peek_bind] at haccept
  split at haccept
  · next hp =>
    cases haccept
    exact .inl ⟨s.next.2, hs.takes_next hp hl, h⟩
  · cases haccept
    exact .inr h

theorem expect_bind_ok {place : Place} {l : Lexeme} {f : Unit → Reader α}
    (h : (discard (expect place l) >>= f).run s = (.ok a, s')) (hl : l ≠ .finish) :
    ∃ s₁, s.Takes [l] s₁ ∧ (f ()).run s₁ = (.ok a, s') := by
  obtain ⟨t, s₁, hexpect, h⟩ := discard_bind_ok h
  rw [expect, run_next_bind] at hexpect
  split at hexpect
  · next hp =>
    cases hexpect
    exact ⟨s.next.2, hs.takes_next hp hl, h⟩
  · cases hexpect

theorem expectKind_bind_ok {place : Place} {k : Kind} {l : Lexeme} {f : Unit → Reader α}
    (h : (discard (expectKind place k) >>= f).run s = (.ok a, s')) (hk : ∀ m : Lexeme, m.kind = k → m = l)
    (hl : l ≠ .finish) : ∃ s₁, s.Takes [l] s₁ ∧ (f ()).run s₁ = (.ok a, s') := by
  obtain ⟨t, s₁, hexpect, h⟩ := discard_bind_ok h
  rw [expectKind, run_next_bind] at hexpect
  split at hexpect
  · next hp =>
    cases hexpect
    exact ⟨s.next.2, hs.takes_next (hk _ hp) hl, h⟩
  · cases hexpect

theorem expectName_bind_ok {place : Place} {f : String × Token → Reader α}
    (h : (expectName place >>= f).run s = (.ok a, s')) :
    ∃ name t s₁, s.Takes [.name name] s₁ ∧ (f (name, t)).run s₁ = (.ok a, s') := by
  obtain ⟨p, s₁, hexpect, h⟩ := run_bind_ok h
  rw [expectName, run_next_bind] at hexpect
  split at hexpect
  · next name hp =>
    cases hexpect
    exact ⟨name, s.peek, s.next.2, hs.takes_next hp nofun, h⟩
  · cases hexpect

end

theorem Lexeme.eq_semicolon {l : Lexeme} (h : l.kind = .semicolon) : l = .semicolon := by
  cases l with
  | semicolon => rfl
  | _ => cases h

/-! ## The next operator -/

def Stream.Stops (s : Stream) (least : Nat) : Prop :=
  s.peek.lexeme.kind = .operator → ∃ o, s.peek.lexeme = .operator o ∧ o.precedence < least

theorem Stream.stops_of_not_operator {s : Stream} {least : Nat} (h : s.peek.lexeme.kind ≠ .operator) : s.Stops least :=
  fun hk => absurd hk h

theorem Stream.stops_of_lt {s : Stream} {least : Nat} {o : Operator} (h : s.peek.lexeme = .operator o)
    (hlt : o.precedence < least) : s.Stops least := fun _ => ⟨o, h, hlt⟩

theorem Stream.Stops.not_operator {s : Stream} (h : s.Stops 0) : s.peek.lexeme.kind ≠ .operator := by
  intro hk
  obtain ⟨o, -, hlt⟩ := h hk
  exact Nat.not_lt_zero _ hlt

theorem nextPrecedence_bind_ok {α : Type} {s s' : Stream} {a : α} {f : Option (Operator × Nat) → Reader α}
    (h : (nextPrecedence >>= f).run s = (.ok a, s')) :
    (s.peek.lexeme.kind ≠ .operator ∧ (f none).run s = (.ok a, s')) ∨
      ∃ o, s.peek.lexeme = .operator o ∧ (f (some (o, o.precedence))).run s = (.ok a, s') := by
  obtain ⟨r, s₁, hnext, h⟩ := run_bind_ok h
  rw [nextPrecedence, run_peek_bind] at hnext
  split at hnext
  · next o ho =>
    cases hnext
    exact .inr ⟨o, ho, h⟩
  · cases hnext
  · next hop hcaret =>
    cases hnext
    refine .inl ⟨fun hk => ?_, h⟩
    cases hl : s.peek.lexeme with
    | operator o => exact hop o hl
    | caret => exact hcaret hl
    | _ => rw [hl] at hk; cases hk

end JossLang
