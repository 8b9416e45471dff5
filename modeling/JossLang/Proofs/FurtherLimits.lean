import JossLang.Proofs.LockstepRuns

/-!
# Further limits

A session that reaches no limit would do the same with further ones
(`lineByLine_withLimits`). So sessions that reach none can be compared whatever
the limits of each are: the further ones of both serve for both.
-/

namespace JossLang

variable {ω : Type}

def Setup.withLimits (setup : Setup ω) (limits : Limits) : Setup ω := { setup with limits := limits }

namespace Limits

def further (l l' : Limits) : Limits := { steps := max l.steps l'.steps, calls := max l.calls l'.calls, values := l.values }

theorem within_further (l l' : Limits) : l.Within (l.further l') := ⟨le_max_left _ _, le_max_left _ _, rfl⟩

theorem within_further_right {l l' : Limits} (h : l'.values = l.values) : l'.Within (l.further l') :=
  ⟨le_max_right _ _, le_max_right _ _, h.symm⟩

end Limits

def Lockstep.further (setup : Setup ω) (limits : Limits) : Lockstep ω ω where
  left := setup
  right := setup.withLimits limits
  states s s' := s' = s
  failed _ s s' := s' = s
  excused f _ := f = .limit

namespace Lockstep

variable {setup : Setup ω} {limits : Limits}

theorem further_agree {α : Type} (m : Run ω α) : (further setup limits).Agree m m := by
  rintro _ s rfl
  rcases m.run s with ⟨_ | _, t⟩
  · exact .error rfl
  · exact .ok rfl

theorem further_runs (h : setup.limits.Within limits) : (further setup limits).Runs where
  limits := .inr ⟨h, fun _ => rfl⟩
  elementary := rfl
  functions := List.forall₂_same.mpr fun _ _ => ⟨rfl, rfl, fun _ _ => further_agree _⟩
  raised _ _ _ _ := id
  limit _ _ := id
  endless _ _ := id
  names := by
    rintro s _ rfl _ _
    rfl
  elements _ _ _ := further_agree _
  marks := by
    rintro s _ rfl
    exact ⟨rfl, rfl⟩
  program := by
    rintro s _ rfl
    exact ⟨rfl, fun _ _ _ _ => rfl⟩
  environment _ _ := by
    rintro s _ rfl
    rfl
  notify _ _ := further_agree _
  delivered _ := further_agree _
  file := rfl
  failed _ _ _ := Iff.rfl
  record _ _ := further_agree _
  pushFrame _ _ := further_agree _
  popFrame := further_agree _
  store _ _ := by
    rintro s _ rfl
    rfl
  starts := by
    rintro s _ rfl
    exact ⟨rfl, rfl⟩
  reported _ := by
    rintro t _ rfl
    exact ⟨rfl, rfl⟩
  last := by
    rintro s _ rfl
    exact ⟨rfl, rfl⟩

end Lockstep

/-- **Limits** that are not reached do not matter. -/
theorem lineByLine_withLimits {setup : Setup ω} {limits : Limits} (h : setup.limits.Within limits) (ls : List String)
    (s : State ω) (hlimit : ∀ x ∈ lineByLine setup ls s, ¬ x.1.any LineError.isLimit) :
    lineByLine (setup.withLimits limits) ls s = lineByLine setup ls s := by
  have hexcused : ∀ x ∈ lineByLine setup ls s, ∀ f t, f = .limit →
      x ≠ (some (settle setup f t).1, (settle setup f t).2) := by
    rintro _ hx _ t rfl rfl
    exact hlimit _ hx rfl
  have hsame := Lockstep.lineByLine_agree (Lockstep.further_runs h) ls (s := s) rfl hexcused
  exact (List.forall₂_eq_eq_eq ▸ hsame.imp fun _ _ hx => (Prod.ext hx.1 hx.2).symm : _ = _).symm

end JossLang
