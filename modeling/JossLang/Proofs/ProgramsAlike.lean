import JossLang.Proofs.Comparison
import JossLang.Proofs.StoredProgram

/-!
# Programs that are alike

The same steps with commands that are alike. Storing keeps programs alike, and
a goal finds the same steps in both.
-/

namespace JossLang

/-- The same steps under the same keys and in the same lists, and all could be stored by lines. -/
structure Program.Alike (place : Location → Location → Prop) (p p' : Program) : Prop where
  ordered : p.Ordered
  spelled : ∀ s, p.Holds s → s.number.Spelled
  table : List.Forall₂ (fun e e' => e.1 = e'.1 ∧ e.2.Alike place e'.2) p.table p'.table
  order : p'.order = p.order

section
variable {α β : Type} {R : α → β → Prop} {l : List α} {l' : List β}

theorem forall₂_find? {f : α → Bool} {g : β → Bool} (hfg : ∀ a b, R a b → f a = g b) (h : List.Forall₂ R l l') :
    Option.Rel R (l.find? f) (l'.find? g) := by
  induction h with
  | nil => exact .none
  | @cons a b l l' hab _ ih =>
    rw [List.find?_cons, List.find?_cons, hfg a b hab]
    cases g b
    · exact ih
    · exact .some hab

end

namespace Program

variable {place : Location → Location → Prop} {p p' : Program}

theorem alike_empty : Program.Alike place {} {} := ⟨ordered_empty, by rintro _ ⟨_, ⟨⟩⟩, .nil, rfl⟩

section
variable (h : p.Alike place p')
include h

theorem Alike.step? (n : StepNumber) : Option.Rel (Step.Alike place) (p.step? n) (p'.step? n) := by
  have hl := forall₂_lookup (fun _ _ he => he.1) n.spelling h.table
  unfold Program.step?
  generalize p.table.lookup n.spelling = o at hl ⊢
  generalize p'.table.lookup n.spelling = o' at hl ⊢
  cases hl with
  | none => exact .none
  | some hs =>
    obtain ⟨_, -, -, hs⟩ := hs
    exact .some hs

theorem Alike.listed (part : String) : p'.listed part = p.listed part := by rw [Program.listed, h.order, Program.listed]

theorem Alike.hasPart (part : String) : p'.hasPart part = p.hasPart part := by rw [Program.hasPart, h.listed, Program.hasPart]

theorem Alike.lookUp {part : String} : ∀ {names : List String} {ss : List Step}, p.lookUp part names = .ok ss →
    ∃ ss', p'.lookUp part names = .ok ss' ∧ List.Forall₂ (Step.Alike place) ss ss'
  | [], ss, hfound => by
    cases hfound
    exact ⟨[], rfl, .nil⟩
  | name :: names, ss, hfound => by
    have hs := h.step? ⟨part, name⟩
    rw [Program.lookUp] at hfound ⊢
    generalize p.step? ⟨part, name⟩ = o at hs hfound
    generalize p'.step? ⟨part, name⟩ = o' at hs ⊢
    cases hs with
    | none => cases hfound
    | some hs => cases hrest : p.lookUp part names with
      | error n => simp [hrest, bind, Except.bind] at hfound
      | ok rest =>
        obtain rfl : _ = ss := by simpa [hrest, bind, Except.bind, pure, Except.pure] using hfound
        obtain ⟨rest', hrest', hsteps⟩ := Alike.lookUp hrest
        exact ⟨_, by rw [hrest']; rfl, .cons hs hsteps⟩

theorem Alike.partSteps (part : String) :
    ∃ ss', p'.partSteps part = .ok ss' ∧ List.Forall₂ (Step.Alike place) (p.steps part) ss' := by
  rw [Program.partSteps, h.listed]
  exact h.lookUp (h.ordered.partSteps_eq part)

end

theorem Alike.commands {p : Program} (h : p.Alike place p) {s : Step} (hs : p.Holds s) : s.command.Alike place s.command := by
  obtain ⟨key, hs⟩ := hs
  exact (List.forall₂_same.mp h.table _ hs).2.2

theorem Alike.part_names (h : p.Alike place p') {part : String} (hpart : p.hasPart part) :
    Numeral part.toList ∧ partOf part = .ok part := by
  obtain ⟨s, hs, rfl⟩ := h.ordered.hasPart_iff.mp hpart
  exact (h.spelled s hs).part_names

/-! ## Storing -/

theorem Alike.store (h : p.Alike place p') {n : StepNumber} (hn : n.Spelled) {c c' : Command} (hc : c.Alike place c') :
    (p.store n c).Alike place (p'.store n c') := by
  refine ⟨h.ordered.store c hn.named, fun s hs => ?_, ?_, ?_⟩
  · rcases (h.ordered.holds_store c hn.named).mp hs with rfl | ⟨-, hs⟩
    · exact hn
    · exact h.spelled s hs
  · rw [store_table, store_table]
    have hnew : Step.Alike place ⟨n, c⟩ ⟨n, c'⟩ := ⟨rfl, hc⟩
    exact forall₂_put (fun _ _ he => he.1) (fun _ _ => ⟨rfl, hnew⟩) ⟨rfl, hnew⟩ h.table
  · have hs := h.step? n
    unfold Program.store
    generalize p.step? n = o at hs ⊢
    generalize p'.step? n = o' at hs ⊢
    cases hs with
    | some => exact h.order
    | none => rw [h.listed, h.order]; rfl

/-! ## Goals -/

theorem Ordered.stepsOf_part (h : p.Ordered) {part : String} (hpart : p.hasPart part) (pos : Location) :
    p.stepsOf pos (.part part) = .ok (p.steps part) := by
  rw [stepsOf, if_pos hpart, h.partSteps_eq]
  rfl

theorem stepsOf_failure {p : Program} {goal : Goal} {pos : Location} {f : Failure} (h : p.stepsOf pos goal = .error f) :
    (∃ cause, cause.Deliberate ∧ f = .error (.runtime { cause := cause, pos := some pos })) ∨
      ∃ number : StepNumber, f = .foreign (quoted number.spelling) := by
  cases goal with
  | step number =>
    rw [stepsOf] at h
    split at h <;> cases h
    exact .inl ⟨.noSuchStep number, trivial, rfl⟩
  | part part =>
    rw [stepsOf] at h
    split at h
    · cases hsteps : p.partSteps part with
      | ok steps => simp [hsteps, Except.mapError] at h
      | error number =>
        rw [hsteps] at h
        cases h
        exact .inr ⟨number, rfl⟩
    · cases h
      exact .inl ⟨.noSuchPart part, trivial, rfl⟩

end Program

theorem Comparison.goals_of_alike {ω : Type} (C : Comparison ω) {p p' : Program} (h : p.Alike C.like.place p') (goal : Goal)
    {pos pos' : Location} (hp : C.like.place pos pos') : C.Goals (p.stepsOf pos goal) (p'.stepsOf pos' goal) := by
  cases goal with
  | step n =>
    have hs := h.step? n
    unfold Program.stepsOf
    dsimp only
    generalize p.step? n = o at hs ⊢
    generalize p'.step? n = o' at hs ⊢
    cases hs with
    | none => exact .missing trivial hp
    | some hs => exact .found (.cons hs .nil)
  | part part =>
    obtain ⟨ss', hss', hsteps⟩ := h.partSteps part
    rw [Program.stepsOf, Program.stepsOf, h.hasPart, h.ordered.partSteps_eq, hss']
    split
    · exact .found hsteps
    · exact .missing trivial hp

end JossLang
