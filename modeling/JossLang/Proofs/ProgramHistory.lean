import JossLang.Proofs.StoredProgram

/-!
# Programs and what was stored

A program that was built by storing commands is known from the last command of
each number: `storeAll_laws`. The order of storing decides nothing else but the
order in which the tables name steps and parts.
-/

namespace JossLang

instance : Std.Irrefl Step.Before := ⟨fun s => lt_irrefl (fractionValue s.number.step.toList)⟩

instance : Std.Antisymm Step.Before := ⟨fun _ _ h h' => absurd (lt_trans h h') (lt_irrefl _)⟩

namespace Program

def storeAll (rs : List (StepNumber × Command)) : Program := rs.foldl (fun p r => p.store r.1 r.2) {}

def lastCommand? (rs : List (StepNumber × Command)) (n : StepNumber) : Option Command := rs.reverse.lookup n

theorem storeAll_append (rs : List (StepNumber × Command)) (n : StepNumber) (c : Command) :
    storeAll (rs ++ [(n, c)]) = (storeAll rs).store n c := by
  simp [storeAll]

theorem lastCommand?_append (rs : List (StepNumber × Command)) (n m : StepNumber) (c : Command) :
    lastCommand? (rs ++ [(n, c)]) m = if m = n then some c else lastCommand? rs m := by
  rw [lastCommand?, List.reverse_append, List.reverse_singleton, List.singleton_append, List.lookup_cons]
  by_cases h : m = n
  · simp [h]
  · simp [h, lastCommand?, beq_false_of_ne h]

theorem lastCommand?_isSome_iff {rs : List (StepNumber × Command)} {n : StepNumber} :
    (lastCommand? rs n).isSome ↔ ∃ r ∈ rs, r.1 = n := by
  induction rs using List.reverseRecOn with
  | nil => simp [lastCommand?]
  | append_singleton rs r ih =>
    rw [lastCommand?_append]
    by_cases h : n = r.1
    · simp [h]
    · simp [h, ih, Ne.symm h, or_and_right, exists_or]

section
variable {rs : List (StepNumber × Command)} (h : ∀ r ∈ rs, r.1.Named)
include h

theorem ordered_storeAll : (storeAll rs).Ordered := by
  induction rs using List.reverseRecOn with
  | nil => exact ordered_empty
  | append_singleton rs r ih =>
    rw [storeAll_append]
    exact (ih fun q hq => h q (List.mem_append_left _ hq)).store r.2 (h r (by simp))

theorem holds_storeAll {s : Step} : (storeAll rs).Holds s ↔ lastCommand? rs s.number = some s.command := by
  induction rs using List.reverseRecOn with
  | nil => simp [storeAll, Holds, lastCommand?]
  | append_singleton rs r ih =>
    have hrs : ∀ q ∈ rs, q.1.Named := fun q hq => h q (List.mem_append_left _ hq)
    rw [storeAll_append, (ordered_storeAll hrs).holds_store r.2 (h r (by simp)), ih hrs, lastCommand?_append]
    obtain ⟨n, c⟩ := s
    by_cases hn : n = r.1
    · subst hn; simp [eq_comm]
    · simp [hn]

theorem holds_number_storeAll {n : StepNumber} : (∃ s, (storeAll rs).Holds s ∧ s.number = n) ↔ ∃ r ∈ rs, r.1 = n := by
  rw [← lastCommand?_isSome_iff]
  constructor
  · rintro ⟨s, hs, rfl⟩
    rw [(holds_storeAll h).mp hs]
    rfl
  · intro hl
    obtain ⟨c, hc⟩ := Option.isSome_iff_exists.mp hl
    exact ⟨⟨n, c⟩, (holds_storeAll h).mpr hc, rfl⟩

theorem step?_isSome_storeAll {n : StepNumber} :
    ((storeAll rs).step? n).isSome ↔ ∃ r ∈ rs, r.1.spelling = n.spelling := by
  rw [Option.isSome_iff_exists]
  constructor
  · rintro ⟨s, hs⟩
    obtain ⟨hs, hn⟩ := (ordered_storeAll h).step?_eq_some_iff.mp hs
    obtain ⟨r, hr, hrs⟩ := (holds_number_storeAll h).mp ⟨s, hs, rfl⟩
    exact ⟨r, hr, by rw [hrs, hn]⟩
  · rintro ⟨r, hr, hn⟩
    obtain ⟨s, hs, hsr⟩ := (holds_number_storeAll h).mpr ⟨r, hr, rfl⟩
    exact ⟨s, (ordered_storeAll h).step?_eq_some_iff.mpr ⟨hs, by rw [hsr, hn]⟩⟩

theorem mem_listed_storeAll {part step : String} :
    step ∈ (storeAll rs).listed part ↔ ∃ r ∈ rs, r.1 = ⟨part, step⟩ := by
  rw [(ordered_storeAll h).inStep, holds_number_storeAll h]

theorem mem_steps_storeAll {part : String} {s : Step} :
    s ∈ (storeAll rs).steps part ↔ s.number.part = part ∧ lastCommand? rs s.number = some s.command := by
  rw [(ordered_storeAll h).mem_steps_iff, holds_storeAll h]

theorem hasPart_storeAll {part : String} : (storeAll rs).hasPart part ↔ ∃ r ∈ rs, r.1.part = part := by
  rw [(ordered_storeAll h).hasPart_iff]
  constructor
  · rintro ⟨s, hs, rfl⟩
    obtain ⟨r, hr, hrs⟩ := (holds_number_storeAll h).mp ⟨s, hs, rfl⟩
    exact ⟨r, hr, by rw [hrs]⟩
  · rintro ⟨r, hr, rfl⟩
    obtain ⟨s, hs, hsr⟩ := (holds_number_storeAll h).mpr ⟨r, hr, rfl⟩
    exact ⟨s, hs, by rw [hsr]⟩

theorem partSteps_eq_of_last {rs' : List (StepNumber × Command)} (h' : ∀ r ∈ rs', r.1.Named)
    (hl : ∀ n, lastCommand? rs n = lastCommand? rs' n) (part : String) :
    (storeAll rs).partSteps part = (storeAll rs').partSteps part := by
  have ho := ordered_storeAll h
  have ho' := ordered_storeAll h'
  have hsteps : (storeAll rs).steps part = (storeAll rs').steps part :=
    (ho.sorted_steps part).eq_of_mem_iff (ho'.sorted_steps part) fun s => by
      rw [mem_steps_storeAll h, mem_steps_storeAll h', hl]
  rw [ho.partSteps_eq, ho'.partSteps_eq, hsteps]

/-- **Stored programs.** A part lists the steps that were stored of it, each once, in the order of their
decimals. All that are listed are found in the table, each with its last command. A number that was stored is
found, and the lists stay as they are when it is stored again. Histories with the same last commands make the
same parts. -/
theorem storeAll_laws :
    (∀ part, Sorted ((storeAll rs).listed part) ∧
      ∀ step, step ∈ (storeAll rs).listed part ↔ ∃ r ∈ rs, r.1 = ⟨part, step⟩) ∧
    (∀ part, ∃ steps, (storeAll rs).partSteps part = .ok steps ∧
      steps.map (·.number) = ((storeAll rs).listed part).map (⟨part, ·⟩) ∧
      ∀ s ∈ steps, lastCommand? rs s.number = some s.command) ∧
    (∀ n, ((storeAll rs).step? n).isSome ↔ ∃ r ∈ rs, r.1.spelling = n.spelling) ∧
    (∀ n s, (storeAll rs).step? n = some s ↔
      s.number.spelling = n.spelling ∧ lastCommand? rs s.number = some s.command) ∧
    (∀ part, (storeAll rs).hasPart part ↔ ∃ r ∈ rs, r.1.part = part) ∧
    (∀ n c, (∃ r ∈ rs, r.1.spelling = n.spelling) → (storeAll (rs ++ [(n, c)])).order = (storeAll rs).order) ∧
    ∀ rs', (∀ r ∈ rs', r.1.Named) → (∀ n, lastCommand? rs n = lastCommand? rs' n) →
      ∀ part, (storeAll rs).partSteps part = (storeAll rs').partSteps part := by
  have ho := ordered_storeAll h
  refine ⟨fun part => ⟨ho.sorted part, fun step => mem_listed_storeAll h⟩, fun part => ?_,
    fun n => step?_isSome_storeAll h, fun n s => ?_, fun part => hasPart_storeAll h, fun n c hn => ?_,
    fun rs' h' hl => partSteps_eq_of_last h h' hl⟩
  · exact ⟨_, ho.partSteps_eq part, ho.numbers_steps part, fun s hs => ((mem_steps_storeAll h).mp hs).2⟩
  · rw [ho.step?_eq_some_iff, holds_storeAll h, and_comm]
  · rw [storeAll_append]
    exact order_store_of_stored c ((step?_isSome_storeAll h).mpr hn)

end

/-- The place 1.10 is the place 1.1, which stands before 1.25 and before 1.3 whenever it is stored. -/
theorem storeAll_stored_twice :
    let here : Location := ⟨"", 1, 1, "Do part 2."⟩
    let done : Command := ⟨here, .blank here, none⟩
    let again : Command := ⟨here, .perform here (.part "2") .once, none⟩
    let rs : List (StepNumber × Command) :=
      [(⟨"1", "3"⟩, done), (⟨"1", "25"⟩, done), (⟨"2", "05"⟩, done), (⟨"1", "1"⟩, done), (⟨"1", "25"⟩, again)]
    StepNumber.ofLiteral "1.10" = .ok ⟨"1", "1"⟩ ∧ (∀ r ∈ rs, r.1.Named) ∧
      (storeAll rs).listed "1" = ["1", "25", "3"] ∧ Sorted ((storeAll rs).listed "1") ∧
      (storeAll rs).step? ⟨"1", "25"⟩ = some ⟨⟨"1", "25"⟩, again⟩ ∧ (storeAll rs).hasPart "2" := by
  intro here done again rs
  have hrs : ∀ r ∈ rs, r.1.Named := by
    intro r hr
    simp only [rs, List.mem_cons, List.not_mem_nil, or_false] at hr
    rcases hr with rfl | rfl | rfl | rfl | rfl
    · exact StepNumber.named_of_ofLiteral (show StepNumber.ofLiteral "1.3" = _ by decide)
    · exact StepNumber.named_of_ofLiteral (show StepNumber.ofLiteral "1.25" = _ by decide)
    · exact StepNumber.named_of_ofLiteral (show StepNumber.ofLiteral "2.05" = _ by decide)
    · exact StepNumber.named_of_ofLiteral (show StepNumber.ofLiteral "1.10" = _ by decide)
    · exact StepNumber.named_of_ofLiteral (show StepNumber.ofLiteral "1.250" = _ by decide)
  obtain ⟨hlisted, -, -, hstep, hpart, -⟩ := storeAll_laws hrs
  refine ⟨by decide, hrs, by decide, (hlisted "1").1, ?_, ?_⟩
  · exact (hstep _ _).mpr ⟨rfl, rfl⟩
  · exact (hpart "2").mpr ⟨_, List.mem_cons_of_mem _ (List.mem_cons_of_mem _ List.mem_cons_self), rfl⟩

end Program

end JossLang
