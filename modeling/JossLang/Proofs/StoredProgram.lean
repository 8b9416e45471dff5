import JossLang.Program
import JossLang.Proofs.StepOrder

/-!
# Stored programs

The two tables of a program stay in step: a part lists exactly the steps that
the table has of it, in the order of their fractions (`Program.Ordered`). So
every step that is listed is found (`Ordered.partSteps_eq`), and halving a list
finds the place where a new step belongs (`sorted_insertStep`).
-/

namespace JossLang

def Step.Before (s t : Step) : Prop :=
  fractionValue s.number.step.toList < fractionValue t.number.step.toList

namespace Program

/-! ## What a program holds -/

def Holds (p : Program) (s : Step) : Prop := ∃ key, (key, s) ∈ p.table

def steps (p : Program) (part : String) : List Step := (p.listed part).filterMap fun step => p.step? ⟨part, step⟩

def Sorted (steps : List String) : Prop := steps.Pairwise fun a b => fractionValue a.toList < fractionValue b.toList

structure Ordered (p : Program) : Prop where
  nodup : (p.table.map (·.1)).Nodup
  keyed : ∀ key s, (key, s) ∈ p.table → key = s.number.spelling
  named : ∀ s, p.Holds s → s.number.Named
  inStep : ∀ part step, step ∈ p.listed part ↔ ∃ s, p.Holds s ∧ s.number = ⟨part, step⟩
  sorted : ∀ part, Sorted (p.listed part)

theorem holds_of_step? {p : Program} {n : StepNumber} {s : Step} (h : p.step? n = some s) : p.Holds s := by
  obtain ⟨l₁, l₂, hl, -⟩ := List.lookup_eq_some_iff.mp h
  exact ⟨n.spelling, by rw [hl]; simp⟩

theorem holds_of_lookUp {p : Program} {part : String} :
    ∀ {names : List String} {ss : List Step}, p.lookUp part names = .ok ss → ∀ s ∈ ss, p.Holds s
  | [], ss, h, s, hs => by cases h; cases hs
  | name :: names, ss, h, s, hs => by
    rw [lookUp] at h
    cases hfound : p.step? ⟨part, name⟩ with
    | none => simp [hfound] at h
    | some t =>
      cases hrest : p.lookUp part names with
      | error n => simp [hfound, hrest, bind, Except.bind] at h
      | ok rest =>
        obtain rfl : t :: rest = ss := by simpa [hfound, hrest, bind, Except.bind, pure, Except.pure] using h
        rcases List.mem_cons.mp hs with rfl | hs
        · exact holds_of_step? hfound
        · exact holds_of_lookUp hrest s hs

section
variable {p : Program} (h : p.Ordered)
include h

theorem Ordered.unique {s t : Step} (hs : p.Holds s) (ht : p.Holds t)
    (hst : s.number.spelling = t.number.spelling) : s = t := by
  obtain ⟨k, hk⟩ := hs
  obtain ⟨l, hl⟩ := ht
  have hkl : k = l := by rw [h.keyed _ _ hk, h.keyed _ _ hl, hst]
  exact (Prod.mk.inj (List.inj_on_of_nodup_map h.nodup hk hl hkl)).2

theorem Ordered.step?_eq_some_iff {n : StepNumber} {s : Step} :
    p.step? n = some s ↔ p.Holds s ∧ s.number.spelling = n.spelling := by
  have hfound : ∀ {t}, p.step? n = some t → p.Holds t ∧ t.number.spelling = n.spelling := by
    intro t ht
    obtain ⟨l₁, l₂, hl, -⟩ := List.lookup_eq_some_iff.mp ht
    exact ⟨holds_of_step? ht, (h.keyed n.spelling t (by rw [hl]; simp)).symm⟩
  refine ⟨hfound, fun ⟨⟨key, hs⟩, hn⟩ => ?_⟩
  cases hr : p.step? n with
  | none =>
    have := List.lookup_eq_none_iff.mp hr _ hs
    rw [h.keyed _ _ hs, hn] at this
    simp at this
  | some t =>
    obtain ⟨ht, htn⟩ := hfound hr
    rw [h.unique ht ⟨key, hs⟩ (htn.trans hn.symm)]

theorem Ordered.step?_eq_none_iff {n : StepNumber} : p.step? n = none ↔ ∀ s, p.Holds s → s.number.spelling ≠ n.spelling := by
  rw [Option.eq_none_iff_forall_ne_some]
  exact ⟨fun hn s hs hspell => hn s (h.step?_eq_some_iff.mpr ⟨hs, hspell⟩),
    fun hn s hs => hn s (h.step?_eq_some_iff.mp hs).1 (h.step?_eq_some_iff.mp hs).2⟩

theorem Ordered.step?_of_listed {part step : String} (hm : step ∈ p.listed part) :
    ∃ s, p.step? ⟨part, step⟩ = some s ∧ s.number = ⟨part, step⟩ := by
  obtain ⟨s, hs, hn⟩ := (h.inStep part step).mp hm
  exact ⟨s, h.step?_eq_some_iff.mpr ⟨hs, by rw [hn]⟩, hn⟩

theorem Ordered.mem_steps_iff {part : String} {s : Step} : s ∈ p.steps part ↔ s.number.part = part ∧ p.Holds s := by
  rw [steps, List.mem_filterMap]
  constructor
  · rintro ⟨step, hstep, hs⟩
    obtain ⟨t, ht, hn⟩ := h.step?_of_listed hstep
    obtain rfl : t = s := by simpa [ht] using hs
    exact ⟨by rw [hn], holds_of_step? ht⟩
  · rintro ⟨rfl, hs⟩
    exact ⟨s.number.step, (h.inStep _ _).mpr ⟨s, hs, rfl⟩, h.step?_eq_some_iff.mpr ⟨hs, rfl⟩⟩

/-- What is listed is found. -/
theorem Ordered.lookUp_eq {part : String} : ∀ {names : List String}, (∀ name ∈ names, name ∈ p.listed part) →
    p.lookUp part names = .ok (names.filterMap fun step => p.step? ⟨part, step⟩) ∧
      (names.filterMap fun step => p.step? ⟨part, step⟩).map (·.number) = names.map (⟨part, ·⟩)
  | [], _ => ⟨rfl, rfl⟩
  | name :: names, hm => by
    obtain ⟨s, hs, hn⟩ := h.step?_of_listed (hm name List.mem_cons_self)
    obtain ⟨hrest, hnumbers⟩ := Ordered.lookUp_eq fun n hn => hm n (List.mem_cons_of_mem _ hn)
    rw [lookUp, hrest, List.filterMap_cons, hs]
    exact ⟨rfl, by rw [List.map_cons, List.map_cons, hn, hnumbers]⟩

theorem Ordered.partSteps_eq (part : String) : p.partSteps part = .ok (p.steps part) := (h.lookUp_eq fun _ hm => hm).1

theorem Ordered.numbers_steps (part : String) : (p.steps part).map (·.number) = (p.listed part).map (⟨part, ·⟩) :=
  (h.lookUp_eq fun _ hm => hm).2

theorem Ordered.sorted_steps (part : String) : (p.steps part).Pairwise Step.Before := by
  have hs : ((p.steps part).map (·.number)).Pairwise fun a b => fractionValue a.step.toList < fractionValue b.step.toList := by
    rw [h.numbers_steps part]
    exact List.pairwise_map.mpr (h.sorted part)
  exact (List.pairwise_map (f := fun s : Step => s.number)).mp hs

theorem Ordered.hasPart_iff {part : String} : p.hasPart part ↔ ∃ s, p.Holds s ∧ s.number.part = part := by
  rw [hasPart, Bool.not_eq_true', List.isEmpty_eq_false_iff_exists_mem]
  constructor
  · rintro ⟨step, hstep⟩
    obtain ⟨s, hs, hn⟩ := (h.inStep part step).mp hstep
    exact ⟨s, hs, by rw [hn]⟩
  · rintro ⟨s, hs, rfl⟩
    exact ⟨s.number.step, (h.inStep _ _).mpr ⟨s, hs, rfl⟩⟩

end

theorem ordered_empty : ({} : Program).Ordered where
  nodup := List.nodup_nil
  keyed := nofun
  named := by rintro _ ⟨_, ⟨⟩⟩
  inStep _ _ := ⟨nofun, by rintro ⟨_, ⟨_, ⟨⟩⟩, _⟩⟩
  sorted _ := List.Pairwise.nil

/-! ## Inserting -/

/-- Halving finds the first place that is not before, if those before are the first ones. -/
theorem bisect_spec {before : Nat → Bool} {size : Nat}
    (hfirst : ∀ i j, i ≤ j → j < size → before j = true → before i = true) :
    ∀ {n lo hi : Nat}, hi - lo ≤ n → lo ≤ hi → hi ≤ size → (∀ i < lo, before i = true) →
      (∀ i, hi ≤ i → i < size → before i = false) →
      bisect before n lo hi ≤ size ∧ (∀ i < bisect before n lo hi, before i = true) ∧
        ∀ i, bisect before n lo hi ≤ i → i < size → before i = false
  | 0, lo, hi, hn, hle, hsize, hlow, hhigh => by
    obtain rfl : lo = hi := by omega
    exact ⟨hsize, hlow, hhigh⟩
  | n + 1, lo, hi, hn, hle, hsize, hlow, hhigh => by
    rw [bisect]
    by_cases hlt : lo < hi
    · rw [if_pos hlt]
      have hmid : lo ≤ (lo + hi) / 2 ∧ (lo + hi) / 2 < hi := by omega
      generalize (lo + hi) / 2 = mid at hmid
      dsimp only
      by_cases hb : before mid = true
      · rw [if_pos hb]
        refine bisect_spec hfirst (by omega) (by omega) hsize (fun i hi => ?_) hhigh
        exact hfirst i mid (by omega) (by omega) hb
      · rw [if_neg hb]
        refine bisect_spec hfirst (by omega) (by omega) (by omega) hlow fun i hmi hi => ?_
        exact Bool.eq_false_iff.mpr fun hbi => hb (hfirst mid i hmi hi hbi)
    · rw [if_neg hlt]
      obtain rfl : lo = hi := by omega
      exact ⟨hsize, hlow, hhigh⟩

theorem mem_insertStep {step s : String} {l : List String} : s ∈ insertStep step l ↔ s = step ∨ s ∈ l := by
  have hl : s ∈ l ↔ s ∈ l.take (placeOf step l) ∨ s ∈ l.drop (placeOf step l) := by
    rw [← List.mem_append, List.take_append_drop]
  rw [hl]
  simp only [insertStep, List.mem_append, List.mem_cons]
  exact or_left_comm

/-- In a sorted list a new step is put behind those of smaller fractions. -/
theorem sorted_insertStep {step : String} (hs : IsStepName step) {l : List String} (hl : ∀ s ∈ l, IsStepName s)
    (hne : step ∉ l) (hsorted : Sorted l) : Sorted (insertStep step l) := by
  have hget : ∀ {i}, (h : i < l.length) → l.getD i "" = l[i] := fun h => by simp [List.getD, h]
  have hbefore : ∀ {i}, (h : i < l.length) →
      (precedes (l.getD i "") step = true ↔ fractionValue l[i].toList < fractionValue step.toList) := fun h => by
    rw [hget h]
    exact precedes_iff (hl _ (List.getElem_mem h)) hs
  have hlt := List.pairwise_iff_getElem.mp hsorted
  have hfirst : ∀ i j, i ≤ j → j < l.length → precedes (l.getD j "") step = true → precedes (l.getD i "") step = true := by
    intro i j hij hj hb
    rcases Nat.eq_or_lt_of_le hij with rfl | hij
    · exact hb
    · exact (hbefore (by omega)).mpr ((hlt i j (by omega) hj hij).trans ((hbefore hj).mp hb))
  obtain ⟨hsize, hlow, hhigh⟩ :=
    @bisect_spec _ _ hfirst l.length 0 l.length (by omega) (by omega) le_rfl (by omega) (by omega)
  change placeOf step l ≤ _ at hsize
  change ∀ i < placeOf step l, _ at hlow
  change ∀ i, placeOf step l ≤ i → _ at hhigh
  rw [Sorted, insertStep, List.pairwise_append, List.pairwise_cons]
  have htake : ∀ a ∈ l.take (placeOf step l), fractionValue a.toList < fractionValue step.toList := fun a ha => by
    obtain ⟨i, hi, rfl⟩ := List.getElem_of_mem ha
    rw [List.length_take] at hi
    rw [List.getElem_take]
    exact (hbefore (by omega)).mp (hlow i (by omega))
  have hdrop : ∀ a ∈ l.drop (placeOf step l), fractionValue step.toList < fractionValue a.toList := fun a ha => by
    obtain ⟨i, hi, rfl⟩ := List.getElem_of_mem ha
    rw [List.length_drop] at hi
    rw [List.getElem_drop]
    have hnot := mt (@hbefore (placeOf step l + i) (by omega)).mpr
      (Bool.eq_false_iff.mp (hhigh (placeOf step l + i) (by omega) (by omega)))
    refine lt_of_le_of_ne (not_lt.mp hnot) fun heq => hne ?_
    rw [(hl _ (List.getElem_mem _)).eq_of_fraction hs heq.symm |>.symm]
    exact List.getElem_mem _
  refine ⟨hsorted.sublist (List.take_sublist _ _), ⟨hdrop, hsorted.sublist (List.drop_sublist _ _)⟩, ?_⟩
  intro a ha b hb
  rcases List.mem_cons.mp hb with rfl | hb
  · exact htake a ha
  · exact (htake a ha).trans (hdrop b hb)

/-! ## Storing -/

section
variable {α : Type} {key : String} {v : α} {l : List (String × α)}

theorem keys_put_of_mem (h : (l.lookup key).isSome) : (put key v l).map (·.1) = l.map (·.1) := by
  induction l with
  | nil => cases h
  | cons e l ih =>
    obtain ⟨k, w⟩ := e
    by_cases hk : key = k
    · subst hk; simp [put]
    · rw [List.lookup_cons, beq_false_of_ne hk] at h
      simp [put, hk, ih h]

theorem keys_put_of_new (h : l.lookup key = none) : (put key v l).map (·.1) = l.map (·.1) ++ [key] := by
  induction l with
  | nil => rfl
  | cons e l ih =>
    obtain ⟨k, w⟩ := e
    by_cases hk : key = k
    · subst hk; simp at h
    · rw [List.lookup_cons, beq_false_of_ne hk] at h
      simp [put, hk, ih h]

theorem nodup_keys_put (h : (l.map (·.1)).Nodup) : ((put key v l).map (·.1)).Nodup := by
  cases hm : l.lookup key with
  | some _ => exact keys_put_of_mem (by rw [hm]; rfl) ▸ h
  | none =>
    rw [keys_put_of_new hm, ← List.concat_eq_append]
    refine h.concat fun hmem => ?_
    obtain ⟨e, he, hkey⟩ := List.mem_map.mp hmem
    have hother := List.lookup_eq_none_iff.mp hm e he
    simp [hkey] at hother

theorem mem_put_iff (h : (l.map (·.1)).Nodup) {e : String × α} :
    e ∈ put key v l ↔ e = (key, v) ∨ (e.1 ≠ key ∧ e ∈ l) := by
  induction l with
  | nil => simp [put]
  | cons d l ih =>
    obtain ⟨k, w⟩ := d
    obtain ⟨hk, hl⟩ := List.nodup_cons.mp (show (k :: l.map (·.1)).Nodup from h)
    by_cases hkey : key = k
    · subst hkey
      have hne : ∀ d ∈ l, d.1 ≠ key := fun d hd he => hk (he ▸ List.mem_map_of_mem hd)
      simp only [put, beq_self_eq_true, if_true, List.mem_cons]
      constructor
      · rintro (rfl | he)
        · exact .inl rfl
        · exact .inr ⟨hne e he, .inr he⟩
      · rintro (rfl | ⟨hne', rfl | he⟩)
        · exact .inl rfl
        · exact absurd rfl hne'
        · exact .inr he
    · simp only [put, beq_false_of_ne hkey, Bool.false_eq_true, if_false, List.mem_cons, ih hl]
      constructor
      · rintro (rfl | rfl | ⟨hne, he⟩)
        · exact .inr ⟨Ne.symm hkey, .inl rfl⟩
        · exact .inl rfl
        · exact .inr ⟨hne, .inr he⟩
      · rintro (rfl | ⟨hne, rfl | he⟩)
        · exact .inr (.inl rfl)
        · exact .inl rfl
        · exact .inr (.inr ⟨hne, he⟩)

end

section
variable {p : Program} {n : StepNumber} (c : Command)

theorem store_table : (p.store n c).table = put n.spelling ⟨n, c⟩ p.table := by
  rw [store]
  split <;> rfl

theorem order_store_of_stored (hm : (p.step? n).isSome) : (p.store n c).order = p.order := by
  rw [store, if_pos hm]

theorem listed_store_of_new (hm : p.step? n = none) (part : String) :
    (p.store n c).listed part = if part = n.part then insertStep n.step (p.listed part) else p.listed part := by
  rw [store, hm, Option.isSome_none, if_neg Bool.false_ne_true]
  split
  · next h =>
    subst h
    rw [Program.listed, lookup_put_self, Option.getD_some]
  · next h => rw [Program.listed, lookup_put_ne h, Program.listed]

/-- **Storing.** A number gets the command, and all other numbers keep theirs. -/
theorem Ordered.holds_store (h : p.Ordered) (hn : n.Named) {s : Step} :
    (p.store n c).Holds s ↔ s = ⟨n, c⟩ ∨ (s.number ≠ n ∧ p.Holds s) := by
  simp only [Holds, store_table, mem_put_iff h.nodup]
  constructor
  · rintro ⟨key, he | ⟨hne, he⟩⟩
    · exact .inl (Prod.mk.inj he).2
    · exact .inr ⟨fun e => hne (by rw [h.keyed _ _ he, e]), key, he⟩
  · rintro (rfl | ⟨hne, key, he⟩)
    · exact ⟨_, .inl rfl⟩
    · refine ⟨key, .inr ⟨fun hk => hne ?_, he⟩⟩
      exact (h.named s ⟨key, he⟩).eq_of_spelling hn (by rw [← h.keyed _ _ he, ← hk])

theorem Ordered.step?_isSome_iff (h : p.Ordered) (hn : n.Named) : (p.step? n).isSome ↔ ∃ s, p.Holds s ∧ s.number = n := by
  rw [Option.isSome_iff_exists]
  constructor
  · rintro ⟨s, hs⟩
    obtain ⟨hs, hspell⟩ := h.step?_eq_some_iff.mp hs
    exact ⟨s, hs, (h.named s hs).eq_of_spelling hn hspell⟩
  · rintro ⟨s, hs, rfl⟩
    exact ⟨s, h.step?_eq_some_iff.mpr ⟨hs, rfl⟩⟩

/-- A part lists what it listed, and the step that is new. -/
theorem Ordered.mem_listed_store (h : p.Ordered) (hn : n.Named) {part step : String} :
    step ∈ (p.store n c).listed part ↔ (⟨part, step⟩ : StepNumber) = n ∨ step ∈ p.listed part := by
  have hpart : (⟨part, step⟩ : StepNumber) = n ↔ part = n.part ∧ step = n.step := by cases n; simp
  cases hm : p.step? n with
  | some s =>
    have hs : (p.step? n).isSome := by rw [hm]; rfl
    rw [Program.listed, order_store_of_stored c hs, ← Program.listed]
    refine (or_iff_right_of_imp fun heq => ?_).symm
    obtain ⟨s, hs, hsn⟩ := (h.step?_isSome_iff hn).mp hs
    exact (h.inStep part step).mpr ⟨s, hs, by rw [hsn, heq]⟩
  | none =>
    rw [listed_store_of_new c hm, hpart]
    split
    · next hp => simp [mem_insertStep, hp]
    · next hp => simp [hp]

theorem Ordered.store (h : p.Ordered) (hn : n.Named) : (p.store n c).Ordered where
  nodup := by
    rw [store_table]
    exact nodup_keys_put h.nodup
  keyed key s hs := by
    rw [store_table, mem_put_iff h.nodup] at hs
    rcases hs with hs | ⟨-, hs⟩
    · obtain ⟨rfl, rfl⟩ := Prod.mk.inj hs
      rfl
    · exact h.keyed key s hs
  named s hs := by
    rcases (h.holds_store c hn).mp hs with rfl | ⟨-, hs⟩
    · exact hn
    · exact h.named s hs
  inStep part step := by
    rw [h.mem_listed_store c hn, h.inStep]
    constructor
    · rintro (rfl | ⟨s, hs, hsn⟩)
      · exact ⟨⟨_, c⟩, (h.holds_store c hn).mpr (.inl rfl), rfl⟩
      · by_cases heq : s.number = n
        · exact ⟨⟨n, c⟩, (h.holds_store c hn).mpr (.inl rfl), heq ▸ hsn⟩
        · exact ⟨s, (h.holds_store c hn).mpr (.inr ⟨heq, hs⟩), hsn⟩
    · rintro ⟨s, hs, hsn⟩
      rcases (h.holds_store c hn).mp hs with rfl | ⟨-, hs⟩
      · exact .inl hsn.symm
      · exact .inr ⟨s, hs, hsn⟩
  sorted part := by
    cases hm : p.step? n with
    | some s =>
      rw [Program.listed, order_store_of_stored c (by rw [hm]; rfl)]
      exact h.sorted part
    | none =>
      rw [listed_store_of_new c hm]
      split
      · next hp =>
        subst hp
        refine sorted_insertStep hn.step (fun s hs => ?_) (fun hmem => ?_) (h.sorted _)
        · obtain ⟨t, ht, htn⟩ := (h.inStep _ _).mp hs
          have := (h.named t ht).step
          rwa [htn] at this
        · obtain ⟨t, ht, htn⟩ := (h.inStep _ _).mp hmem
          exact h.step?_eq_none_iff.mp hm t ht (by rw [htn])
      · exact h.sorted part

end

end Program

end JossLang
