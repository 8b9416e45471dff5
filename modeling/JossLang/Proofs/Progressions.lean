import JossLang.Proofs.DoubleSums

/-!
# Terms that end

The values of a term are sums, each rounded, and a step that is too small beside a value does not move it. A term with a
positive step ends just when this happens to none of its values (`stepped_ends`): values that are moved are larger each
time, and there are only so many doubles.
-/

namespace JossLang

/-! ## The values of a term -/

section
variable (x step stop : Float) (limit : Nat)

theorem values_stepped_succ : (Progression.stepped x step stop).values (limit + 1) =
    if x < stop then .number x :: (Progression.stepped (x + step) step stop).values limit else [] := by
  by_cases hx : x < stop <;> simp [Progression.values, List.iterate, hx]

theorem overruns_stepped_succ : (Progression.stepped x step stop).Overruns (limit + 1) ↔
    x < stop ∧ (Progression.stepped (x + step) step stop).Overruns limit := by
  by_cases hx : x < stop <;> simp [Progression.Overruns, values_stepped_succ, hx]

end

theorem overruns_iff {step stop : Float} : ∀ {limit : Nat} {x : Float},
    (Progression.stepped x step stop).Overruns limit ↔ ∀ n < limit, (· + step)^[n] x < stop
  | 0, x => ⟨fun _ => nofun, fun _ => Nat.zero_le _⟩
  | limit + 1, x => by
    rw [overruns_stepped_succ, overruns_iff, Nat.forall_lt_succ_left]
    rfl

theorem mem_values_iff {step stop y : Float} : ∀ {limit : Nat} {x : Float},
    .number y ∈ (Progression.stepped x step stop).values limit ↔
      ∃ n < limit, (∀ i ≤ n, (· + step)^[i] x < stop) ∧ y = (· + step)^[n] x
  | 0, x => by simp [Progression.values, List.iterate]
  | limit + 1, x => by
    rw [values_stepped_succ, Nat.exists_lt_succ_left]
    simp only [Nat.le_zero, forall_eq, ← Nat.lt_succ_iff (n := _ + 1), Nat.forall_lt_succ_left (n := _ + 1)]
    split
    · next hx =>
      rw [List.mem_cons, mem_values_iff]
      simp [hx]
    · next hx => simp [hx]

theorem values_of_overruns {x step stop : Float} {limit : Nat} (h : (Progression.stepped x step stop).Overruns limit) :
    (Progression.stepped x step stop).values limit = (List.iterate (· + step) x limit).map .number := by
  have hall : ∀ y ∈ List.iterate (· + step) x limit, decide (y < stop) = true := by
    intro y hy
    obtain ⟨n, hn, rfl⟩ := List.mem_iterate.mp hy
    exact decide_eq_true (overruns_iff.mp h n hn)
  rw [Progression.values, List.takeWhile_eq_self_iff.mpr hall]

theorem values_of_end {step stop : Float} : ∀ {n : Nat} {x : Float} {limit : Nat}, (∀ i < n, (· + step)^[i] x < stop) →
    ¬ (· + step)^[n] x < stop → n < limit →
    (Progression.stepped x step stop).values limit = (List.iterate (· + step) x n).map .number
  | _, _, 0, _, _, h => absurd h (Nat.not_lt_zero _)
  | 0, x, limit + 1, _, hend, _ => by
    rw [values_stepped_succ, if_neg (show ¬ x < stop from hend)]
    rfl
  | n + 1, x, limit + 1, hbelow, hend, h => by
    rw [Nat.forall_lt_succ_left] at hbelow
    rw [values_stepped_succ, if_pos (show x < stop from hbelow.1), values_of_end hbelow.2 hend (Nat.lt_of_succ_lt_succ h)]
    rfl

theorem again_of_stuck {x step stop y : Float} {limit : Nat} (hy : .number y ∈ (Progression.stepped x step stop).values limit)
    (hstuck : y + step = y) : ∃ n, (∀ k, n ≤ k → (· + step)^[k] x = y) ∧ ∀ k, (· + step)^[k] x < stop := by
  obtain ⟨n, -, hreached, rfl⟩ := mem_values_iff.mp hy
  have hagain : ∀ k, n ≤ k → (· + step)^[k] x = (· + step)^[n] x := by
    intro k hk
    obtain ⟨j, rfl⟩ := Nat.exists_eq_add_of_le' hk
    rw [Function.iterate_add_apply]
    exact Function.iterate_fixed hstuck j
  refine ⟨n, hagain, fun k => ?_⟩
  rcases le_total k n with hkn | hnk
  · exact hreached k hkn
  · rw [hagain k hnk]
    exact hreached n le_rfl

def Progression.Ends (p : Progression) : Prop := ∃ limit, ¬ p.Overruns limit

theorem ends_iff {x step stop : Float} : (Progression.stepped x step stop).Ends ↔ ∃ n, ¬ (· + step)^[n] x < stop := by
  simp only [Progression.Ends, overruns_iff, not_forall]
  exact ⟨fun ⟨_, n, _, h⟩ => ⟨n, h⟩, fun ⟨n, h⟩ => ⟨n + 1, n, Nat.lt_succ_self n, h⟩⟩

/-! ## Going through them -/

section
variable {ω α : Type} {f : α → Value → Run ω α}

theorem foldSteps_through {step stop : Float} : ∀ {limit : Nat} {x : Float} {a : α},
    ¬ (Progression.stepped x step stop).Overruns limit →
    foldSteps f step stop limit a x = ((Progression.stepped x step stop).values limit).foldlM f a
  | 0, x, a, h => absurd (Nat.zero_le _) h
  | limit + 1, x, a, h => by
    rw [overruns_stepped_succ] at h
    rw [foldSteps, values_stepped_succ]
    split
    · next hx =>
      rw [List.foldlM_cons]
      exact bind_congr fun b => foldSteps_through fun hover => h ⟨hx, hover⟩
    · rfl

/-- A term that is not too long is gone through as the list of its values is. -/
theorem Progression.fold_through {limit : Nat} {p : Progression} {a : α} (h : ¬ p.Overruns limit) :
    p.fold limit f a = (p.values limit).foldlM f a := by
  cases p with
  | single v => simp [fold, values]
  | stepped start step stop => exact foldSteps_through h

theorem foldRange_single (limit : Nat) (a : α) (p : Progression) : foldRange limit f a [pure p] = p.fold limit f a := by
  simp [foldRange]

end

/-! ## Positive steps -/

instance finiteFloat : Finite Float := Finite.of_injective (fun x => x.toBits.toFin) fun _ _ h =>
  Float.toBits_inj.mp (UInt64.toFin_inj.mp h)

theorem pos_iff {x : Float} (h : x.isFinite = true) : 0 < x ↔ 0 < Double.value x := by
  have hzero : Double.magnitude 0 = ⟨0, -1074⟩ := by decide +kernel
  rw [Double.lt_iff (by decide +kernel) h, Double.value, hzero]
  simp

section
variable {start step stop : Float} (hstart : start.isFinite = true) (hstep : step.isFinite = true)
  (hpos : 0 < Double.value step)
include hstart hstep hpos

theorem finite_of_reached (hstop : stop.isFinite = true) : ∀ n, (∀ i ≤ n, (· + step)^[i] start < stop) →
    ((· + step)^[n] start).isFinite = true ∧ Double.value start ≤ Double.value ((· + step)^[n] start)
  | 0, _ => ⟨hstart, le_rfl⟩
  | n + 1, h => by
    obtain ⟨hfinite, hle⟩ := finite_of_reached hstop n fun i hi => h i (Nat.le_succ_of_le hi)
    have hlt := h (n + 1) le_rfl
    rw [Function.iterate_succ_apply'] at hlt ⊢
    rcases Double.add_pos_cases hfinite hstep hpos with ⟨hsum, hle'⟩ | hinfinite
    · exact ⟨hsum, hle.trans hle'⟩
    · exact absurd hlt (Double.lt_infinity hstop hinfinite).2

theorem finite_of_mem (hstop : stop.isFinite = true) {limit : Nat} {y : Float}
    (hy : .number y ∈ (Progression.stepped start step stop).values limit) :
    y.isFinite = true ∧ Double.value start ≤ Double.value y ∧ y < stop := by
  obtain ⟨n, -, hreached, rfl⟩ := mem_values_iff.mp hy
  obtain ⟨hfinite, hle⟩ := finite_of_reached hstart hstep hpos hstop n hreached
  exact ⟨hfinite, hle, hreached n le_rfl⟩

/-- Values that the step moves are larger each time, so that they do not stay below the end. -/
theorem ends_of_moved (hstop : stop.isFinite = true)
    (h : ∀ limit y, .number y ∈ (Progression.stepped start step stop).values limit → y < y + step) :
    (Progression.stepped start step stop).Ends := by
  rw [ends_iff]
  by_contra hall
  push Not at hall
  have hfinite : ∀ n, ((· + step)^[n] start).isFinite = true := fun n =>
    (finite_of_reached hstart hstep hpos hstop n fun i _ => hall i).1
  have hmono : StrictMono fun n => Double.value ((· + step)^[n] start) := by
    refine strictMono_nat_of_lt_succ fun n => ?_
    rw [← Double.lt_iff (hfinite n) (hfinite (n + 1)), Function.iterate_succ_apply']
    exact h (n + 1) _ (mem_values_iff.mpr ⟨n, Nat.lt_succ_self n, fun i _ => hall i, rfl⟩)
  have hinjective : Function.Injective fun n => (· + step)^[n] start := fun m n hmn =>
    hmono.injective (congrArg Double.value hmn)
  exact not_injective_infinite_finite _ hinjective

end

/-- **Positive steps.** A term with a positive step ends just when each of its values is moved by the step. If it ends, it
is gone through as the list of its values is, under any bound that is larger than their number. If not, the same value
comes again and again from some value on. It does end if its start and its end are not too far from zero for the step. -/
theorem stepped_ends {start step stop : Float} (hstart : start.isFinite = true) (hstep : step.isFinite = true)
    (hstop : stop.isFinite = true) (hpos : 0 < step) :
    let p := Progression.stepped start step stop
    (p.Ends ↔ ∀ limit y, .number y ∈ p.values limit → y < y + step) ∧
    (p.Ends → ∃ vs : List Value, ∀ limit, vs.length < limit → p.values limit = vs ∧
      ∀ (ω α : Type) (f : α → Value → Run ω α) (a : α), foldRange limit f a [pure p] = vs.foldlM f a) ∧
    (¬ p.Ends → ∃ n y, y < stop ∧ y + step = y ∧ ∀ limit k, n ≤ k → k < limit →
      (p.values limit)[k]? = some (.number y)) ∧
    (-(2 ^ 53 * Double.value step) < Double.value start → Double.value stop ≤ 2 ^ 53 * Double.value step → p.Ends) := by
  intro p
  rw [pos_iff hstep] at hpos
  have hmem : ∀ {limit y}, .number y ∈ p.values limit → y.isFinite = true ∧ Double.value start ≤ Double.value y ∧ y < stop :=
    finite_of_mem hstart hstep hpos hstop
  have hends : (∀ limit y, .number y ∈ p.values limit → y < y + step) → p.Ends :=
    ends_of_moved hstart hstep hpos hstop
  refine ⟨⟨?_, hends⟩, ?_, ?_, ?_⟩
  · intro h limit y hy
    refine (Double.lt_add_or_eq (hmem hy).1 hstep hpos).resolve_right fun hstuck => ?_
    obtain ⟨n, -, hbelow⟩ := again_of_stuck hy hstuck
    obtain ⟨k, hk⟩ := ends_iff.mp h
    exact hk (hbelow k)
  · intro h
    classical
    -- the values are the iterates before the first one that is not below the end
    obtain ⟨n, hend, hleast⟩ : ∃ n, ¬ (· + step)^[n] start < stop ∧ ∀ i < n, (· + step)^[i] start < stop :=
      ⟨Nat.find (ends_iff.mp h), Nat.find_spec (ends_iff.mp h), fun i hi => not_not.mp (Nat.find_min (ends_iff.mp h) hi)⟩
    refine ⟨(List.iterate (· + step) start n).map .number, fun limit hlimit => ?_⟩
    rw [List.length_map, List.length_iterate] at hlimit
    have hvalues : p.values limit = (List.iterate (· + step) start n).map .number := values_of_end hleast hend hlimit
    refine ⟨hvalues, fun ω α f a => ?_⟩
    rw [foldRange_single, ← hvalues]
    exact Progression.fold_through fun hover => hend (overruns_iff.mp hover n hlimit)
  · intro h
    obtain ⟨limit, y, hy, hnot⟩ : ∃ limit y, .number y ∈ p.values limit ∧ ¬ y < y + step := by
      simpa using mt hends h
    obtain ⟨hfinite, -, hlt⟩ := hmem hy
    have hstuck := (Double.lt_add_or_eq hfinite hstep hpos).resolve_left hnot
    obtain ⟨n, hagain, hbelow⟩ := again_of_stuck hy hstuck
    refine ⟨n, y, hlt, hstuck, fun limit k hnk hk => ?_⟩
    rw [values_of_overruns (overruns_iff.mpr fun k _ => hbelow k), List.getElem?_map, List.getElem?_iterate _ _ _ _ hk,
      hagain k hnk]
    rfl
  · intro hlow hhigh
    refine hends fun limit y hy => ?_
    obtain ⟨hfinite, hle, hlt⟩ := hmem hy
    rw [Double.lt_iff hfinite hstop] at hlt
    exact Double.lt_add hfinite hstep hpos (abs_lt.mpr ⟨by linarith, by linarith⟩)

def cents : Progression := .stepped (Double.ofLiteral "0.5".toList) (Double.ofLiteral "0.01".toList) (Double.ofNat 1)

theorem stepped_ends_cents :
    (cents.Ends ↔ ∀ limit y, .number y ∈ cents.values limit → y < y + Double.ofLiteral "0.01".toList) ∧
    (cents.Ends → ∃ vs : List Value, ∀ limit, vs.length < limit → cents.values limit = vs ∧
      ∀ (ω α : Type) (f : α → Value → Run ω α) (a : α), foldRange limit f a [pure cents] = vs.foldlM f a) ∧
    (¬ cents.Ends → ∃ n y, y < Double.ofNat 1 ∧ y + Double.ofLiteral "0.01".toList = y ∧ ∀ limit k, n ≤ k → k < limit →
      (cents.values limit)[k]? = some (.number y)) ∧
    (-(2 ^ 53 * Double.value (Double.ofLiteral "0.01".toList)) < Double.value (Double.ofLiteral "0.5".toList) →
      Double.value (Double.ofNat 1) ≤ 2 ^ 53 * Double.value (Double.ofLiteral "0.01".toList) → cents.Ends) :=
  stepped_ends (by decide +kernel) (by decide +kernel) (by decide +kernel) (by decide +kernel)

/-- At two to the power of 53 a step of one is lost when the sum is rounded, and the values go on for ever. -/
theorem stepped_stuck : ¬ ∀ start step stop : Float, start.isFinite = true → step.isFinite = true → stop.isFinite = true →
    0 < step → (Progression.stepped start step stop).Ends := by
  intro hall
  have hends := hall (Double.ofNat (2 ^ 53)) (Double.ofNat 1) (Double.ofNat (2 ^ 53 + 2)) (by decide +kernel)
    (by decide +kernel) (by decide +kernel) (by decide +kernel)
  have hfirst : Double.ofNat (2 ^ 53) < Double.ofNat (2 ^ 53 + 2) := by decide +kernel
  have hstuck : Double.ofNat (2 ^ 53) + Double.ofNat 1 = Double.ofNat (2 ^ 53) := by decide +kernel
  have hmem : .number (Double.ofNat (2 ^ 53)) ∈
      (Progression.stepped (Double.ofNat (2 ^ 53)) (Double.ofNat 1) (Double.ofNat (2 ^ 53 + 2))).values 1 := by
    rw [values_stepped_succ, if_pos hfirst]
    exact List.mem_cons_self
  obtain ⟨n, -, hbelow⟩ := again_of_stuck hmem hstuck
  obtain ⟨k, hk⟩ := ends_iff.mp hends
  exact hk (hbelow k)

end JossLang
