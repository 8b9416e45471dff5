import JossLang.Proofs.Progressions

/-!
# Ranges of integers

Up to two to the power of 53 integers are doubles and their sums are exact, so that a term of such integers has exactly
the values that it is written for. Only the sum behind the last value may be rounded, and it is not rounded to below the
end. The values of a range are those of its terms one after the other, each time that it is gone through
(`integer_ranges`).
-/

namespace JossLang

/-! ## Terms one after the other -/

section
variable {ω α β : Type} {f : α → Value → Run ω α} {g : β → Value → Run ω β}

theorem foldRange_append (limit : Nat) (us : List (Run ω Progression)) : ∀ (ts : List (Run ω Progression)) (a : α),
    foldRange limit f a (ts ++ us) = (do foldRange limit f (← foldRange limit f a ts) us)
  | [], a => by rw [List.nil_append, foldRange, pure_bind]
  | t :: ts, a => by simp only [List.cons_append, foldRange, bind_assoc, foldRange_append limit us ts]

theorem foldRange_one_run {limit : Nat} {m : Run ω Progression} {s t : State ω} {p : Progression}
    (h : m.run s = (.ok p, t)) (a : α) : (foldRange limit f a [m]).run s = (p.fold limit f a).run t := by
  simp only [foldRange, bind_pure]
  rw [run_bind, h]

section
variable {h : α → β} (hstep : ∀ a v, g (h a) v = h <$> f a v)
include hstep

theorem foldSteps_map (step stop : Float) : ∀ (limit : Nat) (a : α) (x : Float),
    foldSteps g step stop limit (h a) x = h <$> foldSteps f step stop limit a x
  | 0, _, _ => rfl
  | limit + 1, a, x => by
    rw [foldSteps, foldSteps]
    split
    · rw [hstep, bind_map_left, map_bind]
      exact bind_congr fun b => foldSteps_map step stop limit b _
    · rw [map_pure]

theorem fold_map (limit : Nat) (a : α) (p : Progression) : p.fold limit g (h a) = h <$> p.fold limit f a := by
  cases p with
  | single v => exact hstep a v
  | stepped start step stop => exact foldSteps_map hstep step stop limit a start

theorem foldRange_map (limit : Nat) : ∀ (terms : List (Run ω Progression)) (a : α),
    foldRange limit g (h a) terms = h <$> foldRange limit f a terms
  | [], a => by rw [foldRange, foldRange, map_pure]
  | term :: terms, a => by
    simp only [foldRange, map_bind, fold_map hstep, bind_map_left, foldRange_map limit terms]

end

section
variable {r : α → Value → α} {s : State ω} (hround : ∀ a v, (f a v).run s = (.ok (r a v), s))
include hround

theorem foldlM_run_kept : ∀ (vs : List Value) (a : α), (vs.foldlM f a).run s = (.ok (vs.foldl r a), s)
  | [], a => rfl
  | v :: vs, a => by
    rw [List.foldlM_cons, run_bind, hround]
    exact foldlM_run_kept vs (r a v)

/-- In a state that neither terms nor rounds change, all terms are evaluated as they are in it. -/
theorem foldRange_run_kept {limit : Nat} {terms : List (Run ω Progression)} {ps : List Progression}
    (hterms : List.Forall₂ (fun m p => m.run s = (.ok p, s) ∧ ¬ p.Overruns limit) terms ps) (a : α) :
    (foldRange limit f a terms).run s = (.ok ((ps.flatMap (·.values limit)).foldl r a), s) := by
  induction hterms generalizing a with
  | nil => rfl
  | @cons m p ms ps hterm _ ih =>
    rw [foldRange, run_bind, hterm.1]
    show (p.fold limit f a >>= _).run s = _
    rw [run_bind, p.fold_through hterm.2, foldlM_run_kept hround]
    rw [List.flatMap_cons, List.foldl_append]
    exact ih _

end

theorem foldRange_gather_kept {f : List β → Value → Run ω (List β)} {h : Value → β} {s : State ω}
    (hround : ∀ bs v, (f bs v).run s = (.ok (bs ++ [h v]), s)) {limit : Nat} {terms : List (Run ω Progression)}
    {ps : List Progression} (hterms : List.Forall₂ (fun m p => m.run s = (.ok p, s) ∧ ¬ p.Overruns limit) terms ps) :
    (foldRange limit f [] terms).run s = (.ok ((ps.flatMap (·.values limit)).map h), s) := by
  rw [foldRange_run_kept hround hterms, List.foldl_append_eq_append, List.nil_append, ← List.flatMap_def]
  rw [← List.map_eq_flatMap]

def rangeValues (limit : Nat) (terms : List (Run ω Progression)) : Run ω (List Value) :=
  foldRange limit (fun vs v => pure (vs ++ [v])) [] terms

theorem rangeValues_append (limit : Nat) (ts us : List (Run ω Progression)) : rangeValues limit (ts ++ us) = (do
    let vs ← rangeValues limit ts
    return vs ++ (← rangeValues limit us)) := by
  rw [rangeValues, foldRange_append]
  refine bind_congr fun vs => ?_
  have hmap := foldRange_map (ω := ω) (f := fun vs v => pure (vs ++ [v])) (g := fun vs v => pure (vs ++ [v]))
    (h := (vs ++ ·)) (fun ws v => by simp) limit us []
  rw [List.append_nil] at hmap
  rw [hmap, bind_pure_comp]
  rfl

theorem rangeValues_run {limit : Nat} {terms : List (Run ω Progression)} {ps : List Progression} {s : State ω}
    (hterms : List.Forall₂ (fun m p => m.run s = (.ok p, s) ∧ ¬ p.Overruns limit) terms ps) :
    (rangeValues limit terms).run s = (.ok (ps.flatMap (·.values limit)), s) := by
  have h := foldRange_gather_kept (f := fun vs v => pure (vs ++ [v])) (h := id) (fun _ _ => rfl) hterms
  rwa [List.map_id] at h

end

section
variable {ω : Type} (setup : Setup ω) (apply : Apply ω) (scope : Scope)

theorem evalTerms_append (ts us : List Term) :
    evalTerms setup apply scope (ts ++ us) = evalTerms setup apply scope ts ++ evalTerms setup apply scope us := by
  induction ts with
  | nil => rw [evalTerms, List.nil_append, List.nil_append]
  | cons t ts ih => cases t <;> rw [List.cons_append, evalTerms, evalTerms, ih, List.cons_append]

/-- Of a stepped term the end is evaluated first and the start last. -/
theorem evalTerms_stepped {a b c : Expr} {u v w : Value} {s₀ s₁ s₂ s₃ : State ω}
    (hc : (c.eval setup apply scope).run s₀ = (.ok w, s₁)) (hb : (b.eval setup apply scope).run s₁ = (.ok v, s₂))
    (ha : (a.eval setup apply scope).run s₂ = (.ok u, s₃)) : ∃ m, evalTerms setup apply scope [.stepped a b c] = [m] ∧
      m.run s₀ = (.ok (.stepped u.toNumber v.toNumber w.toNumber), s₃) := by
  refine ⟨_, by rw [evalTerms, evalTerms], ?_⟩
  rw [run_bind, hc]
  show (_ >>= _ : Run ω _).run s₁ = _
  rw [run_bind, hb]
  show (_ >>= _ : Run ω _).run s₂ = _
  rw [run_bind, ha]
  rfl

end

/-! ## Integers -/

/-- The double is this integer, and sums up to it are exact. -/
structure IsInteger (x : Float) (n : ℤ) : Prop where
  finite : x.isFinite = true
  value : Double.value x = n
  small : |n| ≤ 2 ^ 53

/-- How many integers there are from `s` in steps of `d` below `e`. -/
def integerCount (s d e : ℤ) : ℕ := (max 0 ⌈((e - s : ℤ) : ℚ) / d⌉).toNat

def integers (s d e : ℤ) : List ℤ := (List.range (integerCount s d e)).map fun i : ℕ => s + i * d

theorem lt_integerCount {s d e : ℤ} (hd : 1 ≤ d) (i : ℕ) : i < integerCount s d e ↔ s + i * d < e := by
  have hd' : (0 : ℚ) < d := by exact_mod_cast hd
  have hceil : i < integerCount s d e ↔ (i : ℤ) < ⌈((e - s : ℤ) : ℚ) / d⌉ := by
    unfold integerCount
    omega
  rw [hceil, Int.lt_ceil, lt_div_iff₀ hd', ← lt_sub_iff_add_lt']
  exact_mod_cast Iff.rfl

theorem IsInteger.lt_iff {x y : Float} {m n : ℤ} (hx : IsInteger x m) (hy : IsInteger y n) : x < y ↔ m < n := by
  rw [Double.lt_iff hx.finite hy.finite, hx.value, hy.value, Int.cast_lt]

theorem IsInteger.add {x y : Float} {m n : ℤ} (hx : IsInteger x m) (hy : IsInteger y n) (h : |m + n| ≤ 2 ^ 53) :
    IsInteger (x + y) (m + n) := by
  have hsum : Double.value x + Double.value y = (m + n : ℤ) := by rw [hx.value, hy.value, Int.cast_add]
  have hlt : |((m + n : ℤ) : ℚ)| < 2 ^ (1024 : ℤ) := by
    calc |((m + n : ℤ) : ℚ)| ≤ 2 ^ (53 : ℤ) := by exact_mod_cast h
      _ < 2 ^ (1024 : ℤ) := zpow_lt_zpow_right₀ (by norm_num) (by norm_num)
  obtain ⟨hfinite, hvalue⟩ := Double.add_exact hx.finite hy.finite (hsum ▸ Double.representable_int h) (hsum ▸ hlt)
  exact ⟨hfinite, hvalue.trans hsum, h⟩

theorem isInteger_of_parts {x : Float} {n : ℤ} {k : ℕ} (hsmall : |n| ≤ 2 ^ 53) (hparts : x.isFinite = true ∧
    Double.isNegative x = decide (n < 0) ∧ Double.magnitude x = ⟨n.natAbs * 2 ^ k, -k⟩) : IsInteger x n := by
  obtain ⟨hfinite, hnegative, hmagnitude⟩ := hparts
  refine ⟨hfinite, ?_, hsmall⟩
  have hcancel : ((n.natAbs * 2 ^ k : ℕ) * 2 ^ (-k : ℤ) : ℚ) = |n| := by
    rw [zpow_neg, zpow_natCast, Nat.cast_mul, Nat.cast_pow, Nat.cast_ofNat, mul_inv_cancel_right₀ (by positivity),
      Nat.cast_natAbs]
  rw [Double.value, hmagnitude, hnegative, hcancel]
  by_cases hn : n < 0
  · simp [hn, abs_of_neg hn]
  · simp [hn, abs_of_nonneg (not_lt.mp hn)]

theorem isInteger_one : IsInteger (Double.ofInt 1) 1 := isInteger_of_parts (k := 52) (by decide) (by decide +kernel)

/-- Every integer of that size is a double, being a sum of ones. -/
theorem exists_isInteger {n : ℤ} (h : |n| ≤ 2 ^ 53) : ∃ x, IsInteger x n := by
  have hzero : IsInteger (Double.ofInt 0) 0 := isInteger_of_parts (k := 1074) (by decide) (by decide +kernel)
  have hminus : IsInteger (Double.ofInt (-1)) (-1) := isInteger_of_parts (k := 52) (by decide) (by decide +kernel)
  induction n with
  | zero => exact ⟨_, hzero⟩
  | succ n ih =>
    obtain ⟨x, hx⟩ := ih (by rw [abs_le] at h ⊢; omega)
    exact ⟨_, hx.add isInteger_one h⟩
  | pred n ih =>
    obtain ⟨x, hx⟩ := ih (by rw [abs_le] at h ⊢; omega)
    exact ⟨_, hx.add hminus h⟩

section
variable {start step stop : Float} {s d e : ℤ} (hs : IsInteger start s) (hd : IsInteger step d) (he : IsInteger stop e)
  (h1 : 1 ≤ d)
include hs he h1

theorem integerCount_le : integerCount s d e ≤ 2 ^ 54 := by
  by_contra hlt
  have hbelow := (lt_integerCount h1 _).mp (not_le.mp hlt)
  have hsmall := abs_le.mp hs.small
  have hsmall' := abs_le.mp he.small
  push_cast at hbelow
  omega

include hd

theorem isInteger_iterate : ∀ i < integerCount s d e, IsInteger ((· + step)^[i] start) (s + i * d)
  | 0, _ => by simpa using hs
  | i + 1, hi => by
    have hbelow := (lt_integerCount h1 _).mp hi
    have hsmall := abs_le.mp hs.small
    have hsmall' := abs_le.mp he.small
    have hnonneg : 0 ≤ (i + 1 : ℕ) * d := by positivity
    have hsum : s + (i + 1 : ℕ) * d = s + i * d + d := by push_cast; ring
    rw [Function.iterate_succ_apply', hsum]
    rw [hsum] at hbelow
    exact (isInteger_iterate i (Nat.lt_of_succ_lt hi)).add hd (abs_le.mpr ⟨by omega, by omega⟩)

/-- The sum behind the last value may not be exact, but it is not below the end. -/
theorem end_reached : ¬ (· + step)^[integerCount s d e] start < stop := by
  have hcount := (lt_integerCount h1 (integerCount s d e)).not.mp (lt_irrefl _)
  cases hlast : integerCount s d e with
  | zero =>
    rw [hlast] at hcount
    rw [Function.iterate_zero, id, hs.lt_iff he]
    simpa using hcount
  | succ k =>
    have hk := isInteger_iterate hs hd he h1 k (by omega)
    have hle : Double.value stop ≤ Double.value ((· + step)^[k] start) + Double.value step := by
      rw [hlast, not_lt] at hcount
      rw [he.value, hk.value, hd.value]
      push_cast at hcount ⊢
      exact_mod_cast (by linarith : e ≤ s + k * d + d)
    rw [Function.iterate_succ_apply']
    exact Double.not_add_lt hk.finite hd.finite he.finite hle

theorem stepped_integers : ∃ xs : List Float, List.Forall₂ IsInteger xs (integers s d e) ∧ (∀ x ∈ xs, x < stop) ∧
    ∀ limit, integerCount s d e < limit → (Progression.stepped start step stop).values limit = xs.map .number ∧
      ¬ (Progression.stepped start step stop).Overruns limit := by
  have hiterate := isInteger_iterate hs hd he h1
  have hend := end_reached hs hd he h1
  have hbelow : ∀ i < integerCount s d e, (· + step)^[i] start < stop := fun i hi =>
    ((hiterate i hi).lt_iff he).mpr ((lt_integerCount h1 i).mp hi)
  refine ⟨List.iterate (· + step) start (integerCount s d e), ?_, ?_, fun limit hlimit => ⟨?_, ?_⟩⟩
  · refine List.forall₂_iff_get.mpr ⟨by simp [integers], fun i hi _ => ?_⟩
    rw [List.length_iterate] at hi
    simpa [integers, List.getElem_iterate] using hiterate i hi
  · intro x hx
    obtain ⟨i, hi, rfl⟩ := List.mem_iterate.mp hx
    exact hbelow i hi
  · exact values_of_end hbelow hend hlimit
  · exact fun hover => hend (overruns_iff.mp hover _ hlimit)

end

/-! ## Ranges -/

/-- **Ranges of integers.** Where the expressions of a term come to integers of at most two to the power of 53, with a
step of one or more, the term has the values that it is written for, all of them below the end and as many as
`integerCount` says. The values of a list of terms are those of its terms, one after the other. While a range is gone
through, the same range can be gone through in each round, from its first value on. -/
theorem integer_ranges {ω : Type} (setup : Setup ω) (apply : Apply ω) (scope : Scope) (hlimit : 2 ^ 54 < setup.limits.values) :
    let limit := setup.limits.values
    let terms := evalTerms setup apply scope
    (∀ n : ℤ, |n| ≤ 2 ^ 53 → ∃ x, IsInteger x n) ∧
    (∀ (a b c : Expr) (u v w : Value) (s₀ s₁ s₂ s₃ : State ω) (s d e : ℤ), (c.eval setup apply scope).run s₀ = (.ok w, s₁) →
      (b.eval setup apply scope).run s₁ = (.ok v, s₂) → (a.eval setup apply scope).run s₂ = (.ok u, s₃) →
      IsInteger u.toNumber s → IsInteger v.toNumber d → IsInteger w.toNumber e → 1 ≤ d →
      ∃ xs : List Float, List.Forall₂ IsInteger xs (integers s d e) ∧ (∀ x ∈ xs, x < w.toNumber) ∧
        ∀ (α : Type) (f : α → Value → Run ω α) (r : α),
          (foldRange limit f r (terms [.stepped a b c])).run s₀ = ((xs.map .number).foldlM f r).run s₃) ∧
    (∀ ts us : List Term,
      (∀ (α : Type) (f : α → Value → Run ω α) (r : α), foldRange limit f r (terms (ts ++ us)) =
        (do foldRange limit f (← foldRange limit f r (terms ts)) (terms us))) ∧
      rangeValues limit (terms (ts ++ us)) = (do
        let vs ← rangeValues limit (terms ts)
        return vs ++ (← rangeValues limit (terms us)))) ∧
    (∀ (ts : List Term) (ps : List Progression) (s : State ω),
      List.Forall₂ (fun m p => m.run s = (.ok p, s) ∧ ¬ p.Overruns limit) (terms ts) ps →
      let vs := ps.flatMap (·.values limit)
      (rangeValues limit (terms ts)).run s = (.ok vs, s) ∧
        (foldRange limit (fun pairs v => return pairs ++ [(v, ← rangeValues limit (terms ts))]) [] (terms ts)).run s =
          (.ok (vs.map fun v => (v, vs)), s)) := by
  intro limit terms
  refine ⟨fun n => exists_isInteger, ?_, ?_, ?_⟩
  · intro a b c u v w s₀ s₁ s₂ s₃ s d e hc hb ha hs hd he h1
    obtain ⟨m, hm, hrun⟩ := evalTerms_stepped setup apply scope hc hb ha
    obtain ⟨xs, hxs, hbelow, hvalues⟩ := stepped_integers hs hd he h1
    obtain ⟨hvalues, hover⟩ := hvalues limit ((integerCount_le hs he h1).trans_lt hlimit)
    refine ⟨xs, hxs, hbelow, fun α f r => ?_⟩
    rw [show terms [.stepped a b c] = [m] from hm, foldRange_one_run hrun, Progression.fold_through hover, hvalues]
  · intro ts us
    have happend : terms (ts ++ us) = terms ts ++ terms us := evalTerms_append setup apply scope ts us
    rw [happend]
    exact ⟨fun α f r => foldRange_append limit _ _ r, rangeValues_append limit _ _⟩
  · intro ts ps s hterms vs
    have hvalues : (rangeValues limit (terms ts)).run s = (.ok vs, s) := rangeValues_run hterms
    refine ⟨hvalues, foldRange_gather_kept (fun pairs v => ?_) hterms⟩
    rw [run_bind, hvalues]
    rfl

def integerLiteral (n : ℤ) : Expr := .number ⟨"<input>", 1, 1, ""⟩ (Double.ofInt n)

theorem integer_ranges_literals : ∃ xs : List Float, List.Forall₂ IsInteger xs [1, 2, 3] ∧ (∀ x ∈ xs, x < Double.ofInt 4) ∧
    ∀ (α : Type) (f : α → Value → Run String α) (r : α),
      (foldRange Setup.plain.limits.values f r (evalTerms Setup.plain (applyAt Setup.plain 500) []
        [.stepped (integerLiteral 1) (integerLiteral 1) (integerLiteral 4)])).run (Setup.plain.start "") =
        ((xs.map .number).foldlM f r).run (Setup.plain.start "") := by
  have hfour : IsInteger (Double.ofInt 4) 4 := isInteger_of_parts (k := 50) (by decide) (by decide +kernel)
  obtain ⟨-, hvalues, -⟩ := integer_ranges Setup.plain (applyAt Setup.plain 500) [] (by decide)
  obtain ⟨xs, hxs, hbelow, hfold⟩ := hvalues (integerLiteral 1) (integerLiteral 1) (integerLiteral 4) (.number (Double.ofInt 1))
    (.number (Double.ofInt 1)) (.number (Double.ofInt 4)) _ _ _ (Setup.plain.start "") 1 1 4 rfl rfl rfl
    isInteger_one isInteger_one hfour le_rfl
  have hcount : integers 1 1 4 = [1, 2, 3] := by decide +kernel
  exact ⟨xs, hcount ▸ hxs, hbelow, hfold⟩

end JossLang
