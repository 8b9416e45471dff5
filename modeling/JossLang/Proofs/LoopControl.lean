import JossLang.Proofs.ReadOnlyEvaluation

/-!
# Loop control

What a loop of `Do` goes through is settled by the loop and not by the steps that it runs: a count is evaluated before
the first run, and the values of a term when the term is reached (`do_loop_control`). Whatever the steps assign, the
runs that are still to come are the same.
-/

namespace JossLang

variable {ω : Type}

/-! ## Counts -/

namespace Double

def value (x : Float) : ℚ := (if isNegative x then -1 else 1) * ((magnitude x).mantissa * 2 ^ (magnitude x).exponent)

theorem Magnitude.whole_eq (a : Magnitude) : (a.whole : ℤ) = ⌊(a.mantissa * 2 ^ a.exponent : ℚ)⌋ := by
  unfold whole
  by_cases he : a.exponent ≥ 0
  · obtain ⟨n, hn⟩ := Int.eq_ofNat_of_zero_le he
    rw [if_pos he, hn]
    simp only [Int.toNat_natCast, Nat.pow_eq]
    rw [zpow_natCast]
    exact_mod_cast (Int.floor_natCast (R := ℚ) (a.mantissa * 2 ^ n)).symm
  · obtain ⟨n, hn⟩ := Int.eq_ofNat_of_zero_le (show 0 ≤ -a.exponent by omega)
    rw [if_neg he, show a.exponent = -(n : ℤ) by omega]
    simp only [neg_neg, Int.toNat_natCast, Nat.pow_eq]
    rw [zpow_neg, zpow_natCast, ← div_eq_mul_inv]
    exact_mod_cast (Rat.floor_natCast_div_natCast a.mantissa (2 ^ n)).symm

theorem Magnitude.ceil_eq (a : Magnitude) : ⌈(a.mantissa * 2 ^ a.exponent : ℚ)⌉ =
    if a.exponent < 0 ∧ a.whole * Nat.pow 2 (-a.exponent).toNat < a.mantissa then (a.whole : ℤ) + 1 else a.whole := by
  by_cases he : a.exponent ≥ 0
  · obtain ⟨n, hn⟩ := Int.eq_ofNat_of_zero_le he
    rw [if_neg (by omega), whole, if_pos he, hn]
    simp only [Int.toNat_natCast, Nat.pow_eq]
    rw [zpow_natCast]
    exact_mod_cast Int.ceil_natCast (R := ℚ) (a.mantissa * 2 ^ n)
  · obtain ⟨n, hn⟩ := Int.eq_ofNat_of_zero_le (show 0 ≤ -a.exponent by omega)
    have hpos : (0 : ℚ) < 2 ^ n := by positivity
    have hlow : a.mantissa / 2 ^ n * 2 ^ n ≤ a.mantissa := Nat.div_mul_le_self ..
    have hhigh : a.mantissa < (a.mantissa / 2 ^ n + 1) * 2 ^ n := Nat.lt_mul_of_div_lt (Nat.lt_succ_self _) (by positivity)
    have hwhole : n = 0 → a.mantissa ≤ a.mantissa / 2 ^ n * 2 ^ n := by
      intro hn
      simp [hn]
    rw [whole, if_neg he, show a.exponent = -(n : ℤ) by omega]
    simp only [neg_neg, Int.toNat_natCast, Nat.pow_eq]
    rw [zpow_neg, zpow_natCast, ← div_eq_mul_inv]
    generalize a.mantissa / 2 ^ n = q at hlow hhigh hwhole
    split
    · next hrest =>
      rw [Int.ceil_eq_iff, lt_div_iff₀ hpos, div_le_iff₀ hpos]
      constructor
      · push_cast
        rw [add_sub_cancel_right]
        exact_mod_cast hrest.2
      · exact_mod_cast le_of_lt hhigh
    · next hrest =>
      have hall : a.mantissa ≤ q * 2 ^ n := by
        by_cases hn : n = 0
        · exact hwhole hn
        · exact not_lt.mp fun hlt => hrest ⟨by omega, hlt⟩
      rw [Int.ceil_eq_iff, lt_div_iff₀ hpos, div_le_iff₀ hpos]
      constructor
      · have hstep : (q : ℚ) * 2 ^ n ≤ a.mantissa := by exact_mod_cast hlow
        push_cast
        linarith
      · exact_mod_cast hall

theorem floor_eq (x : Float) : floor x = ⌊value x⌋ := by
  unfold floor value
  by_cases hx : isNegative x = true
  · simp only [if_pos hx]
    rw [neg_one_mul, Int.floor_neg, Magnitude.ceil_eq]
    split <;> rfl
  · simp only [if_neg hx]
    rw [one_mul, ← Magnitude.whole_eq]

end Double

theorem repetitions?_of_finite {x : Float} (h : x.isFinite = true) : repetitions? x = some (max 0 ⌊Double.value x⌋).toNat := by
  rw [repetitions?, if_pos h, Double.floor_eq]
  congr 1
  omega

theorem not_lt_of_isNaN {x y : Float} (h : y.isNaN = true) : ¬ x < y := by
  intro hlt
  have hlt : (x.toModel.unpack.compare y.toModel.unpack == some .lt) = true := of_decide_eq_true (show x.lt y = true from hlt)
  have h : y.toModel.unpack.isNaN = true := h
  generalize x.toModel.unpack = a at hlt
  generalize y.toModel.unpack = b at hlt h
  cases b with
  | notANumber => cases a <;> cases hlt
  | _ => cases h

theorem repetitions?_of_isNaN {x : Float} (h : x.isNaN = true) : repetitions? x = some 0 := by
  have hfinite : ¬ x.isFinite = true := by
    intro hx
    have h : x.toModel.unpack.isNaN = true := h
    have hx : x.toModel.unpack.isFinite = true := hx
    generalize x.toModel.unpack = a at h hx
    cases a with
    | notANumber => cases hx
    | _ => cases h
  rw [repetitions?, if_neg hfinite, if_neg (not_lt_of_isNaN h)]

theorem repetitions?_below : repetitions? (Double.infinity true) = some 0 := by
  decide +kernel

theorem repetitions?_eq_zero {x : Float} (h : x.isNaN = true ∨ x = Double.infinity true) : repetitions? x = some 0 := by
  rcases h with hnan | rfl
  · exact repetitions?_of_isNaN hnan
  · exact repetitions?_below

/-! ## Runs in turn -/

inductive Complete : List (Run ω Unit) → State ω → State ω → Prop where
  | nil (s : State ω) : Complete [] s s
  | cons {m : Run ω Unit} {ms : List (Run ω Unit)} {s t u : State ω} : m.run s = (.ok (), t) → Complete ms t u →
      Complete (m :: ms) s u

theorem Complete.snoc {m : Run ω Unit} {t : State ω} : ∀ {ms : List (Run ω Unit)} {s : State ω}, Complete (ms ++ [m]) s t →
    ∃ u, Complete ms s u ∧ m.run u = (.ok (), t)
  | [], s, h => by
    cases h with
    | cons hm h =>
      cases h
      exact ⟨s, .nil s, hm⟩
  | _ :: _, s, h => by
    cases h with
    | cons hk h =>
      obtain ⟨u, hall, hm⟩ := snoc h
      exact ⟨u, .cons hk hall, hm⟩

/-- All runs succeed, or those before one do, this one fails, and none behind it is begun. -/
inductive InTurn (ms : List (Run ω Unit)) (s : State ω) : Except Failure Unit × State ω → Prop where
  | complete {t : State ω} : Complete ms s t → InTurn ms s (.ok (), t)
  | failed {before after : List (Run ω Unit)} {m : Run ω Unit} {f : Failure} {t u : State ω} : ms = before ++ m :: after →
      Complete before s t → m.run t = (.error f, u) → InTurn ms s (.error f, u)

namespace InTurn

variable {m : Run ω Unit} {ms : List (Run ω Unit)} {s t : State ω} {r r' : Except Failure Unit × State ω}

theorem cons_ok (hm : m.run s = (.ok (), t)) : InTurn (m :: ms) s r ↔ InTurn ms t r := by
  constructor
  · intro h
    cases h with
    | complete h => cases h with
      | cons hm' h =>
        cases hm.symm.trans hm'
        exact .complete h
    | @failed before _ _ _ _ _ hms hbefore hfail =>
      cases hbefore with
      | nil =>
        cases hms
        cases hm.symm.trans hfail
      | cons hm' hbefore =>
        cases hms
        cases hm.symm.trans hm'
        exact .failed rfl hbefore hfail
  · intro h
    cases h with
    | complete h => exact .complete (.cons hm h)
    | failed hms hbefore hfail => exact .failed (by rw [hms]; rfl) (.cons hm hbefore) hfail

theorem cons_error {f : Failure} (hm : m.run s = (.error f, t)) : InTurn (m :: ms) s r ↔ r = (.error f, t) := by
  constructor
  · intro h
    cases h with
    | complete h => cases h with
      | cons hm' _ => cases hm.symm.trans hm'
    | failed hms hbefore hfail =>
      cases hbefore with
      | nil =>
        cases hms
        exact hfail.symm.trans hm
      | cons hm' _ =>
        cases hms
        cases hm.symm.trans hm'
  · rintro rfl
    exact .failed (List.nil_append (m :: ms)).symm (.nil s) hm

theorem unique : ∀ {ms : List (Run ω Unit)} {s : State ω}, InTurn ms s r → InTurn ms s r' → r = r'
  | [], s, h, h' => by
    have hnil : ∀ {r}, InTurn [] s r → r = (.ok (), s) := by
      intro r h
      cases h with
      | complete h => cases h; rfl
      | failed hms => simp at hms
    rw [hnil h, hnil h']
  | m :: ms, s, h, h' => by
    rcases run_cases m s with ⟨_, t, hm⟩ | ⟨f, t, hm⟩
    · exact unique ((cons_ok hm).mp h) ((cons_ok hm).mp h')
    · rw [(cons_error hm).mp h, (cons_error hm).mp h']

end InTurn

theorem repeatRun_inTurn (m : Run ω Unit) : ∀ (n : Nat) (s : State ω), InTurn (List.replicate n m) s ((repeatRun m n).run s)
  | 0, s => .complete (.nil s)
  | n + 1, s => by
    rw [repeatRun, run_bind, List.replicate_succ]
    rcases run_cases m s with ⟨_, t, hm⟩ | ⟨f, t, hm⟩
    · rw [hm, InTurn.cons_ok hm]
      exact repeatRun_inTurn m n t
    · rw [hm, InTurn.cons_error hm]

/-! ## Terms -/

/-- The values of a term, as they are once its expressions have been evaluated; of more than can be gone through, the
first ones. -/
def Progression.values (limit : Nat) : Progression → List Value
  | .single v => [v]
  | .stepped start step stop => ((List.iterate (· + step) start limit).takeWhile fun x => decide (x < stop)).map (.number ·)

def Progression.Overruns (limit : Nat) : Progression → Prop
  | .single _ => False
  | p => limit ≤ (p.values limit).length

/-- The values of a term are gone through: of those for which a round is begun, every one but the last has a complete
round. -/
inductive Progression.Goes (round : Value → Run ω Unit) (limit : Nat) (p : Progression) (s : State ω) :
    List Value → Except Failure Unit × State ω → Prop where
  | through {t : State ω} : ¬ p.Overruns limit → Complete ((p.values limit).map round) s t →
      Goes round limit p s (p.values limit) (.ok (), t)
  | failed {before after : List Value} {v : Value} {f : Failure} {t u : State ω} : p.values limit = before ++ v :: after →
      Complete (before.map round) s t → (round v).run t = (.error f, u) →
      Goes round limit p s (before ++ [v]) (.error f, u)
  | overrun {t : State ω} : p.Overruns limit → Complete ((p.values limit).map round) s t →
      Goes round limit p s (p.values limit) (.error .endless, t)

theorem foldSteps_goes (round : Value → Run ω Unit) (step stop : Float) : ∀ (limit : Nat) (x : Float) (s : State ω),
    ∃ vs, (Progression.stepped x step stop).Goes round limit s vs
      ((foldSteps (fun _ v => round v) step stop limit () x).run s)
  | 0, x, s => ⟨_, .overrun (Nat.le_refl 0) (.nil s)⟩
  | limit + 1, x, s => by
    rw [foldSteps]
    by_cases hx : x < stop
    · have hvalues : (Progression.stepped x step stop).values (limit + 1) =
          .number x :: (Progression.stepped (x + step) step stop).values limit := by
        simp [Progression.values, List.iterate, hx]
      -- one value more than from the next start, and one value more is allowed
      have hoverruns : (Progression.stepped x step stop).Overruns (limit + 1) ↔
          (Progression.stepped (x + step) step stop).Overruns limit := by
        simp only [Progression.Overruns, hvalues, List.length_cons]
        omega
      rw [if_pos hx, run_bind]
      rcases run_cases (round (.number x)) s with ⟨_, t, hround⟩ | ⟨f, t, hround⟩
      · rw [hround]
        obtain ⟨vs, hgoes⟩ := foldSteps_goes round step stop limit (x + step) t
        dsimp only
        generalize (foldSteps (fun _ v => round v) step stop limit () (x + step)).run t = r at hgoes
        cases hgoes with
        | through hend hall => exact ⟨_, .through (mt hoverruns.mp hend) (by rw [hvalues]; exact .cons hround hall)⟩
        | failed hms hbefore hfail =>
          have hsplit := hvalues.trans (congrArg (.number x :: ·) hms)
          rw [← List.cons_append] at hsplit
          exact ⟨_, .failed hsplit (.cons hround hbefore) hfail⟩
        | overrun hend hall => exact ⟨_, .overrun (hoverruns.mpr hend) (by rw [hvalues]; exact .cons hround hall)⟩
      · rw [hround]
        exact ⟨_, .failed (hvalues.trans (List.nil_append _).symm) (.nil s) hround⟩
    · have hvalues : (Progression.stepped x step stop).values (limit + 1) = [] := by
        simp [Progression.values, List.iterate, hx]
      rw [if_neg hx]
      refine ⟨_, .through ?_ (by rw [hvalues]; exact .nil s)⟩
      simp [Progression.Overruns, hvalues]

namespace Progression

theorem fold_goes (round : Value → Run ω Unit) (limit : Nat) (p : Progression) (s : State ω) :
    ∃ vs, p.Goes round limit s vs ((p.fold limit (fun _ v => round v) ()).run s) := by
  cases p with
  | single v =>
    rw [fold]
    rcases run_cases (round v) s with ⟨_, t, hround⟩ | ⟨f, t, hround⟩
    · rw [hround]
      exact ⟨_, .through id (.cons hround (.nil t))⟩
    · rw [hround]
      exact ⟨_, .failed (List.nil_append [v]).symm (.nil s) hround⟩
  | stepped start step stop => exact foldSteps_goes round step stop limit start s

variable {round : Value → Run ω Unit} {limit : Nat} {p : Progression} {s : State ω} {vs vs' : List Value}
  {r r' : Except Failure Unit × State ω}

/-- The rounds of the values go in turn; only what overruns may end otherwise. -/
theorem Goes.inTurn (h : p.Goes round limit s vs r) :
    ∃ q, InTurn ((p.values limit).map round) s q ∧ (p.Overruns limit ∧ q.1 = .ok () ∧ r = (.error .endless, q.2) ∨
      ¬ (p.Overruns limit ∧ q.1 = .ok ()) ∧ r = q) := by
  cases h with
  | through hend hall => exact ⟨_, .complete hall, .inr ⟨fun h => hend h.1, rfl⟩⟩
  | failed hvalues hbefore hfail =>
    refine ⟨_, .failed (by rw [hvalues, List.map_append, List.map_cons]) hbefore hfail, .inr ⟨?_, rfl⟩⟩
    exact fun h => by cases h.2
  | overrun hend hall => exact ⟨_, .complete hall, .inl ⟨hend, rfl, rfl⟩⟩

theorem Goes.unique (h : p.Goes round limit s vs r) (h' : p.Goes round limit s vs' r') : r = r' := by
  obtain ⟨q, hq, hr⟩ := h.inTurn
  obtain ⟨q', hq', hr'⟩ := h'.inTurn
  cases hq.unique hq'
  rcases hr with ⟨hend, hok, rfl⟩ | ⟨hend, rfl⟩
  · rcases hr' with ⟨_, _, rfl⟩ | ⟨hend', _⟩
    · rfl
    · exact absurd ⟨hend, hok⟩ hend'
  · rcases hr' with ⟨hend', hok, _⟩ | ⟨_, rfl⟩
    · exact absurd ⟨hend', hok⟩ hend
    · rfl

theorem Goes.state_eq (h : p.Goes round limit s vs r) (hvs : vs = []) : r.2 = s := by
  cases h with
  | through _ hall =>
    rw [hvs] at hall
    cases hall
    rfl
  | failed => simp at hvs
  | overrun _ hall =>
    rw [hvs] at hall
    cases hall
    rfl

theorem Goes.last_round {t : State ω} {v : Value} (h : p.Goes round limit s vs (.ok (), t)) (hlast : vs.getLast? = some v) :
    ∃ u, (round v).run u = (.ok (), t) := by
  cases h with
  | through _ hall =>
    obtain ⟨before, hvalues⟩ := List.getLast?_eq_some_iff.mp hlast
    rw [hvalues, List.map_append] at hall
    obtain ⟨u, -, hround⟩ := hall.snoc
    exact ⟨u, hround⟩

end Progression

/-! ## Ranges -/

/-- The terms of a range are gone through from the left: each is evaluated when it is reached, in the state that the
rounds before it have left. The values for which a round is begun are told. -/
inductive RangeGoes (round : Value → Run ω Unit) (limit : Nat) :
    List (Run ω Progression) → State ω → List Value → Except Failure Unit × State ω → Prop where
  | done (s : State ω) : RangeGoes round limit [] s [] (.ok (), s)
  | unevaluated {term : Run ω Progression} {terms : List (Run ω Progression)} {s t : State ω} {f : Failure} :
      term.run s = (.error f, t) → RangeGoes round limit (term :: terms) s [] (.error f, t)
  | stopped {term : Run ω Progression} {terms : List (Run ω Progression)} {p : Progression} {s t u : State ω} {f : Failure}
      {vs : List Value} : term.run s = (.ok p, t) → p.Goes round limit t vs (.error f, u) →
      RangeGoes round limit (term :: terms) s vs (.error f, u)
  | next {term : Run ω Progression} {terms : List (Run ω Progression)} {p : Progression} {s t u : State ω}
      {vs ws : List Value} {r : Except Failure Unit × State ω} : term.run s = (.ok p, t) →
      p.Goes round limit t vs (.ok (), u) → RangeGoes round limit terms u ws r →
      RangeGoes round limit (term :: terms) s (vs ++ ws) r

theorem foldRange_goes (round : Value → Run ω Unit) (limit : Nat) : ∀ (terms : List (Run ω Progression)) (s : State ω),
    ∃ vs, RangeGoes round limit terms s vs ((foldRange limit (fun _ v => round v) () terms).run s)
  | [], s => ⟨[], .done s⟩
  | term :: terms, s => by
    rw [foldRange, run_bind]
    rcases run_cases term s with ⟨p, t, hterm⟩ | ⟨f, t, hterm⟩
    · rw [hterm]
      dsimp only
      rw [run_bind]
      obtain ⟨vs, hgoes⟩ := p.fold_goes round limit t
      generalize (p.fold limit (fun _ v => round v) ()).run t = r at hgoes
      obtain ⟨f | ⟨⟩, u⟩ := r
      · exact ⟨vs, .stopped hterm hgoes⟩
      · obtain ⟨ws, hrest⟩ := foldRange_goes round limit terms u
        exact ⟨vs ++ ws, .next hterm hgoes hrest⟩
    · rw [hterm]
      exact ⟨[], .unevaluated hterm⟩

def afterTerms : List (Run ω Progression) → State ω → State ω
  | [], s => s
  | term :: terms, s => afterTerms terms (term.run s).2

theorem environment_afterTerms {terms : List (Run ω Progression)} (h : ∀ term ∈ terms, ReadsOnly term) (s : State ω) :
    (afterTerms terms s).environment = s.environment := by
  induction terms generalizing s with
  | nil => rfl
  | cons term terms ih =>
    obtain ⟨hterm, hterms⟩ := List.forall_mem_cons.mp h
    rw [afterTerms, ih hterms]
    exact (hterm s).sameStore.environment

namespace RangeGoes

variable {round : Value → Run ω Unit} {limit : Nat} {terms : List (Run ω Progression)} {s : State ω} {vs vs' : List Value}
  {r r' : Except Failure Unit × State ω}

theorem unique (h : RangeGoes round limit terms s vs r) : ∀ {vs' r'}, RangeGoes round limit terms s vs' r' → r = r' := by
  induction h with
  | done s =>
    intro vs' r' h'
    cases h'
    rfl
  | unevaluated hterm =>
    intro vs' r' h'
    cases h' with
    | unevaluated hterm' =>
      cases hterm.symm.trans hterm'
      rfl
    | stopped hterm' _ => cases hterm.symm.trans hterm'
    | next hterm' _ _ => cases hterm.symm.trans hterm'
  | stopped hterm hgoes =>
    intro vs' r' h'
    cases h' with
    | unevaluated hterm' => cases hterm.symm.trans hterm'
    | stopped hterm' hgoes' =>
      cases hterm.symm.trans hterm'
      exact hgoes.unique hgoes'
    | next hterm' hgoes' _ =>
      cases hterm.symm.trans hterm'
      cases hgoes.unique hgoes'
  | next hterm hgoes _ ih =>
    intro vs' r' h'
    cases h' with
    | unevaluated hterm' => cases hterm.symm.trans hterm'
    | stopped hterm' hgoes' =>
      cases hterm.symm.trans hterm'
      cases hgoes.unique hgoes'
    | next hterm' hgoes' hrest =>
      cases hterm.symm.trans hterm'
      cases hgoes.unique hgoes'
      exact ih hrest

theorem state_eq (h : RangeGoes round limit terms s vs r) (hvs : vs = []) :
    ∃ reached rest, terms = reached ++ rest ∧ r.2 = afterTerms reached s := by
  induction h with
  | @done s => exact ⟨[], [], rfl, rfl⟩
  | @unevaluated term terms s t f hterm =>
    refine ⟨[term], terms, rfl, ?_⟩
    rw [afterTerms, hterm]
    rfl
  | @stopped term terms p s t u f vs hterm hgoes =>
    refine ⟨[term], terms, rfl, ?_⟩
    rw [hgoes.state_eq hvs, afterTerms, hterm]
    rfl
  | @next term terms p s t u vs ws r hterm hgoes _ ih =>
    obtain ⟨hvs, hws⟩ := List.append_eq_nil_iff.mp hvs
    obtain ⟨reached, rest, rfl, hstate⟩ := ih hws
    obtain rfl : u = t := hgoes.state_eq hvs
    refine ⟨term :: reached, rest, rfl, ?_⟩
    rw [hstate, afterTerms, hterm]

theorem environment_eq (h : RangeGoes round limit terms s vs r) (hvs : vs = [])
    (hterms : ∀ term ∈ terms, ReadsOnly term) : r.2.environment = s.environment := by
  obtain ⟨reached, rest, rfl, hstate⟩ := h.state_eq hvs
  rw [hstate]
  exact environment_afterTerms (fun term hmem => hterms term (List.mem_append_left rest hmem)) s

theorem last_round (h : RangeGoes round limit terms s vs r) : ∀ {t v}, r = (.ok (), t) → vs.getLast? = some v →
    ∃ u w earlier later, (round v).run u = (.ok (), w) ∧ terms = earlier ++ later ∧
      RangeGoes round limit later w [] (.ok (), t) := by
  induction h with
  | done s => nofun
  | unevaluated _ => nofun
  | stopped _ _ => nofun
  | @next term terms p s t u vs ws r hterm hgoes hrest ih =>
    intro t' v hr hlast
    cases hws : ws.getLast? with
    | some v' =>
      obtain ⟨u', w, earlier, later, hround, rfl, hlater⟩ := ih hr hws
      rw [List.getLast?_append, hws] at hlast
      cases hlast
      exact ⟨u', w, term :: earlier, later, hround, rfl, hlater⟩
    | none =>
      rw [List.getLast?_append, hws] at hlast
      rw [List.getLast?_eq_none_iff.mp hws, hr] at hrest
      obtain ⟨u', hround⟩ := hgoes.last_round hlast
      exact ⟨u', u, [term], terms, hround, rfl, hrest⟩

end RangeGoes

/-! ## Loops of `Do` -/

def bindLoop (x : String) (v : Value) : Run ω Unit := do
  setEnvironment (← orRaise none ((← get).environment.setScalar x v))

theorem bindLoop_ok {x : String} {v : Value} {s t : State ω} (h : (bindLoop x v).run s = (.ok (), t)) :
    ∃ a, v = .scalar a ∧ t = { s with environment := s.environment.bind x (.scalar a) } := by
  cases v with
  | scalar a =>
    cases h
    exact ⟨a, rfl, rfl⟩
  | function f => cases h

theorem evalTerms_readsOnly {setup : Setup ω} (hfunctions : ∀ g ∈ setup.registry.functions, ∀ args pos, ReadsOnly (g.run args pos))
    (depth : Nat) (scope : Scope) (ts : List Term) : ∀ term ∈ evalTerms setup (applyAt setup depth) scope ts, ReadsOnly term := by
  intro term hmem s
  have h := (evaluates_intact hfunctions s).lawful
  have hagree :=
    List.forall₂_same.mp (Lockstep.agree_evalTerms h (Lockstep.agree_applyAt h (d := depth) (.inl rfl)) ts scope) term hmem
  exact (Lockstep.alone_agree_iff.mp hagree).state (.refl s)

theorem Loop.run_each (setup : Setup ω) (target : Run ω Unit) (x : String) (range : Range) :
    (Loop.each x range).run setup target = foldRange setup.limits.values (fun _ v => do bindLoop x v; target) ()
      (evalTerms setup (applyAt setup setup.limits.calls) [] range.terms) := by
  rw [Loop.run]
  congr 1
  funext _ v
  simp only [bindLoop, bind_assoc]

theorem Loop.run_times (setup : Setup ω) (target : Run ω Unit) {count : Expr} {s t : State ω} {v : Value} {n : Nat}
    (hcount : (evaluate setup count).run s = (.ok v, t)) (hn : repetitions? v.toNumber = some n) :
    ((Loop.times count).run setup target).run s = (repeatRun target n).run t := by
  rw [Loop.run, run_bind, hcount]
  dsimp only
  rw [hn]

/-- Behind the binding of the last value and its run of the target there are only terms without a value. -/
theorem RangeGoes.last_binding {x : String} {target : Run ω Unit} {limit : Nat} {terms : List (Run ω Progression)}
    {s t : State ω} {vs : List Value} {v : Value}
    (h : RangeGoes (fun v => do bindLoop x v; target) limit terms s vs (.ok (), t)) (hlast : vs.getLast? = some v) :
    ∃ (u w : State ω) (a : Scalar) (earlier later : List (Run ω Progression)), v = .scalar a ∧
      target.run { u with environment := u.environment.bind x (.scalar a) } = (.ok (), w) ∧ terms = earlier ++ later ∧
      RangeGoes (fun v => do bindLoop x v; target) limit later w [] (.ok (), t) := by
  obtain ⟨u, w, earlier, later, hround, hsplit, hlater⟩ := h.last_round rfl hlast
  obtain ⟨_, b, hbind, htarget⟩ := run_bind_ok hround
  obtain ⟨a, rfl, rfl⟩ := bindLoop_ok hbind
  exact ⟨u, w, a, earlier, later, rfl, htarget, hsplit, hlater⟩

/-- **Loop control.** A count is evaluated once, and then there are as many runs of the target as its floor says, or none
if it is negative, no number, or negative infinity. A range is gone through in one way only: each term is evaluated when
it is reached, and then every value that it has is bound and the target run. Without values terms are evaluated and
nothing else is done; otherwise the last binding is of the last value. A run that fails ends the loop in the state that
it has left. -/
theorem do_loop_control (setup : Setup ω) (runStep : StepRunner ω) (pos : Location) (goal : Goal) (s : State ω) :
    let target := runGoal runStep goal pos
    let result := fun loop => ((Verb.perform pos goal loop).run setup runStep).run s
    let readsOnly := ∀ g ∈ setup.registry.functions, ∀ args pos, ReadsOnly (g.run args pos)
    (∀ count f t, (evaluate setup count).run s = (.error f, t) → result (.times count) = (.error f, t)) ∧
      (∀ count v t, (evaluate setup count).run s = (.ok v, t) →
        (v.toNumber.isFinite = true → ∀ r,
          InTurn (List.replicate (max 0 ⌊Double.value v.toNumber⌋).toNat target) t r ↔ r = result (.times count)) ∧
        (v.toNumber.isNaN = true ∨ v.toNumber = Double.infinity true → result (.times count) = (.ok (), t))) ∧
      ∀ x range,
        let round := fun v => do bindLoop x v; target
        let limit := setup.limits.values
        let terms := evalTerms setup (applyAt setup setup.limits.calls) [] range.terms
        ∃ vs, RangeGoes round limit terms s vs (result (.each x range)) ∧
          (∀ ws r, RangeGoes round limit terms s ws r → r = result (.each x range)) ∧
          (vs = [] → ∃ reached rest, terms = reached ++ rest ∧ (result (.each x range)).2 = afterTerms reached s) ∧
          (vs = [] → readsOnly → (result (.each x range)).2.environment = s.environment) ∧
          ∀ v t, vs.getLast? = some v → result (.each x range) = (.ok (), t) →
            ∃ (u w : State ω) (a : Scalar) (earlier later : List (Run ω Progression)), v = .scalar a ∧
              target.run { u with environment := u.environment.bind x (.scalar a) } = (.ok (), w) ∧
              terms = earlier ++ later ∧ RangeGoes round limit later w [] (.ok (), t) ∧
              (readsOnly → t.environment = w.environment) := by
  intro target result readsOnly
  refine ⟨?_, ?_, ?_⟩
  · intro count f t hcount
    show ((Loop.times count).run setup target).run s = _
    rw [Loop.run, run_bind, hcount]
  · intro count v t hcount
    constructor
    · intro hfinite r
      have hruns := repeatRun_inTurn target (max 0 ⌊Double.value v.toNumber⌋).toNat t
      rw [← Loop.run_times setup target hcount (repetitions?_of_finite hfinite)] at hruns
      exact ⟨fun h => h.unique hruns, fun h => h ▸ hruns⟩
    · intro hnone
      exact Loop.run_times setup target hcount (repetitions?_eq_zero hnone)
  · intro x range round limit terms
    have heach : result (.each x range) = (foldRange limit (fun _ v => round v) () terms).run s :=
      congrArg (fun m => m.run s) (Loop.run_each setup target x range)
    obtain ⟨vs, hgoes⟩ := foldRange_goes round limit terms s
    rw [← heach] at hgoes
    have hterms : readsOnly → ∀ term ∈ terms, ReadsOnly term := fun hfunctions => evalTerms_readsOnly hfunctions _ _ _
    refine ⟨vs, hgoes, fun ws r h => h.unique hgoes, hgoes.state_eq, ?_, ?_⟩
    · intro hvs hfunctions
      exact hgoes.environment_eq hvs (hterms hfunctions)
    · intro v t hlast hr
      rw [hr] at hgoes
      -- behind the last binding come its round and terms without values, which are only evaluated
      obtain ⟨u, w, a, earlier, later, hv, htarget, hsplit, hlater⟩ := hgoes.last_binding hlast
      refine ⟨u, w, a, earlier, later, hv, htarget, hsplit, hlater, fun hfunctions => ?_⟩
      refine hlater.environment_eq rfl fun term hmem => hterms hfunctions term ?_
      exact hsplit ▸ List.mem_append_right earlier hmem

/-- Steps that assign the variable of the loop and the end of its first term, before the second term is reached. -/
example :
    let ls := ["1.1 Type i.", "1.2 Set i = 7.", "1.3 Set b = 9.", "Set b = 3.", "Do part 1 for i = 1(1)b, b."]
    (evaluateLines Setup.plain ls (Setup.plain.start "")).2.world = "1\n2\n9\n" := by
  decide +kernel

end JossLang
