import JossLang.Proofs.Comparison

/-!
# Evaluation of expressions that are alike

Expressions that are alike have values that are alike: `evaluate_agree`. The
induction is on the likeness of the trees; how functions are applied is a
parameter, which `applyAt` fills by induction on the depth of calls.
-/

namespace JossLang

variable {ω α β : Type}

/-! ## Scopes and progressions -/

def ScopesAlike (L : Likeness) (arrays : Nat) : Scope → Scope → Prop :=
  List.Forall₂ fun e e' => e.1 = e'.1 ∧ e.2.Alike L arrays e'.2

inductive ProgressionsAlike (L : Likeness) (arrays : Nat) : Progression → Progression → Prop where
  | single {v w : Value} : v.Alike L arrays w → ProgressionsAlike L arrays (.single v) (.single w)
  | stepped (start step stop : Float) :
      ProgressionsAlike L arrays (.stepped start step stop) (.stepped start step stop)

section
variable {L : Likeness} {n k : Nat} {scope scope' : Scope}

theorem ScopesAlike.mono (h : ScopesAlike L n scope scope') (hk : n ≤ k) : ScopesAlike L k scope scope' :=
  h.imp fun _ _ he => ⟨he.1, he.2.mono hk⟩

theorem ScopesAlike.bind (h : ScopesAlike L n scope scope') (x : String) {v w : Value} (hv : v.Alike L n w) :
    ScopesAlike L n ((x, v) :: scope) ((x, w) :: scope') := .cons ⟨rfl, hv⟩ h

theorem ScopesAlike.lookup (h : ScopesAlike L n scope scope') (x : String) :
    Option.Rel (Value.Alike L n) (scope.lookup x) (scope'.lookup x) := by
  have hl := forall₂_lookup (fun _ _ he => he.1) x h
  generalize scope.lookup x = o at hl ⊢
  generalize scope'.lookup x = o' at hl ⊢
  cases hl with
  | none => exact .none
  | some hv =>
    obtain ⟨_, -, -, hv⟩ := hv
    exact .some hv

theorem valuesAlike_mono {vs ws : List Value} (h : List.Forall₂ (Value.Alike L n) vs ws) (hk : n ≤ k) :
    List.Forall₂ (Value.Alike L k) vs ws := h.imp fun _ _ hv => hv.mono hk

theorem scopesAlike_call (name : String) (params : List String) (body body' : Expr) {vs ws : List Value}
    (h : List.Forall₂ (Value.Alike L n) vs ws) :
    ScopesAlike L n (UserFunction.scope ⟨name, params, body⟩ vs) (UserFunction.scope ⟨name, params, body'⟩ ws) := by
  refine List.forall₂_reverse_iff.mpr ?_
  induction params generalizing vs ws with
  | nil => exact .nil
  | cons x params ih => cases h with
    | nil => exact .nil
    | cons hv h => exact .cons ⟨rfl, hv⟩ (ih h)

end

namespace Comparison

variable {C : Comparison ω} (hC : C.Lawful) {n : Nat}

section
variable {Q : Nat → α → β → Prop} (hQ : ∀ k i a b, k ≤ i → Q k a b → Q i a b) {f : α → Value → Run ω α}
  {f' : β → Value → Run ω β} (hf : ∀ k, n ≤ k → ∀ a b v w, Q k a b → v.Alike C.like k w → C.Agree k (f a v) (f' b w) Q)
include hC hQ hf

theorem agree_foldSteps (step stop : Float) : ∀ (limit k : Nat), n ≤ k → ∀ a b (x : Float), Q k a b →
    C.Agree k (foldSteps f step stop limit a x) (foldSteps f' step stop limit b x) Q
  | 0, _, _, _, _, _, _ => hC.agree_endless
  | limit + 1, k, hk, a, b, x, hab => by
    rw [foldSteps, foldSteps]
    split
    · refine (hf k hk a b _ _ hab (.scalar _)).bind fun i hi a' b' hab' => ?_
      exact agree_foldSteps step stop limit i (hk.trans hi) a' b' _ hab'
    · exact agree_pure fun i hi => hQ k i a b hi hab

theorem agree_fold (limit : Nat) {k : Nat} (hk : n ≤ k) {a : α} {b : β} (hab : Q k a b) {p p' : Progression}
    (hp : ProgressionsAlike C.like k p p') : C.Agree k (p.fold limit f a) (p'.fold limit f' b) Q := by
  cases hp with
  | single hv => exact hf k hk a b _ _ hab hv
  | stepped start step stop => exact agree_foldSteps hC hQ hf step stop limit k hk a b start hab

theorem agree_foldRange (limit : Nat) {terms terms' : List (Run ω Progression)}
    (ht : List.Forall₂ (fun m m' => ∀ k, n ≤ k → C.Agree k m m' (ProgressionsAlike C.like)) terms terms') :
    ∀ k, n ≤ k → ∀ a b, Q k a b → C.Agree k (foldRange limit f a terms) (foldRange limit f' b terms') Q := by
  induction ht with
  | nil => exact fun k _ a b hab => agree_pure fun i hi => hQ k i a b hi hab
  | cons hm _ ih =>
    intro k hk a b hab
    rw [foldRange, foldRange]
    refine (hm k hk).bind fun i hi p p' hp => ?_
    refine (agree_fold hC hQ hf limit (hk.trans hi) (hQ k i a b hi hab) hp).bind fun j hj a' b' hab' => ?_
    exact ih j (hk.trans (hi.trans hj)) a' b' hab'

end

/-! ## Expressions -/

def Applies (C : Comparison ω) (apply apply' : Apply ω) : Prop :=
  ∀ n f f' args args' pos pos', f.Alike C.like n f' → List.Forall₂ (Value.Alike C.like n) args args' →
    C.like.place pos pos' → C.Agree n (apply f args pos) (apply' f' args' pos') (Value.Alike C.like)

include hC in
theorem agree_valueOf {scope scope' : Scope} (hs : ScopesAlike C.like n scope scope') (name : String)
    {pos pos' : Location} (hp : C.like.place pos pos') :
    C.Agree n (valueOf C.left scope name pos) (valueOf C.right scope' name pos') (Value.Alike C.like) := by
  have hl := hs.lookup name
  unfold valueOf
  generalize scope.lookup name = o at hl ⊢
  generalize scope'.lookup name = o' at hl ⊢
  cases hl with
  | some hv => exact agree_pure fun k hk => hv.mono hk
  | none =>
    refine agree_get fun s s' hn hw => ?_
    have hg := hw.environment.get? name
    rw [← hC.isBuiltin, hC.isBuiltin_right]
    generalize s.environment.get? C.like.isBuiltin name = o at hg ⊢
    generalize s'.environment.get? C.like.isBuiltin name = o' at hg ⊢
    cases hg with
    | some hv => exact .ok hn hw hv
    | none => exact hC.agree_raise (.unbound name) trivial (.some hp) s s' hn hw

theorem agree_marked (s : Scalar) : C.Agree n (marked (.scalar s)) (marked (.scalar s)) (Value.Alike C.like) := by
  cases s with
  | truth b => exact agree_pure fun _ _ => .scalar _
  | number x m =>
    unfold marked
    dsimp only
    split
    · refine fun s s' hn hw => .ok hn ⟨⟨⟨hw.environment, hw.typed, congrArg (· + 1) hw.marks, hw.worlds⟩, hw.programs⟩, hw.last⟩ ?_
      show Value.Alike C.like _ (.number x (s.marks + 1)) (.number x (s'.marks + 1))
      rw [hw.marks]
      exact .scalar _
    · exact agree_pure fun _ _ => .scalar _

section
variable {apply apply' : Apply ω}

mutual

theorem agree_eval (hC : C.Lawful) (ha : C.Applies apply apply') : ∀ {e e' : Expr}, e.Alike C.like.place e' →
    ∀ {n : Nat} {scope scope' : Scope}, ScopesAlike C.like n scope scope' →
    C.Agree n (e.eval C.left apply scope) (e'.eval C.right apply' scope') (Value.Alike C.like)
  | .number _ _, _, .number x _, _, _, _, _ => by
    rw [Expr.eval, Expr.eval]
    exact agree_pure fun _ _ => .scalar _
  | .reference _ _ _, _, .reference name hp hi, n, _, _, hs => by
    rw [Expr.eval, Expr.eval]
    refine (agree_valueOf hC hs name hp).bind fun k hk v w hv => ?_
    cases hv with
    | scalar s => exact agree_pure fun _ _ => .scalar _
    | function hf =>
      have hargs := agree_evalAll hC ha hi (hs.mono hk)
      cases hi with
      | nil => exact agree_pure fun i hi => .function (hf.mono hi)
      | cons => exact hargs.bind fun i hi as bs hab => ha i _ _ _ _ _ _ (hf.mono hi) hab hp
  | .binary _ _ _ _, _, .binary o _ hl hr, n, _, _, hs => by
    obtain ⟨f, hl', hf⟩ := o.operation
    rw [Expr.eval, Expr.eval, hl']
    refine (agree_eval hC ha hl hs).bind fun k hk a a' haa => (agree_eval hC ha hr (hs.mono hk)).bind fun i hi b b' hbb => ?_
    obtain ⟨s, hr⟩ := operation_scalar hf a' b'
    rw [operation_alike hf (haa.mono hi) hbb, hr]
    exact agree_marked s
  | .conditional _ _ _, _, .conditional _ hb ho, n, _, _, hs => by
    rw [Expr.eval, Expr.eval]
    refine (agree_evalBranches hC ha hb hs).bind fun k hk o o' hoo => ?_
    cases hoo with
    | some hv => exact agree_pure fun i hi => hv.mono hi
    | none => exact agree_eval hC ha ho (hs.mono hk)
  | .reduction _ _ _ (.mk _ _) _, _, .reduction f v hp (.mk _ ht) hb, n, _, _, hs => by
    rw [Expr.eval, Expr.eval]
    refine (agree_valueOf hC hs f hp).bind fun k hk g g' hg => ?_
    cases hg with
    | scalar s => exact hC.agree_raise (.notAFunction f) trivial (.some hp)
    | function hg =>
      rw [hC.limits]
      refine (agree_foldRange hC (Q := fun i as bs => List.Forall₂ (Value.Alike C.like i) as bs)
        (fun _ _ _ _ hij hab => valuesAlike_mono hab hij) (fun i hi as bs x y hab hxy => ?_) _
        (agree_evalTerms hC ha ht (hs.mono hk)) k le_rfl [] [] .nil).bind fun i hi as bs hab => ?_
      · refine (agree_eval hC ha hb ((hs.mono (hk.trans hi)).bind v hxy)).bind fun j hj c d hcd => ?_
        exact agree_pure fun l hl => .cons (hcd.mono hl) (valuesAlike_mono hab (hj.trans hl))
      · exact ha i _ _ _ _ _ _ (hg.mono hi) (List.forall₂_reverse_iff.mpr hab) hp
termination_by structural e => e

theorem agree_evalAll (hC : C.Lawful) (ha : C.Applies apply apply') :
    ∀ {es es' : List Expr}, List.Forall₂ (Expr.Alike C.like.place) es es' →
    ∀ {n : Nat} {scope scope' : Scope}, ScopesAlike C.like n scope scope' →
    C.Agree n (evalAll C.left apply scope es) (evalAll C.right apply' scope' es')
      fun k vs ws => List.Forall₂ (Value.Alike C.like k) vs ws
  | [], _, .nil, _, _, _, _ => by
    rw [evalAll, evalAll]
    exact agree_pure fun _ _ => .nil
  | _ :: _, _, .cons he hes, _, _, _, hs => by
    rw [evalAll, evalAll]
    refine (agree_eval hC ha he hs).bind fun k hk v w hv => (agree_evalAll hC ha hes (hs.mono hk)).bind fun i hi vs ws hvs => ?_
    exact agree_pure fun j hj => .cons (hv.mono (hi.trans hj)) (valuesAlike_mono hvs hj)
termination_by structural es => es

theorem agree_evalBranches (hC : C.Lawful) (ha : C.Applies apply apply') :
    ∀ {bs bs' : List Branch}, List.Forall₂ (Branch.Alike C.like.place) bs bs' →
    ∀ {n : Nat} {scope scope' : Scope}, ScopesAlike C.like n scope scope' →
    C.Agree n (evalBranches C.left apply scope bs) (evalBranches C.right apply' scope' bs')
      fun k => Option.Rel (Value.Alike C.like k)
  | [], _, .nil, _, _, _, _ => by
    rw [evalBranches, evalBranches]
    exact agree_pure fun _ _ => .none
  | .mk _ _ :: _, _, .cons (.mk hc hr) hb, _, _, _, hs => by
    rw [evalBranches, evalBranches]
    refine (agree_eval hC ha hc hs).bind fun k hk v w hv => ?_
    rw [hv.toTruth]
    split
    · exact (agree_eval hC ha hr (hs.mono hk)).bind fun i hi x y hx => agree_pure fun j hj => .some (hx.mono hj)
    · exact agree_evalBranches hC ha hb (hs.mono hk)
termination_by structural bs => bs

theorem agree_evalTerms (hC : C.Lawful) (ha : C.Applies apply apply') :
    ∀ {ts ts' : List Term}, List.Forall₂ (Term.Alike C.like.place) ts ts' →
    ∀ {n : Nat} {scope scope' : Scope}, ScopesAlike C.like n scope scope' →
    List.Forall₂ (fun m m' => ∀ k, n ≤ k → C.Agree k m m' (ProgressionsAlike C.like))
      (evalTerms C.left apply scope ts) (evalTerms C.right apply' scope' ts')
  | [], _, .nil, _, _, _, _ => by
    rw [evalTerms, evalTerms]
    exact .nil
  | .single _ :: _, _, .cons (.single he) ht, n, _, _, hs => by
    rw [evalTerms, evalTerms]
    refine .cons (fun k hk => ?_) (agree_evalTerms hC ha ht hs)
    exact (agree_eval hC ha he (hs.mono hk)).bind fun i _ v w hv => agree_pure fun j hj => .single (hv.mono hj)
  | .stepped _ _ _ :: _, _, .cons (.stepped hx hy hz) ht, n, _, _, hs => by
    rw [evalTerms, evalTerms]
    refine .cons (fun k hk => ?_) (agree_evalTerms hC ha ht hs)
    refine (agree_eval hC ha hz (hs.mono hk)).bind fun i hi c c' hcc => ?_
    refine (agree_eval hC ha hy (hs.mono (hk.trans hi))).bind fun j hj b b' hbb => ?_
    refine (agree_eval hC ha hx (hs.mono (hk.trans (hi.trans hj)))).bind fun l _ a a' haa => ?_
    rw [haa.toNumber, hbb.toNumber, hcc.toNumber]
    exact agree_pure fun _ _ => .stepped _ _ _
termination_by structural ts => ts

end

end

/-! ## Calls -/

theorem deliberate_of_fault {a : Arity} {name : String} {supplied : Nat} {c : Cause}
    (h : a.fault? name supplied = some c) : c.Deliberate := by
  unfold Arity.fault? at h
  split at h
  · cases h; trivial
  · split at h
    · split at h
      · cases h; trivial
      · cases h
    · cases h

section
include hC

theorem agree_added {f : AddedFunction ω} (hf : f ∈ C.left.registry.functions) {args args' : List Value}
    (ha : List.Forall₂ (Value.Alike C.like n) args args') {pos pos' : Location} (hp : C.like.place pos pos') :
    C.Agree n (f.run args pos) (f.run args' pos') (Value.Alike C.like) := by
  intro s s' hn hw
  have hblind : f.Blind C.like.isBuiltin C.worlds := hC.isBuiltin ▸ hC.left.functions f hf
  obtain ⟨hr, hstates, hk, hk'⟩ := hblind C.like.place C.like.turned args args' pos pos' s s'
    (valuesAlike_mono ha hn) hp hw.toAlike
  have hpossible := hC.added f hf args pos s
  generalize (f.run args pos).run s = r at hr hstates hk hpossible ⊢
  generalize (f.run args' pos').run s' = r' at hr hstates hk' ⊢
  obtain ⟨result, t⟩ := r
  obtain ⟨result', t'⟩ := r'
  have hwithin : C.Within t t' := by
    refine ⟨⟨hstates, ?_⟩, ?_⟩
    · rw [hk.program, hk'.program]
      exact hw.programs
    · rw [hk.log, hk'.log]
      exact hw.last
  cases hr with
  | value hv => exact .ok (hn.trans hk.arrays) hwithin hv
  | failure he => exact .error hwithin ⟨he, hpossible _ _ rfl⟩

theorem agree_applyBuiltin (name : String) {args args' : List Value}
    (ha : List.Forall₂ (Value.Alike C.like n) args args') {pos pos' : Location} (hp : C.like.place pos pos') :
    C.Agree n (applyBuiltin C.left name args pos) (applyBuiltin C.right name args' pos') (Value.Alike C.like) := by
  unfold applyBuiltin
  rw [hC.functions, ← ha.length_eq]
  split
  · next b _ =>
    split
    · next c hc => exact hC.agree_raise c (deliberate_of_fault hc) (.some hp)
    · obtain ⟨s, hs⟩ := b.apply_scalar C.left.elementary args'
      rw [hC.elementary, Builtin.apply_alike ha _ b, hs]
      exact agree_marked s
  · split
    · next f hf =>
      split
      · next c hc => exact hC.agree_raise c (deliberate_of_fault hc) (.some hp)
      · exact agree_added hC (List.mem_of_find?_eq_some hf) ha hp
    · exact hC.agree_raise (.unbound name) trivial (.some hp)

theorem agree_element {serial : Nat} {args args' : List Value} (ha : List.Forall₂ (Value.Alike C.like n) args args')
    {pos pos' : Location} (hp : C.like.place pos pos') :
    C.Agree n (do orRaise pos (((← get).environment.table serial).get (args.map Value.toIndex)))
      (do orRaise pos' (((← get).environment.table serial).get (args'.map Value.toIndex))) (Value.Alike C.like) := by
  refine agree_get fun s s' hn hw => ?_
  have hg := (hw.environment.tables serial).get (args.map Value.toIndex)
  rw [← map_eq_of_alike ha fun _ _ => Value.Alike.toIndex]
  generalize (s.environment.table serial).get (args.map Value.toIndex) = r at hg ⊢
  generalize (s'.environment.table serial).get (args.map Value.toIndex) = r' at hg ⊢
  cases hg with
  | element hv => exact .ok hn hw hv
  | dimensions a d d' => exact hC.agree_raise (.wrongDimensions a d d') trivial (.some hp) s s' hn hw
  | missing a is => exact hC.agree_raise (.missingElement a is) trivial (.some hp) s s' hn hw

theorem agree_applyAt : ∀ depth, C.Applies (applyAt C.left depth) (applyAt C.right depth) := by
  intro depth
  induction depth with
  | zero =>
    intro n f f' args args' pos pos' hf ha hp
    cases hf with
    | builtin _ => rw [applyAt, applyAt]; exact agree_applyBuiltin hC _ ha hp
    | array _ _ => rw [applyAt, applyAt]; exact agree_element hC ha hp
    | user serial name params hb =>
      rw [applyAt, applyAt, ← ha.length_eq]
      split
      · exact hC.agree_raise (.wrongArguments _ _ _) trivial (.some hp)
      · exact hC.agree_limit
  | succ depth ih =>
    intro n f f' args args' pos pos' hf ha hp
    cases hf with
    | builtin _ => rw [applyAt, applyAt]; exact agree_applyBuiltin hC _ ha hp
    | array _ _ => rw [applyAt, applyAt]; exact agree_element hC ha hp
    | user serial name params hb =>
      rw [applyAt, applyAt, ← ha.length_eq]
      split
      · exact hC.agree_raise (.wrongArguments _ _ _) trivial (.some hp)
      · exact agree_eval hC ih hb (scopesAlike_call name params _ _ ha)

/-- **Evaluation.** Expressions that are alike have values that are alike. -/
theorem evaluate_agree {e e' : Expr} (he : e.Alike C.like.place e') :
    C.Agree n (evaluate C.left e) (evaluate C.right e') (Value.Alike C.like) := by
  unfold evaluate
  rw [hC.limits]
  exact agree_eval hC (agree_applyAt hC _) he .nil

end

end Comparison

end JossLang
