import JossLang.Proofs.ExecutionAgreement
import JossLang.Proofs.ProgramsAlike

/-!
# Sessions in step

Two sessions go in step when all that they compute has the same results, while
their states stay related in some way (`Agree`). How states are related is a
parameter, and so is what may be said of them after a failure.

Evaluation goes in step when the primitives do that it is made of:
`evaluate_agree`. The right session may go further than the left one before it
gives up, if reaching a limit is excused.
-/

namespace JossLang

variable {ω ω' α : Type}

structure Limits.Within (l l' : Limits) : Prop where
  steps : l.steps ≤ l'.steps
  calls : l.calls ≤ l'.calls
  values : l'.values = l.values

/-- Two sessions, each in a world of its own, how their states are related while they go in step and after a failure of
both, and the failures of the left one after which nothing is said of the right one. -/
structure Lockstep (ω ω' : Type) where
  left : Setup ω
  right : Setup ω'
  states : State ω → State ω' → Prop
  failed : Failure → State ω → State ω' → Prop
  excused : Failure → State ω → Prop

namespace Lockstep

variable (C : Lockstep ω ω')

inductive Outcome {α : Type} : Except Failure α × State ω → Except Failure α × State ω' → Prop where
  | ok {a : α} {t : State ω} {t' : State ω'} : C.states t t' → Outcome (.ok a, t) (.ok a, t')
  | error {f : Failure} {t : State ω} {t' : State ω'} : C.failed f t t' → Outcome (.error f, t) (.error f, t')
  | excused {f : Failure} {t : State ω} {r : Except Failure α × State ω'} : C.excused f t → Outcome (.error f, t) r

def Agree {α : Type} (m : Run ω α) (m' : Run ω' α) : Prop := ∀ s s', C.states s s' → C.Outcome (m.run s) (m'.run s')

variable {C}

section
variable {β : Type}

theorem Outcome.bind {m : Run ω α} {m' : Run ω' α} {f : α → Run ω β} {f' : α → Run ω' β} {s : State ω} {s' : State ω'}
    (h : C.Outcome (m.run s) (m'.run s'))
    (hf : ∀ a, C.Agree (f a) (f' a)) : C.Outcome ((m >>= f).run s) ((m' >>= f').run s') := by
  rw [run_bind, run_bind]
  generalize m.run s = r at h
  generalize m'.run s' = r' at h
  cases h with
  | ok ht => exact hf _ _ _ ht
  | error ht => exact .error ht
  | excused ht => exact .excused ht

theorem Agree.bind {m : Run ω α} {m' : Run ω' α} {f : α → Run ω β} {f' : α → Run ω' β} (h : C.Agree m m')
    (hf : ∀ a, C.Agree (f a) (f' a)) : C.Agree (m >>= f) (m' >>= f') := fun s s' hs => (h s s' hs).bind hf

theorem agree_pure (a : α) : C.Agree (pure a) (pure a) := fun _ _ hs => .ok hs

theorem agree_get {f : State ω → Run ω α} {f' : State ω' → Run ω' α}
    (h : ∀ s s', C.states s s' → C.Outcome ((f s).run s) ((f' s').run s')) : C.Agree (get >>= f) (get >>= f') := h

theorem agree_modify {g : State ω → State ω} {g' : State ω' → State ω'}
    (h : ∀ s s', C.states s s' → C.states (g s) (g' s')) : C.Agree (modify g) (modify g') := fun s s' hs => .ok (h s s' hs)

end

/-! ## Lawful pairs -/

structure FunctionsAgree (C : Lockstep ω ω') (f : AddedFunction ω) (f' : AddedFunction ω') : Prop where
  name : f.name = f'.name
  arity : f.arity = f'.arity
  run : ∀ args pos, C.Agree (f.run args pos) (f'.run args pos)

/-- The right session has the same limits, or further ones if those of the left one are excused. -/
def LimitsAgree (C : Lockstep ω ω') : Prop :=
  C.right.limits = C.left.limits ∨ C.left.limits.Within C.right.limits ∧ ∀ s, C.excused .limit s

def Depths (C : Lockstep ω ω') (d d' : Nat) : Prop := d' = d ∨ d ≤ d' ∧ ∀ s, C.excused .limit s

/-- What two sessions must have in common for evaluation to go in step: what can be read of a state, the
marks, and the added functions. -/
structure Lawful (C : Lockstep ω ω') : Prop where
  limits : C.LimitsAgree
  elementary : C.right.elementary = C.left.elementary
  functions : List.Forall₂ C.FunctionsAgree C.left.registry.functions C.right.registry.functions
  raised : ∀ cause pos s s', C.states s s' → C.failed (.error (.runtime { cause := cause, pos := pos })) s s'
  limit : ∀ s s', C.states s s' → C.failed .limit s s'
  endless : ∀ s s', C.states s s' → C.failed .endless s s'
  names : ∀ s s', C.states s s' → ∀ isBuiltin x, s'.environment.get? isBuiltin x = s.environment.get? isBuiltin x
  elements : ∀ serial indices pos, C.Agree (do orRaise pos (((← get).environment.table serial).get indices))
    (do orRaise pos (((← get).environment.table serial).get indices))
  marks : ∀ s s', C.states s s' → s'.marks = s.marks ∧
    C.states { s with marks := s.marks + 1 } { s' with marks := s'.marks + 1 }

namespace Lawful

variable (hC : C.Lawful)
include hC

theorem isBuiltin : C.right.isBuiltin = C.left.isBuiltin := by
  have hany : ∀ name, C.right.registry.functions.any (·.name == name) = C.left.registry.functions.any (·.name == name) := by
    intro name
    have h := hC.functions
    generalize C.left.registry.functions = fs at h ⊢
    generalize C.right.registry.functions = fs' at h ⊢
    induction h with
    | nil => rfl
    | cons hf _ ih => rw [List.any_cons, List.any_cons, ih, hf.name]
  funext name
  simp only [Setup.isBuiltin, hany]

theorem agree_raise (cause : Cause) (pos : Option Location) :
    C.Agree (raise cause pos : Run ω α) (raise cause pos) := fun s s' hs => .error (hC.raised cause pos s s' hs)

theorem agree_limit : C.Agree (throw .limit : Run ω α) (throw .limit) := fun s s' hs => .error (hC.limit s s' hs)

theorem agree_endless : C.Agree (throw .endless : Run ω α) (throw .endless) := fun s s' hs => .error (hC.endless s s' hs)

theorem values : C.right.limits.values = C.left.limits.values := by
  rcases hC.limits with h | ⟨h, -⟩
  · rw [h]
  · exact h.values

theorem calls : C.Depths C.left.limits.calls C.right.limits.calls :=
  hC.limits.imp (fun h => by rw [h]) fun ⟨h, he⟩ => ⟨h.calls, he⟩

theorem steps : C.Depths C.left.limits.steps C.right.limits.steps :=
  hC.limits.imp (fun h => by rw [h]) fun ⟨h, he⟩ => ⟨h.steps, he⟩

end Lawful

theorem Depths.pred {d d' : Nat} (h : C.Depths (d + 1) (d' + 1)) : C.Depths d d' :=
  h.imp Nat.succ_inj.mp fun h => ⟨Nat.le_of_succ_le_succ h.1, h.2⟩

theorem Depths.not_zero {d : Nat} (h : C.Depths (d + 1) 0) : False := by
  rcases h with h | ⟨h, -⟩ <;> omega

theorem Depths.excused {d : Nat} (h : C.Depths 0 (d + 1)) (s : State ω) : C.excused .limit s := by
  rcases h with h | ⟨-, h⟩
  · omega
  · exact h s

theorem agree_elements (henv : ∀ s s', C.states s s' → s'.environment = s.environment)
    (hraised : ∀ cause pos s s', C.states s s' → C.failed (.error (.runtime { cause := cause, pos := pos })) s s')
    (serial : Nat) (indices : List Index) (pos : Option Location) :
    C.Agree (do orRaise pos (((← get).environment.table serial).get indices))
      (do orRaise pos (((← get).environment.table serial).get indices)) := by
  refine agree_get fun s s' hs => ?_
  rw [henv s s' hs]
  cases (s.environment.table serial).get indices with
  | ok v => exact .ok hs
  | error cause => exact .error (hraised cause pos s s' hs)

/-! ## Ranges -/

section
variable (hC : C.Lawful) {f : α → Value → Run ω α} {f' : α → Value → Run ω' α} (hf : ∀ a v, C.Agree (f a v) (f' a v))
include hC hf

theorem agree_foldSteps (step stop : Float) : ∀ (limit : Nat) (a : α) (x : Float),
    C.Agree (foldSteps f step stop limit a x) (foldSteps f' step stop limit a x)
  | 0, _, _ => hC.agree_endless
  | limit + 1, a, x => by
    rw [foldSteps, foldSteps]
    split
    · exact (hf a _).bind fun b => agree_foldSteps step stop limit b _
    · exact agree_pure a

theorem agree_fold (limit : Nat) (a : α) (p : Progression) : C.Agree (p.fold limit f a) (p.fold limit f' a) := by
  cases p with
  | single v => exact hf a v
  | stepped start step stop => exact agree_foldSteps hC hf step stop limit a start

theorem agree_foldRange (limit : Nat) {terms : List (Run ω Progression)} {terms' : List (Run ω' Progression)}
    (ht : List.Forall₂ C.Agree terms terms') : ∀ a, C.Agree (foldRange limit f a terms) (foldRange limit f' a terms') := by
  induction ht with
  | nil => exact agree_pure
  | cons hm _ ih =>
    intro a
    rw [foldRange, foldRange]
    exact hm.bind fun p => (agree_fold hC hf limit a p).bind ih

end

/-! ## Expressions -/

def Applies (C : Lockstep ω ω') (apply : Apply ω) (apply' : Apply ω') : Prop :=
  ∀ f args pos, C.Agree (apply f args pos) (apply' f args pos)

section
variable (hC : C.Lawful)
include hC

theorem agree_valueOf (scope : Scope) (name : String) (pos : Location) :
    C.Agree (valueOf C.left scope name pos) (valueOf C.right scope name pos) := by
  unfold valueOf
  rw [hC.isBuiltin]
  cases scope.lookup name with
  | some v => exact agree_pure v
  | none =>
    refine agree_get fun s s' hs => ?_
    rw [hC.names s s' hs]
    cases s.environment.get? C.left.isBuiltin name with
    | some v => exact .ok hs
    | none => exact hC.agree_raise (.unbound name) pos s s' hs

theorem agree_marked (v : Value) : C.Agree (marked v) (marked v) := by
  unfold marked
  split
  · split
    · next x _ _ =>
      intro s s' hs
      obtain ⟨hmarks, hnext⟩ := hC.marks s s' hs
      have hvalue : Value.number x (s'.marks + 1) = .number x (s.marks + 1) := by rw [hmarks]
      show C.Outcome (.ok (Value.number x (s.marks + 1)), { s with marks := s.marks + 1 })
        (.ok (Value.number x (s'.marks + 1)), { s' with marks := s'.marks + 1 })
      rw [hvalue]
      exact .ok hnext
    · exact agree_pure _
  · exact agree_pure _

end

section
variable {apply : Apply ω} {apply' : Apply ω'}

mutual

theorem agree_eval (hC : C.Lawful) (ha : C.Applies apply apply') : ∀ (e : Expr) (scope : Scope),
    C.Agree (e.eval C.left apply scope) (e.eval C.right apply' scope)
  | .number _ x, _ => by
    rw [Expr.eval, Expr.eval]
    exact agree_pure _
  | .reference pos name indices, scope => by
    rw [Expr.eval, Expr.eval]
    refine (agree_valueOf hC scope name pos).bind fun v => ?_
    cases v with
    | scalar s => exact agree_pure _
    | function f =>
      dsimp only
      split
      · exact agree_pure _
      · exact (agree_evalAll hC ha indices scope).bind fun args => ha f args pos
  | .binary _ o lhs rhs, scope => by
    obtain ⟨f, hf, -⟩ := o.operation
    rw [Expr.eval, Expr.eval, hf]
    exact (agree_eval hC ha lhs scope).bind fun a => (agree_eval hC ha rhs scope).bind fun b => agree_marked hC (f a b)
  | .conditional _ branches otherwise, scope => by
    rw [Expr.eval, Expr.eval]
    refine (agree_evalBranches hC ha branches scope).bind fun o => ?_
    cases o with
    | some v => exact agree_pure v
    | none => exact agree_eval hC ha otherwise scope
  | .reduction pos function loopVar (.mk _ terms) body, scope => by
    rw [Expr.eval, Expr.eval]
    refine (agree_valueOf hC scope function pos).bind fun v => ?_
    cases v with
    | scalar s => exact hC.agree_raise (.notAFunction function) pos
    | function f =>
      rw [hC.values]
      refine (agree_foldRange hC (fun results v => ?_) _ (agree_evalTerms hC ha terms scope) []).bind fun results =>
        ha f results.reverse pos
      exact (agree_eval hC ha body ((loopVar, v) :: scope)).bind fun _ => agree_pure _

theorem agree_evalAll (hC : C.Lawful) (ha : C.Applies apply apply') : ∀ (es : List Expr) (scope : Scope),
    C.Agree (evalAll C.left apply scope es) (evalAll C.right apply' scope es)
  | [], _ => by
    rw [evalAll, evalAll]
    exact agree_pure _
  | e :: es, scope => by
    rw [evalAll, evalAll]
    exact (agree_eval hC ha e scope).bind fun v => (agree_evalAll hC ha es scope).bind fun vs => agree_pure _

theorem agree_evalBranches (hC : C.Lawful) (ha : C.Applies apply apply') : ∀ (bs : List Branch) (scope : Scope),
    C.Agree (evalBranches C.left apply scope bs) (evalBranches C.right apply' scope bs)
  | [], _ => by
    rw [evalBranches, evalBranches]
    exact agree_pure _
  | .mk condition result :: bs, scope => by
    rw [evalBranches, evalBranches]
    refine (agree_eval hC ha condition scope).bind fun v => ?_
    split
    · exact (agree_eval hC ha result scope).bind fun _ => agree_pure _
    · exact agree_evalBranches hC ha bs scope

theorem agree_evalTerms (hC : C.Lawful) (ha : C.Applies apply apply') : ∀ (ts : List Term) (scope : Scope),
    List.Forall₂ C.Agree (evalTerms C.left apply scope ts) (evalTerms C.right apply' scope ts)
  | [], _ => by
    rw [evalTerms, evalTerms]
    exact .nil
  | .single value :: ts, scope => by
    rw [evalTerms, evalTerms]
    exact .cons ((agree_eval hC ha value scope).bind fun _ => agree_pure _) (agree_evalTerms hC ha ts scope)
  | .stepped start step stop :: ts, scope => by
    rw [evalTerms, evalTerms]
    refine .cons ?_ (agree_evalTerms hC ha ts scope)
    exact (agree_eval hC ha stop scope).bind fun _ => (agree_eval hC ha step scope).bind fun _ =>
      (agree_eval hC ha start scope).bind fun _ => agree_pure _

end

end

/-! ## Calls -/

section
variable (hC : C.Lawful)
include hC

theorem agree_applyBuiltin (name : String) (args : List Value) (pos : Location) :
    C.Agree (applyBuiltin C.left name args pos) (applyBuiltin C.right name args pos) := by
  unfold applyBuiltin
  split
  · next b _ =>
    split
    · exact hC.agree_raise _ _
    · rw [hC.elementary]
      exact agree_marked hC _
  · have hfound := forall₂_find? (f := (·.name == name)) (g := (·.name == name))
      (fun f f' hf => by rw [hf.name]) hC.functions
    generalize C.left.registry.functions.find? (·.name == name) = o at hfound ⊢
    generalize C.right.registry.functions.find? (·.name == name) = o' at hfound ⊢
    cases hfound with
    | none => exact hC.agree_raise _ _
    | some hf =>
      dsimp only
      rw [hf.arity]
      split
      · exact hC.agree_raise _ _
      · exact hf.run args pos

omit hC in
theorem applyAt_builtin (setup : Setup ω) (d : Nat) (name : String) (args : List Value) (pos : Location) :
    applyAt setup d (.builtin name) args pos = applyBuiltin setup name args pos := by
  cases d <;> rw [applyAt]

omit hC in
theorem applyAt_array (setup : Setup ω) (d serial : Nat) (name : String) (args : List Value) (pos : Location) :
    applyAt setup d (.array serial name) args pos =
      (do orRaise pos (((← get).environment.table serial).get (args.map Value.toIndex))) := by
  cases d <;> rw [applyAt]

theorem agree_applyAt {d d' : Nat} (hd : C.Depths d d') : C.Applies (applyAt C.left d) (applyAt C.right d') := by
  induction d generalizing d' with
  | zero =>
    intro f args pos
    cases f with
    | builtin name => rw [applyAt_builtin, applyAt_builtin]; exact agree_applyBuiltin hC name args pos
    | array serial _ => rw [applyAt_array, applyAt_array]; exact hC.elements serial _ pos
    | user _ function => cases d' with
      | zero =>
        rw [applyAt, applyAt]
        split
        · exact hC.agree_raise _ _
        · exact hC.agree_limit
      | succ d' =>
        rw [applyAt, applyAt]
        split
        · exact hC.agree_raise _ _
        · exact fun s _ _ => .excused (hd.excused s)
  | succ d ih =>
    obtain _ | d' := d'
    · exact hd.not_zero.elim
    intro f args pos
    cases f with
    | builtin name => rw [applyAt_builtin, applyAt_builtin]; exact agree_applyBuiltin hC name args pos
    | array serial _ => rw [applyAt_array, applyAt_array]; exact hC.elements serial _ pos
    | user _ function =>
      rw [applyAt, applyAt]
      split
      · exact hC.agree_raise _ _
      · exact agree_eval hC (ih hd.pred) function.body (function.scope args)

/-- **Evaluation** goes in step. -/
theorem evaluate_agree (e : Expr) : C.Agree (evaluate C.left e) (evaluate C.right e) :=
  agree_eval hC (agree_applyAt hC hC.calls) e []

end

end Lockstep

end JossLang
