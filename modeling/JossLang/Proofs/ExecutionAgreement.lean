import JossLang.Proofs.EvaluationAgreement

/-!
# Execution of commands that are alike

Commands that are alike take states that are alike to states that are alike
(`command_outcome`), or the right session parts from the left one: they agree on
what is typed, on the bindings, and on how they end, until an element of a turned
name is set.

A command records itself before anything else, so the last locations in the
logs are alike inside of it even where they were not before. The right session
may have less depth left for steps inside one another, if reaching its limit is
excused.
-/

namespace JossLang.Comparison

variable {ω : Type} {C : Comparison ω} (hC : C.Lawful) {n : Nat}

/-! ## Parting -/

section
variable {α β : Type} {P : Nat → α → β → Prop}

/-- From states that are alike, two computations end alike, or the right session has parted. -/
def Goes (C : Comparison ω) (arrays : Nat) (m m' : Run ω Unit) : Prop :=
  ∀ s s', arrays ≤ s.arrays → C.Within s s' →
    C.parted arrays (m'.run s').2.environment ∨ C.Outcome arrays Any (m.run s) (m'.run s')

theorem Agree.goes {m m' : Run ω Unit} (h : C.Agree n m m' Any) : C.Goes n m m' := fun s s' hn hw => .inr (h s s' hn hw)

theorem Tame.bind {m : Run ω α} {f : α → Run ω β} (h : C.Tame m) (hf : ∀ a, C.Tame (f a)) : C.Tame (m >>= f) := by
  intro n s hs
  have ht := h n s hs
  rw [run_bind]
  generalize m.run s = r at ht
  obtain ⟨f | a, t⟩ := r
  · exact ht
  · exact hf a n t ht

theorem tame_of_environment {m : Run ω α} (h : ∀ s, (m.run s).2.environment = s.environment) : C.Tame m := fun n s hs => by
  rwa [h]

theorem tame_throw (f : Failure) : C.Tame (throw f : Run ω α) := tame_of_environment fun _ => rfl

theorem tame_of_watches {m : Run ω Unit} (h : Watches C.worlds m) : C.Tame m := tame_of_environment fun s => by
  obtain ⟨w, hm, -⟩ := h s
  rw [hm]

section
include hC

theorem Outcome.then {m : Run ω α} {m' : Run ω β} {f : α → Run ω Unit} {f' : β → Run ω Unit} {s s' : State ω}
    (h : C.Outcome n P (m.run s) (m'.run s')) (hf : ∀ k, n ≤ k → ∀ a b, P k a b → C.Goes k (f a) (f' b)) :
    C.parted n ((m' >>= f').run s').2.environment ∨ C.Outcome n Any ((m >>= f).run s) ((m' >>= f').run s') := by
  rw [run_bind, run_bind]
  generalize m.run s = r at h
  generalize m'.run s' = r' at h
  cases h with
  | ok hk ht ha => exact (hf _ hk _ _ ha _ _ le_rfl ht).imp (hC.earlier _ _ _ hk) fun ho => ho.mono hk fun _ _ _ _ => id
  | error ht he => exact .inr (.error ht he)
  | excused he => exact .inr (.excused he)
  | excused' he => exact .inr (.excused' he)

theorem Agree.then {m : Run ω α} {m' : Run ω β} {f : α → Run ω Unit} {f' : β → Run ω Unit} (h : C.Agree n m m' P)
    (hf : ∀ k, n ≤ k → ∀ a b, P k a b → C.Goes k (f a) (f' b)) : C.Goes n (m >>= f) (m' >>= f') :=
  fun s s' hn hw => (h s s' hn hw).then hC hf

theorem Goes.then {m m' : Run ω Unit} {f f' : Unit → Run ω Unit} (h : C.Goes n m m') (ht : C.Tame (f' ()))
    (hf : ∀ k, n ≤ k → C.Goes k (f ()) (f' ())) : C.Goes n (m >>= f) (m' >>= f') := by
  intro s s' hn hw
  rcases h s s' hn hw with hparted | ho
  · refine .inl ?_
    rw [run_bind]
    generalize m'.run s' = r' at hparted
    obtain ⟨f | _, t'⟩ := r'
    · exact hparted
    · exact ht n t' hparted
  · exact ho.then hC fun k hk _ _ _ => hf k hk

end

end

/-! ## States -/

theorem Within.setEnvironment {s s' : State ω} (hw : C.Within s s') {env env' : Environment}
    (h : env.Alike C.like env') : C.Within { s with environment := env } { s' with environment := env' } :=
  ⟨⟨⟨h, hw.typed, hw.marks, hw.worlds⟩, hw.programs⟩, hw.last⟩

theorem agree_setEnvironment {env env' : State ω → Environment}
    (h : ∀ s s', n ≤ s.arrays → C.Within s s' → (env s).Alike C.like (env' s') ∧ s.arrays ≤ (env s).tables.size) :
    C.Agree n (do setEnvironment (env (← get))) (do setEnvironment (env' (← get))) Any :=
  agree_get fun s s' hn hw => .ok (hn.trans (h s s' hn hw).2) (hw.setEnvironment (h s s' hn hw).1) trivial

section
include hC

theorem agree_notify (notice notice' : Notice) :
    C.Agree n (notify C.left notice) (notify C.right notice') Any :=
  agree_watches (hC.left.notify notice) (hC.right.notify notice')

theorem record_outcome {s s' : State ω} (hn : n ≤ s.arrays) (hw : C.Between s s') (action action' : Action)
    {pos pos' : Location} (hp : C.like.place pos pos') :
    C.Outcome n Any ((record C.left action pos).run s) ((record C.right action' pos').run s') := by
  obtain ⟨w, hrun, hv⟩ := hC.left.record action pos s
  obtain ⟨w', hrun', hv'⟩ := hC.right.record action' pos' s'
  rw [hrun, hrun']
  refine .ok hn ⟨⟨⟨hw.environment, hw.typed, hw.marks, ?_⟩, hw.programs⟩, .some hp⟩ trivial
  exact (hv' w).2 ((hv s'.world).1 hw.worlds)

/-! ## Typing -/

theorem agree_deliver (text : String) : C.Agree n (deliver C.left text) (deliver C.right text) Any := by
  intro s s' hn hw
  obtain ⟨hsame, hworlds⟩ := hC.sink text _ _ hw.worlds
  have hrefusal := hC.refusal text s.world
  rw [deliver_run, deliver_run]
  generalize C.left.sink text s.world = r at hsame hworlds hrefusal ⊢
  generalize C.right.sink text s'.world = r' at hsame hworlds ⊢
  obtain ⟨result, w⟩ := r
  obtain ⟨result', w'⟩ := r'
  obtain rfl : result = result' := hsame
  cases result with
  | ok a => exact .ok hn ⟨⟨⟨hw.environment, congrArg (text :: ·) hw.typed, hw.marks, hworlds⟩, hw.programs⟩, hw.last⟩ trivial
  | error message =>
    exact .error ⟨⟨⟨hw.environment, hw.typed, hw.marks, hworlds⟩, hw.programs⟩, hw.last⟩ ⟨.foreign _, hrefusal _ rfl⟩

theorem agree_typeOut (text : String) : C.Agree n (typeOut C.left text) (typeOut C.right text) Any :=
  (agree_notify hC _ _).bind fun _ _ _ _ _ => agree_deliver hC text

theorem agree_text {i i' : Item} (h : i.Alike C.like.place i') :
    C.Agree n (i.text C.left) (i'.text C.right) fun _ a b => a = b := by
  cases h with
  | quoted text _ => exact agree_pure fun _ _ => rfl
  | numeric _ he => exact (evaluate_agree hC he).bind fun k _ v w hv => agree_pure fun _ _ => hv.written

theorem agree_typeItems {is is' : List Item} (h : List.Forall₂ (Item.Alike C.like.place) is is') :
    ∀ n, C.Agree n (typeItems C.left is) (typeItems C.right is') Any := by
  induction h with
  | nil => exact fun n => agree_pure fun _ _ => trivial
  | cons hi _ ih =>
    intro n
    rw [typeItems, typeItems]
    refine (agree_text hC hi).bind fun k _ a b hab => ?_
    subst hab
    exact (agree_typeOut hC a).bind fun _ _ _ _ _ => (agree_typeOut hC "\n").bind fun i _ _ _ _ => ih i

/-! ## Setting -/

theorem goes_assign {name : String} (hname : (Lexeme.name name).Sound) {r t : Location} {is is' : List Expr}
    (hi : List.Forall₂ (Expr.Alike C.like.place) is is') {v w : Value} (hv : v.Alike C.like n w) :
    C.Goes n (assign C.left ⟨r, name, is⟩ v) (assign C.right ⟨t, name, is'⟩ w) := by
  unfold assign
  cases hi with
  | nil => cases hv with
    | scalar s =>
      refine Agree.goes ?_
      refine agree_setEnvironment fun t t' hn hw => ⟨?_, le_rfl⟩
      exact hw.environment.bind hname (.scalar s)
    | @function f g hf =>
      refine Agree.goes ?_
      refine agree_setEnvironment fun t t' hn hw => ⟨?_, le_rfl⟩
      exact hw.environment.bind hname (.function (hf.mono hn))
  | cons hi his =>
    rw [hC.limits]
    refine (agree_evalAll hC (agree_applyAt hC _) (.cons hi his) .nil).then hC fun k hk as bs hab s s' hs hw => ?_
    rw [map_eq_of_alike hab fun _ _ => Value.Alike.toIndex]
    by_cases harray : C.like.turned name → ∃ serial, s'.environment.binding? name = some (.array serial)
    · refine .inr (.ok (hs.trans (Environment.grows_setElement _ _ _ _).1) (hw.setEnvironment ?_) trivial)
      exact hw.environment.setElement hname harray _ (hv.mono (hk.trans hs))
    · -- the right session makes a new array, which the left one does not
      push Not at harray
      exact .inl (hC.element k _ name _ w (hw.environment.arrays ▸ hs) harray.1 harray.2)

omit hC in
theorem agree_defineFunction {name : String} (hname : (Lexeme.name name).Sound) (params : List String) {body body' : Expr}
    (hb : body.Alike C.like.place body') :
    C.Agree n (defineFunction name params body : Run ω Unit) (defineFunction name params body') Any :=
  agree_modify fun _ _ hw => ⟨hw.setEnvironment (hw.environment.define hname params hb), le_rfl⟩

/-! ## Loops -/

omit hC in
theorem tame_foldSteps {f : Unit → Value → Run ω Unit} (hf : ∀ w, C.Tame (f () w)) (step stop : Float) :
    ∀ (limit : Nat) (x : Float),
    C.Tame (foldSteps f step stop limit () x)
  | 0, _ => tame_throw _
  | limit + 1, x => by
    rw [foldSteps]
    split
    · exact (hf _).bind fun _ => tame_foldSteps hf step stop limit _
    · exact tame_of_environment fun _ => rfl

omit hC in
theorem tame_foldRange {f : Unit → Value → Run ω Unit} (hf : ∀ w, C.Tame (f () w)) (limit : Nat) :
    ∀ terms : List (Run ω Progression),
    (∀ m ∈ terms, C.Tame m) → C.Tame (foldRange limit f () terms)
  | [], _ => tame_of_environment fun _ => rfl
  | m :: terms, ht => by
    obtain ⟨hm, ht⟩ := List.forall_mem_cons.mp ht
    refine hm.bind fun p => Tame.bind ?_ fun _ => tame_foldRange hf limit terms ht
    cases p with
    | single w => exact hf w
    | stepped start step stop => exact tame_foldSteps hf step stop limit start

section
variable {f f' : Unit → Value → Run ω Unit} (hf : ∀ k, n ≤ k → ∀ v w, v.Alike C.like k w → C.Goes k (f () v) (f' () w))
  (ht : ∀ w, C.Tame (f' () w))
include hf ht

theorem goes_foldSteps (step stop : Float) : ∀ (limit k : Nat), n ≤ k → ∀ x : Float,
    C.Goes k (foldSteps f step stop limit () x) (foldSteps f' step stop limit () x)
  | 0, _, _, _ => hC.agree_endless.goes
  | limit + 1, k, hk, x => by
    rw [foldSteps, foldSteps]
    split
    · exact (hf k hk _ _ (.scalar _)).then hC (tame_foldSteps ht step stop limit _) fun i hi =>
        goes_foldSteps step stop limit i (hk.trans hi) _
    · exact (agree_pure fun _ _ => trivial).goes

theorem goes_foldRange (limit : Nat) {terms terms' : List (Run ω Progression)}
    (hterms : List.Forall₂ (fun m m' => ∀ k, n ≤ k → C.Agree k m m' (ProgressionsAlike C.like)) terms terms')
    (hterms' : ∀ m ∈ terms', C.Tame m) : ∀ k, n ≤ k → C.Goes k (foldRange limit f () terms) (foldRange limit f' () terms') := by
  induction hterms with
  | nil => exact fun k _ => (agree_pure fun _ _ => trivial).goes
  | @cons m m' terms terms' hm _ ih =>
    intro k hk
    obtain ⟨-, hterms'⟩ := List.forall_mem_cons.mp hterms'
    rw [foldRange, foldRange]
    refine (hm k hk).then hC fun i hi p p' hp => ?_
    refine Goes.then hC ?_ (tame_foldRange ht limit terms' hterms') fun j hj => ih hterms' j (hk.trans (hi.trans hj))
    cases hp with
    | single hv => exact hf i (hk.trans hi) _ _ hv
    | stepped start step stop => exact goes_foldSteps hC hf ht step stop limit i (hk.trans hi) start

end

section
variable {body body' : Run ω Unit} (ht : C.Tame body')
include ht

omit hC in
theorem tame_repeatRun : ∀ times, C.Tame (repeatRun body' times)
  | 0 => tame_of_environment fun _ => rfl
  | times + 1 => ht.bind fun _ => tame_repeatRun times

variable (hb : ∀ n, C.Goes n body body')
include hb

theorem goes_repeatRun : ∀ times n, C.Goes n (repeatRun body times) (repeatRun body' times)
  | 0, _ => (agree_pure fun _ _ => trivial).goes
  | times + 1, n => (hb n).then hC (tame_repeatRun ht times) fun k _ => goes_repeatRun times k

theorem goes_loop {loop loop' : Loop} (h : loop.Alike C.like.place loop') :
    C.Goes n (loop.run C.left body) (loop'.run C.right body') := by
  cases h with
  | once => exact hb n
  | times he =>
    rw [Loop.run, Loop.run, hC.limits]
    refine (evaluate_agree hC he).then hC fun k _ v w hv => ?_
    rw [hv.toNumber]
    split
    · exact goes_repeatRun hC ht hb _ _
    · exact (goes_repeatRun hC ht hb _ _).then hC (tame_throw _) fun _ _ => hC.agree_endless.goes
  | @each x r r' hx hr =>
    obtain ⟨_, hterms⟩ := hr
    rw [Loop.run, Loop.run, hC.limits]
    refine goes_foldRange hC (fun k hk v w hv => ?_) (fun w => ?_) _ (agree_evalTerms hC (agree_applyAt hC _) hterms .nil)
      (hC.limits ▸ hC.terms _) n le_rfl
    · cases hv with
      | scalar a =>
        have hset : C.Agree k (do setEnvironment ((← get).environment.bind x (.scalar a)) : Run ω Unit)
            (do setEnvironment ((← get).environment.bind x (.scalar a))) Any :=
          agree_setEnvironment fun s s' _ hw => ⟨hw.environment.bind hx (.scalar a), le_rfl⟩
        exact hset.then hC fun i _ _ _ _ => hb i
      | function hf => exact (hC.agree_raise (.functionAsScalar x) trivial .none).goes
    · cases w with
      | scalar a =>
        have hset : C.Tame (do setEnvironment ((← get).environment.bind x (.scalar a)) : Run ω Unit) := fun k _ hs =>
          hC.bind k _ x _ hs
        exact hset.bind fun _ => ht
      | function f => exact tame_throw _

end

end

/-! ## Steps -/

theorem runGoal_run (runStep : StepRunner ω) (goal : Goal) (pos : Location) (s : State ω) :
    (runGoal runStep goal pos).run s = match s.program.stepsOf pos goal with
      | .ok ss => (runSteps runStep pos ss).run s
      | .error f => (.error f, s) := by
  have hread : (get : Run ω (State ω)).run s = (.ok s, s) := rfl
  rw [runGoal, run_bind, hread]
  dsimp only
  cases s.program.stepsOf pos goal <;> rfl

section
variable {runStep runStep' : StepRunner ω} {pos pos' : Location} (ht : ∀ step, C.Tame (runStep' step pos'))
include ht

omit hC in
theorem tame_runSteps : ∀ steps, C.Tame (runSteps runStep' pos' steps)
  | [] => tame_of_environment fun _ => rfl
  | step :: steps => (ht step).bind fun _ => tame_runSteps steps

omit hC in
theorem tame_runGoal (goal : Goal) : C.Tame (runGoal runStep' goal pos') := by
  intro n s hs
  rw [runGoal_run]
  split
  · next steps _ => exact tame_runSteps ht steps n s hs
  · exact hs

variable (hr : ∀ s s', s.Alike C.like.place s' → ∀ n, C.Goes n (runStep s pos) (runStep' s' pos'))
include hC hr

theorem goes_runSteps {ss ss' : List Step} (hs : List.Forall₂ (Step.Alike C.like.place) ss ss') :
    ∀ n, C.Goes n (runSteps runStep pos ss) (runSteps runStep' pos' ss') := by
  induction hs with
  | nil => exact fun n => (agree_pure fun _ _ => trivial).goes
  | cons hs _ ih => exact fun n => (hr _ _ hs n).then hC (tame_runSteps ht _) fun k _ => ih k

theorem goes_runGoal (hp : C.like.place pos pos') {goal : Goal} (hg : goal.Spelled) :
    C.Goes n (runGoal runStep goal pos) (runGoal runStep' goal pos') := by
  intro s s' hn hw
  rw [runGoal_run, runGoal_run]
  have hg := hC.goals _ _ goal pos pos' hg hp hw.programs
  generalize s.program.stepsOf pos goal = r at hg ⊢
  generalize s'.program.stepsOf pos' goal = r' at hg ⊢
  cases hg with
  | found hs => exact goes_runSteps hC ht hr hs n s s' hn hw
  | missing hc hp => exact .inr (hC.agree_raise _ hc (.some hp) s s' hn hw)
  | excused he => exact .inr (.excused he)

end

section
include hC

/-! ## Commands -/

theorem agree_guardHolds {guard guard' : Option Expr} (h : Option.Rel (Expr.Alike C.like.place) guard guard') :
    C.Agree n (guardHolds C.left guard) (guardHolds C.right guard') fun _ a b => a = b := by
  cases h with
  | none => exact agree_pure fun _ _ => rfl
  | some he => exact (evaluate_agree hC he).bind fun k _ v w hv => agree_pure fun _ _ => hv.toTruth

theorem goes_verb {runStep runStep' : StepRunner ω} (ht : ∀ step pos, C.Tame (runStep' step pos))
    (hr : ∀ s s' pos pos', s.Alike C.like.place s' → C.like.place pos pos' → ∀ n, C.Goes n (runStep s pos) (runStep' s' pos'))
    {v v' : Verb} (h : v.Alike C.like.place v') : C.Goes n (v.run C.left runStep) (v'.run C.right runStep') := by
  cases h with
  | blank _ => exact (agree_pure fun _ _ => trivial).goes
  | type _ hi => exact (agree_typeItems hC hi n).goes
  | set _ _ hname hi he => exact (evaluate_agree hC he).then hC fun k _ a b hab => goes_assign hC hname hi hab
  | define params _ hname hb => exact (agree_defineFunction hname params hb).goes
  | @perform _ q goal _ _ hp hg hl =>
    have hbody : C.Tame (runGoal runStep' goal q) := tame_runGoal (fun step => ht step q) goal
    exact goes_loop hC hbody (fun n => goes_runGoal hC (fun step => ht step q) (fun s s' hs => hr s s' _ _ hs hp) hp hg) hl

omit hC in
theorem agree_pushFrame (activity activity' : Activity) (caller caller' : Location) :
    C.Agree n (pushFrame activity caller : Run ω Unit) (pushFrame activity' caller') Any :=
  agree_modify fun _ _ hw =>
    ⟨⟨⟨⟨hw.environment, hw.typed, hw.marks, hw.worlds⟩, hw.programs⟩, hw.last⟩, le_rfl⟩

omit hC in
theorem agree_popFrame : C.Agree n (popFrame : Run ω Unit) popFrame Any :=
  agree_modify fun _ _ hw =>
    ⟨⟨⟨⟨hw.environment, hw.typed, hw.marks, hw.worlds⟩, hw.programs⟩, hw.last⟩, le_rfl⟩

end

def stepRunner (setup : Setup ω) : Nat → StepRunner ω
  | 0, step, pos => do
    if setup.limits.framed then pushFrame (.step step.number) pos
    throw .limit
  | d + 1, step, pos => do
    pushFrame (.step step.number) pos
    step.command.run setup d
    popFrame

theorem stepRunner_zero (setup : Setup ω) (step : Step) (pos : Location) (s : State ω) :
    ∃ frames count, (stepRunner setup 0 step pos).run s = (.error .limit, { s with frames := frames, frameCount := count }) := by
  rw [stepRunner]
  split <;> exact ⟨_, _, rfl⟩

theorem command_run (setup : Setup ω) (d : Nat) (c : Command) :
    c.run setup d = (do
      record setup (.command c.verb.label) c.pos
      notify setup (.beforeCommand c)
      if ← guardHolds setup c.guard then c.verb.run setup (stepRunner setup d)
      notify setup (.afterCommand c)) := by
  cases d with
  | zero => rw [Command.run]; rfl
  | succ d => rw [Command.run]; rfl

def Depths (C : Comparison ω) (d d' : Nat) : Prop := d' = d ∨ d' ≤ d ∧ C.excused' .limit

section
include hC

theorem tame_stepRunner : ∀ (d : Nat) (step : Step) (pos : Location), C.Tame (stepRunner C.right d step pos)
  | 0, step, pos => by
    intro n s hs
    obtain ⟨frames, count, hrun⟩ := stepRunner_zero C.right step pos s
    rwa [hrun]
  | d + 1, step, pos => by
    have hpush : C.Tame (pushFrame (.step step.number) pos) := tame_of_environment fun _ => rfl
    exact hpush.bind fun _ => (hC.command d step.command).bind fun _ => tame_of_environment fun _ => rfl

theorem command_outcome_of_steps {d d' : Nat} (hr : ∀ s s' pos pos', s.Alike C.like.place s' → C.like.place pos pos' →
      ∀ n, C.Goes n (stepRunner C.left d s pos) (stepRunner C.right d' s' pos'))
    {c c' : Command} (hc : c.Alike C.like.place c') {s s' : State ω} (hn : n ≤ s.arrays) (hw : C.Between s s') :
    C.parted n ((c'.run C.right d').run s').2.environment ∨
      C.Outcome n Any ((c.run C.left d).run s) ((c'.run C.right d').run s') := by
  have hend : ∀ k, C.Goes k (notify C.left (.afterCommand c)) (notify C.right (.afterCommand c')) := fun _ =>
    (agree_notify hC _ _).goes
  rw [command_run, command_run]
  refine (record_outcome hC hn hw _ _ hc.pos).then hC fun k _ _ _ _ => (agree_notify hC _ _).then hC fun i _ _ _ _ => ?_
  refine (agree_guardHolds hC hc.guard).then hC fun j _ b b' hb => ?_
  subst hb
  split
  · exact (goes_verb hC (tame_stepRunner hC d') hr hc.verb).then hC (tame_of_watches (hC.right.notify _)) fun k _ => hend k
  · exact hend j

/-- **Commands.** What commands that are alike do to states that are alike, is alike. -/
theorem command_outcome {d d' : Nat} (hd : C.Depths d d') {c c' : Command} (hc : c.Alike C.like.place c') {s s' : State ω}
    (hn : n ≤ s.arrays) (hw : C.Between s s') :
    C.parted n ((c'.run C.right d').run s').2.environment ∨
      C.Outcome n Any ((c.run C.left d).run s) ((c'.run C.right d').run s') := by
  induction d generalizing d' c c' n s s' with
  | zero =>
    obtain rfl : d' = 0 := by rcases hd with h | h <;> omega
    refine command_outcome_of_steps hC (fun t t' pos pos' _ _ n => Agree.goes ?_) hc hn hw
    rw [stepRunner, stepRunner, hC.limits]
    split
    · exact (agree_pushFrame _ _ _ _).bind fun _ _ _ _ _ => hC.agree_limit
    · exact hC.agree_limit
  | succ d ih =>
    refine command_outcome_of_steps hC (fun t t' pos pos' ht hp n => ?_) hc hn hw
    cases d' with
    | zero =>
      obtain he : C.excused' .limit := by
        rcases hd with h | h
        · omega
        · exact h.2
      intro u u' _ _
      obtain ⟨frames, count, hrun⟩ := stepRunner_zero C.right t' pos' u'
      rw [hrun]
      exact .inr (.excused' he)
    | succ d' =>
      have hd : C.Depths d d' := hd.imp Nat.succ_inj.mp fun h => ⟨Nat.le_of_succ_le_succ h.1, h.2⟩
      refine (agree_pushFrame _ _ _ _).then hC fun k _ _ _ _ => ?_
      have hstep : C.Goes k (t.command.run C.left d) (t'.command.run C.right d') :=
        fun _ _ hn hw => ih hd ht.2 hn hw.toBetween
      exact hstep.then hC (tame_of_environment fun _ => rfl) fun _ _ => agree_popFrame.goes

end

end JossLang.Comparison
