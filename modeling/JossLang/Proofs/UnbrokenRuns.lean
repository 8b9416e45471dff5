import JossLang.Proofs.ErrorReports
import JossLang.Proofs.UnbrokenStates

/-!
# Runs without line breaks

From a state without line breaks in its names, a line without line breaks comes to such a state again. What it types
are whole lines, and its error is said on one line: `evaluateLine_unbroken`. Extensions have to play along: they may
type whole lines too, and fail with messages on one line, but must not refuse the newline behind an item. Nor may the
sink.
-/

namespace JossLang

variable {ω α β : Type}

structure State.Unbroken (base : List String) (s : State ω) : Prop where
  environment : s.environment.Unbroken
  program : s.program.Unbroken
  typed : ∃ new, s.typed = new ++ base ∧ WholeLines (String.join new.reverse)

theorem State.Unbroken.rebased {base : List String} {s : State ω} (h : s.Unbroken base) : s.Unbroken s.typed :=
  ⟨h.environment, h.program, [], rfl, wholeLines_empty⟩

inductive Spoken (base : List String) (Q : α → Prop) : Except Failure α × State ω → Prop where
  | ok {a : α} {t : State ω} : Q a → t.Unbroken base → Spoken base Q (.ok a, t)
  | error {f : Failure} {t : State ω} : f.Unbroken → t.Unbroken base → Spoken base Q (.error f, t)

def Speaks (base : List String) (Q : α → Prop) (m : Run ω α) : Prop := ∀ s, s.Unbroken base → Spoken base Q (m.run s)

section
variable {base : List String} {Q : α → Prop} {R : β → Prop}

theorem Spoken.bind {m : Run ω α} {f : α → Run ω β} {s : State ω} (h : Spoken base Q (m.run s))
    (hf : ∀ a, Q a → Speaks base R (f a)) : Spoken base R ((m >>= f).run s) := by
  rw [run_bind]
  generalize m.run s = r at h
  cases h with
  | ok ha ht => exact hf _ ha _ ht
  | error hf ht => exact .error hf ht

theorem Speaks.bind {m : Run ω α} {f : α → Run ω β} (h : Speaks base Q m) (hf : ∀ a, Q a → Speaks base R (f a)) :
    Speaks base R (m >>= f) := fun s hs => (h s hs).bind hf

theorem speaks_pure {a : α} (h : Q a) : Speaks base Q (pure a : Run ω α) := fun _ hs => .ok h hs

theorem speaks_raise {cause : Cause} (h : OneLine cause.message) (pos : Option Location) :
    Speaks base Q (raise cause pos : Run ω α) := fun _ hs => .error h hs

theorem speaks_limit : Speaks base Q (throw .limit : Run ω α) := fun _ hs => .error (oneLine_literal rfl) hs

theorem speaks_endless : Speaks base Q (throw .endless : Run ω α) := fun _ hs => .error oneLine_empty hs

theorem speaks_get {f : State ω → Run ω α} (h : ∀ s, s.Unbroken base → Spoken base Q ((f s).run s)) :
    Speaks base Q (get >>= f) := h

theorem speaks_modify {g : State ω → State ω} (h : ∀ s, s.Unbroken base → (g s).Unbroken base) :
    Speaks base (fun _ => True) (modify g : Run ω Unit) := fun s hs => .ok trivial (h s hs)

theorem speaks_orRaise {r : Except Cause α} (hok : ∀ a, r = .ok a → Q a) (herror : ∀ c, r = .error c → OneLine c.message)
    (pos : Option Location) : Speaks base Q (orRaise pos r : Run ω α) := by
  cases r with
  | ok a => exact speaks_pure (hok a rfl)
  | error c => exact speaks_raise (herror c rfl) pos

theorem speaks_iff_stays {m : Run ω α} : Speaks base (fun _ => True) m ↔
    Stays (State.Unbroken base) (fun f t => f.Unbroken ∧ t.Unbroken base) m := by
  refine ⟨fun h s hs => ?_, fun h s hs => ?_⟩
  · have hr := h s hs
    generalize m.run s = r at hr ⊢
    cases hr with
    | ok _ ht => exact .ok ht
    | error hf ht => exact .error ⟨hf, ht⟩
  · have hr := h s hs
    generalize m.run s = r at hr ⊢
    cases hr with
    | ok ht => exact .ok trivial ht
    | error ht => exact .error ht.1 ht.2

end

/-! ## Extensions -/

def Notice.Unbroken : Notice → Prop
  | .lineStart text => OneLine text
  | .beforeCommand c | .afterCommand c => c.Drawn Lexeme.Unbroken
  | .output text => OneLine text ∨ text = "\n"
  | .onError e => OneLine e.message

/-- What extensions have to keep to: they bring no line breaks into names, values and messages, type whole lines if
anything, and let every line that is typed end. -/
structure Registry.Unbroken (r : Registry ω) : Prop where
  functions : ∀ g ∈ r.functions, ∀ args, (∀ a ∈ args, a.Unbroken) → ∀ pos base,
    Speaks base Value.Unbroken (g.run args pos)
  handlers : ∀ g ∈ r.handlers, ∀ notice : Notice, g.event = notice.event → notice.Unbroken → ∀ base,
    Speaks base (fun _ => True) (g.run notice)
  rules : ∀ g ∈ r.rules, ∀ notice base, Speaks base (fun _ => True) (g.run notice)
  lineEnds : ∀ g ∈ r.handlers, g.event = .output → ∀ s, ∃ t, (g.run (.output "\n")).run s = (.ok (), t)

structure Setup.Unbroken (setup : Setup ω) : Prop extends setup.registry.Unbroken where
  sink : setup.Takes

/-! ## Ranges -/

section
variable {base : List String} {Q : α → Prop}

def Progression.Unbroken : Progression → Prop
  | .single v => v.Unbroken
  | .stepped _ _ _ => True

section
variable {f : α → Value → Run ω α} (hf : ∀ a v, Q a → v.Unbroken → Speaks base Q (f a v))
include hf

theorem speaks_foldSteps (step stop : Float) : ∀ (limit : Nat) (a : α) (x : Float), Q a →
    Speaks base Q (foldSteps f step stop limit a x)
  | 0, _, _, _ => speaks_endless
  | limit + 1, a, x, ha => by
    rw [foldSteps]
    split
    · exact (hf a (.number x) ha trivial).bind fun b hb => speaks_foldSteps step stop limit b _ hb
    · exact speaks_pure ha

theorem speaks_fold (limit : Nat) {a : α} (ha : Q a) {p : Progression} (hp : p.Unbroken) :
    Speaks base Q (p.fold limit f a) := by
  cases p with
  | single v => exact hf a v ha hp
  | stepped start step stop => exact speaks_foldSteps hf step stop limit a start ha

theorem speaks_foldRange (limit : Nat) : ∀ terms : List (Run ω Progression),
    (∀ m ∈ terms, Speaks base Progression.Unbroken m) → ∀ a, Q a → Speaks base Q (foldRange limit f a terms)
  | [], _, _, ha => speaks_pure ha
  | m :: terms, h, a, ha => by
    obtain ⟨hm, h⟩ := List.forall_mem_cons.mp h
    rw [foldRange]
    exact hm.bind fun p hp => (speaks_fold hf limit ha hp).bind fun b hb => speaks_foldRange limit terms h b hb

end

end

/-! ## Expressions -/

def Scope.Unbroken (scope : Scope) : Prop := ∀ e ∈ scope, e.2.Unbroken

section
variable {base : List String} {setup : Setup ω}

theorem speaks_valueOf {scope : Scope} (hscope : scope.Unbroken) {name : String} (hname : OneLine name) (pos : Location) :
    Speaks base Value.Unbroken (valueOf setup scope name pos) := by
  unfold valueOf
  cases hl : scope.lookup name with
  | some v => exact speaks_pure (of_lookup (p := Value.Unbroken) hscope hl)
  | none =>
    refine speaks_get fun s hs => ?_
    cases hget : s.environment.get? setup.isBuiltin name with
    | some v => exact .ok (hs.environment.get? hname hget) hs
    | none => exact .error (Cause.oneLine_unbound hname) hs

theorem speaks_marked {v : Value} (hv : v.Unbroken) : Speaks base Value.Unbroken (marked v : Run ω Value) := by
  unfold marked
  split
  · split
    · exact fun s hs => .ok trivial ⟨hs.environment, hs.program, hs.typed⟩
    · exact speaks_pure hv
  · exact speaks_pure hv

def Apply.Speaks (base : List String) (apply : Apply ω) : Prop := ∀ f args pos, f.Unbroken → (∀ a ∈ args, a.Unbroken) →
  JossLang.Speaks base Value.Unbroken (apply f args pos)

section
variable {apply : Apply ω}

mutual

theorem speaks_eval (ha : apply.Speaks base) : ∀ (e : Expr) (scope : Scope), e.Drawn Lexeme.Unbroken → scope.Unbroken →
    Speaks base Value.Unbroken (e.eval setup apply scope)
  | .number _ x, _, _, _ => by
    rw [Expr.eval]
    exact speaks_pure trivial
  | .reference pos name indices, scope, he, hscope => by
    cases he with
    | reference hname hindices =>
      rw [Expr.eval]
      refine (speaks_valueOf hscope hname pos).bind fun v hv => ?_
      cases v with
      | scalar s => exact speaks_pure hv
      | function f =>
        dsimp only
        split
        · exact speaks_pure hv
        · exact (speaks_evalAll ha indices scope hindices hscope).bind fun args hargs => ha f args pos hv hargs
  | .binary _ o lhs rhs, scope, he, hscope => by
    cases he with
    | binary hl hr =>
      obtain ⟨f, hf, hmem⟩ := o.operation
      rw [Expr.eval, hf]
      refine (speaks_eval ha lhs scope hl hscope).bind fun a _ => (speaks_eval ha rhs scope hr hscope).bind fun b _ => ?_
      obtain ⟨r, hr⟩ := operation_scalar hmem a b
      exact speaks_marked (hr ▸ trivial)
  | .conditional _ branches otherwise, scope, he, hscope => by
    cases he with
    | conditional hbranches hotherwise =>
      rw [Expr.eval]
      refine (speaks_evalBranches ha branches scope hbranches hscope).bind fun o ho => ?_
      cases o with
      | some v => exact speaks_pure (ho v rfl)
      | none => exact speaks_eval ha otherwise scope hotherwise hscope
  | .reduction pos function loopVar (.mk _ terms) body, scope, he, hscope => by
    cases he with
    | reduction hname _ hterms hbody =>
      rw [Expr.eval]
      refine (speaks_valueOf hscope hname pos).bind fun v hv => ?_
      cases v with
      | scalar s => exact speaks_raise (Cause.oneLine_notAFunction hname) pos
      | function f =>
        have hresults : Speaks base (fun results : List Value => ∀ r ∈ results, r.Unbroken)
            (foldRange setup.limits.values
              (fun results v => return (← body.eval setup apply ((loopVar, v) :: scope)) :: results) []
              (evalTerms setup apply scope terms)) := by
          refine speaks_foldRange (fun results v hr hv => ?_) _ _ (speaks_evalTerms ha terms scope hterms hscope) _
            (List.forall_mem_nil _)
          exact (speaks_eval ha body _ hbody (List.forall_mem_cons.mpr ⟨hv, hscope⟩)).bind fun r hbody =>
            speaks_pure (List.forall_mem_cons.mpr ⟨hbody, hr⟩)
        exact hresults.bind fun results hr => ha f results.reverse pos hv fun r hm => hr r (List.mem_reverse.mp hm)

theorem speaks_evalAll (ha : apply.Speaks base) : ∀ (es : List Expr) (scope : Scope), (∀ e ∈ es, e.Drawn Lexeme.Unbroken) →
    scope.Unbroken → Speaks base (fun vs => ∀ v ∈ vs, v.Unbroken) (evalAll setup apply scope es)
  | [], _, _, _ => by
    rw [evalAll]
    exact speaks_pure (List.forall_mem_nil _)
  | e :: es, scope, hes, hscope => by
    obtain ⟨he, hes⟩ := List.forall_mem_cons.mp hes
    rw [evalAll]
    exact (speaks_eval ha e scope he hscope).bind fun v hv => (speaks_evalAll ha es scope hes hscope).bind fun vs hvs =>
      speaks_pure (List.forall_mem_cons.mpr ⟨hv, hvs⟩)

theorem speaks_evalBranches (ha : apply.Speaks base) : ∀ (bs : List Branch) (scope : Scope),
    (∀ b ∈ bs, b.Drawn Lexeme.Unbroken) → scope.Unbroken →
    Speaks base (fun o : Option Value => ∀ v, o = some v → v.Unbroken) (evalBranches setup apply scope bs)
  | [], _, _, _ => by
    rw [evalBranches]
    exact speaks_pure nofun
  | .mk condition result :: bs, scope, hbs, hscope => by
    obtain ⟨hb, hbs⟩ := List.forall_mem_cons.mp hbs
    cases hb with
    | mk hc hr =>
      rw [evalBranches]
      refine (speaks_eval ha condition scope hc hscope).bind fun v _ => ?_
      split
      · refine (speaks_eval ha result scope hr hscope).bind fun v hv => speaks_pure ?_
        rintro _ ⟨⟩
        exact hv
      · exact speaks_evalBranches ha bs scope hbs hscope

theorem speaks_evalTerms (ha : apply.Speaks base) : ∀ (ts : List Term) (scope : Scope),
    (∀ t ∈ ts, t.Drawn Lexeme.Unbroken) → scope.Unbroken →
    ∀ m ∈ evalTerms setup apply scope ts, Speaks base Progression.Unbroken m
  | [], _, _, _ => by
    rw [evalTerms]
    exact List.forall_mem_nil _
  | .single value :: ts, scope, hts, hscope => by
    obtain ⟨ht, hts⟩ := List.forall_mem_cons.mp hts
    cases ht with
    | single hvalue =>
      rw [evalTerms]
      refine List.forall_mem_cons.mpr ⟨?_, speaks_evalTerms ha ts scope hts hscope⟩
      exact (speaks_eval ha value scope hvalue hscope).bind fun v hv => speaks_pure hv
  | .stepped start step stop :: ts, scope, hts, hscope => by
    obtain ⟨ht, hts⟩ := List.forall_mem_cons.mp hts
    cases ht with
    | stepped hstart hstep hstop =>
      rw [evalTerms]
      refine List.forall_mem_cons.mpr ⟨?_, speaks_evalTerms ha ts scope hts hscope⟩
      exact (speaks_eval ha stop scope hstop hscope).bind fun _ _ => (speaks_eval ha step scope hstep hscope).bind fun _ _ =>
        (speaks_eval ha start scope hstart hscope).bind fun _ _ => speaks_pure trivial

end

end

/-! ## Calls -/

section
variable (hsetup : setup.Unbroken)
include hsetup

theorem speaks_applyBuiltin {name : String} (hname : OneLine name) {args : List Value} (hargs : ∀ a ∈ args, a.Unbroken)
    (pos : Location) : Speaks base Value.Unbroken (applyBuiltin setup name args pos) := by
  unfold applyBuiltin
  split
  · next b _ =>
    split
    · next c hc => exact speaks_raise (Cause.oneLine_arity hname hc) pos
    · exact speaks_marked (b.apply_unbroken _ args)
  · split
    · next g hg =>
      split
      · next c hc => exact speaks_raise (Cause.oneLine_arity hname hc) pos
      · exact hsetup.functions g (List.mem_of_find?_eq_some hg) args hargs pos base
    · exact speaks_raise (Cause.oneLine_unbound hname) pos

omit hsetup in
theorem UserFunction.scope_unbroken (f : UserFunction) {args : List Value} (hargs : ∀ a ∈ args, a.Unbroken) :
    (f.scope args).Unbroken := by
  intro e he
  exact hargs e.2 (List.of_mem_zip (List.mem_reverse.mp he)).2

omit hsetup in
theorem speaks_element (serial : Nat) (indices : List Index) (pos : Location) :
    Speaks base Value.Unbroken (do orRaise pos (((← get).environment.table serial).get indices) : Run ω Value) :=
  speaks_get fun s hs => speaks_orRaise (fun _ => (hs.environment.table serial).get_ok)
    (fun _ => (hs.environment.table serial).get_error) pos s hs

theorem speaks_applyAt (depth : Nat) : (applyAt setup depth).Speaks base := by
  induction depth with
  | zero =>
    intro f args pos hf hargs
    cases f with
    | builtin name => rw [applyAt]; exact speaks_applyBuiltin hsetup hf hargs pos
    | array serial _ => rw [applyAt]; exact speaks_element serial _ pos
    | user _ function =>
      rw [applyAt]
      split
      · exact speaks_raise (Cause.oneLine_wrongArguments (UserFunction.Unbroken.name hf) _ _) pos
      · exact speaks_limit
  | succ depth ih =>
    intro f args pos hf hargs
    cases f with
    | builtin name => rw [applyAt]; exact speaks_applyBuiltin hsetup hf hargs pos
    | array serial _ => rw [applyAt]; exact speaks_element serial _ pos
    | user _ function =>
      rw [applyAt]
      split
      · exact speaks_raise (Cause.oneLine_wrongArguments (UserFunction.Unbroken.name hf) _ _) pos
      · exact speaks_eval ih function.body _ (UserFunction.Unbroken.body hf) (function.scope_unbroken hargs)

/-- **Evaluation** gives values without line breaks, or fails on one line. -/
theorem speaks_evaluate {e : Expr} (he : e.Drawn Lexeme.Unbroken) : Speaks base Value.Unbroken (evaluate setup e) :=
  speaks_eval (speaks_applyAt hsetup _) e [] he (List.forall_mem_nil _)

/-! ## Handlers and rules -/

theorem speaks_notify (notice : Notice) (hnotice : notice.Unbroken) : Speaks base (fun _ => True) (notify setup notice) := by
  refine speaks_iff_stays.mpr ((stays_runHandlers notice _ fun g hg => ?_).blame _ _ fun message s hs => ?_)
  · obtain ⟨hmem, hevent⟩ := List.mem_filter.mp hg
    exact speaks_iff_stays.mp (hsetup.handlers g hmem notice (of_decide_eq_true hevent) hnotice base)
  · exact ⟨Cause.oneLine_hookFailed _ hs.1, hs.2⟩

theorem speaks_record (action : Action) (pos : Location) : Speaks base (fun _ => True) (record setup action pos) := by
  intro s hs
  have hrules : Stays (State.Unbroken base) (fun f t => f.Unbroken ∧ t.Unbroken base)
      (blame .ruleFailed (fun _ => some pos) (runRules ⟨s.log.nextIndex, action, pos⟩ setup.registry.rules)) := by
    refine (stays_runRules _ _ fun r hr => ?_).blame _ _ fun message t ht => ?_
    · exact speaks_iff_stays.mp (hsetup.rules r hr _ base)
    · exact ⟨Cause.oneLine_ruleFailed ht.1, ht.2⟩
  exact speaks_iff_stays.mpr hrules _ ⟨hs.environment, hs.program, hs.typed⟩

/-! ## Verbs -/

theorem speaks_text {item : Item} (h : item.Drawn Lexeme.Unbroken) : Speaks base OneLine (item.text setup) := by
  cases item with
  | quoted _ text =>
    have htext : OneLine text := fun c hc => h c (by simp [Lexeme.spelling, hc])
    exact speaks_pure htext
  | numeric _ e => exact (speaks_evaluate hsetup h).bind fun v hv => speaks_pure hv.written

theorem speaks_typeLine {text : String} (htext : OneLine text) : Speaks base (fun _ => True)
    (do typeOut setup text; typeOut setup "\n") := by
  have hfirst : Speaks base (fun _ => True) (notify setup (.output text)) := speaks_notify hsetup (.output text) (.inl htext)
  intro s hs
  rw [typeOut, bind_assoc]
  refine (hfirst s hs).bind fun _ _ t ht => ?_
  obtain ⟨new, htyped, hnew⟩ := ht.typed
  -- The item leaves a line open. What handlers type before its newline is counted from there, and as these are whole
  -- lines, the newline ends a line of its own.
  let u : State ω := { t with world := (setup.sink text t.world).2, typed := text :: t.typed }
  have hu : u.Unbroken u.typed := ⟨ht.environment, ht.program, [], rfl, wholeLines_empty⟩
  obtain ⟨v, hv⟩ := notify_of_returns (.output "\n") hsetup.lineEnds u
  have hlast := speaks_notify hsetup (.output "\n") (.inr rfl) u hu
  rw [hv] at hlast
  cases hlast with
  | ok _ hlast =>
    obtain ⟨more, hmore, hwhole⟩ := hlast.typed
    have hjoin : String.join ("\n" :: (more ++ text :: new)).reverse =
        String.join new.reverse ++ (text ++ String.join more.reverse ++ "\n") := by
      simp [String.append_assoc]
    rw [run_bind, hsetup.sink.deliver]
    show Spoken base _ ((typeOut setup "\n").run u)
    rw [typeOut, run_bind, hv]
    show Spoken base _ ((deliver setup "\n").run v)
    rw [hsetup.sink.deliver]
    refine .ok trivial ⟨hlast.environment, hlast.program, "\n" :: (more ++ text :: new), ?_, ?_⟩
    · simp [hmore, u, htyped]
    · rw [hjoin]
      exact hnew.append (hwhole.enclosed htext)

theorem speaks_typeItems : ∀ items : List Item, (∀ i ∈ items, i.Drawn Lexeme.Unbroken) →
    Speaks base (fun _ => True) (typeItems setup items)
  | [], _ => speaks_pure trivial
  | item :: items, h => by
    obtain ⟨hitem, h⟩ := List.forall_mem_cons.mp h
    rw [typeItems]
    refine (speaks_text hsetup hitem).bind fun text htext => ?_
    rw [← bind_assoc]
    exact (speaks_typeLine hsetup htext).bind fun _ _ => speaks_typeItems items h

omit hsetup in
theorem speaks_change {g : Environment → Environment} (hg : ∀ env : Environment, env.Unbroken → (g env).Unbroken) :
    Speaks base (fun _ => True) (do setEnvironment (g (← get).environment) : Run ω Unit) :=
  speaks_get fun _ hs => .ok trivial ⟨hg _ hs.environment, hs.program, hs.typed⟩

theorem speaks_assign {target : Target} (ht : target.Drawn Lexeme.Unbroken) {v : Value} (hv : v.Unbroken) :
    Speaks base (fun _ => True) (assign setup target v) := by
  unfold assign
  split
  · cases v with
    | scalar s => exact speaks_change (g := (·.bind target.name (.scalar s))) fun _ henv => henv.bind _ trivial
    | function f => exact speaks_change (g := (·.bind target.name (.function f))) fun _ henv => henv.bind _ hv
  · refine (speaks_evalAll (speaks_applyAt hsetup _) target.indices [] ht.indices (List.forall_mem_nil _)).bind fun is _ => ?_
    exact speaks_change fun _ henv => henv.setElement ht.name _ hv

omit hsetup in
theorem speaks_defineFunction {name : String} (hname : OneLine name) (params : List String) {body : Expr}
    (hbody : body.Drawn Lexeme.Unbroken) : Speaks base (fun _ => True) (defineFunction name params body : Run ω Unit) :=
  speaks_modify fun _ hs =>
    ⟨⟨(hs.environment.bind name (b := .function (.user _ ⟨name, params, body⟩)) ⟨hname, hbody⟩).bindings,
      hs.environment.tables⟩, hs.program, hs.typed⟩

/-! ## Loops -/

omit hsetup in
theorem speaks_repeatRun {body : Run ω Unit} (hb : Speaks base (fun _ => True) body) : ∀ n,
    Speaks base (fun _ => True) (repeatRun body n)
  | 0 => speaks_pure trivial
  | n + 1 => hb.bind fun _ _ => speaks_repeatRun hb n

theorem speaks_loop {body : Run ω Unit} (hb : Speaks base (fun _ => True) body) {loop : Loop}
    (hl : loop.Drawn Lexeme.Unbroken) : Speaks base (fun _ => True) (loop.run setup body) := by
  cases loop with
  | once => exact hb
  | times count =>
    rw [Loop.run]
    refine (speaks_evaluate hsetup hl).bind fun v _ => ?_
    split
    · exact speaks_repeatRun hb _
    · exact (speaks_repeatRun hb _).bind fun _ _ => speaks_endless
  | each x range =>
    rw [Loop.run]
    refine speaks_foldRange (Q := fun _ : Unit => True) (fun _ v _ _ => ?_) _ _
      (speaks_evalTerms (speaks_applyAt hsetup _) range.terms [] hl.2 (List.forall_mem_nil _)) () trivial
    cases v with
    | scalar a =>
      have hset : Speaks base (fun _ => True) (do setEnvironment ((← get).environment.bind x (.scalar a)) : Run ω Unit) :=
        speaks_change (g := (·.bind x (.scalar a))) fun _ henv => henv.bind x trivial
      exact hset.bind fun _ _ => hb
    | function f => exact speaks_raise (Cause.oneLine_functionAsScalar hl.1) none

/-! ## Commands -/

omit hsetup in
theorem speaks_runSteps {runStep : StepRunner ω} (pos : Location) : ∀ steps : List Step,
    (∀ step ∈ steps, Speaks base (fun _ => True) (runStep step pos)) →
    Speaks base (fun _ => True) (runSteps runStep pos steps)
  | [], _ => speaks_pure trivial
  | step :: steps, h => by
    obtain ⟨hstep, h⟩ := List.forall_mem_cons.mp h
    exact hstep.bind fun _ _ => speaks_runSteps pos steps h

omit hsetup in
theorem speaks_runGoal {runStep : StepRunner ω} {goal : Goal} (hgoal : goal.Drawn Lexeme.Unbroken) (pos : Location)
    (hr : ∀ step : Step, step.command.Drawn Lexeme.Unbroken → Speaks base (fun _ => True) (runStep step pos)) :
    Speaks base (fun _ => True) (runGoal runStep goal pos) := by
  intro s hs
  rw [Comparison.runGoal_run]
  cases hsteps : s.program.stepsOf pos goal with
  | ok steps =>
    exact speaks_runSteps pos steps (fun step hm => hr step (hs.program.commands step (Program.holds_of_stepsOf hsteps hm)))
      s hs
  | error f => exact .error (hs.program.stepsOf_error hgoal hsteps) hs

theorem speaks_guardHolds {guard : Option Expr} (hg : ∀ e ∈ guard, e.Drawn Lexeme.Unbroken) :
    Speaks base (fun _ => True) (guardHolds setup guard) := by
  cases guard with
  | none => exact speaks_pure trivial
  | some e => exact (speaks_evaluate hsetup (hg e rfl)).bind fun _ _ => speaks_pure trivial

theorem speaks_verb {runStep : StepRunner ω} {v : Verb} (hv : v.Drawn Lexeme.Unbroken)
    (hr : ∀ (step : Step) pos, step.command.Drawn Lexeme.Unbroken → Speaks base (fun _ => True) (runStep step pos)) :
    Speaks base (fun _ => True) (v.run setup runStep) := by
  cases v with
  | blank _ => exact speaks_pure trivial
  | type _ items => exact speaks_typeItems hsetup items hv
  | set _ target value =>
    exact (speaks_evaluate hsetup hv.2).bind fun v hvalue => speaks_assign hsetup hv.1 hvalue
  | define _ name params body => exact speaks_defineFunction hv.1 params hv.2.2
  | perform pos goal loop => exact speaks_loop hsetup (speaks_runGoal hv.1 pos fun step => hr step pos) hv.2

omit hsetup in
theorem speaks_pushFrame (activity : Activity) (caller : Location) :
    Speaks base (fun _ => True) (pushFrame activity caller : Run ω Unit) :=
  speaks_modify fun _ hs => ⟨hs.environment, hs.program, hs.typed⟩

theorem speaks_command_of_steps {d : Nat} (hr : ∀ (step : Step) pos, step.command.Drawn Lexeme.Unbroken →
    Speaks base (fun _ => True) (Comparison.stepRunner setup d step pos)) {c : Command} (hc : c.Drawn Lexeme.Unbroken) :
    Speaks base (fun _ => True) (c.run setup d) := by
  rw [Comparison.command_run]
  refine (speaks_record hsetup _ _).bind fun _ _ => (speaks_notify hsetup (.beforeCommand c) hc).bind fun _ _ =>
    (speaks_guardHolds hsetup hc.guard).bind fun b _ => ?_
  split
  · exact (speaks_verb hsetup hc.verb hr).bind fun _ _ => speaks_notify hsetup (.afterCommand c) hc
  · exact speaks_notify hsetup (.afterCommand c) hc

/-- **Commands** at any depth. -/
theorem speaks_command : ∀ (d : Nat) {c : Command}, c.Drawn Lexeme.Unbroken → Speaks base (fun _ => True) (c.run setup d)
  | 0, _, hc => by
    refine speaks_command_of_steps hsetup (fun step pos _ => ?_) hc
    rw [Comparison.stepRunner]
    split
    · exact (speaks_pushFrame _ pos).bind fun _ _ => speaks_limit
    · exact speaks_limit
  | d + 1, _, hc => by
    refine speaks_command_of_steps hsetup (fun step pos hstep => ?_) hc
    have hpop : Speaks base (fun _ => True) (popFrame : Run ω Unit) :=
      speaks_modify fun s hs => ⟨hs.environment, hs.program, hs.typed⟩
    exact (speaks_pushFrame _ pos).bind fun _ _ => (speaks_command d hstep).bind fun _ _ => hpop

/-! ## Lines -/

theorem speaks_line {line : Line} (h : line.Drawn Lexeme.Unbroken) : Speaks base (fun _ => True) (line.run setup) := by
  cases line with
  | direct c => exact speaks_command hsetup _ h
  | stored pos n c =>
    exact (speaks_record hsetup _ pos).bind fun _ _ =>
      speaks_modify fun s hs => ⟨hs.environment, hs.program.store h.1 h.2, hs.typed⟩

theorem speaks_runText {text : String} (htext : OneLine text) : Speaks base (fun _ => True) (runText setup text) := by
  unfold runText
  refine (speaks_notify hsetup (.lineStart text) htext).bind fun _ _ => speaks_get fun s hs => ?_
  let src : Source := ⟨setup.file, s.lineNumber, text.toList⟩
  cases hread : Line.parse src with
  | ok line => exact speaks_line hsetup (parse_unbroken src htext hread) s hs
  | error e => exact .error (parse_message src htext hread) hs

omit hsetup in
theorem Failure.Unbroken.ending {f : Failure} (h : f.Unbroken) (s : State ω) : OneLine (f.ending s).message := by
  rcases f with (e | e | (message | _ | _)) | message
  · exact h
  · exact h
  · exact Cause.oneLine_internal h
  · exact Cause.oneLine_limitReached
  · exact h
  · exact Cause.oneLine_internal h

theorem report_unbroken {e : LineError} (he : OneLine e.message) {s : State ω} (hs : s.Unbroken base) :
    OneLine (report setup e s).1.message ∧ (report setup e s).2.Unbroken base := by
  have hend := speaks_notify hsetup (.onError e) he s hs
  rw [report]
  rcases @notify_onError _ setup e s with ⟨t, hrun⟩ | ⟨e', t, hrun⟩ <;> rw [hrun] at hend ⊢
  · cases hend with
    | ok _ ht => exact ⟨he, ht⟩
  · cases hend with
    | error hf ht => exact ⟨hf, ht⟩

theorem settle_unbroken {f : Failure} (hf : f.Unbroken) {s : State ω} (hs : s.Unbroken base) :
    OneLine (settle setup f s).1.message ∧ (settle setup f s).2.Unbroken base := by
  rcases settle_cases setup f s with ⟨-, hsettle⟩ | ⟨-, hsettle⟩
  · rw [hsettle]
    exact report_unbroken hsetup (hf.ending s) hs
  · rw [hsettle]
    exact ⟨hf.ending s, hs⟩

/-- **Lines.** What a line types are whole lines, and its error is said on one line. -/
theorem evaluateLine_unbroken {text : String} (htext : OneLine text) {s : State ω} (hs : s.Unbroken base) :
    (∀ e, (evaluateLine setup text s).1 = some e → OneLine e.message) ∧ (evaluateLine setup text s).2.Unbroken base := by
  have hstart : State.Unbroken base { s with lineNumber := s.lineNumber + 1, frames := [.top] } :=
    ⟨hs.environment, hs.program, hs.typed⟩
  have hend := speaks_runText hsetup htext _ hstart
  rw [evaluateLine]
  generalize (runText setup text).run { s with lineNumber := s.lineNumber + 1, frames := [.top] } = r at hend ⊢
  cases hend with
  | ok _ ht =>
    dsimp only
    exact ⟨by simp, ht⟩
  | error hf ht =>
    obtain ⟨hmessage, hu⟩ := settle_unbroken hsetup hf ht
    dsimp only
    refine ⟨?_, hu⟩
    rintro _ ⟨⟩
    exact hmessage

end

end

end JossLang
