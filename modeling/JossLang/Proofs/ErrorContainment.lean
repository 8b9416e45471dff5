import JossLang.Proofs.Invariants
import JossLang.Extension.Script

/-!
# Errors end their lines only

A line can be told with exceptions: it catches whatever stops it, tells the handlers of errors, and raises an error
of the language in its place (`raiseLine`), and a text catches these errors and nothing else (`collectErrors`). So
told, nothing else gets out of a line that ends, unless a handler that is told of its error raises it:
`evaluation_contained`.
-/

namespace JossLang

variable {ω α : Type}

section
variable (setup : Setup ω)

/-- Evaluates a line, and raises the error that it ends with, or what stops the handlers that are told of it. -/
def raiseLine (text : String) : Run ω Unit := do
  modify fun s => { s with lineNumber := s.lineNumber + 1, frames := [.top] }
  try runText setup text
  catch failure =>
    match failure with
    | .error (.parse e) =>
      notify setup (.onError (.parse e))
      throw (.error (.parse e))
    | .error (.runtime e) =>
      let step := e.step <|> (← get).log.last?.map (·.index)
      notify setup (.onError (.runtime { e with step := step }))
      throw (.error (.runtime { e with step := step }))
    | .error (.stray (.plain message)) => throw (.error (internalError (← get) (.internal message)))
    | .limit => throw (.error (internalError (← get) .limitReached))
    | .endless => throw .endless
    | .foreign message => throw (.error (internalError (← get) (.internal message)))

def tryLine (text : String) : Run ω (Option LineError) := do
  try
    raiseLine setup text
    pure none
  catch failure =>
    match failure with
    | .error (.parse e) => pure (some (.parse e))
    | .error (.runtime e) => pure (some (.runtime e))
    | _ => throw failure

/-- Evaluates lines one after the other, and collects their errors. Anything else that is raised stops it. -/
def collectErrors : List String → Run ω (List LineError)
  | [] => pure []
  | l :: ls => do
    let e ← tryLine setup l
    return e.toList ++ (← collectErrors ls)

/-- Each of the lines returns or raises an error, one after the other from a state to a state; these are the errors, one
of each line that failed. No line follows one that raises something stray. -/
inductive LinesEnd : List String → State ω → List LineError → State ω → Prop where
  | done {s : State ω} : LinesEnd [] s [] s
  | returned {l : String} {ls : List String} {es : List LineError} {s t u : State ω} :
      (raiseLine setup l).run s = (.ok (), t) → LinesEnd ls t es u → LinesEnd (l :: ls) s es u
  | failed {l : String} {ls : List String} {e : LineError} {es : List LineError} {s t u : State ω} :
      (raiseLine setup l).run s = (.error (.error e), t) → ¬ e.isStray → LinesEnd ls t es u → LinesEnd (l :: ls) s (e :: es) u
  | stopped {l : String} {ls : List String} {x : Stray} {s t : State ω} :
      (raiseLine setup l).run s = (.error (.error (.stray x)), t) → LinesEnd (l :: ls) s [.stray x] t

def Setup.StopsIn (text : String) (s : State ω) (f : Failure) (t : State ω) : Prop :=
  (runText setup text).run { s with lineNumber := s.lineNumber + 1, frames := [.top] } = (.error f, t)

def Setup.FailsToReport (text : String) (s : State ω) (e' : LineError) (t : State ω) : Prop :=
  ∃ f u, f.Known ∧ setup.StopsIn text s f u ∧ (notify setup (.onError (f.ending u))).run u = (.error (.error e'), t)

/-- Handlers that are told of errors may fail, but raise nothing stray. -/
def Setup.ReportsContained : Prop :=
  ∀ h ∈ setup.registry.handlers, h.event = .onError → ∀ notice s x, ((h.run notice).run s).1 ≠ .error (.error (.stray x))

end

theorem tryCatch_run (m : Run ω α) (h : Failure → Run ω α) (s : State ω) : (tryCatch m h).run s = match m.run s with
    | (.ok a, t) => (.ok a, t)
    | (.error f, t) => (h f).run t := by
  simp only [tryCatch, tryCatchThe, MonadExceptOf.tryCatch, ExceptT.tryCatch, ExceptT.run, ExceptT.mk, bind, StateT.bind]
  rcases m s with ⟨_ | _, _⟩ <;> rfl

section
variable {setup : Setup ω}

/-! ## Lines -/

theorem notify_onError (e : LineError) (s : State ω) : (∃ t, (notify setup (.onError e)).run s = (.ok (), t)) ∨
    ∃ e' t, (notify setup (.onError e)).run s = (.error (.error e'), t) := by
  cases hrun : (notify setup (.onError e)).run s with
  | mk result t =>
    rcases result with (e' | message) | _
    · exact .inr ⟨e', t, rfl⟩
    · exact absurd hrun (blame_ne_foreign _ _ _ _ _ _)
    · exact .inl ⟨t, rfl⟩

theorem notify_throw_run (e : LineError) (s : State ω) :
    (notify setup (.onError e) >>= fun _ => throw (.error e) : Run ω Unit).run s =
      (.error (.error (report setup e s).1), (report setup e s).2) := by
  rw [run_bind, report]
  rcases notify_onError e s with ⟨t, hrun⟩ | ⟨e', t, hrun⟩
  · rw [hrun]
    rfl
  · rw [hrun]

/-- **Lines** raise the error that they end with. -/
theorem raiseLine_run (text : String) (s : State ω) : (raiseLine setup text).run s = match evaluateLine setup text s with
    | (none, t) => (.ok (), t)
    | (some e, t) => (.error (.error e), t) := by
  rw [raiseLine, run_bind]
  show (tryCatch (runText setup text) _).run { s with lineNumber := s.lineNumber + 1, frames := [.top] } = _
  rw [tryCatch_run, evaluateLine]
  dsimp only
  generalize (runText setup text).run { s with lineNumber := s.lineNumber + 1, frames := [.top] } = r
  rcases r with ⟨((e | e | (_ | _ | _)) | message) | _, t⟩
  · exact notify_throw_run _ t
  · exact notify_throw_run _ t
  all_goals rfl

theorem settle_eq_stray_iff {f : Failure} {s t : State ω} {x : Stray} : settle setup f s = (.stray x, t) ↔
    x = .endless ∧ f = .endless ∧ s = t ∨
      f.Known ∧ (notify setup (.onError (f.ending s))).run s = (.error (.error (.stray x)), t) := by
  rcases settle_cases setup f s with ⟨hf, hsettle⟩ | ⟨hf, hsettle⟩
  · obtain ⟨e, rfl, he⟩ := hf
    have hne : e ≠ .stray .endless := fun h => he (h ▸ rfl)
    have hending : (Failure.error e).ending s ≠ .stray x := by
      cases e with
      | parse _ | runtime _ => nofun
      | stray _ => exact absurd rfl he
    have hknown : (Failure.error e).Known := ⟨e, rfl, he⟩
    have hreport : report setup ((Failure.error e).ending s) s = (.stray x, t) ↔
        (notify setup (.onError ((Failure.error e).ending s))).run s = (.error (.error (.stray x)), t) := by
      rw [report]
      rcases @notify_onError ω setup ((Failure.error e).ending s) s with ⟨u, hrun⟩ | ⟨e', u, hrun⟩ <;> rw [hrun]
      · exact ⟨fun h => absurd (congrArg Prod.fst h) hending, fun h => by cases h⟩
      · exact ⟨fun h => by cases h; rfl, fun h => by cases h; rfl⟩
    rw [hsettle, hreport]
    simp [hne, hknown]
  · have hending : f.ending s = .stray x ↔ x = .endless ∧ f = .endless := by
      rcases f with (_ | _ | (_ | _ | _)) | _
      · exact absurd ⟨_, rfl, Bool.false_ne_true⟩ hf
      · exact absurd ⟨_, rfl, Bool.false_ne_true⟩ hf
      all_goals simp [Failure.ending, internalError, eq_comm]
    simp [hsettle, hending, hf, and_assoc]

/-- **Stray ends.** What is stray at the end of a line was raised by a handler that was told of its error, unless the
line has no end. -/
theorem evaluateLine_eq_stray_iff {text : String} {s t : State ω} {x : Stray} :
    evaluateLine setup text s = (some (.stray x), t) ↔
      x = .endless ∧ setup.StopsIn text s .endless t ∨ setup.FailsToReport text s (.stray x) t := by
  unfold Setup.FailsToReport Setup.StopsIn
  rw [evaluateLine]
  dsimp only
  generalize (runText setup text).run { s with lineNumber := s.lineNumber + 1, frames := [.top] } = r
  rcases r with ⟨f | _, u⟩
  · have hsettle : ((some (settle setup f u).1, (settle setup f u).2) = (some (.stray x), t)) ↔
        settle setup f u = (.stray x, t) := by
      simp [Prod.ext_iff]
    dsimp only
    rw [hsettle, settle_eq_stray_iff]
    constructor
    · rintro (⟨hx, rfl, rfl⟩ | ⟨hf, hnotify⟩)
      · exact .inl ⟨hx, rfl⟩
      · exact .inr ⟨f, u, hf, rfl, hnotify⟩
    · rintro (⟨hx, hstop⟩ | ⟨_, _, hf, hstop, hnotify⟩)
      · cases hstop
        exact .inl ⟨hx, rfl, rfl⟩
      · cases hstop
        exact .inr ⟨hf, hnotify⟩
  · constructor
    · rintro ⟨⟩
    · rintro (⟨-, ⟨⟩⟩ | ⟨_, _, -, ⟨⟩, -⟩)

theorem Setup.ReportsContained.endless (hreports : setup.ReportsContained) {text : String} {s t : State ω} {x : Stray}
    (h : evaluateLine setup text s = (some (.stray x), t)) : x = .endless := by
  rcases evaluateLine_eq_stray_iff.mp h with ⟨hx, -⟩ | ⟨f, u, -, -, hnotify⟩
  · exact hx
  · have hstays : Stays (fun _ => True) (fun f _ => ∀ x, f ≠ .error (.stray x)) (notify setup (.onError (f.ending u))) := by
      refine stays_notify (fun _ _ _ _ _ _ => nofun) fun g hg hevent => stays_of_failures fun s f t hrun x hf => ?_
      rw [hf] at hrun
      exact hreports g hg hevent _ s x (congrArg Prod.fst hrun)
    exact absurd rfl (hstays.of_error trivial hnotify x)

/-! ## Texts -/

theorem tryLine_run (text : String) (s : State ω) : (tryLine setup text).run s = match evaluateLine setup text s with
    | (some (.stray x), t) => (.error (.error (.stray x)), t)
    | (e, t) => (.ok e, t) := by
  rw [tryLine, tryCatch_run, run_bind, raiseLine_run]
  rcases evaluateLine setup text s with ⟨_ | (_ | _ | _), t⟩ <;> rfl

theorem collectErrors_cons {l : String} {ls : List String} {s t u : State ω} {e : Option LineError}
    {r : Except Failure (List LineError)} (h : (tryLine setup l).run s = (.ok e, t))
    (hr : (collectErrors setup ls).run t = (r, u)) : (collectErrors setup (l :: ls)).run s = (r.map (e.toList ++ ·), u) := by
  rw [collectErrors, run_bind, h]
  dsimp only
  rw [run_bind, hr]
  cases r <;> rfl

inductive Collected (setup : Setup ω) (ls : List String) (s : State ω) (es : List LineError) (t : State ω) : Prop where
  | all : (∀ e ∈ es, ¬ e.isStray) → (collectErrors setup ls).run s = (.ok es, t) → evaluateLines setup ls s = (es, t) →
      Collected setup ls s es t
  | raised (before : List LineError) {x : Stray} : (∀ e ∈ before, ¬ e.isStray) → es = before ++ [.stray x] →
      (collectErrors setup ls).run s = (.error (.error (.stray x)), t) → Collected setup ls s es t

theorem Collected.cons {l : String} {ls : List String} {s t u : State ω} {e : Option LineError} {es : List LineError}
    (hline : evaluateLine setup l s = (e, t)) (he : ∀ x ∈ e, ¬ x.isStray) (h : Collected setup ls t es u) :
    Collected setup (l :: ls) s (e.toList ++ es) u := by
  have htry : (tryLine setup l).run s = (.ok e, t) := by
    rw [tryLine_run, hline]
    rcases e with _ | _ | _ | x
    · rfl
    · rfl
    · rfl
    · exact absurd rfl (he _ rfl)
  have hall : ∀ {es : List LineError}, (∀ e ∈ es, ¬ e.isStray) → ∀ x ∈ e.toList ++ es, ¬ x.isStray := fun hes x hx =>
    (List.mem_append.mp hx).elim (fun hx => he x (Option.mem_toList.mp hx)) (hes x)
  cases h with
  | all hes hcollect hlines =>
    exact .all (hall hes) (collectErrors_cons htry hcollect) (by rw [evaluateLines, hline]; dsimp only; rw [hlines])
  | raised before hbefore hes hcollect =>
    exact .raised (e.toList ++ before) (hall hbefore) (by rw [hes, List.append_assoc]) (collectErrors_cons htry hcollect)

/-- **Texts** collect the errors of their lines up to the first one that raises something stray. -/
theorem collectErrors_run (ls : List String) (s : State ω) : ∃ es t, LinesEnd setup ls s es t ∧
    evaluateUntilStray setup ls s = (es, t) ∧ Collected setup ls s es t := by
  induction ls generalizing s with
  | nil => exact ⟨[], s, .done, rfl, .all (List.forall_mem_nil _) rfl rfl⟩
  | cons l ls ih =>
    have hraise := @raiseLine_run ω setup l s
    rcases hline : evaluateLine setup l s with ⟨e, t⟩
    obtain ⟨es, u, hends, huntil, hcollected⟩ := ih t
    rw [hline] at hraise
    rw [evaluateUntilStray, hline]
    rcases e with _ | e | e | x <;> dsimp only at hraise ⊢
    · rw [huntil]
      exact ⟨es, u, .returned hraise hends, rfl, hcollected.cons hline (by simp)⟩
    · rw [huntil]
      exact ⟨_, u, .failed hraise Bool.false_ne_true hends, rfl, hcollected.cons hline (by simp [LineError.isStray])⟩
    · rw [huntil]
      exact ⟨_, u, .failed hraise Bool.false_ne_true hends, rfl, hcollected.cons hline (by simp [LineError.isStray])⟩
    · refine ⟨_, t, .stopped hraise, rfl, .raised [] (List.forall_mem_nil _) rfl ?_⟩
      rw [collectErrors, run_bind, tryLine_run, hline]

end

/-- **Containment.** A line raises what it ends with: an error of the language, unless it has no end, or a handler that was
told of its error raises something stray. The errors of a text are those of its lines that failed, one of each and in their
order, and all of its lines are evaluated unless one of them raises something stray. -/
theorem evaluation_contained (setup : Setup ω) :
    (∀ text s, (∃ t, (raiseLine setup text).run s = (.ok (), t) ∧ evaluateLine setup text s = (none, t)) ∨
      ∃ e t, (raiseLine setup text).run s = (.error (.error e), t) ∧ evaluateLine setup text s = (some e, t)) ∧
    (∀ text s x t, evaluateLine setup text s = (some (.stray x), t) ↔
      x = .endless ∧ setup.StopsIn text s .endless t ∨ setup.FailsToReport text s (.stray x) t) ∧
    (∀ text s, ∃ es t, evaluateText setup text s = (es, t) ∧ LinesEnd setup (programLines text) s es t ∧
      Collected setup (programLines text) s es t) ∧
    (setup.ReportsContained → ∀ text s x t, evaluateLine setup text s = (some (.stray x), t) → x = .endless) := by
  refine ⟨fun text s => ?_, fun _ _ _ _ => evaluateLine_eq_stray_iff, fun text s => ?_, fun hreports _ _ _ _ => hreports.endless⟩
  · have hrun := @raiseLine_run ω setup text s
    generalize evaluateLine setup text s = x at hrun ⊢
    rcases x with ⟨_ | e, t⟩
    · exact .inl ⟨t, hrun, rfl⟩
    · exact .inr ⟨e, t, hrun, rfl⟩
  · obtain ⟨es, t, hends, htext, hcollected⟩ := @collectErrors_run ω setup (programLines text) s
    exact ⟨es, t, htext, hends, hcollected⟩

def Setup.unruly : Setup Console where
  sink := Console.type
  registry :=
    { functions := [⟨"boom", ⟨1, none⟩, "", (Script.Body.raise (.foreign "boom")).run "boom"⟩]
      handlers :=
        [⟨.lineStart, 0, "test", fun notice =>
            Script.Responder.run ⟨.raise (.parse "refused"), some "Type 1."⟩ (Script.noticeDetail notice)⟩,
          ⟨.onError, 0, "test", fun notice =>
            Script.Responder.run ⟨.raise (.foreign "lost"), some "JossBindingError: No such variable: y"⟩
              (Script.noticeDetail notice)⟩] }

theorem evaluation_contained_unruly :
    let setup := Setup.unruly
    let text := "Type boom(1).\nType y.\nType 1.\nType 2."
    setup.ReportsContained ∧ (∀ l s x t, evaluateLine setup l s = (some (.stray x), t) → x = .endless) ∧
      ∃ es t, evaluateText setup text (setup.start {}) = (es, t) ∧ LinesEnd setup (programLines text) (setup.start {}) es t ∧
        t.world.out = "2\n" ∧ es.map LineError.message =
          ["Internal interpreter error: boom", "Extension hook 'on_error' failed: lost", "refused"] := by
  intro setup text
  have hreports : setup.ReportsContained := by
    refine List.forall_mem_cons.mpr ⟨nofun, List.forall_mem_singleton.mpr fun _ notice s x => ?_⟩
    dsimp only
    rw [Script.Responder.run]
    split <;> nofun
  obtain ⟨-, -, htexts, hendless⟩ := evaluation_contained setup
  obtain ⟨es, t, htext, hends, -⟩ := htexts text (setup.start {})
  refine ⟨hreports, hendless hreports, es, t, htext, hends, ?_, ?_⟩
  · rw [show t = (evaluateText setup text (setup.start {})).2 from (congrArg Prod.snd htext).symm]
    decide +kernel
  · rw [show es = (evaluateText setup text (setup.start {})).1 from (congrArg Prod.fst htext).symm]
    decide +kernel

def Setup.stopping : Setup Console where
  sink := Console.type
  registry :=
    { handlers :=
        [⟨.onError, 0, "test", fun notice =>
            Script.Responder.run ⟨.raise (.plain "stop"), none⟩ (Script.noticeDetail notice)⟩] }

/-- What this handler raises leaves the line, and the line after it is not evaluated. -/
theorem evaluation_contained_fails :
    let setup := Setup.stopping
    let text := "Type y.\nType 1."
    let r := evaluateText setup text (setup.start {})
    Reachable setup (setup.start {}) ∧
      (evaluateLine setup "Type y." (setup.start {})).1.map LineError.isStray = some true ∧
      r.1.map LineError.label = ["JossError"] ∧ r.2.world.out = "" ∧
      (match ((collectErrors setup (programLines text)).run (setup.start {})).1 with
        | .error (.error e) => some (e.label, e.message)
        | _ => none) = some ("JossError", "stop") := by
  exact ⟨⟨{}, [], rfl⟩, by decide +kernel⟩

end JossLang
