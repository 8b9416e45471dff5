import JossLang.Proofs.ErrorReports

/-!
# Entries that errors are tied to

A session loses no entry of its log, and a runtime error that ends a line names one of them, as long as what is
registered keeps to this. There is one exception: the error of a handler that was being told of an error
(`evaluateLine_tied`).
-/

namespace JossLang

variable {ω α : Type}

def RuntimeError.TiedTo (e : RuntimeError) (log : Log) : Prop := ∃ entry ∈ log.entries, e.step = some entry.index

def Failure.TiesTo (f : Failure) (log : Log) : Prop :=
  ∀ e, f = .error (.runtime e) → e.step = none ∨ e.TiedTo log

def Log.KeptBy (log log' : Log) : Prop := log.entries ⊆ log'.entries

/-- No entry of the log is lost, and errors name an entry of the log, if they name one. -/
def KeepsLog (m : Run ω α) : Prop :=
  ∀ s : State ω, s.log.KeptBy (m.run s).2.log ∧ ∀ f, (m.run s).1 = .error f → f.TiesTo (m.run s).2.log

structure Setup.KeepsLog (setup : Setup ω) : Prop where
  functions : ∀ g ∈ setup.registry.functions, ∀ args pos, JossLang.KeepsLog (g.run args pos)
  handlers : ∀ h ∈ setup.registry.handlers, ∀ notice, JossLang.KeepsLog (h.run notice)
  rules : ∀ r ∈ setup.registry.rules, ∀ notice, JossLang.KeepsLog (r.run notice)

theorem Log.KeptBy.trans {log log' log'' : Log} (h : log.KeptBy log') (h' : log'.KeptBy log'') : log.KeptBy log'' :=
  List.Subset.trans h h'

theorem Log.KeptBy.ne_nil {log log' : Log} (h : log.KeptBy log') (hlog : log.entries ≠ []) : log'.entries ≠ [] := by
  rintro hnil
  rw [KeptBy, hnil] at h
  exact hlog (List.subset_nil.mp h)

theorem RuntimeError.TiedTo.mono {e : RuntimeError} {log log' : Log} (h : e.TiedTo log) (hlog : log.KeptBy log') :
    e.TiedTo log' := by
  obtain ⟨entry, hmem, hstep⟩ := h
  exact ⟨entry, hlog hmem, hstep⟩

theorem Log.tied_last {log : Log} (hlog : log.entries ≠ []) {e : RuntimeError} (he : e.step = log.last?.map (·.index)) :
    e.TiedTo log := by
  obtain ⟨entries⟩ := log
  cases entries with
  | nil => exact absurd rfl hlog
  | cons entry entries => exact ⟨entry, List.mem_cons_self, he⟩

section
variable {setup : Setup ω}

theorem KeepsLog.stays {m : Run ω α} (h : KeepsLog m) (log : Log) :
    Stays (fun s => log.KeptBy s.log) (fun f s => log.KeptBy s.log ∧ f.TiesTo s.log) m := by
  intro s hs
  obtain ⟨hkept, hties⟩ := h s
  generalize m.run s = r at hkept hties
  rcases r with ⟨f | _, t⟩
  · exact .error ⟨hs.trans hkept, hties f rfl⟩
  · exact .ok (hs.trans hkept)

theorem Setup.KeepsLog.notify (h : setup.KeepsLog) (log : Log) (notice : Notice) :
    Stays (fun s => log.KeptBy s.log) (fun f s => log.KeptBy s.log ∧ f.TiesTo s.log) (notify setup notice) :=
  stays_notify (fun _ _ _ _ hf => ⟨hf.1, by rintro _ ⟨⟩; exact .inl rfl⟩) fun g hg _ => (h.handlers g hg notice).stays log

theorem Setup.KeepsLog.maintains (h : setup.KeepsLog) (log : Log) :
    setup.Maintains (fun s => log.KeptBy s.log) fun f s => log.KeptBy s.log ∧ f.TiesTo s.log where
  functions g hg args pos := (h.functions g hg args pos).stays log
  raised _ _ _ hs := ⟨hs, by rintro _ ⟨⟩; exact .inl rfl⟩
  limit _ hs := ⟨hs, by rintro _ ⟨⟩⟩
  endless _ hs := ⟨hs, by rintro _ ⟨⟩⟩
  marks _ := id
  notify notice _ := h.notify log notice
  record _ _ := stays_record (fun _ _ _ _ hf => ⟨hf.1, by rintro _ ⟨⟩; exact .inl rfl⟩)
    (fun r hr notice => (h.rules r hr notice).stays log) fun _ hs => hs.trans (List.subset_cons_self _ _)
  unread _ _ hs := ⟨hs, by rintro _ ⟨⟩⟩
  environment _ _ _ := id
  delivered _ := stays_deliver (fun _ => id) fun _ _ hs _ => ⟨hs, by rintro _ ⟨⟩⟩
  missing pos goal f s hs hmissing := by
    rcases Program.stepsOf_failure hmissing with ⟨cause, -, rfl⟩ | ⟨n, rfl⟩
    · exact ⟨hs, by rintro _ ⟨⟩; exact .inl rfl⟩
    · exact ⟨hs, by rintro _ ⟨⟩⟩
  frames _ _ _ := id
  program _ _ := id

/-! ## Lines -/

variable (h : setup.KeepsLog)
include h

/-- **Lines** lose no entry of the log. -/
theorem evaluateLine_kept (text : String) (s : State ω) : s.log.KeptBy (evaluateLine setup text s).2.log :=
  (h.maintains s.log).evaluateLine_stays (fun _ _ => And.left) (fun e => h.notify s.log (.onError e)) (List.Subset.refl _)

theorem Reachable.entries_ne_nil {s : State ω} (hs : Reachable setup s) : s.log.entries ≠ [] :=
  hs.of_lines (fun _ => List.cons_ne_nil _ _) fun text s hs => (evaluateLine_kept h text s).ne_nil hs

/-! ## Errors -/

omit h in
theorem ending_tied {f : Failure} {s : State ω} (hs : s.log.entries ≠ []) (hf : f.TiesTo s.log) {e : RuntimeError}
    (he : f.ending s = .runtime e) : e.TiedTo s.log := by
  rcases f with (_ | e₀ | (_ | _ | _)) | message
  case error.runtime =>
    obtain rfl := LineError.runtime.inj he
    rcases hf e₀ rfl with hnone | ⟨entry, hmem, hstep⟩
    · refine Log.tied_last hs ?_
      dsimp only
      rw [hnone]
      rfl
    · refine ⟨entry, hmem, ?_⟩
      dsimp only
      rw [hstep]
      rfl
  case error.parse | error.stray.endless => cases he
  all_goals
    obtain rfl := LineError.runtime.inj he
    exact Log.tied_last hs rfl

/-- So does the one that a line ends with, but for the error of a handler that was being told of another one. -/
theorem settle_tied {f : Failure} {s t : State ω} (hs : s.log.entries ≠ []) (hf : f.TiesTo s.log) {e : RuntimeError}
    (he : settle setup f s = (.runtime e, t)) : e.TiedTo t.log ∨ e.step = none ∧ f.Known ∧
      (notify setup (.onError (f.ending s))).run s = (.error (.error (.runtime e)), t) := by
  rcases settle_cases setup f s with ⟨hknown, hsettle⟩ | ⟨-, hsettle⟩
  · have hend := h.notify s.log (.onError (f.ending s)) s (List.Subset.refl _)
    rw [hsettle, report] at he
    rcases @notify_onError _ setup (f.ending s) s with ⟨u, hrun⟩ | ⟨e', u, hrun⟩ <;> rw [hrun] at he hend
    · obtain ⟨hending, rfl⟩ := Prod.mk.inj he
      cases hend with
      | ok ht => exact .inl ((ending_tied hs hf hending).mono ht)
    · obtain ⟨rfl, rfl⟩ := Prod.mk.inj he
      cases hend with
      | error ht =>
        rcases ht.2 e rfl with hnone | htied
        · exact .inr ⟨hnone, hknown, hrun⟩
        · exact .inl htied
  · obtain ⟨hending, rfl⟩ := Prod.mk.inj (hsettle.symm.trans he)
    exact .inl (ending_tied hs hf hending)

end

/-- **Entries of errors.** A runtime error that ends a line names an entry of the log, unless it is the error of a
handler that was being told of another one, and names none. So it does if these handlers return. -/
theorem evaluateLine_tied {setup : Setup ω} (h : setup.KeepsLog) {s : State ω} (hs : Reachable setup s) {text : String}
    {e : RuntimeError} {t : State ω} (he : evaluateLine setup text s = (some (.runtime e), t)) :
    (e.TiedTo t.log ↔ ¬ (e.step = none ∧ setup.FailsToReport text s (.runtime e) t)) ∧
      (setup.ReportsReturn → e.TiedTo t.log) := by
  have hend := (h.maintains s.log).runText_stays text { s with lineNumber := s.lineNumber + 1, frames := [.top] }
    (List.Subset.refl _)
  have htied : e.TiedTo t.log ∨ e.step = none ∧ setup.FailsToReport text s (.runtime e) t := by
    rw [evaluateLine] at he
    dsimp only at he
    unfold Setup.FailsToReport Setup.StopsIn
    generalize (runText setup text).run { s with lineNumber := s.lineNumber + 1, frames := [.top] } = r at he hend ⊢
    cases hend with
    | ok hu => cases he
    | @error f u hu =>
      obtain ⟨hended, hstate⟩ := Prod.mk.inj he
      have hsettle : settle setup f u = (.runtime e, t) := Prod.ext (Option.some.inj hended) hstate
      rcases settle_tied h (hu.1.ne_nil (hs.entries_ne_nil h)) hu.2 hsettle with htied | ⟨hnone, hf, hnotify⟩
      · exact .inl htied
      · exact .inr ⟨hnone, f, u, hf, rfl, hnotify⟩
  refine ⟨⟨?_, htied.resolve_right⟩, fun hreturns => htied.resolve_right ?_⟩
  · rintro ⟨entry, -, hstep⟩ ⟨hnone, -⟩
    exact Option.some_ne_none _ (hstep.symm.trans hnone)
  · rintro ⟨-, f, u, -, -, hnotify⟩
    obtain ⟨v, hv⟩ := hreturns.notify (f.ending u) u
    cases hv.symm.trans hnotify

/-! ## Scripted extensions -/

theorem keepsLog_pure (a : α) : KeepsLog (pure a : Run ω α) := fun _ => ⟨List.Subset.refl _, by rintro _ ⟨⟩⟩

theorem keepsLog_throw {f : Failure} (hf : ∀ log, f.TiesTo log) : KeepsLog (throw f : Run ω α) := by
  refine fun s => ⟨List.Subset.refl _, ?_⟩
  rintro _ ⟨⟩
  exact hf _

theorem keepsLog_onConsole (g : Console → Console) : KeepsLog (onConsole g) := fun _ => ⟨List.Subset.refl _, by rintro _ ⟨⟩⟩

theorem Script.Raised.run_keepsLog (raised : Script.Raised) : KeepsLog (raised.run : Run Console α) := by
  cases raised with
  | foreign message => exact keepsLog_throw fun _ => by rintro _ ⟨⟩
  | fault message rule => exact keepsLog_throw fun _ => by rintro _ ⟨⟩; exact .inl rfl
  | parse message => exact keepsLog_throw fun _ => by rintro _ ⟨⟩
  | plain message => exact keepsLog_throw fun _ => by rintro _ ⟨⟩

theorem Script.Responder.run_keepsLog (r : Script.Responder) (detail : String) : KeepsLog (r.run detail) := by
  rw [Script.Responder.run]
  split
  · split
    · exact keepsLog_onConsole _
    · exact keepsLog_onConsole _
    · next raised _ => exact raised.run_keepsLog
  · exact keepsLog_pure ()

theorem Setup.fallible_keepsLog (raised : Script.Raised) : (Setup.fallible raised).KeepsLog where
  functions := List.forall_mem_singleton.mpr fun _ _ => raised.run_keepsLog
  handlers := List.forall_mem_cons.mpr ⟨fun _ => Script.Responder.run_keepsLog _ _,
    List.forall_mem_singleton.mpr fun _ => Script.Responder.run_keepsLog _ _⟩
  rules := List.forall_mem_nil _

theorem runtime_of_label {error : Option LineError} (h : error.map LineError.label = some "JossRuntimeError") :
    ∃ e, error = some (.runtime e) := by
  obtain ⟨e | e | (_ | _ | _), rfl, he⟩ := Option.map_eq_some_iff.mp h
  case runtime => exact ⟨e, rfl⟩
  all_goals exact absurd he (by simp [LineError.label, Stray.label])

/-- A handler of outputs fails in a step. -/
theorem evaluateLine_tied_output :
    let setup := Setup.fallible (.foreign "boom")
    let s := (evaluateLines setup ["1.1 Type 2, 1."] (setup.start {})).2
    let r := evaluateLine setup "Do part 1." s
    setup.KeepsLog ∧ Reachable setup s ∧ r.1.map LineError.message = some "Extension hook 'output' failed: full" ∧
      ∃ e, r.1 = some (.runtime e) ∧ e.TiedTo r.2.log ∧
        (e.TiedTo r.2.log ↔ ¬ (e.step = none ∧ setup.FailsToReport "Do part 1." s (.runtime e) r.2)) := by
  intro setup s r
  have hlog : setup.KeepsLog := Setup.fallible_keepsLog _
  have hs : Reachable setup s := ⟨{}, _, rfl⟩
  have hlabel : r.1.map LineError.label = some "JossRuntimeError" := by decide +kernel
  obtain ⟨e, he⟩ := runtime_of_label hlabel
  obtain ⟨hiff, htied⟩ := evaluateLine_tied hlog hs (Prod.ext he rfl)
  exact ⟨hlog, hs, by decide +kernel, e, he, htied (Setup.fallible_reportsReturn _), hiff⟩

/-- The error of a handler that was being told of an error names no entry. -/
theorem evaluateLine_tied_fails :
    let setup := Setup.unruly
    let r := evaluateLine setup "Type y." (setup.start {})
    Reachable setup (setup.start {}) ∧ r.1.map LineError.message = some "Extension hook 'on_error' failed: lost" ∧
      ∃ e, r.1 = some (.runtime e) ∧ e.step = none ∧ ¬ e.TiedTo r.2.log := by
  intro setup r
  have hlabel : r.1.map LineError.label = some "JossRuntimeError" := by decide +kernel
  have hstep : r.1.bind LineError.step = none := by decide +kernel
  obtain ⟨e, he⟩ := runtime_of_label hlabel
  rw [he] at hstep
  refine ⟨⟨{}, [], rfl⟩, by decide +kernel, e, he, hstep, ?_⟩
  rintro ⟨entry, -, hentry⟩
  exact Option.some_ne_none _ (hentry.symm.trans hstep)

end JossLang
