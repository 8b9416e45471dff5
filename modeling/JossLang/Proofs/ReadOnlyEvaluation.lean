import JossLang.Proofs.Invariants
import JossLang.Proofs.LineRuns
import JossLang.Extension.Script

/-!
# Evaluation leaves a session as it is

Expressions are only read: whatever is evaluated, and however it ends, the session is the same afterwards
(`ReadsOnly`), if the added functions leave it alone. So a command that fails in the evaluation of an expression
has changed neither bindings nor elements nor the program; only handlers and rules can have (`evaluation_readsOnly`).
-/

namespace JossLang

variable {ω α β : Type}

/-- Nothing but the world and the count of marks has changed: bindings, arrays, program, log, typed texts, frames
and counters are the same. -/
def State.Intact (s t : State ω) : Prop := ∃ marks world, t = { s with marks := marks, world := world }

structure State.SameStore (s t : State ω) : Prop where
  environment : t.environment = s.environment
  program : t.program = s.program

def ReadsOnly (m : Run ω α) : Prop := ∀ s : State ω, s.Intact (m.run s).2

def KeepsStore (m : Run ω α) : Prop := ∀ s : State ω, s.SameStore (m.run s).2

/-- One thing on the way of a session: it keeps its store, or a handler or a rule has run. -/
inductive Setup.HookOrKept (setup : Setup ω) (s : State ω) : State ω → Prop where
  | kept {t : State ω} : s.SameStore t → HookOrKept setup s t
  | handler {h : Handler ω} {notice : Notice} : h ∈ setup.registry.handlers → HookOrKept setup s ((h.run notice).run s).2
  | rule {r : StepRule ω} {notice : StepNotice} : r ∈ setup.registry.rules → HookOrKept setup s ((r.run notice).run s).2

def Setup.OnlyHooks (setup : Setup ω) : State ω → State ω → Prop := Relation.ReflTransGen setup.HookOrKept

namespace State

variable {s t u : State ω}

theorem Intact.refl (s : State ω) : s.Intact s := ⟨s.marks, s.world, rfl⟩

theorem Intact.trans (h : s.Intact t) (h' : t.Intact u) : s.Intact u := by
  obtain ⟨_, _, rfl⟩ := h
  obtain ⟨marks, world, rfl⟩ := h'
  exact ⟨marks, world, rfl⟩

theorem Intact.sameStore (h : s.Intact t) : s.SameStore t := by
  obtain ⟨_, _, rfl⟩ := h
  exact ⟨rfl, rfl⟩

theorem SameStore.trans (h : s.SameStore t) (h' : t.SameStore u) : s.SameStore u :=
  ⟨h'.environment.trans h.environment, h'.program.trans h.program⟩

end State

section
variable {setup : Setup ω} {s t : State ω}

theorem State.SameStore.onlyHooks (h : s.SameStore t) : setup.OnlyHooks s t := .single (.kept h)

theorem Setup.OnlyHooks.sameStore (h : setup.OnlyHooks s t)
    (hhandlers : ∀ h ∈ setup.registry.handlers, ∀ notice, KeepsStore (h.run notice))
    (hrules : ∀ r ∈ setup.registry.rules, ∀ notice, KeepsStore (r.run notice)) : s.SameStore t := by
  induction h with
  | refl => exact ⟨rfl, rfl⟩
  | tail _ hstep ih =>
    refine ih.trans ?_
    cases hstep with
    | kept hkept => exact hkept
    | handler hmem => exact hhandlers _ hmem _ _
    | rule hmem => exact hrules _ hmem _ _

end

def LeftToHooks (setup : Setup ω) (m : Run ω α) : Prop := ∀ s, setup.OnlyHooks s (m.run s).2

section
variable {setup : Setup ω}

theorem ReadsOnly.leftToHooks {m : Run ω α} (h : ReadsOnly m) : LeftToHooks setup m := fun s => (h s).sameStore.onlyHooks

theorem LeftToHooks.stays {m : Run ω α} (h : LeftToHooks setup m) (s : State ω) :
    Stays (setup.OnlyHooks s) (fun _ => setup.OnlyHooks s) m := stays_of_trans .trans h s

theorem LeftToHooks.bind {m : Run ω α} {f : α → Run ω β} (h : LeftToHooks setup m) (hf : ∀ a, LeftToHooks setup (f a)) :
    LeftToHooks setup (m >>= f) := fun s => ((h.stays s).bind fun a => (hf a).stays s).state .refl

theorem LeftToHooks.of_run {m : Run ω α} (h : LeftToHooks setup m) {s t : State ω} {result : Except Failure α}
    (hm : m.run s = (result, t)) : setup.OnlyHooks s t := by
  have ht := h s
  rwa [hm] at ht

theorem notify_leftToHooks (notice : Notice) : LeftToHooks setup (notify setup notice) := fun s =>
  (stays_notify (fun _ _ _ _ => id) fun _ hg _ => LeftToHooks.stays (fun _ => .single (.handler hg)) s).state .refl

theorem record_leftToHooks (action : Action) (pos : Location) : LeftToHooks setup (record setup action pos) := fun s =>
  (stays_record (fun _ _ _ _ => id) (fun _ hr _ => LeftToHooks.stays (fun _ => .single (.rule hr)) s)
    fun _ ht => ht.trans (State.SameStore.onlyHooks ⟨rfl, rfl⟩)).state .refl

theorem settle_leftToHooks (f : Failure) (s : State ω) : setup.OnlyHooks s (settle setup f s).2 := by
  rcases settle_cases setup f s with ⟨-, hsettle⟩ | ⟨-, hsettle⟩
  · rw [hsettle, report_state]
    exact notify_leftToHooks _ s
  · rw [hsettle]
    exact .refl

end

/-! ## Expressions -/

section
variable {setup : Setup ω} (hfunctions : ∀ g ∈ setup.registry.functions, ∀ args pos, ReadsOnly (g.run args pos))
include hfunctions

theorem evaluates_intact (s : State ω) : setup.Evaluates s.Intact fun _ => s.Intact where
  functions g hg args pos := stays_of_trans .trans (hfunctions g hg args pos) s
  raised _ _ _ := id
  limit _ := id
  endless _ := id
  marks := by
    rintro _ ⟨marks, world, rfl⟩
    exact ⟨marks + 1, world, rfl⟩

theorem eval_readsOnly (depth : Nat) (e : Expr) (scope : Scope) : ReadsOnly (e.eval setup (applyAt setup depth) scope) :=
  fun s => ((evaluates_intact hfunctions s).eval depth e scope).state (.refl s)

theorem evalAll_readsOnly (depth : Nat) (es : List Expr) (scope : Scope) :
    ReadsOnly (evalAll setup (applyAt setup depth) scope es) :=
  fun s => ((evaluates_intact hfunctions s).evalAll depth es scope).state (.refl s)

theorem evaluate_leftToHooks (e : Expr) : LeftToHooks setup (evaluate setup e) :=
  (eval_readsOnly hfunctions _ e []).leftToHooks

theorem guardHolds_leftToHooks (guard : Option Expr) : LeftToHooks setup (guardHolds setup guard) := by
  cases guard with
  | none => exact fun _ => .refl
  | some e => exact (evaluate_leftToHooks hfunctions e).bind fun _ _ => .refl

theorem typeItems_leftToHooks (items : List Item) : LeftToHooks setup (typeItems setup items) := by
  have hdelivered : ∀ text, LeftToHooks setup (deliver setup text) := fun text s =>
    (stays_deliver (fun _ ht => ht.trans (State.SameStore.onlyHooks ⟨rfl, rfl⟩))
      (fun _ _ ht _ => ht.trans (State.SameStore.onlyHooks ⟨rfl, rfl⟩))).state .refl
  have htyped : ∀ text, LeftToHooks setup (typeOut setup text) := fun text =>
    (notify_leftToHooks _).bind fun _ => hdelivered text
  induction items with
  | nil => exact fun _ => .refl
  | cons item items ih =>
    have htext : LeftToHooks setup (item.text setup) := by
      cases item with
      | quoted place text => exact fun _ => .refl
      | numeric place e => exact (evaluate_leftToHooks hfunctions e).bind fun _ _ => .refl
    exact htext.bind fun text => (htyped text).bind fun _ => (htyped "\n").bind fun _ => ih

end

/-! ## Commands that fail in an evaluation -/

/-- A line is read as a command, and in this state comes to its guard: the command has been logged, and handlers have
seen it. -/
def Setup.Opens (setup : Setup ω) (text : String) (s : State ω) (c : Command) (u : State ω) : Prop :=
  ∃ v w, (notify setup (.lineStart text)).run { s with lineNumber := s.lineNumber + 1, frames := [.top] } = (.ok (), v) ∧
    Line.parse ⟨setup.file, v.lineNumber, text.toList⟩ = .ok (.direct c) ∧
    (record setup (.command c.verb.label) c.pos).run v = (.ok (), w) ∧
    (notify setup (.beforeCommand c)).run w = (.ok (), u)

/-- The command, from its guard on, fails in the evaluation of an expression: of the guard, or, if this holds, of
the value or an index of `Set`, or of an item of `Type` when those before it have been typed. -/
inductive Command.FailsToEvaluate (setup : Setup ω) (c : Command) (u : State ω) (f : Failure) (t : State ω) : Prop where
  | guard {e : Expr} : c.guard = some e → (evaluate setup e).run u = (.error f, t) → FailsToEvaluate setup c u f t
  | value {pos : Location} {target : Target} {e : Expr} {v : State ω} : (guardHolds setup c.guard).run u = (.ok true, v) →
      c.verb = .set pos target e → (evaluate setup e).run v = (.error f, t) → FailsToEvaluate setup c u f t
  | index {pos : Location} {target : Target} {e : Expr} {a : Value} {v w : State ω} :
      (guardHolds setup c.guard).run u = (.ok true, v) → c.verb = .set pos target e → (evaluate setup e).run v = (.ok a, w) →
      (evalAll setup (applyAt setup setup.limits.calls) [] target.indices).run w = (.error f, t) →
      FailsToEvaluate setup c u f t
  | item {pos place : Location} {before after : List Item} {e : Expr} {v w : State ω} :
      (guardHolds setup c.guard).run u = (.ok true, v) → c.verb = .type pos (before ++ .numeric place e :: after) →
      (typeItems setup before).run v = (.ok (), w) → (evaluate setup e).run w = (.error f, t) → FailsToEvaluate setup c u f t

theorem typeItems_append (setup : Setup ω) : ∀ items rest : List Item,
    typeItems setup (items ++ rest) = typeItems setup items >>= fun _ => typeItems setup rest
  | [], rest => rfl
  | item :: items, rest => by
    rw [List.cons_append, typeItems, typeItems, typeItems_append setup items rest]
    simp only [bind_assoc]

def Command.fromGuard (setup : Setup ω) (r : StepRunner ω) (c : Command) : Run ω Unit := do
  if ← guardHolds setup c.guard then c.verb.run setup r
  notify setup (.afterCommand c)

section
variable {setup : Setup ω} {c : Command} {u v t : State ω} {f : Failure} {r : StepRunner ω}

theorem Command.fromGuard_of_verb (hguard : (guardHolds setup c.guard).run u = (.ok true, v))
    (hverb : (c.verb.run setup r).run v = (.error f, t)) : (c.fromGuard setup r).run u = (.error f, t) := by
  rw [fromGuard, run_bind, hguard]
  dsimp only
  rw [if_pos rfl, run_bind, hverb]

theorem Command.FailsToEvaluate.run (h : c.FailsToEvaluate setup u f t) (r : StepRunner ω) :
    (c.fromGuard setup r).run u = (.error f, t) := by
  cases h with
  | guard hguard he =>
    rw [fromGuard, hguard, run_bind, guardHolds, run_bind, he]
  | value hguard hset he =>
    refine fromGuard_of_verb hguard ?_
    rw [hset, Verb.run, run_bind, he]
  | @index pos target e a v w hguard hset he hindices =>
    refine fromGuard_of_verb hguard ?_
    have hne : target.indices.isEmpty = false := by
      cases hi : target.indices with
      | nil =>
        rw [hi] at hindices
        cases hindices
      | cons => rfl
    rw [hset, Verb.run, run_bind, he]
    dsimp only
    rw [assign, hne, if_neg Bool.false_ne_true, run_bind, hindices]
  | item hguard htype hbefore he =>
    refine fromGuard_of_verb hguard ?_
    rw [htype, Verb.run, typeItems_append, run_bind, hbefore]
    dsimp only
    rw [typeItems, run_bind, Item.text, run_bind, he]

theorem Command.FailsToEvaluate.onlyHooks (hfunctions : ∀ g ∈ setup.registry.functions, ∀ args pos, ReadsOnly (g.run args pos))
    (h : c.FailsToEvaluate setup u f t) : setup.OnlyHooks u t := by
  have hevaluated : ∀ {e : Expr} {s w : State ω} {result : Except Failure Value},
      (evaluate setup e).run s = (result, w) → setup.OnlyHooks s w := fun he => (evaluate_leftToHooks hfunctions _).of_run he
  have hguarded : ∀ {w : State ω} {holds : Bool}, (guardHolds setup c.guard).run u = (.ok holds, w) → setup.OnlyHooks u w :=
    fun hguard => (guardHolds_leftToHooks hfunctions _).of_run hguard
  cases h with
  | guard _ he => exact hevaluated he
  | value hguard _ he => exact (hguarded hguard).trans (hevaluated he)
  | index hguard _ he hindices =>
    exact ((hguarded hguard).trans (hevaluated he)).trans ((evalAll_readsOnly hfunctions _ _ _).leftToHooks.of_run hindices)
  | item hguard _ hbefore he =>
    exact ((hguarded hguard).trans ((typeItems_leftToHooks hfunctions _).of_run hbefore)).trans (hevaluated he)

theorem evaluateLine_fails {text : String} {s : State ω} (hopens : setup.Opens text s c u)
    (hfails : c.FailsToEvaluate setup u f t) : evaluateLine setup text s = (some (settle setup f t).1, (settle setup f t).2) := by
  obtain ⟨v, w, hstart, hread, hrecord, hbefore⟩ := hopens
  have hrun : (runText setup text).run { s with lineNumber := s.lineNumber + 1, frames := [.top] } = (.error f, t) := by
    rw [runText_run, hstart]
    dsimp only
    rw [hread, carryOut, Line.run, Comparison.command_run, run_bind, hrecord]
    dsimp only
    rw [run_bind, hbefore]
    exact hfails.run _
  rw [evaluateLine]
  dsimp only
  rw [hrun]

theorem Setup.Opens.onlyHooks {text : String} {s : State ω} (h : setup.Opens text s c u) : setup.OnlyHooks s u := by
  obtain ⟨v, w, hstart, -, hrecord, hbefore⟩ := h
  have hs : setup.OnlyHooks s { s with lineNumber := s.lineNumber + 1, frames := [.top] } :=
    State.SameStore.onlyHooks ⟨rfl, rfl⟩
  have hw := (hs.trans ((notify_leftToHooks _).of_run hstart)).trans ((record_leftToHooks _ _).of_run hrecord)
  exact hw.trans ((notify_leftToHooks _).of_run hbefore)

end

/-- **Reading only.** Evaluation changes nothing of a session, whether it returns or fails. A line whose command fails
in an evaluation leaves bindings, elements and program to handlers and rules: as they were, if these leave them too. -/
theorem evaluation_readsOnly {setup : Setup ω}
    (hfunctions : ∀ g ∈ setup.registry.functions, ∀ args pos, ReadsOnly (g.run args pos)) :
    (∀ depth (e : Expr) scope, ReadsOnly (e.eval setup (applyAt setup depth) scope)) ∧
    ∀ text s c u f t, setup.Opens text s c u → c.FailsToEvaluate setup u f t →
      let r := evaluateLine setup text s
      r.1 = some (settle setup f t).1 ∧ setup.OnlyHooks s r.2 ∧
      ((∀ h ∈ setup.registry.handlers, ∀ notice, KeepsStore (h.run notice)) →
        (∀ r ∈ setup.registry.rules, ∀ notice, KeepsStore (r.run notice)) → s.SameStore r.2) := by
  refine ⟨eval_readsOnly hfunctions, fun text s c u f t hopens hfails => ?_⟩
  have honly : setup.OnlyHooks s (settle setup f t).2 :=
    (hopens.onlyHooks.trans (hfails.onlyHooks hfunctions)).trans (settle_leftToHooks f t)
  dsimp only
  rw [evaluateLine_fails hopens hfails]
  exact ⟨rfl, honly, honly.sameStore⟩

def Setup.breaking : Setup Console where
  sink := taking Console.print
  registry :=
    { functions := [⟨"boom", ⟨1, some 1⟩, "", (Script.Body.raise (.foreign "boom")).run "boom"⟩]
      handlers :=
        [⟨.output, 0, "test", fun notice => Script.Responder.run ⟨.note "typed", none⟩ (Script.noticeDetail notice)⟩] }

set_option maxRecDepth 100000 in
/-- The second item calls a defined function that calls the failing one. -/
theorem evaluation_readsOnly_secondItem :
    let setup := Setup.breaking
    let s := (evaluateLines setup ["Set a(1) = 5.", "Let f(x) = boom(x)."] (setup.start {})).2
    let r := evaluateLine setup "Type a(1), f(1)." s
    (∀ g ∈ setup.registry.functions, ∀ args pos, ReadsOnly (g.run args pos)) ∧
      (∃ c u f t, setup.Opens "Type a(1), f(1)." s c u ∧ c.FailsToEvaluate setup u f t ∧ r.1 = some (settle setup f t).1) ∧
      r.1.map LineError.message = some "Internal interpreter error: boom" ∧ r.2.world.out = "5\n" ∧
      r.2.world.notes.size = 2 ∧ (∀ depth (e : Expr) scope, ReadsOnly (e.eval setup (applyAt setup depth) scope)) ∧
      setup.OnlyHooks s r.2 ∧ s.SameStore r.2 := by
  intro setup s r
  have hfunctions : ∀ g ∈ setup.registry.functions, ∀ args pos, ReadsOnly (g.run args pos) :=
    List.forall_mem_singleton.mpr fun _ _ s => .refl s
  let place (column : Nat) : Location := ⟨"<input>", 3, column, "Type a(1), f(1)."⟩
  let first : Item := .numeric (place 6) (.reference (place 6) "a" [.number (place 8) 1])
  let second : Expr := .reference (place 12) "f" [.number (place 14) 1]
  let c : Command := ⟨place 1, .type (place 1) [first, .numeric (place 12) second], none⟩
  let u : State Console :=
    State.record { s with lineNumber := s.lineNumber + 1, frames := [.top] } false (.command "Type") (place 1)
  have hread : Line.parse ⟨"<input>", 3, "Type a(1), f(1).".toList⟩ = .ok (.direct c) := by with_unfolding_all rfl
  have hnumber : s.lineNumber + 1 = 3 := by decide +kernel
  have hopens : setup.Opens "Type a(1), f(1)." s c u := ⟨_, u, rfl, by rw [hnumber]; exact hread, rfl, rfl⟩
  obtain ⟨htyped, hfailed⟩ : ((typeItems setup [first]).run u).1.isOk = true ∧
      ((evaluate setup second).run ((typeItems setup [first]).run u).2).1.isOk = false := by decide +kernel
  obtain ⟨f, t, hfails⟩ : ∃ f t, c.FailsToEvaluate setup u f t := by
    rcases hbefore : (typeItems setup [first]).run u with ⟨_ | _, v⟩
    · rw [hbefore] at htyped
      cases htyped
    · rw [hbefore] at hfailed
      rcases hsecond : (evaluate setup second).run v with ⟨f | _, t⟩
      · exact ⟨f, t, .item rfl rfl hbefore hsecond⟩
      · rw [hsecond] at hfailed
        cases hfailed
  obtain ⟨hreads, hline⟩ := evaluation_readsOnly hfunctions
  obtain ⟨hended, honly, hsame⟩ := hline _ _ _ _ _ _ hopens hfails
  obtain ⟨hmessage, hout, hnotes⟩ : r.1.map LineError.message = some "Internal interpreter error: boom" ∧
      r.2.world.out = "5\n" ∧ r.2.world.notes.size = 2 := by decide +kernel
  exact ⟨hfunctions, ⟨c, u, f, t, hopens, hfails, hended⟩, hmessage, hout, hnotes, hreads, honly,
    hsame (List.forall_mem_singleton.mpr fun _ _ => ⟨rfl, rfl⟩) (List.forall_mem_nil _)⟩

end JossLang
