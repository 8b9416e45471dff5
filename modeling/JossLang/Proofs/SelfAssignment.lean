import JossLang.Proofs.RoundTrip
import JossLang.Proofs.SessionAgreement
import JossLang.Proofs.Invariants

/-!
# Setting a name to itself

`Set x = x.` succeeds, and lines that follow it do what they do without it, as
long as no element of an array `x` is set: `evaluateLine_setSelf`. It leaves a
scalar and a function as they are, but makes an array the function that reads
this array. That is seen only when an element is set, since then `x` becomes a
new array (`evaluateLine_setSelf_fails`).
-/

namespace JossLang

variable {ω : Type}

def setSelf (x : String) : String := "Set " ++ x ++ " = " ++ x ++ "."

/-! ## Reading -/

theorem lays_setSelf {x : String} (hx : (Lexeme.name x).Sound) :
    Lays [.keyword .set, .name x, .operator .eq, .name x, .period] (setSelf x).toList := by
  have hblank : ∀ cs, ∀ c ∈ (' ' :: cs : List Char).head?, isWordChar c = false := by
    rintro cs c ⟨⟩
    exact isWordChar_mark (by decide)
  have hperiod : Lays [.period] ['.'] := .lexeme trivial (by nofun) .nil
  have hvalue : Lays [.name x, .period] (x.toList ++ ['.']) :=
    .lexeme hx (by rintro c ⟨⟩; exact isWordChar_mark (by decide)) hperiod
  have heq : Lays [.operator .eq, .name x, .period] ('=' :: ' ' :: (x.toList ++ ['.'])) :=
    .lexeme (l := .operator .eq) trivial trivial (.blank (by decide) hvalue)
  have htarget : Lays [.name x, .operator .eq, .name x, .period] (x.toList ++ ' ' :: '=' :: ' ' :: (x.toList ++ ['.'])) :=
    .lexeme hx (hblank _) (.blank (by decide) heq)
  have hset : Lays [.keyword .set, .name x, .operator .eq, .name x, .period]
      ("Set".toList ++ ' ' :: (x.toList ++ ' ' :: '=' :: ' ' :: (x.toList ++ ['.']))) :=
    .lexeme (l := .keyword .set) trivial (hblank _) (.blank (by decide) htarget)
  have htext : (setSelf x).toList = "Set".toList ++ ' ' :: (x.toList ++ ' ' :: '=' :: ' ' :: (x.toList ++ ['.'])) := by
    simp [setSelf, String.toList_append]
  exact htext ▸ hset

theorem Expr.eq_of_bare_name {e : Expr} {x : String} (h : e.bare = .reference nowhere x []) :
    ∃ t, e = .reference t x [] := by
  cases e with
  | reference t name is =>
    cases is with
    | nil => cases h; exact ⟨t, rfl⟩
    | cons _ _ => cases h
  | _ => cases h

theorem parse_setSelf {x : String} (hx : (Lexeme.name x).Sound) (file : String) (line : Int) : ∃ p q r t,
    Line.parse ⟨file, line, (setSelf x).toList⟩ = .ok (.direct ⟨p, .set q ⟨r, x, []⟩ (.reference t x []), none⟩) := by
  let u : Line := .direct ⟨nowhere, .set nowhere ⟨nowhere, x, []⟩ (.reference nowhere x []), none⟩
  have hw : u.Writes [.keyword .set, .name x, .operator .eq, .name x, .period] :=
    ⟨_, [], ⟨_, _, rfl, rfl, rfl⟩, rfl, rfl⟩
  obtain ⟨u', hu', hbare⟩ := Line.Canonical.parse (u := u) (by rintro _ _ _ ⟨⟩) ⟨file, line, (setSelf x).toList⟩
    ⟨_, hw, lays_setSelf hx⟩
  cases u' with
  | stored _ _ _ => cases hbare
  | direct c =>
    obtain ⟨p, verb, guard⟩ := c
    have hc : Command.bare ⟨p, verb, guard⟩ =
      Command.bare ⟨nowhere, .set nowhere ⟨nowhere, x, []⟩ (.reference nowhere x []), none⟩ :=
      Line.direct.inj hbare
    have hverb := congrArg Command.verb hc
    have hguard : guard = none := Option.map_eq_none_iff.mp (congrArg Command.guard hc)
    subst hguard
    cases verb with
    | set q target value =>
      obtain ⟨-, htarget, hvalue⟩ := Verb.set.inj hverb
      obtain ⟨t, rfl⟩ := Expr.eq_of_bare_name hvalue
      obtain ⟨r, name, is⟩ := target
      obtain ⟨-, hname, his⟩ := Target.mk.inj htarget
      obtain rfl : name = x := hname
      obtain rfl : is = [] := by rw [bareAll_eq] at his; exact List.map_eq_nil_iff.mp his
      exact ⟨p, q, r, t, hu'⟩
    | _ => cases hverb

/-! ## Running -/

def Environment.rebind (env : Environment) (x : String) : Value → Environment
  | .scalar s => env.bind x (.scalar s)
  | .function f => env.bind x (.function f)

section
variable {setup : Setup ω} {worlds : ω → ω → Prop}

theorem evaluate_name {x : String} {v : Value} {s : State ω} (hx : s.environment.bound? x = some v) (pos : Location) :
    (evaluate setup (.reference pos x [])).run s = (.ok v, s) := by
  have hv : (valueOf setup [] x pos).run s = (.ok v, s) := by
    have hread : (get : Run ω (State ω)).run s = (.ok s, s) := rfl
    rw [valueOf, List.lookup_nil]
    dsimp only
    rw [run_bind, hread]
    dsimp only
    rw [Environment.get?, hx]
    rfl
  rw [evaluate, Expr.eval, run_bind, hv]
  cases v <;> rfl

theorem assign_whole (r : Location) (x : String) (v : Value) (s : State ω) :
    (assign setup ⟨r, x, []⟩ v).run s = (.ok (), { s with environment := s.environment.rebind x v }) := by
  cases v <;> rfl

variable (hd : setup.Detached worlds)
include hd

/-- Setting a name to itself binds it to its value, and nothing else is seen. -/
theorem setSelf_run {x : String} {v : Value} {s : State ω} (hx : s.environment.bound? x = some v) (d : Nat) (p q r t : Location) :
    ∃ u, (Command.run setup d ⟨p, .set q ⟨r, x, []⟩ (.reference t x []), none⟩).run s = (.ok (), u) ∧
      State.Unseen worlds { s with environment := s.environment.rebind x v } u := by
  let c : Command := ⟨p, .set q ⟨r, x, []⟩ (.reference t x []), none⟩
  let body : Run ω Unit := c.verb.run setup (Comparison.stepRunner setup d) >>= fun _ => notify setup (.afterCommand c)
  obtain ⟨s₁, hs₁, hrun⟩ := (silent_record hd (.command "Set") p).then (notify setup (.beforeCommand c) >>= fun _ => body) s
  obtain ⟨s₂, hs₂, hrun'⟩ := (silent_notify hd (.beforeCommand c)).then body s₁
  have hbound : s₂.environment.bound? x = some v := by rw [hs₂.environment, hs₁.environment, hx]
  have hverb : (c.verb.run setup (Comparison.stepRunner setup d)).run s₂ =
      (.ok (), { s₂ with environment := s₂.environment.rebind x v }) := by
    show (evaluate setup (.reference t x []) >>= fun v => assign setup ⟨r, x, []⟩ v).run s₂ = _
    rw [run_bind, evaluate_name hbound]
    exact assign_whole r x v s₂
  obtain ⟨u, hnotify, hu⟩ := silent_notify hd (.afterCommand c) { s₂ with environment := s₂.environment.rebind x v }
  refine ⟨u, ?_, State.Unseen.trans ?_ hu⟩
  · have hbody : (c.run setup d).run s = body.run s₂ := by
      rw [Comparison.command_run, ← hrun', ← hrun]
      rfl
    rw [show Command.run setup d ⟨p, .set q ⟨r, x, []⟩ (.reference t x []), none⟩ = c.run setup d from rfl, hbody]
    rw [show body = _ from rfl, run_bind, hverb]
    exact hnotify
  · have hs := hs₁.trans hs₂
    exact ⟨congrArg (·.rebind x v) hs.environment, hs.program, hs.typed, hs.marks, hs.worlds⟩

theorem evaluateLine_setSelf_run {x : String} (hname : (Lexeme.name x).Sound) {v : Value} {s : State ω}
    (hx : s.environment.bound? x = some v) : ∃ t, evaluateLine setup (setSelf x) s = (none, t) ∧
      State.Unseen worlds { s with environment := s.environment.rebind x v } t := by
  obtain ⟨s₁, hs₁, hline⟩ := evaluateLine_run hd (setSelf x) s
  obtain ⟨p, q, r, t, hparse⟩ := parse_setSelf hname setup.file (s.lineNumber + 1 : Nat)
  obtain ⟨u, hrun, hu⟩ := setSelf_run hd (hs₁.environment ▸ hx) setup.limits.steps p q r t
  rw [hparse, carryOut, Line.run, hrun] at hline
  generalize evaluateLine setup (setSelf x) s = y at hline ⊢
  cases hline with
  | ok ht =>
    refine ⟨_, rfl, State.Unseen.trans ?_ (hu.trans ht)⟩
    exact ⟨congrArg (·.rebind x v) hs₁.environment, hs₁.program, hs₁.typed, hs₁.marks, hs₁.worlds⟩

end

/-! ## The bindings -/

theorem mem_of_lookup {β : Type} {x : String} {b : β} {l : List (String × β)} (h : l.lookup x = some b) : (x, b) ∈ l := by
  obtain ⟨l₁, l₂, hl, -⟩ := List.lookup_eq_some_iff.mp h
  rw [hl]
  exact List.mem_append_right _ List.mem_cons_self

theorem put_of_lookup {β : Type} {x : String} {b : β} {l : List (String × β)} (h : l.lookup x = some b) : put x b l = l := by
  induction l with
  | nil => cases h
  | cons e l ih =>
    obtain ⟨k, a⟩ := e
    rw [List.lookup_cons] at h
    unfold put
    cases hk : x == k with
    | true =>
      rw [hk] at h
      cases h
      rfl
    | false =>
      rw [hk] at h
      rw [if_neg Bool.false_ne_true, ih h]

theorem forall₂_put_right {β : Type} {R : String × β → String × β → Prop} {x : String} {b w : β} {l : List (String × β)}
    (hx : l.lookup x = some b) (hself : ∀ e ∈ l, R e e) (hnew : R (x, b) (x, w)) : List.Forall₂ R l (put x w l) := by
  induction l with
  | nil => cases hx
  | cons e l ih =>
    obtain ⟨k, a⟩ := e
    obtain ⟨he, hl⟩ := List.forall_mem_cons.mp hself
    rw [List.lookup_cons] at hx
    unfold put
    cases hk : x == k with
    | true =>
      rw [hk] at hx
      cases hx
      obtain rfl := eq_of_beq hk
      exact .cons hnew (List.forall₂_same.mpr hl)
    | false =>
      rw [hk] at hx
      exact .cons he (ih hx hl)

/-- Only an array is bound to something else, and is turned. -/
theorem Environment.Alike.rebind {place : Location → Location → Prop} {isBuiltin : String → Bool} {env : Environment}
    (h : env.Alike ⟨place, isBuiltin, fun _ => False⟩ env) {x : String} {v : Value} (hx : env.bound? x = some v) :
    env.Alike ⟨place, isBuiltin, (· = x)⟩ (env.rebind x v) := by
  have hself : env.Alike ⟨place, isBuiltin, (· = x)⟩ env := h.turn _ fun _ => False.elim
  have hsame : ∀ b, env.bindings.lookup x = some b → env.bind x b = env := fun b hb => by
    rw [Environment.bind, put_of_lookup hb]
  rw [Environment.bound?, Environment.binding?] at hx
  cases hb : env.bindings.lookup x with
  | none => rw [hb] at hx; cases hx
  | some b =>
    rw [hb] at hx
    cases b with
    | scalar s => cases hx; rwa [Environment.rebind, hsame _ hb]
    | function f => cases hx; rwa [Environment.rebind, hsame _ hb]
    | array serial =>
      cases hx
      have hbound := fun e he => List.forall₂_same.mp hself.bindings e he
      refine ⟨hself.sparse, hself.defined, hself.arrays, hself.tables, hself.nodup, forall₂_put_right hb hbound ?_⟩
      obtain ⟨-, hsound, harray⟩ := hbound _ (mem_of_lookup hb)
      cases harray with
      | array hlt => exact ⟨rfl, hsound, .turned rfl hlt⟩

/-! ## What follows -/

/-- Locations that differ in the number of the line at most. -/
def sameText (p q : Location) : Prop := p.file = q.file ∧ p.column = q.column ∧ p.statement = q.statement

def Environment.isArray (env : Environment) (x : String) : Bool :=
  match env.binding? x with
  | some (.array _) => true
  | _ => false

/-- While `x` is an array, no line starts a new array of that name in the second session. -/
def untouched (setup : Setup ω) (x : String) : List String → State ω → State ω → Bool
  | [], _, _ => true
  | l :: ls, s, s' =>
    let t' := (evaluateLine setup l s').2
    !s.environment.isArray x ||
      (!t'.environment.madeSince s'.arrays x && untouched setup x ls (evaluateLine setup l s).2 t')

theorem not_array_of_isArray {env : Environment} {x : String} (h : env.isArray x = false) (serial : Nat) :
    env.binding? x ≠ some (.array serial) := by
  intro hb
  rw [Environment.isArray, hb] at h
  cases h

structure State.ReadsAlike (L : Likeness) (worlds : ω → ω → Prop) (s s' : State ω) : Prop where
  typed : s.typed = s'.typed
  worlds : worlds s.world s'.world
  names : ∀ x, Option.Rel (Value.Alike L s.arrays) (s.environment.get? L.isBuiltin x) (s'.environment.get? L.isBuiltin x)
  elements : ∀ serial, (s.environment.table serial).Alike L s.arrays (s'.environment.table serial)

theorem State.Alike.reads {place : Location → Location → Prop} {isBuiltin : String → Bool} {turned : String → Prop}
    {worlds : ω → ω → Prop} {s s' : State ω} (h : s.Alike ⟨place, isBuiltin, turned⟩ worlds s') :
    s.ReadsAlike ⟨place, isBuiltin, fun _ => False⟩ worlds s' := by
  refine ⟨h.typed, h.worlds, fun x => ?_, fun serial => (h.environment.tables serial).turn _⟩
  have hr := h.environment.get? x
  dsimp only at hr ⊢
  generalize s.environment.get? isBuiltin x = o at hr ⊢
  generalize s'.environment.get? isBuiltin x = o' at hr ⊢
  cases hr with
  | none => exact .none
  | some hv => exact .some (hv.turn _)

/-! ## New arrays -/

namespace Environment

variable {env env' : Environment}

theorem madeSince_iff {n : Nat} {x : String} :
    env.madeSince n x ↔ ∃ serial, n ≤ serial ∧ serial < env.tables.size ∧ (env.table serial).name = x := by
  rw [madeSince, List.any_eq_true]
  constructor
  · rintro ⟨t, ht, hname⟩
    obtain ⟨i, hlt, rfl⟩ := List.mem_drop_iff_getElem.mp ht
    have hlt : n + i < env.tables.size := Nat.add_comm i n ▸ hlt
    refine ⟨n + i, Nat.le_add_right n i, hlt, ?_⟩
    rw [table, Array.getD_eq_getD_getElem?, Array.getElem?_eq_getElem hlt]
    exact eq_of_beq hname
  · rintro ⟨serial, hle, hlt, hname⟩
    rw [table, Array.getD_eq_getD_getElem?, Array.getElem?_eq_getElem hlt] at hname
    exact ⟨env.tables[serial], List.mem_drop_iff_getElem.mpr ⟨serial - n, by simpa [hle] using hlt, by simp [hle]⟩,
      beq_iff_eq.mpr hname⟩

theorem Grows.madeSince (h : env.Grows env') {n : Nat} {x : String} (hmade : env.madeSince n x) : env'.madeSince n x := by
  obtain ⟨serial, hle, hlt, hname⟩ := madeSince_iff.mp hmade
  exact madeSince_iff.mpr ⟨serial, hle, hlt.trans_le h.1, (h.2 serial hlt).trans hname⟩

theorem madeSince_setElement {x : String} (hx : ∀ serial, env.binding? x ≠ some (.array serial)) {n : Nat}
    (hn : n ≤ env.tables.size) (is : List Index) (v : Value) : (env.setElement x is v).madeSince n x := by
  refine madeSince_iff.mpr ⟨env.tables.size, hn, ?_⟩
  rw [setElement]
  split
  · next serial hb => exact absurd hb (hx serial)
  · refine ⟨by rw [Array.size_push]; exact Nat.lt_succ_self _, ?_⟩
    rw [table_push, if_pos rfl]
    exact Table.name_set _ _ _

theorem Change.grows {g : Environment → Environment} (hg : Change g) (env : Environment) : env.Grows (g env) := by
  cases hg with
  | setElement x is v => exact env.grows_setElement x is v
  | bind x b _ => exact .refl env
  | define x params body => exact .refl env

end Environment

/-- Added functions leave arrays where they are, under their names. -/
def Setup.KeepsArrays (setup : Setup ω) : Prop := ∀ g ∈ setup.registry.functions, ∀ args pos (s : State ω),
  s.environment.Grows ((g.run args pos).run s).2.environment

section
variable {setup : Setup ω} {worlds : ω → ω → Prop} (hd : setup.Detached worlds) (hkeeps : setup.KeepsArrays)
include hd hkeeps

theorem Setup.KeepsArrays.maintains (env : Environment) :
    setup.Maintains (fun s => env.Grows s.environment) fun _ s => env.Grows s.environment where
  functions g hg args pos s hs := by
    have ht := hs.trans (hkeeps g hg args pos s)
    generalize (g.run args pos).run s = r at ht
    obtain ⟨_ | _, t⟩ := r
    · exact .error ht
    · exact .ok ht
  raised _ _ _ := id
  limit _ := id
  endless _ := id
  marks _ := id
  notify notice _ s hs := by
    obtain ⟨w, hrun, -⟩ := hd.notify notice s
    rw [hrun]
    exact .ok hs
  record action pos s hs := by
    obtain ⟨w, hrun, -⟩ := hd.record action pos s
    rw [hrun]
    exact .ok hs
  unread _ _ := id
  environment g hg s hs := hs.trans (hg.grows s.environment)
  delivered _ := stays_deliver (fun _ => id) fun _ _ hs _ => hs
  missing _ _ _ _ hs _ := hs
  frames _ _ _ := id
  program _ _ := id

/-- A session has parted for good from one where the name is still the array. -/
theorem same_parts_of_keeps (place : Location → Location → Prop) (turned : String → Prop) (possible : Failure → Prop) :
    (Comparison.same setup worlds place turned possible).Parts := by
  have htame : ∀ {α : Type} {m : Run ω α},
      (∀ env : Environment, Stays (fun s => env.Grows s.environment) (fun _ s => env.Grows s.environment) m) →
      (Comparison.same setup worlds place turned possible).Tame m := by
    rintro α m hm n s ⟨x, hx, hmade⟩
    exact ⟨x, hx, ((hm s.environment).state (.refl _)).madeSince hmade⟩
  refine ⟨?_, ?_, ?_, fun ts m hm => htame fun env => ?_, fun d c => htame fun env => ?_⟩
  · rintro n k env hle ⟨x, hx, hmade⟩
    obtain ⟨serial, hk, hserial⟩ := Environment.madeSince_iff.mp hmade
    exact ⟨x, hx, Environment.madeSince_iff.mpr ⟨serial, hle.trans hk, hserial⟩⟩
  · exact fun n env x is v hn hx hbound => ⟨x, hx, Environment.madeSince_setElement hbound hn is v⟩
  · exact fun n env x b hparted => hparted
  · have hlawful := (hkeeps.maintains hd env).lawful
    have hterms := Lockstep.agree_evalTerms hlawful (Lockstep.agree_applyAt hlawful (d := setup.limits.calls) (.inl rfl)) ts []
    exact Lockstep.alone_agree_iff.mp (List.forall₂_same.mp hterms m hm)
  · exact Lockstep.alone_agree_iff.mp (Lockstep.command_agree (hkeeps.maintains hd env).carries (.inl rfl) c)

/-- From states that are alike but for the turned name, lines that leave it alone do the same. -/
theorem untouched_outcome {x : String} : ∀ (ls : List String) {s s' : State ω},
    s.Alike ⟨sameText, setup.isBuiltin, (· = x)⟩ worlds s' → s.program.Alike sameText s'.program →
    untouched setup x ls s s' →
      List.Forall₂ (LineError.Alike sameText) (evaluateLines setup ls s).1 (evaluateLines setup ls s').1 ∧
      (evaluateLines setup ls s).2.ReadsAlike ⟨sameText, setup.isBuiltin, fun _ => False⟩ worlds (evaluateLines setup ls s').2
  | [], s, s', hs, _, _ => ⟨.nil, hs.reads⟩
  | l :: ls, s, s', hs, hp, hu => by
    have hplace : ∀ (m n : Int) (column : Nat) (statement : String),
        sameText ⟨setup.file, m, column, statement⟩ ⟨setup.file, n, column, statement⟩ := fun _ _ _ _ => ⟨rfl, rfl, rfl⟩
    have hlawful : ∀ turned, (Comparison.same setup worlds sameText turned fun _ => True).Lawful := fun turned =>
      Comparison.same_lawful hd (same_parts_of_keeps hd hkeeps _ _ _) (fun _ _ _ _ => trivial) (fun _ => trivial) trivial
        trivial (fun _ _ _ _ => trivial) fun _ _ _ _ _ _ _ _ => trivial
    rw [untouched, Bool.or_eq_true, Bool.and_eq_true, Bool.not_eq_true', Bool.not_eq_true'] at hu
    rcases hu with hfree | ⟨hmade, hu⟩
    · -- the name is bound anew, so nothing is turned any more
      have henv : s.environment.Alike ⟨sameText, setup.isBuiltin, fun _ => False⟩ s'.environment :=
        hs.environment.turn _ fun y hy => .inl (hy ▸ not_array_of_isArray hfree)
      obtain ⟨hes, hlast⟩ := Comparison.evaluateLines_outcome (hlawful fun _ => False) Comparison.same_stores
        Comparison.same_strict Comparison.same_not_parted hplace (l :: ls) s s' ⟨⟨henv, hs.typed, hs.marks, hs.worlds⟩, hp⟩
      exact ⟨hes, hlast.reads⟩
    · have harrays : s.arrays = s'.arrays := hs.environment.arrays
      have hnew : ∀ y, y = x → ¬ (evaluateLine setup l s').2.environment.madeSince s.arrays y := by
        rintro _ rfl
        rw [harrays, hmade]
        exact Bool.false_ne_true
      have hline := (Comparison.evaluateLine_outcome (hlawful (· = x)) Comparison.same_stores l
        (fun _ _ => hplace _ _ _ _) ⟨hs, hp⟩).resolve_left fun ⟨y, hy, hparted⟩ => hnew y hy hparted
      have hnext := hline.between Comparison.same_strict
      obtain ⟨hes, hlast⟩ := untouched_outcome ls hnext.toAlike hnext.programs hu
      exact ⟨List.rel_append (Comparison.forall₂_toList (hline.errors Comparison.same_strict)) hes, hlast⟩

end

end JossLang
