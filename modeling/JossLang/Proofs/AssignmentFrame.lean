import JossLang.Extension.Script
import JossLang.Proofs.Canonical
import JossLang.Proofs.EnvironmentRuns
import JossLang.Proofs.Invariants

/-!
# What assignments leave alone

A command that sets a name or an element leaves the other names as they are
(`set_leaves`): bound to the same and, for arrays, with the same elements. No two
names have one array, in any state of a session (`Environment.Apart`). But a name
may be bound to the function that reads the array of another name, and then it
reads what that name is given.
-/

namespace JossLang

variable {ω α β : Type}

namespace Environment

/-! ## Names and their arrays -/

/-- The name of an array has one that was made, and no two names have the same one. -/
structure Apart (env : Environment) : Prop where
  made : ∀ {x serial}, env.binding? x = some (.array serial) → serial < env.tables.size
  distinct : ∀ {x y serial}, env.binding? x = some (.array serial) → env.binding? y = some (.array serial) → x = y

/-- The element at some indices that is read through a name: of the array that the name has, or that the function
reads which it is bound to. -/
def element? (env : Environment) (x : String) (indices : List Index) : Option (Except Cause Value) :=
  match env.bound? x with
  | some (.function (.array serial _)) => some ((env.table serial).get indices)
  | _ => none

structure SameAt (env env' : Environment) (x : String) : Prop where
  binding : env'.binding? x = env.binding? x
  bound : env'.bound? x = env.bound? x
  elements : ∀ indices, env'.element? x indices = env.element? x indices

variable {env env' env'' : Environment} {x y : String}

theorem SameAt.refl (env : Environment) (x : String) : env.SameAt env x := ⟨rfl, rfl, fun _ => rfl⟩

theorem SameAt.trans (h : env.SameAt env' x) (h' : env'.SameAt env'' x) : env.SameAt env'' x where
  binding := h'.binding.trans h.binding
  bound := h'.bound.trans h.bound
  elements indices := (h'.elements indices).trans (h.elements indices)

theorem SameAt.get? (h : env.SameAt env' x) (isBuiltin : String → Bool) : env'.get? isBuiltin x = env.get? isBuiltin x := by
  rw [Environment.get?, Environment.get?, h.bound]

def Reads (env : Environment) (y : String) (serial : Nat) : Prop :=
  ∃ name, env.binding? y = some (.function (.array serial name))

/-- Where a name is bound as before and one array at most has changed, which it does not have, it is as before, unless
it reads that array. -/
theorem sameAt_or_reads {serial : Nat} (hbinding : env'.binding? y = env.binding? y)
    (htables : ∀ other, other ≠ serial → env'.table other = env.table other)
    (hy : env.binding? y ≠ some (.array serial)) :
    env'.bound? y = env.bound? y ∧ (env.SameAt env' y ∨ env.Reads y serial) := by
  have hbound : env'.bound? y = env.bound? y := by
    rw [bound?, bound?, hbinding]
    cases hb : env.binding? y with
    | none => rfl
    | some b =>
      cases b with
      | scalar s => rfl
      | function f => rfl
      | array other =>
        rw [Option.map_some, Option.map_some]
        dsimp only
        rw [htables other fun he => hy (by rw [hb, he])]
  refine ⟨hbound, ?_⟩
  by_cases hreads : env.Reads y serial
  · exact .inr hreads
  refine .inl ⟨hbinding, hbound, fun indices => ?_⟩
  have htable : ∀ other name, env.bound? y = some (.function (.array other name)) → other ≠ serial := by
    rintro other name hb rfl
    rw [bound?] at hb
    cases hbind : env.binding? y with
    | none => rw [hbind] at hb; cases hb
    | some b =>
      rw [hbind] at hb
      cases b with
      | scalar s => cases hb
      | function f => cases hb; exact hreads ⟨name, hbind⟩
      | array other => cases hb; exact hy hbind
  rw [element?, element?, hbound]
  split
  · next other name hb => rw [htables other (htable other name hb)]
  · rfl

/-! ## Changes -/

theorem sameAt_bind (env : Environment) (hne : y ≠ x) (b : Binding) : env.SameAt (env.bind x b) y := by
  have hbinding := env.binding?_bind_ne hne b
  have hbound : (env.bind x b).bound? y = env.bound? y := by
    rw [bound?, bound?, hbinding]
    rfl
  refine ⟨hbinding, hbound, fun indices => ?_⟩
  rw [element?, element?, hbound]
  rfl

theorem binding?_setElement_ne (env : Environment) (hne : y ≠ x) (is : List Index) (v : Value) :
    (env.setElement x is v).binding? y = env.binding? y := by
  unfold setElement
  split
  · rfl
  · exact env.binding?_bind_ne hne _

theorem setElement_changes (h : env.Apart) (x : String) (is : List Index) (v : Value) :
    ∃ serial, (env.setElement x is v).binding? x = some (.array serial) ∧
      (∀ y, env.binding? y = some (.array serial) → y = x) ∧
      ∀ other, other ≠ serial → (env.setElement x is v).table other = env.table other := by
  unfold setElement
  split
  · next serial hb =>
    refine ⟨serial, hb, fun y hy => h.distinct hy hb, fun other hne => ?_⟩
    rw [table_modify (h.made hb), if_neg (Ne.symm hne)]
  · refine ⟨env.tables.size, env.binding?_bind_self x _, fun y hy => absurd (h.made hy) (Nat.lt_irrefl _), fun other hne => ?_⟩
    exact (env.table_push _ x _ other).trans (if_neg hne)

theorem apart_start (sparse : Bool) : Apart { sparse := sparse } := ⟨nofun, nofun⟩

theorem Apart.bind (h : env.Apart) (x : String) {b : Binding} (hb : ∀ serial, b ≠ .array serial) : (env.bind x b).Apart := by
  have hold : ∀ {y serial}, (env.bind x b).binding? y = some (.array serial) → env.binding? y = some (.array serial) := by
    intro y serial hy
    by_cases hne : y = x
    · subst hne
      rw [binding?_bind_self] at hy
      exact absurd (Option.some.inj hy) (hb serial)
    · rwa [binding?_bind_ne env hne] at hy
  exact ⟨fun hx => h.made (hold hx), fun hx hy => h.distinct (hold hx) (hold hy)⟩

theorem Apart.setElement (h : env.Apart) (x : String) (is : List Index) (v : Value) : (env.setElement x is v).Apart := by
  obtain ⟨serial, hx, hothers, -⟩ := setElement_changes h x is v
  have hsize : serial < (env.setElement x is v).tables.size := by
    unfold Environment.setElement at hx ⊢
    split at hx
    · next other hb =>
      rw [Array.size_modify]
      exact h.made (hb.trans (hb.symm.trans hx))
    · next hb =>
      have he := (env.binding?_bind_self x (.array env.tables.size)).symm.trans hx
      cases he
      rw [Array.size_push]
      exact Nat.lt_succ_self _
  -- the table that is written belongs to `x`, and every other name has the one it had
  have hcases : ∀ {y other}, (env.setElement x is v).binding? y = some (.array other) →
      y = x ∧ other = serial ∨ y ≠ x ∧ env.binding? y = some (.array other) := by
    intro y other hy
    by_cases hne : y = x
    · subst hne
      rw [hx] at hy
      cases hy
      exact .inl ⟨rfl, rfl⟩
    · rw [binding?_setElement_ne env hne] at hy
      exact .inr ⟨hne, hy⟩
  refine ⟨fun hy => ?_, fun {y z other} hy hz => ?_⟩
  · rcases hcases hy with ⟨rfl, rfl⟩ | ⟨-, hy⟩
    · exact hsize
    · exact (h.made hy).trans_le ((env.grows_setElement x is v).1)
  · rcases hcases hy with ⟨rfl, rfl⟩ | ⟨hne, hyold⟩
    · rcases hcases hz with ⟨rfl, -⟩ | ⟨hne, hzold⟩
      · rfl
      · exact absurd (hothers z hzold) hne
    · rcases hcases hz with ⟨rfl, rfl⟩ | ⟨-, hzold⟩
      · exact absurd (hothers y hyold) hne
      · exact h.distinct hyold hzold

theorem Apart.change (h : env.Apart) {g : Environment → Environment} (hg : Change g) : (g env).Apart := by
  cases hg with
  | bind x b hb => exact h.bind x hb
  | setElement x is v => exact h.setElement x is v
  | define x params body =>
    have hbind := h.bind x (b := .function (.user env.defined ⟨x, params, body⟩)) nofun
    exact ⟨hbind.made, hbind.distinct⟩

end Environment

/-! ## What is registered -/

def State.Leaves (kept : String → Prop) (s t : State ω) : Prop :=
  t.environment.Apart ∧ ∀ x, kept x → s.environment.SameAt t.environment x

/-- What is registered keeps arrays apart and leaves these names as they are, whatever else it does and however it ends. -/
structure Setup.Leaves (setup : Setup ω) (kept : String → Prop) : Prop where
  handlers : ∀ g ∈ setup.registry.handlers, ∀ notice (s : State ω), s.environment.Apart → s.Leaves kept ((g.run notice).run s).2
  rules : ∀ r ∈ setup.registry.rules, ∀ notice (s : State ω), s.environment.Apart → s.Leaves kept ((r.run notice).run s).2
  functions : ∀ g ∈ setup.registry.functions, ∀ args pos (s : State ω), s.environment.Apart →
    s.Leaves kept ((g.run args pos).run s).2

theorem State.Leaves.refl {kept : String → Prop} {s : State ω} (hs : s.environment.Apart) : s.Leaves kept s :=
  ⟨hs, fun _ _ => .refl _ _⟩

theorem State.Leaves.trans {kept : String → Prop} {s t u : State ω} (h : s.Leaves kept t) (h' : t.Leaves kept u) :
    s.Leaves kept u := ⟨h'.1, fun x hx => (h.2 x hx).trans (h'.2 x hx)⟩

namespace Setup.Leaves

variable {setup : Setup ω} {kept : String → Prop}

theorem mono (h : setup.Leaves kept) {kept' : String → Prop} (hsub : ∀ x, kept' x → kept x) : setup.Leaves kept' where
  handlers g hg notice s hs := (h.handlers g hg notice s hs).imp id fun hsame x hx => hsame x (hsub x hx)
  rules r hr notice s hs := (h.rules r hr notice s hs).imp id fun hsame x hx => hsame x (hsub x hx)
  functions g hg args pos s hs := (h.functions g hg args pos s hs).imp id fun hsame x hx => hsame x (hsub x hx)

theorem stays {m : Run ω α} (hm : ∀ s : State ω, s.environment.Apart → s.Leaves kept (m.run s).2) (s : State ω) :
    Stays (s.Leaves kept) (fun _ => s.Leaves kept) m := by
  intro t ht
  have hu := ht.trans (hm t ht.1)
  generalize m.run t = r at hu
  obtain ⟨_ | _, u⟩ := r
  · exact .error hu
  · exact .ok hu

variable (h : setup.Leaves kept) (s : State ω)
include h

theorem notify (notice : Notice) : Stays (s.Leaves kept) (fun _ => s.Leaves kept) (notify setup notice) :=
  stays_notify (fun _ _ _ _ => id) fun g hg _ => stays (h.handlers g hg notice) s

theorem record (action : Action) (pos : Location) :
    Stays (s.Leaves kept) (fun _ => s.Leaves kept) (record setup action pos) :=
  stays_record (fun _ _ _ _ => id) (fun r hr notice => stays (h.rules r hr notice) s) fun _ => id

theorem evaluates : setup.Evaluates (s.Leaves kept) fun _ => s.Leaves kept where
  functions g hg args pos := stays (h.functions g hg args pos) s
  raised _ _ _ := id
  limit _ := id
  endless _ := id
  marks _ := id

omit s in
theorem apart {s : State ω} (hs : Reachable setup s) : s.environment.Apart := by
  have hnone : setup.Leaves fun _ => False := h.mono nofun
  refine hs.of_lines (I := fun s => s.environment.Apart) (fun _ => Environment.apart_start _) fun text s hs => ?_
  have hmaintains : setup.Maintains (s.Leaves fun _ => False) fun _ => s.Leaves fun _ => False :=
    { toEvaluates := hnone.evaluates s
      notify := fun notice _ => hnone.notify s notice
      record := hnone.record s
      unread := fun _ _ => id
      environment := fun g hg t ht => ⟨ht.1.change hg, nofun⟩
      delivered := fun _ => stays_deliver (fun _ => id) fun _ _ ht _ => ht
      missing := fun _ _ _ _ ht _ => ht
      frames := fun _ _ _ => id
      program := fun _ _ => id }
  exact (hmaintains.evaluateLine_stays (fun _ _ => id) (fun e => hnone.notify s (.onError e)) (State.Leaves.refl hs)).1

end Setup.Leaves

/-! ## Assignments -/

/-- What a change has left of a name that is not its own: all of it, but for the elements of an array that the name
reads and that another name has. -/
def Environment.LeftBy (env env' : Environment) (x : String) (element : Prop) (y : String) : Prop :=
  env'.binding? y = env.binding? y ∧ env'.bound? y = env.bound? y ∧
    (env.SameAt env' y ∨ element ∧ ∃ serial, env.Reads y serial ∧ env'.binding? x = some (.array serial))

section
variable {setup : Setup ω} {kept : String → Prop} (h : setup.Leaves kept)
include h

theorem assign_leaves {target : Target} {v : Value} {s t : State ω} (hs : s.environment.Apart)
    (hrun : (assign setup target v).run s = (.ok (), t)) :
    ∃ u : State ω, s.Leaves kept u ∧ t.environment.Apart ∧
      ∀ y, y ≠ target.name → u.environment.LeftBy t.environment target.name (target.indices ≠ []) y := by
  rw [assign] at hrun
  split at hrun
  · -- a value in place of the name's own
    have hbind : ∃ b : Binding, (∀ serial, b ≠ .array serial) ∧
        t = { s with environment := s.environment.bind target.name b } := by
      cases v with
      | scalar a => exact ⟨.scalar a, nofun, (Prod.mk.inj hrun).2.symm⟩
      | function g => exact ⟨.function g, nofun, (Prod.mk.inj hrun).2.symm⟩
    obtain ⟨b, hb, rfl⟩ := hbind
    refine ⟨s, .refl hs, hs.bind target.name hb, fun y hne => ?_⟩
    have hsame := s.environment.sameAt_bind hne b
    exact ⟨hsame.binding, hsame.bound, .inl hsame⟩
  · next hindices =>
    obtain ⟨indices, u, hevaluated, hset⟩ := run_bind_ok hrun
    have hu := ((h.evaluates s).evalAll setup.limits.calls target.indices []).of_ok (.refl hs) hevaluated
    obtain rfl : t = { u with environment := u.environment.setElement target.name (indices.map Value.toIndex) v } :=
      (Prod.mk.inj hset).2.symm
    refine ⟨u, hu, hu.1.setElement target.name _ v, fun y hne => ?_⟩
    obtain ⟨serial, hx, hothers, htables⟩ := Environment.setElement_changes hu.1 target.name (indices.map Value.toIndex) v
    have hbinding := u.environment.binding?_setElement_ne hne (indices.map Value.toIndex) v
    obtain ⟨hbound, hsame⟩ := Environment.sameAt_or_reads hbinding htables fun hy => hne (hothers y hy)
    exact ⟨hbinding, hbound, hsame.imp id fun hreads => ⟨by simpa using hindices, serial, hreads, hx⟩⟩

/-- **Assignments.** In the states of a session no two names have one array. From such states, a command that sets a
name or an element leaves every other name that extensions leave alone bound to the same, with the same value and the
same elements; only where an element was set may a name differ that is bound to the function which reads that array. -/
theorem set_leaves : (∀ s, Reachable setup s → s.environment.Apart) ∧
    ∀ (depth : Nat) (c : Command) (pos : Location) (target : Target) (value : Expr), c.verb = .set pos target value →
      ∀ s t : State ω, s.environment.Apart → (c.run setup depth).run s = (.ok (), t) → ∀ y, kept y → y ≠ target.name →
        t.environment.binding? y = s.environment.binding? y ∧
        t.environment.get? setup.isBuiltin y = s.environment.get? setup.isBuiltin y ∧
        ((∀ indices, t.environment.element? y indices = s.environment.element? y indices) ∨
          target.indices ≠ [] ∧ ∃ serial, s.environment.Reads y serial ∧
            (kept target.name → t.environment.binding? target.name = some (.array serial))) := by
  refine ⟨fun s hs => h.apart hs, fun depth c pos target value hset s t hs hrun y hy hne => ?_⟩
  rw [Comparison.command_run] at hrun
  obtain ⟨_, s₁, hrecord, hrun⟩ := run_bind_ok hrun
  obtain ⟨_, s₂, hbefore, hrun⟩ := run_bind_ok hrun
  obtain ⟨holds, s₃, hguard, hrun⟩ := run_bind_ok hrun
  have hguarded : Stays (s.Leaves kept) (fun _ => s.Leaves kept) (guardHolds setup c.guard) := by
    cases c.guard with
    | none => exact stays_pure true
    | some e => exact ((h.evaluates s).eval _ e []).bind fun _ => stays_pure _
  have h₃ : s.Leaves kept s₃ :=
    hguarded.of_ok ((h.notify s _).of_ok ((h.record s _ _).of_ok (.refl hs) hrecord) hbefore) hguard
  -- up to here nothing was assigned; the verb runs just when the guard holds
  split at hrun
  · obtain ⟨_, s₄, hverb, hafter⟩ := run_bind_ok hrun
    rw [hset, Verb.run] at hverb
    obtain ⟨v, s₅, hvalue, hassign⟩ := run_bind_ok hverb
    have h₅ : s.Leaves kept s₅ := ((h.evaluates s).eval _ value []).of_ok h₃ hvalue
    obtain ⟨u, hu, hs₄, hleft⟩ := assign_leaves h h₅.1 hassign
    have hsu : s.environment.SameAt u.environment y := (h₅.trans hu).2 y hy
    have hlast : s₄.Leaves kept t := (h.notify s₄ _).of_ok (.refl hs₄) hafter
    obtain ⟨hbinding, hbound, hsame⟩ := hleft y hne
    refine ⟨(hlast.2 y hy).binding.trans (hbinding.trans hsu.binding), ?_, ?_⟩
    · rw [(hlast.2 y hy).get?, Environment.get?, hbound, hsu.bound, Environment.get?]
    · rcases hsame with hsame | ⟨hindices, serial, ⟨name, hreads⟩, hx⟩
      · exact .inl ((hsu.trans hsame).trans (hlast.2 y hy)).elements
      · exact .inr ⟨hindices, serial, ⟨name, hsu.binding.symm.trans hreads⟩, fun hk => (hlast.2 _ hk).binding.trans hx⟩
  · have hsame := ((h.notify s _).of_ok h₃ hrun).2 y hy
    exact ⟨hsame.binding, hsame.get? _, .inl hsame.elements⟩

end

def Setup.meddling : Setup Console where
  sink := taking Console.print
  registry := { functions := [⟨"f", ⟨1, none⟩, "", (Script.Body.bind "y").run "f"⟩] }

theorem Setup.meddling_leaves : Setup.meddling.Leaves (· ≠ "y") where
  handlers := nofun
  rules := nofun
  functions g hg args pos s hs := by
    obtain rfl := List.mem_singleton.mp hg
    cases args with
    | nil => exact .refl hs
    | cons v args =>
      cases v with
      | function f => exact .refl hs
      | scalar a => exact ⟨hs.bind "y" nofun, fun x hx => s.environment.sameAt_bind hx (.scalar a)⟩

def Environment.shown (env : Environment) (x : String) (index : Float) : Option String × Option String :=
  ((env.bound? x).map Value.written, ((env.element? x [⟨index, 0⟩]).bind (·.toOption)).map Value.written)

/-- The element is set by a call that binds `y`, which leaves another array alone. -/
theorem set_leaves_array :
    let c : Command :=
      ⟨nowhere, .set nowhere ⟨nowhere, "a", [.number nowhere 1]⟩ (.reference nowhere "f" [.number nowhere 6]), none⟩
    let s := (evaluateLines Setup.meddling ["Set a(1) = 5.", "Set x(1) = 4.", "Set y = 1."] (Setup.meddling.start {})).2
    ∃ t, (c.run Setup.meddling 500).run s = (.ok (), t) ∧ t.environment.shown "a" 1 = (some "<function a>", some "6") ∧
      t.environment.binding? "x" = s.environment.binding? "x" ∧
      t.environment.get? Setup.meddling.isBuiltin "x" = s.environment.get? Setup.meddling.isBuiltin "x" ∧
      ((∀ indices, t.environment.element? "x" indices = s.environment.element? "x" indices) ∨
        [Expr.number nowhere 1] ≠ [] ∧ ∃ serial, s.environment.Reads "x" serial ∧
          ("a" ≠ "y" → t.environment.binding? "a" = some (.array serial))) := by
  intro c s
  obtain ⟨hreachable, hset⟩ := set_leaves Setup.meddling_leaves
  have hs : s.environment.Apart := hreachable s ⟨{}, _, rfl⟩
  have hok : ((c.run Setup.meddling 500).run s).1.toOption.isSome = true := by decide +kernel
  have hshown : ((c.run Setup.meddling 500).run s).2.environment.shown "a" 1 = (some "<function a>", some "6") := by
    decide +kernel
  generalize hr : (c.run Setup.meddling 500).run s = r at hok hshown
  obtain ⟨_ | _, t⟩ := r
  · cases hok
  · exact ⟨t, rfl, hshown, hset 500 c nowhere _ _ rfl s t hs hr "x" (by decide) (by decide)⟩

/-- A name that is bound to the function of the array that is set, and a name that a call binds. -/
theorem set_changes_others :
    let s := (evaluateLines Setup.meddling ["Set a(1) = 5.", "Set b = a.", "Set y = 1."] (Setup.meddling.start {})).2
    let t := evaluateLine Setup.meddling "Set a(1) = 6." s
    let u := evaluateLine Setup.meddling "Set x = f(2)." s
    Reachable Setup.meddling s ∧
      t.1.isNone ∧ s.environment.shown "b" 1 = (some "<function a>", some "5") ∧
        t.2.environment.shown "b" 1 = (some "<function a>", some "6") ∧
      u.1.isNone ∧ s.environment.shown "y" 1 = (some "1", none) ∧ u.2.environment.shown "y" 1 = (some "2", none) :=
  ⟨⟨{}, _, rfl⟩, by decide +kernel⟩

end JossLang
