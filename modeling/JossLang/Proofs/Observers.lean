import JossLang.Proofs.FurtherLimits

/-!
# Observers

Handlers and rules that only watch, and snapshots in the log, change nothing
else: the session goes in step with the same session without them
(`lineByLine_unobserved`). On a host where they take room, the limits of the
two are not the same, so neither may reach its limits.
-/

namespace JossLang

variable {ω : Type}

/-! ## States without what observers leave -/

def Entry.withoutSnapshot (e : Entry) : Entry := { e with snapshot := none }

def Log.withoutSnapshots (log : Log) : Log := ⟨log.entries.map Entry.withoutSnapshot⟩

def Setup.unobserved (setup : Setup ω) : Setup ω :=
  { setup with verbose := false, registry := { setup.registry with handlers := [], rules := [] } }

def State.unobserved (s : State ω) (world : ω) : State ω := { s with log := s.log.withoutSnapshots, world := world }

def AddedFunction.IgnoresObservers (worlds : ω → ω → Prop) (f : AddedFunction ω) : Prop :=
  ∀ args pos (s t : State ω) result w, worlds s.world w → (f.run args pos).run s = (result, t) →
    ∃ w', worlds t.world w' ∧ (f.run args pos).run (s.unobserved w) = (result, t.unobserved w')

/-- What is registered only watches, as far as worlds are concerned that are alike. -/
structure Setup.Observed (setup : Setup ω) (worlds : ω → ω → Prop) : Prop where
  refl : ∀ w, worlds w w
  handlers : ∀ h ∈ setup.registry.handlers, ∀ notice, Watches worlds (h.run notice)
  rules : ∀ r ∈ setup.registry.rules, ∀ notice, Watches worlds (r.run notice)
  functions : ∀ f ∈ setup.registry.functions, f.IgnoresObservers worlds
  sink : ∀ text w w', worlds w w' →
    (setup.sink text w).1 = (setup.sink text w').1 ∧ worlds (setup.sink text w).2 (setup.sink text w').2

theorem Setup.unobserved_unhooked (setup : Setup ω) : setup.unobserved.Unhooked := ⟨rfl, rfl⟩

namespace Log

theorem last?_withoutSnapshots (log : Log) : log.withoutSnapshots.last? = log.last?.map Entry.withoutSnapshot :=
  List.head?_map ..

theorem index_withoutSnapshots (log : Log) : log.withoutSnapshots.last?.map (·.index) = log.last?.map (·.index) := by
  rw [last?_withoutSnapshots, Option.map_map]
  rfl

theorem pos_withoutSnapshots (log : Log) : log.withoutSnapshots.lastPos? = log.lastPos? := by
  rw [lastPos?, lastPos?, last?_withoutSnapshots, Option.bind_map]
  rfl

theorem withoutSnapshots_record (log : Log) (action : Action) (frame : Option Nat) (pos : Option Location)
    (snapshot : Option (List (String × String))) :
    (log.record action frame pos snapshot).withoutSnapshots = log.withoutSnapshots.record action frame pos none := by
  have hnext : log.withoutSnapshots.nextIndex = log.nextIndex := by
    rw [nextIndex, nextIndex, last?_withoutSnapshots]
    cases log.last? <;> rfl
  rw [record, record, hnext, index_withoutSnapshots]
  rfl

end Log

/-! ## The two sessions -/

def Lockstep.observation (setup : Setup ω) (worlds : ω → ω → Prop) : Lockstep ω ω where
  left := setup
  right := setup.unobserved
  states s s' := ∃ w, worlds s.world w ∧ s' = s.unobserved w
  failed _ s s' := ∃ w, worlds s.world w ∧ s' = s.unobserved w
  excused _ _ := False

namespace Lockstep

variable {setup : Setup ω} {worlds : ω → ω → Prop} (h : setup.Observed worlds)
include h

theorem observation_lawful : (observation setup worlds).Lawful where
  limits := .inl rfl
  elementary := rfl
  functions := List.forall₂_same.mpr fun f hmem => ⟨rfl, rfl, fun args pos => by
    rintro s _ ⟨w, hw, rfl⟩
    have hrun := h.functions f hmem args pos s
    generalize (f.run args pos).run s = r at hrun ⊢
    obtain ⟨result, t⟩ := r
    obtain ⟨w', hw', hsame⟩ := hrun t result w hw rfl
    rw [hsame]
    cases result with
    | ok v => exact .ok ⟨w', hw', rfl⟩
    | error failure => exact .error ⟨w', hw', rfl⟩⟩
  raised _ _ _ _ := id
  limit _ _ := id
  endless _ _ := id
  names := by
    rintro s _ ⟨w, hw, rfl⟩ isBuiltin x
    rfl
  elements := agree_elements (by rintro s _ ⟨w, hw, rfl⟩; rfl) fun _ _ _ _ => id
  marks := by
    rintro s _ ⟨w, hw, rfl⟩
    exact ⟨rfl, w, hw, rfl⟩

theorem observation_notified (notice : Notice) (s s' : State ω) (hs : (observation setup worlds).states s s') :
    ∃ t t', (notify (observation setup worlds).left notice).run s = (.ok (), t) ∧
      (notify (observation setup worlds).right notice).run s' = (.ok (), t') ∧ (observation setup worlds).states t t' := by
  obtain ⟨w, hw, rfl⟩ := hs
  obtain ⟨v, hrun, hv⟩ := watches_notify h.handlers notice s
  exact ⟨_, _, hrun, setup.unobserved_unhooked.notify_run notice _, w, (hv w).1 hw, rfl⟩

theorem observation_record (action : Action) (pos : Location) :
    (observation setup worlds).Agree (record setup action pos) (record setup.unobserved action pos) := by
  rintro s _ ⟨w, hw, rfl⟩
  obtain ⟨v, hrun, hv⟩ := record_of_watches h.rules action pos s
  rw [hrun, setup.unobserved_unhooked.record_run]
  refine .ok ⟨w, (hv w).1 hw, ?_⟩
  simp only [State.record, State.unobserved, Log.withoutSnapshots_record]
  rfl

theorem observation_runs : (observation setup worlds).Runs where
  toLawful := observation_lawful h
  program := by
    rintro s _ ⟨w, hw, rfl⟩
    exact ⟨rfl, fun _ _ _ _ => ⟨w, hw, rfl⟩⟩
  environment g _ := by
    rintro s _ ⟨w, hw, rfl⟩
    exact ⟨w, hw, rfl⟩
  notify notice _ s s' hs := by
    obtain ⟨t, t', ht, ht', hs⟩ := observation_notified h notice s s' hs
    rw [ht, ht']
    exact .ok hs
  delivered text := by
    refine agree_deliver ?_ ?_ ?_
    · rintro s _ ⟨w, hw, rfl⟩
      exact (h.sink text _ _ hw).1
    · rintro s _ ⟨w, hw, rfl⟩
      exact ⟨_, (h.sink text _ _ hw).2, rfl⟩
    · rintro message s _ ⟨w, hw, rfl⟩ _
      exact ⟨_, (h.sink text _ _ hw).2, rfl⟩
  file := rfl
  failed _ _ _ := Iff.rfl
  record := observation_record h
  pushFrame activity caller := agree_modify <| by
    rintro s _ ⟨w, hw, rfl⟩
    exact ⟨w, hw, rfl⟩
  popFrame := agree_modify <| by
    rintro s _ ⟨w, hw, rfl⟩
    exact ⟨w, hw, rfl⟩
  store number command := by
    rintro s _ ⟨w, hw, rfl⟩
    exact ⟨w, hw, rfl⟩
  starts := by
    rintro s _ ⟨w, hw, rfl⟩
    exact ⟨rfl, w, hw, rfl⟩
  reported e t t' ht := report_of_notified (observation_notified h (.onError e) t t' ht)
  last := by
    rintro s _ ⟨w, hw, rfl⟩
    exact ⟨s.log.pos_withoutSnapshots, s.log.index_withoutSnapshots⟩

end Lockstep

/-- **Observers** do not interfere: every line ends as it does without them, in a state that is the same but
for the snapshots and the world. The limits may be other ones without observers, if no line of either session
reaches them. -/
theorem lineByLine_unobserved {setup : Setup ω} {worlds : ω → ω → Prop} (h : setup.Observed worlds) {limits : Limits}
    (hvalues : limits.values = setup.limits.values) (world : ω) (ls : List String)
    (hlimit : ∀ x ∈ lineByLine setup ls (setup.start world), ¬ x.1.any LineError.isLimit)
    (hlimit' : ∀ x ∈ lineByLine (setup.unobserved.withLimits limits) ls (setup.unobserved.start world),
      ¬ x.1.any LineError.isLimit) :
    List.Forall₂ (fun x x' => x'.1 = x.1 ∧ ∃ w, worlds x.2.world w ∧ x'.2 = x.2.unobserved w)
      (lineByLine setup ls (setup.start world))
      (lineByLine (setup.unobserved.withLimits limits) ls (setup.unobserved.start world)) := by
  let further := setup.limits.further limits
  have hobserved : (setup.withLimits further).Observed worlds := ⟨h.refl, h.handlers, h.rules, h.functions, h.sink⟩
  have hleft : lineByLine (setup.withLimits further) ls (setup.start world) = lineByLine setup ls (setup.start world) :=
    lineByLine_withLimits (setup.limits.within_further limits) ls _ hlimit
  have hright : lineByLine (setup.unobserved.withLimits further) ls (setup.unobserved.start world) =
      lineByLine (setup.unobserved.withLimits limits) ls (setup.unobserved.start world) :=
    @lineByLine_withLimits _ (setup.unobserved.withLimits limits) further (Limits.within_further_right hvalues) ls _ hlimit'
  rw [← hleft, ← hright]
  exact Lockstep.lineByLine_agree (Lockstep.observation_runs hobserved) ls ⟨world, h.refl world, rfl⟩ fun _ _ _ _ => False.elim

def Setup.noting : Setup (String × List String) where
  verbose := true
  registry :=
    { handlers := Event.all.map fun event =>
        { event := event, priority := 0, extension := "notes"
          run := fun notice => modify fun s => { s with world := (s.world.1, notice.event.label :: s.world.2) } }
      rules := [{ name := "notes", every := 2, every_pos := by decide, extension := "notes"
                  run := fun notice => modify fun s => { s with world := (s.world.1, notice.action.label :: s.world.2) } }] }
  sink := taking fun text world => (world.1 ++ text, world.2)

theorem Setup.noting_observed : Setup.noting.Observed fun w w' => w.1 = w'.1 where
  refl _ := rfl
  handlers g hg notice := by
    obtain ⟨event, -, rfl⟩ := List.mem_map.mp hg
    exact fun s => ⟨_, rfl, fun v => ⟨id, id⟩⟩
  rules r hr notice := by
    rw [List.eq_of_mem_singleton hr]
    exact fun s => ⟨_, rfl, fun v => ⟨id, id⟩⟩
  functions := nofun
  sink text w w' hw := ⟨rfl, congrArg (· ++ text) hw⟩

/-- Notes of a loop whose second round fails. There is less room with them than without. -/
theorem lineByLine_unobserved_noting :
    let ls := ["1.1 Type 6/i, a(i).", "Set a(1) = 5.", "Do part 1 for i = 1, 2."]
    let noted := lineByLine Setup.noting ls (Setup.noting.start ("", []))
    let plain := lineByLine (Setup.noting.unobserved.withLimits { steps := 900 }) ls (Setup.noting.unobserved.start ("", []))
    Setup.noting.Observed (fun w w' => w.1 = w'.1) ∧
      (∀ x ∈ noted, ¬ x.1.any LineError.isLimit) ∧ (∀ x ∈ plain, ¬ x.1.any LineError.isLimit) ∧
      noted.map (fun x => (x.1.map LineError.label, x.2.world.2.length)) =
        [(none, 1), (none, 5), (some "JossArrayMissError", 18)] ∧
      List.Forall₂ (fun x x' => x'.1 = x.1 ∧ ∃ w, x.2.world.1 = w.1 ∧ x'.2 = x.2.unobserved w) noted plain := by
  intro ls noted plain
  obtain ⟨hnoted, hlengths⟩ : (∀ x ∈ noted, ¬ x.1.any LineError.isLimit) ∧
      noted.map (fun x => (x.1.map LineError.label, x.2.world.2.length)) =
        [(none, 1), (none, 5), (some "JossArrayMissError", 18)] := by decide +kernel
  have hplain : ∀ x ∈ plain, ¬ x.1.any LineError.isLimit := by decide +kernel
  have hsame := @lineByLine_unobserved _ _ _ Setup.noting_observed { steps := 900 } rfl ("", []) ls hnoted hplain
  exact ⟨Setup.noting_observed, hnoted, hplain, hlengths, hsame⟩

/-- Where there is less room with observers, a step that runs itself counts less far. -/
theorem lineByLine_unobserved_exhausted :
    let setup := Setup.noting.withLimits { steps := 3 }
    let ls := ["1.1 Set n = n+1.", "1.2 Do part 1.", "Set n = 0.", "Do part 1."]
    let count := fun x : Option LineError × State (String × List String) =>
      (x.2.environment.get? setup.isBuiltin "n").map Value.written
    setup.Observed (fun w w' => w.1 = w'.1) ∧
      (lineByLine setup ls (setup.start ("", []))).map count = [none, none, some "0", some "3"] ∧
      (lineByLine (setup.unobserved.withLimits { steps := 4 }) ls (setup.unobserved.start ("", []))).map count =
        [none, none, some "0", some "4"] := by
  have h := Setup.noting_observed
  exact ⟨⟨h.refl, h.handlers, h.rules, h.functions, h.sink⟩, by decide +kernel, by decide +kernel⟩

end JossLang
