import JossLang.Proofs.FunctionTable
import JossLang.Extension.Statistics

/-!
# Refused registrations

A call that is refused leaves the registry as it was. An extension makes several calls, and nothing takes the earlier
ones back when a later one is refused: the registry then holds what was accepted, and nothing else
(`refused_keeps_accepted`).
-/

namespace JossLang

variable {ω : Type}

/-- What an extension does with the interface: after each call it goes on as the call was answered. -/
inductive Enrolment (ω : Type) where
  | done
  | refuse (f : RegistrationFault)
  | call (c : Registration ω) (next : Except RegistrationFault Unit → Enrolment ω)

namespace Enrolment

def run : Enrolment ω → Registering ω Unit
  | done => pure ()
  | refuse f => throw f
  | call c next => ExceptT.mk do
    let answer ← c.call.run
    (next answer).run.run

def answered : Enrolment ω → Registry ω → List (Registration ω × Except RegistrationFault Unit)
  | done, _ | refuse _, _ => []
  | call c next, r => (c, (c.call.run r).1) :: (next (c.call.run r).1).answered (c.call.run r).2

end Enrolment

def kept (answered : List (Registration ω × Except RegistrationFault Unit)) : List (Registration ω) :=
  (answered.filter (·.2.toBool)).map (·.1)

def Module.calling (api : Int) (name : Option String) (register : Option (String → Enrolment ω)) : Module ω :=
  { api, name, register := register.map fun p extension => (p extension).run }

theorem Module.load_calling (api : Int) (name : Option String) (register : Option (String → Enrolment ω)) (fallback : String) :
    (Module.calling api name register).load fallback =
      if api ≠ apiVersion then throw (.wrongApi fallback api)
      else match register with
        | none => throw (.noRegister fallback)
        | some p => (p (name.getD fallback)).run := by
  cases register <;> rfl

namespace Registry

def after (r : Registry ω) (calls : List (Registration ω)) : Registry ω := calls.foldl (fun r c => (c.call.run r).2) r

def size (r : Registry ω) : Nat := r.metadata.length + r.functions.length + r.handlers.length + r.rules.length

theorem length_insertHandler (h : Handler ω) (hs : List (Handler ω)) : (insertHandler h hs).length = hs.length + 1 := by
  induction hs with
  | nil => rfl
  | cons g hs ih =>
    rw [insertHandler]
    split <;> simp [ih]

/-! ## Single calls -/

theorem call_answer (c : Registration ω) (r : Registry ω) :
    (∃ f, c.call.run r = (.error f, r)) ∨ (c.call.run r).1 = .ok () ∧ (c.call.run r).2.size = r.size + 1 := by
  cases c with
  | metadata m =>
    refine .inr ⟨rfl, ?_⟩
    show (r.metadata ++ [m]).length + r.functions.length + r.handlers.length + r.rules.length = r.size + 1
    rw [List.length_append, size]
    simp only [List.length_singleton]
    omega
  | function g =>
    simp only [Registration.call, addFunction_run]
    split
    · exact .inl ⟨_, rfl⟩
    · split
      · exact .inl ⟨_, rfl⟩
      · exact .inr ⟨rfl, by simp [size]; omega⟩
  | handler event priority extension run =>
    rcases addHandler_run event priority extension run r with ⟨e, -, hrun⟩ | ⟨-, hrun⟩
    · refine .inr ?_
      simp only [Registration.call, hrun, size, length_insertHandler, true_and]
      omega
    · exact .inl ⟨_, hrun⟩
  | rule name every extension run =>
    simp only [Registration.call, addRule_run]
    split
    · exact .inr ⟨rfl, by simp [size]; omega⟩
    · exact .inl ⟨_, rfl⟩

end Registry

/-! ## Several calls -/

namespace Enrolment

open Registry

theorem run_call (c : Registration ω) (next : Except RegistrationFault Unit → Enrolment ω) (r : Registry ω) :
    ((call c next).run.run r).2 = ((next (c.call.run r).1).run.run (c.call.run r).2).2 := rfl

/-- Refused calls might as well not have been made. -/
theorem run_after (p : Enrolment ω) (r : Registry ω) : (p.run.run r).2 = r.after (kept (p.answered r)) := by
  induction p generalizing r with
  | done | refuse f => rfl
  | call c next ih =>
    rw [run_call, ih, answered]
    rcases call_answer c r with ⟨f, hf⟩ | ⟨hok, -⟩
    · rw [hf]
      rfl
    · rw [hok]
      rfl

theorem size_run (p : Enrolment ω) (r : Registry ω) :
    (p.run.run r).2.size = r.size + (kept (p.answered r)).length := by
  induction p generalizing r with
  | done | refuse f => rfl
  | call c next ih =>
    rw [run_call, ih, answered]
    rcases call_answer c r with ⟨f, hf⟩ | ⟨hok, hsize⟩
    · rw [hf]
      rfl
    · rw [hsize, hok, Nat.add_right_comm]
      rfl

theorem run_eq_iff (p : Enrolment ω) (r : Registry ω) : (p.run.run r).2 = r ↔ kept (p.answered r) = [] := by
  constructor
  · intro heq
    have hsize := p.size_run r
    have hsame : (p.run.run r).2.size = r.size := congrArg Registry.size heq
    exact List.eq_nil_of_length_eq_zero (by omega)
  · intro hnil
    rw [run_after, hnil]
    rfl

end Enrolment

namespace Registry

/-- Functions with different names are added up to the first whose name is taken. -/
theorem addFunctions_run {fs : List (AddedFunction ω)} {taken : AddedFunction ω → Bool} (r : Registry ω)
    (hids : ∀ g ∈ fs, isIdentifier g.name.toList = true) (hnames : (fs.map (·.name)).Nodup)
    (htaken : ∀ g ∈ fs, taken g = true ↔ g.name ∈ r.functions.map (·.name)) :
    (fs.forM addFunction).run r = match fs.find? taken with
      | some g => (.error (.alreadyRegistered g.name), { r with functions := r.functions ++ fs.takeWhile (!taken ·) })
      | none => (.ok (), { r with functions := r.functions ++ fs }) := by
  induction fs generalizing r with
  | nil =>
    show (Except.ok (), r) = (Except.ok (), { r with functions := r.functions ++ [] })
    rw [List.append_nil]
  | cons g fs ih =>
    obtain ⟨hid, hids⟩ := List.forall_mem_cons.mp hids
    obtain ⟨hg, hnames⟩ := List.nodup_cons.mp hnames
    obtain ⟨hgtaken, htaken⟩ := List.forall_mem_cons.mp htaken
    have hrun := addFunction_run g r
    rw [if_neg (by simp [hid])] at hrun
    rw [List.forM, run_bind, hrun]
    by_cases hmem : g.name ∈ r.functions.map (·.name)
    · rw [if_pos hmem, List.find?_cons_of_pos (hgtaken.mpr hmem), List.takeWhile_cons_of_neg (by simp [hgtaken.mpr hmem]),
        List.append_nil]
    · have hfree : ¬ taken g = true := mt hgtaken.mp hmem
      rw [if_neg hmem, List.find?_cons_of_neg hfree, List.takeWhile_cons_of_pos (by simpa using hfree)]
      show (fs.forM addFunction).run { r with functions := r.functions ++ [g] } = _
      rw [ih _ hids hnames fun f hf => ?_]
      · simp only [List.append_assoc, List.singleton_append]
      · have hne : f.name ≠ g.name := ne_of_mem_of_not_mem (List.mem_map_of_mem hf) hg
        rw [htaken f hf]
        simp [hne]

end Registry

/-! ## Modules -/

namespace Statistics

def samples : List (AddedFunction ω) := [
  ofSample "mean" "Arithmetic mean" Double.mean,
  ofSample "var" "Population variance" Double.variance,
  ofSample "sd" "Population standard deviation" Double.deviation,
  ofSample "median" "" Double.median]

theorem isIdentifier_samples : ∀ g ∈ (samples : List (AddedFunction ω)), isIdentifier g.name.toList = true := by
  have hnames : ∀ n ∈ ["mean", "var", "sd", "median"], isIdentifier n.toList = true := by decide
  intro g hg
  exact hnames g.name (List.mem_map_of_mem hg)

theorem nodup_samples : ((samples : List (AddedFunction ω)).map (·.name)).Nodup :=
  show ["mean", "var", "sd", "median"].Nodup by decide

theorem load_run (fallback : String) (r : Registry ω) :
    (module.load fallback).run r = (samples.forM Registry.addFunction).run
      { r with metadata := r.metadata ++ [{ name := "stats", version := "0.1.0" }] } := by
  have hlast : (do Registry.addFunction (ofSample "median" "" Double.median); pure () : Registering ω Unit) =
      Registry.addFunction (ofSample "median" "" Double.median) := bind_pure_unit
  show register.run r = _
  rw [register, ← hlast]
  rfl

end Statistics

/-- **Refused registrations.** A call that is refused changes nothing. So it is with a module that is refused before it
registers anything; any other leaves the registry that its accepted calls alone would have led to, which is the one from
before just when there were none. The statistics are refused when one of their names is taken: the metadata and the
functions before the first such name stay. -/
theorem refused_keeps_accepted (r : Registry ω) :
    (∀ c : Registration ω, (∃ f, c.call.run r = (.error f, r)) ∨ ∃ r', c.call.run r = (.ok (), r') ∧ r' ≠ r) ∧
    (∀ (api : Int) (name : Option String) (register : Option (String → Enrolment ω)) (fallback : String),
      let loaded := ((Module.calling api name register).load fallback).run r
      if api ≠ apiVersion then loaded = (.error (.wrongApi fallback api), r)
      else match register with
        | none => loaded = (.error (.noRegister fallback), r)
        | some p =>
          let calls := kept ((p (name.getD fallback)).answered r)
          loaded = ((p (name.getD fallback)).run.run r) ∧ loaded.2 = r.after calls ∧ (loaded.2 = r ↔ calls = [])) ∧
    ∀ fallback : String,
      let taken := fun g : AddedFunction ω => decide (g.name ∈ r.functions.map (·.name))
      let described := r.metadata ++ [{ name := "stats", version := "0.1.0" }]
      (Statistics.module.load fallback).run r = match Statistics.samples.find? taken with
        | some g => (.error (.alreadyRegistered g.name), { r with
            metadata := described, functions := r.functions ++ Statistics.samples.takeWhile (!taken ·) })
        | none => (.ok (), { r with metadata := described, functions := r.functions ++ Statistics.samples }) := by
  refine ⟨fun c => ?_, fun api name register fallback => ?_, fun fallback => ?_⟩
  · rcases Registry.call_answer c r with hrefused | ⟨hok, hsize⟩
    · exact .inl hrefused
    · refine .inr ⟨(c.call.run r).2, Prod.ext hok rfl, fun heq => ?_⟩
      have hsame : (c.call.run r).2.size = r.size := congrArg Registry.size heq
      omega
  · intro loaded
    have hload := congrArg (fun m : Registering ω Unit => m.run r) (Module.load_calling api name register fallback)
    rw [show loaded = _ from hload]
    by_cases hapi : api ≠ apiVersion
    · simp only [if_pos hapi]
      rfl
    · simp only [if_neg hapi]
      cases register with
      | none => rfl
      | some p => exact ⟨rfl, Enrolment.run_after _ r, Enrolment.run_eq_iff _ r⟩
  · intro taken described
    rw [Statistics.load_run, Registry.addFunctions_run _ Statistics.isIdentifier_samples Statistics.nodup_samples fun g _ =>
      decide_eq_true_iff]

/-- A module that is refused at its last call: what it registered before stays. -/
theorem statistics_refused :
    let r : Registry Unit := { functions := [Statistics.ofSample "median" "" Double.median] }
    let loaded := (Statistics.module.load "stats").run r
    loaded.1 = .error (.alreadyRegistered "median") ∧ loaded.2.metadata.map (·.name) = ["stats"] ∧
      loaded.2.functions.map (·.name) = ["median", "mean", "var", "sd"] ∧
      ¬ ∀ (r r' : Registry Unit) (m : Module Unit) (fallback : String) (f : RegistrationFault),
        (m.load fallback).run r = (.error f, r') → r' = r := by
  intro r loaded
  have hloaded : loaded = (.error (.alreadyRegistered "median"), { r with
      metadata := [{ name := "stats", version := "0.1.0" }], functions := r.functions ++ Statistics.samples.take 3 }) := by
    show (Statistics.module.load "stats").run r = _
    rw [Statistics.load_run, Registry.addFunctions_run _ Statistics.isIdentifier_samples Statistics.nodup_samples fun g _ =>
      decide_eq_true_iff]
    rfl
  refine ⟨congrArg Prod.fst hloaded, congrArg (fun l => l.2.metadata.map (·.name)) hloaded,
    congrArg (fun l => l.2.functions.map (·.name)) hloaded, fun hall => ?_⟩
  cases congrArg Registry.metadata (hall _ _ _ _ _ hloaded)

end JossLang
