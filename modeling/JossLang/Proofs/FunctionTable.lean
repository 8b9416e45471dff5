import JossLang.Proofs.Registrations

/-!
# The table of functions

A session looks functions up in one table: its own, and behind them the added ones. The table can be built by adding
one function after the other, where a name that is in it already is refused; as registered names differ, only the name
of a built-in function is (`registry_invariant`).
-/

namespace JossLang

variable {ω : Type}

namespace Setup

variable (setup : Setup ω)

def table : List (AddedFunction ω) := setup.builtins ++ setup.registry.functions

def conflict? : Option RegistrationFault :=
  (setup.registry.functions.find? fun g => Builtin.all.any (·.name == g.name)).map
    (.overridesBuiltin ·.name)

/-! ## Look-ups -/

theorem isBuiltin_table (name : String) : setup.isBuiltin name = setup.table.any (·.name == name) := by
  rw [isBuiltin, table, builtins, List.any_append, List.any_map]
  rfl

theorem applyBuiltin_table (name : String) (args : List Value) (pos : Location) :
    applyBuiltin setup name args pos = match setup.table.find? (·.name == name) with
      | none => raise (.unbound name) pos
      | some g => match g.arity.fault? name args.length with
        | some c => raise c pos
        | none => g.run args pos := by
  have hfind : setup.table.find? (·.name == name) =
      ((Builtin.all.find? (·.name == name)).map (Builtin.asAdded setup.elementary)).or
        (setup.registry.functions.find? (·.name == name)) := by
    rw [table, builtins, List.find?_append, List.find?_map]
    rfl
  rw [applyBuiltin, hfind]
  cases Builtin.all.find? (·.name == name) with
  | some b => rfl
  | none => cases setup.registry.functions.find? (·.name == name) <;> rfl

theorem listing_table :
    setup.listing = ((setup.table.map fun g => (g.name, listed g.name g.arity g.doc)).mergeSort
      fun a b => decide (a.1 ≤ b.1)).map (·.2) := by
  rw [listing, table, builtins, List.map_append, List.map_map]
  rfl

/-! ## Building -/

theorem conflict?_eq_none : setup.conflict? = none ↔ ∀ g ∈ setup.registry.functions, ∀ b ∈ Builtin.all, b.name ≠ g.name := by
  rw [conflict?, Option.map_eq_none_iff, List.find?_eq_none]
  simp

/-- The added functions are known by their names, if these differ and no built-in function has one of them. -/
theorem find?_table (hnames : (setup.registry.functions.map (·.name)).Nodup) (hconflict : setup.conflict? = none) :
    ∀ g ∈ setup.table, setup.table.find? (·.name == g.name) = some g := by
  have hnodup : (setup.table.map (·.name)).Nodup := by
    rw [table, builtins, List.map_append, List.nodup_append]
    refine ⟨by rw [List.map_map]; exact (by decide : (Builtin.all.map Builtin.name).Nodup), hnames, fun x hx y hy hxy => ?_⟩
    rw [List.map_map] at hx
    obtain ⟨b, hb, rfl⟩ := List.mem_map.mp hx
    obtain ⟨g, hg, rfl⟩ := List.mem_map.mp hy
    exact setup.conflict?_eq_none.mp hconflict g hg b hb hxy
  generalize setup.table = t at hnodup
  induction t with
  | nil => nofun
  | cons k t ih =>
    rw [List.map_cons, List.nodup_cons] at hnodup
    intro g hg
    cases hg with
    | head => simp
    | tail _ hg =>
      have hne : k.name ≠ g.name := by
        intro heq
        exact hnodup.1 (heq ▸ List.mem_map_of_mem hg)
      rw [List.find?_cons_of_neg (by simpa using hne)]
      exact ih hnodup.2 g hg

end Setup

/-- Functions with different names can only meet a name that was in the table before. -/
theorem Setup.foldlM_addToTable {fs : List (AddedFunction ω)} (hnames : (fs.map (·.name)).Nodup)
    (t : List (AddedFunction ω)) : fs.foldlM addToTable t = match fs.find? fun g => t.any (·.name == g.name) with
      | some g => .error (.overridesBuiltin g.name)
      | none => .ok (t ++ fs) := by
  induction fs generalizing t with
  | nil => exact congrArg Except.ok (List.append_nil t).symm
  | cons g fs ih =>
    rw [List.map_cons, List.nodup_cons] at hnames
    obtain ⟨hg, hnames⟩ := hnames
    rw [List.foldlM_cons, addToTable, List.find?_cons]
    cases hmem : t.any (·.name == g.name) with
    | true => rfl
    | false =>
      have hsame : fs.find? (fun f => (t ++ [g]).any (·.name == f.name)) = fs.find? fun f => t.any (·.name == f.name) := by
        refine List.find?_congr fun f hf => ?_
        have hne : g.name ≠ f.name := by
          intro heq
          exact hg (heq ▸ List.mem_map_of_mem hf)
        simp [hne]
      show fs.foldlM addToTable (t ++ [g]) = _
      rw [ih hnames, hsame]
      simp

theorem Setup.build_eq {setup : Setup ω} (hnames : (setup.registry.functions.map (·.name)).Nodup) :
    setup.build = match setup.conflict? with
      | some f => .error f
      | none => .ok setup.table := by
  rw [build, foldlM_addToTable hnames, conflict?, table, builtins]
  simp only [List.any_map]
  show (match setup.registry.functions.find? (fun g => Builtin.all.any (·.name == g.name)) with | some g => _ | none => _) = _
  cases setup.registry.functions.find? (fun g => Builtin.all.any (·.name == g.name)) <;> rfl

/-- All that a session knows of functions that can be called by name, it has from a table. -/
structure Setup.Uses (setup : Setup ω) (t : List (AddedFunction ω)) : Prop where
  known : ∀ name, setup.isBuiltin name = t.any (·.name == name)
  applied : ∀ name args pos, applyBuiltin setup name args pos = match t.find? (·.name == name) with
    | none => raise (.unbound name) pos
    | some g => match g.arity.fault? name args.length with
      | some c => raise c pos
      | none => g.run args pos
  listed : setup.listing =
    ((t.map fun g => (g.name, Setup.listed g.name g.arity g.doc)).mergeSort fun a b => decide (a.1 ≤ b.1)).map (·.2)

theorem Setup.uses_table (setup : Setup ω) : setup.Uses setup.table :=
  ⟨setup.isBuiltin_table, setup.applyBuiltin_table, setup.listing_table⟩

theorem runHandlers_eq_forM (notice : Notice) (hs : List (Handler ω)) :
    runHandlers notice hs = hs.forM fun h => h.run notice := by
  induction hs with
  | nil => rfl
  | cons h hs ih =>
    rw [runHandlers, ih]
    rfl

/-- **Registrations.** Whatever is registered, a call is refused and changes nothing, or what it asks for is added.
Functions have different names that are identifiers, handlers are told of an event in the order of one stable sort by
priority, intervals are positive. A session can be built from the functions unless one has the name of a built-in one,
and then it uses the built-in ones as they are, and exactly those that were registered. -/
theorem registry_invariant (calls : List (Registration ω)) :
    let r := registered calls
    let kept := accepted calls
    let asked := fun e : Event => kept.filterMap (·.handler? e)
    (∀ c : Registration ω, c.call.run r = match c.refusal? kept with
        | some f => (.error f, r)
        | none => (.ok (), registered (calls ++ [c]))) ∧
      kept.Sublist calls ∧
      (r.functions = kept.filterMap (·.function?) ∧ (r.functions.map (·.name)).Nodup ∧
        ∀ g ∈ r.functions, isIdentifier g.name.toList = true) ∧
      ((∀ event priority extension run, .handler event priority extension run ∈ kept → ∃ e ∈ Event.all, e.label = event) ∧
        (∀ e, r.handlersOf e = (asked e).mergeSort fun g h => decide (h.priority ≤ g.priority)) ∧
        (∀ e, (r.handlersOf e).Pairwise fun g h => h.priority ≤ g.priority) ∧
        ∀ e p, (r.handlersOf e).filter (·.priority = p) = (asked e).filter (·.priority = p)) ∧
      (r.rules = kept.filterMap (·.rule?) ∧ (∀ x ∈ r.rules, 1 ≤ x.every) ∧
        ∀ name every extension run, .rule name every extension run ∈ kept → 1 ≤ every) ∧
      ∀ base : Setup ω,
        let setup := { base with registry := r }
        (∀ notice, notify setup notice = blame (.hookFailed notice.event) (·.log.lastPos?)
          (((asked notice.event).mergeSort fun g h => decide (h.priority ≤ g.priority)).forM fun h => h.run notice)) ∧
        ((∃ t, setup.build = .ok t) ↔ ∀ g ∈ r.functions, ∀ b ∈ Builtin.all, b.name ≠ g.name) ∧
        (setup.build = match setup.conflict? with
          | some f => .error f
          | none => .ok (setup.builtins ++ r.functions)) ∧
        setup.Uses (setup.builtins ++ r.functions) ∧
        (setup.conflict? = none → ∀ g ∈ setup.builtins ++ r.functions,
          (setup.builtins ++ r.functions).find? (·.name == g.name) = some g) := by
  intro r kept asked
  -- all of it follows from what the registry holds after the calls and what was admitted among them
  obtain ⟨hholds, hadmitted, hsub⟩ := registered_holds calls
  have hnames : (r.functions.map (·.name)).Nodup := hholds.functions ▸ hadmitted.names
  have hcalls : ∀ c : Registration ω, c.call.run r = match c.refusal? kept with
      | some f => (.error f, r)
      | none => (.ok (), registered (calls ++ [c])) := by
    intro c
    have hcall := hholds.call c
    rw [registered_snoc]
    cases hrefusal : c.refusal? kept with
    | some f =>
      rw [hrefusal] at hcall
      exact hcall
    | none =>
      rw [hrefusal] at hcall
      exact Prod.ext hcall.1 rfl
  refine ⟨hcalls, hsub, ⟨hholds.functions, hnames, hholds.functions ▸ hadmitted.identifiers⟩,
    ⟨?_, hholds.handlersOf_eq, fun e => hholds.sorted.filter _, hholds.ties⟩,
    ⟨hholds.rules, fun x _ => x.every_pos, hadmitted.intervals⟩, ?_⟩
  · intro event priority extension run hmem
    exact List.mem_map.mp (hadmitted.known event priority extension run hmem)
  intro base setup
  have hbuild : setup.build = match setup.conflict? with
      | some f => .error f
      | none => .ok setup.table := Setup.build_eq hnames
  refine ⟨?_, ?_, hbuild, setup.uses_table, setup.find?_table hnames⟩
  · intro notice
    rw [notify, runHandlers_eq_forM, ← hholds.handlersOf_eq]
  · rw [hbuild, show (∀ g ∈ r.functions, _) ↔ _ from setup.conflict?_eq_none.symm]
    cases setup.conflict? <;> simp

/-- Handlers of two extensions, with a call between them that is refused. -/
example :
    let handler := fun event priority extension =>
      (.handler event priority extension fun _ => pure () : Registration Unit)
    let calls := [handler "output" 0 "a", handler "output" 5 "b", handler "input" 9 "b", handler "output" 0 "b",
      handler "output" 5 "a"]
    ((registered calls).handlersOf .output).map (fun h => (h.priority, h.extension)) =
      [(5, "b"), (5, "a"), (0, "a"), (0, "b")] := by
  decide +kernel

end JossLang
