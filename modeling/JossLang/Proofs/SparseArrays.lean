import JossLang.Proofs.LockstepRuns

/-!
# Sparse arrays

A session with sparse arrays does what one with strict arrays does, as long as
in the strict one no line reads an element that is missing: the two go in step,
and their states differ in the kind of their arrays only (`lineByLine_sparse`).
-/

namespace JossLang

variable {ω : Type}

/-! ## States with sparse arrays -/

def Table.madeSparse (t : Table) : Table := { t with sparse := true }

def Environment.madeSparse (env : Environment) : Environment :=
  { env with sparse := true, tables := env.tables.map Table.madeSparse }

def State.madeSparse (s : State ω) : State ω := { s with environment := s.environment.madeSparse }

def Failure.IsMiss (f : Failure) : Prop := ∃ e, f = .error (.runtime e) ∧ e.kind = .arrayMiss

def LineError.isMiss : LineError → Bool
  | .runtime e => e.kind == .arrayMiss
  | _ => false

theorem Table.madeSparse_set (t : Table) (is : List Index) (v : Value) :
    (t.set is v).madeSparse = t.madeSparse.set is v := by
  unfold set madeSparse
  dsimp only
  split <;> rfl

theorem Table.madeSparse_get (t : Table) (is : List Index) :
    t.madeSparse.get is = t.get is ∨ ∃ array indices, t.get is = .error (.missingElement array indices) := by
  unfold get madeSparse
  dsimp only
  split
  · exact .inl rfl
  · split
    · exact .inl rfl
    · cases t.sparse with
      | true => exact .inl rfl
      | false => exact .inr ⟨_, _, rfl⟩

theorem map_modify_of_commutes {α β : Type} {h : α → β} {f : α → α} {g : β → β} (hfg : ∀ a, h (f a) = g (h a))
    (l : Array α) (i : Nat) : (l.modify i f).map h = (l.map h).modify i g := by
  refine Array.ext_getElem? fun j => ?_
  rw [Array.getElem?_map, Array.getElem?_modify, Array.getElem?_modify, Array.getElem?_map]
  split
  · cases l[j]? with
    | none => rfl
    | some a => exact congrArg some (hfg a)
  · rfl

namespace Environment

theorem madeSparse_table (env : Environment) (serial : Nat) : env.madeSparse.table serial = (env.table serial).madeSparse := by
  unfold table madeSparse
  rw [Array.getD_eq_getD_getElem?, Array.getD_eq_getD_getElem?, Array.getElem?_map]
  cases env.tables[serial]? <;> rfl

theorem madeSparse_get? (env : Environment) (isBuiltin : String → Bool) (x : String) :
    env.madeSparse.get? isBuiltin x = env.get? isBuiltin x := by
  have hbound : env.madeSparse.bound? x = env.bound? x := by
    unfold bound?
    simp only [madeSparse_table]
    rfl
  rw [get?, get?, hbound]

theorem madeSparse_snapshot (env : Environment) : env.madeSparse.snapshot = env.snapshot := by
  have hrender : ∀ b, env.madeSparse.render b = env.render b := fun b => by
    cases b with
    | array serial => simp only [render, madeSparse_table]; rfl
    | _ => rfl
  simp only [snapshot, hrender]
  rfl

theorem madeSparse_setElement (env : Environment) (x : String) (is : List Index) (v : Value) :
    (env.setElement x is v).madeSparse = env.madeSparse.setElement x is v := by
  have hcreate : ({ env.bind x (.array env.tables.size) with
        tables := env.tables.push (Table.set { name := x, sparse := env.sparse } is v) } : Environment).madeSparse =
      { env.madeSparse.bind x (.array env.madeSparse.tables.size) with
        tables := env.madeSparse.tables.push (Table.set { name := x, sparse := env.madeSparse.sparse } is v) } := by
    simp only [madeSparse, bind, Array.map_push, Array.size_map, Table.madeSparse_set]
    rfl
  unfold setElement
  rw [show env.madeSparse.binding? x = env.binding? x from rfl]
  split
  · rw [madeSparse, map_modify_of_commutes (g := (·.set is v)) fun t => t.madeSparse_set is v]
    rfl
  · exact hcreate

theorem Change.madeSparse {g : Environment → Environment} (hg : Change g) (env : Environment) :
    (g env).madeSparse = g env.madeSparse := by
  cases hg with
  | bind x b _ => rfl
  | setElement x is v => exact madeSparse_setElement env x is v
  | define x params body => rfl

end Environment

/-! ## The two sessions -/

/-- The function does the same whatever the kind of the arrays, unless it misses an element. -/
def AddedFunction.IgnoresSparseness (f : AddedFunction ω) : Prop :=
  ∀ args pos (s t : State ω) result, (f.run args pos).run s = (result, t) →
    (f.run args pos).run s.madeSparse = (result, t.madeSparse) ∨ ∃ failure, result = .error failure ∧ failure.IsMiss

def Setup.withSparse (setup : Setup ω) (sparse : Bool) : Setup ω := { setup with sparse := sparse }

def Lockstep.sparseness (setup : Setup ω) : Lockstep ω ω where
  left := setup.withSparse false
  right := setup.withSparse true
  states s s' := s' = s.madeSparse
  failed _ s s' := s' = s.madeSparse
  excused f _ := f.IsMiss

theorem State.madeSparse_record (s : State ω) (verbose : Bool) (action : Action) (pos : Location) :
    (s.record verbose action pos).madeSparse = s.madeSparse.record verbose action pos := by
  unfold record
  rw [show s.madeSparse.environment.snapshot = s.environment.snapshot from s.environment.madeSparse_snapshot]
  rfl

namespace Lockstep

section
variable {setup : Setup ω} (hf : ∀ f ∈ setup.registry.functions, f.IgnoresSparseness)
include hf

theorem sparseness_lawful : (sparseness setup).Lawful where
  limits := .inl rfl
  elementary := rfl
  functions := List.forall₂_same.mpr fun f hmem => ⟨rfl, rfl, fun args pos => by
    rintro s _ rfl
    have hrun := hf f hmem args pos s
    generalize (f.run args pos).run s = r at hrun ⊢
    obtain ⟨result, t⟩ := r
    rcases hrun t result rfl with hsame | ⟨failure, rfl, hmiss⟩
    · rw [hsame]
      cases result with
      | ok v => exact .ok rfl
      | error failure => exact .error rfl
    · exact .excused hmiss⟩
  raised _ _ _ _ := id
  limit _ _ := id
  endless _ _ := id
  names := by
    rintro s _ rfl isBuiltin x
    exact s.environment.madeSparse_get? isBuiltin x
  elements serial indices pos := agree_get <| by
    rintro s _ rfl
    have hget := (s.environment.table serial).madeSparse_get indices
    rw [← Environment.madeSparse_table] at hget
    rw [show s.madeSparse.environment = s.environment.madeSparse from rfl]
    rcases hget with hget | ⟨array, missing, hget⟩
    · rw [hget]
      cases (s.environment.table serial).get indices with
      | ok v => exact .ok rfl
      | error cause => exact .error rfl
    · rw [hget]
      exact .excused ⟨_, rfl, rfl⟩
  marks := by
    rintro s _ rfl
    exact ⟨rfl, rfl⟩

variable (hu : setup.Unhooked)
include hu

omit hf in
theorem sparseness_notified (notice : Notice) (s s' : State ω) (hs : (sparseness setup).states s s') :
    ∃ t t', (notify (sparseness setup).left notice).run s = (.ok (), t) ∧
      (notify (sparseness setup).right notice).run s' = (.ok (), t') ∧ (sparseness setup).states t t' := by
  have hboth : ∀ sparse, (setup.withSparse sparse).Unhooked := fun _ => ⟨hu.handlers, hu.rules⟩
  exact ⟨s, s', (hboth false).notify_run notice s, (hboth true).notify_run notice s', hs⟩

theorem sparseness_runs : (sparseness setup).Runs where
  toLawful := sparseness_lawful hf
  program := by
    rintro s _ rfl
    exact ⟨rfl, fun _ _ _ _ => rfl⟩
  environment g hg := by
    rintro s _ rfl
    exact congrArg (fun env => ({ s with environment := env } : State ω)) (hg.madeSparse s.environment).symm
  notify notice _ s s' hs := by
    obtain ⟨t, t', ht, ht', hs⟩ := sparseness_notified hu notice s s' hs
    rw [ht, ht']
    exact .ok hs
  delivered text := agree_deliver (by rintro s _ rfl; rfl) (by rintro s _ rfl; rfl) (by rintro _ s _ rfl _; rfl)
  file := rfl
  failed _ _ _ := Iff.rfl
  record action pos := by
    rintro s _ rfl
    have hboth : ∀ sparse, (setup.withSparse sparse).Unhooked := fun _ => ⟨hu.handlers, hu.rules⟩
    rw [show (sparseness setup).left = setup.withSparse false from rfl, (hboth false).record_run,
      show (sparseness setup).right = setup.withSparse true from rfl, (hboth true).record_run]
    exact .ok (s.madeSparse_record setup.verbose action pos).symm
  pushFrame activity caller := agree_modify <| by rintro s _ rfl; rfl
  popFrame := agree_modify <| by rintro s _ rfl; rfl
  store number command := by rintro s _ rfl; rfl
  starts := by
    rintro s _ rfl
    exact ⟨rfl, rfl⟩
  reported e t t' ht := report_of_notified (sparseness_notified hu (.onError e) t t' ht)
  last := by
    rintro s _ rfl
    exact ⟨rfl, rfl⟩

end

end Lockstep

end JossLang
