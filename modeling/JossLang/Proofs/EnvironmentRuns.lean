import JossLang.Proofs.Indices
import JossLang.Session.Evaluation

/-!
# Environments and what was set

An environment that was built by setting names is known from what was set last:
`run_laws`. An array has what was written since it was made, or since it changed
its number of indices.
-/

namespace JossLang

/-! ## Histories -/

inductive Setting where
  | scalar (name : String) (v : Value)
  | function (name : String) (v : Value)
  | element (name : String) (indices : List Index) (v : Value)

namespace Setting

def name : Setting → String
  | scalar n _ | function n _ | element n _ _ => n

def succeeds : Setting → Bool
  | scalar _ (.function _) | function _ (.scalar _) => false
  | _ => true

def apply (env : Environment) : Setting → Except Cause Environment
  | scalar n v => env.setScalar n v
  | function n v => env.setFunction n v
  | element n is v => .ok (env.setElement n is v)

theorem apply_eq_error {s : Setting} (h : s.succeeds = false) (env : Environment) : ∃ c, s.apply env = .error c := by
  cases s with
  | scalar n v =>
    cases v with
    | scalar => cases h
    | function f => exact ⟨_, rfl⟩
  | function n v =>
    cases v with
    | scalar => exact ⟨_, rfl⟩
    | function f => cases h
  | element n is v => cases h

end Setting

def Environment.after (env : Environment) (s : Setting) : Environment :=
  match s.apply env with
  | .ok env' => env'
  | .error _ => env

def Environment.run (sparse : Bool) (ss : List Setting) : Environment := ss.foldl after { sparse := sparse }

section
variable (x : String)

/-- The setting that decides a name, in a history with the newest setting first. -/
def last? (hist : List Setting) : Option Setting := hist.find? fun s => s.succeeds && s.name == x

/-- The writes to an array at `d` indices, newest first, since it was made or got this number of indices. -/
def writes (d : Nat) : List Setting → List (List Index × Value)
  | [] => []
  | s :: hist =>
    if s.succeeds && s.name == x then
      match s with
      | .element _ is v => if is.length = d then (is, v) :: writes d hist else []
      | _ => []
    else writes d hist

variable {x}

theorem last?_cons_self {s : Setting} (hs : s.succeeds = true) (hist : List Setting) :
    last? s.name (s :: hist) = some s := by
  simp [last?, hs]

theorem last?_cons_of_ne {s : Setting} (hs : (s.succeeds && s.name == x) = false) (hist : List Setting) :
    last? x (s :: hist) = last? x hist := by
  simp [last?, hs]

theorem writes_cons_of_ne {s : Setting} (hs : (s.succeeds && s.name == x) = false) (d : Nat) (hist : List Setting) :
    writes x d (s :: hist) = writes x d hist := by
  simp [writes, hs]

theorem writes_eq_nil {d : Nat} {hist : List Setting}
    (h : ∀ y is v, last? x hist = some (.element y is v) → is.length ≠ d) : writes x d hist = [] := by
  induction hist with
  | nil => rfl
  | cons s hist ih =>
    cases hs : s.succeeds && s.name == x with
    | false =>
      rw [writes_cons_of_ne hs]
      refine ih fun y is v hl => h y is v ?_
      rw [last?_cons_of_ne hs, hl]
    | true =>
      have hl : last? x (s :: hist) = some s := by simp [last?, hs]
      unfold writes
      rw [if_pos hs]
      cases s with
      | element y is v => exact if_neg (h y is v hl)
      | scalar | function => rfl

end

/-! ## Arrays -/

structure Table.Holds (t : Table) (name : String) (sparse : Bool) (d : Nat) (ws : List (List Index × Value)) :
    Prop where
  name : t.name = name
  sparse : t.sparse = sparse
  dimensions : t.dimensions = d
  length : ∀ e ∈ t.entries, e.1.length = t.dimensions
  lookup : ∀ js, t.entries.lookup js = (ws.find? fun w => js == w.1).map (·.2)

theorem Table.holds_new (x : String) (sparse : Bool) :
    Table.Holds { name := x, sparse := sparse } x sparse 0 [] := ⟨rfl, rfl, rfl, nofun, fun _ => rfl⟩

theorem Table.Holds.set {t : Table} {x : String} {sparse : Bool} {d : Nat} {ws : List (List Index × Value)}
    (h : t.Holds x sparse d ws) (is : List Index) (v : Value) :
    (t.set is v).Holds x sparse is.length ((is, v) :: if is.length = d then ws else []) := by
  have hfind : ∀ js (l : List (List Index × Value)), (((is, v) :: l).find? fun w => js == w.1).map (·.2) =
      if js == is then some v else (l.find? fun w => js == w.1).map (·.2) := fun js l => by
    cases hjs : js == is <;> simp [hjs]
  unfold Table.set
  split
  · next hd =>
    rw [h.dimensions] at hd
    rw [if_pos hd]
    refine ⟨h.name, h.sparse, h.dimensions.trans hd.symm, fun e he => ?_, fun js => ?_⟩
    · rcases mem_put he with rfl | ⟨f, hf, hef⟩
      · exact hd.trans h.dimensions.symm
      · rw [hef]; exact h.length f hf
    · rw [hfind, ← h.lookup]
      exact lookup_put _ _ _ _
  · next hd =>
    rw [h.dimensions] at hd
    rw [if_neg hd]
    refine ⟨h.name, h.sparse, rfl, fun e he => ?_, fun js => ?_⟩
    · rw [List.mem_singleton.mp he]
    · rw [hfind]
      cases hjs : js == is <;> simp [List.lookup_cons, hjs]

theorem Table.Holds.get {t : Table} {x : String} {sparse : Bool} {d : Nat} {ws : List (List Index × Value)}
    (h : t.Holds x sparse d ws) (js : List Index) :
    t.get js = if js.length ≠ d then .error (.wrongDimensions x d js.length)
      else match (ws.find? fun w => js == w.1).map (·.2) with
        | some v => .ok v
        | none => if sparse then .ok (.number 0) else .error (.missingElement x (js.map (·.value))) := by
  have hl := h.lookup js
  unfold Table.get
  rw [h.name, h.sparse, h.dimensions]
  cases hf : ws.find? fun w => js == w.1 with
  | none => simp [hl, hf]
  | some w => simp [hl, hf]

def lastWritten? (x : String) (hist : List Setting) (js : List Index) : Option Value :=
  ((writes x js.length hist).find? fun w => EqualTuples js w.1).map (·.2)

/-! ## The meaning of an environment -/

namespace Environment

def Bound (env : Environment) (hist : List Setting) (x : String) : Prop :=
  match last? x hist with
  | none => env.binding? x = none
  | some (.scalar _ v) => ∃ s, v = .scalar s ∧ env.binding? x = some (.scalar s)
  | some (.function _ v) => ∃ f, v = .function f ∧ env.binding? x = some (.function f)
  | some (.element _ is _) => ∃ serial, env.binding? x = some (.array serial) ∧ serial < env.tables.size ∧
      (env.table serial).Holds x env.sparse is.length (writes x is.length hist)

def boundNames (ss : List Setting) : List String := ((ss.filter (·.succeeds)).map (·.name)).eraseDups

/-- The invariant of a run: no two names have one array. -/
structure Meets (env : Environment) (hist : List Setting) : Prop where
  bound : ∀ x, env.Bound hist x
  distinct : ∀ {x y serial}, env.binding? x = some (.array serial) → env.binding? y = some (.array serial) → x = y
  order : env.bindings.map (·.1) = boundNames hist.reverse

theorem meets_start (sparse : Bool) : Meets { sparse := sparse } [] := ⟨fun _ => rfl, fun h => (by cases h), rfl⟩

@[simp] theorem binding?_bind_self (env : Environment) (x : String) (b : Binding) :
    (env.bind x b).binding? x = some b := lookup_put_self x b env.bindings

theorem binding?_bind_ne (env : Environment) {x y : String} (h : y ≠ x) (b : Binding) :
    (env.bind x b).binding? y = env.binding? y := lookup_put_ne h b env.bindings

theorem table_modify {env : Environment} {serial : Nat} (hlt : serial < env.tables.size) (f : Table → Table)
    (other : Nat) : ({ env with tables := env.tables.modify serial f } : Environment).table other =
      if serial = other then f (env.table other) else env.table other := by
  unfold table
  simp only [Array.getD_eq_getD_getElem?, Array.getElem?_modify]
  split
  · next he => subst he; simp [hlt]
  · rfl

theorem table_push (env : Environment) (t : Table) (x : String) (b : Binding) (serial : Nat) :
    ({ env.bind x b with tables := env.tables.push t } : Environment).table serial =
      if serial = env.tables.size then t else env.table serial := by
  unfold table
  simp only [Array.getD_eq_getD_getElem?, Array.getElem?_push]
  split <;> rfl

theorem keys_put (x : String) (b : Binding) (l : List (String × Binding)) :
    (put x b l).map (·.1) = if x ∈ l.map (·.1) then l.map (·.1) else l.map (·.1) ++ [x] := by
  induction l with
  | nil => simp [put]
  | cons e l ih =>
    rw [put]
    by_cases h : x = e.1
    · simp [h]
    · rw [if_neg (by simpa using h), List.map_cons, ih, List.map_cons]
      by_cases hm : x ∈ l.map (·.1)
      · rw [if_pos hm, if_pos (List.mem_cons_of_mem _ hm)]
      · rw [if_neg hm, if_neg (by simpa [h] using hm), List.cons_append]

theorem boundNames_append {s : Setting} (hs : s.succeeds = true) (ss : List Setting) :
    boundNames (ss ++ [s]) = if s.name ∈ boundNames ss then boundNames ss else boundNames ss ++ [s.name] := by
  unfold boundNames
  rw [List.filter_append, List.map_append, List.eraseDups_append]
  simp only [hs, List.filter_cons, List.filter_nil, List.map_cons, List.map_nil, if_true, List.removeAll,
    List.mem_eraseDups]
  by_cases h : s.name ∈ (ss.filter (·.succeeds)).map (·.name)
  · simp [h]
  · simp [h, List.eraseDups_cons]

theorem boundNames_append_failed {s : Setting} (hs : s.succeeds = false) (ss : List Setting) :
    boundNames (ss ++ [s]) = boundNames ss := by
  simp [boundNames, hs]

section
variable {env : Environment} {hist : List Setting} (h : env.Meets hist)
include h

theorem Meets.bound_of_unchanged {s : Setting} {x : String} (hs : (s.succeeds && s.name == x) = false)
    {env' : Environment} (hb : env'.binding? x = env.binding? x) (hsp : env'.sparse = env.sparse)
    (ht : ∀ serial, env.binding? x = some (.array serial) → serial < env.tables.size →
      serial < env'.tables.size ∧ env'.table serial = env.table serial) : env'.Bound (s :: hist) x := by
  have hx := h.bound x
  unfold Bound at hx ⊢
  rw [last?_cons_of_ne hs]
  split at hx
  · rw [hb]; exact hx
  · rw [hb]; exact hx
  · rw [hb]; exact hx
  · obtain ⟨serial, hbs, hlt, hh⟩ := hx
    obtain ⟨hlt', ht'⟩ := ht serial hbs hlt
    refine ⟨serial, hb.trans hbs, hlt', ?_⟩
    rw [ht', hsp, writes_cons_of_ne hs]
    exact hh

theorem Meets.bind {s : Setting} (hs : s.succeeds = true) {b : Binding} (hb : ∀ serial, b ≠ .array serial)
    (hx : (env.bind s.name b).Bound (s :: hist) s.name) : (env.bind s.name b).Meets (s :: hist) := by
  refine ⟨fun x => ?_, fun {x y serial} hbx hby => ?_, ?_⟩
  · by_cases hne : x = s.name
    · exact hne ▸ hx
    · refine h.bound_of_unchanged ?_ (env.binding?_bind_ne hne b) rfl fun serial _ hlt => ⟨hlt, rfl⟩
      simp [Ne.symm hne]
  · have hne : ∀ z, (env.bind s.name b).binding? z = some (.array serial) → z ≠ s.name := by
      rintro z hz rfl
      rw [binding?_bind_self] at hz
      exact hb serial (Option.some.inj hz)
    rw [binding?_bind_ne _ (hne x hbx)] at hbx
    rw [binding?_bind_ne _ (hne y hby)] at hby
    exact h.distinct hbx hby
  · rw [List.reverse_cons, boundNames_append hs, ← h.order]
    exact keys_put s.name b env.bindings

theorem Meets.array {x : String} {serial : Nat} (hb : env.binding? x = some (.array serial)) :
    ∃ y is v, last? x hist = some (.element y is v) ∧ serial < env.tables.size ∧
      (env.table serial).Holds x env.sparse is.length (writes x is.length hist) := by
  have hx := h.bound x
  unfold Bound at hx
  split at hx
  · rw [hb] at hx; cases hx
  · obtain ⟨s, -, hs⟩ := hx
    rw [hb] at hs; cases hs
  · obtain ⟨f, -, hf⟩ := hx
    rw [hb] at hf; cases hf
  · next is v hl =>
    obtain ⟨serial', hbs, hlt, hh⟩ := hx
    rw [hb] at hbs
    cases hbs
    exact ⟨_, is, v, hl, hlt, hh⟩

theorem Meets.writes_eq_nil {x : String} (hb : ∀ serial, env.binding? x ≠ some (.array serial)) (d : Nat) :
    writes x d hist = [] := by
  refine JossLang.writes_eq_nil fun y is v hl => ?_
  have hx := h.bound x
  unfold Bound at hx
  rw [hl] at hx
  obtain ⟨serial, hbs, -⟩ := hx
  exact absurd hbs (hb serial)

theorem Meets.write {n : String} {serial : Nat} (hb : env.binding? n = some (.array serial)) (is : List Index)
    (v : Value) : ({ env with tables := env.tables.modify serial (·.set is v) } : Environment).Meets
      (.element n is v :: hist) := by
  obtain ⟨y, is', v', hl, hlt, hh⟩ := h.array hb
  have hws : (if is.length = is'.length then writes n is'.length hist else []) = writes n is.length hist := by
    split
    · next he => rw [he]
    · next he =>
      refine (JossLang.writes_eq_nil fun y' is'' v'' hl' => ?_).symm
      rw [hl] at hl'
      cases hl'
      exact fun e => he e.symm
  refine ⟨fun x => ?_, h.distinct, ?_⟩
  · by_cases hne : x = n
    · subst hne
      unfold Bound
      rw [show last? x (.element x is v :: hist) = some (.element x is v) from last?_cons_self rfl hist]
      refine ⟨serial, hb, by simpa using hlt, ?_⟩
      rw [table_modify hlt, if_pos rfl]
      have := hh.set is v
      rw [hws] at this
      simpa [writes, Setting.succeeds, Setting.name] using this
    · refine h.bound_of_unchanged (by simp [Setting.name, Ne.symm hne]) rfl rfl fun other hbo hlto => ?_
      have hother : serial ≠ other := fun e => hne (h.distinct hbo (e ▸ hb))
      exact ⟨by simpa using hlto, by rw [table_modify hlt, if_neg hother]⟩
  · have hmem : n ∈ boundNames hist.reverse := by
      rw [← h.order]
      obtain ⟨l₁, l₂, hl₁, -⟩ := List.lookup_eq_some_iff.mp hb
      rw [hl₁]
      simp
    rw [List.reverse_cons, boundNames_append rfl, ← h.order, if_pos (h.order ▸ hmem)]

theorem Meets.create {n : String} (hb : ∀ serial, env.binding? n ≠ some (.array serial)) (is : List Index) (v : Value) :
    ({ env.bind n (.array env.tables.size) with
        tables := env.tables.push (({ name := n, sparse := env.sparse } : Table).set is v) } : Environment).Meets
      (.element n is v :: hist) := by
  have hold : ∀ {x serial}, env.binding? x = some (.array serial) → serial < env.tables.size := fun hx => by
    obtain ⟨_, _, _, -, hlt, -⟩ := h.array hx
    exact hlt
  -- the new table is bound to `n` alone
  have hnew : ∀ {x serial}, (env.bind n (.array env.tables.size)).binding? x = some (.array serial) →
      (x = n ∧ serial = env.tables.size) ∨ (x ≠ n ∧ env.binding? x = some (.array serial)) := by
    intro x serial hx
    by_cases hne : x = n
    · subst hne
      rw [binding?_bind_self] at hx
      cases hx
      exact .inl ⟨rfl, rfl⟩
    · rw [binding?_bind_ne _ hne] at hx
      exact .inr ⟨hne, hx⟩
  refine ⟨fun x => ?_, fun {x y serial} hx hy => ?_, ?_⟩
  · by_cases hne : x = n
    · subst hne
      unfold Bound
      rw [show last? x (.element x is v :: hist) = some (.element x is v) from last?_cons_self rfl hist]
      refine ⟨env.tables.size, binding?_bind_self env x _, by simp, ?_⟩
      rw [table_push, if_pos rfl]
      have := (Table.holds_new x env.sparse).set is v
      simpa [writes, Setting.succeeds, Setting.name, h.writes_eq_nil hb, Environment.bind] using this
    · refine h.bound_of_unchanged (by simp [Setting.name, Ne.symm hne]) (binding?_bind_ne env hne _) rfl
        fun serial _ hlt => ⟨by simp; omega, ?_⟩
      rw [table_push, if_neg (by omega)]
  · rcases hnew hx with ⟨rfl, hs⟩ | ⟨-, hx'⟩
    · rcases hnew hy with ⟨rfl, -⟩ | ⟨-, hy'⟩
      · rfl
      · have := hold hy'; omega
    · rcases hnew hy with ⟨-, hs⟩ | ⟨-, hy'⟩
      · have := hold hx'; omega
      · exact h.distinct hx' hy'
  · rw [List.reverse_cons, boundNames_append rfl, ← h.order]
    exact keys_put n _ env.bindings

theorem Meets.failed {s : Setting} (hs : s.succeeds = false) : env.Meets (s :: hist) := by
  refine ⟨fun x => ?_, h.distinct, ?_⟩
  · exact h.bound_of_unchanged (by simp [hs]) rfl rfl fun serial _ hlt => ⟨hlt, rfl⟩
  · rw [List.reverse_cons, boundNames_append_failed hs, h.order]

/-- **Setting.** Every setting keeps the invariant. -/
theorem Meets.after (s : Setting) : (env.after s).Meets (s :: hist) := by
  cases s with
  | scalar n v =>
    cases v with
    | scalar c =>
      refine h.bind (s := .scalar n (.scalar c)) rfl (b := .scalar c) nofun ?_
      unfold Bound
      rw [last?_cons_self rfl]
      exact ⟨c, rfl, binding?_bind_self env n _⟩
    | function f => exact h.failed rfl
  | function n v =>
    cases v with
    | scalar c => exact h.failed rfl
    | function f =>
      refine h.bind (s := .function n (.function f)) rfl (b := .function f) nofun ?_
      unfold Bound
      rw [last?_cons_self rfl]
      exact ⟨f, rfl, binding?_bind_self env n _⟩
  | element n is v =>
    show (env.setElement n is v).Meets _
    unfold setElement
    split
    · next hb => exact h.write hb is v
    · next hb => exact h.create hb is v

end

theorem meets_run (sparse : Bool) (ss : List Setting) : (run sparse ss).Meets ss.reverse := by
  induction ss using List.reverseRecOn with
  | nil => exact meets_start sparse
  | append_singleton ss s ih =>
    rw [run, List.foldl_append, List.reverse_append]
    exact ih.after s

theorem sparse_run (sparse : Bool) (ss : List Setting) : (run sparse ss).sparse = sparse := by
  have hafter : ∀ (env : Environment) (s : Setting), (env.after s).sparse = env.sparse := fun env s => by
    cases s with
    | scalar n v => cases v <;> rfl
    | function n v => cases v <;> rfl
    | element n is v =>
      show (env.setElement n is v).sparse = env.sparse
      unfold setElement
      split <;> rfl
  induction ss using List.reverseRecOn with
  | nil => rfl
  | append_singleton ss s ih => rw [run, List.foldl_append, List.foldl_cons, List.foldl_nil, hafter]; exact ih

/-- Settings that fail could as well have been left out. -/
theorem run_filter (sparse : Bool) (ss : List Setting) : run sparse (ss.filter (·.succeeds)) = run sparse ss := by
  induction ss using List.reverseRecOn with
  | nil => rfl
  | append_singleton ss s ih =>
    rw [List.filter_append, run, run, List.foldl_append, List.foldl_append]
    rw [run, run] at ih
    rw [ih]
    cases hs : s.succeeds with
    | true => simp [hs]
    | false =>
      obtain ⟨c, hc⟩ := Setting.apply_eq_error hs (ss.foldl after { sparse := sparse })
      simp [hs, after, hc]

theorem get?_of_unbound {env : Environment} {x : String} (h : env.binding? x = none) (isBuiltin : String → Bool) :
    env.get? isBuiltin x = if isBuiltin x then some (.function (.builtin x)) else none := by
  simp [get?, bound?, h]

theorem unbound_of_get? {env : Environment} {x : String}
    (h : ∀ isBuiltin : String → Bool, env.get? isBuiltin x = if isBuiltin x then some (.function (.builtin x)) else none) :
    env.binding? x = none := by
  have hnone := h fun _ => false
  cases hb : env.binding? x with
  | none => rfl
  | some b => simp [get?, bound?, hb] at hnone

theorem applyAt_array {ω : Type} (setup : Setup ω) (depth serial : Nat) (x : String) (args : List Value)
    (pos : Location) (st : State ω) :
    applyAt setup depth (.array serial x) args pos st =
      ((match (st.environment.table serial).get (args.map Value.toIndex) with
        | .ok v => .ok v
        | .error c => .error (.error (.runtime { cause := c, pos := some pos }))), st) := by
  unfold applyAt
  show (orRaise (some pos) ((st.environment.table serial).get (args.map Value.toIndex)) : Run ω Value) st = _
  cases (st.environment.table serial).get (args.map Value.toIndex) <;> rfl

theorem get?_of_bound {env : Environment} {x : String} {b : Binding} (h : env.binding? x = some b)
    (isBuiltin : String → Bool) : env.get? isBuiltin x = env.bound? x := by
  simp [get?, bound?, h]

section
variable {env : Environment} {hist : List Setting} (h : env.Meets hist) {x : String}
include h

theorem Meets.unbound_iff : env.binding? x = none ↔ last? x hist = none := by
  have hx := h.bound x
  unfold Bound at hx
  split at hx
  · next hl => exact ⟨fun _ => hl, fun _ => hx⟩
  · next hl => obtain ⟨s, -, hs⟩ := hx; simp [hs, hl]
  · next hl => obtain ⟨f, -, hf⟩ := hx; simp [hf, hl]
  · next hl => obtain ⟨serial, hs, -⟩ := hx; simp [hs, hl]

theorem Meets.scalar {y : String} {v : Value} (hl : last? x hist = some (.scalar y v)) :
    ∃ s, v = .scalar s ∧ env.binding? x = some (.scalar s) ∧ ∀ isBuiltin, env.get? isBuiltin x = some v := by
  have hx := h.bound x
  rw [Bound, hl] at hx
  obtain ⟨s, rfl, hs⟩ := hx
  exact ⟨s, rfl, hs, fun isBuiltin => by rw [get?_of_bound hs, bound?, hs]; rfl⟩

theorem Meets.function {y : String} {v : Value} (hl : last? x hist = some (.function y v)) :
    ∃ f, v = .function f ∧ env.binding? x = some (.function f) ∧ ∀ isBuiltin, env.get? isBuiltin x = some v := by
  have hx := h.bound x
  rw [Bound, hl] at hx
  obtain ⟨f, rfl, hf⟩ := hx
  exact ⟨f, rfl, hf, fun isBuiltin => by rw [get?_of_bound hf, bound?, hf]; rfl⟩

theorem Meets.element {y : String} {is : List Index} {v : Value} (hl : last? x hist = some (.element y is v)) :
    ∃ serial, env.binding? x = some (.array serial) ∧
      (∀ isBuiltin, env.get? isBuiltin x = some (.function (.array serial x))) ∧
      (env.table serial).Holds x env.sparse is.length (writes x is.length hist) := by
  have hx := h.bound x
  rw [Bound, hl] at hx
  obtain ⟨serial, hs, -, hh⟩ := hx
  exact ⟨serial, hs, fun isBuiltin => by rw [get?_of_bound hs, bound?, hs, ← hh.name]; rfl, hh⟩

end

theorem get_of_holds {t : Table} {x : String} {sparse : Bool} {hist : List Setting} {js : List Index}
    (h : t.Holds x sparse js.length (writes x js.length hist)) (hn : NaNFree js) :
    t.get js = match lastWritten? x hist js with
      | some w => .ok w
      | none => if sparse then .ok (.number 0) else .error (.missingElement x (js.map (·.value))) := by
  have heq : (fun w : List Index × Value => js == w.1) = fun w => decide (EqualTuples js w.1) := by
    funext w
    rw [Bool.eq_iff_iff, decide_eq_true_iff, beq_iff_equalTuples hn]
  rw [h.get, if_neg (not_not.mpr rfl), lastWritten?, heq]

/-- **Environments.** After any settings, a name is what its last setting that succeeded made it. An array has the
values written last, since it was made or changed its number of indices, at tuples of equal numbers. -/
theorem run_laws (sparse : Bool) (ss : List Setting) :
    (∀ x, (run sparse ss).binding? x = none ↔ last? x ss.reverse = none) ∧
    (∀ x y v, last? x ss.reverse = some (.scalar y v) → ∃ s, v = .scalar s ∧
      (run sparse ss).binding? x = some (.scalar s) ∧ ∀ isBuiltin, (run sparse ss).get? isBuiltin x = some v) ∧
    (∀ x y v, last? x ss.reverse = some (.function y v) → ∃ f, v = .function f ∧
      (run sparse ss).binding? x = some (.function f) ∧ ∀ isBuiltin, (run sparse ss).get? isBuiltin x = some v) ∧
    (∀ x y is v, last? x ss.reverse = some (.element y is v) → ∃ serial t, (run sparse ss).table serial = t ∧
      (run sparse ss).binding? x = some (.array serial) ∧
      (∀ isBuiltin, (run sparse ss).get? isBuiltin x = some (.function (.array serial x))) ∧
      t.dimensions = is.length ∧ (∀ e ∈ t.entries, e.1.length = is.length) ∧
      (∀ js, js.length ≠ is.length → ∃ c, t.get js = .error c ∧ c.kind = .arity) ∧
      ∀ js, js.length = is.length → NaNFree js →
        (∀ w, lastWritten? x ss.reverse js = some w → t.get js = .ok w) ∧
        (lastWritten? x ss.reverse js = none →
          if sparse then t.get js = .ok (.number 0) else ∃ c, t.get js = .error c ∧ c.kind = .arrayMiss)) ∧
    (∀ {ω : Type} (setup : Setup ω) depth serial x args pos (st : State ω),
      applyAt setup depth (.array serial x) args pos st =
        ((match (st.environment.table serial).get (args.map Value.toIndex) with
          | .ok v => .ok v
          | .error c => .error (.error (.runtime { cause := c, pos := some pos }))), st)) ∧
    (∀ s, s.succeeds = false → (∃ c, s.apply (run sparse ss) = .error c) ∧ run sparse (ss ++ [s]) = run sparse ss) ∧
    (run sparse ss).bindings.map (·.1) = boundNames ss ∧
    ∀ x, (∀ isBuiltin : String → Bool, (run sparse ss).get? isBuiltin x =
      if isBuiltin x then some (.function (.builtin x)) else none) ↔ (run sparse ss).binding? x = none := by
  have hm := meets_run sparse ss
  refine ⟨fun x => hm.unbound_iff, fun x y v => hm.scalar, fun x y v => hm.function, fun x y is v hl => ?_,
    applyAt_array, fun s hs => ⟨Setting.apply_eq_error hs _, ?_⟩, ?_, fun x => ⟨unbound_of_get?, get?_of_unbound⟩⟩
  · obtain ⟨serial, hb, hg, hh⟩ := hm.element hl
    rw [sparse_run] at hh
    refine ⟨serial, _, rfl, hb, hg, hh.dimensions, fun e he => (hh.length e he).trans hh.dimensions,
      fun js hjs => ⟨.wrongDimensions x is.length js.length, by rw [hh.get, if_pos hjs], rfl⟩, fun js hjs hn => ?_⟩
    rw [get_of_holds (hjs ▸ hh) hn]
    refine ⟨fun w hw => by rw [hw], fun hw => ?_⟩
    rw [hw]
    cases sparse with
    | true => rfl
    | false => exact ⟨_, rfl, rfl⟩
  · rw [← run_filter, List.filter_append]
    simp [hs, run_filter]
  · simpa using hm.order

/-- Zero and minus zero are one index, so that the later write counts, and a function is no scalar. -/
theorem run_signed_zero :
    let ss : List Setting :=
      [.element "a" [⟨0, 0⟩] (.number 1), .scalar "b" (.function (.builtin "sqrt")), .element "a" [⟨-0, 0⟩] (.truth true)]
    NaNFree [⟨0, 0⟩] ∧ (run false ss).binding? "b" = none ∧ (run false ss).bindings.map (·.1) = ["a"] ∧
      ∃ serial, (run false ss).binding? "a" = some (.array serial) ∧
        ((run false ss).table serial).get [⟨0, 0⟩] = .ok (.truth true) := by
  intro ss
  have hn : NaNFree [⟨0, 0⟩] := by
    intro i hi
    rw [List.mem_singleton.mp hi]
    decide +kernel
  obtain ⟨hfree, -, -, helem, -, -, hnames, -⟩ := run_laws false ss
  obtain ⟨serial, t, rfl, hb, -, -, -, -, hread⟩ := helem "a" "a" [⟨-0, 0⟩] (.truth true) (by rfl)
  refine ⟨hn, (hfree "b").mpr (by rfl), hnames.trans (by decide +kernel), serial, hb, (hread [⟨0, 0⟩] rfl hn).1 _ ?_⟩
  rfl

end Environment

end JossLang
