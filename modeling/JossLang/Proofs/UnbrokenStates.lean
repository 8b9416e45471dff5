import JossLang.Proofs.CallStack
import JossLang.Proofs.Messages

/-!
# States without line breaks

No name that a session knows has a line break in it: neither the names of functions and arrays, nor those in the
bodies of functions and in stored steps. Changes by values without line breaks keep this, and so what is read of
such a state is on one line, be it a value or a fault.
-/

namespace JossLang

/-! ## Values -/

structure UserFunction.Unbroken (f : UserFunction) : Prop where
  name : OneLine f.name
  body : f.body.Drawn Lexeme.Unbroken

def Callable.Unbroken : Callable → Prop
  | .builtin name => OneLine name
  | .user _ f => f.Unbroken
  | .array _ name => OneLine name

def Value.Unbroken : Value → Prop
  | .scalar _ => True
  | .function f => f.Unbroken

theorem Callable.Unbroken.name {f : Callable} (h : f.Unbroken) : OneLine f.name := by
  cases f with
  | builtin _ => exact h
  | user _ f => exact UserFunction.Unbroken.name h
  | array _ _ => exact h

theorem Value.Unbroken.written {v : Value} (h : v.Unbroken) : OneLine v.written := by
  cases v with
  | scalar s =>
    cases s with
    | number x _ => exact Double.oneLine_written x
    | truth b => cases b <;> exact oneLine_literal rfl
  | function f => exact (OneLine.append (oneLine_literal rfl) (Callable.Unbroken.name h)).append (oneLine_literal rfl)

theorem Builtin.apply_unbroken (host : Elementary) (b : Builtin) (args : List Value) : (b.apply host args).Unbroken := by
  cases b with
  | arg => rcases args with _ | ⟨x, _ | ⟨y, _⟩⟩ <;> trivial
  | tv =>
    cases args with
    | nil => trivial
    | cons v _ => rcases v with (_ | _) | _ <;> trivial
  | _ => trivial

/-! ## Associations -/

theorem forall_put {α β : Type} [BEq α] {p : β → Prop} {key : α} {value : β} (hvalue : p value) {l : List (α × β)}
    (h : ∀ e ∈ l, p e.2) : ∀ e ∈ put key value l, p e.2 := by
  induction l with
  | nil => exact List.forall_mem_singleton.mpr hvalue
  | cons f l ih =>
    obtain ⟨hf, h⟩ := List.forall_mem_cons.mp h
    rw [put]
    split
    · exact List.forall_mem_cons.mpr ⟨hvalue, h⟩
    · exact List.forall_mem_cons.mpr ⟨hf, ih h⟩

theorem of_lookup {α β : Type} [BEq α] {p : β → Prop} {l : List (α × β)} (h : ∀ e ∈ l, p e.2) {key : α} {value : β}
    (hl : l.lookup key = some value) : p value := by
  induction l with
  | nil => cases hl
  | cons e l ih =>
    obtain ⟨he, h⟩ := List.forall_mem_cons.mp h
    rw [List.lookup_cons] at hl
    split at hl
    · cases hl
      exact he
    · exact ih h hl

/-! ## Arrays -/

structure Table.Unbroken (t : Table) : Prop where
  name : OneLine t.name
  entries : ∀ e ∈ t.entries, e.2.Unbroken

namespace Table.Unbroken

variable {t : Table} (h : t.Unbroken)
include h

theorem set (indices : List Index) {v : Value} (hv : v.Unbroken) : (t.set indices v).Unbroken := by
  unfold Table.set
  split
  · exact ⟨h.name, forall_put hv h.entries⟩
  · exact ⟨h.name, List.forall_mem_singleton.mpr hv⟩

theorem get_ok {indices : List Index} {v : Value} (hget : t.get indices = .ok v) : v.Unbroken := by
  unfold Table.get at hget
  split at hget
  · cases hget
  · split at hget
    · next hl =>
      cases hget
      exact of_lookup h.entries hl
    · split at hget
      · cases hget
        trivial
      · cases hget

theorem get_error {indices : List Index} {c : Cause} (hget : t.get indices = .error c) : OneLine c.message := by
  unfold Table.get at hget
  split at hget
  · cases hget
    exact Cause.oneLine_wrongDimensions h.name _ _
  · split at hget
    · cases hget
    · split at hget
      · cases hget
      · cases hget
        exact Cause.oneLine_missingElement h.name _

end Table.Unbroken

/-! ## Environments -/

def Binding.Unbroken : Binding → Prop
  | .function f => f.Unbroken
  | .scalar _ | .array _ => True

structure Environment.Unbroken (env : Environment) : Prop where
  bindings : ∀ e ∈ env.bindings, e.2.Unbroken
  tables : ∀ t ∈ env.tables, t.Unbroken

namespace Environment.Unbroken

variable {env : Environment} (h : env.Unbroken)
include h

theorem table (serial : Nat) : (env.table serial).Unbroken := by
  rw [Environment.table, Array.getD_eq_getD_getElem?]
  cases ht : env.tables[serial]? with
  | none => exact ⟨oneLine_empty, List.forall_mem_nil _⟩
  | some t => exact h.tables t (Array.mem_of_getElem? ht)

theorem bind (x : String) {b : Binding} (hb : b.Unbroken) : (env.bind x b).Unbroken :=
  ⟨forall_put hb h.bindings, h.tables⟩

theorem setElement {x : String} (hx : OneLine x) (indices : List Index) {v : Value} (hv : v.Unbroken) :
    (env.setElement x indices v).Unbroken := by
  unfold Environment.setElement
  split
  · refine ⟨h.bindings, fun t ht => ?_⟩
    obtain ⟨i, hi, rfl⟩ := Array.mem_iff_getElem.mp ht
    rw [Array.getElem_modify]
    have hsize : i < env.tables.size := by simpa using hi
    have hold := h.tables env.tables[i] (Array.getElem_mem hsize)
    split
    · exact hold.set indices hv
    · exact hold
  · have hnew : Table.Unbroken { name := x, sparse := env.sparse } := ⟨hx, List.forall_mem_nil _⟩
    refine ⟨forall_put trivial h.bindings, fun t ht => ?_⟩
    rcases Array.mem_push.mp ht with ht | rfl
    · exact h.tables t ht
    · exact hnew.set indices hv

theorem get? {isBuiltin : String → Bool} {x : String} (hx : OneLine x) {v : Value} (hget : env.get? isBuiltin x = some v) :
    v.Unbroken := by
  unfold Environment.get? bound? binding? at hget
  cases hb : env.bindings.lookup x with
  | none =>
    rw [hb] at hget
    dsimp only [Option.map_none] at hget
    split at hget
    · cases hget
      exact hx
    · cases hget
  | some b =>
    rw [hb] at hget
    cases b with
    | scalar s =>
      cases hget
      trivial
    | array serial =>
      cases hget
      exact (h.table serial).name
    | function f =>
      cases hget
      exact of_lookup (p := Binding.Unbroken) h.bindings hb

end Environment.Unbroken

/-! ## Programs -/

structure Program.Unbroken (p : Program) : Prop where
  ordered : p.Ordered
  commands : ∀ s, p.Holds s → s.command.Drawn Lexeme.Unbroken

theorem Program.Unbroken.store {p : Program} (h : p.Unbroken) {n : StepNumber} (hn : n.Drawn Lexeme.Unbroken) {c : Command}
    (hc : c.Drawn Lexeme.Unbroken) : (p.store n c).Unbroken := by
  obtain ⟨literal, -, hliteral⟩ := hn
  have hnamed : n.Named := StepNumber.named_of_ofLiteral hliteral
  refine ⟨h.ordered.store c hnamed, fun s hs => ?_⟩
  rcases (h.ordered.holds_store c hnamed).mp hs with rfl | ⟨-, hs⟩
  · exact hc
  · exact h.commands s hs

/-! ## Failures -/

def Failure.Unbroken : Failure → Prop
  | .error e => OneLine e.message
  | .foreign message => OneLine message

theorem Program.Unbroken.stepsOf_error {p : Program} (h : p.Unbroken) {goal : Goal} (hgoal : goal.Drawn Lexeme.Unbroken)
    {pos : Location} {f : Failure} (hf : p.stepsOf pos goal = .error f) : f.Unbroken := by
  cases goal with
  | step n =>
    obtain ⟨literal, -, hn⟩ := hgoal
    rw [stepsOf] at hf
    split at hf <;> cases hf
    exact Cause.oneLine_noSuchStep (StepNumber.oneLine_of_ofLiteral hn)
  | part part =>
    obtain ⟨literal, -, hp⟩ := hgoal
    rw [stepsOf, h.ordered.partSteps_eq] at hf
    split at hf <;> cases hf
    exact Cause.oneLine_noSuchPart (oneLine_of_partOf hp)

end JossLang
