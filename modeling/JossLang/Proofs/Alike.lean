import JossLang.Builtin
import JossLang.Environment
import JossLang.Proofs.EnvironmentRuns
import JossLang.Proofs.Layout
import JossLang.Proofs.Spellings

/-!
# Values and environments that are alike

Two expressions are alike when they differ in their locations only, values when
they are equal but for the bodies of defined functions, and environments when
their names are bound alike. What is computed of alike values is the same.

A name may be an array on the left and, on the right, the function that reads
that array: such a name is turned.
-/

namespace JossLang

/-- What counts as alike: locations that stand for one another, the built-in functions there are, and
the names that may be turned. -/
structure Likeness where
  place : Location → Location → Prop
  isBuiltin : String → Bool
  turned : String → Prop

/-! ## Associations -/

section
variable {α β γ : Type} [BEq α] {R : α × β → α × γ → Prop} {l : List (α × β)} {l' : List (α × γ)}

theorem forall₂_put (hR : ∀ e e', R e e' → e.1 = e'.1) {key : α} {v : β} {w : γ} (hold : ∀ k, key == k → R (k, v) (k, w))
    (hnew : R (key, v) (key, w)) (h : List.Forall₂ R l l') : List.Forall₂ R (put key v l) (put key w l') := by
  induction h with
  | nil => exact .cons hnew .nil
  | @cons e e' l l' he hl ih =>
    obtain ⟨k, a⟩ := e
    obtain ⟨k', b⟩ := e'
    obtain rfl : k = k' := hR _ _ he
    unfold put
    split
    · next hk => exact .cons (hold k hk) hl
    · exact .cons he ih

theorem forall₂_lookup (hR : ∀ e e', R e e' → e.1 = e'.1) (key : α) (h : List.Forall₂ R l l') :
    Option.Rel (fun v w => ∃ k, key == k ∧ R (k, v) (k, w)) (l.lookup key) (l'.lookup key) := by
  induction h with
  | nil => exact .none
  | @cons e e' l l' he hl ih =>
    obtain ⟨k, a⟩ := e
    obtain ⟨k', b⟩ := e'
    obtain rfl : k = k' := hR _ _ he
    rw [List.lookup_cons, List.lookup_cons]
    cases hk : key == k
    · exact ih
    · exact .some ⟨k, hk, he⟩

end

theorem forall₂_mem {α β : Type} {R : α → β → Prop} {l : List α} {l' : List β} (h : List.Forall₂ R l l') :
    List.Forall₂ (fun a b => a ∈ l ∧ R a b) l l' :=
  (List.forall₂_and_left _ _).mpr ⟨fun _ => id, h⟩

theorem nodup_put (key : String) (b : Binding) {l : List (String × Binding)} (h : (l.map (·.1)).Nodup) :
    ((put key b l).map (·.1)).Nodup := by
  rw [Environment.keys_put]
  split
  · exact h
  · next hk => exact h.append (List.nodup_singleton key) (by simpa using hk)

theorem lookup_of_mem {γ : Type} {l : List (String × γ)} (h : (l.map (·.1)).Nodup) {e : String × γ} (he : e ∈ l) :
    l.lookup e.1 = some e.2 := by
  induction l with
  | nil => cases he
  | cons f l ih =>
    obtain ⟨k, v⟩ := f
    rw [List.map_cons, List.nodup_cons] at h
    rw [List.lookup_cons]
    rcases List.mem_cons.mp he with rfl | he
    · rw [beq_self_eq_true]
    · have hne : e.1 ≠ k := fun hk => h.1 (List.mem_map.mpr ⟨e, he, hk⟩)
      rw [beq_false_of_ne hne]
      exact ih h.2 he

/-! ## Trees -/

section
variable (place : Location → Location → Prop)

mutual

inductive Expr.Alike : Expr → Expr → Prop where
  | number {p q : Location} (x : Float) : place p q → Expr.Alike (.number p x) (.number q x)
  | reference {p q : Location} (name : String) {is js : List Expr} : place p q → List.Forall₂ Expr.Alike is js →
      Expr.Alike (.reference p name is) (.reference q name js)
  | binary {p q : Location} (o : Operator) {a a' b b' : Expr} : place p q → Expr.Alike a a' → Expr.Alike b b' →
      Expr.Alike (.binary p o a b) (.binary q o a' b')
  | conditional {p q : Location} {bs cs : List Branch} {a a' : Expr} : place p q → List.Forall₂ Branch.Alike bs cs →
      Expr.Alike a a' → Expr.Alike (.conditional p bs a) (.conditional q cs a')
  | reduction {p q : Location} (f v : String) {r r' : Range} {a a' : Expr} : place p q → Range.Alike r r' →
      Expr.Alike a a' → Expr.Alike (.reduction p f v r a) (.reduction q f v r' a')

inductive Branch.Alike : Branch → Branch → Prop where
  | mk {a a' b b' : Expr} : Expr.Alike a a' → Expr.Alike b b' → Branch.Alike (.mk a b) (.mk a' b')

inductive Range.Alike : Range → Range → Prop where
  | mk {p q : Location} {ts us : List Term} : place p q → List.Forall₂ Term.Alike ts us →
      Range.Alike (.mk p ts) (.mk q us)

inductive Term.Alike : Term → Term → Prop where
  | single {a a' : Expr} : Expr.Alike a a' → Term.Alike (.single a) (.single a')
  | stepped {a a' b b' c c' : Expr} : Expr.Alike a a' → Expr.Alike b b' → Expr.Alike c c' →
      Term.Alike (.stepped a b c) (.stepped a' b' c')

end

inductive Item.Alike : Item → Item → Prop where
  | quoted {p q : Location} (text : String) : place p q → Item.Alike (.quoted p text) (.quoted q text)
  | numeric {p q : Location} {e e' : Expr} : place p q → e.Alike place e' → Item.Alike (.numeric p e) (.numeric q e')

def Goal.Spelled : Goal → Prop
  | .step number => number.Spelled
  | .part _ => True

inductive Loop.Alike : Loop → Loop → Prop where
  | once : Loop.Alike .once .once
  | times {e e' : Expr} : e.Alike place e' → Loop.Alike (.times e) (.times e')
  | each {v : String} {r r' : Range} : (Lexeme.name v).Sound → r.Alike place r' → Loop.Alike (.each v r) (.each v r')

inductive Verb.Alike : Verb → Verb → Prop where
  | blank {p q : Location} : place p q → Verb.Alike (.blank p) (.blank q)
  | type {p q : Location} {is js : List Item} : place p q → List.Forall₂ (Item.Alike place) is js →
      Verb.Alike (.type p is) (.type q js)
  | set {p q r t : Location} {name : String} {is js : List Expr} {e e' : Expr} : place p q → place r t →
      (Lexeme.name name).Sound → List.Forall₂ (Expr.Alike place) is js → e.Alike place e' →
      Verb.Alike (.set p ⟨r, name, is⟩ e) (.set q ⟨t, name, js⟩ e')
  | define {p q : Location} {name : String} (params : List String) {e e' : Expr} : place p q →
      (Lexeme.name name).Sound → e.Alike place e' → Verb.Alike (.define p name params e) (.define q name params e')
  | perform {p q : Location} {goal : Goal} {l l' : Loop} : place p q → goal.Spelled → l.Alike place l' →
      Verb.Alike (.perform p goal l) (.perform q goal l')

structure Command.Alike (c c' : Command) : Prop where
  pos : place c.pos c'.pos
  verb : c.verb.Alike place c'.verb
  guard : Option.Rel (Expr.Alike place) c.guard c'.guard

inductive Line.Alike : Line → Line → Prop where
  | direct {c c' : Command} : c.Alike place c' → Line.Alike (.direct c) (.direct c')
  | stored {p q : Location} (number : StepNumber) {c c' : Command} : place p q → number.Spelled → c.Alike place c' →
      Line.Alike (.stored p number c) (.stored q number c')

end

section
variable {place : Location → Location → Prop}

theorem Expr.Alike.pos {e e' : Expr} (h : e.Alike place e') : place e.pos e'.pos := by
  cases h <;> assumption

end

/-! ## Values -/

section
variable (L : Likeness)

inductive Callable.Alike (arrays : Nat) : Callable → Callable → Prop where
  | builtin {name : String} : L.isBuiltin name → Callable.Alike arrays (.builtin name) (.builtin name)
  | user (serial : Nat) (name : String) (params : List String) {body body' : Expr} : body.Alike L.place body' →
      Callable.Alike arrays (.user serial ⟨name, params, body⟩) (.user serial ⟨name, params, body'⟩)
  | array {serial : Nat} (name : String) : serial < arrays →
      Callable.Alike arrays (.array serial name) (.array serial name)

inductive Value.Alike (arrays : Nat) : Value → Value → Prop where
  | scalar (s : Scalar) : Value.Alike arrays (.scalar s) (.scalar s)
  | function {f g : Callable} : f.Alike L arrays g → Value.Alike arrays (.function f) (.function g)

end

section
variable {L : Likeness} {n m : Nat}

theorem Callable.Alike.mono {f g : Callable} (h : f.Alike L n g) (hnm : n ≤ m) : f.Alike L m g := by
  cases h with
  | builtin hb => exact .builtin hb
  | user _ _ _ hb => exact .user _ _ _ hb
  | array _ hlt => exact .array _ (hlt.trans_le hnm)

theorem Callable.Alike.name {f g : Callable} (h : f.Alike L n g) : f.name = g.name := by
  cases h <;> rfl

theorem Callable.Alike.same {f g f' g' : Callable} (h : f.Alike L n f') (h' : g.Alike L n g') :
    f.same g = f'.same g' := by
  cases h <;> cases h' <;> rfl

namespace Value.Alike

variable {v w : Value} (h : v.Alike L n w)
include h

theorem mono (hnm : n ≤ m) : v.Alike L m w := by
  cases h with
  | scalar s => exact .scalar s
  | function hf => exact .function (hf.mono hnm)

theorem toNumber : v.toNumber = w.toNumber := by
  cases h <;> rfl

theorem toTruth : v.toTruth = w.toTruth := by
  cases h <;> rfl

theorem toIndex : v.toIndex = w.toIndex := by
  cases h <;> rfl

theorem written : v.written = w.written := by
  cases h with
  | scalar s => rfl
  | function hf => simp only [Value.written, hf.name]

theorem exchangeTruth : Builtin.exchangeTruth v = Builtin.exchangeTruth w := by
  cases h <;> rfl

theorem equal {v' w' : Value} (h' : v'.Alike L n w') : v.equal v' = w.equal w' := by
  cases h with
  | scalar s => cases h' with
    | scalar t => rfl
    | function _ => cases s <;> rfl
  | function hf => cases h' with
    | scalar t => rfl
    | function hg => exact hf.same hg

end Value.Alike

theorem operation_alike {name : String} {f : Value → Value → Value} (hf : (name, f) ∈ operations) {a a' b b' : Value}
    (ha : a.Alike L n a') (hb : b.Alike L n b') : f a b = f a' b' := by
  have he := ha.equal hb
  simp only [operations, List.mem_cons, Prod.mk.injEq, List.not_mem_nil, or_false] at hf
  rcases hf with h | h | h | h | h | h | h | h | h | h | h | h <;> obtain ⟨-, rfl⟩ := h <;>
    simp only [Value.both, Value.arithmetic, Value.comparison, ha.toTruth, hb.toTruth, ha.toNumber, hb.toNumber, he]

theorem operation_scalar {name : String} {f : Value → Value → Value} (hf : (name, f) ∈ operations) (a b : Value) :
    ∃ s, f a b = .scalar s := by
  simp only [operations, List.mem_cons, Prod.mk.injEq, List.not_mem_nil, or_false] at hf
  rcases hf with h | h | h | h | h | h | h | h | h | h | h | h <;> obtain ⟨-, rfl⟩ := h <;> exact ⟨_, rfl⟩

section
variable {vs ws : List Value} (h : List.Forall₂ (Value.Alike L n) vs ws)
include h

theorem map_eq_of_alike {α : Type} {f : Value → α} (hf : ∀ v w, v.Alike L n w → f v = f w) : vs.map f = ws.map f := by
  induction h with
  | nil => rfl
  | cons hv _ ih => rw [List.map_cons, List.map_cons, hf _ _ hv, ih]

theorem Builtin.apply_alike (host : Elementary) (b : Builtin) : b.apply host vs = b.apply host ws := by
  have hnumbers := map_eq_of_alike h fun _ _ => Value.Alike.toNumber
  have htruths := map_eq_of_alike h fun _ _ => Value.Alike.toTruth
  have hunary : ∀ f, unary f vs = unary f ws := fun f => by
    simp only [unary, ← List.head?_map, hnumbers]
  cases b with
  | arg =>
    cases h with
    | nil => rfl
    | cons hv h => cases h with
      | nil => rfl
      | cons hw _ => simp only [Builtin.apply, hv.toNumber, hw.toNumber]
  | conj => simpa [Builtin.apply, Function.comp_def] using congrArg (List.all · id) htruths
  | disj => simpa [Builtin.apply, Function.comp_def] using congrArg (List.any · id) htruths
  | tv =>
    simp only [Builtin.apply, ← List.head?_map, map_eq_of_alike h fun _ _ => Value.Alike.exchangeTruth]
  | sum | prod | min | max => simp only [Builtin.apply, hnumbers]
  | fp => exact hunary fun x => x - Double.truncate x
  | _ => exact hunary _

end

theorem Builtin.apply_scalar (host : Elementary) (b : Builtin) (args : List Value) : ∃ s, b.apply host args = .scalar s := by
  have hexchange : ∀ v, ∃ s, exchangeTruth v = .scalar s := fun v => by
    unfold exchangeTruth
    split <;> exact ⟨_, rfl⟩
  cases b with
  | arg => rcases args with _ | ⟨x, _ | ⟨y, args⟩⟩ <;> exact ⟨_, rfl⟩
  | tv => cases args with
    | nil => exact ⟨_, rfl⟩
    | cons v args => exact hexchange v
  | _ => exact ⟨_, rfl⟩

end

/-! ## Arrays -/

section
variable (L : Likeness)

structure Table.Alike (arrays : Nat) (t t' : Table) : Prop where
  name : t.name = t'.name
  sparse : t.sparse = t'.sparse
  dimensions : t.dimensions = t'.dimensions
  entries : List.Forall₂ (fun e e' => e.1 = e'.1 ∧ e.2.Alike L arrays e'.2) t.entries t'.entries

inductive ElementsAlike (arrays : Nat) : Except Cause Value → Except Cause Value → Prop where
  | element {v w : Value} : v.Alike L arrays w → ElementsAlike arrays (.ok v) (.ok w)
  | dimensions (array : String) (expected got : Nat) :
      ElementsAlike arrays (.error (.wrongDimensions array expected got)) (.error (.wrongDimensions array expected got))
  | missing (array : String) (indices : List Float) :
      ElementsAlike arrays (.error (.missingElement array indices)) (.error (.missingElement array indices))

end

section
variable {L : Likeness} {n m : Nat} {t t' : Table}

theorem Table.alike_new (name : String) (sparse : Bool) :
    Table.Alike L n { name := name, sparse := sparse } { name := name, sparse := sparse } := ⟨rfl, rfl, rfl, .nil⟩

theorem Table.Alike.mono (h : t.Alike L n t') (hnm : n ≤ m) : t.Alike L m t' :=
  ⟨h.name, h.sparse, h.dimensions, h.entries.imp fun _ _ he => ⟨he.1, he.2.mono hnm⟩⟩

theorem Table.name_set (t : Table) (is : List Index) (v : Value) : (t.set is v).name = t.name := by
  unfold Table.set
  split <;> rfl

theorem Table.Alike.set (h : t.Alike L n t') (is : List Index) {v w : Value} (hv : v.Alike L n w) :
    (t.set is v).Alike L n (t'.set is w) := by
  unfold Table.set
  rw [← h.dimensions]
  split
  · refine ⟨h.name, h.sparse, rfl, ?_⟩
    exact forall₂_put (fun _ _ he => he.1) (fun _ _ => ⟨rfl, hv⟩) ⟨rfl, hv⟩ h.entries
  · exact ⟨h.name, h.sparse, rfl, .cons ⟨rfl, hv⟩ .nil⟩

theorem Table.Alike.get (h : t.Alike L n t') (is : List Index) : ElementsAlike L n (t.get is) (t'.get is) := by
  have hl := forall₂_lookup (fun _ _ he => he.1) is h.entries
  unfold Table.get
  rw [← h.dimensions, ← h.name, ← h.sparse]
  split
  · exact .dimensions _ _ _
  · generalize t.entries.lookup is = o at hl
    generalize t'.entries.lookup is = o' at hl
    cases hl with
    | none =>
      dsimp only
      split
      · exact .element (.scalar _)
      · exact .missing _ _
    | some hv =>
      obtain ⟨_, -, -, hv⟩ := hv
      exact .element hv

end

/-! ## Environments -/

section
variable (L : Likeness)

inductive Binding.Alike (env : Environment) (name : String) : Binding → Binding → Prop where
  | scalar (s : Scalar) : Binding.Alike env name (.scalar s) (.scalar s)
  | array {serial : Nat} : serial < env.tables.size → Binding.Alike env name (.array serial) (.array serial)
  | function {f g : Callable} : f.Alike L env.tables.size g → Binding.Alike env name (.function f) (.function g)
  | turned {serial : Nat} : L.turned name → serial < env.tables.size →
      Binding.Alike env name (.array serial) (.function (.array serial (env.table serial).name))

def BoundAlike (env : Environment) (e e' : String × Binding) : Prop :=
  e.1 = e'.1 ∧ (Lexeme.name e.1).Sound ∧ e.2.Alike L env e.1 e'.2

structure Environment.Alike (env env' : Environment) : Prop where
  sparse : env.sparse = env'.sparse
  defined : env.defined = env'.defined
  arrays : env.tables.size = env'.tables.size
  tables : ∀ serial, (env.table serial).Alike L env.tables.size (env'.table serial)
  nodup : (env.bindings.map (·.1)).Nodup
  bindings : List.Forall₂ (BoundAlike L env) env.bindings env'.bindings

end

/-- The arrays are still there under their names, and there may be more. -/
def Environment.Grows (env env' : Environment) : Prop :=
  env.tables.size ≤ env'.tables.size ∧ ∀ serial < env.tables.size, (env'.table serial).name = (env.table serial).name

section
variable {L : Likeness} {env env' : Environment}

theorem Binding.Alike.grows {env₁ : Environment} (hg : env.Grows env₁) {x : String} {b b' : Binding}
    (h : b.Alike L env x b') : b.Alike L env₁ x b' := by
  cases h with
  | scalar s => exact .scalar s
  | array hlt => exact .array (hlt.trans_le hg.1)
  | function hf => exact .function (hf.mono hg.1)
  | turned ht hlt =>
    rw [← hg.2 _ hlt]
    exact .turned ht (hlt.trans_le hg.1)

theorem BoundAlike.grows {env₁ : Environment} (hg : env.Grows env₁) {e e' : String × Binding}
    (h : BoundAlike L env e e') : BoundAlike L env₁ e e' := ⟨h.1, h.2.1, h.2.2.grows hg⟩

namespace Environment

theorem Grows.refl (env : Environment) : env.Grows env := ⟨le_rfl, fun _ _ => rfl⟩

theorem Grows.trans {env₁ env₂ env₃ : Environment} (h : env₁.Grows env₂) (h' : env₂.Grows env₃) : env₁.Grows env₃ :=
  ⟨h.1.trans h'.1, fun serial hlt => (h'.2 serial (hlt.trans_le h.1)).trans (h.2 serial hlt)⟩

theorem grows_modify (env : Environment) (serial : Nat) (is : List Index) (v : Value) :
    env.Grows { env with tables := env.tables.modify serial (·.set is v) } := by
  refine ⟨(Array.size_modify ..).ge, fun other _ => ?_⟩
  simp only [table, Array.getD_eq_getD_getElem?, Array.getElem?_modify]
  split
  · cases env.tables[other]? with
    | none => rfl
    | some t => exact Table.name_set t is v
  · rfl

theorem grows_push (env : Environment) (x : String) (t : Table) :
    env.Grows { env.bind x (.array env.tables.size) with tables := env.tables.push t } := by
  refine ⟨by rw [Array.size_push]; exact Nat.le_succ _, fun serial hlt => ?_⟩
  rw [table_push, if_neg hlt.ne]

theorem grows_setElement (env : Environment) (x : String) (is : List Index) (v : Value) :
    env.Grows (env.setElement x is v) := by
  rw [setElement]
  split
  · exact env.grows_modify _ is v
  · exact env.grows_push x _

theorem alike_start (sparse : Bool) : Environment.Alike L { sparse := sparse } { sparse := sparse } :=
  ⟨rfl, rfl, rfl, fun _ => Table.alike_new _ _, List.nodup_nil, .nil⟩

namespace Alike

variable (h : env.Alike L env')
include h

theorem binding? (x : String) : Option.Rel (Binding.Alike L env x) (env.binding? x) (env'.binding? x) := by
  have hl := forall₂_lookup (fun _ _ he => he.1) x h.bindings
  unfold Environment.binding?
  generalize env.bindings.lookup x = o at hl ⊢
  generalize env'.bindings.lookup x = o' at hl ⊢
  cases hl with
  | none => exact .none
  | some hb =>
    obtain ⟨k, hk, -, -, hb⟩ := hb
    obtain rfl := eq_of_beq hk
    exact .some hb

theorem bound? (x : String) : Option.Rel (Value.Alike L env.tables.size) (env.bound? x) (env'.bound? x) := by
  have hb := h.binding? x
  unfold Environment.bound?
  generalize env.binding? x = o at hb ⊢
  generalize env'.binding? x = o' at hb ⊢
  cases hb with
  | none => exact .none
  | some hb => cases hb with
    | scalar s => exact .some (.scalar s)
    | @array serial hlt =>
      have hf : (Callable.array serial (env.table serial).name).Alike L env.tables.size
          (.array serial (env'.table serial).name) := (h.tables serial).name ▸ .array _ hlt
      exact .some (.function hf)
    | function hf => exact .some (.function hf)
    | turned _ hlt => exact .some (.function (.array _ hlt))

theorem get? (x : String) :
    Option.Rel (Value.Alike L env.tables.size) (env.get? L.isBuiltin x) (env'.get? L.isBuiltin x) := by
  have hb := h.bound? x
  unfold Environment.get?
  generalize env.bound? x = o at hb ⊢
  generalize env'.bound? x = o' at hb ⊢
  cases hb with
  | some hv => exact .some hv
  | none =>
    dsimp only
    split
    · next hx => exact .some (.function (.builtin hx))
    · exact .none

theorem bind {x : String} (hx : (Lexeme.name x).Sound) {b b' : Binding} (hb : b.Alike L env x b') :
    (env.bind x b).Alike L (env'.bind x b') := by
  have hg : env.Grows (env.bind x b) := ⟨le_rfl, fun _ _ => rfl⟩
  refine ⟨h.sparse, h.defined, h.arrays, h.tables, nodup_put _ _ h.nodup, ?_⟩
  refine List.Forall₂.imp (fun _ _ he => he.grows hg) (forall₂_put (fun _ _ he => he.1) (fun k hk => ?_) ?_ h.bindings)
  · obtain rfl := eq_of_beq hk
    exact ⟨rfl, hx, hb⟩
  · exact ⟨rfl, hx, hb⟩

theorem define {x : String} (hx : (Lexeme.name x).Sound) (params : List String) {body body' : Expr}
    (hb : body.Alike L.place body') :
    Environment.Alike L
      { env.bind x (.function (.user env.defined ⟨x, params, body⟩)) with defined := env.defined + 1 }
      { env'.bind x (.function (.user env'.defined ⟨x, params, body'⟩)) with defined := env'.defined + 1 } := by
  have hg : env.Grows { env with defined := env.defined + 1 } := ⟨le_rfl, fun _ _ => rfl⟩
  have hcount : Environment.Alike L { env with defined := env.defined + 1 } { env' with defined := env'.defined + 1 } :=
    ⟨h.sparse, congrArg (· + 1) h.defined, h.arrays, h.tables, h.nodup,
      h.bindings.imp fun _ _ he => he.grows hg⟩
  exact hcount.bind hx (h.defined ▸ .function (.user _ _ _ hb))

theorem modify {serial : Nat} (hlt : serial < env.tables.size) (is : List Index) {v w : Value}
    (hv : v.Alike L env.tables.size w) :
    Environment.Alike L { env with tables := env.tables.modify serial (·.set is v) }
      { env' with tables := env'.tables.modify serial (·.set is w) } := by
  have hg := env.grows_modify serial is v
  refine ⟨h.sparse, h.defined, ?_, fun other => ?_, h.nodup, h.bindings.imp fun _ _ he => he.grows hg⟩
  · rw [Array.size_modify, Array.size_modify, h.arrays]
  · rw [Array.size_modify, table_modify hlt, table_modify (h.arrays ▸ hlt)]
    split
    · exact (h.tables other).set is hv
    · exact h.tables other

theorem push {x : String} (hx : (Lexeme.name x).Sound) (is : List Index) {v w : Value}
    (hv : v.Alike L env.tables.size w) :
    Environment.Alike L
      { env.bind x (.array env.tables.size) with
        tables := env.tables.push (Table.set { name := x, sparse := env.sparse } is v) }
      { env'.bind x (.array env'.tables.size) with
        tables := env'.tables.push (Table.set { name := x, sparse := env'.sparse } is w) } := by
  have hnew : Table.Alike L (env.tables.size + 1) (Table.set { name := x, sparse := env.sparse } is v)
      (Table.set { name := x, sparse := env'.sparse } is w) :=
    h.sparse ▸ (Table.alike_new x env.sparse).set is (hv.mono (Nat.le_succ _))
  generalize Table.set { name := x, sparse := env.sparse } is v = t at hnew ⊢
  generalize Table.set { name := x, sparse := env'.sparse } is w = t' at hnew ⊢
  have hg := env.grows_push x t
  refine ⟨h.sparse, h.defined, ?_, fun serial => ?_, nodup_put _ _ h.nodup, ?_⟩
  · rw [Array.size_push, Array.size_push, h.arrays]
  · rw [Array.size_push, table_push, table_push, ← h.arrays]
    split
    · exact hnew
    · exact (h.tables serial).mono (Nat.le_succ _)
  · have hb : Binding.Alike L { env.bind x (.array env.tables.size) with tables := env.tables.push t } x
        (.array env.tables.size) (.array env'.tables.size) :=
      h.arrays ▸ .array (by rw [Array.size_push]; exact Nat.lt_succ_self _)
    refine forall₂_put (fun _ _ he => he.1) (fun k hk => ?_) ⟨rfl, hx, hb⟩ (h.bindings.imp fun _ _ he => he.grows hg)
    obtain rfl := eq_of_beq hk
    exact ⟨rfl, hx, hb⟩

theorem setElement {x : String} (hx : (Lexeme.name x).Sound)
    (ht : L.turned x → ∃ serial, env'.binding? x = some (.array serial)) (is : List Index) {v w : Value}
    (hv : v.Alike L env.tables.size w) : (env.setElement x is v).Alike L (env'.setElement x is w) := by
  have hb := h.binding? x
  unfold Environment.setElement
  generalize env.binding? x = o at hb ⊢
  generalize env'.binding? x = o' at hb ht ⊢
  cases hb with
  | none => exact h.push hx is hv
  | some hb => cases hb with
    | scalar s => exact h.push hx is hv
    | array hlt => exact h.modify hlt is hv
    | function hf => exact h.push hx is hv
    | turned hturned _ =>
      obtain ⟨serial, harray⟩ := ht hturned
      cases harray

end Alike

end Environment

end

/-! ## Turning -/

section
variable {place : Location → Location → Prop} {isBuiltin : String → Bool} {turned : String → Prop} {n : Nat}
  (turned' : String → Prop)

theorem Callable.Alike.turn {f g : Callable} (h : f.Alike ⟨place, isBuiltin, turned⟩ n g) :
    f.Alike ⟨place, isBuiltin, turned'⟩ n g := by
  cases h with
  | builtin hb => exact .builtin hb
  | user _ _ _ hb => exact .user _ _ _ hb
  | array _ hlt => exact .array _ hlt

theorem Value.Alike.turn {v w : Value} (h : v.Alike ⟨place, isBuiltin, turned⟩ n w) :
    v.Alike ⟨place, isBuiltin, turned'⟩ n w := by
  cases h with
  | scalar s => exact .scalar s
  | function hf => exact .function (hf.turn turned')

theorem Table.Alike.turn {t t' : Table} (h : t.Alike ⟨place, isBuiltin, turned⟩ n t') :
    t.Alike ⟨place, isBuiltin, turned'⟩ n t' :=
  ⟨h.name, h.sparse, h.dimensions, h.entries.imp fun _ _ he => ⟨he.1, he.2.turn turned'⟩⟩

/-- Names may stop being turned when they are no arrays. -/
theorem Environment.Alike.turn {env env' : Environment} (h : env.Alike ⟨place, isBuiltin, turned⟩ env')
    (ht : ∀ x, turned x → (∀ serial, env.binding? x ≠ some (.array serial)) ∨ turned' x) :
    env.Alike ⟨place, isBuiltin, turned'⟩ env' := by
  refine ⟨h.sparse, h.defined, h.arrays, fun serial => (h.tables serial).turn turned', h.nodup, ?_⟩
  refine (forall₂_mem h.bindings).imp fun e e' ⟨he, hname, hsound, hb⟩ => ⟨hname, hsound, ?_⟩
  have hbound : env.binding? e.1 = some e.2 := lookup_of_mem h.nodup he
  generalize e.2 = b at hb hbound ⊢
  generalize e'.2 = b' at hb ⊢
  cases hb with
  | scalar s => exact .scalar s
  | array hlt => exact .array hlt
  | function hf => exact .function (hf.turn turned')
  | turned hx hlt =>
    rcases ht e.1 hx with hne | hx'
    · exact absurd hbound (hne _)
    · exact .turned hx' hlt

end

/-! ## Alike at the same places -/

mutual

theorem Expr.Alike.eq : ∀ {e e' : Expr}, e.Alike Eq e' → e = e'
  | .number _ _, _, .number _ h => by rw [h]
  | .reference _ _ _, _, .reference _ h hi => by rw [h, alikeAll_eq hi]
  | .binary _ _ _ _, _, .binary _ h ha hb => by rw [h, Expr.Alike.eq ha, Expr.Alike.eq hb]
  | .conditional _ _ _, _, .conditional h hb ha => by rw [h, alikeBranches_eq hb, Expr.Alike.eq ha]
  | .reduction _ _ _ _ _, _, .reduction _ _ h hr ha => by rw [h, Range.Alike.eq hr, Expr.Alike.eq ha]
termination_by structural e => e

theorem alikeAll_eq : ∀ {es es' : List Expr}, List.Forall₂ (Expr.Alike Eq) es es' → es = es'
  | [], _, .nil => rfl
  | _ :: _, _, .cons h hs => by rw [Expr.Alike.eq h, alikeAll_eq hs]
termination_by structural es => es

theorem Branch.Alike.eq : ∀ {b b' : Branch}, b.Alike Eq b' → b = b'
  | .mk _ _, _, .mk ha hb => by rw [Expr.Alike.eq ha, Expr.Alike.eq hb]
termination_by structural b => b

theorem alikeBranches_eq : ∀ {bs bs' : List Branch}, List.Forall₂ (Branch.Alike Eq) bs bs' → bs = bs'
  | [], _, .nil => rfl
  | _ :: _, _, .cons h hs => by rw [Branch.Alike.eq h, alikeBranches_eq hs]
termination_by structural bs => bs

theorem Range.Alike.eq : ∀ {r r' : Range}, r.Alike Eq r' → r = r'
  | .mk _ _, _, .mk h ht => by rw [h, alikeTerms_eq ht]
termination_by structural r => r

theorem Term.Alike.eq : ∀ {t t' : Term}, t.Alike Eq t' → t = t'
  | .single _, _, .single ha => by rw [Expr.Alike.eq ha]
  | .stepped _ _ _, _, .stepped ha hb hc => by rw [Expr.Alike.eq ha, Expr.Alike.eq hb, Expr.Alike.eq hc]
termination_by structural t => t

theorem alikeTerms_eq : ∀ {ts ts' : List Term}, List.Forall₂ (Term.Alike Eq) ts ts' → ts = ts'
  | [], _, .nil => rfl
  | _ :: _, _, .cons h hs => by rw [Term.Alike.eq h, alikeTerms_eq hs]
termination_by structural ts => ts

end

section
variable {isBuiltin : String → Bool} {n : Nat}

abbrev Likeness.strict (isBuiltin : String → Bool) : Likeness := ⟨Eq, isBuiltin, fun _ => False⟩

theorem Callable.Alike.eq {f g : Callable} (h : f.Alike (.strict isBuiltin) n g) : f = g := by
  cases h with
  | builtin _ => rfl
  | user _ _ _ hb => rw [hb.eq]
  | array _ _ => rfl

theorem Value.Alike.eq {v w : Value} (h : v.Alike (.strict isBuiltin) n w) : v = w := by
  cases h with
  | scalar s => rfl
  | function hf => rw [hf.eq]

theorem forall₂_eq {α : Type} {R : α → α → Prop} (hR : ∀ a b, R a b → a = b) {l l' : List α} (h : List.Forall₂ R l l') :
    l = l' :=
  List.forall₂_eq_eq_eq ▸ h.imp hR

theorem Table.Alike.eq {t t' : Table} (h : t.Alike (.strict isBuiltin) n t') : t = t' := by
  have hentries : t.entries = t'.entries := forall₂_eq (fun _ _ he => Prod.ext he.1 he.2.eq) h.entries
  obtain ⟨name, sparse, dimensions, entries⟩ := t
  obtain ⟨name', sparse', dimensions', entries'⟩ := t'
  obtain ⟨rfl, rfl, rfl, -⟩ := h
  exact congrArg _ hentries

theorem Environment.Alike.eq {env env' : Environment} (h : env.Alike (.strict isBuiltin) env') : env = env' := by
  have hbindings : env.bindings = env'.bindings := forall₂_eq (fun e e' he => by
    refine Prod.ext he.1 ?_
    have hb := he.2.2
    generalize e.2 = b at hb ⊢
    generalize e'.2 = b' at hb ⊢
    cases hb with
    | scalar s => rfl
    | array _ => rfl
    | function hf => rw [hf.eq]
    | turned ht _ => exact ht.elim) h.bindings
  have htables : env.tables = env'.tables := by
    refine Array.ext h.arrays fun i hi hi' => ?_
    have ht := (h.tables i).eq
    rwa [Environment.table, Environment.table, Array.getD_eq_getD_getElem?, Array.getD_eq_getD_getElem?,
      Array.getElem?_eq_getElem hi, Array.getElem?_eq_getElem hi', Option.getD_some, Option.getD_some] at ht
  obtain ⟨sparse, bindings, tables, defined⟩ := env
  obtain ⟨sparse', bindings', tables', defined'⟩ := env'
  obtain rfl := h.sparse
  obtain rfl := h.defined
  obtain rfl : bindings = bindings' := hbindings
  obtain rfl : tables = tables' := htables
  rfl

end

end JossLang
