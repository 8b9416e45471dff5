import JossLang.Proofs.Canonical
import JossLang.Proofs.SessionAgreement

/-!
# Bound names

What the loop variables of reductions and the parameters of functions are
called does not matter: `eval_hygienic`. They may be given any names that do not
occur where they are bound.

Renaming is said of any map of names that takes none to a name that occurs in the
expression, and of two scopes in which names and their new names stand for the
same values (`Renames`). Below a reduction the map leaves the loop variable alone.
-/

namespace JossLang

open Function (update)

variable {ω α β : Type}

/-! ## Names in expressions -/

mutual

def Expr.names : Expr → List String
  | .number _ _ => []
  | .reference _ name indices => name :: namesAll indices
  | .binary _ _ lhs rhs => lhs.names ++ rhs.names
  | .conditional _ branches otherwise => namesBranches branches ++ otherwise.names
  | .reduction _ function loopVar range body => function :: loopVar :: (range.names ++ body.names)

def namesAll : List Expr → List String
  | [] => []
  | e :: es => e.names ++ namesAll es

def Branch.names : Branch → List String
  | .mk condition result => condition.names ++ result.names

def namesBranches : List Branch → List String
  | [] => []
  | b :: bs => b.names ++ namesBranches bs

def Range.names : Range → List String
  | .mk _ terms => namesTerms terms

def Term.names : Term → List String
  | .single value => value.names
  | .stepped start step stop => start.names ++ (step.names ++ stop.names)

def namesTerms : List Term → List String
  | [] => []
  | t :: ts => t.names ++ namesTerms ts

end

mutual

def Expr.rename (ρ : String → String) : Expr → Expr
  | .number pos x => .number pos x
  | .reference pos name indices => .reference pos (ρ name) (renameAll ρ indices)
  | .binary pos o lhs rhs => .binary pos o (lhs.rename ρ) (rhs.rename ρ)
  | .conditional pos branches otherwise => .conditional pos (renameBranches ρ branches) (otherwise.rename ρ)
  | .reduction pos function loopVar range body =>
    .reduction pos (ρ function) loopVar (range.rename ρ) (body.rename (update ρ loopVar loopVar))

def renameAll (ρ : String → String) : List Expr → List Expr
  | [] => []
  | e :: es => e.rename ρ :: renameAll ρ es

def Branch.rename (ρ : String → String) : Branch → Branch
  | .mk condition result => .mk (condition.rename ρ) (result.rename ρ)

def renameBranches (ρ : String → String) : List Branch → List Branch
  | [] => []
  | b :: bs => b.rename ρ :: renameBranches ρ bs

def Range.rename (ρ : String → String) : Range → Range
  | .mk pos terms => .mk pos (renameTerms ρ terms)

def Term.rename (ρ : String → String) : Term → Term
  | .single value => .single (value.rename ρ)
  | .stepped start step stop => .stepped (start.rename ρ) (step.rename ρ) (stop.rename ρ)

def renameTerms (ρ : String → String) : List Term → List Term
  | [] => []
  | t :: ts => t.rename ρ :: renameTerms ρ ts

end

mutual

/-- Loop variables have other names, each one that does not occur in the body that it is bound in. -/
inductive Expr.Alpha : Expr → Expr → Prop where
  | number (pos : Location) (x : Float) : Expr.Alpha (.number pos x) (.number pos x)
  | reference (pos : Location) (name : String) {is js : List Expr} : List.Forall₂ Expr.Alpha is js →
      Expr.Alpha (.reference pos name is) (.reference pos name js)
  | binary (pos : Location) (o : Operator) {a a' b b' : Expr} : Expr.Alpha a a' → Expr.Alpha b b' →
      Expr.Alpha (.binary pos o a b) (.binary pos o a' b')
  | conditional (pos : Location) {bs cs : List Branch} {a a' : Expr} : List.Forall₂ Branch.Alpha bs cs →
      Expr.Alpha a a' → Expr.Alpha (.conditional pos bs a) (.conditional pos cs a')
  | reduction (pos : Location) (f v : String) {r r' : Range} {a a' : Expr} : Range.Alpha r r' → Expr.Alpha a a' →
      Expr.Alpha (.reduction pos f v r a) (.reduction pos f v r' a')
  | renamed (pos : Location) (f v w : String) {r r' : Range} {a a' : Expr} : Range.Alpha r r' → Expr.Alpha a a' →
      w ∉ a'.names → Expr.Alpha (.reduction pos f v r a) (.reduction pos f w r' (a'.rename (update id v w)))

inductive Branch.Alpha : Branch → Branch → Prop where
  | mk {a a' b b' : Expr} : Expr.Alpha a a' → Expr.Alpha b b' → Branch.Alpha (.mk a b) (.mk a' b')

inductive Range.Alpha : Range → Range → Prop where
  | mk (pos : Location) {ts us : List Term} : List.Forall₂ Term.Alpha ts us → Range.Alpha (.mk pos ts) (.mk pos us)

inductive Term.Alpha : Term → Term → Prop where
  | single {a a' : Expr} : Expr.Alpha a a' → Term.Alpha (.single a) (.single a')
  | stepped {a a' b b' c c' : Expr} : Expr.Alpha a a' → Expr.Alpha b b' → Expr.Alpha c c' →
      Term.Alpha (.stepped a b c) (.stepped a' b' c')

end

mutual

theorem Expr.Alpha.refl : ∀ e : Expr, e.Alpha e
  | .number pos x => .number pos x
  | .reference pos name is => .reference pos name (alphaAll_refl is)
  | .binary pos o a b => .binary pos o (Expr.Alpha.refl a) (Expr.Alpha.refl b)
  | .conditional pos bs a => .conditional pos (alphaBranches_refl bs) (Expr.Alpha.refl a)
  | .reduction pos f v r a => .reduction pos f v (Range.Alpha.refl r) (Expr.Alpha.refl a)

theorem alphaAll_refl : ∀ es : List Expr, List.Forall₂ Expr.Alpha es es
  | [] => .nil
  | e :: es => .cons (Expr.Alpha.refl e) (alphaAll_refl es)

theorem alphaBranches_refl : ∀ bs : List Branch, List.Forall₂ Branch.Alpha bs bs
  | [] => .nil
  | .mk a b :: bs => .cons (.mk (Expr.Alpha.refl a) (Expr.Alpha.refl b)) (alphaBranches_refl bs)

theorem Range.Alpha.refl : ∀ r : Range, r.Alpha r
  | .mk pos ts => .mk pos (alphaTerms_refl ts)

theorem alphaTerms_refl : ∀ ts : List Term, List.Forall₂ Term.Alpha ts ts
  | [] => .nil
  | .single a :: ts => .cons (.single (Expr.Alpha.refl a)) (alphaTerms_refl ts)
  | .stepped a b c :: ts =>
    .cons (.stepped (Expr.Alpha.refl a) (Expr.Alpha.refl b) (Expr.Alpha.refl c)) (alphaTerms_refl ts)

end

def UserFunction.rename (σ : String → String) (f : UserFunction) : UserFunction where
  name := f.name
  params := f.params.map σ
  body := f.body.rename fun x => if x ∈ f.params then σ x else x

/-! ## Runs that come to the same -/

/-- Failures of one class. They differ at most in the name of which it is said that it is no function. -/
inductive Failure.SameClass : Failure → Failure → Prop where
  | refl (f : Failure) : SameClass f f
  | notAFunction (x y : String) (pos : Option Location) :
      SameClass (.error (.runtime { cause := .notAFunction x, pos := pos }))
        (.error (.runtime { cause := .notAFunction y, pos := pos }))

theorem Failure.SameClass.trans {f g h : Failure} (hfg : f.SameClass g) (hgh : g.SameClass h) : f.SameClass h := by
  cases hfg with
  | refl => exact hgh
  | notAFunction x y pos =>
    cases hgh with
    | refl => exact .notAFunction x y pos
    | notAFunction _ z => exact .notAFunction x z pos

inductive SameResult : Except Failure α × State ω → Except Failure α × State ω → Prop where
  | value (a : α) (t : State ω) : SameResult (.ok a, t) (.ok a, t)
  | failure {f g : Failure} (t : State ω) : f.SameClass g → SameResult (.error f, t) (.error g, t)

theorem SameResult.refl (r : Except Failure α × State ω) : SameResult r r := by
  obtain ⟨r, t⟩ := r
  cases r with
  | ok a => exact .value a t
  | error f => exact .failure t (.refl f)

def Run.Same (m m' : Run ω α) : Prop := ∀ s, SameResult (m.run s) (m'.run s)

namespace Run

theorem Same.refl (m : Run ω α) : Same m m := fun s => .refl (m.run s)

theorem Same.trans {m m' m'' : Run ω α} (h : Same m m') (h' : Same m' m'') : Same m m'' := by
  intro s
  have hs := h s
  have hs' := h' s
  generalize m.run s = r at hs ⊢
  generalize m'.run s = r' at hs hs'
  generalize m''.run s = r'' at hs' ⊢
  cases hs with
  | value a t => exact hs'
  | failure t hf =>
    cases hs' with
    | failure _ hf' => exact .failure t (hf.trans hf')

theorem Same.bind {m m' : Run ω α} {f f' : α → Run ω β} (h : Same m m') (hf : ∀ a, Same (f a) (f' a)) :
    Same (m >>= f) (m' >>= f') := by
  intro s
  have hs := h s
  rw [run_bind, run_bind]
  generalize m.run s = r at hs
  generalize m'.run s = r' at hs
  cases hs with
  | value a t => exact hf a t
  | failure t hfail => exact .failure t hfail

section
variable {f f' : α → Value → Run ω α} (hf : ∀ a v, Same (f a v) (f' a v))
include hf

theorem same_foldSteps (step stop : Float) : ∀ (limit : Nat) (a : α) (x : Float),
    Same (foldSteps f step stop limit a x) (foldSteps f' step stop limit a x)
  | 0, _, _ => .refl _
  | limit + 1, a, x => by
    rw [foldSteps, foldSteps]
    split
    · exact (hf a _).bind fun b => same_foldSteps step stop limit b _
    · exact .refl _

theorem same_fold (limit : Nat) (a : α) (p : Progression) : Same (p.fold limit f a) (p.fold limit f' a) := by
  cases p with
  | single v => exact hf a v
  | stepped start step stop => exact same_foldSteps hf step stop limit a start

theorem same_foldRange (limit : Nat) {terms terms' : List (Run ω Progression)} (ht : List.Forall₂ Same terms terms') :
    ∀ a, Same (foldRange limit f a terms) (foldRange limit f' a terms') := by
  induction ht with
  | nil => exact fun a => .refl _
  | cons hm _ ih =>
    intro a
    rw [foldRange, foldRange]
    exact hm.bind fun p => (same_fold hf limit a p).bind ih

end

end Run

/-! ## Renaming -/

/-- The names are taken to names that do not occur among them, and in the two scopes a name and its new name stand
for the same value. A name that is not bound keeps its name. -/
structure Renames (ρ : String → String) (names : List String) (S S' : Scope) : Prop where
  fresh : ∀ x, ρ x = x ∨ ρ x ∉ names
  lookup : ∀ x ∈ names, S'.lookup (ρ x) = S.lookup x
  unbound : ∀ x ∈ names, S.lookup x = none → ρ x = x

namespace Renames

variable {ρ : String → String} {names : List String} {S S' : Scope}

theorem mono (h : Renames ρ names S S') {names' : List String} (hsub : names' ⊆ names) : Renames ρ names' S S' where
  fresh x := (h.fresh x).imp id fun hx hm => hx (hsub hm)
  lookup x hx := h.lookup x (hsub hx)
  unbound x hx := h.unbound x (hsub hx)

/-- No new name is that of a variable that is bound in the expression. -/
theorem bind {v : String} (h : Renames ρ (v :: names) S S') (a : Value) :
    Renames (update ρ v v) names ((v, a) :: S) ((v, a) :: S') := by
  have hlookup : ∀ x ∈ names, List.lookup (update ρ v v x) ((v, a) :: S') = List.lookup x ((v, a) :: S) ∧
      (List.lookup x ((v, a) :: S) = none → update ρ v v x = x) := by
    intro x hx
    by_cases hv : x = v
    · subst hv
      rw [Function.update_self, List.lookup_cons_self, List.lookup_cons_self]
      exact ⟨rfl, nofun⟩
    · -- otherwise the new name of `x` would be captured by the loop
      have hne : ρ x ≠ v := by
        rintro rfl
        exact (h.fresh x).elim (fun he => hv he.symm) fun hm => hm List.mem_cons_self
      rw [Function.update_of_ne hv, List.lookup_cons, List.lookup_cons, beq_false_of_ne hne, beq_false_of_ne hv]
      exact ⟨h.lookup x (List.mem_cons_of_mem _ hx), h.unbound x (List.mem_cons_of_mem _ hx)⟩
  refine ⟨fun x => ?_, fun x hx => (hlookup x hx).1, fun x hx => (hlookup x hx).2⟩
  by_cases hv : x = v
  · subst hv
    exact .inl (Function.update_self ..)
  · rw [Function.update_of_ne hv]
    exact (h.fresh x).imp id fun hx hm => hx (List.mem_cons_of_mem _ hm)

theorem valueOf (h : Renames ρ names S S') (setup : Setup ω) {x : String} (hx : x ∈ names) (pos : Location) :
    valueOf setup S x pos = valueOf setup S' (ρ x) pos := by
  unfold JossLang.valueOf
  rw [h.lookup x hx]
  cases hS : S.lookup x with
  | some v => rfl
  | none => rw [h.unbound x hx hS]

end Renames

section
variable (setup : Setup ω) (apply : Apply ω)

section
variable {setup apply} {S S' : Scope} {pos : Location}

theorem same_reference {x x' : String} {is is' : List Expr} (hx : valueOf setup S x pos = valueOf setup S' x' pos)
    (hempty : is'.isEmpty = is.isEmpty) (hi : Run.Same (evalAll setup apply S is) (evalAll setup apply S' is')) :
    Run.Same ((Expr.reference pos x is).eval setup apply S) ((Expr.reference pos x' is').eval setup apply S') := by
  rw [Expr.eval, Expr.eval, ← hx, hempty]
  refine (Run.Same.refl _).bind fun v => ?_
  cases v with
  | scalar s => exact .refl _
  | function f =>
    dsimp only
    split
    · exact .refl _
    · exact hi.bind fun args => .refl _

/-- Only here can the failures of two runs differ: the name that stands for no function is said in them. -/
theorem same_reduction {f f' v v' : String} {p p' : Location} {ts ts' : List Term} {a a' : Expr}
    (hf : valueOf setup S f pos = valueOf setup S' f' pos)
    (hts : List.Forall₂ Run.Same (evalTerms setup apply S ts) (evalTerms setup apply S' ts'))
    (ha : ∀ x, Run.Same (a.eval setup apply ((v, x) :: S)) (a'.eval setup apply ((v', x) :: S'))) :
    Run.Same ((Expr.reduction pos f v (.mk p ts) a).eval setup apply S)
      ((Expr.reduction pos f' v' (.mk p' ts') a').eval setup apply S') := by
  rw [Expr.eval, Expr.eval, ← hf]
  refine (Run.Same.refl _).bind fun g => ?_
  cases g with
  | scalar s => exact fun t => .failure t (.notAFunction f f' pos)
  | function g =>
    refine (Run.same_foldRange (fun _ x => ?_) _ hts []).bind fun _ => .refl _
    exact (ha x).bind fun _ => .refl _

end

mutual

theorem same_rename : ∀ (e : Expr) {ρ : String → String} {S S' : Scope}, Renames ρ e.names S S' →
    Run.Same (e.eval setup apply S) ((e.rename ρ).eval setup apply S')
  | .number _ x, _, _, _, _ => by
    rw [Expr.rename, Expr.eval, Expr.eval]
    exact .refl _
  | .reference pos name indices, ρ, S, S', h => by
    rw [Expr.names] at h
    have hempty : (renameAll ρ indices).isEmpty = indices.isEmpty := by cases indices <;> rfl
    rw [Expr.rename]
    exact same_reference (h.valueOf setup List.mem_cons_self pos) hempty
      (same_renameAll indices (h.mono (List.subset_cons_self _ _)))
  | .binary _ o lhs rhs, _, _, _, h => by
    rw [Expr.names] at h
    obtain ⟨f, hf, -⟩ := o.operation
    rw [Expr.rename, Expr.eval, Expr.eval, hf]
    exact (same_rename lhs (h.mono (List.subset_append_left _ _))).bind fun a =>
      (same_rename rhs (h.mono (List.subset_append_right _ _))).bind fun b => .refl _
  | .conditional _ branches otherwise, _, _, _, h => by
    rw [Expr.names] at h
    rw [Expr.rename, Expr.eval, Expr.eval]
    refine (same_renameBranches branches (h.mono (List.subset_append_left _ _))).bind fun o => ?_
    cases o with
    | some v => exact .refl _
    | none => exact same_rename otherwise (h.mono (List.subset_append_right _ _))
  | .reduction pos function loopVar (.mk _ terms) body, ρ, S, S', h => by
    rw [Expr.names, Range.names] at h
    rw [Expr.rename, Range.rename]
    have hterms : Renames ρ (namesTerms terms) S S' := h.mono fun x hx =>
      List.mem_cons_of_mem _ (List.mem_cons_of_mem _ (List.mem_append_left _ hx))
    have hbody : Renames ρ (loopVar :: body.names) S S' := h.mono fun x hx => List.mem_cons_of_mem _ <|
      (List.mem_cons.mp hx).elim (fun he => he ▸ List.mem_cons_self) fun hm =>
        List.mem_cons_of_mem _ (List.mem_append_right _ hm)
    exact same_reduction (h.valueOf setup List.mem_cons_self pos) (same_renameTerms terms hterms) fun a =>
      same_rename body (hbody.bind a)
termination_by structural e => e

theorem same_renameAll : ∀ (es : List Expr) {ρ : String → String} {S S' : Scope}, Renames ρ (namesAll es) S S' →
    Run.Same (evalAll setup apply S es) (evalAll setup apply S' (renameAll ρ es))
  | [], _, _, _, _ => by
    rw [renameAll, evalAll, evalAll]
    exact .refl _
  | e :: es, _, _, _, h => by
    rw [namesAll] at h
    rw [renameAll, evalAll, evalAll]
    exact (same_rename e (h.mono (List.subset_append_left _ _))).bind fun v =>
      (same_renameAll es (h.mono (List.subset_append_right _ _))).bind fun vs => .refl _
termination_by structural es => es

theorem same_renameBranches : ∀ (bs : List Branch) {ρ : String → String} {S S' : Scope},
    Renames ρ (namesBranches bs) S S' →
    Run.Same (evalBranches setup apply S bs) (evalBranches setup apply S' (renameBranches ρ bs))
  | [], _, _, _, _ => by
    rw [renameBranches, evalBranches, evalBranches]
    exact .refl _
  | .mk condition result :: bs, _, _, _, h => by
    rw [namesBranches, Branch.names, List.append_assoc] at h
    rw [renameBranches, Branch.rename, evalBranches, evalBranches]
    have hrest := h.mono (List.subset_append_right _ _)
    refine (same_rename condition (h.mono (List.subset_append_left _ _))).bind fun v => ?_
    split
    · exact (same_rename result (hrest.mono (List.subset_append_left _ _))).bind fun _ => .refl _
    · exact same_renameBranches bs (hrest.mono (List.subset_append_right _ _))
termination_by structural bs => bs

theorem same_renameTerms : ∀ (ts : List Term) {ρ : String → String} {S S' : Scope}, Renames ρ (namesTerms ts) S S' →
    List.Forall₂ Run.Same (evalTerms setup apply S ts) (evalTerms setup apply S' (renameTerms ρ ts))
  | [], _, _, _, _ => by
    rw [renameTerms, evalTerms, evalTerms]
    exact .nil
  | .single value :: ts, _, _, _, h => by
    rw [namesTerms, Term.names] at h
    rw [renameTerms, Term.rename, evalTerms, evalTerms]
    refine .cons ?_ (same_renameTerms ts (h.mono (List.subset_append_right _ _)))
    exact (same_rename value (h.mono (List.subset_append_left _ _))).bind fun _ => .refl _
  | .stepped start step stop :: ts, _, _, _, h => by
    rw [namesTerms, Term.names, List.append_assoc, List.append_assoc] at h
    rw [renameTerms, Term.rename, evalTerms, evalTerms]
    have hrest := h.mono (List.subset_append_right _ _)
    have hlast := hrest.mono (List.subset_append_right _ _)
    refine .cons ?_ (same_renameTerms ts (hlast.mono (List.subset_append_right _ _)))
    exact (same_rename stop (hlast.mono (List.subset_append_left _ _))).bind fun _ =>
      (same_rename step (hrest.mono (List.subset_append_left _ _))).bind fun _ =>
        (same_rename start (h.mono (List.subset_append_left _ _))).bind fun _ => .refl _
termination_by structural ts => ts

end

/-! ## Loop variables -/

theorem renames_loopVar {names : List String} (v : String) {w : String} (hw : w ∉ names) (a : Value) (S : Scope) :
    Renames (update id v w) names ((v, a) :: S) ((w, a) :: S) := by
  have hother : ∀ x, x ≠ v → update id v w x = x := fun x hv => Function.update_of_ne hv ..
  have hlookup : ∀ x ∈ names, List.lookup (update id v w x) ((w, a) :: S) = List.lookup x ((v, a) :: S) := by
    intro x hx
    by_cases hv : x = v
    · subst hv
      rw [Function.update_self, List.lookup_cons_self, List.lookup_cons_self]
    · have hne : x ≠ w := fun he => hw (he ▸ hx)
      rw [hother x hv, List.lookup_cons, List.lookup_cons, beq_false_of_ne hne, beq_false_of_ne hv]
  refine ⟨fun x => ?_, hlookup, fun x hx hnone => ?_⟩
  · by_cases hv : x = v
    · subst hv
      exact .inr (by rwa [Function.update_self])
    · exact .inl (hother x hv)
  · refine hother x ?_
    rintro rfl
    rw [List.lookup_cons_self] at hnone
    cases hnone

mutual

/-- **Loops.** An expression with other loop variables comes to the same. -/
theorem same_alpha : ∀ {e e' : Expr}, e.Alpha e' → ∀ S, Run.Same (e.eval setup apply S) (e'.eval setup apply S)
  | .number _ _, _, h, S => by
    cases h
    exact .refl _
  | .reference pos name is, _, h, S => by
    cases h with
    | reference _ _ hi =>
      exact same_reference rfl (by cases hi <;> rfl) (same_alphaAll hi S)
  | .binary _ o _ _, _, h, S => by
    cases h with
    | binary _ _ ha hb =>
      obtain ⟨f, hf, -⟩ := o.operation
      rw [Expr.eval, Expr.eval, hf]
      exact (same_alpha ha S).bind fun _ => (same_alpha hb S).bind fun _ => .refl _
  | .conditional _ _ _, _, h, S => by
    cases h with
    | conditional _ hbs ha =>
      rw [Expr.eval, Expr.eval]
      refine (same_alphaBranches hbs S).bind fun o => ?_
      cases o with
      | some v => exact .refl _
      | none => exact same_alpha ha S
  | .reduction pos f v (.mk _ ts) a, _, h, S => by
    cases h with
    | reduction _ _ _ hr ha =>
      cases hr with
      | mk _ hts => exact same_reduction rfl (same_alphaTerms hts S) fun x => same_alpha ha _
    | renamed _ _ _ w hr ha hw =>
      cases hr with
      | mk _ hts =>
        refine same_reduction rfl (same_alphaTerms hts S) fun x => ?_
        -- the loops inside the body first, then the variable of this one
        exact (same_alpha ha _).trans (same_rename setup apply _ (renames_loopVar v hw x S))
termination_by structural e => e

theorem same_alphaAll : ∀ {es es' : List Expr}, List.Forall₂ Expr.Alpha es es' → ∀ S,
    Run.Same (evalAll setup apply S es) (evalAll setup apply S es')
  | [], _, h, S => by
    cases h
    exact .refl _
  | e :: es, _, h, S => by
    cases h with
    | cons he hes =>
      rw [evalAll, evalAll]
      exact (same_alpha he S).bind fun _ => (same_alphaAll hes S).bind fun _ => .refl _
termination_by structural es => es

theorem same_alphaBranches : ∀ {bs bs' : List Branch}, List.Forall₂ Branch.Alpha bs bs' → ∀ S,
    Run.Same (evalBranches setup apply S bs) (evalBranches setup apply S bs')
  | [], _, h, S => by
    cases h
    exact .refl _
  | .mk condition result :: bs, _, h, S => by
    cases h with
    | cons hb hbs =>
      cases hb with
      | mk hc hr =>
        rw [evalBranches, evalBranches]
        refine (same_alpha hc S).bind fun v => ?_
        split
        · exact (same_alpha hr S).bind fun _ => .refl _
        · exact same_alphaBranches hbs S
termination_by structural bs => bs

theorem same_alphaTerms : ∀ {ts ts' : List Term}, List.Forall₂ Term.Alpha ts ts' → ∀ S,
    List.Forall₂ Run.Same (evalTerms setup apply S ts) (evalTerms setup apply S ts')
  | [], _, h, S => by
    cases h
    rw [evalTerms]
    exact .nil
  | .single value :: ts, _, h, S => by
    cases h with
    | cons ht hts =>
      cases ht with
      | single hv =>
        rw [evalTerms, evalTerms]
        exact .cons ((same_alpha hv S).bind fun _ => .refl _) (same_alphaTerms hts S)
  | .stepped start step stop :: ts, _, h, S => by
    cases h with
    | cons ht hts =>
      cases ht with
      | stepped ha hb hc =>
        rw [evalTerms, evalTerms]
        refine .cons ?_ (same_alphaTerms hts S)
        exact (same_alpha hc S).bind fun _ => (same_alpha hb S).bind fun _ => (same_alpha ha S).bind fun _ => .refl _
termination_by structural ts => ts

end

end

/-! ## Parameters -/

section
variable {f : UserFunction} {σ : String → String} (hσ : Set.InjOn σ {p | p ∈ f.params})
  (hfresh : ∀ p ∈ f.params, σ p = p ∨ σ p ∉ f.body.names)
include hσ

/-- A parameter is found under its new name, whichever of the parameters with that name counts. -/
theorem lookup_scope_rename (args : List Value) {x : String} (hx : x ∈ f.params) :
    ((f.rename σ).scope args).lookup (σ x) = (f.scope args).lookup x := by
  have hmap : ∀ l : Scope, (∀ e ∈ l, e.1 ∈ f.params) →
      List.lookup (σ x) (l.map fun e => (σ e.1, e.2)) = List.lookup x l := by
    intro l
    induction l with
    | nil => exact fun _ => rfl
    | cons e l ih =>
      intro hl
      obtain ⟨he, hl⟩ := List.forall_mem_cons.mp hl
      rw [List.map_cons, List.lookup_cons, List.lookup_cons, ih hl]
      have hbeq : (σ x == σ e.1) = (x == e.1) := by
        rw [Bool.eq_iff_iff, beq_iff_eq, beq_iff_eq]
        exact ⟨fun h => hσ hx he h, fun h => h ▸ rfl⟩
      rw [hbeq]
  have hscope : (f.rename σ).scope args = (f.scope args).map fun e => (σ e.1, e.2) := by
    rw [UserFunction.scope, UserFunction.scope, UserFunction.rename, List.map_reverse, List.zip_map_left]
    rfl
  rw [hscope]
  refine hmap _ fun e he => ?_
  exact (List.of_mem_zip (List.mem_reverse.mp he)).1

include hfresh

theorem renames_params {args : List Value} (hlength : args.length = f.params.length) :
    Renames (fun x => if x ∈ f.params then σ x else x) f.body.names (f.scope args) ((f.rename σ).scope args) := by
  have hkeys : ∀ (g : UserFunction), ∀ e ∈ g.scope args, e.1 ∈ g.params := fun g e he =>
    (List.of_mem_zip (List.mem_reverse.mp he)).1
  have habsent : ∀ x, x ∉ f.params → (f.scope args).lookup x = none := fun x hx =>
    List.lookup_eq_none_iff.mpr fun e he => bne_iff_ne.mpr fun h => hx (h ▸ hkeys f e he)
  have hbound : ∀ x ∈ f.params, (f.scope args).lookup x ≠ none := by
    intro x hx hnone
    obtain ⟨e, he, rfl⟩ := List.mem_map.mp ((List.map_fst_zip hlength.ge).symm ▸ hx : x ∈ (f.params.zip args).map Prod.fst)
    exact bne_iff_ne.mp (List.lookup_eq_none_iff.mp hnone e (List.mem_reverse.mpr he)) rfl
  refine ⟨fun x => ?_, fun x hx => ?_, fun x hx hnone => ?_⟩
  · split
    · next hp => exact hfresh x hp
    · exact .inl rfl
  · split
    · next hp => exact lookup_scope_rename hσ args hp
    · next hp =>
      -- what is not a parameter has not become one
      refine (List.lookup_eq_none_iff.mpr fun e he => bne_iff_ne.mpr ?_).trans (habsent x hp).symm
      rintro rfl
      obtain ⟨p, hparam, hpe⟩ := List.mem_map.mp (hkeys (f.rename σ) e he)
      rcases hfresh p hparam with hkept | hnew
      · exact hp (hpe ▸ hkept.symm ▸ hparam)
      · exact hnew (hpe ▸ hx)
  · exact if_neg fun hp => hbound x hp hnone

end

/-! ## Bound names -/

/-- **Hygiene.** With other names for loop variables an expression has the same value in the same state, or fails in
the same class; so does the call of a function with other names for its parameters. -/
theorem eval_hygienic (setup : Setup ω) (depth : Nat) :
    (∀ e e' : Expr, e.Alpha e' → ∀ scope,
      Run.Same (e.eval setup (applyAt setup depth) scope) (e'.eval setup (applyAt setup depth) scope)) ∧
    ∀ (f : UserFunction) (σ : String → String), Set.InjOn σ {p | p ∈ f.params} →
      (∀ p ∈ f.params, σ p = p ∨ σ p ∉ f.body.names) → ∀ serial args pos,
      Run.Same (applyAt setup depth (.user serial f) args pos) (applyAt setup depth (.user serial (f.rename σ)) args pos) := by
  refine ⟨fun e e' h scope => same_alpha setup _ h scope, fun f σ hσ hfresh serial args pos => ?_⟩
  have hcount : (f.rename σ).params.length = f.params.length := List.length_map ..
  cases depth with
  | zero =>
    rw [applyAt, applyAt, hcount]
    exact .refl _
  | succ depth =>
    rw [applyAt, applyAt, hcount]
    split
    · exact .refl _
    · next hargs => exact same_rename setup _ f.body (renames_params hσ hfresh (not_not.mp hargs))

def nestedSum (v : String) : Expr :=
  .reduction nowhere "sum" v (.mk nowhere [.stepped (.number nowhere 1) (.number nowhere 1) (.number nowhere 4)])
    (.binary nowhere .mul (.reference nowhere v [])
      (.reduction nowhere "sum" "i" (.mk nowhere [.single (.number nowhere 2)]) (.reference nowhere "i" [])))

def differenceOf (x y : String) : UserFunction :=
  ⟨"d", [x, y], .binary nowhere .sub (.reference nowhere x []) (.reference nowhere y [])⟩

/-- The variable of the outer loop is renamed though the inner one hides it, and so are two parameters. -/
theorem eval_hygienic_hidden : (nestedSum "i").Alpha (nestedSum "j") ∧
    Run.Same ((nestedSum "i").eval Setup.plain (applyAt Setup.plain 500) [])
      ((nestedSum "j").eval Setup.plain (applyAt Setup.plain 500) []) ∧
    Run.Same (applyAt Setup.plain 500 (.user 0 (differenceOf "x" "y")) [.number 3, .number 2] nowhere)
      (applyAt Setup.plain 500 (.user 0 (differenceOf "a" "b")) [.number 3, .number 2] nowhere) := by
  have halpha : (nestedSum "i").Alpha (nestedSum "j") := by
    have h := Expr.Alpha.renamed nowhere "sum" "i" "j" (Range.Alpha.refl _) (Expr.Alpha.refl
      (.binary nowhere .mul (.reference nowhere "i" [])
        (.reduction nowhere "sum" "i" (.mk nowhere [.single (.number nowhere 2)]) (.reference nowhere "i" []))))
      (by decide +kernel) (r := .mk nowhere [.stepped (.number nowhere 1) (.number nowhere 1) (.number nowhere 4)])
    simpa [nestedSum, Expr.rename, renameAll, Range.rename, renameTerms, Term.rename] using h
  refine ⟨halpha, (eval_hygienic Setup.plain 500).1 _ _ halpha [], ?_⟩
  let σ : String → String := update (update id "x" "a") "y" "b"
  have hrename : (differenceOf "x" "y").rename σ = differenceOf "a" "b" := by
    simp [differenceOf, UserFunction.rename, Expr.rename, renameAll, σ, update]
  have hparams : ∀ p ∈ (differenceOf "x" "y").params, p = "x" ∨ p = "y" := by simp [differenceOf]
  rw [← hrename]
  refine (eval_hygienic Setup.plain 500).2 _ σ (fun p hp q hq h => ?_) (fun p hp => ?_) 0 _ nowhere
  · rcases hparams p hp with rfl | rfl <;> rcases hparams q hq with rfl | rfl <;> first | rfl | simp [σ, update] at h
  · rcases hparams p hp with rfl | rfl <;> exact .inr (by decide +kernel)

end JossLang
