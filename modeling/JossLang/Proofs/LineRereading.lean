import JossLang.Proofs.Rereading

/-!
# Reading canonical lines

A verb ends before a guard or the period of its command, so that its last
expression, item or term is told from what stands behind it (`Ends`).

Step and part numbers are written as they are spelled, and such a spelling names
the same step or part (`NamesItself`).
-/

namespace JossLang

def Ends (l : Lexeme) : Prop := l = .period ∨ l = .keyword .guard

theorem Ends.kind {l : Lexeme} (h : Ends l) : l.kind ≠ .operator ∧ l.kind ≠ .opening := by
  rcases h with rfl | rfl <;> decide

theorem Ends.ne {l m : Lexeme} (h : Ends l) (hp : m ≠ .period) (hg : m ≠ .keyword .guard) : l ≠ m := by
  rcases h with rfl | rfl
  · exact hp.symm
  · exact hg.symm

def Goal.NamesItself : Goal → Prop
  | .part p => partOf p = .ok p
  | .step n => StepNumber.ofLiteral n.spelling = .ok n

def Command.NamesItself (c : Command) : Prop :=
  ∀ pos goal loop, c.verb = .perform pos goal loop → goal.NamesItself

def Line.NamesItself : Line → Prop
  | .direct c => c.NamesItself
  | .stored _ n c => StepNumber.ofLiteral n.spelling = .ok n ∧ c.NamesItself

/-! ## Whole expressions -/

/-- The bound on nesting exceeds what the lexemes that are left can need. -/
theorem reads_nesting {α : Type} {f : Nat → Reader α} {P : α → Prop} {ls k : List Lexeme}
    (h : ∀ n, 8 * ls.length + 16 ≤ n → Reads (f n) ls P k) : Reads (do f (nestingBound (← get))) ls P k := by
  intro s hs
  refine h (nestingBound s) ?_ s hs
  rw [← hs, Stream.lexemes, List.length_map, nestingBound]
  omega

theorem Expr.Writes.head {e : Expr} {ls : List Lexeme} (h : e.Writes ls) :
    ∃ l ls', ls = l :: ls' ∧ (l.kind = .number ∨ l.kind = .name ∨ l.kind = .opening) := by
  cases e with
  | number => obtain ⟨s, -, rfl⟩ := h; exact ⟨_, _, rfl, .inl rfl⟩
  | reference pos name indices =>
    cases indices with
    | nil => exact ⟨_, _, h, .inr (.inl rfl)⟩
    | cons i is => obtain ⟨_, _, -, -, rfl⟩ := h; exact ⟨_, _, rfl, .inr (.inl rfl)⟩
  | binary => obtain ⟨_, _, -, -, rfl⟩ := h; exact ⟨_, _, rfl, .inr (.inr rfl)⟩
  | conditional => obtain ⟨-, _, _, -, -, rfl⟩ := h; exact ⟨_, _, rfl, .inr (.inr rfl)⟩
  | reduction => obtain ⟨_, _, -, -, rfl⟩ := h; exact ⟨_, _, rfl, .inr (.inl rfl)⟩

variable (src : Source)

section
variable {e : Expr} {ls : List Lexeme} (hw : e.Writes ls) {l : Lexeme} (k : List Lexeme)
include hw

theorem reads_whole (hl : l.kind ≠ .operator ∧ l.kind ≠ .opening) :
    Reads (readWhole src) (ls ++ l :: k) (·.bare = e.bare) (l :: k) :=
  reads_nesting fun _ hn => (faithful src e).expr hw k hl.1 hl.2 (by simp at hn; omega)

theorem reads_whole_boxed (hl : l.kind ≠ .operator) :
    Reads (readWhole src) (boxed ls ++ l :: k) (·.bare = e.bare) (l :: k) :=
  reads_nesting fun _ hn => (faithful src e).boxed_expr hw k hl (by simp at hn; omega)

end

/-! ## Items -/

theorem reads_item {i : Item} {ls : List Lexeme} (hw : i.Writes ls) {l : Lexeme} (k : List Lexeme)
    (hl : l.kind ≠ .operator ∧ l.kind ≠ .opening) :
    Reads (readItem src) (ls ++ l :: k) (·.bare = i.bare) (l :: k) := by
  cases i with
  | quoted pos text =>
    subst hw
    rw [List.singleton_append, readItem]
    refine (reads_peek _ _).bind fun t ht => ?_
    rw [ht]
    exact (reads_next _ _).discard.bind fun _ _ => reads_pure rfl
  | numeric pos value =>
    obtain ⟨l', ls', rfl, hk⟩ := Expr.Writes.head hw
    have hwhole : ∀ p, Reads (do return Item.numeric p (← readWhole src)) (l' :: ls' ++ l :: k)
        (·.bare = (Item.numeric pos value).bare) (l :: k) := fun p =>
      (reads_whole src hw k hl).bind fun a ha => reads_pure (by rw [Item.bare, Item.bare, ha])
    rw [readItem]
    refine (reads_peek _ _).bind fun t ht => ?_
    rw [ht]
    cases l' with
    | number | name | opening => exact hwhole _
    | _ => simp [Lexeme.kind] at hk

theorem behind_item {is : List Item} {lr : List Lexeme} (hlr : writesItems is lr) {l : Lexeme} (hl : Ends l)
    (k : List Lexeme) : ∃ l' k', lr ++ l :: k = l' :: k' ∧ l'.kind ≠ .operator ∧ l'.kind ≠ .opening := by
  cases is with
  | nil => subst hlr; exact ⟨l, k, rfl, hl.kind⟩
  | cons t ts => obtain ⟨_, _, -, -, rfl⟩ := hlr; exact ⟨_, _, rfl, by decide, by decide⟩

theorem reads_items {l : Lexeme} (hl : Ends l) (k : List Lexeme) : ∀ {is : List Item} {lr : List Lexeme},
    writesItems is lr → ∀ {i : Item} {li : List Lexeme}, i.Writes li → ∀ (acc : List Item) (n : Nat),
      8 * lr.length + 1 ≤ n → Reads (readItems src n acc) (li ++ (lr ++ l :: k))
        (·.map Item.bare = acc.reverse.map Item.bare ++ i.bare :: is.map Item.bare) (l :: k)
  | is, lr, hlr, i, li, hi, acc, n, hn => by
    obtain ⟨m, rfl⟩ := Nat.exists_eq_add_of_le' (show 1 ≤ n by omega)
    obtain ⟨l', k', hk, hl'⟩ := behind_item hlr hl k
    rw [hk, readItems]
    refine (reads_item src hi k' hl').bind fun a ha => ?_
    rw [← hk]
    cases is with
    | nil =>
      subst hlr
      refine (reads_accept_of_ne _ _ (hl.ne (by simp) (by simp))).bind fun c hc => ?_
      subst hc
      exact reads_pure (by simp [ha])
    | cons j js =>
      obtain ⟨lj, lr', hj, hlr', rfl⟩ := hlr
      rw [List.cons_append, List.append_assoc]
      refine (reads_accept _ _).bind fun c hc => ?_
      subst hc
      have := reads_items hl k hlr' hj (a :: acc) m (by simp at hn; omega)
      simpa [ha] using this

/-! ## Targets and parameters -/

theorem reads_target {t : Target} {ls : List Lexeme} (hw : (Expr.reference t.pos t.name t.indices).Writes ls)
    {l : Lexeme} (hl : l.kind ≠ .opening) (k : List Lexeme) :
    Reads (readTarget src) (ls ++ l :: k) (·.bare = t.bare) (l :: k) := by
  obtain ⟨l', k', hk⟩ : ∃ l' k', ls ++ l :: k = l' :: k' := by
    obtain ⟨l', ls', rfl, -⟩ := Expr.Writes.head hw
    exact ⟨l', _, rfl⟩
  rw [hk, readTarget]
  refine (reads_peek _ _).bind fun t' _ => ?_
  rw [← hk]
  refine reads_nesting (f := fun n => readReference src n >>= _) fun n hn => ?_
  refine (reads_reference src t.pos t.name (faithful_all src t.indices) hw l k n hl ?_).bind fun e he => ?_
  · simp only [List.length_append, List.length_cons] at hn
    omega
  cases e with
  | reference pos name indices =>
    rw [Expr.bare, Expr.bare] at he
    injection he with _ hname hindices
    exact reads_pure (by rw [Target.bare, Target.bare, hname, hindices])
  | _ => cases he

theorem reads_params (k : List Lexeme) : ∀ (ps : List String) (p : String) (acc : List String) (n : Nat),
    ps.length + 1 ≤ n → Reads (readParams n acc)
      (.name p :: ((ps.flatMap fun q => [.comma, .name q]) ++ .closing .round :: k)) (· = acc.reverse ++ p :: ps)
      (.closing .round :: k)
  | ps, p, acc, n, hn => by
    obtain ⟨m, rfl⟩ := Nat.exists_eq_add_of_le' (show 1 ≤ n by omega)
    rw [readParams]
    refine (reads_expectName _ _ _).bind fun ⟨s, t⟩ hs => ?_
    subst hs
    cases ps with
    | nil =>
      refine (reads_accept_of_ne _ _ (by simp)).bind fun c hc => ?_
      subst hc
      exact reads_pure (by simp)
    | cons q qs =>
      rw [List.flatMap_cons, List.cons_append, List.cons_append]
      refine (reads_accept _ _).bind fun c hc => ?_
      subst hc
      have := reads_params k qs q (s :: acc) m (by simp at hn; omega)
      simpa using this

theorem reads_definition (pos pos' : Location) (name : String) (params : List String) {body : Expr} {lb : List Lexeme}
    (hw : body.Writes lb) {l : Lexeme} (hl : Ends l) (k : List Lexeme) :
    Reads (readDefinition src pos') (.name name :: (paramLexemes params ++ .operator .eq :: (lb ++ l :: k)))
      (·.bare = (Verb.define pos name params body).bare) (l :: k) := by
  rw [readDefinition]
  refine (reads_expectName _ _ _).bind fun ⟨s, t⟩ hs => ?_
  subst hs
  have hbody : Reads (do discard (Reader.expect .afterDefined (.operator .eq))
                         return Verb.define pos' s params (← readWhole src))
      (.operator .eq :: (lb ++ l :: k)) (·.bare = (Verb.define pos s params body).bare) (l :: k) :=
    (reads_expect _ _ _).discard.bind fun _ _ => (reads_whole src hw k hl.kind).bind fun b hb =>
      reads_pure (by rw [Verb.bare, Verb.bare, hb])
  cases params with
  | nil =>
    refine (reads_peek _ _).bind fun t' ht => ?_
    rw [ht]
    exact hbody
  | cons p ps =>
    rw [paramLexemes, boxed, List.cons_append, List.cons_append, List.cons_append, List.append_assoc]
    refine (reads_peek _ _).bind fun t' ht => ?_
    rw [ht]
    refine (reads_next _ _).discard.bind fun _ _ => ?_
    refine reads_nesting (f := fun n => readParams n [] >>= _) fun n hn => ?_
    refine (reads_params _ ps p [] n ?_).bind fun ps' hps => ?_
    · simp [List.length_flatMap] at hn
      omega
    subst hps
    exact (reads_expect _ _ _).discard.bind fun _ _ => hbody

/-! ## Loops -/

theorem reads_terms {l : Lexeme} (hl : Ends l) (k : List Lexeme) : ∀ {ts : List Term} {lr : List Lexeme},
    writesTerms ts lr → ∀ {t : Term} {lt : List Lexeme}, t.Writes lt → ∀ (acc : List Term) (n : Nat),
      8 * lr.length + 1 ≤ n → Reads (readTerms src n acc) (lt ++ (lr ++ l :: k))
        (·.map Term.bare = acc.reverse.map Term.bare ++ t.bare :: ts.map Term.bare) (l :: k)
  | ts, lr, hlr, t, lt, ht, acc, n, hn => by
    obtain ⟨m, rfl⟩ := Nat.exists_eq_add_of_le' (show 1 ≤ n by omega)
    obtain ⟨l', k', hk, hl'⟩ := behind_term hlr hl.kind k
    obtain ⟨la, rest, ha, hrest, rfl⟩ := ht.parts
    obtain ⟨l'', k'', hk', hl''⟩ := behind_start hrest hl'.1 k'
    have hft : FaithfulTerm src t := faithful_terms src [t] t List.mem_cons_self
    rw [List.append_assoc, hk, hk', readTerms]
    refine reads_nesting (f := fun n => readWhole src >>= fun e => readTerm src n e >>= _) fun d hd => ?_
    refine (reads_whole_boxed src ha k'' hl'').bind fun e he => ?_
    rw [← hk']
    refine (reads_term src hft hrest he hl' k' ?_).bind fun t' ht' => ?_
    · rw [← hk'] at hd
      simp only [List.length_append, List.length_cons] at hd
      omega
    rw [← hk]
    cases ts with
    | nil =>
      subst hlr
      refine (reads_accept_of_ne _ _ (hl.ne (by simp) (by simp))).bind fun c hc => ?_
      subst hc
      exact reads_pure (by simp [ht'])
    | cons u us =>
      obtain ⟨lu, lr', hu, hlr', rfl⟩ := hlr
      rw [List.cons_append, List.append_assoc]
      refine (reads_accept _ _).bind fun c hc => ?_
      subst hc
      have := reads_terms hl k hlr' hu (t' :: acc) m (by simp at hn; omega)
      simpa [ht'] using this

theorem Term.Writes.ne_nil {t : Term} {ls : List Lexeme} (h : t.Writes ls) : ls ≠ [] := by
  obtain ⟨la, rest, -, -, rfl⟩ := h.parts
  simp [boxed]

theorem reads_range {r : Range} {lr : List Lexeme} (hw : r.Writes lr) {l : Lexeme} (hl : Ends l) (k : List Lexeme) :
    Reads (readRange src) (lr ++ l :: k) (·.bare = r.bare) (l :: k) := by
  obtain ⟨pos, terms⟩ := r
  cases terms with
  | nil => exact hw.elim
  | cons t ts =>
    obtain ⟨lt, lr', ht, hlr', rfl⟩ := hw
    obtain ⟨l', k', hk⟩ := List.exists_cons_of_ne_nil ht.ne_nil
    rw [hk, List.append_assoc, List.cons_append, readRange]
    refine (reads_peek _ _).bind fun t' _ => ?_
    rw [← List.cons_append, ← hk]
    refine reads_nesting (f := fun n => readTerms src n [] >>= _) fun n hn => ?_
    refine (reads_terms src hl k hlr' ht [] n ?_).bind fun ts' hts' => ?_
    · simp only [List.length_append, List.length_cons] at hn
      omega
    refine (reads_peek _ _).bind fun t'' ht'' => ?_
    rw [if_pos (ht'' ▸ hl)]
    exact reads_pure (by simpa [Range.bare, bareTerms_eq] using hts')

theorem reads_liftNumber {α : Type} (s : String) (a : α) (ls : List Lexeme) :
    Reads (liftNumber s (.ok a)) ls (· = a) ls := reads_pure rfl

theorem reads_goal_part {literal part : String} (h : partOf literal = .ok part) (k : List Lexeme) :
    Reads readGoal (.keyword .part :: .number literal :: k) (· = .part part) k := by
  rw [readGoal]
  refine (reads_next _ _).bind fun t ht => ?_
  rw [ht]
  refine (reads_expectNumber _ _ _).bind fun s hs => ?_
  subst hs
  rw [h]
  exact (reads_liftNumber _ _ _).bind fun p hp => reads_pure (congrArg _ hp)

theorem reads_goal_step {literal : String} {n : StepNumber} (h : StepNumber.ofLiteral literal = .ok n) (k : List Lexeme) :
    Reads readGoal (.keyword .step :: .number literal :: k) (· = .step n) k := by
  rw [readGoal]
  refine (reads_next _ _).bind fun t ht => ?_
  rw [ht]
  refine (reads_expectNumber _ _ _).bind fun s hs => ?_
  subst hs
  rw [h]
  exact (reads_liftNumber _ _ _).bind fun m hm => reads_pure (congrArg _ hm)

theorem reads_goal {goal : Goal} (hg : goal.NamesItself) (k : List Lexeme) :
    Reads readGoal (goal.lexemes ++ k) (· = goal) k := by
  cases goal with
  | part p => exact reads_goal_part hg k
  | step number => exact reads_goal_step hg k

theorem reads_loop {loop : Loop} {ll : List Lexeme} (hw : loop.Writes ll) {l : Lexeme} (hl : Ends l)
    (k : List Lexeme) : Reads (readLoop src) (ll ++ l :: k) (·.bare = loop.bare) (l :: k) := by
  rw [readLoop]
  cases loop with
  | once =>
    subst hw
    refine (reads_accept_of_ne _ _ (hl.ne (by simp) (by simp))).bind fun c hc => ?_
    subst hc
    refine (reads_accept_of_ne _ _ (hl.ne (by simp) (by simp))).bind fun c hc => ?_
    subst hc
    exact reads_pure rfl
  | times count =>
    obtain ⟨lc, hc, rfl⟩ := hw
    rw [List.cons_append, List.append_assoc, List.singleton_append]
    refine (reads_accept_of_ne _ _ (by simp)).bind fun c hc => ?_
    subst hc
    refine (reads_accept _ _).bind fun c hc => ?_
    subst hc
    refine (reads_whole src hc _ (by decide)).bind fun e he => ?_
    exact (reads_expect _ _ _).discard.bind fun _ _ => reads_pure (by rw [Loop.bare, Loop.bare, he])
  | each loopVar range =>
    obtain ⟨lr, hr, rfl⟩ := hw
    rw [List.cons_append, List.cons_append, List.cons_append]
    refine (reads_accept _ _).bind fun c hc => ?_
    subst hc
    refine (reads_expectName _ _ _).bind fun ⟨s, t⟩ hs => ?_
    subst hs
    refine (reads_expect _ _ _).discard.bind fun _ _ => ?_
    exact (reads_range src hr hl k).bind fun r hr => reads_pure (by rw [Loop.bare, Loop.bare, hr])

/-! ## Commands -/

theorem reads_verb {v : Verb} {lv : List Lexeme} (hw : v.Writes lv)
    (hv : ∀ pos goal loop, v = .perform pos goal loop → goal.NamesItself) {l : Lexeme} (hl : Ends l)
    (k : List Lexeme) : ∃ kw rest, lv = .keyword kw :: rest ∧ ∀ t : Token, t.lexeme = .keyword kw →
      Reads (readVerb src t) (rest ++ l :: k) (·.bare = v.bare) (l :: k) := by
  cases v with
  | blank => exact hw.elim
  | type pos items =>
    cases items with
    | nil => exact hw.elim
    | cons i is =>
      obtain ⟨li, lr, hi, hlr, rfl⟩ := hw
      refine ⟨_, _, rfl, fun t ht => ?_⟩
      rw [readVerb, ht, List.append_assoc]
      refine reads_nesting (f := fun n => readItems src n [] >>= _) fun n hn => ?_
      refine (reads_items src hl k hlr hi [] n ?_).bind fun is' his => ?_
      · simp only [List.length_append, List.length_cons] at hn
        omega
      exact reads_pure (by simpa [Verb.bare] using his)
  | set pos target value =>
    obtain ⟨lt, lv, ht, hv, rfl⟩ := hw
    refine ⟨_, _, rfl, fun t htl => ?_⟩
    rw [readVerb, htl, List.append_assoc, List.cons_append]
    refine (reads_target src ht (by decide) _).bind fun target' htarget => ?_
    refine (reads_expect _ _ _).discard.bind fun _ _ => ?_
    exact (reads_whole src hv k hl.kind).bind fun e he => reads_pure (by rw [Verb.bare, Verb.bare, htarget, he])
  | define pos name params body =>
    obtain ⟨lb, hb, rfl⟩ := hw
    refine ⟨_, _, rfl, fun t ht => ?_⟩
    rw [readVerb, ht, List.cons_append, List.append_assoc, List.cons_append]
    exact reads_definition src pos (src.at t) name params hb hl k
  | perform pos goal loop =>
    obtain ⟨ll, hll, rfl⟩ := hw
    refine ⟨_, _, rfl, fun t ht => ?_⟩
    rw [readVerb, ht, List.append_assoc]
    refine (reads_goal (hv pos goal loop rfl) _).bind fun g hg => ?_
    subst hg
    exact (reads_loop src hll hl k).bind fun a ha => reads_pure (by rw [Verb.bare, Verb.bare, ha])

theorem reads_command {c : Command} (hc : c.NamesItself) {ls : List Lexeme} (hw : c.Writes ls) :
    ∃ lc, ls = lc ++ [.period] ∧ (∃ kw rest, lc = .keyword kw :: rest) ∧
      Reads (readCommand src) (lc ++ [.period]) (·.bare = c.bare) [.period] := by
  obtain ⟨pos, v, guard⟩ := c
  obtain ⟨lv, lg, hv, hg, rfl⟩ := hw
  refine ⟨lv ++ lg, (List.append_assoc _ _ _).symm, ?_⟩
  -- the verb ends at the guard, or at the period when there is none
  have hbehind : ∃ l k, lg ++ [.period] = l :: k ∧ Ends l := by
    cases guard with
    | none => subst hg; exact ⟨_, _, rfl, .inl rfl⟩
    | some e => obtain ⟨_, -, rfl | rfl⟩ := hg <;> exact ⟨_, _, rfl, .inr rfl⟩
  obtain ⟨l, k, hk, hl⟩ := hbehind
  obtain ⟨kw, rest, rfl, hverb⟩ := reads_verb src hv hc hl k
  refine ⟨⟨kw, _, rfl⟩, ?_⟩
  rw [List.append_assoc, List.cons_append, hk, readCommand]
  refine (reads_next _ _).bind fun t ht => (hverb t ht).bind fun v' hv' => ?_
  rw [← hk]
  cases guard with
  | none =>
    subst hg
    refine (reads_accept_of_ne _ _ (by simp)).bind fun c hc => ?_
    subst hc
    exact reads_pure (congrArg (Command.mk nowhere · none) hv')
  | some e =>
    obtain ⟨le, he, hlg⟩ := hg
    have hguard : Reads (do return (⟨src.at t, v', some (← readWhole src)⟩ : Command)) (lg.tail ++ [.period])
        (·.bare = (Command.mk pos v (some e)).bare) [.period] := by
      have hread : Reads (readWhole src) (lg.tail ++ [.period]) (·.bare = e.bare) [.period] := by
        rcases hlg with rfl | rfl
        · exact reads_whole src he [] (by decide)
        · exact reads_whole_boxed src he [] (by decide)
      exact hread.bind fun e' he' => reads_pure (congrArg₂ (fun v e => Command.mk nowhere v (some e)) hv' he')
    rcases hlg with rfl | rfl <;>
    · refine (reads_accept _ _).bind fun c hc => ?_
      subst hc
      exact hguard

theorem reads_line {u : Line} (hu : u.NamesItself) {ls : List Lexeme} (hw : u.Writes ls) (hne : ls ≠ []) :
    Reads (readLine src) ls (·.bare = u.bare) [] := by
  have hperiod : ∀ {u' : Line}, u'.bare = u.bare → Reads (do
      discard (Reader.expectKind .endOfCommand .period)
      return u') [.period] (·.bare = u.bare) [] := fun h =>
    (reads_expectKind .period _ _).discard.bind fun _ _ => reads_pure h
  cases u with
  | direct c =>
    have hc : c.Writes ls := by
      unfold Line.Writes at hw
      split at hw
      · exact absurd hw hne
      · next h => cases h; exact hw
      · next h => cases h
    obtain ⟨lc, rfl, ⟨kw, rest, rfl⟩, hread⟩ := reads_command src hu hc
    rw [readLine]
    refine (reads_peek _ _).bind fun t ht => ?_
    rw [ht]
    exact hread.bind fun c' hc' => hperiod (by rw [Line.bare, Line.bare, hc'])
  | stored pos number c =>
    obtain ⟨lc, hc, rfl⟩ := hw
    obtain ⟨lc', rfl, -, hread⟩ := reads_command src hu.2 hc
    rw [readLine]
    refine (reads_peek _ _).bind fun t ht => ?_
    rw [ht]
    refine (reads_next _ _).discard.bind fun _ _ => ?_
    rw [hu.1]
    refine (reads_liftNumber _ _ _).bind fun n hn => ?_
    subst hn
    exact hread.bind fun c' hc' => hperiod (by rw [Line.bare, Line.bare, hc'])

end JossLang
