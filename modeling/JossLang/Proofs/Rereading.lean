import JossLang.Proofs.Canonical
import JossLang.Proofs.Readers

/-!
# Reading canonical forms

Reading the lexemes of a canonical form gives the tree they were written for,
whatever stands behind them: `faithful` for expressions, `reads_line` for lines.

In a canonical form every operand of an operator is one that `readOperand` takes
as a whole, so that precedences never count.
-/

namespace JossLang

variable (src : Source)

section
variable {P : Expr → Prop} {l : Lexeme} {ls k : List Lexeme} {n : Nat}

/-! ## Ends of expressions -/

theorem reads_operators_end (hl : l.kind ≠ .operator) (e : Expr) (least : Nat) :
    Reads (readOperators src (n + 1) e least) (l :: k) (· = e) (l :: k) := by
  rw [readOperators]
  refine (reads_nextPrecedence_none l k hl).bind fun p hp => ?_
  subst hp
  exact reads_pure rfl

theorem reads_tighter_end (hl : l.kind ≠ .operator) (e : Expr) (than : Nat) :
    Reads (readTighter src (n + 1) e than) (l :: k) (· = e) (l :: k) := by
  rw [readTighter]
  refine (reads_nextPrecedence_none l k hl).bind fun p hp => ?_
  subst hp
  exact reads_pure rfl

theorem reads_expr (h : Reads (readOperand src (n + 1)) ls P (l :: k)) (hl : l.kind ≠ .operator) :
    Reads (readExpr src (n + 2)) ls P (l :: k) := by
  rw [readExpr]
  exact h.bind fun e he => (reads_operators_end src hl e 0).of_eq he

theorem reads_group_end (e : Expr) (pos : Location) (b : Bracket) :
    Reads (readGroup src (n + 1) pos b e []) (.closing b :: k) (· = e) k := by
  rw [readGroup]
  refine (reads_accept_of_ne _ _ (by simp)).bind fun c hc => ?_
  subst hc
  exact (reads_expect _ _ _).discard.bind fun _ _ => reads_pure rfl

theorem reads_opening (h : ∀ pos, Reads (do readGroup src n pos .round (← readExpr src n) []) ls P k) :
    Reads (readOperand src (n + 1)) (.opening .round :: ls) P k := by
  rw [readOperand]
  refine (reads_peek _ _).bind fun t ht => ?_
  rw [ht]
  exact (reads_next _ _).discard.bind fun _ _ => h _

end

/-! ## Operands -/

/-- Every way to write the expression is read as one operand, unless it is taken for a call. -/
def Faithful (e : Expr) : Prop :=
  ∀ ls, e.Writes ls → ∀ l k n, l.kind ≠ .opening → 8 * ls.length ≤ n →
    Reads (readOperand src n) (ls ++ l :: k) (·.bare = e.bare) (l :: k)

section
variable {src} {e : Expr} (h : Faithful src e) {ls : List Lexeme} (hw : e.Writes ls)
include h hw

theorem Faithful.expr {l : Lexeme} (k : List Lexeme) {n : Nat} (hl : l.kind ≠ .operator) (hl' : l.kind ≠ .opening)
    (hn : 8 * ls.length + 2 ≤ n) : Reads (readExpr src n) (ls ++ l :: k) (·.bare = e.bare) (l :: k) := by
  obtain ⟨m, rfl⟩ := Nat.exists_eq_add_of_le' (show 2 ≤ n by omega)
  exact reads_expr src (h ls hw l k (m + 1) hl' (by omega)) hl

theorem Faithful.boxed_operand (k : List Lexeme) {n : Nat} (hn : 8 * ls.length + 3 ≤ n) :
    Reads (readOperand src n) (boxed ls ++ k) (·.bare = e.bare) k := by
  obtain ⟨m, rfl⟩ := Nat.exists_eq_add_of_le' (show 2 ≤ n by omega)
  rw [boxed, List.cons_append, List.append_assoc, List.singleton_append]
  refine reads_opening src fun pos => ?_
  exact (h.expr hw k (by decide) (by decide) (by omega)).bind fun a ha => (reads_group_end src a pos .round).of_eq ha

theorem Faithful.boxed_expr {l : Lexeme} (k : List Lexeme) {n : Nat} (hl : l.kind ≠ .operator)
    (hn : 8 * ls.length + 4 ≤ n) : Reads (readExpr src n) (boxed ls ++ l :: k) (·.bare = e.bare) (l :: k) := by
  obtain ⟨m, rfl⟩ := Nat.exists_eq_add_of_le' (show 2 ≤ n by omega)
  exact reads_expr src (h.boxed_operand hw (l :: k) (by omega)) hl

end

@[simp] theorem length_boxed (ls : List Lexeme) : (boxed ls).length = ls.length + 2 := by simp [boxed]

theorem faithful_number (pos : Location) (x : Float) : Faithful src (.number pos x) := by
  rintro ls ⟨s, rfl, rfl⟩ l k n hl hn
  obtain ⟨m, rfl⟩ := Nat.exists_eq_add_of_le' (show 1 ≤ n by simp at hn; omega)
  rw [List.singleton_append, readOperand]
  refine (reads_peek _ _).bind fun t ht => ?_
  rw [ht]
  exact (reads_next _ _).discard.bind fun _ _ => reads_pure rfl

theorem faithful_binary (pos : Location) (o : Operator) {lhs rhs : Expr} (hl : Faithful src lhs)
    (hr : Faithful src rhs) : Faithful src (.binary pos o lhs rhs) := by
  rintro ls ⟨ll, lr, hll, hlr, rfl⟩ l k n - hn
  simp only [length_boxed, List.length_append, List.length_cons] at hn
  obtain ⟨m, rfl⟩ := Nat.exists_eq_add_of_le' (show 4 ≤ n by omega)
  simp only [boxed, List.cons_append, List.append_assoc, List.nil_append]
  refine reads_opening src fun pos' => ?_
  have hexpr : Reads (readExpr src (m + 3)) (ll ++ .operator o :: (lr ++ .closing .round :: l :: k))
      (·.bare = (Expr.binary pos o lhs rhs).bare) (.closing .round :: l :: k) := by
    rw [readExpr]
    refine (hl ll hll _ _ _ (by simp [Lexeme.kind]) (by omega)).bind fun a ha => ?_
    rw [readOperators]
    refine (reads_nextPrecedence _ _).bind fun p hp => ?_
    subst hp
    dsimp only
    rw [if_neg (Nat.not_lt_zero _)]
    refine (reads_next _ _).discard.bind fun _ _ => ?_
    refine (hr lr hlr _ _ _ (by decide) (by omega)).bind fun b hb => ?_
    refine (reads_tighter_end src (by decide) b _).bind fun c hc => ?_
    subst hc
    exact (reads_operators_end src (by decide) _ 0).of_eq (by rw [Expr.bare, Expr.bare, ha, hb])
  exact hexpr.bind fun a ha => (reads_group_end src a pos' .round).of_eq ha

/-! ## Groups with conditions -/

def FaithfulBranch : Branch → Prop
  | .mk condition result => Faithful src condition ∧ Faithful src result

theorem reads_branches {o : Expr} (ho : Faithful src o) {lo : List Lexeme} (hwo : o.Writes lo) (pos : Location)
    (k : List Lexeme) {bs : List Branch} (hb : ∀ b ∈ bs, FaithfulBranch src b) :
    ∀ {lb : List Lexeme}, writesBranches bs lb → ∀ (acc : List Branch) (n : Nat), acc ≠ [] ∨ bs ≠ [] →
      8 * (lb.length + lo.length) + 8 ≤ n →
      Reads (do readGroup src n pos .round (← readExpr src n) acc) (lb ++ (boxed lo ++ .closing .round :: k))
        (·.bare = .conditional nowhere (acc.reverse.map Branch.bare ++ bs.map Branch.bare) o.bare) k := by
  induction bs with
  | nil =>
    intro lb hlb acc n hne hn
    subst hlb
    obtain ⟨m, rfl⟩ := Nat.exists_eq_add_of_le' (show 1 ≤ n by omega)
    refine (ho.boxed_expr hwo k (by decide) (by simp at hn; omega)).bind fun e he => ?_
    rw [readGroup]
    refine (reads_accept_of_ne _ _ (by simp)).bind fun c hc => ?_
    subst hc
    refine (reads_expect _ _ _).discard.bind fun _ _ => reads_pure ?_
    have hacc : acc.isEmpty = false := by simpa using hne
    rw [hacc]
    simp [Expr.bare, bareBranches_eq, he]
  | cons b bs ih =>
    intro lb hlb acc n _ hn
    obtain ⟨c, r⟩ := b
    obtain ⟨lc, lr, lb', hlc, hlr, hlb', rfl⟩ := hlb
    obtain ⟨hc, hr⟩ := hb (.mk c r) List.mem_cons_self
    simp only [List.length_append, List.length_cons, length_boxed] at hn
    obtain ⟨m, rfl⟩ := Nat.exists_eq_add_of_le' (show 1 ≤ n by omega)
    simp only [List.append_assoc, List.cons_append]
    refine (hc.boxed_expr hlc _ (by decide) (by omega)).bind fun e he => ?_
    rw [readGroup]
    refine (reads_accept _ _).bind fun t ht => ?_
    subst ht
    refine (hr.boxed_expr hlr _ (by decide) (by omega)).bind fun result hresult => ?_
    refine (reads_expectKind .semicolon _ _).discard.bind fun _ _ => ?_
    have := ih (fun b hm => hb b (List.mem_cons_of_mem _ hm)) hlb' (.mk e result :: acc) m (.inl (by simp)) (by omega)
    simpa [Branch.bare, he, hresult] using this

theorem faithful_conditional (pos : Location) {bs : List Branch} {o : Expr} (hb : ∀ b ∈ bs, FaithfulBranch src b)
    (ho : Faithful src o) : Faithful src (.conditional pos bs o) := by
  rintro ls ⟨hne, lb, lo, hlb, hlo, rfl⟩ l k n - hn
  simp only [length_boxed, List.length_append] at hn
  obtain ⟨m, rfl⟩ := Nat.exists_eq_add_of_le' (show 1 ≤ n by omega)
  rw [boxed]
  simp only [List.cons_append, List.append_assoc, List.nil_append]
  refine reads_opening src fun pos' => ?_
  have := reads_branches src ho hlo pos' (l :: k) hb hlb [] m (.inr hne) (by omega)
  simpa [Expr.bare, bareBranches_eq] using this

/-! ## Names and indices -/

theorem behind_index {is : List Expr} {lr : List Lexeme} (hlr : writesIndices is lr) (k : List Lexeme) :
    ∃ l k', lr ++ .closing .round :: k = l :: k' ∧ l.kind ≠ .operator ∧ l.kind ≠ .opening := by
  cases is with
  | nil => subst hlr; exact ⟨_, _, rfl, by decide, by decide⟩
  | cons i is => obtain ⟨_, _, -, -, rfl⟩ := hlr; exact ⟨_, _, rfl, by decide, by decide⟩

theorem reads_indices {is : List Expr} (hi : ∀ i ∈ is, Faithful src i) (pos : Location) (name : String)
    (k : List Lexeme) : ∀ {lr : List Lexeme}, writesIndices is lr → ∀ (acc : List Expr) (n : Nat),
      8 * lr.length + 8 ≤ n →
      Reads (readIndices src n pos name .round acc) (lr ++ .closing .round :: k)
        (·.bare = .reference nowhere name (acc.reverse.map Expr.bare ++ is.map Expr.bare)) k := by
  induction is with
  | nil =>
    intro lr hlr acc n hn
    subst hlr
    obtain ⟨m, rfl⟩ := Nat.exists_eq_add_of_le' (show 1 ≤ n by omega)
    rw [List.nil_append, readIndices]
    refine (reads_accept_of_ne _ _ (by simp)).bind fun c hc => ?_
    subst hc
    exact (reads_expect _ _ _).discard.bind fun _ _ => reads_pure (by simp [Expr.bare, bareAll_eq])
  | cons i is ih =>
    intro lr hlr acc n hn
    obtain ⟨li, lr', hli, hlr', rfl⟩ := hlr
    simp only [List.length_append, List.length_cons, length_boxed] at hn
    obtain ⟨m, rfl⟩ := Nat.exists_eq_add_of_le' (show 1 ≤ n by omega)
    obtain ⟨l, k', hk, hl, -⟩ := behind_index hlr' k
    rw [List.cons_append, List.append_assoc, hk, readIndices]
    refine (reads_accept _ _).bind fun c hc => ?_
    subst hc
    refine ((hi i List.mem_cons_self).boxed_expr hli k' hl (by omega)).bind fun e he => ?_
    rw [← hk]
    have := ih (fun j hj => hi j (List.mem_cons_of_mem _ hj)) hlr' (e :: acc) m (by omega)
    simpa [he] using this

theorem reads_iterated_indices {is : List Expr} (hi : ∀ i ∈ is, Faithful src i) (pos rangePos : Location)
    (name v : String) (k : List Lexeme) : ∀ {lr : List Lexeme}, writesIndices is lr → ∀ (start : Expr)
      (terms : List Term) (acc : List Expr) (n : Nat), (∀ t ∈ terms, ∃ e, t = .single e) → 8 * lr.length + 8 ≤ n →
      Reads (readIterated src n pos name .round v rangePos start terms acc) (lr ++ .closing .round :: k)
        (·.bare = .reference nowhere name (acc.reverse.map Expr.bare ++ is.map Expr.bare)) k := by
  have hterm : ∀ {m start l} (k' : List Lexeme), l.kind ≠ .opening →
      Reads (readTerm src (m + 1) start) (l :: k') (· = .single start) (l :: k') := by
    intro m start l k' hl
    rw [readTerm]
    refine (reads_peek _ _).bind fun t ht => ?_
    rw [ht]
    cases l with
    | opening => exact absurd rfl hl
    | _ => exact reads_pure rfl
  induction is with
  | nil =>
    intro lr hlr start terms acc n ht hn
    subst hlr
    obtain ⟨m, rfl⟩ := Nat.exists_eq_add_of_le' (show 2 ≤ n by omega)
    rw [List.nil_append, readIterated]
    refine (hterm k (by decide)).bind fun t htm => ?_
    subst htm
    refine (reads_accept_of_ne _ _ (by simp)).bind fun c hc => ?_
    subst hc
    refine (reads_peek _ _).bind fun t htl => ?_
    dsimp only
    rw [htl, if_neg (by simp), if_pos]
    · exact (reads_next _ _).discard.bind fun _ _ => reads_pure (by simp [Expr.bare, bareAll_eq])
    · refine ⟨List.all_eq_true.mpr fun t hm => ?_, rfl⟩
      rcases List.mem_cons.mp hm with rfl | hm
      · rfl
      · obtain ⟨e, rfl⟩ := ht t hm
        rfl
  | cons i is ih =>
    intro lr hlr start terms acc n ht hn
    obtain ⟨li, lr', hli, hlr', rfl⟩ := hlr
    simp only [List.length_append, List.length_cons, length_boxed] at hn
    obtain ⟨m, rfl⟩ := Nat.exists_eq_add_of_le' (show 2 ≤ n by omega)
    obtain ⟨l, k', hk, hl, -⟩ := behind_index hlr' k
    rw [List.cons_append, List.append_assoc, hk, readIterated]
    -- each index is kept as a term too, since only the missing colon tells indices from terms
    refine (hterm _ (by decide)).bind fun t htm => ?_
    subst htm
    refine (reads_accept _ _).bind fun c hc => ?_
    subst hc
    refine ((hi i List.mem_cons_self).boxed_expr hli k' hl (by omega)).bind fun e he => ?_
    rw [← hk]
    have := ih (fun j hj => hi j (List.mem_cons_of_mem _ hj)) hlr' e (.single start :: terms) (e :: acc) (m + 1)
      (fun t hm => (List.mem_cons.mp hm).elim (fun h => ⟨start, h⟩) (ht t)) (by omega)
    simpa [he] using this

theorem reads_reference (pos : Location) (name : String) {indices : List Expr} (hi : ∀ i ∈ indices, Faithful src i)
    {ls : List Lexeme} (hw : (Expr.reference pos name indices).Writes ls) (l : Lexeme) (k : List Lexeme) (n : Nat)
    (hl : l.kind ≠ .opening) (hn : 8 * ls.length ≤ n + 1) :
    Reads (readReference src n) (ls ++ l :: k) (·.bare = (Expr.reference pos name indices).bare) (l :: k) := by
  cases indices with
  | nil =>
    subst hw
    obtain ⟨m, rfl⟩ := Nat.exists_eq_add_of_le' (show 1 ≤ n by simp at hn; omega)
    rw [List.singleton_append, readReference]
    refine (reads_expectName _ _ _).bind fun ⟨s, t⟩ hs => ?_
    subst hs
    refine (reads_peek _ _).bind fun t' ht => ?_
    rw [ht]
    cases l with
    | opening => exact absurd rfl hl
    | _ => exact reads_pure rfl
  | cons i is =>
    obtain ⟨li, lr, hli, hlr, rfl⟩ := hw
    simp only [List.length_append, List.length_cons, length_boxed] at hn
    obtain ⟨m, rfl⟩ := Nat.exists_eq_add_of_le' (show 1 ≤ n by omega)
    obtain ⟨l', k', hk, hl', -⟩ := behind_index hlr (l :: k)
    have his : ∀ j ∈ is, Faithful src j := fun j hj => hi j (List.mem_cons_of_mem _ hj)
    rw [boxed]
    simp only [List.cons_append, List.append_assoc, List.nil_append]
    rw [hk, readReference]
    refine (reads_expectName _ _ _).bind fun ⟨s, t⟩ hs => ?_
    subst hs
    refine (reads_peek _ _).bind fun t' ht => ?_
    rw [ht]
    refine (reads_next _ _).discard.bind fun _ _ => ?_
    refine ((hi i List.mem_cons_self).boxed_expr hli k' hl' (by omega)).bind fun e he => ?_
    rw [← hk]
    cases loopStart? e with
    | none =>
      have := reads_indices src his (src.at t) s (l :: k) hlr [e] m (by omega)
      simpa [he, Expr.bare, bareAll, bareAll_eq] using this
    | some p =>
      have := reads_iterated_indices src his (src.at t) p.2.pos s p.1 (l :: k) hlr p.2 [] [e] m (by simp) (by omega)
      simpa [he, Expr.bare, bareAll, bareAll_eq] using this

theorem faithful_reference (pos : Location) (name : String) {indices : List Expr}
    (hi : ∀ i ∈ indices, Faithful src i) : Faithful src (.reference pos name indices) := by
  intro ls hw l k n hl hn
  have hname : ∃ ls', ls = .name name :: ls' := by
    cases indices with
    | nil => exact ⟨[], hw⟩
    | cons i is => obtain ⟨_, _, -, -, rfl⟩ := hw; exact ⟨_, rfl⟩
  obtain ⟨ls', hls⟩ := hname
  obtain ⟨m, rfl⟩ := Nat.exists_eq_add_of_le' (show 1 ≤ n by simp [hls] at hn; omega)
  rw [readOperand]
  have hpeek : Reads Reader.peek (ls ++ l :: k) (·.lexeme = .name name) (ls ++ l :: k) := by
    rw [hls]; exact reads_peek _ _
  refine hpeek.bind fun t ht => ?_
  rw [ht]
  exact reads_reference src pos name hi hw l k m hl (by omega)

/-! ## Ranges -/

def Term.start : Term → Expr
  | .single value => value
  | .stepped start _ _ => start

def FaithfulTerm : Term → Prop
  | .single value => Faithful src value
  | .stepped start step stop => Faithful src start ∧ Faithful src step ∧ Faithful src stop

def writesStep : Term → List Lexeme → Prop
  | .single _, ls => ls = []
  | .stepped _ step stop, ls => ∃ lb lc, step.Writes lb ∧ stop.Writes lc ∧ ls = boxed lb ++ boxed lc

theorem Term.Writes.parts {t : Term} {ls : List Lexeme} (h : t.Writes ls) :
    ∃ la rest, t.start.Writes la ∧ writesStep t rest ∧ ls = boxed la ++ rest := by
  cases t with
  | single value =>
    obtain ⟨lv, hv, rfl⟩ := h
    exact ⟨lv, [], hv, rfl, (List.append_nil _).symm⟩
  | stepped start step stop =>
    obtain ⟨la, lb, lc, ha, hb, hc, rfl⟩ := h
    exact ⟨la, _, ha, ⟨lb, lc, hb, hc, rfl⟩, rfl⟩

theorem FaithfulTerm.start {t : Term} (h : FaithfulTerm src t) : Faithful src t.start := by
  cases t with
  | single value => exact h
  | stepped start step stop => exact h.1

theorem behind_start {t : Term} {rest : List Lexeme} (hr : writesStep t rest) {l : Lexeme} (hl : l.kind ≠ .operator)
    (k : List Lexeme) : ∃ l' k', rest ++ l :: k = l' :: k' ∧ l'.kind ≠ .operator := by
  cases t with
  | single value => subst hr; exact ⟨l, k, rfl, hl⟩
  | stepped start step stop => obtain ⟨_, _, -, -, rfl⟩ := hr; exact ⟨_, _, rfl, by decide⟩

theorem behind_term {ts : List Term} {lr : List Lexeme} (hlr : writesTerms ts lr) {l : Lexeme}
    (hl : l.kind ≠ .operator ∧ l.kind ≠ .opening) (k : List Lexeme) :
    ∃ l' k', lr ++ l :: k = l' :: k' ∧ l'.kind ≠ .operator ∧ l'.kind ≠ .opening := by
  cases ts with
  | nil => subst hlr; exact ⟨l, k, rfl, hl⟩
  | cons t ts => obtain ⟨_, _, -, -, rfl⟩ := hlr; exact ⟨_, _, rfl, by decide, by decide⟩

theorem reads_term {t : Term} (ht : FaithfulTerm src t) {rest : List Lexeme} (hr : writesStep t rest) {e : Expr}
    (he : e.bare = t.start.bare) {l : Lexeme} (hl : l.kind ≠ .operator ∧ l.kind ≠ .opening) (k : List Lexeme)
    {n : Nat} (hn : 8 * rest.length + 8 ≤ n) :
    Reads (readTerm src n e) (rest ++ l :: k) (·.bare = t.bare) (l :: k) := by
  obtain ⟨m, rfl⟩ := Nat.exists_eq_add_of_le' (show 1 ≤ n by omega)
  rw [readTerm]
  cases t with
  | single value =>
    subst hr
    refine (reads_peek _ _).bind fun t' ht' => ?_
    rw [ht']
    cases l with
    | opening => exact absurd rfl hl.2
    | _ => exact reads_pure (by rw [Term.bare, Term.bare, he]; rfl)
  | stepped start step stop =>
    obtain ⟨lb, lc, hb, hc, rfl⟩ := hr
    simp only [List.length_append, length_boxed] at hn
    rw [List.append_assoc]
    refine (reads_peek _ _).bind fun t' ht' => ?_
    rw [ht']
    refine (reads_next _ _).discard.bind fun _ _ => ?_
    rw [List.append_eq, List.append_assoc, List.singleton_append]
    refine (ht.2.1.expr hb _ (by decide) (by decide) (by omega)).bind fun b hb => ?_
    refine (reads_expect _ _ _).discard.bind fun _ _ => ?_
    refine (ht.2.2.boxed_expr hc k hl.1 (by omega)).bind fun c hc => reads_pure ?_
    rw [Term.bare, Term.bare, he, hb, hc]
    rfl

theorem reads_iterated {body : Expr} (hbody : Faithful src body) {lb : List Lexeme} (hwb : body.Writes lb)
    (pos rangePos : Location) (name v : String) (k : List Lexeme) {ts : List Term}
    (hts : ∀ t ∈ ts, FaithfulTerm src t) : ∀ {lr : List Lexeme}, writesTerms ts lr → ∀ {t : Term}
      {rest : List Lexeme} (start : Expr) (acc : List Term) (indices : List Expr) (n : Nat), FaithfulTerm src t →
      writesStep t rest → start.bare = t.start.bare → 8 * (rest.length + lr.length + lb.length) + 16 ≤ n →
      Reads (readIterated src n pos name .round v rangePos start acc indices)
        (rest ++ (lr ++ .colon :: (lb ++ .closing .round :: k)))
        (·.bare = .reduction nowhere name v (.mk nowhere (acc.reverse.map Term.bare ++ t.bare :: ts.map Term.bare))
          body.bare) k := by
  induction ts with
  | nil =>
    intro lr hlr t rest start acc indices n ht hr hs hn
    subst hlr
    obtain ⟨m, rfl⟩ := Nat.exists_eq_add_of_le' (show 1 ≤ n by omega)
    rw [List.nil_append, readIterated]
    simp only [List.length_nil] at hn
    refine (reads_term src ht hr hs (by decide) _ (by omega)).bind fun t' ht' => ?_
    refine (reads_accept_of_ne _ _ (by simp)).bind fun c hc => ?_
    subst hc
    refine (reads_peek _ _).bind fun t'' hl => ?_
    -- it is the colon that makes this a reduction
    dsimp only
    rw [if_pos hl]
    refine (reads_next _ _).discard.bind fun _ _ => ?_
    refine (hbody.expr hwb _ (by decide) (by decide) (by omega)).bind fun b hb => ?_
    refine (reads_expect _ _ _).discard.bind fun _ _ => reads_pure ?_
    simp [Expr.bare, Range.bare, bareTerms_eq, ht', hb]
  | cons u us ih =>
    intro lr hlr t rest start acc indices n ht hr hs hn
    obtain ⟨lu, lr', hu, hlr', rfl⟩ := hlr
    obtain ⟨la, rest', ha, hr', rfl⟩ := hu.parts
    have hfu := hts u List.mem_cons_self
    simp only [List.length_cons, List.length_append, length_boxed] at hn
    obtain ⟨m, rfl⟩ := Nat.exists_eq_add_of_le' (show 1 ≤ n by omega)
    rw [readIterated, List.cons_append]
    refine (reads_term src ht hr hs (by decide) _ (by omega)).bind fun t' ht' => ?_
    refine (reads_accept _ _).bind fun c hc => ?_
    subst hc
    obtain ⟨l, k', hk, hl⟩ := behind_term hlr' (show Lexeme.colon.kind ≠ .operator ∧ Lexeme.colon.kind ≠ .opening by
      decide) (lb ++ .closing .round :: k)
    obtain ⟨l', k'', hk', hl'⟩ := behind_start hr' hl.1 k'
    rw [List.append_assoc, List.append_assoc, hk, hk']
    refine ((hfu.start src).boxed_expr ha k'' hl' (by omega)).bind fun e he => ?_
    rw [← hk', ← hk]
    have := ih (fun t hm => hts t (List.mem_cons_of_mem _ hm)) hlr' e (t' :: acc) (e :: indices) m hfu hr' he (by omega)
    simpa [ht'] using this

theorem reads_loopStart {e : Expr} (h : Faithful src e) {ls : List Lexeme} (hw : e.Writes ls) (v : String)
    {l : Lexeme} (hl : l.kind ≠ .operator) (k : List Lexeme) {n : Nat} (hn : 8 * ls.length + 8 ≤ n) :
    Reads (readExpr src n) (.name v :: .operator .eq :: (boxed ls ++ l :: k))
      (fun a => ∃ start, loopStart? a = some (v, start) ∧ start.bare = e.bare) (l :: k) := by
  obtain ⟨m, rfl⟩ := Nat.exists_eq_add_of_le' (show 3 ≤ n by omega)
  have hname : Reads (readOperand src (m + 2)) (.name v :: .operator .eq :: (boxed ls ++ l :: k))
      (fun a => ∃ pos, a = .reference pos v []) (.operator .eq :: (boxed ls ++ l :: k)) := by
    rw [readOperand]
    refine (reads_peek _ _).bind fun t ht => ?_
    rw [ht]
    dsimp only
    rw [readReference]
    refine (reads_expectName _ _ _).bind fun ⟨s, t⟩ hs => ?_
    subst hs
    refine (reads_peek _ _).bind fun t' ht => ?_
    rw [ht]
    exact reads_pure ⟨_, rfl⟩
  rw [readExpr]
  refine hname.bind fun a ⟨pos, ha⟩ => ?_
  subst ha
  rw [readOperators]
  refine (reads_nextPrecedence _ _).bind fun p hp => ?_
  subst hp
  dsimp only
  rw [if_neg (Nat.not_lt_zero _)]
  refine (reads_next _ _).discard.bind fun _ _ => ?_
  refine (h.boxed_operand hw _ (by omega)).bind fun b hb => ?_
  refine (reads_tighter_end src hl b _).bind fun c hc => ?_
  subst hc
  exact (reads_operators_end src hl _ 0).of_eq ⟨c, rfl, hb⟩

def FaithfulRange : Range → Prop
  | .mk _ terms => ∀ t ∈ terms, FaithfulTerm src t

theorem faithful_reduction (pos : Location) (function v : String) {range : Range} {body : Expr}
    (hr : FaithfulRange src range) (hb : Faithful src body) : Faithful src (.reduction pos function v range body) := by
  rintro ls ⟨lr, lb, hlr, hlb, rfl⟩ l k n - hn
  obtain ⟨rangePos, terms⟩ := range
  cases terms with
  | nil => exact hlr.elim
  | cons t ts =>
    obtain ⟨lt, lr', ht, hlr', rfl⟩ := hlr
    obtain ⟨la, rest, ha, hrest, rfl⟩ := ht.parts
    have hft : FaithfulTerm src t := hr t List.mem_cons_self
    simp only [List.length_cons, List.length_append, length_boxed] at hn
    obtain ⟨m, rfl⟩ := Nat.exists_eq_add_of_le' (show 2 ≤ n by omega)
    obtain ⟨l', k', hk, hl⟩ := behind_term hlr' (show Lexeme.colon.kind ≠ .operator ∧ Lexeme.colon.kind ≠ .opening by
      decide) (lb ++ .closing .round :: l :: k)
    obtain ⟨l'', k'', hk', hl'⟩ := behind_start hrest hl.1 k'
    rw [boxed]
    simp only [List.cons_append, List.append_assoc, List.nil_append]
    rw [hk, hk', readOperand]
    refine (reads_peek _ _).bind fun t₀ ht₀ => ?_
    rw [ht₀]
    dsimp only
    rw [readReference]
    refine (reads_expectName _ _ _).bind fun ⟨s, t₁⟩ hs => ?_
    subst hs
    refine (reads_peek _ _).bind fun t₂ ht₂ => ?_
    rw [ht₂]
    refine (reads_next _ _).discard.bind fun _ _ => ?_
    refine (reads_loopStart src (hft.start src) ha v hl' k'' (by omega)).bind fun first ⟨start, hfirst, hstart⟩ => ?_
    rw [hfirst, ← hk', ← hk]
    have hts : ∀ t ∈ ts, FaithfulTerm src t := fun t hm => hr t (List.mem_cons_of_mem _ hm)
    have := reads_iterated src hb hlb (src.at t₁) start.pos s v (l :: k) hts hlr' start [] [first] m hft hrest hstart
      (by omega)
    simpa [Expr.bare, Range.bare, bareTerms, bareTerms_eq] using this

/-! ## All expressions -/

mutual

/-- **Expressions.** Every expression is read from what it is written as. -/
theorem faithful : ∀ e : Expr, Faithful src e
  | .number pos x => faithful_number src pos x
  | .reference pos name indices => faithful_reference src pos name (faithful_all indices)
  | .binary pos o lhs rhs => faithful_binary src pos o (faithful lhs) (faithful rhs)
  | .conditional pos branches otherwise =>
    faithful_conditional src pos (faithful_branches branches) (faithful otherwise)
  | .reduction pos function loopVar range body =>
    faithful_reduction src pos function loopVar (faithful_range range) (faithful body)

theorem faithful_all : ∀ es : List Expr, ∀ e ∈ es, Faithful src e
  | [] => nofun
  | e :: es => List.forall_mem_cons.mpr ⟨faithful e, faithful_all es⟩

theorem faithful_branches : ∀ bs : List Branch, ∀ b ∈ bs, FaithfulBranch src b
  | [] => nofun
  | .mk condition result :: bs =>
    List.forall_mem_cons.mpr ⟨⟨faithful condition, faithful result⟩, faithful_branches bs⟩

theorem faithful_range : ∀ r : Range, FaithfulRange src r
  | .mk _ terms => faithful_terms terms

theorem faithful_terms : ∀ ts : List Term, ∀ t ∈ ts, FaithfulTerm src t
  | [] => nofun
  | .single value :: ts => List.forall_mem_cons.mpr ⟨faithful value, faithful_terms ts⟩
  | .stepped start step stop :: ts =>
    List.forall_mem_cons.mpr ⟨⟨faithful start, faithful step, faithful stop⟩, faithful_terms ts⟩

end

end JossLang
