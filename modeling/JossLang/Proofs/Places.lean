import JossLang.Proofs.FirstPeriod
import JossLang.Proofs.Outlines

/-!
# Places

Every rule that reads makes its node at the first token of what it reads, or at the place of the first part of it, and
only then goes on. So what is read keeps to a stretch of columns in front of what comes next, part by part, and the
places of a line follow its text: `parse_places`.
-/

namespace JossLang

open Outline (Within Row)

/-! ## Streams from a column on -/

structure Stream.From (src : Source) (lo : Nat) (s : Stream) : Prop where
  ahead : s.ahead <:+ src.marks
  ends : s.Ends
  le : lo ≤ s.peek.column

namespace Stream

variable {src : Source} {lo lo' : Nat} {s s' : Stream}

theorem peek_mem_ahead (s : Stream) : s.peek ∈ s.ahead := by
  rw [peek, ahead]
  cases s.rest <;> simp

theorem From.peek_mem (h : s.From src lo) : s.peek ∈ src.marks := h.ahead.subset s.peek_mem_ahead

theorem From.mono (h : s.From src lo) (hle : lo' ≤ lo) : s.From src lo' := ⟨h.ahead, h.ends, hle.trans h.le⟩

theorem From.at_peek (h : s.From src lo) : s.From src s.peek.column := ⟨h.ahead, h.ends, le_rfl⟩

theorem from_ofLine (src : Source) : (Stream.ofLine src.text).From src 0 := ⟨List.suffix_rfl, rfl, Nat.zero_le _⟩

theorem From.next (h : s.From src lo) (hs : s.rest ≠ []) : s.next.2.From src (s.peek.column + 1) := by
  obtain ⟨t, ts, hts⟩ := List.exists_cons_of_ne_nil hs
  have hpeek : s.peek = t := by rw [peek, hts, List.headD_cons]
  have hahead : s.ahead = t :: s.next.2.ahead := by rw [Stream.ahead, hts, Stream.ahead, Stream.next, hts]; rfl
  have hsuffix := h.ahead
  rw [hahead] at hsuffix
  have hlater := List.rel_of_pairwise_cons (src.marks_pairwise.sublist hsuffix.sublist) s.next.2.peek_mem_ahead
  exact ⟨(List.suffix_cons _ _).trans hsuffix, h.ends, hpeek ▸ hlater⟩

theorem Ends.rest_ne_nil (h : s.Ends) (hs : s.peek.lexeme ≠ .finish) : s.rest ≠ [] := by
  intro hnil
  rw [peek, hnil, List.headD_nil] at hs
  exact hs h

theorem From.next_le (h : s.From src lo) : s.next.2.From src lo := by
  cases hs : s.rest with
  | nil =>
    have hsame : s.next.2.rest = s.rest := by rw [Stream.next, hs]; rfl
    have hahead : s.next.2.ahead = s.ahead := by rw [Stream.ahead, Stream.ahead, hsame]; rfl
    have hpeek : s.next.2.peek = s.peek := by rw [peek, peek, hsame]; rfl
    exact ⟨hahead ▸ h.ahead, h.ends, hpeek ▸ h.le⟩
  | cons t ts =>
    have hs : s.rest ≠ [] := by rw [hs]; exact List.cons_ne_nil t ts
    exact (h.next hs).mono (h.le.trans (Nat.le_succ _))

end Stream

/-! ## Readers -/

section
variable {α β : Type} (src : Source)

/-- What is read from a column on comes to an end in front of another column, from which on the rest of the line stands. -/
def Places (lo : Nat) (r : Reader α) (P : α → Nat → Prop) : Prop :=
  Ensures (Stream.From src lo) r fun a s => ∃ hi, P a hi ∧ s.From src hi

def PlacesAt (t : Token) (r : Reader α) (P : α → Nat → Prop) : Prop :=
  Ensures (fun s => s.From src t.column ∧ s.peek = t) r fun a s => ∃ hi, P a hi ∧ s.From src hi

def Idle (r : Reader α) : Prop := ∀ lo, Ensures (Stream.From src lo) r fun _ => Stream.From src lo

variable {src} {lo mid : Nat} {t : Token} {P : α → Nat → Prop} {Q : β → Nat → Prop}

open Reader

theorem places_pure {a : α} (h : P a lo) : Places src lo (pure a) P := ensures_pure fun _ hs => ⟨lo, h, hs⟩

theorem Places.bind {r : Reader α} {f : α → Reader β} (h : Places src lo r P)
    (hf : ∀ a mid, P a mid → Places src mid (f a) Q) : Places src lo (r >>= f) Q :=
  Ensures.bind h fun a s b s' ⟨mid, ha, hs⟩ hrun => hf a mid ha s b s' hs hrun

theorem Places.mono {P' : α → Nat → Prop} {r : Reader α} (h : Places src lo r P) (hP : ∀ a hi, P a hi → P' a hi) :
    Places src lo r P' := Ensures.mono h fun a _ ⟨hi, ha, hs⟩ => ⟨hi, hP a hi ha, hs⟩

theorem Places.at {r : Reader α} (h : Places src t.column r P) : PlacesAt src t r P := Ensures.pre h fun _ hs => hs.1

theorem places_get_bind {f : Stream → Reader α} (h : ∀ s, Places src lo (f s) P) : Places src lo (get >>= f) P :=
  fun s => h s s

theorem places_peek_bind {f : Token → Reader α} (h : ∀ t ∈ src.marks, lo ≤ t.column → PlacesAt src t (f t) P) :
    Places src lo (peek >>= f) P := fun s a s' hs hrun => h s.peek hs.peek_mem hs.le s a s' ⟨hs.at_peek, rfl⟩ hrun

theorem placesAt_next {l : Lexeme} (hl : t.lexeme = l) (hf : l ≠ .finish) {f : Unit → Reader α}
    (h : Places src (t.column + 1) (f ()) P) : PlacesAt src t (discard next >>= f) P := by
  rintro s a s' ⟨hs, rfl⟩ hrun
  rw [run_discard_next_bind] at hrun
  exact h _ a s' (hs.next (hs.ends.rest_ne_nil (hl ▸ hf))) hrun

theorem places_expectName (place : Place) :
    Places src lo (expectName place) fun p hi => p.2 ∈ src.marks ∧ lo ≤ p.2.column ∧ hi = p.2.column + 1 := by
  intro s a s' hs hrun
  rw [expectName, run_next_bind] at hrun
  split at hrun
  · next name hname =>
    cases hrun
    exact ⟨_, ⟨hs.peek_mem, hs.le, rfl⟩, hs.next (hs.ends.rest_ne_nil (by simp [hname]))⟩
  · cases hrun

/-! ## Readers without places -/

theorem Idle.places_bind {r : Reader α} {f : α → Reader β} (h : Idle src r) (hf : ∀ a, Places src lo (f a) Q) :
    Places src lo (r >>= f) Q := Ensures.bind (h lo) hf

theorem Idle.bind {r : Reader α} {f : α → Reader β} (h : Idle src r) (hf : ∀ a, Idle src (f a)) : Idle src (r >>= f) :=
  fun lo => (h lo).bind fun a => hf a lo

theorem idle_pure (a : α) : Idle src (pure a) := fun _ => ensures_pure fun _ hs => hs

theorem idle_fail (cause : ParseCause) (t : Token) : Idle src (fail cause t : Reader α) := fun _ => ensures_fail

theorem Idle.discard {r : Reader α} (h : Idle src r) : Idle src (discard r) := by
  rw [Functor.discard]
  exact h.bind fun _ => idle_pure _

theorem idle_peek : Idle src peek := by
  intro lo s t s' hs hrun
  cases hrun
  exact hs

theorem idle_next : Idle src next := by
  intro lo s t s' hs hrun
  cases hrun
  exact hs.next_le

theorem idle_accept (l : Lexeme) : Idle src (accept l) := by
  refine idle_peek.bind fun t => ?_
  split
  · exact idle_next.discard.bind fun _ => idle_pure _
  · exact idle_pure _

theorem idle_expect (place : Place) (l : Lexeme) : Idle src (expect place l) := by
  refine idle_next.bind fun t => ?_
  split
  · exact idle_pure _
  · exact idle_fail _ _

theorem idle_expectKind (place : Place) (k : Kind) : Idle src (expectKind place k) := by
  refine idle_next.bind fun t => ?_
  split
  · exact idle_pure _
  · exact idle_fail _ _

theorem idle_expectName (place : Place) : Idle src (expectName place) := by
  refine idle_next.bind fun t => ?_
  split
  · exact idle_pure _
  · exact idle_fail _ _

theorem idle_expectNumber (place : Place) : Idle src (expectNumber place) := by
  refine idle_next.bind fun t => ?_
  split
  · exact idle_pure _
  · exact idle_fail _ _

theorem idle_nextPrecedence : Idle src nextPrecedence := by
  refine idle_peek.bind fun t => ?_
  split
  · exact idle_pure _
  · exact idle_fail _ _
  · exact idle_pure _

theorem idle_liftNumber (literal : String) (r : Except NumberFault α) : Idle src (liftNumber literal r) := by
  cases r with
  | ok a => exact idle_pure a
  | error fault => exact fun _ => ensures_throw

theorem idle_readParams (depth : Nat) : ∀ params, Idle src (readParams depth params) := by
  induction depth with
  | zero => exact fun _ _ => ensures_throw
  | succ depth ih =>
    intro params
    rw [readParams]
    refine (idle_expectName _).bind fun p => (idle_accept _).bind fun c => ?_
    split
    · exact ih _
    · exact idle_pure _

theorem idle_readGoal : Idle src readGoal := by
  refine idle_next.bind fun t => ?_
  split
  · exact (idle_expectNumber _).bind fun literal => (idle_liftNumber literal _).bind fun _ => idle_pure _
  · exact (idle_expectNumber _).bind fun literal => (idle_liftNumber literal _).bind fun _ => idle_pure _
  · exact idle_fail _ _

end

/-! ## Expressions -/

variable (src : Source)

structure ReadersPlace (depth : Nat) : Prop where
  expr : ∀ lo, Places src lo (readExpr src depth) fun e hi => Within src lo hi e.outline
  operand : ∀ lo, Places src lo (readOperand src depth) fun e hi => Within src lo hi e.outline
  operators : ∀ lo mid lhs least, Within src lo mid lhs.outline →
    Places src mid (readOperators src depth lhs least) fun e hi => Within src lo hi e.outline
  tighter : ∀ lo mid rhs than, Within src lo mid rhs.outline →
    Places src mid (readTighter src depth rhs than) fun e hi => Within src lo hi e.outline
  group : ∀ lo mid t b e branches, t ∈ src.marks → lo ≤ t.column →
    Row src t.column mid (branches.reverse.flatMap Branch.outlines ++ [e.outline]) →
    Places src mid (readGroup src depth (src.at t) b e branches) fun e hi => Within src lo hi e.outline
  reference : ∀ lo, Places src lo (readReference src depth) fun e hi => Within src lo hi e.outline
  indices : ∀ lo mid t name b is, t ∈ src.marks → lo ≤ t.column → t.column < mid →
    Row src t.column mid (is.reverse.map Expr.outline) →
    Places src mid (readIndices src depth (src.at t) name b is) fun e hi => Within src lo hi e.outline
  iterated : ∀ lo mid t name b v rangePos start terms is, t ∈ src.marks → lo ≤ t.column → t.column < mid →
    Row src t.column mid (is.reverse.map Expr.outline) →
    (∃ m, Row src t.column m (terms.reverse.flatMap Term.outlines) ∧ Within src m mid start.outline) →
    (∃ o os, terms.reverse.flatMap Term.outlines ++ [start.outline] = o :: os ∧ o.pos = rangePos) →
    Places src mid (readIterated src depth (src.at t) name b v rangePos start terms is) fun e hi =>
      Within src lo hi e.outline
  term : ∀ lo mid start, Within src lo mid start.outline → Places src mid (readTerm src depth start) fun term hi =>
    mid ≤ hi ∧ Row src lo hi term.outlines ∧ ∃ os, term.outlines = start.outline :: os

theorem readersPlace_zero : ReadersPlace src 0 where
  expr _ := ensures_throw
  operand _ := ensures_throw
  operators _ _ _ _ _ := ensures_throw
  tighter _ _ _ _ _ := ensures_throw
  group _ _ _ _ _ _ _ _ _ := ensures_throw
  reference _ := ensures_throw
  indices _ _ _ _ _ _ _ _ _ _ := ensures_throw
  iterated _ _ _ _ _ _ _ _ _ _ _ _ _ _ _ _ := ensures_throw
  term _ _ _ _ := ensures_throw

section
variable {src} {depth : Nat} (h : ReadersPlace src depth) {lo mid : Nat} {t : Token}

theorem within_leaf (ht : t ∈ src.marks) (hlo : lo ≤ t.column) : Within src lo (t.column + 1) (.node (src.at t) []) :=
  .node ht hlo (Nat.lt_succ_self _) (.nil (Nat.le_succ _))

theorem within_binary {e e' : Expr} {o : Operator} {hi : Nat} (he : Within src lo mid e.outline)
    (he' : Within src mid hi e'.outline) : Within src lo hi (Expr.binary e.pos o e e').outline := by
  rw [Expr.outline, ← Expr.outline_pos]
  exact (Row.cons he he'.row).group

include h

theorem ReadersPlace.expr_succ (lo : Nat) :
    Places src lo (readExpr src (depth + 1)) fun e hi => Within src lo hi e.outline := by
  rw [readExpr]
  exact (h.operand lo).bind fun lhs mid hlhs => h.operators lo mid lhs 0 hlhs

theorem ReadersPlace.operand_succ (lo : Nat) :
    Places src lo (readOperand src (depth + 1)) fun e hi => Within src lo hi e.outline := by
  rw [readOperand]
  refine places_peek_bind fun t ht hlo => ?_
  -- a sign counts as a zero at its place
  have hsigned : ∀ o e mid, Within src (t.column + 1) mid e.outline →
      Within src lo mid (Expr.binary (src.at t) o (.number (src.at t) 0) e).outline := by
    intro o e mid he
    rw [Expr.outline, Expr.outline]
    exact .node ht hlo (Nat.lt_of_succ_lt he.lt) (.cons (within_leaf ht le_rfl) he.row)
  split
  · next hl =>
    refine placesAt_next hl (by simp) (places_pure ?_)
    rw [Expr.outline]
    exact within_leaf ht hlo
  · exact ((h.reference t.column).mono fun e hi he => he.widen hlo le_rfl).at
  · next b hl =>
    refine placesAt_next hl (by simp) ((h.expr _).bind fun e mid he => h.group lo mid t b e [] ht hlo ?_)
    exact he.row.widen (Nat.le_succ _) le_rfl
  · next hl => exact placesAt_next hl (by simp) ((h.operand _).bind fun e mid he => places_pure (hsigned _ e mid he))
  · next hl => exact placesAt_next hl (by simp) ((h.operand _).bind fun e mid he => places_pure (hsigned _ e mid he))
  · exact ensures_fail

theorem ReadersPlace.operators_succ (lo mid : Nat) (lhs : Expr) (least : Nat) (hlhs : Within src lo mid lhs.outline) :
    Places src mid (readOperators src (depth + 1) lhs least) fun e hi => Within src lo hi e.outline := by
  rw [readOperators]
  refine idle_nextPrecedence.places_bind fun p => ?_
  split
  · exact places_pure hlhs
  · split
    · exact places_pure hlhs
    · exact idle_next.discard.places_bind fun _ => (h.operand mid).bind fun a m ha => (h.tighter mid m a _ ha).bind
        fun rhs hi hrhs => h.operators lo hi _ least (within_binary hlhs hrhs)

theorem ReadersPlace.tighter_succ (lo mid : Nat) (rhs : Expr) (than : Nat) (hrhs : Within src lo mid rhs.outline) :
    Places src mid (readTighter src (depth + 1) rhs than) fun e hi => Within src lo hi e.outline := by
  rw [readTighter]
  refine idle_nextPrecedence.places_bind fun p => ?_
  split
  · exact places_pure hrhs
  · split
    · exact (h.operators lo mid rhs _ hrhs).bind fun e hi he => h.tighter lo hi e than he
    · exact places_pure hrhs

theorem ReadersPlace.group_succ (lo mid : Nat) (t : Token) (b : Bracket) (e : Expr) (branches : List Branch)
    (ht : t ∈ src.marks) (hlo : lo ≤ t.column)
    (hrow : Row src t.column mid (branches.reverse.flatMap Branch.outlines ++ [e.outline])) :
    Places src mid (readGroup src (depth + 1) (src.at t) b e branches) fun e hi => Within src lo hi e.outline := by
  rw [readGroup]
  refine (idle_accept _).places_bind fun c => ?_
  split
  · refine (h.expr mid).bind fun result m hresult => (idle_expectKind _ _).discard.places_bind fun _ => ?_
    refine (h.expr m).bind fun e' hi he' => h.group lo hi t b e' _ ht hlo ?_
    have hparts := (hrow.append hresult.row).append he'.row
    simpa [Branch.outlines] using hparts
  · refine (idle_expect _ _).discard.places_bind fun _ => places_pure ?_
    split
    · next hnone =>
      rw [List.isEmpty_iff.mp hnone] at hrow
      cases hrow with
      | cons he hs => exact he.widen hlo hs.le
    · rw [Expr.outline, outlineBranches_eq]
      exact .node ht hlo (hrow.lt (by simp)) hrow

theorem ReadersPlace.reference_succ (lo : Nat) :
    Places src lo (readReference src (depth + 1)) fun e hi => Within src lo hi e.outline := by
  rw [readReference]
  refine (places_expectName _).bind fun p mid hname => ?_
  obtain ⟨name, t⟩ := p
  obtain ⟨ht, hlo, rfl⟩ := hname
  refine idle_peek.places_bind fun t' => ?_
  split
  · refine idle_next.discard.places_bind fun _ => (h.expr _).bind fun first hi hfirst => ?_
    have hlater : t.column < hi := Nat.lt_of_succ_lt hfirst.lt
    have hindices : Row src t.column hi ([first].reverse.map Expr.outline) := hfirst.row.widen (Nat.le_succ _) le_rfl
    split
    · next v start hstart =>
      refine h.iterated lo hi t name _ v _ start [] [first] ht hlo hlater hindices ?_ ⟨_, _, rfl, start.outline_pos⟩
      -- the start of the loop is the right part of what was read as an equality
      unfold loopStart? at hstart
      split at hstart
      · cases hstart
        rw [Expr.outline] at hfirst
        cases hfirst with
        | node _ hle _ hparts =>
          cases hparts with
          | cons hv hs =>
            cases hs with
            | cons hstart hnil =>
              exact ⟨_, .nil ((Nat.le_of_succ_le hle).trans hv.lt.le), hstart.widen le_rfl hnil.le⟩
      · cases hstart
    · exact h.indices lo hi t name _ [first] ht hlo hlater hindices
  · refine places_pure ?_
    rw [Expr.outline]
    exact within_leaf ht hlo

theorem ReadersPlace.indices_succ (lo mid : Nat) (t : Token) (name : String) (b : Bracket) (is : List Expr)
    (ht : t ∈ src.marks) (hlo : lo ≤ t.column) (hmid : t.column < mid)
    (hrow : Row src t.column mid (is.reverse.map Expr.outline)) :
    Places src mid (readIndices src (depth + 1) (src.at t) name b is) fun e hi => Within src lo hi e.outline := by
  rw [readIndices]
  refine (idle_accept _).places_bind fun c => ?_
  split
  · refine (h.expr mid).bind fun e hi he => h.indices lo hi t name b _ ht hlo (hmid.trans he.lt) ?_
    simpa using hrow.append he.row
  · refine (idle_expect _ _).discard.places_bind fun _ => places_pure ?_
    rw [Expr.outline, outlineAll_eq]
    exact .node ht hlo hmid hrow

theorem ReadersPlace.term_succ (lo mid : Nat) (start : Expr) (hstart : Within src lo mid start.outline) :
    Places src mid (readTerm src (depth + 1) start) fun term hi =>
      mid ≤ hi ∧ Row src lo hi term.outlines ∧ ∃ os, term.outlines = start.outline :: os := by
  rw [readTerm]
  refine idle_peek.places_bind fun t => ?_
  split
  · refine idle_next.discard.places_bind fun _ => (h.expr mid).bind fun step m hstep => ?_
    refine (idle_expect _ _).discard.places_bind fun _ => (h.expr m).bind fun stop hi hstop => places_pure ?_
    exact ⟨hstep.lt.le.trans hstop.lt.le, .cons hstart (.cons hstep hstop.row), _, rfl⟩
  · exact places_pure ⟨le_rfl, hstart.row, _, rfl⟩

theorem ReadersPlace.iterated_succ (lo mid : Nat) (t : Token) (name : String) (b : Bracket) (v : String)
    (rangePos : Location) (start : Expr) (terms : List Term) (is : List Expr) (ht : t ∈ src.marks) (hlo : lo ≤ t.column)
    (hmid : t.column < mid) (hindices : Row src t.column mid (is.reverse.map Expr.outline))
    (hterms : ∃ m, Row src t.column m (terms.reverse.flatMap Term.outlines) ∧ Within src m mid start.outline)
    (hfirst : ∃ o os, terms.reverse.flatMap Term.outlines ++ [start.outline] = o :: os ∧ o.pos = rangePos) :
    Places src mid (readIterated src (depth + 1) (src.at t) name b v rangePos start terms is) fun e hi =>
      Within src lo hi e.outline := by
  obtain ⟨m, hterms, hstart⟩ := hterms
  obtain ⟨o, os, hfirst, rfl⟩ := hfirst
  rw [readIterated]
  refine (h.term m mid start hstart).bind fun term hi hread => ?_
  obtain ⟨hhi, hterm, later, hhead⟩ := hread
  have hrow : Row src t.column hi ((term :: terms).reverse.flatMap Term.outlines) := by
    simpa using hterms.append hterm
  have hhead : (term :: terms).reverse.flatMap Term.outlines = o :: (os ++ later) := by
    rw [← List.cons_append, ← hfirst]
    simp [hhead]
  have hindices := hindices.widen_right hhi
  have hlater : t.column < hi := hmid.trans_le hhi
  -- a comma goes on, a colon makes a reduction of the terms, a bracket makes a reference of the indices
  refine (idle_accept _).places_bind fun c => ?_
  split
  · refine (h.expr hi).bind fun e hi' he => ?_
    refine h.iterated lo hi' t name b v o.pos e _ _ ht hlo (hlater.trans he.lt) ?_ ⟨hi, hrow, he⟩ ?_
    · simpa using hindices.append he.row
    · rw [hhead]
      exact ⟨o, _, rfl, rfl⟩
  · refine idle_peek.places_bind fun t' => ?_
    dsimp only
    split
    · refine idle_next.discard.places_bind fun _ => (h.expr hi).bind fun body hi' hbody => ?_
      refine (idle_expect _ _).discard.places_bind fun _ => places_pure ?_
      rw [hhead] at hrow
      have hrange : Within src t.column hi (Range.mk o.pos (term :: terms).reverse).outline := by
        rw [Range.outline, outlineTerms_eq, hhead]
        exact hrow.group
      rw [Expr.outline]
      exact .node ht hlo (hlater.trans hbody.lt) (.cons hrange hbody.row)
    · split
      · refine idle_next.discard.places_bind fun _ => places_pure ?_
        rw [Expr.outline, outlineAll_eq]
        exact .node ht hlo hlater hindices
      · exact ensures_fail

end

/-- **Expressions.** Whatever is read keeps to the columns in front of what comes next. -/
theorem readersPlace (depth : Nat) : ReadersPlace src depth := by
  induction depth with
  | zero => exact readersPlace_zero src
  | succ depth ih =>
    exact ⟨ih.expr_succ, ih.operand_succ, ih.operators_succ, ih.tighter_succ, ih.group_succ, ih.reference_succ,
      ih.indices_succ, ih.iterated_succ, ih.term_succ⟩

/-! ## Commands -/

section
variable {src} {lo mid : Nat} {t : Token}

open Reader

theorem places_readWhole : Places src lo (readWhole src) fun e hi => Within src lo hi e.outline :=
  places_get_bind fun _ => (readersPlace src _).expr lo

theorem places_readItem : Places src lo (readItem src) fun item hi => Within src lo hi item.outline := by
  refine places_peek_bind fun t ht hlo => ?_
  have hnumeric : PlacesAt src t (do return Item.numeric (src.at t) (← readWhole src)) fun item hi =>
      Within src lo hi item.outline :=
    (places_readWhole.bind fun e hi he => places_pure (.node ht hlo he.lt he.row)).at
  split
  · next hl => exact placesAt_next hl (by simp) (places_pure (within_leaf ht hlo))
  iterate 5 exact hnumeric
  · exact ensures_fail

theorem places_readItems (depth : Nat) : ∀ {mid : Nat} {items : List Item}, Row src lo mid (items.reverse.map Item.outline) →
    Places src mid (readItems src depth items) fun items hi => items ≠ [] ∧ Row src lo hi (items.map Item.outline) := by
  induction depth with
  | zero => exact fun _ => ensures_throw
  | succ depth ih =>
    intro mid items hitems
    rw [readItems]
    refine places_readItem.bind fun item hi hitem => (idle_accept _).places_bind fun c => ?_
    have hmore : Row src lo hi ((item :: items).reverse.map Item.outline) := by
      simpa using hitems.append hitem.row
    split
    · exact ih hmore
    · exact places_pure ⟨by simp, hmore⟩

theorem places_readTarget : Places src lo (readTarget src) fun target hi => Within src lo hi target.outline := by
  refine places_peek_bind fun t _ hlo => Places.at ?_
  refine places_get_bind fun s => ((readersPlace src _).reference _).bind fun e hi he => ?_
  split
  · refine places_pure ?_
    rw [Expr.outline, outlineAll_eq] at he
    exact he.widen hlo le_rfl
  · exact ensures_fail

theorem places_readDefinition (ht : t ∈ src.marks) :
    Places src (t.column + 1) (readDefinition src (src.at t)) fun verb hi => Within src t.column hi verb.outline := by
  refine (idle_expectName _).places_bind fun p => ?_
  have hbody : ∀ params, Places src (t.column + 1) (do
      discard (expect .afterDefined (.operator .eq))
      return Verb.define (src.at t) p.1 params (← readWhole src)) fun verb hi => Within src t.column hi verb.outline := by
    intro params
    refine (idle_expect _ _).discard.places_bind fun _ => places_readWhole.bind fun e hi he => places_pure ?_
    exact .node ht le_rfl (Nat.lt_of_succ_lt he.lt) (he.row.widen (Nat.le_succ _) le_rfl)
  refine idle_peek.places_bind fun t' => ?_
  dsimp only
  split
  · exact idle_next.discard.places_bind fun _ => places_get_bind fun _ => (idle_readParams _ _).places_bind fun ps =>
      (idle_expect _ _).discard.places_bind fun _ => hbody ps
  · exact hbody []

theorem places_readTerms (depth : Nat) : ∀ {mid : Nat} {terms : List Term}, Row src lo mid (terms.reverse.flatMap Term.outlines) →
    Places src mid (readTerms src depth terms) fun terms hi => mid < hi ∧ Row src lo hi (terms.flatMap Term.outlines) := by
  induction depth with
  | zero => exact fun _ => ensures_throw
  | succ depth ih =>
    intro mid terms hterms
    rw [readTerms]
    refine places_get_bind fun _ => places_readWhole.bind fun start m hstart => ?_
    refine ((readersPlace src _).term mid m start hstart).bind fun term hi hread => ?_
    obtain ⟨hhi, hterm, -⟩ := hread
    have hlater : mid < hi := hstart.lt.trans_le hhi
    have hmore : Row src lo hi ((term :: terms).reverse.flatMap Term.outlines) := by
      simpa using hterms.append hterm
    refine (idle_accept _).places_bind fun c => ?_
    split
    · exact (ih hmore).mono fun _ _ hread => hread.imp_left hlater.trans
    · exact places_pure ⟨hlater, hmore⟩

theorem places_readRange : Places src lo (readRange src) fun range hi => Within src lo hi range.outline := by
  refine places_peek_bind fun t ht hlo => Places.at ?_
  refine places_get_bind fun _ => (places_readTerms _ (.nil le_rfl)).bind fun terms hi ⟨hhi, hterms⟩ => ?_
  refine idle_peek.places_bind fun after => ?_
  split
  · refine places_pure ?_
    rw [Range.outline, outlineTerms_eq]
    exact .node ht hlo hhi hterms
  · exact ensures_fail

theorem places_readLoop : Places src lo (readLoop src) fun loop hi => Row src lo hi loop.outlines := by
  refine (idle_accept _).places_bind fun c => ?_
  split
  · exact (idle_expectName _).places_bind fun _ => (idle_expect _ _).discard.places_bind fun _ =>
      places_readRange.bind fun range hi hrange => places_pure hrange.row
  · refine (idle_accept _).places_bind fun c => ?_
    split
    · exact places_readWhole.bind fun count hi hcount => (idle_expect _ _).discard.places_bind fun _ =>
        places_pure hcount.row
    · exact places_pure (.nil le_rfl)

theorem places_readVerb (ht : t ∈ src.marks) :
    Places src (t.column + 1) (readVerb src t) fun verb hi => Within src t.column hi verb.outline := by
  unfold readVerb
  split
  · exact places_pure (within_leaf ht le_rfl)
  · refine places_get_bind fun _ => (places_readItems _ (.nil le_rfl)).bind fun items hi ⟨hne, hitems⟩ => places_pure ?_
    exact .node ht le_rfl (Nat.lt_of_succ_lt (hitems.lt (by simpa using hne))) (hitems.widen (Nat.le_succ _) le_rfl)
  · refine places_readTarget.bind fun target mid htarget => (idle_expect _ _).discard.places_bind fun _ => ?_
    refine places_readWhole.bind fun e hi he => places_pure ?_
    have hparts : Row src (t.column + 1) hi [target.outline, e.outline] := .cons htarget he.row
    exact .node ht le_rfl (Nat.lt_of_succ_le hparts.le) (hparts.widen (Nat.le_succ _) le_rfl)
  · exact places_readDefinition ht
  · refine idle_readGoal.places_bind fun goal => places_readLoop.bind fun loop hi hloop => places_pure ?_
    exact .node ht le_rfl (Nat.lt_of_succ_le hloop.le) (hloop.widen (Nat.le_succ _) le_rfl)
  · exact ensures_fail
  · exact ensures_fail

theorem readCommand_within {s s' : Stream} {c : Command} (hs : s.From src lo) (hne : s.rest ≠ [])
    (hrun : (readCommand src).run s = (.ok c, s')) : ∃ hi, Within src lo hi c.outline ∧ s'.From src hi := by
  rw [readCommand, run_next_bind] at hrun
  have hbehind : Places src (s.peek.column + 1) (do
      let verb ← readVerb src s.peek
      if ← accept (.keyword .guard) then return Command.mk (src.at s.peek) verb (some (← readWhole src))
      else return Command.mk (src.at s.peek) verb none) fun c hi => Within src lo hi c.outline := by
    refine (places_readVerb hs.peek_mem).bind fun verb mid hverb => (idle_accept _).places_bind fun c => ?_
    split
    · refine places_readWhole.bind fun e hi he => places_pure ?_
      exact .node hs.peek_mem hs.le (hverb.lt.trans he.lt) (.cons hverb he.row)
    · exact places_pure (.node hs.peek_mem hs.le hverb.lt hverb.row)
  exact hbehind _ c s' (hs.next hne) hrun

theorem readLine_within {s s' : Stream} {l : Line} (hs : s.From src lo) (hne : s.peek.lexeme ≠ .finish)
    (hrun : (readLine src).run s = (.ok l, s')) : ∃ hi, Within src lo hi l.outline ∧ s'.From src hi := by
  have hrest := hs.ends.rest_ne_nil hne
  rw [readLine, run_peek_bind] at hrun
  split at hrun
  · next hfinish => exact absurd hfinish hne
  · rw [run_discard_next_bind] at hrun
    obtain ⟨number, s₁, hlift, hrun⟩ := run_bind_ok hrun
    have hs₁ := idle_liftNumber _ _ _ _ _ _ (hs.next hrest) hlift
    -- a period ends the command, so there is a token that it starts with
    obtain ⟨before, period, hend⟩ := readCommand_endsAt src hs₁.ends hrun
    have hrest₁ : s₁.rest ≠ [] := by
      rw [hend.tokens]
      exact List.append_ne_nil_of_right_ne_nil _ (List.cons_ne_nil _ _)
    obtain ⟨c, s₂, hcommand, hrun⟩ := run_bind_ok hrun
    obtain ⟨mid, hc, hs₂⟩ := readCommand_within hs₁ hrest₁ hcommand
    have hperiod : Places src mid (do
        discard (expectKind .endOfCommand .period)
        return Line.stored (src.at s.peek) number c) fun l hi => Within src lo hi l.outline := by
      refine (idle_expectKind _ _).discard.places_bind fun _ => places_pure ?_
      exact .node hs.peek_mem hs.le (Nat.lt_of_succ_lt hc.lt) (hc.row.widen (Nat.le_succ _) le_rfl)
    exact hperiod _ l s' hs₂ hrun
  · obtain ⟨c, s₂, hcommand, hrun⟩ := run_bind_ok hrun
    obtain ⟨mid, hc, hs₂⟩ := readCommand_within hs hrest hcommand
    have hperiod : Places src mid (do
        discard (expectKind .endOfCommand .period)
        return Line.direct c) fun l hi => Within src lo hi l.outline :=
      (idle_expectKind _ _).discard.places_bind fun _ => places_pure hc
    exact hperiod _ l s' hs₂ hrun

end

/-! ## Lines -/

theorem parse_comment {src : Source} (hc : isComment src.text = true) : Line.parse src =
    .ok (.direct ⟨src.at ⟨.finish, src.text.length + 1⟩, .blank (src.at ⟨.finish, src.text.length + 1⟩), none⟩) := by
  have htokens : tokensOf src.text = [] := by rw [tokensOf, if_pos hc]
  have hstream : Stream.ofLine src.text = { rest := [], finish := ⟨.finish, src.text.length + 1⟩ } := by
    rw [Stream.ofLine, htokens]
  rw [Line.parse, Line.read, hstream]
  rfl

theorem Source.mem_marks {src : Source} {t : Token} :
    t ∈ src.marks ↔ t ∈ tokensOf src.text ∨ t = ⟨.finish, src.text.length + 1⟩ := by
  show t ∈ tokensOf src.text ++ [_] ↔ _
  rw [List.mem_append, List.mem_singleton]
  rfl

theorem Source.column_le {src : Source} {t : Token} (ht : t ∈ src.marks) : t.column ≤ src.text.length + 1 := by
  rcases Source.mem_marks.mp ht with hmem | rfl
  · have hlast := (List.pairwise_append.mp src.marks_pairwise).2.2 t hmem _ (List.mem_singleton_self _)
    exact hlast.le
  · exact le_rfl

/-- **Places.** All nodes of a line that is read stand in this line, each at the column of a token, or at the end of a line
that has none. On the way through the tree the columns never decrease, and the parts of a node stand at columns that
grow. -/
theorem parse_places {src : Source} {l : Line} (h : Line.parse src = .ok l) :
    (∀ p ∈ l.outline.walk, p.file = src.file ∧ p.line = src.line ∧ p.statement = String.ofList (trim src.text) ∧
      ((∃ t ∈ tokensOf src.text, p.column = t.column) ∨ tokensOf src.text = [] ∧ p.column = src.text.length + 1)) ∧
    (l.outline.walk.map (·.column)).Pairwise (· ≤ ·) ∧
    ∀ o ∈ l.outline.nodes, (o.parts.map (·.pos.column)).Pairwise (· < ·) := by
  have hordered : ∃ lo hi, Outline.Ordered src lo hi l.outline.nodes ∧
      (hi ≤ src.text.length + 1 ∨ tokensOf src.text = []) := by
    cases hc : isComment src.text with
    | true =>
      obtain rfl := Except.ok.inj ((parse_comment hc).symm.trans h)
      have hmark : (⟨.finish, src.text.length + 1⟩ : Token) ∈ src.marks := Source.mem_marks.mpr (.inr rfl)
      have hwithin := Within.node hmark le_rfl (Nat.lt_succ_self _) (within_leaf hmark le_rfl).row
      exact ⟨_, _, hwithin.ordered, .inr (by rw [tokensOf, if_pos hc])⟩
    | false =>
      have hrun : (readLine src).run (Stream.ofLine src.text) = (.ok l, (Line.read src).2) := Prod.ext h rfl
      obtain ⟨hi, hwithin, hs⟩ := readLine_within (Stream.from_ofLine src) (peek_ofLine_ne_finish hc) hrun
      exact ⟨_, hi, hwithin.ordered, .inl (hs.le.trans (Source.column_le hs.peek_mem))⟩
  obtain ⟨lo, hi, hordered, hhi⟩ := hordered
  refine ⟨fun p hp => ?_, ?_, fun o ho => ?_⟩
  · obtain ⟨o, ho, rfl⟩ := List.mem_map.mp hp
    obtain ⟨t, ht, hpos⟩ := hordered.marks o ho
    have hlt := (hordered.bounds o ho).2
    rw [hpos] at hlt ⊢
    refine ⟨rfl, rfl, rfl, ?_⟩
    rcases Source.mem_marks.mp ht with hmem | rfl
    · exact .inl ⟨t, hmem, rfl⟩
    · exact .inr ⟨hhi.resolve_left (Nat.not_le_of_lt hlt), rfl⟩
  · rw [Outline.walk, List.map_map, List.pairwise_map]
    exact hordered.order
  · rw [List.pairwise_map]
    exact hordered.parts o ho

def nestedSource : Source :=
  ⟨"", 7, "  1.1 Do part 2 for i = -a[1], (x > 0: f(j = 1(2)3, k: j); 0)(.5)9 if g((i) = 1, y). ".toList⟩

theorem parse_places_nested :
    ∃ l, Line.parse nestedSource = .ok l ∧
      l.outline.walk.map (·.column) =
        [3, 7, 7, 25, 25, 25, 26, 28, 32, 33, 33, 37, 40, 46, 46, 48, 50, 53, 56, 60, 63, 66, 71, 74, 74, 79, 82] ∧
      (∀ p ∈ l.outline.walk, p.file = "" ∧ p.line = 7 ∧ p.statement = String.ofList (trim nestedSource.text) ∧
        ((∃ t ∈ tokensOf nestedSource.text, p.column = t.column) ∨
          tokensOf nestedSource.text = [] ∧ p.column = nestedSource.text.length + 1)) ∧
      (l.outline.walk.map (·.column)).Pairwise (· ≤ ·) ∧
      ∀ o ∈ l.outline.nodes, (o.parts.map (·.pos.column)).Pairwise (· < ·) := by
  have hcolumns : (Line.parse nestedSource).toOption.map (fun l => l.outline.walk.map (·.column)) =
      some [3, 7, 7, 25, 25, 25, 26, 28, 32, 33, 33, 37, 40, 46, 46, 48, 50, 53, 56, 60, 63, 66, 71, 74, 74, 79, 82] := by
    decide +kernel
  cases h : Line.parse nestedSource with
  | error e =>
    rw [h] at hcolumns
    cases hcolumns
  | ok l =>
    rw [h] at hcolumns
    exact ⟨l, rfl, Option.some.inj hcolumns, parse_places h⟩

end JossLang
