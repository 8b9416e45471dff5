import JossLang.Proofs.Slices
import JossLang.Proofs.Takings

/-!
# Reading ends

Every rule that calls another one has taken a token before, or calls one of a lower rank, so the calls never nest deeper
than the tokens allow. A line is therefore read to a result or to an error of its own, and at most two tokens more are
asked for than it has: `parse_ends`.
-/

namespace JossLang

/-- What is wrong is in the line itself: it was raised by no extension, and is not that the calls nested too deeply. -/
def ParseCause.OfLine : ParseCause → Prop
  | .raised _ | .tooDeep => False
  | _ => True

theorem Stream.Takes.length {s s' : Stream} {ls : List Lexeme} (h : s.Takes ls s') :
    s'.rest.length + ls.length = s.rest.length ∧ s'.taken = s.taken + ls.length := by
  obtain ⟨-, ts, rfl, hr, ht⟩ := h
  rw [hr, ht]
  simp [Nat.add_comm]

/-! ## Readers that settle -/

/-- The reader has a result and has taken at least `k` tokens, or it refuses the line and has taken at most one token more
than there are. -/
def Settles {α : Type} (k : Nat) (r : Reader α) (s : Stream) : Prop :=
  match r.run s with
  | (.ok _, s') => ∃ ls, s.Takes ls s' ∧ k ≤ ls.length
  | (.error e, s') => e.cause.OfLine ∧ s'.taken ≤ s.taken + s.rest.length + 1

section
variable {α β : Type} {j k : Nat} {s s' : Stream}

open Reader

theorem settles_pure (a : α) (s : Stream) : Settles 0 (pure a) s := ⟨[], .refl s, Nat.zero_le _⟩

theorem settles_throw {e : ParseError} (he : e.cause.OfLine) (s : Stream) : Settles k (throw e : Reader α) s :=
  ⟨he, by show s.taken ≤ _; omega⟩

theorem settles_fail {cause : ParseCause} (hc : cause.OfLine) (t : Token) (s : Stream) :
    Settles k (fail cause t : Reader α) s := settles_throw (e := ⟨cause, some t.column⟩) hc s

theorem Settles.mono {r : Reader α} (h : Settles k r s) (hjk : j ≤ k) : Settles j r s := by
  unfold Settles at *
  split at h
  · obtain ⟨ls, htake, hle⟩ := h
    exact ⟨ls, htake, hjk.trans hle⟩
  · exact h

theorem Settles.of_run {r r' : Reader α} (h : Settles k r' s) (hrun : r.run s = r'.run s) : Settles k r s := by
  unfold Settles at *
  rwa [hrun]

theorem Settles.behind {ls : List Lexeme} (htake : s.Takes ls s') {r r' : Reader α} (hrun : r.run s = r'.run s')
    (h : Settles k r' s') : Settles (ls.length + k) r s := by
  obtain ⟨hlength, htaken⟩ := htake.length
  unfold Settles at *
  rw [hrun]
  split at h
  · obtain ⟨ms, htake', hle⟩ := h
    exact ⟨ls ++ ms, htake.trans htake', by rw [List.length_append]; omega⟩
  · exact ⟨h.1, by omega⟩

theorem settles_peek_bind {f : Token → Reader α} (h : Settles k (f s.peek) s) : Settles k (peek >>= f) s := h

theorem settles_get_bind {f : Stream → Reader α} (h : Settles k (f s) s) : Settles k (get >>= f) s := h

/-- The caret has no precedence, and is refused. -/
theorem settles_nextPrecedence_bind {f : Option (Operator × Nat) → Reader α}
    (hnone : s.peek.lexeme.kind ≠ .operator → Settles k (f none) s)
    (hsome : ∀ o, s.peek.lexeme = .operator o → Settles k (f (some (o, o.precedence))) s) :
    Settles k (nextPrecedence >>= f) s := by
  have hrun : (nextPrecedence >>= f).run s = _ := run_bind nextPrecedence f s
  rw [nextPrecedence, run_peek_bind] at hrun
  cases hl : s.peek.lexeme with
  | operator o =>
    rw [hl] at hrun
    exact (hsome o hl).of_run hrun
  | caret =>
    rw [hl] at hrun
    exact (settles_fail (by trivial) s.peek s).of_run hrun
  | _ =>
    rw [hl] at hrun
    exact (hnone (by rw [hl]; intro hk; cases hk)).of_run hrun

variable (hs : s.Ends)
include hs

theorem Settles.bind {r : Reader α} {f : α → Reader β} (h : Settles j r s)
    (hf : ∀ a s', s'.Ends → s'.rest.length + j ≤ s.rest.length → Settles (k - j) (f a) s') : Settles k (r >>= f) s := by
  have hrun := run_bind r f s
  unfold Settles at h
  split at h
  · next a s' hr =>
    obtain ⟨ls, htake, hle⟩ := h
    have hlength := htake.length.1
    rw [hr] at hrun
    exact ((hf a s' (htake.ends hs) (by omega)).behind htake hrun).mono (by omega)
  · next e s' hr =>
    rw [hr] at hrun
    unfold Settles
    rw [hrun]
    exact h

theorem Settles.discard {r : Reader α} (h : Settles k r s) : Settles k (discard r) s := by
  rw [Functor.discard]
  refine h.bind hs fun _ s' _ _ => ?_
  rw [Nat.sub_self]
  exact settles_pure _ s'

theorem settles_taken {l : Lexeme} (hl : s.peek.lexeme = l) (hf : l ≠ .finish) {f : Unit → Reader α}
    (h : ∀ s', s'.Ends → s'.rest.length + 1 ≤ s.rest.length → Settles (k - 1) (f ()) s') :
    Settles k (discard next >>= f) s := by
  have htake := hs.takes_next hl hf
  have hrest := h _ (htake.ends hs) htake.length.1.le
  exact (hrest.behind htake (run_discard_next_bind f)).mono (by rw [List.length_singleton]; omega)

theorem settles_accept_bind {l : Lexeme} (hl : l ≠ .finish) {r r' : Reader α}
    (h : ∀ s', s'.Ends → s'.rest.length + 1 ≤ s.rest.length → Settles (k - 1) r s') (h' : Settles k r' s) :
    Settles k (accept l >>= fun c => if c then r else r') s := by
  by_cases hp : s.peek.lexeme = l
  · have htake := hs.takes_next hp hl
    have hrun : (accept l >>= fun c => if c then r else r').run s = r.run s.next.2 := by
      rw [run_bind, accept, run_peek_bind, if_pos hp]
      rfl
    have hrest := h _ (htake.ends hs) htake.length.1.le
    exact (hrest.behind htake hrun).mono (by rw [List.length_singleton]; omega)
  · have hrun : (accept l >>= fun c => if c then r else r').run s = r'.run s := by
      rw [run_bind, accept, run_peek_bind, if_neg hp]
      rfl
    exact h'.of_run hrun

theorem settles_next {f : Token → Reader α}
    (h : (∃ a, f s.peek = pure a ∧ s.peek.lexeme ≠ .finish) ∨ ∃ c t, f s.peek = fail c t ∧ c.OfLine) :
    Settles 1 (next >>= f) s := by
  unfold Settles
  rw [run_next_bind]
  rcases h with ⟨a, ha, hne⟩ | ⟨c, t, hc, hcause⟩
  · rw [ha]
    exact ⟨_, hs.takes_next rfl hne, le_rfl⟩
  · rw [hc]
    exact ⟨hcause, by show s.taken + 1 ≤ _; omega⟩

theorem settles_next_bind {f : Token → Reader α}
    (hend : ∀ t, t.lexeme = .finish → ∃ c, f t = fail c t ∧ c.OfLine)
    (h : ∀ t s', s'.Ends → s'.rest.length + 1 ≤ s.rest.length → Settles (k - 1) (f t) s') : Settles k (next >>= f) s := by
  by_cases hp : s.peek.lexeme = .finish
  · obtain ⟨c, hc, hcause⟩ := hend s.peek hp
    unfold Settles
    rw [run_next_bind, hc]
    exact ⟨hcause, by show s.taken + 1 ≤ _; omega⟩
  · have htake := hs.takes_next rfl hp
    have hrest := h s.peek _ (htake.ends hs) htake.length.1.le
    exact (hrest.behind htake (run_next_bind f)).mono (by rw [List.length_singleton]; omega)

theorem settles_expect {l : Lexeme} (hl : l ≠ .finish) (place : Place) : Settles 1 (expect place l) s := by
  refine settles_next hs ?_
  by_cases hp : s.peek.lexeme = l
  · exact .inl ⟨s.peek, if_pos hp, hp ▸ hl⟩
  · exact .inr ⟨_, _, if_neg hp, trivial⟩

theorem settles_expectKind {k : Kind} (hk : k ≠ .finish) (place : Place) : Settles 1 (expectKind place k) s := by
  refine settles_next hs ?_
  by_cases hp : s.peek.lexeme.kind = k
  · exact .inl ⟨s.peek, if_pos hp, fun hf => hk (by rw [← hp, hf]; rfl)⟩
  · exact .inr ⟨_, _, if_neg hp, trivial⟩

theorem settles_expectName (place : Place) : Settles 1 (expectName place) s := by
  refine settles_next hs ?_
  split
  · next hp => exact .inl ⟨_, rfl, by simp [hp]⟩
  · exact .inr ⟨_, _, rfl, trivial⟩

theorem settles_expectNumber (place : Place) : Settles 1 (expectNumber place) s := by
  refine settles_next hs ?_
  split
  · next hp => exact .inl ⟨_, rfl, by simp [hp]⟩
  · exact .inr ⟨_, _, rfl, trivial⟩

end

/-! ## Expressions -/

section
variable (src : Source)

open Reader

/-- With a bound on the nesting that grows with the tokens left, the rules for expressions settle. A rule that calls
another one at the same token needs a higher bound than that one. -/
structure ReadersSettle (depth : Nat) : Prop where
  expr : ∀ {s}, s.Ends → 4 * s.rest.length + 3 ≤ depth → Settles 1 (readExpr src depth) s
  operand : ∀ {s}, s.Ends → 4 * s.rest.length + 2 ≤ depth → Settles 1 (readOperand src depth) s
  operators : ∀ {s} lhs least, s.Ends → 4 * s.rest.length + 1 ≤ depth → Settles 0 (readOperators src depth lhs least) s
  operators_next : ∀ {s} lhs least o, s.Ends → 4 * s.rest.length + 1 ≤ depth → s.peek.lexeme = .operator o →
    least ≤ o.precedence → Settles 1 (readOperators src depth lhs least) s
  tighter : ∀ {s} rhs than, s.Ends → 4 * s.rest.length + 2 ≤ depth → Settles 0 (readTighter src depth rhs than) s
  group : ∀ {s} pos b e branches, s.Ends → 4 * s.rest.length + 1 ≤ depth →
    Settles 1 (readGroup src depth pos b e branches) s
  reference : ∀ {s}, s.Ends → 4 * s.rest.length + 1 ≤ depth → Settles 1 (readReference src depth) s
  indices : ∀ {s} pos name b is, s.Ends → 4 * s.rest.length + 1 ≤ depth →
    Settles 1 (readIndices src depth pos name b is) s
  iterated : ∀ {s} pos name b v rangePos start terms is, s.Ends → 4 * s.rest.length + 2 ≤ depth →
    Settles 1 (readIterated src depth pos name b v rangePos start terms is) s
  term : ∀ {s} start, s.Ends → 4 * s.rest.length + 1 ≤ depth → Settles 0 (readTerm src depth start) s

theorem readersSettle_zero : ReadersSettle src 0 where
  expr := by omega
  operand := by omega
  operators := by omega
  operators_next := by omega
  tighter := by omega
  group := by omega
  reference := by omega
  indices := by omega
  iterated := by omega
  term := by omega

section
variable {src} {depth : Nat} (h : ReadersSettle src depth) {s : Stream} (hs : s.Ends)
include h hs

theorem ReadersSettle.expr_succ (hd : 4 * s.rest.length + 3 ≤ depth + 1) : Settles 1 (readExpr src (depth + 1)) s := by
  rw [readExpr]
  exact (h.operand hs (by omega)).bind hs fun e s' hs' hlt => h.operators e 0 hs' (by omega)

theorem ReadersSettle.operand_succ (hd : 4 * s.rest.length + 2 ≤ depth + 1) :
    Settles 1 (readOperand src (depth + 1)) s := by
  have hsigned : ∀ o, s.peek.lexeme = .operator o → Settles 1 (do
      discard next
      return Expr.binary (src.at s.peek) o (.number (src.at s.peek) 0) (← readOperand src depth)) s := fun o ho =>
    settles_taken hs ho (by simp) fun s' hs' hlt =>
      (h.operand hs' (by omega)).bind hs' fun e s'' _ _ => settles_pure _ s''
  rw [readOperand]
  refine settles_peek_bind ?_
  split
  · next l hl => exact settles_taken hs hl (by simp) fun s' _ _ => settles_pure _ s'
  · exact h.reference hs (by omega)
  · next b hb =>
    refine settles_taken hs hb (by simp) fun s' hs' hlt => ?_
    exact (h.expr hs' (by omega)).bind hs' fun e s'' hs'' hlt' => (h.group _ b e [] hs'' (by omega)).mono (by omega)
  · next ho => exact hsigned _ ho
  · next ho => exact hsigned _ ho
  · exact settles_fail (by trivial) _ s

theorem ReadersSettle.operators_next_succ (lhs : Expr) (least : Nat) {o : Operator}
    (hd : 4 * s.rest.length + 1 ≤ depth + 1) (ho : s.peek.lexeme = .operator o) (hle : least ≤ o.precedence) :
    Settles 1 (readOperators src (depth + 1) lhs least) s := by
  rw [readOperators]
  refine settles_nextPrecedence_bind (fun hk => absurd (by rw [ho]; rfl) hk) fun o' ho' => ?_
  obtain rfl : o = o' := by simpa [ho] using ho'
  dsimp only
  rw [if_neg (Nat.not_lt.mpr hle)]
  refine settles_taken hs ho (by simp) fun s₁ hs₁ h₁ => ?_
  refine (h.operand hs₁ (by omega)).bind hs₁ fun e s₂ hs₂ h₂ => ?_
  refine (h.tighter e o.precedence hs₂ (by omega)).bind hs₂ fun rhs s₃ hs₃ h₃ => ?_
  exact (h.operators _ least hs₃ (by omega)).mono (by omega)

theorem ReadersSettle.operators_succ (lhs : Expr) (least : Nat) (hd : 4 * s.rest.length + 1 ≤ depth + 1) :
    Settles 0 (readOperators src (depth + 1) lhs least) s := by
  by_cases hnext : ∃ o, s.peek.lexeme = .operator o ∧ least ≤ o.precedence
  · obtain ⟨o, ho, hle⟩ := hnext
    exact (h.operators_next_succ hs lhs least hd ho hle).mono (by omega)
  · rw [readOperators]
    refine settles_nextPrecedence_bind (fun _ => settles_pure lhs s) fun o ho => ?_
    dsimp only
    rw [if_pos (Nat.not_le.mp fun hle => hnext ⟨o, ho, hle⟩)]
    exact settles_pure lhs s

theorem ReadersSettle.tighter_succ (rhs : Expr) (than : Nat) (hd : 4 * s.rest.length + 2 ≤ depth + 1) :
    Settles 0 (readTighter src (depth + 1) rhs than) s := by
  rw [readTighter]
  refine settles_nextPrecedence_bind (fun _ => settles_pure rhs s) fun o ho => ?_
  dsimp only
  split
  · refine (h.operators_next rhs o.precedence o hs (by omega) ho (Nat.le_refl _)).bind hs fun e s₁ hs₁ h₁ => ?_
    exact (h.tighter e than hs₁ (by omega)).mono (by omega)
  · exact settles_pure rhs s

theorem ReadersSettle.group_succ (pos : Location) (b : Bracket) (e : Expr) (branches : List Branch)
    (hd : 4 * s.rest.length + 1 ≤ depth + 1) : Settles 1 (readGroup src (depth + 1) pos b e branches) s := by
  rw [readGroup]
  refine settles_accept_bind hs (by simp) (fun s₁ hs₁ h₁ => ?_) ?_
  · refine (h.expr hs₁ (by omega)).bind hs₁ fun result s₂ hs₂ h₂ => ?_
    refine (settles_expectKind hs₂ (by decide) _).discard hs₂ |>.bind hs₂ fun _ s₃ hs₃ h₃ => ?_
    refine (h.expr hs₃ (by omega)).bind hs₃ fun e' s₄ hs₄ h₄ => ?_
    exact (h.group pos b e' _ hs₄ (by omega)).mono (by omega)
  · refine ((settles_expect hs (by simp) _).discard hs).bind hs fun _ s₁ _ _ => ?_
    exact settles_pure _ s₁

theorem ReadersSettle.indices_succ (pos : Location) (name : String) (b : Bracket) (is : List Expr)
    (hd : 4 * s.rest.length + 1 ≤ depth + 1) : Settles 1 (readIndices src (depth + 1) pos name b is) s := by
  rw [readIndices]
  refine settles_accept_bind hs (by simp) (fun s₁ hs₁ h₁ => ?_) ?_
  · refine (h.expr hs₁ (by omega)).bind hs₁ fun e s₂ hs₂ h₂ => ?_
    exact (h.indices pos name b _ hs₂ (by omega)).mono (by omega)
  · refine ((settles_expect hs (by simp) _).discard hs).bind hs fun _ s₁ _ _ => ?_
    exact settles_pure _ s₁

theorem ReadersSettle.term_succ (start : Expr) (hd : 4 * s.rest.length + 1 ≤ depth + 1) :
    Settles 0 (readTerm src (depth + 1) start) s := by
  rw [readTerm]
  refine settles_peek_bind ?_
  split
  · next b hb =>
    refine settles_taken hs hb (by simp) fun s₁ hs₁ h₁ => ?_
    refine (h.expr hs₁ (by omega)).bind hs₁ fun step s₂ hs₂ h₂ => ?_
    refine ((settles_expect hs₂ (by simp) _).discard hs₂).bind hs₂ fun _ s₃ hs₃ h₃ => ?_
    exact (h.expr hs₃ (by omega)).bind hs₃ fun stop s₄ _ _ => settles_pure _ s₄
  · exact settles_pure _ s

theorem ReadersSettle.iterated_succ (pos : Location) (name : String) (b : Bracket) (v : String) (rangePos : Location)
    (start : Expr) (terms : List Term) (is : List Expr) (hd : 4 * s.rest.length + 2 ≤ depth + 1) :
    Settles 1 (readIterated src (depth + 1) pos name b v rangePos start terms is) s := by
  rw [readIterated]
  refine (h.term start hs (by omega)).bind hs fun term s₁ hs₁ h₁ => ?_
  refine settles_accept_bind hs₁ (by simp) (fun s₂ hs₂ h₂ => ?_) ?_
  · refine (h.expr hs₂ (by omega)).bind hs₂ fun e s₃ hs₃ h₃ => ?_
    exact (h.iterated pos name b v rangePos e _ _ hs₃ (by omega)).mono (by omega)
  · refine settles_peek_bind ?_
    dsimp only
    split
    · next hcolon =>
      refine settles_taken hs₁ hcolon (by simp) fun s₂ hs₂ h₂ => ?_
      refine (h.expr hs₂ (by omega)).bind hs₂ fun body s₃ hs₃ h₃ => ?_
      exact ((settles_expect hs₃ (by simp) _).discard hs₃).bind hs₃ fun _ s₄ _ _ => (settles_pure _ s₄).mono (by omega)
    · split
      · next hplain => exact settles_taken hs₁ hplain.2 (by simp) fun s₂ _ _ => settles_pure _ s₂
      · exact settles_fail (by trivial) _ s₁

theorem ReadersSettle.reference_succ (hd : 4 * s.rest.length + 1 ≤ depth + 1) :
    Settles 1 (readReference src (depth + 1)) s := by
  rw [readReference]
  refine (settles_expectName hs _).bind hs fun p s₁ hs₁ h₁ => ?_
  refine settles_peek_bind ?_
  split
  · next b hb =>
    refine settles_taken hs₁ hb (by simp) fun s₂ hs₂ h₂ => ?_
    refine (h.expr hs₂ (by omega)).bind hs₂ fun first s₃ hs₃ h₃ => ?_
    split
    · exact (h.iterated _ _ b _ _ _ [] [first] hs₃ (by omega)).mono (by omega)
    · exact (h.indices _ _ b [first] hs₃ (by omega)).mono (by omega)
  · exact settles_pure _ s₁

end

theorem readersSettle (depth : Nat) : ReadersSettle src depth := by
  induction depth with
  | zero => exact readersSettle_zero src
  | succ depth ih =>
    exact {
      expr := fun hs => ih.expr_succ hs
      operand := fun hs => ih.operand_succ hs
      operators := fun lhs least hs => ih.operators_succ hs lhs least
      operators_next := fun lhs least _ hs hd => ih.operators_next_succ hs lhs least hd
      tighter := fun rhs than hs => ih.tighter_succ hs rhs than
      group := fun pos b e branches hs => ih.group_succ hs pos b e branches
      reference := fun hs => ih.reference_succ hs
      indices := fun pos name b is hs => ih.indices_succ hs pos name b is
      iterated := fun pos name b v rangePos start terms is hs => ih.iterated_succ hs pos name b v rangePos start terms is
      term := fun start hs => ih.term_succ hs start }

/-! ## Commands -/

section
variable {s : Stream} (hs : s.Ends)
include hs

theorem settles_readWhole : Settles 1 (readWhole src) s :=
  settles_get_bind ((readersSettle src _).expr hs (by unfold nestingBound; omega))

theorem settles_readItem : Settles 1 (readItem src) s := by
  have hwhole : ∀ p, Settles 1 (do return Item.numeric p (← readWhole src)) s := fun p =>
    (settles_readWhole src hs).bind hs fun e s₁ _ _ => settles_pure _ s₁
  rw [readItem]
  refine settles_peek_bind ?_
  split
  · next hl => exact settles_taken hs hl (by simp) fun s₁ _ _ => settles_pure _ s₁
  iterate 5 exact hwhole _
  · exact settles_fail (by trivial) _ s

omit hs in
theorem settles_readItems (depth : Nat) : ∀ {s : Stream} (items : List Item), s.Ends → s.rest.length + 1 ≤ depth →
    Settles 1 (readItems src depth items) s := by
  induction depth with
  | zero => omega
  | succ depth ih =>
    intro s items hs hd
    refine (settles_readItem src hs).bind hs fun item s₁ hs₁ h₁ => ?_
    exact settles_accept_bind hs₁ (by simp) (fun s₂ hs₂ h₂ => (ih _ hs₂ (by omega)).mono (by omega)) (settles_pure _ s₁)

theorem settles_readTarget : Settles 1 (readTarget src) s := by
  rw [readTarget]
  refine settles_peek_bind (settles_get_bind ?_)
  refine ((readersSettle src _).reference hs (by unfold nestingBound; omega)).bind hs fun e s₁ _ _ => ?_
  split
  · exact settles_pure _ s₁
  · exact settles_fail (by trivial) _ s₁

omit hs in
theorem settles_readParams (depth : Nat) : ∀ {s : Stream} (params : List String), s.Ends → s.rest.length + 1 ≤ depth →
    Settles 1 (readParams depth params) s := by
  induction depth with
  | zero => omega
  | succ depth ih =>
    intro s params hs hd
    refine (settles_expectName hs _).bind hs fun p s₁ hs₁ h₁ => ?_
    exact settles_accept_bind hs₁ (by simp) (fun s₂ hs₂ h₂ => (ih _ hs₂ (by omega)).mono (by omega)) (settles_pure _ s₁)

theorem settles_readDefinition (pos : Location) : Settles 0 (readDefinition src pos) s := by
  rw [readDefinition]
  refine (settles_expectName hs _).bind hs fun p s₁ hs₁ h₁ => ?_
  have hbody : ∀ params {s' : Stream}, s'.Ends → Settles 0 (do
      discard (expect .afterDefined (.operator .eq))
      return Verb.define pos p.1 params (← readWhole src)) s' := fun params s' hs' =>
    ((settles_expect hs' (by simp) _).discard hs').bind hs' fun _ s₂ hs₂ _ =>
      (settles_readWhole src hs₂).bind hs₂ fun _ s₃ _ _ => settles_pure _ s₃
  refine settles_peek_bind ?_
  dsimp only
  split
  · next b hb =>
    refine settles_taken hs₁ hb (by simp) fun s₂ hs₂ h₂ => settles_get_bind ?_
    refine (settles_readParams _ [] hs₂ (by unfold nestingBound; omega)).bind hs₂ fun ps s₃ hs₃ h₃ => ?_
    exact ((settles_expect hs₃ (by simp) _).discard hs₃).bind hs₃ fun _ s₄ hs₄ _ => hbody ps hs₄
  · exact hbody [] hs₁

omit hs in
theorem settles_liftNumber {α : Type} (literal : String) (e : Except NumberFault α) (s : Stream) :
    Settles 0 (liftNumber literal e) s := by
  cases e with
  | ok a => exact settles_pure a s
  | error fault => exact settles_throw (e := ⟨.badNumber fault literal, none⟩) trivial s

theorem settles_readGoal : Settles 0 readGoal s := by
  have hnumber : ∀ {α : Type} (place : Place) (number : String → Except NumberFault α) (goal : α → Goal) {s' : Stream},
      s'.Ends → Settles 0 (do
        let literal ← expectNumber place
        return goal (← liftNumber literal (number literal))) s' := fun place number goal s' hs' =>
    (settles_expectNumber hs' place).bind hs' fun literal s₁ hs₁ _ =>
      (settles_liftNumber literal _ s₁).bind hs₁ fun a s₂ _ _ => settles_pure _ s₂
  rw [readGoal]
  refine settles_next_bind hs (fun t ht => ⟨.noDoTarget, by rw [ht], trivial⟩) fun t s₁ hs₁ _ => ?_
  split
  · exact hnumber _ _ _ hs₁
  · exact hnumber _ _ _ hs₁
  · exact settles_fail (by trivial) t s₁

omit hs in
theorem settles_readTerms (depth : Nat) : ∀ {s : Stream} (terms : List Term), s.Ends → s.rest.length + 1 ≤ depth →
    Settles 1 (readTerms src depth terms) s := by
  induction depth with
  | zero => omega
  | succ depth ih =>
    intro s terms hs hd
    refine settles_get_bind ((settles_readWhole src hs).bind hs fun e s₁ hs₁ h₁ => ?_)
    refine ((readersSettle src _).term e hs₁ (by unfold nestingBound; omega)).bind hs₁ fun term s₂ hs₂ h₂ => ?_
    exact settles_accept_bind hs₂ (by simp) (fun s₃ hs₃ h₃ => (ih _ hs₃ (by omega)).mono (by omega)) (settles_pure _ s₂)

theorem settles_readRange : Settles 1 (readRange src) s := by
  rw [readRange]
  refine settles_peek_bind (settles_get_bind ?_)
  refine (settles_readTerms src _ [] hs (by unfold nestingBound; omega)).bind hs fun ts s₁ _ _ => ?_
  refine settles_peek_bind ?_
  split
  · exact settles_pure _ s₁
  · exact settles_fail (by trivial) _ s₁

theorem settles_readLoop : Settles 0 (readLoop src) s := by
  rw [readLoop]
  refine settles_accept_bind hs (by simp) (fun s₁ hs₁ h₁ => ?_) ?_
  · refine (settles_expectName hs₁ _).bind hs₁ fun p s₂ hs₂ h₂ => ?_
    refine ((settles_expect hs₂ (by simp) _).discard hs₂).bind hs₂ fun _ s₃ hs₃ h₃ => ?_
    exact (settles_readRange src hs₃).bind hs₃ fun r s₄ _ _ => settles_pure _ s₄
  · refine settles_accept_bind hs (by simp) (fun s₁ hs₁ h₁ => ?_) (settles_pure _ s)
    refine (settles_readWhole src hs₁).bind hs₁ fun e s₂ hs₂ h₂ => ?_
    exact ((settles_expect hs₂ (by simp) _).discard hs₂).bind hs₂ fun _ s₃ _ _ => settles_pure _ s₃

theorem settles_readVerb (t : Token) : Settles 0 (readVerb src t) s := by
  unfold readVerb
  split
  · exact settles_pure _ s
  · refine settles_get_bind ((settles_readItems src _ [] hs (by unfold nestingBound; omega)).bind hs fun is s₁ _ _ => ?_)
    exact settles_pure _ s₁
  · refine (settles_readTarget src hs).bind hs fun target s₁ hs₁ h₁ => ?_
    refine ((settles_expect hs₁ (by simp) _).discard hs₁).bind hs₁ fun _ s₂ hs₂ h₂ => ?_
    exact (settles_readWhole src hs₂).bind hs₂ fun e s₃ _ _ => settles_pure _ s₃
  · exact settles_readDefinition src hs _
  · refine (settles_readGoal hs).bind hs fun goal s₁ hs₁ _ => ?_
    exact (settles_readLoop src hs₁).bind hs₁ fun loop s₂ _ _ => settles_pure _ s₂
  · exact settles_fail (by trivial) _ s
  · exact settles_fail (by trivial) _ s

end

/-! ## Lines -/

section
variable {s : Stream}

theorem settles_readCommand (hs : s.Ends) (hp : s.peek.lexeme ≠ .finish) : Settles 1 (readCommand src) s := by
  have htake := hs.takes_next rfl hp
  have hs₁ := htake.ends hs
  refine Settles.behind htake (run_next_bind _) (k := 0) ?_
  refine (settles_readVerb src hs₁ s.peek).bind hs₁ fun verb s₂ hs₂ _ => ?_
  refine settles_accept_bind hs₂ (by simp) (fun s₃ hs₃ _ => ?_) (settles_pure _ s₂)
  exact (settles_readWhole src hs₃).bind hs₃ fun e s₄ _ _ => settles_pure _ s₄

def Finishes {α : Type} (r : Reader α) (s : Stream) : Prop :=
  match r.run s with
  | (.ok _, s') => s'.taken ≤ s.taken + s.rest.length
  | (.error e, s') => e.cause.OfLine ∧ s'.taken ≤ s.taken + s.rest.length + 2

theorem Settles.finishes {α : Type} {k : Nat} {r : Reader α} (h : Settles k r s) : Finishes r s := by
  unfold Settles at h
  unfold Finishes
  split at h
  · obtain ⟨ls, htake, -⟩ := h
    have := htake.length
    show _ ≤ _
    omega
  · exact ⟨h.1, by omega⟩

theorem Finishes.behind {α : Type} {s' : Stream} {ls : List Lexeme} (htake : s.Takes ls s') {r r' : Reader α}
    (hrun : r.run s = r'.run s') (h : Finishes r' s') : Finishes r s := by
  have := htake.length
  unfold Finishes at *
  rw [hrun]
  split at h
  · show _ ≤ _
    omega
  · exact ⟨h.1, by omega⟩

theorem peek_next_of_finish (hs : s.Ends) (hrest : ∀ t ∈ s.rest, t.lexeme ≠ .finish) (hp : s.peek.lexeme = .finish) :
    s.next.2.peek.lexeme = .finish := by
  have hnil : s.rest = [] := by
    cases h : s.rest with
    | nil => rfl
    | cons t ts =>
      rw [Stream.peek, h, List.headD_cons] at hp
      exact absurd hp (hrest t (by simp [h]))
  show (s.rest.tail.headD s.finish).lexeme = .finish
  rw [hnil]
  exact hs

theorem readCommand_of_finish (hp : s.peek.lexeme = .finish) (hp' : s.next.2.peek.lexeme = .finish) :
    (readCommand src).run s = (.ok ⟨src.at s.peek, .blank (src.at s.peek), none⟩, s.next.2) := by
  rw [readCommand, run_next_bind, readVerb, hp]
  show ((accept (.keyword .guard) >>= _ : Reader Command)).run s.next.2 = _
  rw [run_bind, accept, run_peek_bind, hp']
  rfl

theorem expectPeriod_of_finish (hp : s.peek.lexeme = .finish) : (discard (expectKind .endOfCommand .period)).run s =
    (.error ⟨.unexpected .endOfCommand (.kind .period) .finish, some s.peek.column⟩, s.next.2) := by
  rw [Functor.discard]
  show (expectKind _ _ >>= fun _ => pure ()).run s = _
  rw [run_bind, expectKind, run_next_bind, hp]
  rfl

/-- A command can be blank where no token is left; then the period is missed. -/
theorem finishes_command {α : Type} (f : Command → α) (hs : s.Ends) (hrest : ∀ t ∈ s.rest, t.lexeme ≠ .finish) :
    Finishes (do
      let command ← readCommand src
      discard (expectKind .endOfCommand .period)
      return f command) s := by
  by_cases hp : s.peek.lexeme = .finish
  · have hp' := peek_next_of_finish hs hrest hp
    unfold Finishes
    rw [run_bind, readCommand_of_finish src hp hp']
    dsimp only
    rw [run_bind, expectPeriod_of_finish hp']
    exact ⟨trivial, by show s.taken + 1 + 1 ≤ _; omega⟩
  · refine Settles.finishes (k := 2) ?_
    refine (settles_readCommand src hs hp).bind hs fun command s₁ hs₁ _ => ?_
    exact ((settles_expectKind hs₁ (by decide) _).discard hs₁).bind hs₁ fun _ s₂ _ _ => settles_pure _ s₂

theorem finishes_readLine (hs : s.Ends) (hrest : ∀ t ∈ s.rest, t.lexeme ≠ .finish) : Finishes (readLine src) s := by
  rw [readLine]
  refine Finishes.behind (.refl s) (run_peek_bind _) ?_
  split
  · exact (settles_pure _ s).finishes
  · next literal hl =>
    have htake := hs.takes_next hl (by simp)
    refine Finishes.behind htake (run_discard_next_bind _) ?_
    cases StepNumber.ofLiteral literal with
    | error fault => exact (settles_throw (k := 0) (e := ⟨.badNumber fault literal, none⟩) trivial s.next.2).finishes
    | ok number => exact finishes_command src _ (htake.ends hs) fun t ht => hrest t (List.mem_of_mem_tail ht)
  · exact finishes_command src _ hs hrest

end

end

/-! ## What is looked up -/

structure Lexeme.Resolves (l : Lexeme) : Prop where
  bracket : l.kind = .opening → ∃ b : Bracket, l = .opening b ∧ l.spelling = b.opening
  precedence : l.kind = .operator → (∃ o : Operator, l = .operator o ∧ l.spelling = o.spelling) ∨ l.spelling = "^"
  number : l.kind = .number → Numeral l.spelling.toList

theorem Lexeme.Scanned.resolves {l : Lexeme} (h : l.Scanned) : l.Resolves := by
  refine ⟨fun hk => ?_, fun hk => ?_, h.classified.number⟩
  · cases l with
    | opening b => exact ⟨b, rfl, rfl⟩
    | _ => cases hk
  · cases l with
    | operator o => exact .inl ⟨o, rfl, rfl⟩
    | caret => exact .inr rfl
    | _ => cases hk

theorem Lexeme.Scanned.ne_finish {l : Lexeme} (h : l.Scanned) : l ≠ .finish := by
  rintro rfl
  rcases h with h | h
  · exact h
  · cases h

theorem scanned_tokensOf (text : List Char) : ∀ t ∈ tokensOf text, t.lexeme.Scanned := by
  unfold tokensOf
  split
  · nofun
  · exact scanned_tokensFrom 1 text

/-- **Reading ends.** Every line is read, with no token beyond its last one, or has an error of its own, with at most two
tokens beyond the last one. The calls do not nest too deeply, and what they look up for a token is there. -/
theorem parse_ends (src : Source) :
    ((∃ u, Line.parse src = .ok u ∧ (Line.read src).2.taken ≤ (tokensOf src.text).length) ∨
      ∃ e, Line.parse src = .error e ∧ e.cause.OfLine ∧ (Line.read src).2.taken ≤ (tokensOf src.text).length + 2) ∧
    ∀ t ∈ tokensOf src.text, t.lexeme.Resolves := by
  have hscanned := scanned_tokensOf src.text
  have hs : (Stream.ofLine src.text).Ends := rfl
  have hread := finishes_readLine src hs fun t ht => (hscanned t ht).ne_finish
  have htaken : (Stream.ofLine src.text).taken + (Stream.ofLine src.text).rest.length = (tokensOf src.text).length :=
    Nat.zero_add _
  refine ⟨?_, fun t ht => (hscanned t ht).resolves⟩
  unfold Finishes at hread
  rw [htaken] at hread
  rw [Line.parse, Line.read]
  split at hread
  · next u s hrun =>
    rw [hrun]
    exact .inl ⟨u, rfl, hread⟩
  · next e s hrun =>
    rw [hrun]
    exact .inr ⟨e, rfl, hread⟩

/-- Two tokens more are asked for when a number stands alone: the command, and the period. -/
example : (Line.read ⟨"", 1, "1.1".toList⟩).2.taken = (tokensOf "1.1".toList).length + 2 := by decide +kernel

end JossLang
