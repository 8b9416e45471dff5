import JossLang.Proofs.Precedence
import JossLang.Proofs.SpacedLines

/-!
# The period of a line

No verb, guard or step number takes a period, so a line is read up to its first one. What stands behind it is neither
read nor refused: a line that is read has been read to its end just when it has no period before its last token
(`parse_ok_period`).
-/

namespace JossLang

/-! ## Expressions -/

theorem period_not_mem_commaed {α : Type} {f : α → List Lexeme} {as : List α} (h : ∀ a ∈ as, .period ∉ f a) :
    .period ∉ commaed (as.map f) := by
  simpa [commaed] using h

theorem BranchPhrase.period_not_mem {p : BranchPhrase} (h : ∀ t ∈ p.chains, .period ∉ t.lexemes) :
    .period ∉ p.lexemes := by
  simpa [lexemes, chains] using h

theorem TermPhrase.period_not_mem : ∀ {p : TermPhrase}, (∀ t ∈ p.chains, .period ∉ t.lexemes) → .period ∉ p.lexemes
  | ⟨head, _, none⟩, h => h head List.mem_cons_self
  | ⟨head, _, some d⟩, h => by simpa [lexemes, chains] using h

mutual

theorem IsAtom.period_not_mem {a : Phrase} : IsAtom a → .period ∉ a.lexemes
  | .number _ _ => by simp
  | .name _ _ => by simp
  | .signed _ _ ha => by simpa using ha.period_not_mem
  | .group _ ht => by simpa using ht.period_not_mem
  | .conditional _ _ _ hp ht => by
    have hps := fun p hm => BranchPhrase.period_not_mem fun u hu => (hp p hm u hu).period_not_mem
    simpa using ⟨hps, ht.period_not_mem⟩
  | .call _ _ _ init last hi => by
    obtain ⟨hinit, hlast⟩ := List.forall_mem_append.mp fun t hm => (hi t hm).period_not_mem
    simpa using ⟨period_not_mem_commaed hinit, hlast last List.mem_cons_self⟩
  | .reduction _ _ _ _ _ init last _ hp hb => by
    obtain ⟨hinit, hlast⟩ :=
      List.forall_mem_append.mp fun p hm => TermPhrase.period_not_mem fun u hu => (hp p hm u hu).period_not_mem
    simpa using ⟨period_not_mem_commaed hinit, hlast last List.mem_cons_self, hb.period_not_mem⟩

theorem IsChain.period_not_mem {t : Chain} : IsChain t → .period ∉ t.lexemes
  | .mk _ ha => by
    obtain ⟨hfirst, hrest⟩ := List.forall_mem_cons.mp fun a hm => (ha a hm).period_not_mem
    rw [List.forall_mem_map] at hrest
    simpa [OperatorTree.lexemes, chained] using ⟨hfirst, fun o a hm => hrest (o, a) hm⟩

end

/-! ## Readers that take no period -/

structure Stream.Passes (s s' : Stream) : Prop where
  finish : s'.finish = s.finish
  tokens : ∃ ts : List Token, s.rest = ts ++ s'.rest ∧ ∀ t ∈ ts, t.lexeme ≠ .period

namespace Stream

variable {s s' s'' : Stream}

theorem Passes.refl (s : Stream) : s.Passes s := ⟨rfl, [], rfl, nofun⟩

theorem Passes.trans (h : s.Passes s') (h' : s'.Passes s'') : s.Passes s'' := by
  obtain ⟨hf, ts, hts, hp⟩ := h
  obtain ⟨hf', ts', hts', hp'⟩ := h'
  exact ⟨hf'.trans hf, ts ++ ts', by rw [hts, hts', List.append_assoc], List.forall_mem_append.mpr ⟨hp, hp'⟩⟩

theorem Passes.ends (h : s.Passes s') (hs : s.Ends) : s'.Ends := by
  rw [Ends, h.finish]
  exact hs

theorem Takes.passes {ls : List Lexeme} (h : s.Takes ls s') (hl : .period ∉ ls) : s.Passes s' := by
  obtain ⟨hf, ts, rfl, hr, -⟩ := h
  exact ⟨hf, ts, hr, fun t ht hp => hl (hp ▸ List.mem_map_of_mem ht)⟩

theorem passes_next (h : s.peek.lexeme ≠ .period) : s.Passes s.next.2 := by
  cases hr : s.rest with
  | nil => exact ⟨rfl, [], by simp [next, hr], nofun⟩
  | cons t ts =>
    rw [peek, hr, List.headD_cons] at h
    exact ⟨rfl, [t], by simp [next, hr], List.forall_mem_singleton.mpr h⟩

end Stream

def Spares {α : Type} (r : Reader α) : Prop := ∀ s a s', s.Ends → r.run s = (.ok a, s') → s.Passes s'

section
variable {α β : Type}

open Reader

theorem run_get_bind (f : Stream → Reader α) (s : Stream) : (get >>= f).run s = (f s).run s := rfl

theorem spares_pure (a : α) : Spares (pure a) := by
  rintro s _ _ - ⟨⟩
  exact .refl s

theorem spares_throw (e : ParseError) : Spares (throw e : Reader α) := by
  rintro _ _ _ - ⟨⟩

theorem spares_fail (cause : ParseCause) (t : Token) : Spares (fail cause t : Reader α) := spares_throw _

theorem Spares.bind {r : Reader α} {f : α → Reader β} (h : Spares r) (hf : ∀ a, Spares (f a)) : Spares (r >>= f) := by
  intro s b s' hs hrun
  obtain ⟨a, s₁, hr, hrun⟩ := run_bind_ok hrun
  have hpass := h s a s₁ hs hr
  exact hpass.trans (hf a s₁ b s' (hpass.ends hs) hrun)

theorem Spares.map {r : Reader α} (h : Spares r) (f : α → β) : Spares (do return f (← r)) :=
  h.bind fun _ => spares_pure _

theorem Spares.discard {r : Reader α} (h : Spares r) : Spares (discard r) := by
  rw [Functor.discard]
  exact h.bind fun _ => spares_pure _

theorem Spares.ite {c : Prop} [Decidable c] {r r' : Reader α} (h : Spares r) (h' : Spares r') :
    Spares (if c then r else r') := by
  split
  · exact h
  · exact h'

theorem spares_peek_bind {f : Token → Reader α} (h : ∀ t, Spares (f t)) : Spares (peek >>= f) := fun s => h s.peek s

theorem spares_get_bind {f : Stream → Reader α} (h : ∀ s, Spares (f s)) : Spares (get >>= f) := fun s => h s s

theorem spares_next_bind {f : Token → Reader α} (hf : ∀ t, Spares (f t))
    (hp : ∀ t s a s', t.lexeme = .period → (f t).run s ≠ (.ok a, s')) : Spares (next >>= f) := by
  intro s a s' hs hrun
  rw [run_next_bind] at hrun
  have hpass := Stream.passes_next fun h => hp _ _ _ _ h hrun
  exact hpass.trans (hf _ _ _ _ (hpass.ends hs) hrun)

theorem spares_taken {l : Lexeme} {s s' : Stream} {f : Unit → Reader α} {a : α} (hl : s.peek.lexeme = l) (hp : l ≠ .period)
    (hf : Spares (f ())) (hs : s.Ends) (hrun : (discard next >>= f).run s = (.ok a, s')) : s.Passes s' := by
  rw [run_discard_next_bind] at hrun
  have hpass := Stream.passes_next (hl ▸ hp)
  exact hpass.trans (hf _ _ _ (hpass.ends hs) hrun)

theorem spares_accept_bind {l : Lexeme} {r r' : Reader α} (hl : l ≠ .period) (h : Spares r) (h' : Spares r') :
    Spares (accept l >>= fun c => if c then r else r') := by
  refine Spares.bind ?_ fun _ => h.ite h'
  intro s a s' hs hrun
  rw [accept, run_peek_bind] at hrun
  split at hrun
  · next hp => exact spares_taken hp hl (spares_pure true) hs hrun
  · cases hrun
    exact .refl s

theorem spares_expect {place : Place} {l : Lexeme} (hl : l ≠ .period) : Spares (discard (expect place l)) := by
  refine Spares.discard (spares_next_bind (fun t => (spares_pure t).ite (spares_fail _ t)) ?_)
  intro t s a s' ht hrun
  rw [if_neg (by rw [ht]; exact hl.symm)] at hrun
  cases hrun

theorem spares_expectName (place : Place) : Spares (expectName place) := by
  refine spares_next_bind (fun t => ?_) fun t s a s' ht => by rw [ht]; nofun
  split
  · exact spares_pure _
  · exact spares_fail _ t

theorem spares_expectNumber (place : Place) : Spares (expectNumber place) := by
  refine spares_next_bind (fun t => ?_) fun t s a s' ht => by rw [ht]; nofun
  split
  · exact spares_pure _
  · exact spares_fail _ t

theorem spares_liftNumber (literal : String) (r : Except NumberFault α) : Spares (liftNumber literal r) := by
  cases r with
  | ok a => exact spares_pure a
  | error fault => exact spares_throw _

end

/-! ## Commands -/

section
variable (src : Source)

open Reader

theorem spares_readExpr (depth : Nat) : Spares (readExpr src depth) := by
  intro s e s' hs hrun
  obtain ⟨t, ht, -, htake, -⟩ := (readPhrases src depth).expr hs hrun
  exact htake.passes ht.period_not_mem

theorem spares_readReference (depth : Nat) : Spares (readReference src depth) := by
  intro s e s' hs hrun
  obtain ⟨a, ha, -, htake⟩ := (readPhrases src depth).reference hs hrun
  exact htake.passes ha.period_not_mem

theorem spares_readWhole : Spares (readWhole src) := spares_get_bind fun _ => spares_readExpr src _

theorem readTerm_passes {depth : Nat} {s s₁ s' : Stream} {e : Expr} {term : Term} (hs : s.Ends)
    (hstart : (readWhole src).run s = (.ok e, s₁)) (hrun : (readTerm src depth e).run s₁ = (.ok term, s')) :
    s.Passes s' := by
  rw [readWhole, run_get_bind] at hstart
  obtain ⟨t, ht, rfl, htake, -⟩ := (readPhrases src _).expr hs hstart
  obtain ⟨p, -, -, -, hchains, ls, hl, htake'⟩ := (readPhrases src depth).term (htake.ends hs) ht hrun
  have hp := TermPhrase.period_not_mem fun u hu => (hchains u hu).period_not_mem
  rw [hl, List.mem_append, not_or] at hp
  exact (htake.passes hp.1).trans (htake'.passes hp.2)

theorem spares_readTerms (depth : Nat) : ∀ terms, Spares (readTerms src depth terms) := by
  induction depth with
  | zero => exact fun _ => spares_throw _
  | succ depth ih =>
    intro terms s a s' hs hrun
    rw [readTerms, run_get_bind] at hrun
    obtain ⟨e, s₁, hstart, hrun⟩ := run_bind_ok hrun
    obtain ⟨term, s₂, hterm, hrun⟩ := run_bind_ok hrun
    have hpass := readTerm_passes src hs hstart hterm
    have hrest := spares_accept_bind (l := .comma) (by simp) (ih (term :: terms)) (spares_pure (term :: terms).reverse)
    exact hpass.trans (hrest _ _ _ (hpass.ends hs) hrun)

theorem spares_readRange : Spares (readRange src) :=
  spares_peek_bind fun _ => spares_get_bind fun _ => (spares_readTerms src _ _).bind fun _ =>
    spares_peek_bind fun _ => (spares_pure _).ite (spares_fail _ _)

theorem spares_readItem : Spares (readItem src) := by
  intro s a s' hs hrun
  rw [readItem, run_peek_bind] at hrun
  split at hrun
  · next hl => exact spares_taken (f := fun _ => pure (Item.quoted _ _)) hl (by simp) (spares_pure _) hs hrun
  iterate 5 exact (spares_readWhole src).map _ _ _ _ hs hrun
  · cases hrun

theorem spares_readItems (depth : Nat) : ∀ items, Spares (readItems src depth items) := by
  induction depth with
  | zero => exact fun _ => spares_throw _
  | succ depth ih =>
    exact fun items => (spares_readItem src).bind fun item =>
      spares_accept_bind (by simp) (ih (item :: items)) (spares_pure _)

theorem spares_readTarget : Spares (readTarget src) := by
  refine spares_peek_bind fun t => spares_get_bind fun s => (spares_readReference src _).bind fun e => ?_
  split
  · exact spares_pure _
  · exact spares_fail _ t

theorem spares_readParams (depth : Nat) : ∀ params, Spares (readParams depth params) := by
  induction depth with
  | zero => exact fun _ => spares_throw _
  | succ depth ih =>
    exact fun params => (spares_expectName _).bind fun p =>
      spares_accept_bind (by simp) (ih (p.1 :: params)) (spares_pure _)

theorem spares_readDefinition (pos : Location) : Spares (readDefinition src pos) := by
  refine (spares_expectName _).bind fun p => ?_
  have hbody : ∀ params, Spares (do
      discard (expect .afterDefined (.operator .eq))
      return Verb.define pos p.1 params (← readWhole src)) := fun params =>
    (spares_expect (by simp)).bind fun _ => (spares_readWhole src).map _
  intro s a s' hs hrun
  rw [run_peek_bind] at hrun
  dsimp only at hrun
  split at hrun
  · next b hb =>
    refine spares_taken hb (by simp) ?_ hs hrun
    exact spares_get_bind fun _ => (spares_readParams _ _).bind fun ps =>
      (spares_expect (by simp)).bind fun _ => (spares_pure ps).bind hbody
  · exact (spares_pure []).bind hbody _ _ _ hs hrun

theorem spares_readGoal : Spares readGoal := by
  refine spares_next_bind (fun t => ?_) fun t s a s' ht => by rw [ht]; nofun
  split
  · exact (spares_expectNumber _).bind fun literal => (spares_liftNumber literal _).map _
  · exact (spares_expectNumber _).bind fun literal => (spares_liftNumber literal _).map _
  · exact spares_fail _ t

theorem spares_readLoop : Spares (readLoop src) := by
  refine spares_accept_bind (by simp) ?_ (spares_accept_bind (by simp) ?_ (spares_pure Loop.once))
  · exact (spares_expectName _).bind fun _ => (spares_expect (by simp)).bind fun _ => (spares_readRange src).map _
  · exact (spares_readWhole src).bind fun _ => (spares_expect (by simp)).bind fun _ => spares_pure _

theorem spares_readVerb (t : Token) : Spares (readVerb src t) := by
  unfold readVerb
  split
  · exact spares_pure _
  · exact spares_get_bind fun s => (spares_readItems src _ _).map _
  · exact (spares_readTarget src).bind fun _ => (spares_expect (by simp)).bind fun _ => (spares_readWhole src).map _
  · exact spares_readDefinition src _
  · exact spares_readGoal.bind fun _ => (spares_readLoop src).map _
  · exact spares_fail _ t
  · exact spares_fail _ t

theorem spares_readCommand : Spares (readCommand src) := by
  refine spares_next_bind (fun t => (spares_readVerb src t).bind fun verb =>
    spares_accept_bind (by simp) ((spares_readWhole src).map _) (spares_pure _)) ?_
  intro t s a s' ht hrun
  obtain ⟨verb, s₁, hverb, -⟩ := run_bind_ok hrun
  rw [readVerb, ht] at hverb
  cases hverb

end

/-! ## Lines -/

/-- What is taken from `s` to `s'` ends with its first period. -/
structure Stream.EndsAt (s s' : Stream) (before : List Token) (period : Token) : Prop where
  tokens : s.rest = before ++ period :: s'.rest
  period : period.lexeme = .period
  first : ∀ t ∈ before, t.lexeme ≠ .period

theorem Stream.EndsAt.behind {s s₁ s' : Stream} {before : List Token} {period : Token} (h : s₁.EndsAt s' before period)
    (hpass : s.Passes s₁) : ∃ before, s.EndsAt s' before period := by
  obtain ⟨-, ts, hts, hts'⟩ := hpass
  exact ⟨ts ++ before, by rw [hts, h.tokens, List.append_assoc], h.period, List.forall_mem_append.mpr ⟨hts', h.first⟩⟩

theorem Lexeme.eq_period {l : Lexeme} (h : l.kind = .period) : l = .period := by
  cases l with
  | period => rfl
  | _ => cases h

variable (src : Source)

open Reader

theorem readCommand_endsAt {α : Type} {f : Command → α} {s s' : Stream} {a : α} (hs : s.Ends)
    (h : (do
      let command ← readCommand src
      discard (expectKind .endOfCommand .period)
      return f command : Reader α).run s = (.ok a, s')) :
    ∃ before period, s.EndsAt s' before period := by
  obtain ⟨command, s₁, hcommand, h⟩ := run_bind_ok h
  have hpass := spares_readCommand src _ _ _ hs hcommand
  obtain ⟨s₂, ⟨-, ts, hts, hrest, -⟩, h⟩ :=
    expectKind_bind_ok (l := .period) (hpass.ends hs) h (fun _ => Lexeme.eq_period) (by simp)
  obtain ⟨period, rfl, hperiod⟩ := List.map_eq_singleton_iff.mp hts
  obtain ⟨-, before, hbefore, hfirst⟩ := hpass
  cases h
  exact ⟨before, period, by rw [hbefore, hrest]; rfl, hperiod, hfirst⟩

theorem readLine_endsAt {s s' : Stream} {u : Line} (hs : s.Ends) (hne : s.peek.lexeme ≠ .finish)
    (h : (readLine src).run s = (.ok u, s')) : ∃ before period, s.EndsAt s' before period := by
  rw [readLine, run_peek_bind] at h
  split at h
  · next hfinish => exact absurd hfinish hne
  · next literal hnumber =>
    rw [run_discard_next_bind] at h
    obtain ⟨number, s₁, hlift, h⟩ := run_bind_ok h
    have hpass := (Stream.passes_next (s := s) (by simp [hnumber])).trans (spares_liftNumber _ _ _ _ _ hs hlift)
    obtain ⟨before, period, hend⟩ := readCommand_endsAt src (hpass.ends hs) h
    obtain ⟨before, hend⟩ := hend.behind hpass
    exact ⟨before, period, hend⟩
  · exact readCommand_endsAt src hs h

theorem peek_ofLine_ne_finish {text : List Char} (hc : isComment text = false) :
    (Stream.ofLine text).peek.lexeme ≠ .finish := by
  have htokens := tokensOf_eq hc
  obtain ⟨t, ts, hts⟩ := List.exists_cons_of_ne_nil (tokensOf_ne_nil hc)
  have hscanned := scanned_tokensFrom 1 text t (by rw [← htokens, hts]; exact List.mem_cons_self)
  rw [Stream.peek, Stream.ofLine, hts, List.headD_cons]
  intro hfinish
  rw [hfinish] at hscanned
  rcases hscanned with hsound | hother
  · exact hsound
  · cases hother

/-- Nothing stands behind the first period just when none stands before the last token. -/
theorem Stream.EndsAt.rest_eq_nil_iff {s s' : Stream} {before : List Token} {period : Token}
    (h : s.EndsAt s' before period) : s'.rest = [] ↔ ∀ t ∈ s.rest.dropLast, t.lexeme ≠ .period := by
  rw [h.tokens]
  constructor
  · intro hnil
    rw [hnil, List.dropLast_concat]
    exact h.first
  · intro hall
    by_contra hne
    rw [List.dropLast_append_cons, List.dropLast_cons_of_ne_nil hne] at hall
    exact hall period (by simp) h.period

/-- **First period.** A line that is read, blank ones and comments apart, has been read up to its first period, and
nothing is left of it just when no period stands in front of its last token. -/
theorem parse_ok_period {src : Source} {u : Line} (h : Line.parse src = .ok u) (hc : isComment src.text = false) :
    ∃ before period, tokensOf src.text = before ++ period :: (Line.read src).2.rest ∧
      period.lexeme = .period ∧ (∀ t ∈ before, t.lexeme ≠ .period) ∧
      ((Line.read src).2.rest = [] ↔ ∀ t ∈ (tokensOf src.text).dropLast, t.lexeme ≠ .period) := by
  have hrun : (readLine src).run (Stream.ofLine src.text) = (.ok u, (Line.read src).2) := Prod.ext h rfl
  have hs : (Stream.ofLine src.text).Ends := rfl
  obtain ⟨before, period, hend⟩ := readLine_endsAt src hs (peek_ofLine_ne_finish hc) hrun
  exact ⟨before, period, hend.tokens, hend.period, hend.first, hend.rest_eq_nil_iff⟩

def pointedSource : Source := ⟨"", 1, "1.1 Type .5, \"a. b\", x[1.5] if x > 2.".toList⟩

theorem parse_ok_period_pointed :
    isComment pointedSource.text = false ∧ (Line.parse pointedSource).toOption.isSome ∧
    ∃ before period, tokensOf pointedSource.text = before ++ period :: (Line.read pointedSource).2.rest ∧
      period.lexeme = .period ∧ (∀ t ∈ before, t.lexeme ≠ .period) ∧
      ((Line.read pointedSource).2.rest = [] ↔ ∀ t ∈ (tokensOf pointedSource.text).dropLast, t.lexeme ≠ .period) := by
  have hc : isComment pointedSource.text = false := by decide +kernel
  have hread : (Line.parse pointedSource).toOption.isSome := by decide +kernel
  cases h : Line.parse pointedSource with
  | error e => rw [h] at hread; cases hread
  | ok u => exact ⟨hc, rfl, parse_ok_period h hc⟩

def trailingSource : Source := ⟨"", 1, "Type 1. #".toList⟩

/-- The line is read, and the character behind its period is left. -/
theorem parse_trailing : ¬ ∀ (src : Source) (u : Line), Line.parse src = .ok u → isComment src.text = false →
    (Line.read src).2.rest = [] := by
  intro hall
  have hread : (Line.parse trailingSource).toOption.isSome := by decide +kernel
  cases h : Line.parse trailingSource with
  | error e => rw [h] at hread; cases hread
  | ok u => exact absurd (hall _ u h (by decide +kernel)) (by decide +kernel)

end JossLang
