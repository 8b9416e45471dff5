import JossLang.Proofs.LineRereading
import JossLang.Proofs.ReadingImage
import JossLang.Proofs.Spellings

/-!
# What reading a line gives

Whatever line is read can be written with sound lexemes and at most one text,
and its step and part numbers name themselves: `ensures_readLine`.

A text counts against the texts that are left in the line. A blank verb is read
only at the end of a line, where no period follows.
-/

namespace JossLang

/-! ## Lexemes with texts -/

def Fits (n : Nat) (ls : List Lexeme) : Prop := (∀ l ∈ ls, l.Sound) ∧ ls.countP (·.kind = .text) ≤ n

theorem Plain.fits {ls : List Lexeme} (h : Plain ls) : Fits 0 ls := by
  refine ⟨fun l hl => (h l hl).1, (List.countP_eq_zero.mpr fun l hl => ?_).le⟩
  simpa using (h l hl).2

theorem Fits.append {n m : Nat} {ls ms : List Lexeme} (h : Fits n ls) (h' : Fits m ms) : Fits (n + m) (ls ++ ms) := by
  refine ⟨List.forall_mem_append.mpr ⟨h.1, h'.1⟩, ?_⟩
  rw [List.countP_append]
  exact Nat.add_le_add h.2 h'.2

theorem Fits.mono {n m : Nat} {ls : List Lexeme} (h : Fits n ls) (hnm : n ≤ m) : Fits m ls := ⟨h.1, h.2.trans hnm⟩

theorem Fits.cons {n : Nat} {l : Lexeme} {ls : List Lexeme} (hs : l.Sound) (hl : l.kind ≠ .text) (h : Fits n ls) :
    Fits n (l :: ls) := by
  refine ⟨List.forall_mem_cons.mpr ⟨hs, h.1⟩, ?_⟩
  rw [List.countP_cons, if_neg (by simpa using hl)]
  exact h.2

theorem Fits.append_plain {n : Nat} {ls ms : List Lexeme} (h : Fits n ls) (h' : Plain ms) : Fits n (ls ++ ms) :=
  h.append h'.fits

/-! ## Lines that can be written -/

def Item.texts : Item → Nat
  | .quoted _ _ => 1
  | .numeric _ _ => 0

def Item.Sayable (i : Item) : Prop := ∃ ls, i.Writes ls ∧ Fits i.texts ls

def Loop.Sayable (loop : Loop) : Prop := ∃ ls, loop.Writes ls ∧ Plain ls

def Goal.Sayable (goal : Goal) : Prop := goal.NamesItself ∧ Plain goal.lexemes

structure Verb.Sayable (n : Nat) (v : Verb) : Prop where
  writes : ∃ ls, v.Writes ls ∧ Fits n ls
  names : ∀ pos goal loop, v = .perform pos goal loop → goal.NamesItself

structure Command.Sayable (n : Nat) (c : Command) : Prop where
  writes : ∃ ls, c.Writes ls ∧ Fits n ls
  names : c.NamesItself

structure Line.Sayable (n : Nat) (u : Line) : Prop where
  writes : ∃ ls, u.Writes ls ∧ Fits n ls
  names : u.NamesItself

theorem Verb.Sayable.mono {n m : Nat} {v : Verb} (h : v.Sayable n) (hnm : n ≤ m) : v.Sayable m := by
  obtain ⟨⟨ls, hw, hl⟩, hnames⟩ := h
  exact ⟨⟨ls, hw, hl.mono hnm⟩, hnames⟩

theorem sayable_items {is : List Item} (hi : ∀ i ∈ is, i.Sayable) :
    ∃ ls, writesItems is ls ∧ Fits (is.map Item.texts).sum ls := by
  induction is with
  | nil => exact ⟨[], rfl, plain_nil.fits⟩
  | cons i is ih =>
    obtain ⟨⟨li, hw, hl⟩, hi⟩ := List.forall_mem_cons.mp hi
    obtain ⟨lr, hwr, hlr⟩ := ih hi
    refine ⟨_, ⟨li, lr, hw, hwr, rfl⟩, ?_⟩
    rw [List.map_cons, List.sum_cons]
    exact Fits.cons trivial (by simp [Lexeme.kind]) (hl.append hlr)

theorem sayable_type {n : Nat} (pos : Location) {items : List Item} (hne : items ≠ []) (hi : ∀ i ∈ items, i.Sayable)
    (hn : (items.map Item.texts).sum ≤ n) : (Verb.type pos items).Sayable n := by
  obtain ⟨i, is, rfl⟩ := List.exists_cons_of_ne_nil hne
  obtain ⟨⟨li, hw, hl⟩, hi⟩ := List.forall_mem_cons.mp hi
  obtain ⟨lr, hwr, hlr⟩ := sayable_items hi
  have hfits : Fits n (li ++ lr) := (hl.append hlr).mono (by simpa using hn)
  exact ⟨⟨_, ⟨li, lr, hw, hwr, rfl⟩, Fits.cons trivial (by simp [Lexeme.kind]) hfits⟩, by simp⟩

theorem sayable_set (pos : Location) {target : Target}
    (ht : (Expr.reference target.pos target.name target.indices).Sayable) {value : Expr} (hv : value.Sayable) :
    (Verb.set pos target value).Sayable 0 := by
  obtain ⟨lt, hwt, hlt⟩ := ht
  obtain ⟨lv, hwv, hlv⟩ := hv
  refine ⟨⟨_, ⟨lt, lv, hwt, hwv, rfl⟩, Fits.cons trivial (by simp [Lexeme.kind]) (Plain.fits ?_)⟩, by simp⟩
  simp [hlt, hlv, Lexeme.Sound, Lexeme.kind]

theorem plain_params {ps : List String} (hp : ∀ p ∈ ps, (Lexeme.name p).Sound) : Plain (paramLexemes ps) := by
  cases ps with
  | nil => exact plain_nil
  | cons p ps =>
    obtain ⟨hp, hps⟩ := List.forall_mem_cons.mp hp
    rw [paramLexemes, plain_boxed]
    refine Plain.cons hp (by simp [Lexeme.kind]) fun l hl => ?_
    obtain ⟨q, hq, hl⟩ := List.mem_flatMap.mp hl
    have hpair : Plain [.comma, .name q] := by simpa [Lexeme.Sound, Lexeme.kind] using hps q hq
    exact hpair l hl

theorem sayable_define (pos : Location) {name : String} (hname : (Lexeme.name name).Sound) {params : List String}
    (hp : ∀ p ∈ params, (Lexeme.name p).Sound) {body : Expr} (hb : body.Sayable) :
    (Verb.define pos name params body).Sayable 0 := by
  obtain ⟨lb, hwb, hlb⟩ := hb
  refine ⟨⟨_, ⟨lb, hwb, rfl⟩, Fits.cons trivial (by simp [Lexeme.kind]) (Plain.fits ?_)⟩, by simp⟩
  have hbody : Plain (.operator .eq :: lb) := Plain.cons trivial (by simp [Lexeme.kind]) hlb
  exact Plain.cons hname (by simp [Lexeme.kind]) (plain_append.mpr ⟨plain_params hp, hbody⟩)

theorem sayable_perform (pos : Location) {goal : Goal} (hg : goal.Sayable) {loop : Loop} (hl : loop.Sayable) :
    (Verb.perform pos goal loop).Sayable 0 := by
  obtain ⟨ll, hwl, hll⟩ := hl
  have hrest : Plain (goal.lexemes ++ ll) := plain_append.mpr ⟨hg.2, hll⟩
  refine ⟨⟨_, ⟨ll, hwl, rfl⟩, Fits.cons trivial (by simp [Lexeme.kind]) hrest.fits⟩, ?_⟩
  rintro _ _ _ ⟨⟩
  exact hg.1

theorem sayable_command (pos : Location) {n : Nat} {v : Verb} (hv : v.Sayable n) {guard : Option Expr}
    (hg : ∀ e ∈ guard, e.Sayable) : (Command.mk pos v guard).Sayable n := by
  obtain ⟨⟨lv, hwv, hlv⟩, hnames⟩ := hv
  have hguard : ∃ lg, writesGuard guard lg ∧ Plain lg := by
    cases guard with
    | none => exact ⟨[], rfl, plain_nil⟩
    | some e =>
      obtain ⟨le, hwe, hle⟩ := hg e rfl
      exact ⟨_, ⟨le, hwe, .inl rfl⟩, Plain.cons trivial (by simp [Lexeme.kind]) hle⟩
  obtain ⟨lg, hwg, hlg⟩ := hguard
  refine ⟨⟨_, ⟨lv, lg, hwv, hwg, rfl⟩, hlv.append_plain ?_⟩, hnames⟩
  simp [hlg, Lexeme.Sound, Lexeme.kind]

theorem Line.writes_direct {c : Command} {ls : List Lexeme} (h : c.Writes ls) : (Line.direct c).Writes ls := by
  unfold Line.Writes
  split
  · next hc =>
    cases hc
    obtain ⟨_, _, hv, -, -⟩ := h
    exact False.elim hv
  · next hc => cases hc; exact h
  · next hc => cases hc

theorem sayable_direct {n : Nat} {c : Command} (hc : c.Sayable n) : (Line.direct c).Sayable n := by
  obtain ⟨⟨ls, hw, hl⟩, hnames⟩ := hc
  exact ⟨⟨ls, Line.writes_direct hw, hl⟩, hnames⟩

theorem sayable_stored (pos : Location) {n : Nat} {number : StepNumber} (hs : Numeral number.spelling.toList)
    (hnumber : StepNumber.ofLiteral number.spelling = .ok number) {c : Command} (hc : c.Sayable n) :
    (Line.stored pos number c).Sayable n := by
  obtain ⟨⟨ls, hw, hl⟩, hnames⟩ := hc
  exact ⟨⟨_, ⟨ls, hw, rfl⟩, Fits.cons hs (by simp [Lexeme.kind]) hl⟩, hnumber, hnames⟩

/-! ## Items -/

theorem ensures_nesting {α : Type} {I : Stream → Prop} {f : Nat → Reader α} {Q : α → Stream → Prop}
    (h : ∀ depth, Ensures I (f depth) Q) : Ensures I (do f (nestingBound (← get))) Q :=
  fun s a s' hs hr => h (nestingBound s) s a s' hs hr

theorem Stream.Clean.mono {n m : Nat} {s : Stream} (h : s.Clean n) (hnm : n ≤ m) : s.Clean m :=
  ⟨h.finish, h.scanned, h.texts.trans hnm⟩

theorem ensures_left {α : Type} {P : Prop} {p : Nat → Prop} {r : Reader α} {Q : α → Stream → Prop}
    (h : ∀ m, P → p m → Ensures (Stream.Clean m) r Q) : Ensures (fun s => P ∧ ∃ m, p m ∧ s.Clean m) r Q :=
  fun s a s' ⟨hP, m, hm, hs⟩ hr => h m hP hm s a s' hs hr

theorem Stream.Clean.next_text {n : Nat} {s : Stream} (h : s.Clean n) {text : String}
    (ht : s.peek.lexeme = .text text) : '\n' ∉ text.toList ∧ ∃ m, 1 + m ≤ n ∧ s.next.2.Clean m := by
  refine ⟨h.peek_seen.sound ht (by simp [Lexeme.kind]) (by simp), s.rest.tail.countP (·.lexeme.kind = .text), ?_, ?_⟩
  · have htexts := h.texts
    rw [Stream.peek] at ht
    cases hr : s.rest with
    | nil =>
      rw [hr, List.headD_nil, h.finish] at ht
      cases ht
    | cons t ts =>
      rw [hr, List.headD_cons] at ht
      rw [hr, List.countP_cons, if_pos (by rw [ht]; rfl)] at htexts
      rw [List.tail_cons]
      omega
  · exact ⟨h.finish, fun t ht => h.scanned t (List.mem_of_mem_tail ht), le_rfl⟩

variable (src : Source) {n : Nat}

theorem keeps_readWhole : Keeps n (readWhole src) Expr.Sayable :=
  ensures_nesting fun depth => (readersKeep src n depth).expr

theorem ensures_readItem : Ensures (Stream.Clean n) (readItem src)
    fun i s => i.Sayable ∧ ∃ m, i.texts + m ≤ n ∧ s.Clean m := by
  have hpeek : Ensures (Stream.Clean n) Reader.peek fun t s => s.Clean n ∧ s.peek = t := by
    intro s t s' hs hr
    cases hr
    exact ⟨hs, rfl⟩
  have hwhole : ∀ t p, Ensures (fun s => s.Clean n ∧ s.peek = t) (do return Item.numeric p (← readWhole src))
      fun i s => i.Sayable ∧ ∃ m, i.texts + m ≤ n ∧ s.Clean m := by
    intro t p
    refine Ensures.pre ((keeps_readWhole src).bind fun e he => ?_) fun s hs => hs.1
    obtain ⟨ls, hw, hl⟩ := he
    exact ensures_pure fun s hs => ⟨⟨ls, hw, hl.fits⟩, n, (Nat.zero_add n).le, hs⟩
  rw [readItem]
  refine hpeek.bind fun t => ?_
  split
  · next text ht =>
    have hnext : Ensures (fun s => s.Clean n ∧ s.peek = t) (discard Reader.next)
        fun _ s => '\n' ∉ text.toList ∧ ∃ m, 1 + m ≤ n ∧ s.Clean m := by
      rintro s _ s' ⟨hs, rfl⟩ hr
      cases hr
      exact hs.next_text ht
    refine hnext.bind fun _ => ensures_pure fun s hs => ⟨⟨[.text text], rfl, ?_⟩, hs.2⟩
    exact ⟨List.forall_mem_singleton.mpr hs.1, (List.countP_le_length)⟩
  · exact hwhole t _
  · exact hwhole t _
  · exact hwhole t _
  · exact hwhole t _
  · exact hwhole t _
  · exact ensures_fail

/-- The texts of all items are texts that were left when the first one was read. -/
theorem ensures_readItems (total depth : Nat) : ∀ (acc : List Item) (n : Nat), (∀ i ∈ acc, i.Sayable) →
    (acc.map Item.texts).sum + n ≤ total → Ensures (Stream.Clean n) (readItems src depth acc)
      fun is s => (is ≠ [] ∧ (∀ i ∈ is, i.Sayable) ∧ (is.map Item.texts).sum ≤ total) ∧ s.Clean total := by
  induction depth with
  | zero => exact fun _ _ _ _ => ensures_throw
  | succ depth ih =>
    intro acc n hacc hn
    rw [readItems]
    refine (ensures_readItem src).bind fun i => ensures_left fun m hi hm => ?_
    have hsum : ((i :: acc).map Item.texts).sum + m ≤ total := by
      rw [List.map_cons, List.sum_cons]
      omega
    have hall : ∀ j ∈ i :: acc, j.Sayable := List.forall_mem_cons.mpr ⟨hi, hacc⟩
    refine (keeps_accept _).bind fun c _ => ?_
    split
    · exact ih (i :: acc) m hall hsum
    · refine ensures_pure fun s hs => ⟨⟨by simp, fun j hj => hall j (List.mem_reverse.mp hj), ?_⟩, hs.mono (by omega)⟩
      rw [List.map_reverse, List.sum_reverse]
      omega

/-! ## Verbs -/

theorem keeps_readTarget : Keeps n (readTarget src) fun t => (Expr.reference t.pos t.name t.indices).Sayable := by
  rw [readTarget]
  refine keeps_peek.bind fun t _ => ?_
  refine ensures_nesting (f := fun depth => readReference src depth >>= _) fun depth => ?_
  refine (readersKeep src n depth).reference.bind fun e he => ?_
  split
  · exact keeps_pure he
  · exact ensures_fail

theorem keeps_readParams (depth : Nat) : ∀ acc : List String, (∀ p ∈ acc, (Lexeme.name p).Sound) →
    Keeps n (readParams depth acc) fun ps => ∀ p ∈ ps, (Lexeme.name p).Sound := by
  induction depth with
  | zero => exact fun _ _ => ensures_throw
  | succ depth ih =>
    intro acc hacc
    rw [readParams]
    refine (keeps_expectName _).bind fun p hp => (keeps_accept _).bind fun c _ => ?_
    have hall : ∀ q ∈ p.1 :: acc, (Lexeme.name q).Sound := List.forall_mem_cons.mpr ⟨hp, hacc⟩
    split
    · exact ih _ hall
    · exact keeps_pure fun q hq => hall q (List.mem_reverse.mp hq)

theorem keeps_readDefinition (pos : Location) : Keeps n (readDefinition src pos) (Verb.Sayable 0) := by
  rw [readDefinition]
  refine (keeps_expectName _).bind fun p hname => keeps_peek.bind fun t _ => ?_
  have hbody : ∀ params : List String, (∀ q ∈ params, (Lexeme.name q).Sound) → Keeps n (do
      discard (Reader.expect .afterDefined (.operator .eq))
      return Verb.define pos p.1 params (← readWhole src)) (Verb.Sayable 0) := fun params hparams =>
    (keeps_expect _ _).discard.bind fun _ _ => (keeps_readWhole src).bind fun body hb =>
      keeps_pure (sayable_define pos hname hparams hb)
  split
  · refine keeps_next.discard.bind fun _ _ => ?_
    refine ensures_nesting (f := fun depth => readParams depth [] >>= _) fun depth => ?_
    refine (keeps_readParams depth [] (List.forall_mem_nil _)).bind fun params hparams => ?_
    exact (keeps_expect _ _).discard.bind fun _ _ => hbody params hparams
  · exact hbody [] (List.forall_mem_nil _)

theorem keeps_liftNumber {α : Type} (s : String) (e : Except NumberFault α) :
    Keeps n (liftNumber s e) fun a => e = .ok a := by
  cases e with
  | ok a => exact keeps_pure rfl
  | error fault => exact ensures_throw

theorem keeps_readGoal : Keeps n readGoal Goal.Sayable := by
  rw [readGoal]
  refine keeps_next.bind fun t _ => ?_
  split
  · refine (keeps_expectNumber _).bind fun s hs => (keeps_liftNumber s _).bind fun number hnumber => keeps_pure ?_
    obtain ⟨hnumeral, hself⟩ := hs.ofLiteral_self hnumber
    exact ⟨hself, by simpa [Goal.lexemes, Lexeme.Sound, Lexeme.kind] using hnumeral⟩
  · refine (keeps_expectNumber _).bind fun s hs => (keeps_liftNumber s _).bind fun p hp => keeps_pure ?_
    obtain ⟨hnumeral, hself⟩ := hs.partOf_self hp
    exact ⟨hself, by simpa [Goal.lexemes, Lexeme.Sound, Lexeme.kind] using hnumeral⟩
  · exact ensures_fail

theorem keeps_readTerms (depth : Nat) : ∀ acc : List Term, (∀ t ∈ acc, t.Sayable) →
    Keeps n (readTerms src depth acc) fun ts => ts ≠ [] ∧ ∀ t ∈ ts, t.Sayable := by
  induction depth with
  | zero => exact fun _ _ => ensures_throw
  | succ depth ih =>
    intro acc hacc
    rw [readTerms]
    refine ensures_nesting (f := fun d => readWhole src >>= fun e => readTerm src d e >>= _) fun d => ?_
    refine (keeps_readWhole src).bind fun e he => ((readersKeep src n d).term e he).bind fun t ht => ?_
    have hall : ∀ u ∈ t :: acc, u.Sayable := List.forall_mem_cons.mpr ⟨ht, hacc⟩
    refine (keeps_accept _).bind fun c _ => ?_
    split
    · exact ih _ hall
    · exact keeps_pure ⟨by simp, fun u hu => hall u (List.mem_reverse.mp hu)⟩

theorem keeps_readRange : Keeps n (readRange src) Range.Sayable := by
  rw [readRange]
  refine keeps_peek.bind fun t _ => ?_
  refine ensures_nesting (f := fun depth => readTerms src depth [] >>= _) fun depth => ?_
  refine (keeps_readTerms src depth [] (List.forall_mem_nil _)).bind fun ts hts => keeps_peek.bind fun after _ => ?_
  split
  · exact keeps_pure (sayable_range _ hts.1 hts.2)
  · exact ensures_fail

theorem keeps_readLoop : Keeps n (readLoop src) Loop.Sayable := by
  rw [readLoop]
  refine (keeps_accept _).bind fun c _ => ?_
  split
  · refine (keeps_expectName _).bind fun p hp => (keeps_expect _ _).discard.bind fun _ _ => ?_
    refine (keeps_readRange src).bind fun r hr => keeps_pure ?_
    obtain ⟨lr, hw, hl⟩ := hr
    have hrange : Plain (.operator .eq :: lr) := Plain.cons trivial (by simp [Lexeme.kind]) hl
    exact ⟨_, ⟨lr, hw, rfl⟩, Plain.cons trivial (by simp [Lexeme.kind]) (Plain.cons hp (by simp [Lexeme.kind]) hrange)⟩
  · refine (keeps_accept _).bind fun c _ => ?_
    split
    · refine (keeps_readWhole src).bind fun e he => (keeps_expect _ _).discard.bind fun _ _ => keeps_pure ?_
      obtain ⟨le, hw, hl⟩ := he
      have hend : Plain [.keyword .times] := Plain.cons trivial (by simp [Lexeme.kind]) plain_nil
      exact ⟨_, ⟨le, hw, rfl⟩, Plain.cons trivial (by simp [Lexeme.kind]) (plain_append.mpr ⟨hl, hend⟩)⟩
    · exact keeps_pure ⟨[], rfl, plain_nil⟩

/-! ## Ends of lines -/

def Stream.AtEnd (s : Stream) : Prop := s.rest = [] ∧ s.finish.lexeme = .finish

theorem Stream.AtEnd.peek_eq {s : Stream} (h : s.AtEnd) : s.peek.lexeme = .finish := by
  rw [Stream.peek, h.1, List.headD_nil, h.2]

theorem ensures_next : Ensures (Stream.Clean n) Reader.next
    fun t s => t.Seen ∧ s.Clean n ∧ (t.lexeme = .finish → s.AtEnd) := by
  intro s t s' hs hr
  cases hr
  refine ⟨hs.peek_seen, hs.next, fun ht => ⟨?_, hs.finish⟩⟩
  cases hrest : s.rest with
  | nil => exact List.tail_nil
  | cons t ts =>
    rw [Stream.peek, hrest, List.headD_cons] at ht
    have hscanned := hs.scanned t (by simp [hrest])
    rw [ht] at hscanned
    rcases hscanned with h | h
    · exact h.elim
    · cases h

theorem ensures_accept_end {l : Lexeme} (hl : l ≠ .finish) :
    Ensures Stream.AtEnd (Reader.accept l) fun c s => c = false ∧ s.AtEnd := by
  have hpeek : Ensures Stream.AtEnd Reader.peek fun t s => t.lexeme = .finish ∧ s.AtEnd := by
    intro s t s' hs hr
    cases hr
    exact ⟨hs.peek_eq, hs⟩
  refine hpeek.bind fun t => ?_
  split
  · next ht => exact fun s a s' hs => absurd (ht.symm.trans hs.1) hl
  · exact ensures_pure fun s hs => ⟨rfl, hs.2⟩

theorem ensures_expectKind_end {k : Kind} (hk : k ≠ .finish) (place : Place) :
    Ensures Stream.AtEnd (Reader.expectKind place k) fun _ _ => False := by
  have hnext : Ensures Stream.AtEnd Reader.next fun t _ => t.lexeme = .finish := by
    intro s t s' hs hr
    cases hr
    exact hs.peek_eq
  refine hnext.bind fun t => ?_
  split
  · next ht =>
    intro s a s' hs hr
    rw [hs] at ht
    exact absurd ht.symm hk
  · exact ensures_fail

/-! ## Commands -/

theorem ensures_readVerb (t : Token) : Ensures (fun s => t.Seen ∧ s.Clean n ∧ (t.lexeme = .finish → s.AtEnd))
    (readVerb src t) fun v s => (v.Sayable n ∧ s.Clean n) ∨ s.AtEnd := by
  have hkeeps : ∀ {r : Reader Verb}, Keeps n r (Verb.Sayable 0) →
      Ensures (fun s => t.Seen ∧ s.Clean n ∧ (t.lexeme = .finish → s.AtEnd)) r
        fun v s => (v.Sayable n ∧ s.Clean n) ∨ s.AtEnd := fun h =>
    (h.pre fun s hs => hs.2.1).mono fun v s hv => .inl ⟨hv.1.mono (Nat.zero_le n), hv.2⟩
  rw [readVerb]
  split
  · next ht => exact ensures_pure fun s hs => .inr (hs.2.2 ht)
  · refine Ensures.pre (ensures_nesting (f := fun depth => readItems src depth [] >>= _) fun depth => ?_)
      fun s hs => hs.2.1
    have hitems := ensures_readItems src n depth [] n (List.forall_mem_nil _) (Nat.zero_add n).le
    refine hitems.bind fun is => ensures_pure fun s hs => ?_
    exact .inl ⟨sayable_type _ hs.1.1 hs.1.2.1 hs.1.2.2, hs.2⟩
  · refine hkeeps ((keeps_readTarget src).bind fun target ht => (keeps_expect _ _).discard.bind fun _ _ => ?_)
    exact (keeps_readWhole src).bind fun value hv => keeps_pure (sayable_set _ ht hv)
  · exact hkeeps (keeps_readDefinition src _)
  · refine hkeeps (keeps_readGoal.bind fun goal hg => (keeps_readLoop src).bind fun loop hl => ?_)
    exact keeps_pure (sayable_perform _ hg hl)
  · exact ensures_fail
  · exact ensures_fail

theorem ensures_readCommand : Ensures (Stream.Clean n) (readCommand src)
    fun c s => (c.Sayable n ∧ s.Clean n) ∨ s.AtEnd := by
  rw [readCommand]
  refine ensures_next.bind fun t => (ensures_readVerb src t).bind fun v => ?_
  have hclean : ∀ hv : v.Sayable n, Ensures (Stream.Clean n) (do
      if ← Reader.accept (.keyword .guard) then return (⟨src.at t, v, some (← readWhole src)⟩ : Command)
      else return ⟨src.at t, v, none⟩) fun c s => c.Sayable n ∧ s.Clean n := by
    intro hv
    refine (keeps_accept _).bind fun c _ => ?_
    split
    · refine (keeps_readWhole src).bind fun e he => keeps_pure (sayable_command _ hv ?_)
      rintro _ ⟨⟩
      exact he
    · exact keeps_pure (sayable_command _ hv (by simp))
  have hend : Ensures Stream.AtEnd (do
      if ← Reader.accept (.keyword .guard) then return (⟨src.at t, v, some (← readWhole src)⟩ : Command)
      else return ⟨src.at t, v, none⟩) fun _ s => s.AtEnd := by
    refine (ensures_accept_end (show Lexeme.keyword .guard ≠ .finish by decide)).bind fun c => ?_
    split
    · next hc => exact fun s a s' hs => absurd (hc.symm.trans hs.1) (by decide)
    · exact ensures_pure fun s hs => hs.2
  rintro s c s' (⟨hv, hs⟩ | hs) hr
  · exact .inl (hclean hv s c s' hs hr)
  · exact .inr (hend s c s' hs hr)

theorem ensures_command_period {u : Command → Line} {Q : Line → Prop} (hu : ∀ c : Command, c.Sayable n → Q (u c)) :
    Ensures (Stream.Clean n) (do
      let command ← readCommand src
      discard (Reader.expectKind .endOfCommand .period)
      return u command) fun u _ => Q u := by
  refine (ensures_readCommand src).bind fun c => ?_
  have hend : Ensures Stream.AtEnd (do
      discard (Reader.expectKind .endOfCommand .period)
      return u c) fun u _ => Q u := by
    have hperiod : Ensures Stream.AtEnd (discard (Reader.expectKind .endOfCommand .period)) fun _ _ => False := by
      rw [Functor.discard]
      exact (ensures_expectKind_end (show Kind.period ≠ .finish by decide) _).bind fun t s _ s' hs => hs.elim
    exact hperiod.bind fun _ s _ s' hs => hs.elim
  rintro s a s' (⟨hc, hs⟩ | hs) hr
  · have := ((keeps_expectKind (n := n) .endOfCommand .period).discard.bind fun _ _ =>
      keeps_pure (P := Q) (hu c hc)) s a s' hs hr
    exact this.1
  · exact hend s a s' hs hr

/-- **Lines.** Every line that is read can be written. -/
theorem ensures_readLine : Ensures (Stream.Clean n) (readLine src) fun u _ => u.Sayable n := by
  rw [readLine]
  refine keeps_peek.bind fun t ht => ?_
  split
  · refine ensures_pure fun _ _ => ⟨⟨[], rfl, plain_nil.fits.mono (Nat.zero_le n)⟩, by rintro _ _ _ ⟨⟩⟩
  · next s hs =>
    refine keeps_next.discard.bind fun _ _ => (keeps_liftNumber s _).bind fun number hnumber => ?_
    obtain ⟨hnumeral, hself⟩ := Numeral.ofLiteral_self (ht.sound hs (by simp [Lexeme.kind]) (by simp)) hnumber
    exact ensures_command_period src fun c hc => sayable_stored _ hnumeral hself hc
  · exact ensures_command_period src fun c hc => sayable_direct hc

end JossLang
