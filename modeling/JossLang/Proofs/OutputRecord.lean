import JossLang.Proofs.NotedSessions
import JossLang.Proofs.StackTraces

/-!
# The record of outputs

What a session has typed is what its sink has taken, piece by piece, and nothing of it is ever taken back. Without
handlers, `Type` writes the texts of its items up to the first one that fails: `typed_recorded`.
-/

namespace JossLang

variable {ω α : Type}

def State.written (s : State ω) : List String := s.typed.reverse

def KeepsTyped (m : Run ω α) : Prop := ∀ s : State ω, (m.run s).2.typed = s.typed

/-- All that is registered leaves what was typed. It may change everything else, and may fail. -/
structure Setup.KeepsTyped (setup : Setup ω) : Prop where
  functions : ∀ g ∈ setup.registry.functions, ∀ args pos, JossLang.KeepsTyped (g.run args pos)
  handlers : ∀ h ∈ setup.registry.handlers, ∀ notice, JossLang.KeepsTyped (h.run notice)
  rules : ∀ r ∈ setup.registry.rules, ∀ notice, JossLang.KeepsTyped (r.run notice)

/-- The session whose sink notes the pieces that it takes, in their order. -/
def Setup.withPieces (setup : Setup ω) : Setup (ω × List String) :=
  setup.beside fun text pieces => pieces ++ [text]

def State.Pieces (s₀ : State ω) (pieces₀ : List String) (s : State ω) (pieces : List String) : Prop :=
  ∃ more, pieces = pieces₀ ++ more ∧ s.written = s₀.written ++ more

section
variable {s₀ s t : State ω} {pieces₀ pieces : List String}

theorem State.pieces_self (s : State ω) (pieces : List String) : s.Pieces pieces s pieces := by
  refine ⟨[], ?_, ?_⟩ <;> simp

theorem State.Pieces.of_typed (h : s₀.Pieces pieces₀ s pieces) (ht : t.typed = s.typed) : s₀.Pieces pieces₀ t pieces := by
  obtain ⟨more, hpieces, hwritten⟩ := h
  refine ⟨more, hpieces, ?_⟩
  rw [← hwritten, State.written, State.written, ht]

theorem State.Pieces.trans {u : State ω} {pieces' : List String} (h : s₀.Pieces pieces₀ s pieces)
    (h' : s.Pieces pieces u pieces') : s₀.Pieces pieces₀ u pieces' := by
  obtain ⟨more, hpieces, hwritten⟩ := h
  obtain ⟨later, hpieces', hwritten'⟩ := h'
  refine ⟨more ++ later, ?_, ?_⟩
  · rw [hpieces', hpieces, List.append_assoc]
  · rw [hwritten', hwritten, List.append_assoc]

end

theorem KeepsTyped.stays {m : Run ω α} (h : KeepsTyped m) (s₀ : State ω) (pieces₀ pieces : List String) :
    Stays (s₀.Pieces pieces₀ · pieces) (fun _ t => s₀.Pieces pieces₀ t pieces) m := by
  intro s hs
  have ht := h s
  generalize m.run s = r at ht ⊢
  obtain ⟨_ | _, t⟩ := r
  · exact .error (hs.of_typed ht)
  · exact .ok (hs.of_typed ht)

section
variable {setup : Setup ω} (h : setup.KeepsTyped)
include h

theorem notify_keepsTyped (notice : Notice) : KeepsTyped (notify setup notice) := by
  intro s
  have hstays : Stays (fun t => t.typed = s.typed) (fun _ t => t.typed = s.typed) (notify setup notice) := by
    refine stays_notify (fun _ _ _ _ ht => ht) fun g hg _ t ht => ?_
    have hu := h.handlers g hg notice t
    generalize (g.run notice).run t = r at hu ⊢
    obtain ⟨_ | _, u⟩ := r
    · exact .error (hu.trans ht)
    · exact .ok (hu.trans ht)
  exact hstays.state rfl

theorem record_keepsTyped (action : Action) (pos : Location) : KeepsTyped (record setup action pos) := by
  intro s
  have hstays : Stays (fun t => t.typed = s.typed) (fun _ t => t.typed = s.typed) (record setup action pos) := by
    refine stays_record (fun _ _ _ _ ht => ht) (fun r hr notice t ht => ?_) fun _ ht => ht
    have hu := h.rules r hr notice t
    generalize (r.run notice).run t = x at hu ⊢
    obtain ⟨_ | _, u⟩ := x
    · exact .error (hu.trans ht)
    · exact .ok (hu.trans ht)
  exact hstays.state rfl

open Lockstep in
theorem carries_pieces (s₀ : State ω) (pieces₀ : List String) :
    (noted setup setup.withPieces (s₀.Pieces pieces₀) fun _ => s₀.Pieces pieces₀).Carries where
  toPerforms := by
    refine noted_performs (List.forall_mem_nil _) (fun pieces => ?_) (fun text pieces => ?_) (fun _ _ _ _ hs => hs.of_typed rfl)
      ?_ (fun _ _ _ _ hs _ => hs.of_typed rfl) fun _ _ _ _ _ hs _ => hs
    · exact
        { functions := fun g hg args pos => (h.functions g hg args pos).stays s₀ pieces₀ pieces
          raised := fun _ _ _ hs => hs
          limit := fun _ hs => hs
          endless := fun _ hs => hs
          marks := fun _ hs => hs.of_typed rfl }
    · exact (notify_keepsTyped h (.output text)).stays s₀ pieces₀ pieces
    · -- a text that the sink takes goes to the record at once
      rintro text s pieces ⟨more, rfl, hwritten⟩
      refine ⟨more ++ [text], (List.append_assoc ..), ?_⟩
      rw [State.written] at hwritten ⊢
      rw [List.reverse_cons, hwritten, List.append_assoc]
  notify notice _ := by
    show (noted setup setup.withPieces _ _).Agree (notify setup notice) (notify setup.withPieces notice)
    rw [Setup.withPieces, notify_beside _ _ (List.forall_mem_nil _)]
    exact noted_agree fun pieces => (notify_keepsTyped h notice).stays s₀ pieces₀ pieces
  file := rfl
  lineNumber := by
    rintro s _ ⟨pieces, rfl, hs⟩
    rfl
  unread _ _ _ hs := hs
  record action pos := by
    show (noted setup setup.withPieces _ _).Agree (record setup action pos) (record setup.withPieces action pos)
    rw [Setup.withPieces, record_beside]
    exact noted_agree fun pieces => (record_keepsTyped h action pos).stays s₀ pieces₀ pieces
  pushFrame _ _ := agree_modify <| by
    rintro s _ ⟨pieces, rfl, hs⟩
    exact ⟨pieces, rfl, hs.of_typed rfl⟩
  popFrame := agree_modify <| by
    rintro s _ ⟨pieces, rfl, hs⟩
    exact ⟨pieces, rfl, hs.of_typed rfl⟩
  store _ _ := by
    rintro s _ ⟨pieces, rfl, hs⟩
    exact ⟨pieces, rfl, hs.of_typed rfl⟩

theorem settle_keepsTyped (f : Failure) (s : State ω) : (settle setup f s).2.typed = s.typed := by
  rcases settle_cases setup f s with ⟨-, hsettle⟩ | ⟨-, hsettle⟩
  · rw [hsettle, report_state]
    exact notify_keepsTyped h _ s
  · rw [hsettle]

theorem evaluateLine_pieces (text : String) (s : State ω) (pieces : List String) :
    ∃ pieces', evaluateLine setup.withPieces text (s.beside pieces) =
        ((evaluateLine setup text s).1, (evaluateLine setup text s).2.beside pieces') ∧
      s.Pieces pieces (evaluateLine setup text s).2 pieces' := by
  have hnext : s.Pieces pieces { s with lineNumber := s.lineNumber + 1, frames := [.top] } pieces :=
    (s.pieces_self pieces).of_typed rfl
  have ho := Lockstep.runText_agree (carries_pieces h s pieces) text _ _ ⟨pieces, rfl, hnext⟩
  change (Lockstep.noted setup setup.withPieces _ _).Outcome ((runText setup text).run _)
    ((runText setup.withPieces text).run _) at ho
  rw [evaluateLine, evaluateLine]
  dsimp only [State.beside] at ho ⊢
  generalize (runText setup text).run { s with lineNumber := s.lineNumber + 1, frames := [.top] } = r at ho ⊢
  generalize (runText setup.withPieces text).run _ = r' at ho ⊢
  cases ho with
  | ok ht =>
    obtain ⟨pieces', rfl, ht⟩ := ht
    exact ⟨pieces', rfl, ht⟩
  | @error f t _ ht =>
    obtain ⟨pieces', rfl, ht⟩ := ht
    refine ⟨pieces', ?_, ht.of_typed (settle_keepsTyped h f t)⟩
    have hsettle := settle_beside setup (fun text pieces => pieces ++ [text]) (List.forall_mem_nil _) f t pieces'
    rw [← Setup.withPieces] at hsettle
    dsimp only [State.beside] at hsettle ⊢
    rw [hsettle]
  | excused ht => exact ht.elim

theorem evaluateLines_pieces : ∀ (ls : List String) (s : State ω) (pieces : List String),
    ∃ pieces', evaluateLines setup.withPieces ls (s.beside pieces) =
        ((evaluateLines setup ls s).1, (evaluateLines setup ls s).2.beside pieces') ∧
      s.Pieces pieces (evaluateLines setup ls s).2 pieces'
  | [], s, pieces => ⟨pieces, rfl, s.pieces_self pieces⟩
  | l :: ls, s, pieces => by
    obtain ⟨pieces', hline, hpieces⟩ := evaluateLine_pieces h l s pieces
    obtain ⟨pieces'', hlines, hlater⟩ := evaluateLines_pieces ls (evaluateLine setup l s).2 pieces'
    refine ⟨pieces'', ?_, hpieces.trans hlater⟩
    rw [evaluateLines, hline]
    dsimp only
    rw [hlines]
    rfl

end

/-! ## Items -/

def typeLine (setup : Setup ω) (text : String) : Run ω Unit := do
  typeOut setup text
  typeOut setup "\n"

inductive Renders (setup : Setup ω) : List Item → State ω → List String → State ω → Prop where
  | nil {s : State ω} : Renders setup [] s [] s
  | cons {item : Item} {items : List Item} {text : String} {texts : List String} {s t u v : State ω} :
      (item.text setup).run s = (.ok text, t) → (typeLine setup text).run t = (.ok (), u) →
      Renders setup items u texts v → Renders setup (item :: items) s (text :: texts) v

def linePieces (texts : List String) : List String := texts.flatMap fun text => [text, "\n"]

section
variable {setup : Setup ω}

theorem typeItems_cons_run {item : Item} {s t : State ω} {text : String} (hitem : (item.text setup).run s = (.ok text, t))
    (items : List Item) :
    (typeItems setup (item :: items)).run s = (typeLine setup text >>= fun _ => typeItems setup items).run t := by
  rw [typeItems, run_bind, hitem, typeLine, bind_assoc]

theorem Renders.run {before : List Item} {s t : State ω} {texts : List String} (h : Renders setup before s texts t)
    (after : List Item) : (typeItems setup (before ++ after)).run s = (typeItems setup after).run t := by
  induction h with
  | nil => rfl
  | cons hitem hline _ ih =>
    rw [List.cons_append, typeItems_cons_run hitem, run_bind, hline]
    exact ih

/-- All items are typed, or there is a first one that fails, or whose line does. -/
theorem renders_or_fails (setup : Setup ω) : ∀ (items : List Item) (s : State ω),
    (∃ texts t, Renders setup items s texts t) ∨ ∃ before item after texts t,
      items = before ++ item :: after ∧ Renders setup before s texts t ∧
        ((∃ f v, (item.text setup).run t = (.error f, v)) ∨ ∃ text u f v, (item.text setup).run t = (.ok text, u) ∧
          (typeLine setup text).run u = (.error f, v))
  | [], s => .inl ⟨[], s, .nil⟩
  | item :: items, s => by
    rcases run_cases (item.text setup) s with ⟨text, t, hitem⟩ | ⟨f, t, hitem⟩
    · rcases run_cases (typeLine setup text) t with ⟨_, u, hline⟩ | ⟨f, u, hline⟩
      · rcases renders_or_fails setup items u with ⟨texts, v, hrest⟩ | ⟨before, later, after, texts, v, rfl, hrest, hlater⟩
        · exact .inl ⟨text :: texts, v, .cons hitem hline hrest⟩
        · exact .inr ⟨item :: before, later, after, text :: texts, v, rfl, .cons hitem hline hrest, hlater⟩
      · exact .inr ⟨[], item, items, [], s, rfl, .nil, .inr ⟨text, t, f, u, hitem, hline⟩⟩
    · exact .inr ⟨[], item, items, [], s, rfl, .nil, .inl ⟨f, t, hitem⟩⟩

theorem typeOut_run (hu : setup.Unhooked) (text : String) (s : State ω) :
    (typeOut setup text).run s = (deliver setup text).run s := by
  rw [typeOut, run_bind, hu.notify_run]

theorem deliver_cases (text : String) (s : State ω) :
    (∃ t, (deliver setup text).run s = (.ok (), t) ∧ t.written = s.written ++ [text]) ∨
      ∃ message t, (setup.sink text s.world).1 = .error message ∧ (deliver setup text).run s = (.error (.foreign message), t) ∧
        t.written = s.written := by
  rw [deliver_run]
  rcases setup.sink text s.world with ⟨message | _, w⟩
  · exact .inr ⟨message, _, rfl, rfl, rfl⟩
  · exact .inl ⟨_, rfl, List.reverse_cons⟩

/-- What a text on a line of its own comes to: two pieces, or those in front of the one that the sink refuses. -/
theorem typeLine_cases (hu : setup.Unhooked) (text : String) (s : State ω) :
    (∃ t, (typeLine setup text).run s = (.ok (), t) ∧ t.written = s.written ++ [text, "\n"]) ∨
      ∃ piece w message t, (setup.sink piece w).1 = .error message ∧ (typeLine setup text).run s = (.error (.foreign message), t) ∧
        ∃ before, before <+: [text] ∧ t.written = s.written ++ before := by
  rw [typeLine, run_bind, typeOut_run hu]
  rcases @deliver_cases _ setup text s with ⟨t, hfirst, ht⟩ | ⟨message, t, hrefused, hfirst, ht⟩ <;> rw [hfirst]
  · dsimp only
    rw [typeOut_run hu]
    rcases @deliver_cases _ setup "\n" t with ⟨u, hsecond, hu⟩ | ⟨message, u, hrefused, hsecond, hu⟩
    · exact .inl ⟨u, hsecond, by rw [hu, ht, List.append_assoc]; rfl⟩
    · exact .inr ⟨"\n", _, message, u, hrefused, hsecond, [text], List.prefix_rfl, hu.trans ht⟩
  · exact .inr ⟨text, _, message, t, hrefused, rfl, [], List.nil_prefix, by rw [ht, List.append_nil]⟩

section
variable (h : setup.KeepsTyped)
include h

theorem evaluate_keepsTyped (e : Expr) : KeepsTyped (evaluate setup e) := by
  intro s
  have hevaluates : setup.Evaluates (fun t => t.typed = s.typed) fun _ t => t.typed = s.typed :=
    { functions := fun g hg args pos t ht => by
        have hu := h.functions g hg args pos t
        generalize (g.run args pos).run t = r at hu ⊢
        obtain ⟨_ | _, u⟩ := r
        · exact .error (hu.trans ht)
        · exact .ok (hu.trans ht)
      raised := fun _ _ _ ht => ht
      limit := fun _ ht => ht
      endless := fun _ ht => ht
      marks := fun _ ht => ht }
  exact (hevaluates.eval setup.limits.calls e []).state rfl

theorem text_keepsTyped (item : Item) : KeepsTyped (item.text setup) := by
  intro s
  cases item with
  | quoted _ text => rfl
  | numeric _ e =>
    have ht := evaluate_keepsTyped h e s
    rw [Item.text, run_bind]
    generalize (evaluate setup e).run s = r at ht ⊢
    obtain ⟨_ | _, t⟩ := r <;> exact ht

theorem guard_keepsTyped (guard : Option Expr) : KeepsTyped (guardHolds setup guard) := by
  intro s
  cases guard with
  | none => rfl
  | some e =>
    have ht := evaluate_keepsTyped h e s
    rw [guardHolds, run_bind]
    generalize (evaluate setup e).run s = r at ht ⊢
    obtain ⟨_ | _, t⟩ := r <;> exact ht

theorem Renders.written (hu : setup.Unhooked) {items : List Item} {s t : State ω} {texts : List String}
    (hr : Renders setup items s texts t) : t.written = s.written ++ linePieces texts := by
  induction hr with
  | nil => simp [linePieces]
  | @cons item items text texts s t u v hitem hline hrest ih =>
    have ht : t.written = s.written := by
      have hkept := text_keepsTyped h item s
      rw [hitem] at hkept
      exact congrArg List.reverse hkept
    have hu : u.written = t.written ++ [text, "\n"] := by
      rcases typeLine_cases hu text t with ⟨u', hrun, hu'⟩ | ⟨_, _, message, u', -, hrun, -⟩
      · cases hrun.symm.trans hline
        exact hu'
      · cases hrun.symm.trans hline
    rw [ih, hu, ht, List.append_assoc]
    rfl

end

end

/-- **Outputs.** After any lines, the texts that were typed are the pieces that the sink has taken, in their order, and
those of earlier lines stand in front. Where nothing is registered but functions, a `Type` whose guard holds writes the
texts of all its items, each followed by a newline, or those in front of the first item that fails, and fails with it; if
the guard does not hold or fails, it writes nothing. It also fails with a piece that the sink refuses, and then all in
front of that piece has been written. -/
theorem typed_recorded {setup : Setup ω} (h : setup.KeepsTyped) :
    (∀ (ls : List String) (world : ω), evaluateLines setup.withPieces ls ((setup.start world).beside []) =
      ((evaluateLines setup ls (setup.start world)).1,
        (evaluateLines setup ls (setup.start world)).2.beside (evaluateLines setup ls (setup.start world)).2.written)) ∧
    (∀ (ls : List String) (s : State ω), s.written <+: (evaluateLines setup ls s).2.written) ∧
    (setup.Unhooked → ∀ (d : Nat) (c : Command) (pos : Location) (items : List Item) (s : State ω), c.verb = .type pos items →
      let s' := s.record setup.verbose (.command c.verb.label) c.pos
      (∀ f t, (guardHolds setup c.guard).run s' = (.error f, t) →
        (c.run setup d).run s = (.error f, t) ∧ t.written = s.written) ∧
      (∀ t, (guardHolds setup c.guard).run s' = (.ok false, t) → (c.run setup d).run s = (.ok (), t) ∧ t.written = s.written) ∧
      ∀ u, (guardHolds setup c.guard).run s' = (.ok true, u) →
        (∀ texts t, Renders setup items u texts t →
          (c.run setup d).run s = (.ok (), t) ∧ t.written = s.written ++ linePieces texts) ∧
        (∀ before item after texts t, items = before ++ item :: after → Renders setup before u texts t →
          (∀ f v, (item.text setup).run t = (.error f, v) →
            (c.run setup d).run s = (.error f, v) ∧ v.written = s.written ++ linePieces texts) ∧
          ∀ text v f w, (item.text setup).run t = (.ok text, v) → (typeLine setup text).run v = (.error f, w) →
            (c.run setup d).run s = (.error f, w) ∧
              (∃ piece world message, (setup.sink piece world).1 = .error message ∧ f = .foreign message) ∧
              ∃ before, before <+: [text] ∧ w.written = s.written ++ linePieces texts ++ before) ∧
        ((∃ texts t, Renders setup items u texts t) ∨ ∃ before item after texts t,
          items = before ++ item :: after ∧ Renders setup before u texts t ∧
            ((∃ f v, (item.text setup).run t = (.error f, v)) ∨ ∃ text v f w, (item.text setup).run t = (.ok text, v) ∧
              (typeLine setup text).run v = (.error f, w)))) := by
  refine ⟨fun ls world => ?_, fun ls s => ?_, fun hu d c pos items s hverb => ?_⟩
  · obtain ⟨pieces, hlines, more, rfl, hwritten⟩ := evaluateLines_pieces h ls (setup.start world) []
    rw [hlines, hwritten]
    rfl
  · obtain ⟨_, -, more, -, hwritten⟩ := evaluateLines_pieces h ls s []
    rw [hwritten]
    exact List.prefix_append _ _
  · intro s'
    have hrun := Command.runWith_unhooked hu (Comparison.stepRunner setup d) c s
    rw [← Command.run_eq_runWith] at hrun
    have hguarded : ∀ result t, (guardHolds setup c.guard).run s' = (result, t) → t.written = s.written := by
      intro result t hguard
      have ht := guard_keepsTyped h c.guard s'
      rw [hguard] at ht
      exact congrArg List.reverse ht
    refine ⟨fun f t hguard => ?_, fun t hguard => ?_, fun u hguard => ?_⟩
    · rw [hrun, hguard]
      exact ⟨rfl, hguarded _ t hguard⟩
    · rw [hrun, hguard]
      exact ⟨rfl, hguarded _ t hguard⟩
    · -- from here on the command is its list of items, evaluated at the state that the guard leaves
      have hitems : (c.run setup d).run s = (typeItems setup items).run u := by
        rw [hrun, hguard, hverb]
        rfl
      have hwritten := hguarded _ u hguard
      refine ⟨fun texts t hr => ?_, fun before item after texts t hsplit hr => ?_, renders_or_fails setup items u⟩
      · have hall := hr.run []
        rw [List.append_nil] at hall
        rw [hitems, hall, hr.written h hu, hwritten]
        exact ⟨rfl, rfl⟩
      · have hkept := text_keepsTyped h item t
        have htyped : t.written = s.written ++ linePieces texts := by rw [hr.written h hu, hwritten]
        rw [hitems, hsplit, hr.run]
        refine ⟨fun f v hitem => ?_, fun text v f w hitem hline => ?_⟩ <;> rw [hitem] at hkept
        · rw [typeItems, run_bind, hitem]
          exact ⟨rfl, (congrArg List.reverse hkept).trans htyped⟩
        · have hv : v.written = s.written ++ linePieces texts := (congrArg List.reverse hkept).trans htyped
          rw [typeItems_cons_run hitem, run_bind, hline]
          rcases typeLine_cases hu text v with ⟨w', hrun, -⟩ | ⟨piece, world, message, w', hrefused, hrun, front, hfront, hw⟩
          · cases hrun.symm.trans hline
          · cases hrun.symm.trans hline
            exact ⟨rfl, ⟨piece, world, message, hrefused, rfl⟩, front, hfront, by rw [hw, hv]⟩

theorem Setup.failingAt_keepsTyped (text : String) : (Setup.failingAt text).KeepsTyped where
  functions := List.forall_mem_nil _
  handlers g hg notice s := by
    obtain ⟨w, hw⟩ := (Setup.failingAt_handsOff text).handlers g hg notice s
    rw [hw]
  rules := List.forall_mem_nil _

theorem Setup.plain_keepsTyped : Setup.plain.KeepsTyped where
  functions := List.forall_mem_nil _
  handlers := List.forall_mem_nil _
  rules := List.forall_mem_nil _

/-- A handler of outputs that fails in the second round of a loop, and a `Type` whose second item fails. -/
theorem typed_recorded_failing :
    let setup := Setup.failingAt "1"
    let ls := ["1.1 Type i.", "Do part 1 for i = 3, 1.", "Type 2."]
    let t := (evaluateLines setup ls (setup.start "")).2
    let place (column : Nat) : Location := ⟨"<input>", 1, column, "Type \"a\", y, 5."⟩
    let items : List Item := [.quoted (place 6) "a", .numeric (place 11) (.reference (place 11) "y" []),
      .numeric (place 14) (.number (place 14) 5)]
    let c : Command := ⟨place 1, .type (place 1) items, none⟩
    setup.KeepsTyped ∧ t.written = ["3", "\n", "2", "\n"] ∧
      (evaluateLines setup.withPieces ls ((setup.start "").beside [])).2.world.2 = ["3", "\n", "2", "\n"] ∧
      Setup.plain.KeepsTyped ∧ Setup.plain.Unhooked ∧
      ∃ f v, (c.run Setup.plain 3).run (Setup.plain.start "") = (.error f, v) ∧ v.written = ["a", "\n"] := by
  intro setup ls t place items c
  obtain ⟨hpieces, -, -⟩ := typed_recorded (Setup.failingAt_keepsTyped "1")
  obtain ⟨-, -, htype⟩ := typed_recorded Setup.plain_keepsTyped
  have hwritten : t.written = ["3", "\n", "2", "\n"] := by decide +kernel
  refine ⟨Setup.failingAt_keepsTyped "1", hwritten, ?_, Setup.plain_keepsTyped, Setup.plain_bare.unhooked, ?_⟩
  · rw [hpieces ls ""]
    exact hwritten
  · obtain ⟨-, -, htrue⟩ := htype Setup.plain_bare.unhooked 3 c (place 1) items (Setup.plain.start "") rfl
    obtain ⟨-, hfails, -⟩ := htrue _ rfl
    obtain ⟨hfails, -⟩ := hfails [.quoted (place 6) "a"] _ _ ["a"] _ rfl (.cons rfl rfl .nil)
    exact ⟨_, _, hfails _ _ rfl⟩

end JossLang
