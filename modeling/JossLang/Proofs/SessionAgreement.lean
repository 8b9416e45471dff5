import JossLang.Proofs.LineRuns
import JossLang.Proofs.ProgramsAlike
import JossLang.Proofs.ReadingAgreement

/-!
# Sessions that are alike

Lines with the same text take sessions that are alike to sessions that are alike
and end with the same errors: `evaluateLine_outcome`. So a state that a session
can reach is alike to itself, which says that all that it holds is in order:
`Reachable.alike`.
-/

namespace JossLang

variable {ω : Type}

/-! ## Reading lines -/

inductive Parsed (place : Location → Location → Prop) : Except ParseError Line → Except ParseError Line → Prop where
  | line {u u' : Line} : u.Alike place u' → Parsed place (.ok u) (.ok u')
  | error (e : ParseError) : Parsed place (.error e) (.error e)

theorem sound_tokensOf {text : List Char} {t : Token} (ht : t ∈ tokensOf text) {l : Lexeme} (hl : t.lexeme = l)
    (hk : l.kind ≠ .other) : l.Sound := by
  rw [tokensOf] at ht
  split at ht
  · cases ht
  · rcases scanned_tokensFrom 1 text t ht with hs | hs
    · exact hl ▸ hs
    · exact absurd (hl ▸ hs) hk

theorem Rereading.streams_ofLine {R : Rereading} (hR : ∀ column, R.columns column column) (text : List Char) :
    R.Streams (Stream.ofLine text) (Stream.ofLine text) := by
  refine ⟨List.forall₂_same.mpr fun t ht => ⟨rfl, hR _, fun x hx => ?_, fun x hx => ?_⟩, rfl, hR _, nofun, nofun⟩
  · exact sound_tokensOf ht hx nofun
  · exact sound_tokensOf ht hx nofun

theorem parse_alike {place : Location → Location → Prop} {src src' : Source} (htext : src'.text = src.text)
    (hplace : ∀ column, place ⟨src.file, src.line, column, src.statement⟩ ⟨src'.file, src'.line, column, src.statement⟩) :
    Parsed place (Line.parse src) (Line.parse src') := by
  let R : Rereading :=
    { src := src
      src' := src'
      columns := Eq
      place := place
      placed := fun t t' ht => by
        rw [Source.at, Source.at, ← ht, show src'.statement = src.statement by rw [Source.statement, htext, Source.statement]]
        exact hplace _ }
  have ho := R.readLine_agree _ _ (R.streams_ofLine (fun _ => rfl) src.text)
  rw [Line.parse, Line.parse, Line.read, Line.read, htext]
  generalize (readLine src).run (Stream.ofLine src.text) = r at ho
  generalize (readLine src').run (Stream.ofLine src.text) = r' at ho
  cases ho with
  | ok h _ => exact .line h
  | error cause hc =>
    cases hc with
    | none => exact .error _
    | some h =>
      obtain rfl : _ = _ := h
      exact .error _

/-! ## Errors of lines -/

inductive LineError.Alike (place : Location → Location → Prop) : LineError → LineError → Prop where
  | parse (e : ParseError) : LineError.Alike place (.parse e) (.parse e)
  | runtime (cause : Cause) {pos pos' : Option Location} (step step' : Option Nat) : Option.Rel place pos pos' →
      LineError.Alike place (.runtime ⟨cause, pos, step⟩) (.runtime ⟨cause, pos', step'⟩)
  | stray (x : Stray) : LineError.Alike place (.stray x) (.stray x)

theorem Failure.Alike.ending {place : Location → Location → Prop} {f f' : Failure} (h : f.Alike place f')
    {s s' : State ω} (hs : Option.Rel place s.log.lastPos? s'.log.lastPos?) :
    (f.ending s).Alike place (f'.ending s') := by
  cases h with
  | parse e => exact .parse e
  | runtime cause step step' hp => exact .runtime cause _ _ hp
  | stray x => cases x with
    | endless => exact .stray _
    | _ => exact .runtime _ _ _ hs
  | foreign message => exact .runtime _ _ _ hs

inductive LineError.SameFault : LineError → LineError → Prop where
  | parse (e : ParseError) : LineError.SameFault (.parse e) (.parse e)
  | runtime (cause : Cause) (pos pos' : Option Location) (step step' : Option Nat) :
      LineError.SameFault (.runtime ⟨cause, pos, step⟩) (.runtime ⟨cause, pos', step'⟩)
  | stray (x : Stray) : LineError.SameFault (.stray x) (.stray x)

theorem Failure.Alike.sameFault {place : Location → Location → Prop} {f f' : Failure} (h : f.Alike place f')
    (s s' : State ω) : (f.ending s).SameFault (f'.ending s') := by
  cases h with
  | parse e => exact .parse e
  | runtime cause _ _ _ => exact .runtime cause _ _ _ _
  | stray x => cases x with
    | endless => exact .stray _
    | _ => exact .runtime _ _ _ _ _
  | foreign message => exact .runtime _ _ _ _ _

namespace Comparison

variable (C : Comparison ω)

inductive LineOutcome : Option LineError × State ω → Option LineError × State ω → Prop where
  | ok {t t' : State ω} : C.Between t t' → LineOutcome (none, t) (none, t')
  | error {f f' : Failure} {s s' t t' : State ω} : C.Between t t' → C.Failures f f' →
      (f.ending s).Alike C.like.place (f'.ending s') → LineOutcome (some (f.ending s), t) (some (f'.ending s'), t')
  | excused {f : Failure} {s t : State ω} {x : Option LineError × State ω} : C.excused f →
      LineOutcome (some (f.ending s), t) x
  | excused' {f : Failure} {s t : State ω} {x : Option LineError × State ω} : C.excused' f →
      LineOutcome x (some (f.ending s), t)

variable {C}

theorem Outcome.line {r r' : Except Failure Unit × State ω} {x x' : Option LineError × State ω}
    (h : C.Outcome n Any r r') (hx : Concludes C.worlds r x) (hx' : Concludes C.worlds r' x') : C.LineOutcome x x' := by
  cases h with
  | ok _ hw _ => cases hx with
    | ok ht => cases hx' with
      | ok ht' => exact .ok (hw.toBetween.unseen ht ht')
  | error hw hf => cases hx with
    | error ht => cases hx' with
      | error ht' => exact .error (hw.toBetween.unseen ht ht') hf (hf.1.ending hw.last)
  | excused hf => cases hx with
    | error _ => exact .excused hf
  | excused' hf => cases hx' with
    | error _ => exact .excused' hf

/-! ## Lines -/

def Stores (C : Comparison ω) : Prop := ∀ p p' n c c', C.programs p p' → n.Spelled → c.Alike C.like.place c' →
  C.programs (p.store n c) (p'.store n c')

section
variable (hC : C.Lawful) (hstores : C.Stores)
include hC hstores

theorem line_outcome {u u' : Line} (hu : u.Alike C.like.place u') {s s' : State ω} (hw : C.Between s s') :
    C.parted s.arrays ((u'.run C.right).run s').2.environment ∨
      C.Outcome s.arrays Any ((u.run C.left).run s) ((u'.run C.right).run s') := by
  cases hu with
  | direct hc =>
    rw [Line.run, Line.run, hC.limits]
    exact command_outcome hC (.inl rfl) hc le_rfl hw
  | stored n hp hn hc =>
    refine .inr ((record_outcome hC le_rfl hw _ _ hp).bind fun k _ _ _ _ => agree_modify fun t t' ht => ⟨?_, le_rfl⟩)
    exact ⟨⟨⟨ht.environment, ht.typed, ht.marks, ht.worlds⟩, hstores _ _ _ _ _ ht.programs hn hc⟩, ht.last⟩

/-- **Lines.** One text, as the next line of two sessions that are alike. -/
theorem evaluateLine_outcome (text : String) {s s' : State ω}
    (hplace : ∀ column statement, C.like.place ⟨C.left.file, (s.lineNumber + 1 : Nat), column, statement⟩
      ⟨C.right.file, (s'.lineNumber + 1 : Nat), column, statement⟩) (hw : C.Between s s') :
    C.parted s.arrays (evaluateLine C.right text s').2.environment ∨
      C.LineOutcome (evaluateLine C.left text s) (evaluateLine C.right text s') := by
  obtain ⟨s₁, hs, hx⟩ := evaluateLine_run hC.left text s
  obtain ⟨s₁', hs', hx'⟩ := evaluateLine_run hC.right text s'
  have hw := hw.unseen hs hs'
  have harrays : s₁.arrays = s.arrays := congrArg (·.tables.size) hs.environment
  have hparsed : Parsed C.like.place (Line.parse ⟨C.left.file, (s.lineNumber + 1 : Nat), text.toList⟩)
      (Line.parse ⟨C.right.file, (s'.lineNumber + 1 : Nat), text.toList⟩) := parse_alike rfl fun column => hplace column _
  generalize Line.parse ⟨C.left.file, (s.lineNumber + 1 : Nat), text.toList⟩ = read at hx hparsed
  generalize Line.parse ⟨C.right.file, (s'.lineNumber + 1 : Nat), text.toList⟩ = read' at hx' hparsed
  generalize evaluateLine C.left text s = x at hx ⊢
  generalize evaluateLine C.right text s' = x' at hx' ⊢
  cases hparsed with
  | line hu => exact (line_outcome hC hstores hu hw).imp (fun hparted => hx'.environment ▸ harrays ▸ hparted) (·.line hx hx')
  | error e =>
    cases hx with
    | error ht => cases hx' with
      | error ht' => exact .inr (.error (hw.unseen ht ht') ⟨.parse e, hC.parse e⟩ (.parse e))

end

/-! ## Strict comparisons -/

theorem optionRel_refl {α : Type} {R : α → α → Prop} (hR : ∀ a, R a a) : ∀ o : Option α, Option.Rel R o o
  | none => .none
  | some a => .some (hR a)

structure Strict (C : Comparison ω) : Prop where
  left : ∀ f, ¬ C.excused f
  right : ∀ f, ¬ C.excused' f

theorem Outcome.possible {α β : Type} (hstrict : C.Strict) {n : Nat} {P : Nat → α → β → Prop} {f : Failure} {t : State ω}
    {r' : Except Failure β × State ω} (h : C.Outcome n P (.error f, t) r') : C.possible f := by
  cases h with
  | error _ hf => exact hf.2
  | excused hf => exact absurd hf (hstrict.left _)
  | excused' hf => exact absurd hf (hstrict.right _)

section
variable (hstrict : C.Strict) {x x' : Option LineError × State ω} (h : C.LineOutcome x x')
include hstrict h

theorem LineOutcome.between : C.Between x.2 x'.2 := by
  cases h with
  | ok hw => exact hw
  | error hw _ _ => exact hw
  | excused hf => exact absurd hf (hstrict.left _)
  | excused' hf => exact absurd hf (hstrict.right _)

theorem LineOutcome.errors : Option.Rel (LineError.Alike C.like.place) x.1 x'.1 := by
  cases h with
  | ok _ => exact .none
  | error _ _ he => exact .some he
  | excused hf => exact absurd hf (hstrict.left _)
  | excused' hf => exact absurd hf (hstrict.right _)

theorem LineOutcome.possible {e : LineError} (he : x.1 = some e) : ∃ f s, C.possible f ∧ e = Failure.ending f (s : State ω) := by
  cases h with
  | ok _ => cases he
  | error _ hf _ => cases he; exact ⟨_, _, hf.2, rfl⟩
  | excused hf => exact absurd hf (hstrict.left _)
  | excused' hf => exact absurd hf (hstrict.right _)

end

theorem forall₂_toList {α β : Type} {R : α → β → Prop} {o : Option α} {o' : Option β} (h : Option.Rel R o o') :
    List.Forall₂ R o.toList o'.toList := by
  cases h with
  | none => exact .nil
  | some h => exact .cons h .nil

/-- **Sessions.** The same lines keep two sessions alike, and end with errors that are alike. -/
theorem evaluateLines_outcome (hC : C.Lawful) (hstores : C.Stores) (hstrict : C.Strict) (hparted : ∀ n env, ¬ C.parted n env)
    (hplace : ∀ (m n : Int) column statement, C.like.place ⟨C.left.file, m, column, statement⟩
      ⟨C.right.file, n, column, statement⟩) :
    ∀ (ls : List String) (s s' : State ω), C.Between s s' →
      List.Forall₂ (LineError.Alike C.like.place) (evaluateLines C.left ls s).1 (evaluateLines C.right ls s').1 ∧
        C.Between (evaluateLines C.left ls s).2 (evaluateLines C.right ls s').2
  | [], s, s', hw => ⟨.nil, hw⟩
  | l :: ls, s, s', hw => by
    have hline := (evaluateLine_outcome hC hstores l (fun _ _ => hplace _ _ _ _) hw).resolve_left (hparted _ _)
    obtain ⟨hes, hlast⟩ := evaluateLines_outcome hC hstores hstrict hparted hplace ls _ _ (hline.between hstrict)
    exact ⟨List.rel_append (forall₂_toList (hline.errors hstrict)) hes, hlast⟩

end Comparison

/-! ## One session -/

/-- An array was made under a name since there were so many. -/
def Environment.madeSince (env : Environment) (n : Nat) (x : String) : Bool := (env.tables.toList.drop n).any (·.name == x)

def Comparison.same (setup : Setup ω) (worlds : ω → ω → Prop) (place : Location → Location → Prop)
    (turned : String → Prop) (possible : Failure → Prop) : Comparison ω where
  left := setup
  right := setup
  like := ⟨place, setup.isBuiltin, turned⟩
  worlds := worlds
  programs := Program.Alike place
  possible := possible
  excused _ := False
  excused' _ := False
  parted n env := ∃ x, turned x ∧ env.madeSince n x

section
variable {setup : Setup ω} {worlds : ω → ω → Prop} {place : Location → Location → Prop} {turned : String → Prop}
  {possible : Failure → Prop}

theorem Comparison.same_stores : (Comparison.same setup worlds place turned possible).Stores :=
  fun _ _ _ _ _ h hn hc => h.store hn hc

theorem Comparison.same_strict : (Comparison.same setup worlds place turned possible).Strict := ⟨fun _ => id, fun _ => id⟩

theorem Comparison.same_not_parted (n : Nat) (env : Environment) :
    ¬ (Comparison.same setup worlds place (fun _ => False) possible).parted n env := by
  rintro ⟨_, ⟨⟩, _⟩

theorem Comparison.same_parts : (Comparison.same setup worlds place (fun _ => False) possible).Parts :=
  parts_none same_not_parted fun _ => id

theorem Comparison.same_lawful (hd : setup.Detached worlds) (hparts : (Comparison.same setup worlds place turned possible).Parts)
    (deliberate : ∀ cause pos step, cause.Deliberate → possible (.error (.runtime ⟨cause, pos, step⟩)))
    (parse : ∀ e, possible (.error (.parse e))) (limit : possible .limit) (endless : possible .endless)
    (refusal : ∀ text w message, (setup.sink text w).1 = .error message → possible (.foreign message))
    (added : ∀ f ∈ setup.registry.functions, ∀ args pos s failure t,
      (f.run args pos).run s = (.error failure, t) → possible failure) :
    (Comparison.same setup worlds place turned possible).Lawful where
  toParts := hparts
  left := hd
  right := hd
  functions := rfl
  limits := rfl
  elementary := rfl
  sink := hd.sink
  isBuiltin := rfl
  deliberate := deliberate
  parse := parse
  limit := limit
  endless := endless
  refusal := refusal
  added := added
  goals _ _ goal _ _ _ hp h := goals_of_alike (Comparison.same setup worlds place turned possible) h goal hp

structure Setup.Bare (setup : Setup ω) : Prop where
  functions : setup.registry.functions = []
  handlers : setup.registry.handlers = []
  rules : setup.registry.rules = []

theorem Setup.Bare.detached (hbare : setup.Bare) : setup.Detached Eq where
  refl _ := rfl
  handlers := by rw [hbare.handlers]; nofun
  rules := by rw [hbare.rules]; nofun
  functions := by rw [hbare.functions]; nofun
  sink _ _ _ h := h ▸ ⟨rfl, rfl⟩

def Setup.plain : Setup String := { sink := taking fun text typed => typed ++ text }

theorem Setup.plain_bare : Setup.plain.Bare := ⟨rfl, rfl, rfl⟩

/-- A state that a session can come to. -/
def Reachable (setup : Setup ω) (s : State ω) : Prop :=
  ∃ world ls, s = (evaluateLines setup ls (setup.start world)).2

theorem evaluateLines_append (ms : List String) : ∀ (ls : List String) (s : State ω),
    (evaluateLines setup (ls ++ ms) s).2 = (evaluateLines setup ms (evaluateLines setup ls s).2).2
  | [], _ => rfl
  | l :: ls, s => evaluateLines_append ms ls (evaluateLine setup l s).2

theorem Reachable.evaluateLine {s : State ω} (hs : Reachable setup s) (l : String) :
    Reachable setup (evaluateLine setup l s).2 := by
  obtain ⟨world, ls, rfl⟩ := hs
  exact ⟨world, ls ++ [l], (evaluateLines_append [l] ls _).symm⟩

theorem Reachable.of_lines {I : State ω → Prop} (hstart : ∀ world, I (setup.start world))
    (hline : ∀ text s, I s → I (JossLang.evaluateLine setup text s).2) {s : State ω} (hs : Reachable setup s) : I s := by
  have hlines : ∀ (ls : List String) (s : State ω), I s → I (evaluateLines setup ls s).2 := by
    intro ls
    induction ls with
    | nil => exact fun _ => id
    | cons l ls ih => exact fun s hs => ih _ (hline l s hs)
  obtain ⟨world, ls, rfl⟩ := hs
  exact hlines ls _ (hstart world)

/-- **Reachable states.** All that a state holds which a session can come to is in order: it is alike to
itself. -/
theorem Reachable.between (hd : setup.Detached worlds) (hplace : ∀ p, place p p) {s : State ω}
    (hs : Reachable setup s) : (Comparison.same setup worlds place (fun _ => False) possible).Between s s := by
  have hC : (Comparison.same setup worlds place (fun _ => False) fun _ => True).Lawful :=
    Comparison.same_lawful hd Comparison.same_parts (fun _ _ _ _ => trivial) (fun _ => trivial) trivial trivial
      (fun _ _ _ _ => trivial) fun _ _ _ _ _ _ _ _ => trivial
  have h := hs.of_lines (I := fun s => (Comparison.same setup worlds place (fun _ => False) fun _ => True).Between s s)
    (fun world => ⟨⟨Environment.alike_start _, rfl, rfl, hd.refl world⟩, Program.alike_empty⟩) fun text s h =>
      ((Comparison.evaluateLine_outcome hC Comparison.same_stores text (fun _ _ => hplace _) h).resolve_left
        (Comparison.same_not_parted _ _)).between Comparison.same_strict
  exact ⟨h.toAlike, h.programs⟩

end

def Setup.refusing (text : String) : Setup String :=
  { Setup.plain with registry.handlers :=
      [⟨.lineStart, 0, "test", fun
        | .lineStart read => if read == text then throw (.foreign "boom") else pure ()
        | _ => pure ()⟩] }

end JossLang
