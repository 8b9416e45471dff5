import JossLang.Proofs.OneLine
import JossLang.Transcript

/-!
# Padded transcripts

Remarks may be inserted anywhere in a transcript, and blank lines above its first command and behind the lines that are
expected of a command. It has the same mismatches then, at the lines where their commands stand now: `replay_padded`.
-/

namespace JossLang

structure PaddedLine where
  text : List Char
  inserted : Bool
deriving DecidableEq, Repr

/-! ## Lines of a transcript -/

def isCommandLine (l : List Char) : Bool := l.head? == some '>'

def isRemark (l : List Char) : Bool := l.head? == some '#'

def isQuiet (l : List Char) : Bool := isRemark l || isBlankText l

def upToCommand (ls : List (List Char)) : List (List Char) := ls.takeWhile fun l => !isCommandLine l

def expectedLines (ls : List (List Char)) : List String :=
  ((upToCommand ls).filter fun l => !isRemark l).map String.ofList

def exchangesFrom (n : Nat) : List (List Char) → List Exchange
  | [] => []
  | l :: ls =>
    if isCommandLine l then ⟨n, String.ofList (trim l.tail), expectedLines ls⟩ :: exchangesFrom (n + 1) ls
    else exchangesFrom (n + 1) ls

theorem not_command_of_quiet {l : List Char} (h : isQuiet l = true) : isCommandLine l = false := by
  cases l with
  | nil => rfl
  | cons c l =>
    unfold isQuiet isRemark isBlankText at h
    unfold isCommandLine
    by_contra hc
    obtain rfl : c = '>' := by simpa using hc
    have hblank : isBlank '>' = false := by decide
    simp [hblank] at h

section
variable {l : List Char} (ls : List (List Char))

theorem upToCommand_command (h : isCommandLine l = true) : upToCommand (l :: ls) = [] := by
  rw [upToCommand, List.takeWhile_cons_of_neg (by simp [h])]

theorem upToCommand_cons (h : isCommandLine l = false) : upToCommand (l :: ls) = l :: upToCommand ls := by
  rw [upToCommand, List.takeWhile_cons_of_pos (by simp [h])]
  rfl

theorem expectedLines_command (h : isCommandLine l = true) : expectedLines (l :: ls) = [] := by
  rw [expectedLines, upToCommand_command ls h]
  rfl

theorem expectedLines_remark (h : isRemark l = true) : expectedLines (l :: ls) = expectedLines ls := by
  have hc : isCommandLine l = false := not_command_of_quiet (by rw [isQuiet, h, Bool.true_or])
  rw [expectedLines, upToCommand_cons ls hc, List.filter_cons_of_neg (by simp [h])]
  rfl

theorem expectedLines_cons (hc : isCommandLine l = false) (hr : isRemark l = false) :
    expectedLines (l :: ls) = String.ofList l :: expectedLines ls := by
  rw [expectedLines, upToCommand_cons ls hc, List.filter_cons_of_pos (by simp [hr]), List.map_cons]
  rfl

end

/-! ## What is read -/

theorem eq_cons_of_head? {l : List Char} {c : Char} (h : (l.head? == some c) = true) : ∃ cs, l = c :: cs := by
  cases l with
  | nil => cases h
  | cons d cs => exact ⟨cs, by simpa using h⟩

section
variable {l : List Char} (n : Nat) (ls : List (List Char))

theorem readExchanges_remark (h : isRemark l = true) (read : List Exchange) :
    readExchanges n (l :: ls) read = readExchanges (n + 1) ls read := by
  obtain ⟨cs, rfl⟩ := eq_cons_of_head? h
  rw [readExchanges]

theorem readExchanges_command (h : isCommandLine l = true) (read : List Exchange) : readExchanges n (l :: ls) read =
    readExchanges (n + 1) ls (⟨n, String.ofList (trim l.tail), []⟩ :: read) := by
  obtain ⟨cs, rfl⟩ := eq_cons_of_head? h
  rw [readExchanges, List.tail_cons]

variable (hc : isCommandLine l = false) (hr : isRemark l = false)
include hc hr

theorem readExchanges_expected (x : Exchange) (xs : List Exchange) : readExchanges n (l :: ls) (x :: xs) =
    readExchanges (n + 1) ls ({ x with expected := String.ofList l :: x.expected } :: xs) := by
  rw [readExchanges]
  · rintro cs rfl
    cases hr
  · rintro cs rfl
    cases hc

theorem readExchanges_before :
    readExchanges n (l :: ls) [] = if isBlankText l then readExchanges (n + 1) ls [] else .error n := by
  rw [readExchanges]
  · rintro cs rfl
    cases hr
  · rintro cs rfl
    cases hc

end

theorem readExchanges_behind (ls : List (List Char)) : ∀ (n : Nat) (x : Exchange) (xs : List Exchange),
    readExchanges n ls (x :: xs) = .ok ((xs.reverse.map fun y => { y with expected := y.expected.reverse }) ++
      { x with expected := x.expected.reverse ++ expectedLines ls } :: exchangesFrom n ls) := by
  induction ls with
  | nil =>
    intro n x xs
    rw [readExchanges, List.reverse_cons, List.map_append]
    simp [expectedLines, upToCommand, exchangesFrom]
  | cons l ls ih =>
    intro n x xs
    cases hc : isCommandLine l with
    | true =>
      rw [readExchanges_command n ls hc, ih, expectedLines_command ls hc, exchangesFrom, if_pos hc]
      simp
    | false =>
      rw [exchangesFrom, hc, if_neg Bool.false_ne_true]
      cases hr : isRemark l with
      | true => rw [readExchanges_remark n ls hr, ih, expectedLines_remark ls hr]
      | false =>
        rw [readExchanges_expected n ls hc hr, ih, expectedLines_cons ls hc hr]
        simp

theorem readExchanges_eq_ok_iff (ls : List (List Char)) : ∀ (n : Nat) (xs : List Exchange),
    readExchanges n ls [] = .ok xs ↔ (∀ l ∈ upToCommand ls, isQuiet l = true) ∧ xs = exchangesFrom n ls := by
  induction ls with
  | nil =>
    intro n xs
    exact ⟨fun h => ⟨List.forall_mem_nil _, (Except.ok.inj h).symm⟩, fun ⟨_, h⟩ => congrArg Except.ok h.symm⟩
  | cons l ls ih =>
    intro n xs
    cases hc : isCommandLine l with
    | true =>
      rw [readExchanges_command n ls hc, readExchanges_behind, upToCommand_command ls hc, exchangesFrom, if_pos hc]
      exact ⟨fun h => ⟨List.forall_mem_nil _, (Except.ok.inj h).symm⟩, fun ⟨_, h⟩ => congrArg Except.ok h.symm⟩
    | false =>
      rw [exchangesFrom, hc, if_neg Bool.false_ne_true, upToCommand_cons ls hc, List.forall_mem_cons, isQuiet]
      cases hr : isRemark l with
      | true =>
        rw [readExchanges_remark n ls hr, ih]
        simp
      | false =>
        rw [readExchanges_before n ls hc hr]
        cases hb : isBlankText l with
        | true =>
          rw [if_pos rfl, ih]
          simp
        | false => simp

/-! ## Padding -/

def originalLines (ls : List PaddedLine) : List (List Char) := (ls.filter fun l => !l.inserted).map (·.text)

def allLines (ls : List PaddedLine) : List (List Char) := ls.map (·.text)

/-- Inserted are remarks, and blank lines above the first command or with only quiet lines up to the next one. -/
def IsPadding : (started : Bool) → List PaddedLine → Prop
  | _, [] => True
  | started, l :: ls =>
    (l.inserted = true → isRemark l.text = true ∨
      isBlankText l.text = true ∧ (started = true → ∀ k ∈ upToCommand (allLines ls), isQuiet k = true)) ∧
    IsPadding (started || isCommandLine l.text) ls

instance decidableIsPadding : (started : Bool) → (ls : List PaddedLine) → Decidable (IsPadding started ls)
  | _, [] => isTrue trivial
  | started, l :: ls =>
    have := decidableIsPadding (started || isCommandLine l.text) ls
    inferInstanceAs (Decidable (_ ∧ _))

def insertedAbove : List PaddedLine → (k : Nat) → Nat
  | [], _ => 0
  | l :: ls, k =>
    if l.inserted then insertedAbove ls k + 1 else if k = 0 then 0 else insertedAbove ls (k - 1)

theorem blank_of_quiet {ls : List (List Char)} (h : ∀ l ∈ upToCommand ls, isQuiet l = true) :
    ∀ l ∈ expectedLines ls, isBlankText l.toList = true := by
  intro s hs
  obtain ⟨l, hl, rfl⟩ := List.mem_map.mp hs
  rw [String.toList_ofList]
  obtain ⟨hl, hr⟩ := List.mem_filter.mp hl
  have hq := h l hl
  have hr : isRemark l = false := by simpa using hr
  rwa [isQuiet, hr, Bool.false_or] at hq

section
variable (l : PaddedLine) (ls : List PaddedLine)

theorem originalLines_inserted (h : l.inserted = true) : originalLines (l :: ls) = originalLines ls := by
  rw [originalLines, List.filter_cons_of_neg (by simp [h])]
  rfl

theorem originalLines_original (h : l.inserted = false) : originalLines (l :: ls) = l.text :: originalLines ls := by
  rw [originalLines, List.filter_cons_of_pos (by simp [h]), List.map_cons]
  rfl

theorem allLines_cons : allLines (l :: ls) = l.text :: allLines ls := rfl

end

theorem IsPadding.quiet {started : Bool} {l : PaddedLine} {ls : List PaddedLine} (h : IsPadding started (l :: ls))
    (hl : l.inserted = true) : isQuiet l.text = true := by
  rw [isQuiet]
  rcases h.1 hl with hr | ⟨hb, -⟩
  · rw [hr, Bool.true_or]
  · rw [hb, Bool.or_true]

/-- What is expected of a command stays the same, since blank lines at the end do not count. -/
theorem trimLines_expectedLines {ls : List PaddedLine} (h : IsPadding true ls) :
    trimLines (expectedLines (allLines ls)) = trimLines (expectedLines (originalLines ls)) := by
  induction ls with
  | nil => rfl
  | cons l ls ih =>
    have ih := ih h.2
    rw [allLines_cons]
    cases hr : isRemark l.text with
    | true =>
      rw [expectedLines_remark _ hr, ih]
      cases hi : l.inserted with
      | true => rw [originalLines_inserted l ls hi]
      | false => rw [originalLines_original l ls hi, expectedLines_remark _ hr]
    | false =>
      cases hi : l.inserted with
      | true =>
        -- only blank lines are expected from here on
        obtain ⟨hb, hrest⟩ := (h.1 hi).resolve_left (by simp [hr])
        have hblank := blank_of_quiet (hrest rfl)
        rw [originalLines_inserted l ls hi, ← ih, trimLines_eq_nil hblank,
          expectedLines_cons _ (not_command_of_quiet (h.quiet hi)) hr]
        exact trimLines_eq_nil (List.forall_mem_cons.mpr ⟨by rwa [String.toList_ofList], hblank⟩)
      | false =>
        rw [originalLines_original l ls hi]
        cases hc : isCommandLine l.text with
        | true => rw [expectedLines_command _ hc, expectedLines_command _ hc]
        | false => rw [expectedLines_cons _ hc hr, expectedLines_cons _ hc hr, trimLines_cons, trimLines_cons, ih]

/-- A transcript that is read is read with the inserted lines too. -/
theorem quiet_upToCommand {ls : List PaddedLine} (h : IsPadding false ls)
    (hquiet : ∀ l ∈ upToCommand (originalLines ls), isQuiet l = true) : ∀ l ∈ upToCommand (allLines ls), isQuiet l = true := by
  induction ls with
  | nil => exact List.forall_mem_nil _
  | cons l ls ih =>
    have hpadding := h.2
    rw [allLines_cons]
    cases hi : l.inserted with
    | true =>
      have hc := not_command_of_quiet (h.quiet hi)
      rw [originalLines_inserted l ls hi] at hquiet
      rw [hc] at hpadding
      rw [upToCommand_cons _ hc]
      exact List.forall_mem_cons.mpr ⟨h.quiet hi, ih hpadding hquiet⟩
    | false =>
      rw [originalLines_original l ls hi] at hquiet
      cases hc : isCommandLine l.text with
      | true =>
        rw [upToCommand_command _ hc]
        exact List.forall_mem_nil _
      | false =>
        rw [hc] at hpadding
        rw [upToCommand_cons _ hc] at hquiet ⊢
        obtain ⟨hl, hquiet⟩ := List.forall_mem_cons.mp hquiet
        exact List.forall_mem_cons.mpr ⟨hl, ih hpadding hquiet⟩

/-- The exchange of an original line `n` or a later one, and what it has become: lines are counted from `m` on now. -/
structure Moved (ls : List PaddedLine) (n m : Nat) (x y : Exchange) : Prop where
  above : n ≤ x.line
  line : y.line = x.line - n + m + insertedAbove ls (x.line - n)
  command : y.command = x.command
  expected : trimLines y.expected = trimLines x.expected

theorem exchangesFrom_padded {ls : List PaddedLine} : ∀ {started : Bool}, IsPadding started ls → ∀ n m : Nat,
    List.Forall₂ (Moved ls n m) (exchangesFrom n (originalLines ls)) (exchangesFrom m (allLines ls)) := by
  induction ls with
  | nil => exact fun _ _ _ => .nil
  | cons l ls ih =>
    intro started h n m
    rw [allLines_cons, exchangesFrom]
    cases hi : l.inserted with
    | true =>
      rw [originalLines_inserted l ls hi, if_neg (by simp [not_command_of_quiet (h.quiet hi)])]
      refine (ih h.2 n (m + 1)).imp fun x y hxy => ⟨hxy.above, ?_, hxy.command, hxy.expected⟩
      rw [hxy.line, insertedAbove, if_pos hi]
      omega
    | false =>
      have htail : List.Forall₂ (Moved (l :: ls) n m) (exchangesFrom (n + 1) (originalLines ls))
          (exchangesFrom (m + 1) (allLines ls)) := by
        refine (ih h.2 (n + 1) (m + 1)).imp fun x y hxy => ?_
        have habove := hxy.above
        refine ⟨by omega, ?_, hxy.command, hxy.expected⟩
        rw [hxy.line, insertedAbove, hi, if_neg Bool.false_ne_true, if_neg (by omega), Nat.sub_sub]
        omega
      rw [originalLines_original l ls hi, exchangesFrom]
      cases hc : isCommandLine l.text with
      | true =>
        have hpadding := h.2
        rw [hc, Bool.or_true] at hpadding
        refine .cons ⟨le_rfl, ?_, rfl, trimLines_expectedLines hpadding⟩ htail
        simp [insertedAbove, hi]
      | false => exact htail

/-! ## Replay -/

section
variable {ω : Type} (setup : Setup ω)

def Mismatch.move (ls : List PaddedLine) (m : Mismatch) : Mismatch :=
  { m with line := m.line + insertedAbove ls (m.line - 1) }

theorem Moved.mismatch? {ls : List PaddedLine} {x y : Exchange} (h : Moved ls 1 1 x y) (output : String) :
    y.mismatch? output = (x.mismatch? output).map (Mismatch.move ls) := by
  have habove := h.above
  have hline : y.line = x.line + insertedAbove ls (x.line - 1) := by
    rw [h.line]
    omega
  unfold Exchange.mismatch?
  dsimp only
  rw [h.expected, h.command, hline]
  split
  · rfl
  · rfl

theorem replayFrom_moved {ls : List PaddedLine} {xs ys : List Exchange} (h : List.Forall₂ (Moved ls 1 1) xs ys) :
    ∀ s : State ω, replayFrom setup ys s =
      { replayFrom setup xs s with mismatches := (replayFrom setup xs s).mismatches.map (Mismatch.move ls) } := by
  induction h with
  | nil => exact fun _ => rfl
  | @cons x y _ _ hxy _ ih =>
    intro s
    rw [replayFrom, replayFrom, hxy.command]
    rcases hx : exchange setup x.command s with ⟨_ | output, t⟩
    · rfl
    · dsimp only
      rw [ih, hxy.mismatch?, List.map_append, Option.toList_map]

theorem readTranscript_eq_ok_iff (text : String) (xs : List Exchange) : readTranscript text = .ok xs ↔
    (∀ l ∈ upToCommand (linesOf text.toList), isQuiet l = true) ∧ xs = exchangesFrom 1 (linesOf text.toList) :=
  readExchanges_eq_ok_iff _ 1 xs

/-- **Padding.** Inserted remarks and blank lines leave a session as it is, but for the numbers of its lines. -/
theorem replay_padded {text padded : String} {ls : List PaddedLine} (htext : linesOf text.toList = originalLines ls)
    (hpadded : linesOf padded.toList = allLines ls) (hpadding : IsPadding false ls) {exchanges : List Exchange}
    (hread : readTranscript text = .ok exchanges) (world : ω) :
    (∃ exchanges', readTranscript padded = .ok exchanges') ∧ ∃ r : Replay ω, replay setup text world = .ok r ∧
      replay setup padded world = .ok { r with mismatches := r.mismatches.map (Mismatch.move ls) } := by
  obtain ⟨hquiet, rfl⟩ := (readTranscript_eq_ok_iff text exchanges).mp hread
  have hread' : readTranscript padded = .ok (exchangesFrom 1 (linesOf padded.toList)) := by
    refine (readTranscript_eq_ok_iff padded _).mpr ⟨?_, rfl⟩
    rw [hpadded]
    exact quiet_upToCommand hpadding (htext ▸ hquiet)
  have hmoved := exchangesFrom_padded hpadding 1 1
  rw [← htext, ← hpadded] at hmoved
  refine ⟨⟨_, hread'⟩, _, by rw [replay, hread]; rfl, ?_⟩
  rw [replay, hread']
  show Except.ok (replayFrom setup _ _) = _
  rw [replayFrom_moved setup hmoved]

/-- Blank lines above the first command, behind expected lines and at the end, and a remark among expected lines. -/
theorem replay_padded_everywhere :
    let setup : Setup Unit := { registry := {}, sink := taking fun _ w => w }
    let text := "> Type 2.\n3\n> Type 1.\n1"
    let padded := " \n> Type 2.\n# two\n3\n\n# one\n> Type 1.\n1\n\n"
    replay setup text () = .ok ⟨[⟨1, "Type 2.", ["3"], ["2"]⟩], none, ()⟩ ∧
      replay setup padded () = .ok ⟨[⟨2, "Type 2.", ["3"], ["2"]⟩], none, ()⟩ := by
  intro setup text padded
  let ls : List PaddedLine := [⟨" ".toList, true⟩, ⟨"> Type 2.".toList, false⟩, ⟨"# two".toList, true⟩, ⟨"3".toList, false⟩,
    ⟨[], true⟩, ⟨"# one".toList, true⟩, ⟨"> Type 1.".toList, false⟩, ⟨"1".toList, false⟩, ⟨[], true⟩]
  have hread : readTranscript text = .ok [⟨1, "Type 2.", ["3"]⟩, ⟨3, "Type 1.", ["1"]⟩] := by decide +kernel
  have hlines : linesOf text.toList = originalLines ls ∧ linesOf padded.toList = allLines ls := by decide +kernel
  obtain ⟨-, r, htext, hpadded⟩ := replay_padded setup hlines.1 hlines.2 (by decide +kernel) hread ()
  have hmismatches : replay setup text () = .ok ⟨[⟨1, "Type 2.", ["3"], ["2"]⟩], none, ()⟩ := by decide +kernel
  rw [hmismatches] at htext
  cases htext
  exact ⟨hmismatches, hpadded⟩

end

end JossLang
