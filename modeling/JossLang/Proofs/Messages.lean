import JossLang.Proofs.Decimals
import JossLang.Proofs.OneLine
import JossLang.Proofs.Provenance
import JossLang.Proofs.SpacedLines
import JossLang.Session.Execution

/-!
# Messages on one line

What a line says stays on one line: the numbers that are written (`oneLine_written`), the errors of its reading
(`parse_message`), and the faults of running it, if the names they mention are on one line.
-/

namespace JossLang

/-! ## Numbers -/

theorem StepNumber.oneLine_of_ofLiteral {literal : String} {n : StepNumber} (h : StepNumber.ofLiteral literal = .ok n) :
    OneLine n.spelling := by
  unfold StepNumber.ofLiteral at h
  split at h
  · cases h
  · split at h
    · cases h
    · next d _ =>
      dsimp only at h
      split at h
      · cases h
      · cases h
        have hfraction : OneLine (String.ofList d.rounded.positional.2) :=
          oneLine_ofList.mpr fun c hc => not_lineBreak_of_digit (d.rounded.positional_fraction.1 c hc)
        exact ((oneLine_spellInt _).append (oneLine_literal rfl)).append hfraction

theorem oneLine_of_partOf {literal part : String} (h : partOf literal = .ok part) : OneLine part := by
  unfold partOf at h
  split at h
  · cases h
  · split at h
    · cases h
      exact oneLine_spellInt _
    · cases h

def isNumberChar (c : Char) : Bool := c.isDigit || c == '.' || c == '-' || c == '+' || c == 'e'

theorem not_lineBreak_of_numberChar {c : Char} (h : isNumberChar c) : isLineBreak c = false := by
  simp only [isNumberChar, Bool.or_eq_true, beq_iff_eq, or_assoc] at h
  rcases h with h | rfl | rfl | rfl | rfl
  · exact not_lineBreak_of_digit h
  all_goals decide

namespace Double

theorem numberChar_exponentText (e : Int) : ∀ c ∈ exponentText e, isNumberChar c := by
  intro c hc
  rcases List.mem_cons.mp hc with rfl | hc
  · split <;> decide
  · simp [isNumberChar, ascii_digitsOf _ c hc]

theorem numberChar_layout {d : Digits} (h : AsciiDigits d.digits) : ∀ c ∈ d.layout, isNumberChar c := by
  have hdigits : ∀ c ∈ d.digits, isNumberChar c := fun c hc => by simp [isNumberChar, h c hc]
  have hzeros : ∀ n, ∀ c ∈ List.replicate n '0', isNumberChar c := fun n c hc => by
    simp [isNumberChar, SignedDecimal.ascii_replicate_zero n c hc]
  have hpoint : isNumberChar '.' := by decide
  unfold Digits.layout
  dsimp only
  split
  · exact List.forall_mem_append.mpr ⟨hdigits, hzeros _⟩
  · split
    · refine List.forall_mem_append.mpr ⟨fun c hc => hdigits c (List.mem_of_mem_take hc), ?_⟩
      exact List.forall_mem_cons.mpr ⟨hpoint, fun c hc => hdigits c (List.mem_of_mem_drop hc)⟩
    · split
      · refine List.forall_mem_cons.mpr ⟨by decide, List.forall_mem_cons.mpr ⟨hpoint, ?_⟩⟩
        exact List.forall_mem_append.mpr ⟨hzeros _, hdigits⟩
      · generalize d.digits = ds at hdigits
        match ds with
        | [] => exact List.forall_mem_nil _
        | [c] =>
          refine List.forall_mem_cons.mpr ⟨hdigits c (List.mem_singleton_self c), List.forall_mem_cons.mpr ⟨by decide, ?_⟩⟩
          exact numberChar_exponentText _
        | c :: d :: ds =>
          obtain ⟨hc, hds⟩ := List.forall_mem_cons.mp hdigits
          refine List.forall_mem_append.mpr ⟨List.forall_mem_cons.mpr ⟨hc, List.forall_mem_cons.mpr ⟨hpoint, hds⟩⟩, ?_⟩
          exact List.forall_mem_cons.mpr ⟨by decide, numberChar_exponentText _⟩

theorem ascii_shortestDigits (x : Float) : AsciiDigits (shortestDigits x).digits := by
  unfold shortestDigits Decimal.normalDigits
  dsimp only
  split
  · exact List.forall_mem_singleton.mpr (by decide)
  · exact SignedDecimal.ascii_dropTrailingZeros (ascii_digitsOf _)

theorem oneLine_written (x : Float) : OneLine (written x) := by
  have hdigits : ∀ c ∈ (shortestDigits x).layout, isLineBreak c = false := fun c hc =>
    not_lineBreak_of_numberChar (numberChar_layout (ascii_shortestDigits x) c hc)
  unfold written
  split
  · exact oneLine_literal rfl
  · split
    · split <;> exact oneLine_literal rfl
    · split
      · exact oneLine_literal rfl
      · rw [oneLine_ofList, signed]
        split
        · exact List.forall_mem_cons.mpr ⟨by decide, hdigits⟩
        · exact hdigits

end Double

/-! ## Errors of reading -/

def Lexeme.Unbroken (l : Lexeme) : Prop := OneLine l.spelling

theorem Place.oneLine_label (p : Place) : OneLine p.label := by
  cases p <;> exact oneLine_literal rfl

theorem Kind.oneLine_label (k : Kind) : OneLine k.label := by
  cases k <;> exact oneLine_literal rfl

theorem Lexeme.IsSign.unbroken {l : Lexeme} (h : l.IsSign) : l.Unbroken := by
  rw [Lexeme.Unbroken]
  cases l with
  | keyword k => cases k <;> exact oneLine_literal rfl
  | operator o => cases o <;> exact oneLine_literal rfl
  | opening b => cases b <;> exact oneLine_literal rfl
  | closing b => cases b <;> exact oneLine_literal rfl
  | name | number | text | other => exact h.elim
  | _ => exact oneLine_literal rfl

theorem OneLine.quoted {s : String} (h : OneLine s) {before : String} (hbefore : OneLine before) :
    OneLine (before ++ s ++ "'") := (hbefore.append h).append (oneLine_literal rfl)

theorem Wanted.oneLine_label {w : Wanted} (h : ∀ l, w = .lexeme l → l.IsSign) : OneLine w.label := by
  cases w with
  | kind k => exact k.oneLine_label
  | lexeme l => exact (h l rfl).unbroken.quoted (l.kind.oneLine_label.append (oneLine_literal rfl))

theorem NumberFault.oneLine_message {literal : String} (h : OneLine literal) (fault : NumberFault) :
    OneLine (fault.message literal) := by
  cases fault with
  | malformedStep => exact h.quoted (oneLine_literal rfl)
  | malformedPart => exact h.quoted (oneLine_literal rfl)
  | stepWithoutPoint => refine (OneLine.append ?_ h).append ?_ <;> exact oneLine_literal rfl
  | stepWithoutFraction => refine (OneLine.append ?_ h).append ?_ <;> exact oneLine_literal rfl
  | partWithPoint => refine (OneLine.append ?_ h).append ?_ <;> exact oneLine_literal rfl

theorem ParseCause.oneLine_message {cause : ParseCause} (h : cause.Drawn Lexeme.Unbroken) : OneLine cause.message := by
  cases cause with
  | unexpected place wanted found =>
    obtain ⟨hwanted, hfound⟩ := h
    have hlabels : OneLine (place.label ++ ": expected " ++ wanted.label ++ " but found " ++ found.kind.label ++ " '") := by
      refine ((((place.oneLine_label.append ?_).append (Wanted.oneLine_label hwanted)).append ?_).append
        found.kind.oneLine_label).append ?_ <;> exact oneLine_literal rfl
    exact OneLine.quoted hfound hlabels
  | notACommand k =>
    have hk : OneLine k.spelling := Lexeme.IsSign.unbroken (l := .keyword k) trivial
    refine (OneLine.append ?_ hk).append ?_ <;> exact oneLine_literal rfl
  | badNumber fault literal => exact fault.oneLine_message h
  | raised => exact h.elim
  | noVerb l | notTypable l | notAnOperand l | unknownOperator l | noIteratedBody l | unfinishedRange l =>
    exact OneLine.quoted h (oneLine_literal rfl)
  | noDoTarget | iteratedTarget | tooDeep => exact oneLine_literal rfl

theorem ParseError.oneLine_message {e : ParseError} (h : e.cause.Drawn Lexeme.Unbroken) : OneLine e.message := by
  unfold ParseError.message
  split
  · exact ((ParseCause.oneLine_message h).append (oneLine_literal rfl)).append (oneLine_spellNat _)
  · exact ParseCause.oneLine_message h

section
variable (src : Source) (hline : ∀ c ∈ src.text, isLineBreak c = false)
include hline

theorem tokensOf_unbroken : ∀ t ∈ tokensOf src.text, t.lexeme.Unbroken := by
  intro t ht c hc
  unfold tokensOf at ht
  split at ht
  · cases ht
  · exact hline c (mem_of_token ht hc)

theorem parse_unbroken {line : Line} (h : Line.parse src = .ok line) : line.Drawn Lexeme.Unbroken :=
  parse_drawn (tokensOf_unbroken src hline) oneLine_empty h

theorem parse_message {e : ParseError} (h : Line.parse src = .error e) : OneLine e.message :=
  ParseError.oneLine_message (parse_blames (tokensOf_unbroken src hline) oneLine_empty h)

end

/-! ## Faults -/

namespace Cause

theorem oneLine_unbound {name : String} (h : OneLine name) : OneLine (unbound name).message :=
  OneLine.append (oneLine_literal rfl) h

theorem oneLine_functionAsScalar {name : String} (h : OneLine name) : OneLine (functionAsScalar name).message :=
  h.quoted (oneLine_literal rfl)

theorem oneLine_wrongDimensions {array : String} (h : OneLine array) (expected got : Nat) :
    OneLine (wrongDimensions array expected got).message := by
  refine (((((OneLine.append ?_ h).append ?_).append (oneLine_spellNat _)).append ?_).append
    (oneLine_spellNat _)).append ?_ <;> exact oneLine_literal rfl

theorem oneLine_missingElement {array : String} (h : OneLine array) (indices : List Float) :
    OneLine (missingElement array indices).message := by
  have hindices : OneLine (",".intercalate (indices.map Double.written)) :=
    oneLine_intercalate (oneLine_literal rfl) (List.forall_mem_map.mpr fun x _ => Double.oneLine_written x)
  refine (((OneLine.append ?_ h).append ?_).append hindices).append ?_ <;> exact oneLine_literal rfl

theorem oneLine_noSuchStep {n : StepNumber} (h : OneLine n.spelling) : OneLine (noSuchStep n).message :=
  OneLine.append (oneLine_literal rfl) h

theorem oneLine_noSuchPart {part : String} (h : OneLine part) : OneLine (noSuchPart part).message :=
  OneLine.append (oneLine_literal rfl) h

theorem oneLine_wrongArguments {function : String} (h : OneLine function) (expected got : Nat) :
    OneLine (wrongArguments function expected got).message := by
  refine (((OneLine.append ?_ h).append ?_).append (oneLine_spellNat _)).append ?_ |>.append (oneLine_spellNat _) <;>
    exact oneLine_literal rfl

theorem oneLine_notAFunction {name : String} (h : OneLine name) : OneLine (notAFunction name).message := by
  refine (OneLine.append ?_ h).append ?_ <;> exact oneLine_literal rfl

theorem oneLine_hookFailed (event : Event) {m : String} (h : OneLine m) : OneLine (hookFailed event m).message := by
  have hevent : OneLine event.label := by cases event <;> exact oneLine_literal rfl
  refine ((OneLine.append ?_ hevent).append ?_).append h <;> exact oneLine_literal rfl

theorem oneLine_ruleFailed {m : String} (h : OneLine m) : OneLine (ruleFailed m).message :=
  OneLine.append (oneLine_literal rfl) h

theorem oneLine_internal {m : String} (h : OneLine m) : OneLine (internal m).message :=
  OneLine.append (oneLine_literal rfl) h

theorem oneLine_limitReached : OneLine limitReached.message := oneLine_literal rfl

theorem oneLine_arity {a : Arity} {function : String} (h : OneLine function) {supplied : Nat} {c : Cause}
    (hc : a.fault? function supplied = some c) : OneLine c.message := by
  unfold Arity.fault? at hc
  split at hc
  · cases hc
    refine ((h.append ?_).append (oneLine_spellInt _)).append ?_ <;> exact oneLine_literal rfl
  · split at hc
    · split at hc
      · cases hc
        refine ((h.append ?_).append (oneLine_spellInt _)).append ?_ <;> exact oneLine_literal rfl
      · cases hc
    · cases hc

end Cause

end JossLang
