import JossLang.Environment
import Mathlib

/-!
# Indices

Two indices are the same when their numbers are equal, and both zeros are equal.
Sameness is an equivalence, so that an array finds at an index what was put last
at any index that is the same (`lookup_put`).
-/

namespace JossLang

open Float.Model (UnpackedFloat)

/-! ## Equality of numbers -/

def unsignedZero : UnpackedFloat → UnpackedFloat
  | .zero _ => .zero .positive
  | a => a

theorem compare_eq_iff (a b : UnpackedFloat) :
    a.compare b = some .eq ↔ a.isNaN = false ∧ unsignedZero a = unsignedZero b := by
  cases a with
  | notANumber => cases b <;> simp [UnpackedFloat.compare, UnpackedFloat.isNaN]
  | infinity s =>
    cases b with
    | infinity t => cases s <;> cases t <;> simp [UnpackedFloat.compare, unsignedZero, UnpackedFloat.isNaN, compare]
    | _ => cases s <;> simp [UnpackedFloat.compare, unsignedZero, UnpackedFloat.isNaN]
  | zero s =>
    cases b with
    | infinity t => cases t <;> simp [UnpackedFloat.compare, unsignedZero, UnpackedFloat.isNaN]
    | finite t => cases t <;> simp [UnpackedFloat.compare, unsignedZero, UnpackedFloat.isNaN]
    | _ => simp [UnpackedFloat.compare, unsignedZero, UnpackedFloat.isNaN]
  | finite s m e hm =>
    cases b with
    | finite t n k hn =>
      cases s <;> cases t <;>
        simp [UnpackedFloat.compare, unsignedZero, UnpackedFloat.isNaN, Ordering.then_eq_eq, and_comm]
    | infinity t => cases t <;> cases s <;> simp [UnpackedFloat.compare, unsignedZero, UnpackedFloat.isNaN]
    | _ => cases s <;> simp [UnpackedFloat.compare, unsignedZero, UnpackedFloat.isNaN]

def numberOf (x : Float) : UnpackedFloat := unsignedZero x.toModel.unpack

theorem beq_iff_numberOf (x y : Float) : (x == y) = true ↔ x.isNaN = false ∧ numberOf x = numberOf y := by
  have : (x == y) = (x.toModel.unpack.compare y.toModel.unpack == some .eq) := rfl
  rw [this, beq_iff_eq, compare_eq_iff]
  rfl

theorem isNaN_congr {x y : Float} (h : numberOf x = numberOf y) : x.isNaN = y.isNaN := by
  have hn : ∀ z : Float, z.isNaN = (numberOf z).isNaN := fun z => by
    show z.toModel.unpack.isNaN = (unsignedZero z.toModel.unpack).isNaN
    cases z.toModel.unpack <;> rfl
  rw [hn, hn, h]

/-! ## Indices that are the same -/

theorem Index.beq_iff (a b : Index) :
    (a == b) = true ↔ numberOf a.value = numberOf b.value ∧ (a.value.isNaN = true → a.mark = b.mark) := by
  have hdef : (a == b) = (a.value == b.value || (a.value.isNaN && b.value.isNaN && a.mark == b.mark)) := rfl
  rw [hdef, Bool.or_eq_true, beq_iff_numberOf]
  have hnan : ∀ {x y : Float}, x.isNaN = true → y.isNaN = true → numberOf x = numberOf y := by
    intro x y hx hy
    have hx' : x.toModel.unpack.isNaN = true := hx
    have hy' : y.toModel.unpack.isNaN = true := hy
    unfold numberOf
    cases hux : x.toModel.unpack <;> cases huy : y.toModel.unpack <;> simp_all [UnpackedFloat.isNaN]
  constructor
  · rintro (⟨hn, he⟩ | h)
    · exact ⟨he, fun ht => by rw [hn] at ht; cases ht⟩
    · simp only [Bool.and_eq_true, beq_iff_eq] at h
      exact ⟨hnan h.1.1 h.1.2, fun _ => h.2⟩
  · rintro ⟨he, hm⟩
    cases hn : a.value.isNaN with
    | false => exact .inl ⟨rfl, he⟩
    | true =>
      right
      have hb : b.value.isNaN = true := isNaN_congr he ▸ hn
      rw [hb, hm hn, BEq.rfl]
      rfl

instance : EquivBEq Index where
  rfl := by
    intro a
    exact (Index.beq_iff a a).mpr ⟨rfl, fun _ => rfl⟩
  symm := by
    intro a b h
    obtain ⟨he, hm⟩ := (Index.beq_iff a b).mp h
    exact (Index.beq_iff b a).mpr ⟨he.symm, fun hb => (hm (isNaN_congr he ▸ hb)).symm⟩
  trans := by
    intro a b c hab hbc
    obtain ⟨he, hm⟩ := (Index.beq_iff a b).mp hab
    obtain ⟨he', hm'⟩ := (Index.beq_iff b c).mp hbc
    exact (Index.beq_iff a c).mpr ⟨he.trans he', fun ha => (hm ha).trans (hm' (isNaN_congr he ▸ ha))⟩

instance instEquivBEqTuples {α : Type} [BEq α] [EquivBEq α] : EquivBEq (List α) where
  rfl := by
    intro as
    induction as with
    | nil => rfl
    | cons a as ih => rw [List.cons_beq_cons, BEq.rfl, ih, Bool.and_self]
  symm := by
    intro as bs h
    induction as generalizing bs with
    | nil => cases bs <;> simp_all
    | cons a as ih =>
      cases bs with
      | nil => simp at h
      | cons b bs =>
        rw [List.cons_beq_cons, Bool.and_eq_true] at h ⊢
        exact ⟨BEq.symm h.1, ih h.2⟩
  trans := by
    intro as bs cs h h'
    induction as generalizing bs cs with
    | nil => cases bs <;> simp_all
    | cons a as ih =>
      cases bs with
      | nil => simp at h
      | cons b bs =>
        cases cs with
        | nil => simp at h'
        | cons c cs =>
          rw [List.cons_beq_cons, Bool.and_eq_true] at h h' ⊢
          exact ⟨BEq.trans h.1 h'.1, ih h.2 h'.2⟩

def NaNFree (is : List Index) : Prop := ∀ i ∈ is, i.value.isNaN = false

def EqualTuples (as bs : List Index) : Prop := List.Forall₂ (fun a b => (a.value == b.value) = true) as bs

instance (as bs : List Index) : Decidable (EqualTuples as bs) := inferInstanceAs (Decidable (List.Forall₂ _ as bs))

theorem beq_iff_equalTuples {as : List Index} (h : NaNFree as) (bs : List Index) :
    (as == bs) = true ↔ EqualTuples as bs := by
  induction as generalizing bs with
  | nil => cases bs <;> simp [EqualTuples]
  | cons a as ih =>
    cases bs with
    | nil => simp [EqualTuples]
    | cons b bs =>
      have ha : a.value.isNaN = false := h a (by simp)
      rw [List.cons_beq_cons, Bool.and_eq_true, ih (fun i hi => h i (List.mem_cons_of_mem _ hi)), Index.beq_iff]
      unfold EqualTuples
      rw [List.forall₂_cons, beq_iff_numberOf, ha, eq_self, true_and]
      exact and_congr_left fun _ => and_iff_left nofun

/-! ## Look-ups -/

theorem lookup_put {α β : Type} [BEq α] [EquivBEq α] (key other : α) (value : β) (l : List (α × β)) :
    (put key value l).lookup other = if other == key then some value else l.lookup other := by
  induction l with
  | nil => cases h : other == key <;> simp [put, List.lookup_cons, h]
  | cons e l ih =>
    obtain ⟨k, v⟩ := e
    rw [put]
    cases hk : key == k with
    | true =>
      have hcongr : (other == key) = (other == k) := BEq.congr_right hk
      rw [if_pos rfl, List.lookup_cons, List.lookup_cons, hcongr]
      cases other == k <;> rfl
    | false =>
      rw [if_neg Bool.false_ne_true, List.lookup_cons, List.lookup_cons, ih]
      cases ho : other == key with
      | true =>
        have hcongr : (other == k) = (key == k) := BEq.congr_left ho
        rw [hcongr, hk]
      | false => rfl

theorem mem_put {α β : Type} [BEq α] {key : α} {value : β} {l : List (α × β)} {e : α × β} (h : e ∈ put key value l) :
    e = (key, value) ∨ ∃ f ∈ l, e.1 = f.1 := by
  induction l with
  | nil => exact .inl (by simpa [put] using h)
  | cons f l ih =>
    rw [put] at h
    split at h
    · rcases List.mem_cons.mp h with rfl | h
      · exact .inr ⟨f, by simp, rfl⟩
      · exact .inr ⟨e, List.mem_cons_of_mem _ h, rfl⟩
    · rcases List.mem_cons.mp h with rfl | h
      · exact .inr ⟨f, by simp, rfl⟩
      · rcases ih h with he | ⟨g, hg, he⟩
        · exact .inl he
        · exact .inr ⟨g, List.mem_cons_of_mem _ hg, he⟩

end JossLang
