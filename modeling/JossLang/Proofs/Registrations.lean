import JossLang.Proofs.Readers
import JossLang.Session.Execution

/-!
# Registrations

What a registry holds after any number of registrations, of which some were refused: the accepted ones and nothing
else, in their order. Handlers are inserted one at a time, and yet stand in the order of one stable sort.
-/

namespace JossLang

variable {ω α : Type}

/-! ## Stable order

What decides is a number, and the greater one comes first. -/

section
variable {key : α → Int}

theorem descending_unique : ∀ {l m : List α}, l.Pairwise (fun a b => key b ≤ key a) → m.Pairwise (fun a b => key b ≤ key a) →
    (∀ p, l.filter (key · = p) = m.filter (key · = p)) → l = m
  | [], [], _, _, _ => rfl
  | [], b :: m, _, _, h => by simpa using h (key b)
  | a :: l, [], _, _, h => by simpa using h (key a)
  | a :: l, b :: m, hl, hm, h => by
    obtain ⟨ha, hrest⟩ := List.pairwise_cons.mp hl
    obtain ⟨hb, hrest'⟩ := List.pairwise_cons.mp hm
    have hfound : ∀ p x, x ∈ (a :: l).filter (key · = p) ↔ x ∈ (b :: m).filter (key · = p) := fun p x => by rw [h p]
    have hab : key a ≤ key b := by
      have ham : a ∈ b :: m := (List.mem_filter.mp ((hfound (key a) a).mp (by simp))).1
      cases ham with
      | head => exact le_refl _
      | tail _ ham => exact hb a ham
    have hba : key b ≤ key a := by
      have hbl : b ∈ a :: l := (List.mem_filter.mp ((hfound (key b) b).mpr (by simp))).1
      cases hbl with
      | head => exact le_refl _
      | tail _ hbl => exact ha b hbl
    have hkey : key b = key a := le_antisymm hba hab
    have hfirst := h (key a)
    simp only [List.filter_cons, hkey, decide_true, if_true, List.cons.injEq] at hfirst
    obtain ⟨rfl, -⟩ := hfirst
    refine congrArg (a :: ·) (descending_unique hrest hrest' fun p => ?_)
    have hp := h p
    by_cases hap : key a = p
    · simpa [hap] using hp
    · simpa [hap] using hp

/-- Sorting keeps the order of elements with the same number. -/
theorem filter_mergeSort (l : List α) (p : Int) :
    (l.mergeSort fun a b => decide (key b ≤ key a)).filter (key · = p) = l.filter (key · = p) := by
  have hsame : (l.filter (key · = p)).Pairwise fun a b => decide (key b ≤ key a) = true := by
    refine List.pairwise_of_forall_mem_list fun a ha b hb => ?_
    have ha : key a = p := by simpa using (List.mem_filter.mp ha).2
    have hb : key b = p := by simpa using (List.mem_filter.mp hb).2
    exact decide_eq_true (le_of_eq (hb.trans ha.symm))
  have hsub : (l.filter (key · = p)).Sublist (l.mergeSort fun a b => decide (key b ≤ key a)) :=
    List.sublist_mergeSort (by simp; omega) (by simp; omega) hsame List.filter_sublist
  have hsub' := hsub.filter (key · = p)
  rw [List.filter_filter] at hsub'
  simp only [Bool.and_self] at hsub'
  exact (hsub'.eq_of_length (((List.mergeSort_perm l _).filter _).length_eq).symm).symm

theorem eq_mergeSort_of_ties {l m : List α} (hl : l.Pairwise fun a b => key b ≤ key a)
    (hties : ∀ p, l.filter (key · = p) = m.filter (key · = p)) : l = m.mergeSort fun a b => decide (key b ≤ key a) := by
  refine descending_unique hl ?_ fun p => (hties p).trans (filter_mergeSort m p).symm
  refine (List.pairwise_mergeSort (by simp; omega) (by simp; omega) m).imp fun h => ?_
  exact of_decide_eq_true h

end

/-! ## Insertion -/

namespace Registry

/-- A handler goes behind those of at least its priority, and before all others. -/
theorem insertHandler_split (h : Handler ω) {hs : List (Handler ω)} (hsorted : hs.Pairwise fun g k => k.priority ≤ g.priority) :
    ∃ before after, hs = before ++ after ∧ insertHandler h hs = before ++ h :: after ∧
      (∀ g ∈ before, h.priority ≤ g.priority) ∧ ∀ g ∈ after, g.priority < h.priority := by
  induction hs with
  | nil => exact ⟨[], [], rfl, rfl, nofun, nofun⟩
  | cons g hs ih =>
    obtain ⟨hg, hsorted⟩ := List.pairwise_cons.mp hsorted
    rw [insertHandler]
    by_cases hlow : g.priority < h.priority
    · refine ⟨[], g :: hs, rfl, if_pos hlow, nofun, ?_⟩
      intro k hk
      cases hk with
      | head => exact hlow
      | tail _ hk => exact lt_of_le_of_lt (hg k hk) hlow
    · obtain ⟨before, after, rfl, hinsert, hbefore, hafter⟩ := ih hsorted
      refine ⟨g :: before, after, rfl, ?_, ?_, hafter⟩
      · rw [if_neg hlow, hinsert, List.cons_append]
      · exact List.forall_mem_cons.mpr ⟨not_lt.mp hlow, hbefore⟩

theorem insertHandler_sorted (h : Handler ω) {hs : List (Handler ω)} (hsorted : hs.Pairwise fun g k => k.priority ≤ g.priority) :
    (insertHandler h hs).Pairwise fun g k => k.priority ≤ g.priority := by
  obtain ⟨before, after, rfl, hinsert, hbefore, hafter⟩ := insertHandler_split h hsorted
  obtain ⟨hb, ha, hba⟩ := List.pairwise_append.mp hsorted
  rw [hinsert, List.pairwise_append, List.pairwise_cons]
  refine ⟨hb, ⟨fun k hk => le_of_lt (hafter k hk), ha⟩, fun g hg k hk => ?_⟩
  cases hk with
  | head => exact hbefore g hg
  | tail _ hk => exact hba g hg k hk

theorem insertHandler_ties (h : Handler ω) {hs : List (Handler ω)} (hsorted : hs.Pairwise fun g k => k.priority ≤ g.priority)
    (e : Event) (p : Int) :
    ((insertHandler h hs).filter (·.event = e)).filter (·.priority = p) =
      (hs.filter (·.event = e)).filter (·.priority = p) ++ if h.event = e ∧ h.priority = p then [h] else [] := by
  obtain ⟨before, after, rfl, hinsert, -, hafter⟩ := insertHandler_split h hsorted
  rw [hinsert]
  by_cases hp : h.priority = p
  · have hnone : (after.filter (·.event = e)).filter (·.priority = p) = [] := by
      rw [List.filter_eq_nil_iff]
      intro g hg
      have hlow := hafter g (List.mem_filter.mp hg).1
      simp only [decide_eq_true_eq]
      omega
    by_cases he : h.event = e
    · simp [List.filter_append, he, hp, hnone]
    · simp [List.filter_append, he]
  · by_cases he : h.event = e
    · simp [List.filter_append, he, hp]
    · simp [List.filter_append, he]

end Registry

/-! ## Calls -/

inductive Registration (ω : Type) where
  | metadata (m : Metadata)
  | function (g : AddedFunction ω)
  | handler (event : String) (priority : Int) (extension : String) (run : Notice → Run ω Unit)
  | rule (name : String) (every : Int) (extension : String) (run : StepNotice → Run ω Unit)

theorem interval_pos {every : Int} (h : 0 < every) : 0 < every.toNat := Int.pos_iff_toNat_pos.mp h

namespace Registration

def call : Registration ω → Registering ω Unit
  | metadata m => Registry.addMetadata m
  | function g => Registry.addFunction g
  | handler event priority extension run => Registry.addHandler event priority extension run
  | rule name every extension run => Registry.addRule name every extension run

def metadata? : Registration ω → Option Metadata
  | metadata m => some m
  | _ => none

def function? : Registration ω → Option (AddedFunction ω)
  | function g => some g
  | _ => none

def handler? (e : Event) : Registration ω → Option (Handler ω)
  | handler event priority extension run => if event = e.label then some ⟨e, priority, extension, run⟩ else none
  | _ => none

def rule? : Registration ω → Option (StepRule ω)
  | rule name every extension run =>
    if h : 0 < every then some ⟨name, every.toNat, interval_pos h, extension, run⟩ else none
  | _ => none

/-- Why a call is refused behind the ones that were accepted. -/
def refusal? (earlier : List (Registration ω)) : Registration ω → Option RegistrationFault
  | metadata _ => none
  | function g =>
    if !isIdentifier g.name.toList then some (.invalidName g.name)
    else if g.name ∈ (earlier.filterMap function?).map (·.name) then some (.alreadyRegistered g.name)
    else none
  | handler event _ _ _ => if event ∈ Event.all.map Event.label then none else some (.unknownEvent event)
  | rule name every _ _ => if 1 ≤ every then none else some (.badInterval name)

end Registration

def registered (calls : List (Registration ω)) : Registry ω := calls.foldl (fun r c => (c.call.run r).2) {}

def accepted (calls : List (Registration ω)) : List (Registration ω) :=
  calls.foldl (fun earlier c => if (c.refusal? earlier).isNone then earlier ++ [c] else earlier) []

/-! ## Accepted calls -/

/-- What calls have in common that were accepted one after the other. -/
structure Registration.Admitted (calls : List (Registration ω)) : Prop where
  names : ((calls.filterMap function?).map (·.name)).Nodup
  identifiers : ∀ g ∈ calls.filterMap function?, isIdentifier g.name.toList = true
  known : ∀ event priority extension run, handler event priority extension run ∈ calls → event ∈ Event.all.map Event.label
  intervals : ∀ name every extension run, rule name every extension run ∈ calls → 1 ≤ every

theorem filterMap_snoc {β : Type} (f : α → Option β) (l : List α) (a : α) :
    (l ++ [a]).filterMap f = l.filterMap f ++ (f a).toList := by
  rw [List.filterMap_append, List.filterMap_cons]
  cases f a <;> rfl

theorem Registration.filterMap_function_snoc {c : Registration ω} (hc : c.function? = none) (calls : List (Registration ω)) :
    (calls ++ [c]).filterMap function? = calls.filterMap function? := by
  rw [filterMap_snoc, hc]
  exact List.append_nil _

theorem Registration.Admitted.snoc_of_no_function {calls : List (Registration ω)} (h : Admitted calls) {c : Registration ω}
    (hc : c.function? = none)
    (hknown : ∀ event priority extension run, c = handler event priority extension run → event ∈ Event.all.map Event.label)
    (hinterval : ∀ name every extension run, c = rule name every extension run → 1 ≤ every) : Admitted (calls ++ [c]) where
  names := by
    rw [filterMap_function_snoc hc]
    exact h.names
  identifiers := by
    rw [filterMap_function_snoc hc]
    exact h.identifiers
  known event priority extension run hmem := by
    rcases List.mem_append.mp hmem with hmem | hmem
    · exact h.known event priority extension run hmem
    · exact hknown _ _ _ _ (List.mem_singleton.mp hmem).symm
  intervals name every extension run hmem := by
    rcases List.mem_append.mp hmem with hmem | hmem
    · exact h.intervals name every extension run hmem
    · exact hinterval _ _ _ _ (List.mem_singleton.mp hmem).symm

theorem Registration.Admitted.snoc {calls : List (Registration ω)} (h : Admitted calls) {c : Registration ω}
    (hc : c.refusal? calls = none) : Admitted (calls ++ [c]) := by
  cases c with
  | metadata m => exact h.snoc_of_no_function rfl nofun nofun
  | function g =>
    simp only [refusal?] at hc
    split at hc
    · cases hc
    · next hname =>
      split at hc
      · cases hc
      · next hnew =>
        refine ⟨?_, ?_, by simpa using h.known, by simpa using h.intervals⟩
        · rw [filterMap_snoc, List.map_append, List.nodup_append]
          refine ⟨h.names, by simp [function?], fun x hx y hy => ?_⟩
          rw [show y = g.name by simpa [function?] using hy]
          exact ne_of_mem_of_not_mem hx hnew
        · rw [filterMap_snoc]
          exact List.forall_mem_append.mpr ⟨h.identifiers, by simpa [function?] using hname⟩
  | handler event priority extension run =>
    simp only [refusal?] at hc
    split at hc
    · next hevent =>
      refine h.snoc_of_no_function rfl ?_ nofun
      rintro _ _ _ _ ⟨⟩
      exact hevent
    · cases hc
  | rule name every extension run =>
    simp only [refusal?] at hc
    split at hc
    · next hevery =>
      refine h.snoc_of_no_function rfl nofun ?_
      rintro _ _ _ _ ⟨⟩
      exact hevery
    · cases hc

/-! ## Single calls -/

theorem Event.label_inj {e e' : Event} : e.label = e'.label ↔ e = e' := by
  cases e <;> cases e' <;> decide

namespace Registry

theorem addFunction_run (g : AddedFunction ω) (r : Registry ω) :
    (addFunction g).run r =
      if !isIdentifier g.name.toList then (.error (.invalidName g.name), r)
      else if g.name ∈ r.functions.map (·.name) then (.error (.alreadyRegistered g.name), r)
      else (.ok (), { r with functions := r.functions ++ [g] }) := by
  have hany : (r.functions.any (·.name == g.name)) = true ↔ g.name ∈ r.functions.map (·.name) := by simp
  unfold addFunction
  split
  · rfl
  · show ExceptT.run (if r.functions.any (·.name == g.name) then throw _ else modify _ : Registering ω Unit) r = _
    by_cases hmem : g.name ∈ r.functions.map (·.name)
    · rw [if_pos (hany.mpr hmem), if_pos hmem]
      rfl
    · rw [if_neg (mt hany.mp hmem), if_neg hmem]
      rfl

theorem addHandler_run (event : String) (priority : Int) (extension : String) (run : Notice → Run ω Unit) (r : Registry ω) :
    (∃ e, event = e.label ∧ (addHandler event priority extension run).run r =
        (.ok (), { r with handlers := insertHandler ⟨e, priority, extension, run⟩ r.handlers })) ∨
      event ∉ Event.all.map Event.label ∧ (addHandler event priority extension run).run r = (.error (.unknownEvent event), r) := by
  unfold addHandler
  cases hfind : Event.all.find? (·.label == event) with
  | some e =>
    have hlabel : e.label = event := by simpa using List.find?_some hfind
    exact .inl ⟨e, hlabel.symm, rfl⟩
  | none =>
    refine .inr ⟨?_, rfl⟩
    intro hmem
    obtain ⟨e, he, hlabel⟩ := List.mem_map.mp hmem
    exact List.find?_eq_none.mp hfind e he (by simpa using hlabel)

theorem addRule_run (name : String) (every : Int) (extension : String) (run : StepNotice → Run ω Unit) (r : Registry ω) :
    (addRule name every extension run).run r =
      if h : 0 < every then
        (.ok (), { r with rules := r.rules ++ [⟨name, every.toNat, interval_pos h, extension, run⟩] })
      else (.error (.badInterval name), r) := by
  unfold addRule
  split <;> rfl

/-! ## Sequences of calls -/

structure Holds (r : Registry ω) (calls : List (Registration ω)) : Prop where
  metadata : r.metadata = calls.filterMap (·.metadata?)
  functions : r.functions = calls.filterMap (·.function?)
  rules : r.rules = calls.filterMap (·.rule?)
  sorted : r.handlers.Pairwise fun g h => h.priority ≤ g.priority
  ties : ∀ e p, (r.handlersOf e).filter (·.priority = p) = (calls.filterMap (·.handler? e)).filter (·.priority = p)

namespace Holds

theorem empty : ({} : Registry ω).Holds [] where
  metadata := rfl
  functions := rfl
  rules := rfl
  sorted := List.Pairwise.nil
  ties _ _ := rfl

variable {r : Registry ω} {calls : List (Registration ω)}

theorem handlersOf_eq (h : r.Holds calls) (e : Event) :
    r.handlersOf e = (calls.filterMap (·.handler? e)).mergeSort fun g h => decide (h.priority ≤ g.priority) :=
  eq_mergeSort_of_ties (h.sorted.filter _) (h.ties e)

theorem add (h : r.Holds calls) {r' : Registry ω} {c : Registration ω} (hc : ∀ e, c.handler? e = none)
    (hmetadata : r'.metadata = r.metadata ++ c.metadata?.toList) (hfunctions : r'.functions = r.functions ++ c.function?.toList)
    (hrules : r'.rules = r.rules ++ c.rule?.toList) (hhandlers : r'.handlers = r.handlers) : r'.Holds (calls ++ [c]) where
  metadata := by rw [hmetadata, h.metadata, filterMap_snoc]
  functions := by rw [hfunctions, h.functions, filterMap_snoc]
  rules := by rw [hrules, h.rules, filterMap_snoc]
  sorted := by rw [hhandlers]; exact h.sorted
  ties e p := by
    have hties := h.ties e p
    rw [handlersOf] at hties ⊢
    rw [hhandlers, hties, filterMap_snoc, hc]
    simp

theorem add_handler (h : r.Holds calls) (e : Event) (priority : Int) (extension : String) (run : Notice → Run ω Unit) :
    Holds { r with handlers := insertHandler ⟨e, priority, extension, run⟩ r.handlers }
      (calls ++ [.handler e.label priority extension run]) where
  metadata := by simp [h.metadata, Registration.metadata?]
  functions := by simp [h.functions, Registration.function?]
  rules := by simp [h.rules, Registration.rule?]
  sorted := insertHandler_sorted _ h.sorted
  ties e' p := by
    have hties := h.ties e' p
    rw [handlersOf] at hties ⊢
    rw [insertHandler_ties _ h.sorted, hties, filterMap_snoc, List.filter_append]
    by_cases he : e = e'
    · by_cases hp : priority = p
      · simp [Registration.handler?, he, hp]
      · simp [Registration.handler?, he, hp]
    · simp [Registration.handler?, Event.label_inj, he]

/-- **One call.** It is refused, and the registry is as before, or the registry holds it too. -/
theorem call (h : r.Holds calls) (c : Registration ω) :
    match c.refusal? calls with
    | some f => c.call.run r = (.error f, r)
    | none => (c.call.run r).1 = .ok () ∧ (c.call.run r).2.Holds (calls ++ [c]) := by
  cases c with
  | metadata m =>
    refine ⟨rfl, h.add (fun _ => rfl) rfl ?_ ?_ rfl⟩
    · exact (List.append_nil _).symm
    · exact (List.append_nil _).symm
  | function g =>
    have hrun := addFunction_run g r
    simp only [Registration.refusal?, Registration.call, ← h.functions]
    by_cases hname : (!isIdentifier g.name.toList) = true
    · rw [if_pos hname] at hrun ⊢
      exact hrun
    · rw [if_neg hname] at hrun ⊢
      by_cases hmem : g.name ∈ r.functions.map (·.name)
      · rw [if_pos hmem] at hrun ⊢
        exact hrun
      · rw [if_neg hmem] at hrun ⊢
        rw [hrun]
        refine ⟨rfl, h.add (fun _ => rfl) ?_ rfl ?_ rfl⟩
        · exact (List.append_nil _).symm
        · exact (List.append_nil _).symm
  | handler event priority extension run =>
    simp only [Registration.refusal?, Registration.call]
    rcases addHandler_run event priority extension run r with ⟨e, rfl, hrun⟩ | ⟨hunknown, hrun⟩
    · rw [if_pos (by cases e <;> decide), hrun]
      exact ⟨rfl, h.add_handler e priority extension run⟩
    · rw [if_neg hunknown]
      exact hrun
  | rule name every extension run =>
    have hrun := addRule_run name every extension run r
    simp only [Registration.refusal?, Registration.call]
    by_cases hevery : 0 < every
    · rw [dif_pos hevery] at hrun
      rw [if_pos (show 1 ≤ every from hevery), hrun]
      refine ⟨rfl, h.add (fun _ => rfl) ?_ ?_ ?_ rfl⟩
      · exact (List.append_nil _).symm
      · exact (List.append_nil _).symm
      · simp [Registration.rule?, hevery]
    · rw [dif_neg hevery] at hrun
      rw [if_neg (show ¬ 1 ≤ every from hevery)]
      exact hrun

end Holds

end Registry

theorem registered_snoc (calls : List (Registration ω)) (c : Registration ω) :
    registered (calls ++ [c]) = (c.call.run (registered calls)).2 := by
  rw [registered, List.foldl_append]
  rfl

theorem accepted_snoc (calls : List (Registration ω)) (c : Registration ω) :
    accepted (calls ++ [c]) = if (c.refusal? (accepted calls)).isNone then accepted calls ++ [c] else accepted calls := by
  rw [accepted, List.foldl_append]
  rfl

/-- **Calls.** After any calls the registry holds the accepted ones. -/
theorem registered_holds (calls : List (Registration ω)) :
    (registered calls).Holds (accepted calls) ∧ Registration.Admitted (accepted calls) ∧ (accepted calls).Sublist calls := by
  induction calls using List.reverseRecOn with
  | nil => exact ⟨Registry.Holds.empty, ⟨List.nodup_nil, nofun, nofun, nofun⟩, List.Sublist.refl []⟩
  | append_singleton calls c ih =>
    obtain ⟨hholds, hadmitted, hsub⟩ := ih
    have hcall := hholds.call c
    rw [registered_snoc, accepted_snoc]
    cases hrefusal : c.refusal? (accepted calls) with
    | some f =>
      rw [hrefusal] at hcall
      dsimp only at hcall
      rw [hcall]
      exact ⟨hholds, hadmitted, hsub.trans (List.sublist_append_left calls [c])⟩
    | none =>
      rw [hrefusal] at hcall
      exact ⟨hcall.2, hadmitted.snoc hrefusal, hsub.append (List.Sublist.refl [c])⟩

end JossLang
