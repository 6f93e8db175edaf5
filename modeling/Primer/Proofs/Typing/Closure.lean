import Primer.Proofs.Typing.Diagnostics

/-!
Typing and the structures of a program. A program whose declarations mention only structures of its own is
closed under typing: members, elements, results of calls and of methods lead from such types to such
types. Checking decides which programs these are (`Program.closed_iff_check`).
-/

namespace Primer

/-- The structure that a type mentions, below whatever vectors. -/
def Ty.mentioned? : Ty → Option String
  | vector element => element.mentioned?
  | named name => some name
  | boolean | integer | natural | real | char | string => none

namespace Program

variable {p : Program}

theorem Knows.mentioned {t : Ty} (h : p.Knows t) :
    ∀ name ∈ t.mentioned?, ∃ s ∈ p.structures, s.name = name := by
  induction h with
  | @scalar t h =>
    intro name hname
    cases t with
    | vector _ | named _ => cases h
    | boolean | integer | natural | real | char | string => cases hname
  | vector _ ih => exact ih
  | @named s hs =>
    intro name hname
    cases hname
    exact ⟨s, hs, rfl⟩

/-! ## Deciding -/

theorem cause_of_mem_checkType {i : Position} {t : Ty} {d : Diagnostic} (h : d ∈ p.checkType i t) :
    ∃ name, d.cause = .undefinedStructure name := by
  induction t with
  | vector t ih => exact ih h
  | named name =>
    rw [checkType] at h
    split at h
    · cases h
    · cases List.mem_singleton.1 h
      exact ⟨name, rfl⟩
  | boolean | integer | natural | real | char | string => cases h

/-- Where checking reports no structure as undefined, it has checked only known types. -/
theorem knows_of_checkType_subset {i : Position} {t : Ty}
    (hp : ∀ d ∈ p.check, ∀ name, d.cause ≠ .undefinedStructure name) (h : p.checkType i t ⊆ p.check) :
    p.Knows t := by
  rw [← checkType_iff (i := i), List.eq_nil_iff_forall_not_mem]
  intro d hd
  obtain ⟨name, hname⟩ := cause_of_mem_checkType hd
  exact hp d (h hd) name hname

theorem checkSymbol_subset_checkConstants {earlier cs : List Constant} {c : Constant} (hc : c ∈ cs) :
    p.checkSymbol c.symbol ⊆ p.checkConstants earlier cs := by
  induction cs generalizing earlier with
  | nil => cases hc
  | cons c' cs ih =>
    rw [checkConstants]
    rcases List.mem_cons.1 hc with rfl | hc
    · exact fun d hd => List.mem_append_left _ (List.mem_append_left _ hd)
    · exact fun d hd => List.mem_append_right _ (ih hc hd)

theorem checkRoutine_subset_check {r : Routine} (hr : r ∈ p.routines) : p.checkRoutine r ⊆ p.check := by
  intro d hd
  rw [check, List.mem_append, List.mem_append]
  exact .inl (.inr (List.mem_flatMap_of_mem hr hd))

/-- The programs that know all types of their declarations are those in which checking finds no undefined
structure. -/
theorem closed_iff_check :
    p.Closed ↔ ∀ d ∈ p.check, ∀ name, d.cause ≠ .undefinedStructure name := by
  constructor
  · intro h d hd
    rcases h.located_check d hd with hwithin | ⟨rfl, -⟩
    · exact hwithin.cause
    · simp [Diagnostic.stray]
  · intro h
    have hknows {i : Position} {t : Ty} := knows_of_checkType_subset (p := p) (i := i) (t := t) h
    refine ⟨fun s hs m hm => ?_, fun c hc => ?_, fun s hs => ?_, fun r hr s hs => ?_,
      fun r hr t ht => ?_⟩
    · refine hknows (i := m.ident.position) fun d hd => ?_
      have hd' : d ∈ p.checkStructure s := List.mem_append_right _ (List.mem_flatMap_of_mem hm hd)
      simp only [check, List.mem_append]
      exact .inl (.inl (.inl (.inl (.inr (List.mem_flatMap_of_mem hs hd')))))
    · refine hknows (i := c.symbol.ident.position) fun d hd => ?_
      simp only [check, List.mem_append]
      exact .inl (.inl (.inl (.inr (checkSymbol_subset_checkConstants hc hd))))
    · refine hknows (i := s.ident.position) fun d hd => ?_
      simp only [check, List.mem_append]
      exact .inl (.inl (.inr (List.mem_flatMap_of_mem hs hd)))
    · refine hknows (i := s.ident.position) fun d hd => checkRoutine_subset_check hr ?_
      simp only [checkRoutine, List.mem_append]
      exact .inl (.inl (.inr (List.mem_flatMap_of_mem hs (List.mem_append_right _ hd))))
    · refine hknows (i := r.ident.position) fun d hd => checkRoutine_subset_check hr ?_
      simp only [checkRoutine, List.mem_append]
      refine .inl (.inr ?_)
      rw [ht]
      exact hd

/-! ## Types of expressions -/

/-- **Typing never brings in a structure.** At every place of a program whose declarations mention only its
own structures, the types of expressions and of paths mention only these, below whatever vectors, and no
typing fails for want of a structure. -/
theorem typeOf_mentioned (hp : p.Closed) {r : Option Routine} (hr : ∀ x ∈ r, x ∈ p.routines) :
    (∀ e, (∀ t, Scope.typeOf ⟨p, r⟩ e = .ok t →
        ∀ name ∈ t.mentioned?, ∃ s ∈ p.structures, s.name = name) ∧
      ∀ d, Scope.typeOf ⟨p, r⟩ e = .error d → ∀ name, d.cause ≠ .undefinedStructure name) ∧
    ∀ q, (∀ t, Scope.typeOfPath ⟨p, r⟩ q = .ok (some t) →
        ∀ name ∈ t.mentioned?, ∃ s ∈ p.structures, s.name = name) ∧
      ∀ d, Scope.typeOfPath ⟨p, r⟩ q = .error d → ∀ name, d.cause ≠ .undefinedStructure name := by
  have hcx : Scope.Closed ⟨p, r⟩ := ⟨hp, hr⟩
  refine ⟨fun e => ?_, fun q => ?_⟩
  · have htype := Scope.settles_typeOf hcx e
    exact ⟨fun t ht => (htype.value t ht).mentioned, fun d hd => (htype.failure d hd).cause⟩
  · have htype := Scope.settles_typeOfPath hcx q
    exact ⟨fun t ht => (htype.value _ ht t rfl).mentioned, fun d hd => (htype.failure d hd).cause⟩

/-- A program whose structure contains vectors of itself. It has no entry point. -/
def forest : Program where
  ident := ⟨⟨0⟩, "t"⟩
  structures := [⟨⟨⟨0⟩, "tree"⟩,
    [⟨⟨⟨0⟩, "below"⟩, .vector (.named "tree")⟩, ⟨⟨⟨0⟩, "size"⟩, .natural⟩]⟩]
  constants := []
  globals := []
  functions := [⟨⟨⟨0⟩, "grow"⟩, [⟨.both, ⟨⟨⟨0⟩, "x"⟩, .named "tree"⟩⟩], [], [],
    some (.vector (.named "tree"))⟩]
  procedures := []

/-- The path `grow(x)[0].below`. -/
def belowGrown : Path :=
  .member (.index (.call ⟨⟨0⟩, "grow"⟩ [.path (.var ⟨⟨0⟩, "x"⟩)]) (.literal (.integer 0))) ⟨⟨0⟩, "below"⟩

theorem typeOf_mentioned_forest : forest.Closed ∧ ∃ r ∈ forest.routines,
    Scope.typeOfPath ⟨forest, some r⟩ belowGrown = .ok (some (.vector (.named "tree"))) ∧
    (∃ s ∈ forest.structures, s.name = "tree") ∧
    ∃ d, Scope.typeOf ⟨forest, some r⟩ (.path (.member belowGrown ⟨⟨0⟩, "size"⟩)) = .error d ∧
      ∀ name, d.cause ≠ .undefinedStructure name := by
  have hcheck : forest.check = [⟨⟨0⟩, .missingEntry "t"⟩] := rfl
  have hclosed : forest.Closed := closed_iff_check.2 (by simp [hcheck])
  obtain ⟨r, hr⟩ : ∃ r, forest.routines.head? = some r := ⟨_, rfl⟩
  have hmem : r ∈ forest.routines := List.mem_of_mem_head? hr
  obtain ⟨hexprs, hpaths⟩ := typeOf_mentioned hclosed (r := forest.routines.head?)
    fun _ => List.mem_of_mem_head?
  have hbelow : Scope.typeOfPath ⟨forest, forest.routines.head?⟩ belowGrown =
      .ok (some (.vector (.named "tree"))) := rfl
  have hsize : Scope.typeOf ⟨forest, forest.routines.head?⟩ (.path (.member belowGrown ⟨⟨0⟩, "size"⟩)) =
      .error ⟨⟨0⟩, .notAStructure (.vector (.named "tree")) "size"⟩ := rfl
  refine ⟨hclosed, r, hmem, ?_⟩
  rw [← hr]
  exact ⟨hbelow, (hpaths belowGrown).1 _ hbelow _ rfl, _, hsize, (hexprs _).2 _ hsize⟩

end Program

end Primer
