import Primer.Typing.Conversion

/-!
The conversions and operators of the language as rules, and that the checks decide them.
-/

namespace Primer

namespace Ty

/-- A location of the first type takes values of the second. -/
inductive Accepts : Ty → Ty → Prop
  | refl : Accepts t t
  | integer : Accepts integer natural
  | natural : Accepts natural integer
  | real (h : given.isIntegral = true) : Accepts real given
  | string : Accepts string char

/-- The third type is the one that numbers of the other two are computed in. -/
inductive Common : Ty → Ty → Ty → Prop
  | natural : Common natural natural natural
  | integer (ha : a.isIntegral = true) (hb : b.isIntegral = true) (h : a = integer ∨ b = integer) :
    Common a b integer
  | real (ha : a.isNumeric = true) (hb : b.isNumeric = true) (h : a = real ∨ b = real) :
    Common a b real

/-- The check of a conversion decides the rule. -/
theorem accepts_iff {target given : Ty} : target.accepts given = true ↔ target.Accepts given := by
  unfold accepts
  rw [Bool.or_eq_true, beq_iff_eq]
  constructor
  · rintro (rfl | h)
    · exact .refl
    · split at h
      · exact .integer
      · exact .natural
      · exact .string
      · exact .real h
      · cases h
  · intro h
    cases h with
    | refl => exact .inl rfl
    | real h => exact .inr h
    | integer | natural | string => exact .inr rfl

theorem isNumeric_of_isIntegral {t : Ty} (h : t.isIntegral = true) : t.isNumeric = true := by
  cases t <;> first | rfl | cases h

theorem isTextual_of_isNumeric {t : Ty} (h : t.isNumeric = true) : t.isTextual = false := by
  cases t <;> first | rfl | cases h

theorem isIntegral_of_isNumeric {t : Ty} (h : t.isNumeric = true) (hne : t ≠ real) :
    t.isIntegral = true := by
  cases t <;> first | rfl | exact absurd rfl hne | cases h

/-- There are two integral types. -/
theorem eq_natural_of_isIntegral {t : Ty} (h : t.isIntegral = true) (hne : t ≠ integer) :
    t = natural := by
  cases t <;> first | rfl | exact absurd rfl hne | cases h

/-- The common type of two numbers is the wider one. -/
theorem common_iff {a b t : Ty} :
    a.Common b t ↔ (a.isNumeric = true ∧ b.isNumeric = true) ∧ a.wider b = t := by
  constructor
  · intro h
    cases h with
    | natural => exact ⟨⟨rfl, rfl⟩, rfl⟩
    | integer ha hb h =>
      refine ⟨⟨isNumeric_of_isIntegral ha, isNumeric_of_isIntegral hb⟩, ?_⟩
      rcases h with rfl | rfl
      · cases b <;> first | rfl | cases hb
      · cases a <;> first | rfl | cases ha
    | real ha hb h =>
      refine ⟨⟨ha, hb⟩, if_pos ?_⟩
      rwa [Bool.or_eq_true, beq_iff_eq, beq_iff_eq]
  · rintro ⟨⟨ha, hb⟩, rfl⟩
    unfold wider
    simp only [Bool.or_eq_true, beq_iff_eq]
    split
    case isTrue h => exact .real ha hb h
    case isFalse hreal =>
      have ha := isIntegral_of_isNumeric ha fun h => hreal (.inl h)
      have hb := isIntegral_of_isNumeric hb fun h => hreal (.inr h)
      split
      case isTrue h => exact .integer ha hb h
      case isFalse hinteger =>
        rw [eq_natural_of_isIntegral ha fun h => hinteger (.inl h),
          eq_natural_of_isIntegral hb fun h => hinteger (.inr h)]
        exact .natural

/-- A real number among the two makes the common type real. -/
theorem isIntegral_wider {a b : Ty} (ha : a.isNumeric = true) (hb : b.isNumeric = true) :
    (a.wider b).isIntegral = (a.isIntegral && b.isIntegral) := by
  cases a <;> cases ha <;> cases b <;> cases hb <;> rfl

theorem negated?_eq_some_iff {t u : Ty} : t.negated? = some u ↔ t = boolean ∧ u = boolean := by
  unfold negated?
  rw [Option.ite_none_right_eq_some, beq_iff_eq, Option.some_inj, eq_comm (a := u)]

end Ty

namespace Operator

/-- Applied to values of the first two types, the operator gives one of the third. -/
inductive Gives : Operator → Ty → Ty → Ty → Prop
  | arithmetic (ho : o ∈ [add, subtract, multiply, divide]) (h : a.Common b t) : Gives o a b t
  | remainder (h : a.Common b t) (ht : t.isIntegral = true) : Gives remainder a b t
  | concatenation (ha : a.isTextual = true) (hb : b.isTextual = true)
    (h : a = .string ∨ b = .string) : Gives add a b .string
  | ordering (ho : o ∈ [less, greater, lessOrEqual, greaterOrEqual])
    (h : (a.isNumeric = true ∧ b.isNumeric = true) ∨ a = b ∧ a.isTextual = true) :
    Gives o a b .boolean
  | equality (ho : o ∈ [equal, notEqual])
    (h : (a.isNumeric = true ∧ b.isNumeric = true) ∨ a = b ∧ a.isScalar = true) :
    Gives o a b .boolean
  | logic (ho : o ∈ [and, or]) : Gives o .boolean .boolean .boolean

variable {o : Operator} {a b t : Ty}

section
attribute [local simp] result? isBoolean isEquality isOrdering

theorem result?_logic (ho : o ∈ [and, or]) :
    o.result? a b = some t ↔ (a = .boolean ∧ b = .boolean) ∧ .boolean = t := by
  simp only [List.mem_cons, List.not_mem_nil, or_false] at ho
  rcases ho with rfl | rfl <;> simp

/-- Numbers of any two types can be compared, and otherwise scalars of the same type. -/
theorem result?_equality (ho : o ∈ [equal, notEqual]) : o.result? a b = some t ↔
    (a.isNumeric = true ∧ b.isNumeric = true ∨ a = b ∧ a.isScalar = true) ∧ .boolean = t := by
  simp only [List.mem_cons, List.not_mem_nil, or_false] at ho
  rcases ho with rfl | rfl <;> simp

/-- Order is asked of numbers and of texts. Truth values are only equal or not. -/
theorem result?_ordering (ho : o ∈ [less, greater, lessOrEqual, greaterOrEqual]) :
    o.result? a b = some t ↔
      (a.isNumeric = true ∧ b.isNumeric = true ∨ a = b ∧ a.isTextual = true) ∧ .boolean = t := by
  simp only [List.mem_cons, List.not_mem_nil, or_false] at ho
  rcases ho with rfl | rfl | rfl | rfl <;> simp

/-- Unlike the other operations, remainders are for whole numbers only. -/
theorem result?_remainder : remainder.result? a b = some t ↔
    (a.isIntegral = true ∧ b.isIntegral = true) ∧ a.wider b = t := by
  simp

theorem result?_arithmetic (ho : o ∈ [subtract, multiply, divide]) :
    o.result? a b = some t ↔ a.Common b t := by
  simp only [List.mem_cons, List.not_mem_nil, or_false] at ho
  rcases ho with rfl | rfl | rfl <;> simp [Ty.common_iff]

/-- Strings are added as well, and characters to strings. -/
theorem result?_add : add.result? a b = some t ↔ a.Common b t ∨
    ((a.isTextual = true ∧ b.isTextual = true) ∧ (a = .string ∨ b = .string)) ∧ .string = t := by
  by_cases hnum : a.isNumeric = true ∧ b.isNumeric = true
  · have htext : a.isTextual = false := Ty.isTextual_of_isNumeric hnum.1
    simp [Ty.common_iff, hnum, htext]
  · simp [Ty.common_iff, hnum]

end

/-- What the operators give is what the rules say. The operators fall into six groups with a lemma each. -/
theorem result?_eq_some_iff : o.result? a b = some t ↔ o.Gives a b t := by
  constructor
  · intro h
    cases o with
    | and | or =>
      obtain ⟨⟨rfl, rfl⟩, rfl⟩ := (result?_logic (by simp)).1 h
      exact .logic (by simp)
    | equal | notEqual =>
      obtain ⟨hab, rfl⟩ := (result?_equality (by simp)).1 h
      exact .equality (by simp) hab
    | less | greater | lessOrEqual | greaterOrEqual =>
      obtain ⟨hab, rfl⟩ := (result?_ordering (by simp)).1 h
      exact .ordering (by simp) hab
    | remainder =>
      obtain ⟨⟨ha, hb⟩, rfl⟩ := result?_remainder.1 h
      have hna := Ty.isNumeric_of_isIntegral ha
      have hnb := Ty.isNumeric_of_isIntegral hb
      refine .remainder (Ty.common_iff.2 ⟨⟨hna, hnb⟩, rfl⟩) ?_
      rw [Ty.isIntegral_wider hna hnb, ha, hb, Bool.and_true]
    | add =>
      rcases result?_add.1 h with hab | ⟨⟨⟨ha, hb⟩, hab⟩, rfl⟩
      · exact .arithmetic (by simp) hab
      · exact .concatenation ha hb hab
    | subtract | multiply | divide =>
      exact .arithmetic (by simp) ((result?_arithmetic (by simp)).1 h)
  · intro h
    cases h with
    | arithmetic ho h =>
      rcases List.mem_cons.1 ho with rfl | ho
      · exact result?_add.2 (.inl h)
      · exact (result?_arithmetic ho).2 h
    | remainder h ht =>
      obtain ⟨⟨ha, hb⟩, rfl⟩ := Ty.common_iff.1 h
      rw [Ty.isIntegral_wider ha hb, Bool.and_eq_true] at ht
      exact result?_remainder.2 ⟨ht, rfl⟩
    | concatenation ha hb h => exact result?_add.2 (.inr ⟨⟨⟨ha, hb⟩, h⟩, rfl⟩)
    | ordering ho h => exact (result?_ordering ho).2 ⟨h, rfl⟩
    | equality ho h => exact (result?_equality ho).2 ⟨h, rfl⟩
    | logic ho => exact (result?_logic ho).2 ⟨⟨rfl, rfl⟩, rfl⟩

end Operator

end Primer
