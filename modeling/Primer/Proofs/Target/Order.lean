import Primer.Build
import Primer.Proofs.Grammar.Declaration
import Primer.Proofs.Layout
import Primer.Proofs.Syntax.Items
import Primer.Proofs.Target.Names
import Primer.Proofs.Target.Typed
import Primer.Proofs.Truncation

/-!
The order of declarations. A structure can hold only structures that are declared before it, and a
constant can be built only from constants that are declared before it. The C++ text keeps the order of
the program, so a reader of it meets the declaration of a structure or a constant above each member or
initial value in which it is used.
-/

namespace Primer

/-- The structure that the type names, on its own or below vectors. -/
def Ty.structureWithin? : Ty → Option String
  | .vector element => element.structureWithin?
  | .named name => some name
  | _ => none

theorem Ty.Legal.mem_of_structureWithin? {known : List String} {t : Ty} (h : t.Legal known) :
    ∀ n ∈ t.structureWithin?, n ∈ known := by
  induction t with
  | vector element ih => exact ih h
  | named name =>
    intro n hn
    cases hn
    exact h.2
  | _ =>
    intro n hn
    cases hn

theorem ConstantExpr.exists_of_mem_items {earlier : List Constant} {e : Expr}
    (h : ConstantExpr earlier e) {x : Ident} (hx : .name x ∈ e.items) :
    ∃ c ∈ earlier, c.name = x.name := by
  induction h with
  | literal => cases hx
  | name hc hname =>
    rw [Expr.items, Path.items, List.mem_singleton] at hx
    cases hx
    exact ⟨_, hc, hname⟩
  | not _ ih =>
    rw [Expr.items, List.mem_cons] at hx
    exact ih (hx.resolve_left (by simp))
  | binary _ _ ihl ihr =>
    simp only [Expr.items, List.mem_append, List.mem_cons, reduceCtorEq, false_or] at hx
    exact hx.elim ihl ihr

/-- A text laid out from the top is where the text of any longer script starts. -/
theorem Lays.isPrefix_render {w : Nat} {steps all : List Step} {text : List Char}
    (h : Lays w 0 true steps text) (hall : steps <+: all) : text <+: (Step.render all w).toList := by
  obtain ⟨rest, rfl⟩ := hall
  obtain ⟨s, hrun, hs⟩ := h ""
  obtain ⟨-, more, hmore⟩ := Step.runAll_grows rest ⟨s, w, 0, true⟩
  rw [Step.render, Step.runAll_append, hrun, if_pos rfl, hmore, String.toList_append, hs]
  exact List.prefix_append text more.toList

namespace Target

def lineText (text : String) : List Char := text.toList ++ ['\n']

/-- What stands above all declarations. -/
def openingText (withHelpers : Bool) : List Char :=
  headers.flatMap (fun h => lineText ("#include <" ++ h ++ ">")) ++
    ('\n' :: lineText "using namespace std::string_literals;") ++
    (if withHelpers then '\n' :: helpers.flatMap lineText else [])

def memberText (w : Nat) (m : Symbol) : List Char :=
  margin w 1 ++ lineText (declaration m ++ "\x7b\x7d;")

def structureHead (s : Structure) : List Char := lineText ("struct " ++ name s.name ++ " \x7b")

def structureText (w : Nat) (s : Structure) : List Char :=
  structureHead s ++ s.members.flatMap (memberText w) ++ lineText "\x7d;"

def constantText (p : Program) (c : Constant) : List Char :=
  lineText ("const " ++ declaration c.symbol ++ " = " ++ expr ⟨p, none⟩ c.value ++ ";")

/-- The text above a structure, if these are the structures before it. -/
def aboveStructure (options : TargetOptions) (before : List Structure) : List Char :=
  openingText options.withHelpers ++
    before.flatMap (fun s => '\n' :: structureText options.indentWidth s) ++ ['\n']

/-- The text above a member of the structure, if these are the structures and members before it. -/
def aboveMember (options : TargetOptions) (before : List Structure) (s : Structure)
    (members : List Symbol) : List Char :=
  aboveStructure options before ++ structureHead s ++
    members.flatMap (memberText options.indentWidth)

/-- The text above a constant, if these are the constants before it. -/
def aboveConstant (options : TargetOptions) (p : Program) (earlier : List Constant) : List Char :=
  aboveStructure options p.structures ++ earlier.flatMap (constantText p)

/-- The steps for what stands above all declarations. -/
def opening (withHelpers : Bool) : List Step :=
  headers.flatMap (fun h => Step.line ("#include <" ++ h ++ ">")) ++
    [.newline] ++ Step.line "using namespace std::string_literals;" ++
    (if withHelpers then .newline :: helpers.flatMap Step.line else [])

section
variable {w : Nat}

theorem lays_line {text : String} (h : text ≠ "") : Lays w 0 true (Step.line text) (lineText text) := by
  have hline : Lays w 0 true (Step.line text) (lead w 0 true ++ lineText text) := .line h
  rwa [lead, if_pos rfl, margin_zero, List.nil_append] at hline

theorem lays_opening (withHelpers : Bool) :
    Lays w 0 true (opening withHelpers) (openingText withHelpers) := by
  have hhelpers : ∀ text ∈ helpers, text ≠ "" := by decide
  have hheaders : Lays w 0 true (headers.flatMap fun h => Step.line ("#include <" ++ h ++ ">"))
      (headers.flatMap fun h => lineText ("#include <" ++ h ++ ">")) :=
    .flatMap fun h _ => lays_line (by simp)
  have husing : Lays w 0 true ([.newline] ++ Step.line "using namespace std::string_literals;")
      (['\n'] ++ lineText "using namespace std::string_literals;") :=
    .append .newline (lays_line (by decide))
  have hlast : Lays w 0 true (if withHelpers then .newline :: helpers.flatMap Step.line else [])
      (if withHelpers then '\n' :: helpers.flatMap lineText else []) := by
    cases withHelpers with
    | false => exact .nil
    | true =>
      rw [if_pos rfl, if_pos rfl]
      have hlines : Lays w 0 true (helpers.flatMap Step.line) (helpers.flatMap lineText) :=
        .flatMap fun text h => lays_line (hhelpers text h)
      have hblock : Lays w 0 true ([.newline] ++ helpers.flatMap Step.line)
          (['\n'] ++ helpers.flatMap lineText) := Lays.newline.append hlines
      exact hblock
  have hall := (hheaders.append husing).append hlast
  rwa [← List.append_assoc] at hall

theorem lays_structureDeclaration (s : Structure) :
    Lays w 0 true (structureDeclaration s) (structureText w s) := by
  have hmember (m : Symbol) : Lays w 1 true (variableLine m) (memberText w m) :=
    .line (by simp)
  have hmembers : Lays w 0 true [.indented (s.members.flatMap variableLine)]
      (s.members.flatMap (memberText w)) := .indented (.flatMap fun m _ => hmember m)
  exact ((lays_line (by simp)).append hmembers).append (lays_line (by decide))

/-- The text above a structure is that of the steps before it. -/
theorem lays_aboveStructure (options : TargetOptions) (before : List Structure) :
    Lays options.indentWidth 0 true
      (opening options.withHelpers ++ before.flatMap (fun s => .newline :: structureDeclaration s) ++
        [.newline])
      (aboveStructure options before) :=
  ((lays_opening _).append (.flatMap fun s _ => Lays.newline.append (lays_structureDeclaration s))).append
    .newline

end

section
variable {p : Program} (options : TargetOptions)

theorem declarations_isPrefix (withHelpers : Bool) (p : Program) :
    opening withHelpers ++ (p.structures.flatMap (fun s => .newline :: structureDeclaration s) ++
      (Canonical.gap p ++ p.constants.flatMap (fun c => Step.line
        ("const " ++ declaration c.symbol ++ " = " ++ expr ⟨p, none⟩ c.value ++ ";")))) <+:
      program withHelpers p := by
  simp only [program, opening, List.append_assoc, List.prefix_append_right_inj]
  exact List.prefix_append _ _

/-- The C++ text down to the end of a structure. -/
theorem structureText_below {before after : List Structure} {s : Structure}
    (hp : p.structures = before ++ s :: after) :
    aboveStructure options before ++ structureText options.indentWidth s <+:
      (p.targetText options).toList := by
  apply ((lays_aboveStructure options before).append (lays_structureDeclaration s)).isPrefix_render
  refine List.IsPrefix.trans ?_ (declarations_isPrefix options.withHelpers p)
  rw [hp]
  simp only [List.flatMap_append, List.flatMap_cons, List.append_assoc, List.cons_append,
    List.nil_append, List.prefix_append_right_inj, List.cons_prefix_cons, true_and]
  exact List.prefix_append _ _

/-- The C++ text down to the end of a member. -/
theorem memberText_below {before after : List Structure} {s : Structure}
    (hp : p.structures = before ++ s :: after) {shown rest : List Symbol} {m : Symbol}
    (hs : s.members = shown ++ m :: rest) :
    aboveMember options before s shown ++ memberText options.indentWidth m <+:
      (p.targetText options).toList := by
  refine List.IsPrefix.trans ?_ (structureText_below options hp)
  rw [aboveMember, structureText, hs]
  simp only [List.flatMap_append, List.flatMap_cons, List.append_assoc,
    List.prefix_append_right_inj]
  exact List.prefix_append _ _

/-- The C++ text down to the end of a constant. -/
theorem constantText_below {earlier later : List Constant} {c : Constant}
    (hp : p.constants = earlier ++ c :: later) :
    aboveConstant options p earlier ++ constantText p c <+: (p.targetText options).toList := by
  have hline (c : Constant) : Lays options.indentWidth 0 true
      (Step.line ("const " ++ declaration c.symbol ++ " = " ++ expr ⟨p, none⟩ c.value ++ ";"))
      (constantText p c) := lays_line (by simp)
  have habove := (lays_aboveStructure options p.structures).append
    (.flatMap (l := earlier) fun c _ => hline c)
  apply (habove.append (hline c)).isPrefix_render
  have hgap : Canonical.gap p = [.newline] := by simp [Canonical.gap, hp]
  refine List.IsPrefix.trans ?_ (declarations_isPrefix options.withHelpers p)
  rw [hp, hgap]
  simp only [List.flatMap_append, List.flatMap_cons, List.append_assoc,
    List.prefix_append_right_inj]
  exact List.prefix_append _ _

end

end Target

namespace Program

variable {p : Program}

/-- The structure `a` has a member whose type names the structure `b`. -/
def Contains (p : Program) (a b : String) : Prop :=
  ∃ s ∈ p.structures, s.name = a ∧ ∃ m ∈ s.members, b ∈ m.type.structureWithin?

theorem Legal.exists_before (h : p.Legal) {before after : List Structure} {s : Structure}
    (hp : p.structures = before ++ s :: after) {m : Symbol} (hm : m ∈ s.members) {n : String}
    (hn : n ∈ m.type.structureWithin?) : ∃ d ∈ before, d.name = n := by
  have hmember := (h.structures before s after hp).members m hm
  exact List.mem_map.1 (hmember.2.mem_of_structureWithin? n hn)

/-- What a structure contains is declared earlier. -/
theorem Contains.idxOf_lt {a b : String} (hc : p.Contains a b) (h : p.Legal)
    (hd : p.DistinctNames) : p.structureNames.idxOf b < p.structureNames.idxOf a := by
  obtain ⟨s, hs, rfl, m, hm, hb⟩ := hc
  obtain ⟨before, after, hp⟩ := List.append_of_mem hs
  obtain ⟨d, hdmem, rfl⟩ := h.exists_before hp hm hb
  have hnames : p.structureNames = before.map (·.name) ++ s.name :: after.map (·.name) := by
    rw [structureNames, hp, List.map_append, List.map_cons]
  have hnodup : (before.map (·.name) ++ s.name :: after.map (·.name)).Nodup := by
    rw [← hnames]
    exact hd.structures
  have hfresh : s.name ∉ before.map (·.name) := by
    intro hmem
    exact (List.nodup_append.1 hnodup).2.2 _ hmem _ List.mem_cons_self rfl
  have hbefore : d.name ∈ before.map (·.name) := List.mem_map_of_mem hdmem
  rw [hnames, List.idxOf_append_of_mem hbefore, List.idxOf_append_of_notMem hfresh,
    List.idxOf_cons_self, Nat.add_zero]
  exact List.idxOf_lt_length_of_mem hbefore

theorem idxOf_lt_of_transGen (h : p.Legal) (hd : p.DistinctNames) {a b : String}
    (hab : Relation.TransGen p.Contains a b) :
    p.structureNames.idxOf b < p.structureNames.idxOf a := by
  induction hab with
  | single hc => exact hc.idxOf_lt h hd
  | tail _ hc ih => exact Nat.lt_trans (hc.idxOf_lt h hd) ih

section
variable {text : String} (h : Program.build text = .ok p) (options : TargetOptions)
include h

theorem parse_of_build : Program.parse text = .ok p := by
  unfold Program.build at h
  split at h
  case h_1 => cases h
  case h_2 q hq =>
    split at h
    · cases h
      exact hq
    · cases h

theorem structure_declared_above {before after : List Structure} {s : Structure}
    (hp : p.structures = before ++ s :: after) {shown rest : List Symbol} {m : Symbol}
    (hs : s.members = shown ++ m :: rest) {n : String} (hn : n ∈ m.type.structureWithin?) :
    ∃ d ∈ before, d.name = n ∧ (∀ d' ∈ p.structures, d'.name = n → d' = d) ∧
      Target.structureText options.indentWidth d <:+: Target.aboveMember options before s shown := by
  have hlegal := legal_of_parse (parse_of_build h)
  have hdistinct := DistinctNames.of_check (check_of_build h)
  have hm : m ∈ s.members := by simp [hs]
  obtain ⟨d, hd, rfl⟩ := hlegal.exists_before hp hm hn
  refine ⟨d, hd, rfl, ?_, ?_⟩
  · intro d' hd' hname
    have hmem : d ∈ p.structures := by rw [hp]; exact List.mem_append_left _ hd
    exact List.inj_on_of_nodup_map hdistinct.structures hd' hmem hname
  · have hown : Target.structureText options.indentWidth d <:+:
        '\n' :: Target.structureText options.indentWidth d := (List.suffix_cons _ _).isInfix
    have hall := hown.trans (Target.infix_flatMap hd fun s =>
      '\n' :: Target.structureText options.indentWidth s)
    simp only [Target.aboveMember, Target.aboveStructure, List.append_assoc]
    exact List.infix_append_of_infix_right (List.infix_append_of_infix_left hall)

theorem constant_declared_above {earlier later : List Constant} {c : Constant}
    (hp : p.constants = earlier ++ c :: later) {x : Ident} (hx : .name x ∈ c.value.items) :
    ∃ d ∈ earlier, d.name = x.name ∧ (∀ d' ∈ p.constants, d'.name = x.name → d' = d) ∧
      Target.constantText p d <:+: Target.aboveConstant options p earlier := by
  have htyped := WellTyped.of_check (check_of_build h)
  obtain ⟨d, hd, hname⟩ := (htyped.constants earlier c later hp).1.exists_of_mem_items hx
  refine ⟨d, hd, hname, ?_, ?_⟩
  · intro d' hd' hname'
    have hmem : d ∈ p.constants := by rw [hp]; exact List.mem_append_left _ hd
    exact List.inj_on_of_nodup_map htyped.distinct.constants hd' hmem (hname'.trans hname.symm)
  · have hall := Target.infix_flatMap hd (Target.constantText p)
    exact List.infix_append_of_infix_right hall

/-- **Declarations precede uses.** In a program that was built, the structure that the type of a member
names, on its own or below vectors, is one of those declared before the structure of the member, so
that no structure contains itself; and a name in the value of a constant is that of a constant declared
before it. In the C++ text, the declaration stands above the member or the constant that uses it. -/
theorem declared_before_use :
    (∀ before s after, p.structures = before ++ s :: after →
      ∀ shown m rest, s.members = shown ++ m :: rest → ∀ n ∈ m.type.structureWithin?,
        (∃ d ∈ before, d.name = n ∧ (∀ d' ∈ p.structures, d'.name = n → d' = d) ∧
          Target.structureText options.indentWidth d <:+:
            Target.aboveMember options before s shown) ∧
        Target.aboveMember options before s shown ++ Target.memberText options.indentWidth m <+:
          (p.targetText options).toList) ∧
    (∀ n, ¬ Relation.TransGen p.Contains n n) ∧
    (∀ earlier c later, p.constants = earlier ++ c :: later → ∀ x, .name x ∈ c.value.items →
      (∃ d ∈ earlier, d.name = x.name ∧ (∀ d' ∈ p.constants, d'.name = x.name → d' = d) ∧
        Target.constantText p d <:+: Target.aboveConstant options p earlier) ∧
      Target.aboveConstant options p earlier ++ Target.constantText p c <+:
        (p.targetText options).toList) := by
  refine ⟨?_, ?_, ?_⟩
  · intro before s after hp shown m rest hs n hn
    exact ⟨structure_declared_above h options hp hs hn, Target.memberText_below options hp hs⟩
  · intro n hloop
    have hlegal := legal_of_parse (parse_of_build h)
    exact Nat.lt_irrefl _ (idxOf_lt_of_transGen hlegal (.of_check (check_of_build h)) hloop)
  · intro earlier c later hp x hx
    exact ⟨constant_declared_above h options hp hx, Target.constantText_below options hp⟩

end

/-- A program with a structure below two vectors and a constant that is used twice. -/
def nestedText : String :=
  "program t\nstructure a\nx:real\nend\nstructure b\ny:vector of vector of a\nend\n" ++
    "constant c:integer=2\nconstant d:integer=c*c\nfunction t(in args:vector of string):integer\nend"

theorem declared_before_use_nested : ∃ p, Program.build nestedText = .ok p ∧
    p.Contains "b" "a" ∧ ¬ Relation.TransGen p.Contains "b" "b" ∧
    p.constants.map (fun c => c.value.items.map Item.text) = [[], ["c", "*", "c"]] ∧
    ∀ earlier c later, p.constants = earlier ++ c :: later → ∀ x, .name x ∈ c.value.items →
      ∃ d ∈ earlier, d.name = x.name ∧
        Target.constantText p d <:+: Target.aboveConstant {} p earlier := by
  have hany : (Program.build nestedText).toOption.any (fun p =>
      p.structures.any (fun s => s.name == "b" &&
        s.members.any fun m => m.type.structureWithin? == some "a") &&
      p.constants.map (fun c => c.value.items.map Item.text) == [[], ["c", "*", "c"]]) =
      true := by decide +kernel
  obtain ⟨p, hp, hcheck⟩ := exists_ok_of_any hany
  simp only [Bool.and_eq_true, List.any_eq_true, beq_iff_eq] at hcheck
  obtain ⟨hcontains, hitems⟩ := hcheck
  obtain ⟨-, hacyclic, hconstants⟩ := declared_before_use hp {}
  refine ⟨p, hp, hcontains, hacyclic "b", hitems, ?_⟩
  intro earlier c later hsplit x hx
  obtain ⟨⟨d, hd, hname, -, habove⟩, -⟩ := hconstants earlier c later hsplit x hx
  exact ⟨d, hd, hname, habove⟩

end Program

end Primer
