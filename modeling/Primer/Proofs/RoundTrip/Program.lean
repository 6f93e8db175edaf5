import Primer.Grammar.Program
import Primer.Proofs.RoundTrip.Declaration

/-!
Programs read back from their canonical text. The text holds the declarations in an order in which
each knows the structures it refers to, and the declarations in that order make up the program again.
-/

namespace Primer

theorem Parser.Reads.exists_read {p : Parser α} {text : String} {rest : List Char} {Q : α → Prop}
    (h : p.Reads text.toList rest Q) : ∃ a, p.read text = .ok a ∧ Q a := by
  obtain ⟨a, m, hdone, ha⟩ := h
  refine ⟨a, ?_, ha⟩
  rw [Parser.read, Cursor.ofString_eq, hdone]

/-- What is read as an expression up to the end of the text is the whole of it. -/
theorem Expr.exists_parse_of_reads {text : String} {Q : Expr → Prop} (hstart : Solid text.toList)
    (h : Grammar.expression.Reads text.toList [] Q) : ∃ a, Expr.parse text = .ok a ∧ Q a :=
  Parser.Reads.exists_read (p := Grammar.wholeExpression) (Grammar.reads_whole hstart h)

/-- An operand that takes up the whole text is what the text is read as. -/
theorem Expr.exists_parse_of_operand {text : String} {Q : Expr → Prop} (hstart : Solid text.toList)
    (h : (Grammar.operand Grammar.expression).Reads text.toList [] Q) :
    ∃ a, Expr.parse text = .ok a ∧ Q a :=
  exists_parse_of_reads hstart (Grammar.chained_expression.reads_of_operand h Grammar.ends_nil)

theorem Grammar.misses_declaration_nil (known : List String) :
    Parser.Misses (declaration known) [] := ⟨_, rfl⟩

/-! ## Declarations in order -/

namespace Declaration

def structure? : Declaration → Option Structure
  | .ofStructure s => some s
  | _ => none

def constant? : Declaration → Option Constant
  | .ofConstant c => some c
  | _ => none

def global? : Declaration → Option Symbol
  | .ofGlobal s => some s
  | _ => none

def function? : Declaration → Option Routine
  | .ofRoutine r => if r.isProcedure then none else some r
  | _ => none

def procedure? : Declaration → Option Routine
  | .ofRoutine r => if r.isProcedure then some r else none
  | _ => none

end Declaration

namespace Program

/-- The collections of a program that is made up of declarations: those of each kind, in order. -/
theorem ofDeclarations_eq (ident : Ident) (ds : List Declaration) :
    ofDeclarations ident ds = ⟨ident, ds.filterMap (·.structure?), ds.filterMap (·.constant?),
      ds.filterMap (·.global?), ds.filterMap (·.function?), ds.filterMap (·.procedure?)⟩ := by
  induction ds using List.reverseRecOn with
  | nil => rfl
  | append_singleton ds d ih =>
    have hlast : ofDeclarations ident (ds ++ [d]) = (ofDeclarations ident ds).declare d := by
      simp [ofDeclarations]
    rw [hlast, ih]
    simp only [List.filterMap_append, List.filterMap_cons, List.filterMap_nil]
    cases d with
    | ofRoutine r =>
      cases hr : r.isProcedure <;>
        simp [declare, Declaration.structure?, Declaration.constant?, Declaration.global?,
          Declaration.function?, Declaration.procedure?, hr]
    | _ => simp only [declare, Declaration.structure?, Declaration.constant?, Declaration.global?,
        Declaration.function?, Declaration.procedure?, List.append_nil]

/-- The declarations in the order in which they are written. -/
def declarations (p : Program) : List Declaration :=
  p.structures.map .ofStructure ++
    (p.constants.map .ofConstant ++ p.globals.map .ofGlobal ++ p.routines.map .ofRoutine)

theorem filterMap_function? (l : List Routine) :
    (l.map Declaration.ofRoutine).filterMap (·.function?) = l.filter (!·.isProcedure) := by
  induction l with
  | nil => rfl
  | cons r l ih =>
    rw [List.map_cons, List.filterMap_cons, ih]
    cases hr : r.isProcedure <;> simp [Declaration.function?, hr]

theorem filterMap_procedure? (l : List Routine) :
    (l.map Declaration.ofRoutine).filterMap (·.procedure?) = l.filter (·.isProcedure) := by
  induction l with
  | nil => rfl
  | cons r l ih =>
    rw [List.map_cons, List.filterMap_cons, ih]
    cases hr : r.isProcedure <;> simp [Declaration.procedure?, hr]

/-- A legal program is made up of its declarations. -/
theorem Legal.ofDeclarations_declarations {p : Program} (h : p.Legal) :
    ofDeclarations p.ident p.declarations = p := by
  have hfunctions : p.routines.filter (!·.isProcedure) = p.functions := by
    rw [routines, List.filter_append, List.filter_eq_self.2, List.filter_eq_nil_iff.2,
      List.append_nil]
    · exact fun r hr => by simp [(h.procedures r hr).2]
    · exact fun r hr => by simp [(h.functions r hr).2]
  have hprocedures : p.routines.filter (·.isProcedure) = p.procedures := by
    rw [routines, List.filter_append, List.filter_eq_nil_iff.2, List.filter_eq_self.2,
      List.nil_append]
    · exact fun r hr => (h.procedures r hr).2
    · exact fun r hr => by simp [(h.functions r hr).2]
  rw [ofDeclarations_eq]
  simp only [declarations, List.filterMap_append, filterMap_function?, filterMap_procedure?,
    hfunctions, hprocedures]
  simp [Declaration.structure?, Declaration.constant?, Declaration.global?, Declaration.function?,
    Declaration.procedure?, List.filterMap_map]

theorem erase_ofDeclarations (ident : Ident) (ds : List Declaration) :
    (ofDeclarations ident ds).erase = ofDeclarations ident.erase (ds.map Declaration.erase) := by
  rw [erase_eq_relocate, relocate_ofDeclarations, Ident.erase_eq_relocate,
    funext Declaration.erase_eq_relocate]

theorem structureNames_map_ofStructure (l : List Structure) :
    Grammar.structureNames (l.map .ofStructure) = l.map (·.name) := by
  simp [Grammar.structureNames, List.filterMap_map]

/-- Each declaration refers to structures before it only. -/
theorem Legal.declaration {p : Program} (h : p.Legal) {before : List Declaration} {d : Declaration}
    (hd : before ++ [d] <+: p.declarations) : d.Legal (Grammar.structureNames before) := by
  have hsplit := List.prefix_or_prefix_of_prefix hd
    (List.prefix_append (p.structures.map Declaration.ofStructure) _)
  rw [List.prefix_concat_iff] at hsplit
  -- the declaration is a structure, or all structures stand before it
  have hcases : before ++ [d] <+: p.structures.map Declaration.ofStructure ∨
      p.structures.map Declaration.ofStructure <+: before := by
    rcases hsplit with h | h | h
    · exact .inl h
    · exact .inl (h ▸ List.prefix_rfl)
    · exact .inr h
  rcases hcases with ⟨after, hstructures⟩ | ⟨others, rfl⟩
  · obtain ⟨before', s, hbefore, hs, rfl⟩ :
        ∃ (before' : List Structure) (s : Structure), before'.map .ofStructure = before ∧
          s.Legal (before'.map (·.name)) ∧ Declaration.ofStructure s = d := by
      obtain ⟨before', rest, hsplit, hbefore, hrest⟩ := List.map_eq_append_iff.1
        (hstructures.symm.trans (List.append_assoc _ _ _))
      obtain ⟨s, after', rfl, hd, -⟩ := List.map_eq_cons_iff.1 hrest
      exact ⟨before', s, hbefore, h.structures before' s after' hsplit, hd⟩
    rw [← hbefore, structureNames_map_ofStructure]
    exact hs
  · rw [List.append_assoc, declarations, List.prefix_append_right_inj] at hd
    have hmem := hd.subset (List.mem_append_right others (List.mem_singleton_self d))
    have hknown : p.structureNames ⊆
        Grammar.structureNames (p.structures.map Declaration.ofStructure ++ others) := by
      rw [Grammar.structureNames, List.filterMap_append]
      refine List.Subset.trans ?_ (List.subset_append_left _ _)
      rw [← Grammar.structureNames, structureNames_map_ofStructure]
      exact List.Subset.refl _
    refine Declaration.Legal.mono hknown ?_
    rw [List.mem_append, List.mem_append] at hmem
    rcases hmem with (hmem | hmem) | hmem
    · obtain ⟨c, hc, rfl⟩ := List.mem_map.1 hmem
      exact h.constants c hc
    · obtain ⟨g, hg, rfl⟩ := List.mem_map.1 hmem
      exact h.globals g hg
    · obtain ⟨r, hr, rfl⟩ := List.mem_map.1 hmem
      rcases List.mem_append.1 hr with hr | hr
      · exact (h.functions r hr).1
      · exact (h.procedures r hr).1

/-! ## Layout -/

/-- The declarations as they are written, each with whether an empty line stands before it. -/
def layout (p : Program) : List (Bool × Declaration) :=
  p.structures.map (fun s => (true, .ofStructure s)) ++
    ((match p.constants.map .ofConstant ++ p.globals.map .ofGlobal with
      | [] => []
      | d :: ds => (true, d) :: ds.map (false, ·)) ++
    p.routines.map fun r => (true, .ofRoutine r))

theorem map_snd_layout (p : Program) : p.layout.map Prod.snd = p.declarations := by
  rw [layout, declarations, List.map_append, List.map_append]
  congr 1
  · simp
  · congr 1
    · split <;> simp [*]
    · simp

/-- The empty line before a declaration. -/
def spaceBefore (x : Bool × Declaration) : List Char := if x.1 then ['\n'] else []

def layoutSteps (x : Bool × Declaration) : List Step :=
  (if x.1 then [.newline] else []) ++ x.2.steps

theorem canonical_eq (p : Program) :
    Canonical.program p = Step.line ("program " ++ p.name) ++ p.layout.flatMap layoutSteps := by
  have hstructures : (p.structures.map fun s => (true, Declaration.ofStructure s)).flatMap layoutSteps =
      p.structures.flatMap Canonical.structureDeclaration := by
    rw [List.flatMap_map]
    rfl
  have hroutines : (p.routines.map fun r => (true, Declaration.ofRoutine r)).flatMap layoutSteps =
      p.routines.flatMap Canonical.routine := by
    rw [List.flatMap_map]
    rfl
  rw [layout, List.flatMap_append, List.flatMap_append, hstructures, hroutines]
  simp only [Canonical.program, List.append_assoc]
  congr 2
  rw [← List.append_assoc, ← List.append_assoc]
  congr 1
  rw [Canonical.gap]
  cases p.constants <;> cases p.globals <;>
    simp [layoutSteps, Declaration.steps, List.flatMap_map]

theorem exists_declaration {p : Program} (h : p.Legal) (hfin : FiniteReals p.nodes) (w : Nat) :
    ∀ d ∈ p.declarations, ∃ text, Declaration.RereadsAs w d text := by
  obtain ⟨hconstants, hroutines⟩ := finiteReals_append.1 hfin
  rw [finiteReals_flatMap] at hconstants hroutines
  intro d hd
  rw [declarations, List.mem_append, List.mem_append, List.mem_append] at hd
  rcases hd with hd | (hd | hd) | hd
  · obtain ⟨s, -, rfl⟩ := List.mem_map.1 hd
    exact exists_structure s w
  · obtain ⟨c, hc, rfl⟩ := List.mem_map.1 hd
    exact exists_constant (Expr.rereads (h.constants c hc).value (hconstants c hc)) w
  · obtain ⟨s, -, rfl⟩ := List.mem_map.1 hd
    exact exists_global s w
  · obtain ⟨r, hr, rfl⟩ := List.mem_map.1 hd
    refine exists_routine (fun i hi => Instruction.rereads ?_ ?_) w
    · rcases List.mem_append.1 hr with hr | hr
      · exact (h.functions r hr).1.body i hi
      · exact (h.procedures r hr).1.body i hi
    · exact finiteReals_flatMap.1 (hroutines r hr) i hi

open Primer.Grammar Primer.Parser

theorem structureNames_map_erase (ds : List Declaration) :
    Grammar.structureNames (ds.map Declaration.erase) = Grammar.structureNames ds := by
  rw [funext Declaration.erase_eq_relocate, structureNames_map_relocate]

/-- The structures that were read are those that were written. -/
theorem structureNames_subset (before earlier : List Declaration)
    (h : earlier.reverse.map Declaration.erase = before.map Declaration.erase) :
    Grammar.structureNames before ⊆ Grammar.structureNames earlier := by
  rw [← structureNames_map_erase before, ← h, structureNames_map_erase]
  intro name hname
  simpa [Grammar.structureNames] using hname

/-- The declarations read back from their texts, which stand one after the other. -/
theorem reads_declarations {p : Program} (h : p.Legal) {w : Nat} {f : Declaration → List Char}
    (hf : ∀ d ∈ p.declarations, d.RereadsAs w (f d)) :
    Solid (strip (p.layout.flatMap fun x => spaceBefore x ++ f x.2)) ∧
      Reads Grammar.declarations (strip (p.layout.flatMap fun x => spaceBefore x ++ f x.2)) []
        (·.map Declaration.erase = p.declarations.map Declaration.erase) := by
  have hlayout {x : Bool × Declaration} (hx : x ∈ p.layout) : x.2 ∈ p.declarations := by
    rw [← map_snd_layout]
    exact List.mem_map_of_mem hx
  have hlines := reads_lines_with (p := fun earlier => declaration (Grammar.structureNames earlier))
    (s := spaceBefore) (g := fun x => f x.2) (l := p.layout) (P := Solid)
    (Q := fun x read => read.erase = x.2.erase) [] ?_ (fun _ h => h) ?_ ?_ ?_ ?_
  · rw [List.append_nil] at hlines
    refine ⟨hlines.1, hlines.2.mono fun ds hds => ?_⟩
    rw [map_eq_map_of_forall₂ hds, ← map_snd_layout, List.map_map]
    rfl
  · intro x _ c hc
    obtain ⟨blank, d⟩ := x
    cases blank with
    | true => rw [List.mem_singleton.1 hc]; decide
    | false => cases hc
  · intro x hx
    obtain ⟨c, tail, htext, hc⟩ := (hf x.2 (hlayout hx)).start
    rw [htext]
    exact ⟨by simp, fun rest => solid_of_isExprStart hc⟩
  · intro before x rest earlier hx hbefore hrest
    have hprefix : before.map Prod.snd ++ [x.2] <+: p.declarations := by
      have hmap := hx.map Prod.snd
      rwa [map_snd_layout, List.map_append] at hmap
    have hknown := structureNames_subset (before.map Prod.snd) earlier (by
      rw [map_eq_map_of_forall₂ hbefore, List.map_map]
      rfl)
    have hmem := hlayout (hx.subset (List.mem_append_right before (List.mem_singleton_self x)))
    exact (hf x.2 hmem).reads _ ((h.declaration hprefix).mono hknown) rest hrest
  · exact fun _ hc => nomatch hc
  · exact fun _ => misses_declaration_nil _

/-- A program reads as its name and what the lines below it read as. -/
theorem reads_program {name : String} {lines : List Char} {Q : List Declaration → Prop}
    (hname : LegalName name) (hsolid : Solid (strip lines))
    (hread : Reads Grammar.declarations (strip lines) [] Q) :
    Reads Grammar.program ("program".toList ++ ' ' :: (name.toList ++ '\n' :: lines)) []
      fun p => ∃ x ds, x.name = name ∧ Q ds ∧ p = ofDeclarations x ds := by
  have hstart : Solid ("program".toList ++ ' ' :: (name.toList ++ '\n' :: lines)) :=
    .of_cons (by decide) (by decide)
  have hblank : Reads blank ("program".toList ++ ' ' :: (name.toList ++ '\n' :: lines))
      ("program".toList ++ ' ' :: (name.toList ++ '\n' :: lines)) fun _ => True := by
    have hread := reads_blank ((strip_of_solid hstart).symm ▸ hstart)
    rwa [strip_of_solid hstart] at hread
  refine .bind hblank fun _ _ => ?_
  refine .bind (.expect (reads_word rfl (.of_cons (by decide)))) fun _ _ => ?_
  refine .bind (.expect (reads_afterSpace_blank (hname.solid _)
    (reads_ident hname (.of_cons (by decide))))) fun x hx => ?_
  refine .bind (.expect (reads_lineEnd hsolid)) fun _ _ => .bind hread fun ds hds => ?_
  exact .bind (.expect .atEnd) fun _ _ => .pure ⟨x, ds, hx, hds, rfl⟩

theorem reads_canonicalText {p : Program} (h : p.Legal) (hfin : FiniteReals p.nodes) :
    Reads Grammar.program p.canonicalText.toList [] (·.erase = p.erase) := by
  choose! f hf using exists_declaration h hfin defaultIndentWidth
  obtain ⟨hsolid, hread⟩ := reads_declarations h hf
  have htext : p.canonicalText.toList = "program".toList ++ ' ' :: (p.name.toList ++
      '\n' :: p.layout.flatMap fun x => spaceBefore x ++ f x.2) := by
    have hfirst : Lays defaultIndentWidth 0 true _ _ := .line (t := "program " ++ p.name) (by simp)
    have hrest : Lays defaultIndentWidth 0 true (p.layout.flatMap layoutSteps)
        (p.layout.flatMap fun x => spaceBefore x ++ f x.2) := by
      refine .flatMap fun x hx => ?_
      have hlays := (hf x.2 (by rw [← map_snd_layout]; exact List.mem_map_of_mem hx)).lays
      obtain ⟨blank, d⟩ := x
      cases blank with
      | true => exact Lays.append .newline hlays
      | false => exact hlays
    rw [canonicalText, canonical_eq, (hfirst.append hrest).render_eq]
    simp [lead]
  rw [htext]
  refine (reads_program h.name hsolid hread).mono ?_
  rintro _ ⟨x, ds, hx, hds, rfl⟩
  calc (ofDeclarations x ds).erase
      = ofDeclarations x.erase (ds.map Declaration.erase) := erase_ofDeclarations x ds
    _ = ofDeclarations p.ident.erase (p.declarations.map Declaration.erase) := by
        rw [hds, Ident.erase_eq_iff.2 hx]
    _ = (ofDeclarations p.ident p.declarations).erase := (erase_ofDeclarations _ _).symm
    _ = p.erase := by rw [h.ofDeclarations_declarations]

end Program

/-- A program that was read reads back from its canonical text, in everything but its places, if no
real in it is infinite. -/
theorem Program.parse_canonicalText {s : String} {p : Program} (h : Program.parse s = .ok p)
    (hfin : ∀ x, .literal (.real x) ∈ p.nodes → x.isFinite = true) :
    ∃ q, Program.parse p.canonicalText = .ok q ∧ q.erase = p.erase := by
  obtain ⟨q, m, hread, hq⟩ := reads_canonicalText (legal_of_parse h) hfin
  refine ⟨q, ?_, hq⟩
  rw [Program.parse, Parser.read, Cursor.ofString_eq, hread]

/-- A text with a comment, with reals, and with space that is not canonical. -/
def unformattedText : String :=
  "program p\nconstant c : real = -0.25 // low\nprocedure f(inout v : real)\non v<c do v=v*1.5\nend"

/-- Whether the expression is anything but an infinite real. -/
def Expr.isFinite : Expr → Bool
  | .literal (.real x) => x.isFinite
  | _ => true

theorem Program.parse_canonicalText_unformatted : ∃ p q, Program.parse unformattedText = .ok p ∧
    Program.parse p.canonicalText = .ok q ∧ q.erase = p.erase := by
  have hreals : (match Program.parse unformattedText with
      | .ok p => p.nodes.all Expr.isFinite
      | .error _ => false) = true := by decide +kernel
  cases hp : Program.parse unformattedText with
  | error e => simp [hp] at hreals
  | ok p =>
    simp only [hp, List.all_eq_true] at hreals
    obtain ⟨q, hq, herase⟩ := parse_canonicalText hp fun x hx => hreals _ hx
    exact ⟨p, q, rfl, hq, herase⟩

end Primer
