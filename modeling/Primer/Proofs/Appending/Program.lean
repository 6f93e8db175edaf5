import Primer.Proofs.Appending.Resuming
import Primer.Proofs.Appending.Text

/-!
Programs can be continued. Where the text of a program ends with a line, more text behind it is read as
further declarations that know the structures of the program, and nothing else is carried over from one
to the other. Main statement: `Program.parse_append`.
-/

namespace Primer

open Primer.Parser Primer.Grammar

/-! ## Further declarations -/

namespace Grammar

/-- What may follow the text of a program with structures of these names: declarations, up to the end. -/
def furtherDeclarations (known : List String) : Parser (List Declaration) := do
  blank
  let declarations ← manyWith fun earlier => declaration (structureNames earlier ++ known)
  expect "declaration" atEnd
  return declarations

theorem answers_furtherDeclarations (known : List String) : Answers (furtherDeclarations known) := by
  refine answers_blank.bind fun _ => .bind (.manyWith fun _ _ _ _ _ => bytes_lt_of_declaration) ?_
  exact fun ds => Answers.expect.bind fun _ i m h => by cases h

section
variable {known known' : List String} (h : ∀ name, known.contains name = known'.contains name)
include h

theorem type_congr : type known = type known' := by
  simp only [type, namedType, h]

/-- Of the known structures only the names count, not their order. -/
theorem declaration_congr : declaration known = declaration known' := by
  simp only [declaration, structureDeclaration, constantDeclaration, globalDeclaration,
    functionDeclaration, procedureDeclaration, parameters, parameter, routineBody, localDeclaration,
    symbol, type_congr h]

end

theorem nil_of_atEnd {item : String} {i j : Cursor} {m : Mark}
    (h : expect item atEnd i = .done () j m) : i.chars = [] := by
  by_contra hi
  simp [expect, atEnd, hi, missAt, haltAt] at h

end Grammar

namespace Program

/-- The program with further declarations at the ends of its collections. -/
def extend (p : Program) (ds : List Declaration) : Program where
  ident := p.ident
  structures := p.structures ++ ds.filterMap (·.structure?)
  constants := p.constants ++ ds.filterMap (·.constant?)
  globals := p.globals ++ ds.filterMap (·.global?)
  functions := p.functions ++ ds.filterMap (·.function?)
  procedures := p.procedures ++ ds.filterMap (·.procedure?)

theorem ofDeclarations_append (ident : Ident) (ds ds' : List Declaration) :
    ofDeclarations ident (ds ++ ds') = (ofDeclarations ident ds).extend ds' := by
  simp only [ofDeclarations_eq, extend, List.filterMap_append]

end Program

/-! ## The two readings -/

/-- Where the second of two texts with the same tokens is read as a program, the first is read alike up
to the end of the second, and declarations follow there that know those of the program. -/
theorem Respacing.resumes_program {W : Respacing} {n : Nat} {A : Cursor → Cursor → Prop}
    (hblank : Parallel W.toComparison n 0 A blank blank (fun _ _ => True) W.Fresh) {i j k : Cursor}
    {p : Program} {m : Mark} (hi : i.bytes < n) (hij : A i j) (hp : Grammar.program j = .done p k m) :
    ∃ x y xs ys i' j', W.Alike Ident.relocate x y ∧
      List.Forall₂ (W.Alike Declaration.relocate) xs ys ∧ p = .ofDeclarations y ys ∧
      W.Fresh i' j' ∧ j'.chars = [] ∧ (Grammar.program i).result = ((do
        let ds ← manyWithin (fun earlier => Grammar.declaration (structureNames earlier))
          (i'.bytes + 1) xs.reverse
        Grammar.expect "declaration" Parser.atEnd
        return Program.ofDeclarations x (xs ++ ds) : Parser Program) i').result := by
  -- the heading is read from both texts
  obtain ⟨_, _, i₁, j₁, _, -, hij, hi, hp, hfirst⟩ := hblank.step hi hij hp
  obtain ⟨_, _, i₂, j₂, _, -, hij, hi, hp, hsecond⟩ := (closingWord (by decide)).step hi hij hp
  obtain ⟨x, y, i₃, j₃, _, hxy, hij, hi, hp, hthird⟩ := (expectNext ident).step hi hij hp
  obtain ⟨_, _, i₄, j₄, _, -, hij, hi, hp, hfourth⟩ := (W.lineEnd n _).step hi hij hp
  -- and so are the declarations of the second, which are read to its end
  obtain ⟨ys, j₅, _, _, hys, hp⟩ := done_of_bind hp
  obtain ⟨_, j₆, _, _, hend, hp⟩ := done_of_bind hp
  cases hp
  have hitem (xs ys : List Declaration) (h : List.Forall₂ (W.Alike Declaration.relocate) xs ys) :
      Parallel W.toComparison n 1 W.Amid (Grammar.declaration (structureNames xs))
        (Grammar.declaration (structureNames ys)) (W.Alike Declaration.relocate) W.Fresh := by
    rw [structureNames_eq h]
    exact declaration
  obtain ⟨xs, i₅, hxs, hij, hrun⟩ := resumes_of_parallel hitem
    (fun i j h => (W.amid_of_fresh i j h).imp id And.right) (fun _ => misses_declaration_nil _)
    (fun _ _ _ _ _ => bytes_lt_of_declaration) (Nat.lt_succ_self i₄.bytes) hi hij .nil hys
  refine ⟨x, y, xs, ys, i₅, j₅, hxy, hxs, rfl, hij, nil_of_atEnd hend, ?_⟩
  refine (hfirst _).trans ((hsecond _).trans ((hthird _).trans ((hfourth _).trans ?_)))
  rw [List.append_nil] at hrun
  rw [result_bind, result_bind, Grammar.declarations, manyWith, hrun]
  cases (manyWithin (fun earlier => Grammar.declaration (structureNames earlier)) (i₅.bytes + 1)
    xs.reverse i₅).result <;> rfl

namespace Appending

variable {d : List Char} {e : Region} (hd : e = .code ∨ d = [])

theorem eq_of_alike {x y : Ident} {xs ys : List Declaration}
    (hx : (respacing hd).Alike Ident.relocate x y)
    (hxs : List.Forall₂ ((respacing hd).Alike Declaration.relocate) xs ys) :
    Program.ofDeclarations x xs =
      (Program.ofDeclarations y ys).relocate fun i => ⟨i.toEnd + byteCount d⟩ := by
  have hleft : xs.map (Declaration.relocate id) = xs := List.map_id'' Declaration.relocate_id xs
  calc Program.ofDeclarations x xs
      = .ofDeclarations (x.relocate id) (xs.map (Declaration.relocate id)) := by rw [hleft]; rfl
    _ = .ofDeclarations (y.relocate fun i => ⟨i.toEnd + byteCount d⟩)
          (ys.map (Declaration.relocate fun i => ⟨i.toEnd + byteCount d⟩)) :=
        congrArg₂ Program.ofDeclarations hx (Respacing.Alike.map hxs)
    _ = _ := (Program.relocate_ofDeclarations _ _ _).symm

/-- Declarations behind those of a program. -/
theorem manyWithin_declaration {xs ys : List Declaration} {x : Ident}
    (hnames : structureNames xs = structureNames ys) (k : Nat) (i : Cursor) :
    manyWithin (fun earlier => declaration (structureNames earlier)) k (xs.reverse) i =
      manyWithin (fun earlier => declaration
        (structureNames earlier ++ (Program.ofDeclarations x ys).structureNames)) k [] i := by
  have hitem : (fun earlier => declaration (structureNames (earlier ++ xs.reverse))) =
      fun earlier => declaration
        (structureNames earlier ++ (Program.ofDeclarations x ys).structureNames) := by
    funext earlier
    apply declaration_congr
    intro name
    rw [Program.structureNames_ofDeclarations, ← hnames]
    simp [structureNames]
  rw [← hitem]
  exact manyWithin_append k [] xs.reverse i

include hd in
/-- Where a text is read as a program, it ends in code, and with more behind it the reading goes on. -/
theorem result_program {s : List Char} {p : Program} {j : Cursor} {m : Mark} (hs : EndsLine s)
    (he : Region.code.after s = e) (hp : program (.ofChars s) = .done p j m) :
    e = .code ∧ (program (.ofChars (s ++ d))).result =
      (furtherDeclarations p.structureNames (.ofChars d)).result.map
        (Prod.map (p.relocate fun i => ⟨i.toEnd + byteCount d⟩).extend id) := by
  have hblank : Parallel comparison ((Cursor.ofChars (s ++ d)).bytes + 1) 0
      (fun i j => Continued d e .code i.chars j.chars) blank blank (fun _ _ => True)
      fun i j => Renewed d e i.chars j.chars := by
    apply parallel_skipBlank reads_blank_skip
    rintro cs ds ⟨hline, hregion, rfl⟩
    exact renewed_blank hd (fun _ => hline) hregion
  obtain ⟨x, y, xs, ys, i, j, hxy, hxs, rfl, hij, hj, hresult⟩ := Respacing.resumes_program
    (W := respacing hd) hblank (Nat.lt_succ_self _) ⟨hs, he, rfl⟩ hp
  obtain ⟨he, hi⟩ : e = .code ∧ i.chars = skipBlank true d := by
    rcases hij with hij | ⟨-, he, hi⟩
    · exact absurd hj hij.endsLine.ne_nil
    · exact ⟨he, hi⟩
  obtain ⟨_, _, hrest, -⟩ := reads_blank_skip d
  rw [← hi, Cursor.ofChars_chars] at hrest
  refine ⟨he, ?_⟩
  rw [hresult, furtherDeclarations, result_bind_of_done hrest, result_bind, result_bind, manyWith,
    ← manyWithin_declaration (Respacing.structureNames_eq hxs)]
  cases (manyWithin (fun earlier => declaration (structureNames earlier)) (i.bytes + 1) xs.reverse
    i).result with
  | error e => rfl
  | ok r =>
    rw [← eq_of_alike hd hxy hxs]
    simp only [Except.bind, Program.ofDeclarations_append, result_bind]
    cases (expect "declaration" atEnd r.2).result <;> rfl

end Appending

/-- A program whose text ends with a line can be continued. Behind it, whatever is blank at the start of
the further text is passed over and declarations are read up to the end, with the structures of the program
known. If that succeeds, the declarations come last in the collections of the program, whose own places
now have the further text behind them; if it fails, the whole fails with the same error. Places have no
bound here: with places of 32 bits it is so as long as both texts together have fewer than `2 ^ 32 - 1`
bytes. -/
theorem Program.parse_append {s : String} {p : Program} (d : String) (hs : EndsLine s.toList)
    (hp : Program.parse s = .ok p) :
    Program.parse (s ++ d) = ((furtherDeclarations p.structureNames).read d).map
      (p.relocate fun i => ⟨i.toEnd + d.utf8ByteSize⟩).extend := by
  obtain ⟨j, m, hdone⟩ : ∃ j m, program (.ofString s) = .done p j m := by
    rw [Program.parse, Parser.read] at hp
    cases hreply : program (.ofString s) with
    | done q j m =>
      rw [hreply] at hp
      cases hp
      exact ⟨j, m, rfl⟩
    | miss _ | halt _ =>
      rw [hreply] at hp
      cases hp
  -- with nothing behind it, the text shows that it ends in code
  have hcode := (Appending.result_program (d := []) (.inr rfl) hs rfl hdone).1
  have hresult := (Appending.result_program (d := d.toList) (.inl rfl) hs hcode hdone).2
  rw [utf8ByteSize_eq]
  apply answers_program.read_eq_map (answers_furtherDeclarations _)
  rw [Cursor.ofString_eq, Cursor.ofString_eq, String.toList_append]
  exact hresult

/-- A program with a structure, and a line of blanks at its end. -/
def structureText : String := "program t\nstructure a\nend\n /* end */ \n"

/-- The program of `structureText`, with its places counted from the end of a text that is longer by as
many bytes. -/
def structureProgram (bytes : Nat) : Program :=
  { Program.empty ⟨⟨30 + bytes⟩, "t"⟩ with structures := [⟨⟨⟨18 + bytes⟩, "a"⟩, []⟩] }

theorem Program.parse_append_global :
    EndsLine structureText.toList ∧ Program.parse structureText = .ok (structureProgram 0) ∧
    Program.parse (structureText ++ "// more\nglobal g : a\n") =
      .ok { structureProgram 21 with globals := [⟨⟨⟨6⟩, "g"⟩, .named "a"⟩] } ∧
    Program.parse (structureText ++ "global g : b\n") = .error ⟨.undefinedStructure "b", ⟨2⟩⟩ := by
  have hs : EndsLine structureText.toList := by decide +kernel
  have hp : Program.parse structureText = .ok (structureProgram 0) := by decide +kernel
  refine ⟨hs, hp, ?_, ?_⟩
  · rw [parse_append _ hs hp]
    decide +kernel
  · rw [parse_append _ hs hp]
    decide +kernel

end Primer
