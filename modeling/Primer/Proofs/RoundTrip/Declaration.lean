import Primer.Proofs.Grammar.Declaration
import Primer.Proofs.RoundTrip.Instruction

/-!
Declarations read back as they are laid out, where the structures that they refer to are known. Each
is laid out as a text that ends with its last line and starts with the keyword of its kind.
-/

namespace Primer

namespace Grammar

open Primer.Parser

variable {cs rest : List Char} {known : List String}

/-! ## Types -/

section
variable {l : List α} {f : α → String}

/-- One of several words, each of which stands for an item. -/
theorem reads_choice_word (hf : ∀ x ∈ l, isWord (f x) = true)
    (hinj : (l.map f).Nodup) {y : α} (hy : y ∈ l) (hrest : Apart rest) :
    Reads (choice (l.map fun x => do word (f x); return x)) ((f y).toList ++ rest) rest (· = y) := by
  have hword := leadingWord_append (hf y hy) hrest
  induction l with
  | nil => cases hy
  | cons x l ih =>
    rw [List.map_cons, List.nodup_cons] at hinj
    rcases List.mem_cons.1 hy with rfl | hmem
    · exact .orElse (.bind (reads_word rfl hrest) fun _ _ => .pure rfl)
    · have hmiss : Misses (word (f x)) ((f y).toList ++ rest) := by
        refine misses_word ?_ (hf x List.mem_cons_self)
        rw [hword]
        intro heq
        exact hinj.1 (String.toList_inj.1 heq ▸ List.mem_map_of_mem hmem)
      exact hmiss.bind.orElse_reads
        (ih (fun z hz => hf z (List.mem_cons_of_mem x hz)) hinj.2 hmem)

theorem misses_choice_word (hf : ∀ x ∈ l, isWord (f x) = true)
    (h : ∀ x ∈ l, leadingWord cs ≠ (f x).toList) :
    Misses (choice (l.map fun x => do word (f x); return x)) cs := by
  refine .choice fun p hp => ?_
  obtain ⟨x, hx, rfl⟩ := List.mem_map.1 hp
  exact .bind (misses_word (h x hx) (hf x hx))

end

theorem isWord_of_mem_scalars {t : Ty} (ht : t ∈ Ty.scalars) : isWord t.text = true := by
  simp only [Ty.scalars, List.mem_cons, List.not_mem_nil, or_false] at ht
  rcases ht with rfl | rfl | rfl | rfl | rfl | rfl <;> decide

theorem reads_scalarType {t : Ty} (ht : t ∈ Ty.scalars) (hrest : Apart rest) :
    Reads scalarType (t.text.toList ++ rest) rest (· = t) :=
  reads_choice_word (fun _ => isWord_of_mem_scalars) (by decide) ht hrest

/-- A type starts with a word that is a name, the word for vectors or that of a scalar type. -/
theorem solid_type {t : Ty} (ht : t.Legal known) : Solid (t.text.toList ++ rest) := by
  have hstart (hne : ∀ name, t ≠ .named name) :
      ∃ c tail, t.text.toList = c :: tail ∧ isExprStart c = true := by
    cases t with
    | named name => exact absurd rfl (hne name)
    | vector element => exact ⟨'v', _, by rw [Ty.text, String.toList_append]; rfl, by decide⟩
    | _ => exact ⟨_, _, rfl, by decide⟩
  cases t with
  | named name => exact ht.1.solid rest
  | _ =>
    obtain ⟨c, tail, htext, hc⟩ := hstart (by simp)
    rw [htext]
    exact solid_of_isExprStart hc

theorem reads_type {t : Ty} (ht : t.Legal known) (hrest : Apart rest) :
    Reads (type known) (t.text.toList ++ rest) rest (· = t) := by
  induction t with
  | vector element ih =>
    have htext : (Ty.vector element).text.toList ++ rest =
        "vector".toList ++ ' ' :: ("of".toList ++ ' ' :: (element.text.toList ++ rest)) := by
      simp [Ty.text]
    rw [type_eq, htext]
    refine (misses_choice_word (fun _ => isWord_of_mem_scalars) ?_).orElse_reads (.orElse ?_)
    · rw [leadingWord_append (by decide) Apart.blank]
      decide
    · refine .bind (reads_word rfl .blank) fun _ _ => ?_
      refine .bind (.expect (reads_blank_word (by decide) .blank)) fun _ _ => ?_
      refine .bind (.expect (reads_afterSpace_blank (solid_type ht) (ih ht))) fun t ht => .pure ?_
      rw [ht]
  | named name =>
    obtain ⟨hname, hknown⟩ := ht
    have hword := hname.leadingWord_eq hrest
    have hne {w : String} (hw : isKeyword w = true) : name ≠ w := by
      rintro rfl
      rw [hname.notKeyword] at hw
      cases hw
    rw [type_eq, Ty.text]
    refine (misses_choice_word (fun _ => isWord_of_mem_scalars) ?_).orElse_reads ?_
    · rw [hword]
      intro t ht heq
      refine hne ?_ (String.toList_inj.1 heq)
      simp only [Ty.scalars, List.mem_cons, List.not_mem_nil, or_false] at ht
      rcases ht with rfl | rfl | rfl | rfl | rfl | rfl <;> decide
    refine Misses.orElse_reads (.bind (misses_word ?_ (by decide))) ?_
    · rw [hword]
      exact fun heq => hne (by decide) (String.toList_inj.1 heq)
    refine .bind .here fun start _ => .bind (reads_ident hname hrest) fun x hx => ?_
    rw [hx, if_pos (List.contains_iff_mem.2 hknown)]
    exact .pure rfl
  | _ =>
    rw [type_eq]
    exact .orElse (reads_scalarType (by decide) hrest)

/-- A sign with a blank on each side. -/
theorem reads_spaced_sign {c : Char} (hc : isSpace c = false) (hslash : c ≠ '/') (hcs : Solid cs) :
    Reads (spaced (char c)) (' ' :: c :: ' ' :: cs) cs (· = c) := by
  refine .bind (reads_space_blank (.of_cons hc hslash)) fun _ _ => .bind .char fun d hd => ?_
  exact .bind (reads_space_blank hcs) fun _ _ => .pure hd

theorem reads_symbol {s : Symbol} (hs : s.Legal known) (hrest : Apart rest) :
    Reads (symbol known) ((Canonical.symbol s).toList ++ rest) rest (·.erase = s.erase) := by
  have htext : (Canonical.symbol s).toList ++ rest =
      s.name.toList ++ ' ' :: ':' :: ' ' :: (s.type.text.toList ++ rest) := by
    simp [Canonical.symbol]
  rw [htext]
  refine .bind (reads_ident hs.1 .blank) fun x hx => ?_
  refine .bind (.discard (.expect (reads_spaced_sign (by decide) (by decide) (solid_type hs.2)))) ?_
  refine fun _ _ => .bind (.expect (reads_type hs.2 hrest)) fun t ht => .pure ?_
  rw [Symbol.erase, Symbol.erase, ht, Ident.erase_eq_iff.2 hx]

/-! ## Parameters -/

theorem reads_parameter {p : Parameter} (hp : p.symbol.Legal known) (hrest : Apart rest) :
    Reads (parameter known) ((Canonical.parameter p).toList ++ rest) rest
      (·.erase = p.erase) := by
  have htext : (Canonical.parameter p).toList ++ rest =
      p.mode.text.toList ++ ' ' :: ((Canonical.symbol p.symbol).toList ++ rest) := by
    simp [Canonical.parameter]
  have hmode : Reads mode (p.mode.text.toList ++ ' ' :: ((Canonical.symbol p.symbol).toList ++ rest))
      (' ' :: ((Canonical.symbol p.symbol).toList ++ rest)) (· = p.mode) := by
    refine reads_choice_word ?_ (by decide) ?_ .blank
    · decide
    · cases p.mode <;> decide
  have hsolid : Solid ((Canonical.symbol p.symbol).toList ++ rest) := by
    simp only [Canonical.symbol, String.toList_append, List.append_assoc]
    exact hp.1.solid _
  rw [htext]
  refine .bind (.expect hmode) fun m hm => ?_
  refine .bind (.expect (reads_afterSpace_blank hsolid (reads_symbol hp hrest))) fun s hs => .pure ?_
  rw [Parameter.erase, Parameter.erase, hm, hs]

theorem reads_parameters {params : List Parameter} (h : ∀ p ∈ params, p.symbol.Legal known) :
    Reads (parameters known)
      ('(' :: ((", ".intercalate (params.map Canonical.parameter)).toList ++ ')' :: rest)) rest
      (·.map Parameter.erase = params.map Parameter.erase) := by
  have hparen : Solid (')' :: rest) := .of_cons (by decide) (by decide)
  have hlist : Reads _ _ (')' :: rest) _ := reads_listed (p := parameter known)
    (f := fun p => (Canonical.parameter p).toList) (Q := fun p read => read.erase = p.erase)
    (l := params) ?_ ?_
  · rw [String.toList_intercalate, List.map_map]
    refine .bind (.discard (.expect (reads_afterSpace (.of_cons (by decide) (by decide)) .char))) ?_
    refine fun _ _ => .bind hlist fun ps hps => ?_
    refine .bind (.discard (.expect (reads_afterSpace hparen .char))) fun _ _ => .pure ?_
    exact map_eq_map_of_forall₂ hps
  · intro p hp
    obtain ⟨c, tail, hc, hsolid, hne⟩ : ∃ c tail, p.mode.text.toList = c :: tail ∧ Solid [c] ∧ c ≠ ')' := by
      cases p.mode <;> exact ⟨_, _, rfl, .of_cons (by decide) (by decide), by decide⟩
    exact ⟨c, _, by rw [Canonical.parameter]; simp [hc]; rfl, hsolid, hne⟩
  · rintro p hp c tail (rfl | rfl)
    · exact reads_parameter (h p hp) (.of_cons (by decide))
    · exact reads_parameter (h p hp) (.of_cons (by decide))

/-! ## Symbols on lines -/

theorem solid_symbol {s : Symbol} (hs : s.Legal known) :
    Solid ((Canonical.symbol s).toList ++ rest) := by
  simp only [Canonical.symbol, String.toList_append, List.append_assoc]
  exact hs.1.solid _

theorem reads_members {members : List Symbol} (h : ∀ m ∈ members, m.Legal known) (w d : Nat)
    {after : List Char} (hafter : Solid (strip after)) (hmiss : Misses (symbol known) (strip after)) :
    Solid (strip (members.flatMap (fun m => margin w d ++ ((Canonical.symbol m).toList ++ ['\n'])) ++
        after)) ∧
      Reads (many (do let member ← symbol known; expect "end of line after member" lineEnd; return member))
        (strip (members.flatMap (fun m => margin w d ++ ((Canonical.symbol m).toList ++ ['\n'])) ++
          after)) (strip after)
        (List.Forall₂ (fun m read => read.erase = m.erase) members) := by
  refine reads_lines after (fun _ _ => isSpace_margin w d) (fun _ h => h) ?_ ?_ hafter hmiss.bind
  · refine fun m hm => ⟨by simp, fun rest => ?_⟩
    rw [List.append_assoc]
    exact solid_symbol (h m hm)
  · intro m hm rest hrest
    rw [List.append_assoc]
    refine .bind (reads_symbol (h m hm) .newline) fun s hs => ?_
    exact .bind (.expect (reads_lineEnd hrest)) fun _ _ => .pure hs

theorem reads_locals {locals : List Symbol} (h : ∀ s ∈ locals, s.Legal known) (w d : Nat)
    {after : List Char} (hafter : Solid (strip after))
    (hmiss : Misses (localDeclaration known) (strip after)) :
    Solid (strip (locals.flatMap (fun s => margin w d ++
        ("local".toList ++ ' ' :: ((Canonical.symbol s).toList ++ ['\n']))) ++ after)) ∧
      Reads (many (localDeclaration known)) (strip (locals.flatMap (fun s => margin w d ++
          ("local".toList ++ ' ' :: ((Canonical.symbol s).toList ++ ['\n']))) ++ after)) (strip after)
        (List.Forall₂ (fun s read => read.erase = s.erase) locals) := by
  refine reads_lines after (fun _ _ => isSpace_margin w d) (fun _ h => h) ?_ ?_ hafter hmiss
  · exact fun s hs => ⟨by simp, fun rest => .of_cons (by decide) (by decide)⟩
  · intro s hs rest hrest
    simp only [List.append_assoc, List.cons_append, List.nil_append]
    refine .bind (reads_word rfl .blank) fun _ _ => ?_
    refine .bind (.expect (reads_afterSpace_blank (solid_symbol (h s hs))
      (reads_symbol (h s hs) .newline))) fun t ht => ?_
    exact .bind (.expect (reads_lineEnd hrest)) fun _ _ => .pure ht

end Grammar

/-- How a declaration is written, without the empty line before it. -/
def Declaration.steps : Declaration → List Step
  | .ofStructure s => (Canonical.structureDeclaration s).tail
  | .ofConstant c =>
    Step.line ("constant " ++ Canonical.symbol c.symbol ++ " = " ++ Canonical.expr c.value)
  | .ofGlobal s => Step.line ("global " ++ Canonical.symbol s)
  | .ofRoutine r => (Canonical.routine r).tail

/-- The declaration is laid out as the text, which starts with a word and reads back wherever the
structures that the declaration refers to are known. -/
structure Declaration.RereadsAs (w : Nat) (d : Declaration) (text : List Char) : Prop where
  start : ∃ c tail, text = c :: tail ∧ isExprStart c = true
  lays : Lays w 0 true d.steps text
  reads : ∀ known, d.Legal known → ∀ after, Solid (strip after) →
    (Grammar.declaration known).Reads (text ++ after) (strip after) (·.erase = d.erase)

open Primer.Grammar Primer.Parser

/-! ## The kinds of declarations -/

section
variable {known : List String} {cs : List Char}

theorem misses_structureDeclaration (h : cs.head? ≠ some 's') :
    Misses (Grammar.structureDeclaration known) cs := .bind (misses_word_of_head rfl h)

theorem misses_constantDeclaration (h : cs.head? ≠ some 'c') :
    Misses (constantDeclaration known) cs := .bind (misses_word_of_head rfl h)

theorem misses_globalDeclaration (h : cs.head? ≠ some 'g') :
    Misses (globalDeclaration known) cs := .bind (misses_word_of_head rfl h)

theorem misses_functionDeclaration (h : cs.head? ≠ some 'f') :
    Misses (functionDeclaration known) cs := .bind (misses_word_of_head rfl h)

theorem exists_structure (s : Structure) (w : Nat) :
    ∃ text, Declaration.RereadsAs w (.ofStructure s) text := by
  let members := s.members.flatMap fun m => margin w 1 ++ ((Canonical.symbol m).toList ++ ['\n'])
  refine ⟨"structure".toList ++ ' ' :: (s.name.toList ++ '\n' :: (members ++
    ("end".toList ++ ['\n']))), ⟨'s', _, rfl, by decide⟩, ?_, ?_⟩
  · have hline : Lays w 0 true _ _ := .line (t := "structure " ++ s.name) (by simp)
    have hmembers : Lays w 1 true (s.members.flatMap fun m => Step.line (Canonical.symbol m)) members :=
      .flatMap fun m _ => .line (by simp [Canonical.symbol])
    have hend : Lays w 0 true _ _ := .line (t := "end") (by decide)
    simpa [Declaration.steps, Canonical.structureDeclaration, lead] using
      (hline.append (.indented hmembers)).append hend
  · intro known hs after hafter
    have hend : strip ("end".toList ++ '\n' :: after) = "end".toList ++ '\n' :: after := by
      simpa using strip_margin_word (by decide : "end" ∈ blockWords) w 0 ('\n' :: after)
    have hmiss : Misses (symbol known) (strip ("end".toList ++ '\n' :: after)) := by
      rw [hend]
      exact .bind (misses_ident_of_keyword (by decide) .newline)
    have hsolid : Solid (strip ("end".toList ++ '\n' :: after)) := by
      rw [hend]
      exact .of_cons (by decide) (by decide)
    obtain ⟨hsolid', hread⟩ := reads_members hs.members w 1 hsolid hmiss
    rw [hend] at hread
    simp only [List.append_assoc, List.cons_append, List.nil_append]
    have hstructure : Reads (Grammar.structureDeclaration known) ("structure".toList ++ ' ' ::
        (s.name.toList ++ '\n' :: (members ++ ("end".toList ++ '\n' :: after)))) (strip after)
        (·.erase = s.erase) := by
      refine .bind (reads_word rfl .blank) fun _ _ => ?_
      refine .bind (.expect (reads_afterSpace_blank (hs.name.solid _)
        (reads_ident hs.name .newline))) fun x hx => ?_
      refine .bind (.expect (reads_lineEnd hsolid')) fun _ _ => .bind hread fun ms hms => ?_
      refine .bind (.expect (reads_word rfl .newline)) fun _ _ => ?_
      refine .bind (.expect (reads_lineEnd hafter)) fun _ _ => .pure ?_
      rw [Structure.erase, Structure.erase, Ident.erase_eq_iff.2 hx, map_eq_map_of_forall₂ hms]
    exact .orElse (.bind hstructure fun t ht => .pure (congrArg Declaration.ofStructure ht))

theorem exists_constant {c : Constant} (hvalue : c.value.Rereads) (w : Nat) :
    ∃ text, Declaration.RereadsAs w (.ofConstant c) text := by
  refine ⟨"constant".toList ++ ' ' :: ((Canonical.symbol c.symbol).toList ++
    ' ' :: '=' :: ' ' :: ((Canonical.expr c.value).toList ++ ['\n'])), ⟨'c', _, rfl, by decide⟩, ?_, ?_⟩
  · have hline : Lays w 0 true _ _ := .line
      (t := "constant " ++ Canonical.symbol c.symbol ++ " = " ++ Canonical.expr c.value) (by simp)
    simpa [Declaration.steps, lead] using hline
  · intro known hc after hafter
    simp only [List.append_assoc, List.cons_append, List.nil_append]
    refine (misses_structureDeclaration (by simp)).bind.orElse_reads (.orElse ?_)
    have hconstant : Reads (constantDeclaration known) ("constant".toList ++ ' ' ::
        ((Canonical.symbol c.symbol).toList ++ ' ' :: '=' :: ' ' :: ((Canonical.expr c.value).toList ++
          '\n' :: after))) (strip after) (·.erase = c.erase) := by
      refine .bind (reads_word rfl .blank) fun _ _ => ?_
      refine .bind (.expect (reads_afterSpace_blank (solid_symbol hc.symbol)
        (reads_symbol hc.symbol .blank))) fun s hs => ?_
      refine .bind (.discard (.expect (reads_spaced_sign (by decide) (by decide)
        (hvalue.start.solid _)))) fun _ _ => ?_
      refine .bind (.expect (hvalue.whole _ ends_newline)) fun a ha => ?_
      refine .bind (.expect (reads_lineEnd hafter)) fun _ _ => .pure ?_
      rw [Constant.erase, Constant.erase, hs, ha]
    exact .bind hconstant fun d hd => .pure (congrArg Declaration.ofConstant hd)

theorem exists_global (s : Symbol) (w : Nat) :
    ∃ text, Declaration.RereadsAs w (.ofGlobal s) text := by
  refine ⟨"global".toList ++ ' ' :: ((Canonical.symbol s).toList ++ ['\n']),
    ⟨'g', _, rfl, by decide⟩, ?_, ?_⟩
  · have hline : Lays w 0 true _ _ := .line (t := "global " ++ Canonical.symbol s) (by simp)
    simpa [Declaration.steps, lead] using hline
  · intro known hs after hafter
    simp only [List.append_assoc, List.cons_append, List.nil_append]
    refine (misses_structureDeclaration (by simp)).bind.orElse_reads ?_
    refine (misses_constantDeclaration (by simp)).bind.orElse_reads (.orElse ?_)
    have hglobal : Reads (globalDeclaration known) ("global".toList ++ ' ' ::
        ((Canonical.symbol s).toList ++ '\n' :: after)) (strip after) (·.erase = s.erase) := by
      refine .bind (reads_word rfl .blank) fun _ _ => ?_
      refine .bind (.expect (reads_afterSpace_blank (solid_symbol hs)
        (reads_symbol hs .newline))) fun t ht => ?_
      exact .bind (.expect (reads_lineEnd hafter)) fun _ _ => .pure ht
    exact .bind hglobal fun d hd => .pure (congrArg Declaration.ofGlobal hd)

/-- What follows the signature of a routine. -/
theorem exists_routineBody {r : Routine} (hbody : ∀ i ∈ r.body, i.Rereads) (w : Nat) :
    ∃ text, Lays w 0 true ([.indented (r.locals.flatMap
        (fun s => Step.line ("local " ++ Canonical.symbol s)) ++ Canonical.block r.body)] ++
          Step.line "end") text ∧
      ∀ known, r.Legal known → ∀ after, Solid (strip after) →
        Reads (routineBody known) ('\n' :: (text ++ after)) (strip after) fun b =>
          b.1.map Symbol.erase = r.locals.map Symbol.erase ∧
            b.2.map Instruction.erase = r.body.map Instruction.erase := by
  obtain ⟨block, hlays, hblock⟩ := exists_block hbody w 1
  let locals := r.locals.flatMap fun s => margin w 1 ++
    ("local".toList ++ ' ' :: ((Canonical.symbol s).toList ++ ['\n']))
  refine ⟨locals ++ (block ++ ("end".toList ++ ['\n'])), ?_, fun known hr after hafter => ?_⟩
  · have hlocals : Lays w 1 true
        (r.locals.flatMap fun s => Step.line ("local " ++ Canonical.symbol s)) locals := by
      refine .flatMap fun s _ => ?_
      have hline : Lays w 1 true _ _ := .line (t := "local " ++ Canonical.symbol s) (by simp)
      simpa [lead] using hline
    have hend : Lays w 0 true _ _ := .line (t := "end") (by decide)
    simpa [lead] using (Lays.indented (hlocals.append hlays)).append hend
  · have hend : strip ("end".toList ++ '\n' :: after) = "end".toList ++ '\n' :: after := by
      simpa using strip_margin_word (by decide : "end" ∈ blockWords) w 0 ('\n' :: after)
    obtain ⟨hsolid, hword, hread⟩ := hblock ["end"] ("end".toList ++ '\n' :: after) (by decide)
      ⟨"end", by simp, _, hend, .newline⟩
    have hmiss : Misses (localDeclaration known) (strip (block ++ ("end".toList ++ '\n' :: after))) :=
      .bind (misses_word (fun heq => absurd (hword "local" (by decide) heq) (by decide)) (by decide))
    obtain ⟨hsolid', hread'⟩ := reads_locals hr.locals w 1 hsolid hmiss
    rw [hend] at hread
    simp only [List.append_assoc, List.cons_append, List.nil_append]
    refine .bind (.expect (reads_lineEnd hsolid')) fun _ _ => .bind hread' fun ls hls => ?_
    refine .bind hread fun is his => .bind (.expect (reads_word rfl .newline)) ?_
    refine fun _ _ => .bind (.expect (reads_lineEnd hafter)) fun _ _ => .pure ?_
    exact ⟨map_eq_map_of_forall₂ hls, his⟩

/-- A function reads back from its signature, if what follows reads as its body. -/
theorem reads_functionDeclaration (ident : Ident) (params : List Parameter) (type : Ty)
    {known : List String} {body rest : List Char} {Q : List Symbol × List Instruction → Prop}
    (hname : LegalName ident.name) (hparams : ∀ p ∈ params, p.symbol.Legal known)
    (htype : type.Legal known) (hbody : Reads (routineBody known) ('\n' :: body) rest Q) :
    Reads (functionDeclaration known) ("function".toList ++ ' ' :: (ident.name.toList ++ '(' ::
        ((", ".intercalate (params.map Canonical.parameter)).toList ++ ')' :: ' ' :: ':' :: ' ' ::
          (type.text.toList ++ '\n' :: body)))) rest
      fun r => ∃ b, Q b ∧ r.erase = Routine.erase ⟨ident, params, b.1, b.2, some type⟩ := by
  refine .bind (reads_word rfl .blank) fun _ _ => ?_
  refine .bind (.expect (reads_afterSpace_blank (hname.solid _)
    (reads_ident hname (.of_cons (by decide))))) fun x hx => ?_
  refine .bind (reads_parameters hparams) fun ps hps => ?_
  refine .bind (.discard (.expect (reads_spaced_sign (by decide) (by decide) (solid_type htype)))) ?_
  refine fun _ _ => .bind (.expect (reads_type htype .newline)) fun t ht => ?_
  refine .bind hbody fun b hb => .pure ⟨b, hb, ?_⟩
  simp only [Routine.erase, Ident.erase_eq_iff.2 hx, hps, ht]

theorem exists_routine {r : Routine} (hbody : ∀ i ∈ r.body, i.Rereads) (w : Nat) :
    ∃ text, Declaration.RereadsAs w (.ofRoutine r) text := by
  obtain ⟨body, hlays, hread⟩ := exists_routineBody hbody w
  obtain ⟨ident, params, locals, instructions, result⟩ := r
  have hline : Lays w 0 true _ _ := .line (t := Canonical.signature ⟨ident, params, locals,
    instructions, result⟩) (by cases result <;> simp [Canonical.signature])
  have hroutine := hline.append hlays
  let list := (", ".intercalate (params.map Canonical.parameter)).toList
  cases result with
  | none =>
    refine ⟨"procedure".toList ++ ' ' :: (ident.name.toList ++ '(' :: (list ++ ')' :: '\n' :: body)),
      ⟨'p', _, rfl, by decide⟩, ?_, fun known hr after hafter => ?_⟩
    · simpa [Declaration.steps, Canonical.routine, Canonical.signature, Routine.name, lead, list] using hroutine
    · simp only [List.append_assoc, List.cons_append]
      refine (misses_structureDeclaration (by simp)).bind.orElse_reads ?_
      refine (misses_constantDeclaration (by simp)).bind.orElse_reads ?_
      refine (misses_globalDeclaration (by simp)).bind.orElse_reads ?_
      refine (misses_functionDeclaration (by simp)).bind.orElse_reads ?_
      refine .bind (?_ : Reads _ _ _ (·.erase = Routine.erase ⟨ident, params, locals, instructions, none⟩))
        fun d hd => .pure (congrArg Declaration.ofRoutine hd)
      refine .bind (reads_word rfl .blank) fun _ _ => ?_
      refine .bind (.expect (reads_afterSpace_blank (hr.name.solid _)
        (reads_ident hr.name (.of_cons (by decide))))) fun x hx => ?_
      refine .bind (reads_parameters hr.params) fun ps hps => .bind (hread known hr after hafter) fun b hb => ?_
      refine .pure ?_
      simp only [Routine.erase, Ident.erase_eq_iff.2 hx, hps, hb.1, hb.2]
  | some type =>
    refine ⟨"function".toList ++ ' ' :: (ident.name.toList ++ '(' :: (list ++ ')' :: ' ' :: ':' ::
      ' ' :: (type.text.toList ++ '\n' :: body))), ⟨'f', _, rfl, by decide⟩, ?_,
      fun known hr after hafter => ?_⟩
    · simpa [Declaration.steps, Canonical.routine, Canonical.signature, Routine.name, lead, list] using hroutine
    · simp only [List.append_assoc, List.cons_append]
      refine (misses_structureDeclaration (by simp)).bind.orElse_reads ?_
      refine (misses_constantDeclaration (by simp)).bind.orElse_reads ?_
      refine (misses_globalDeclaration (by simp)).bind.orElse_reads (.orElse ?_)
      refine .bind (reads_functionDeclaration ident params type hr.name hr.params (hr.result type rfl)
        (hread known hr after hafter)) ?_
      rintro d ⟨b, hb, hd⟩
      refine .pure (congrArg Declaration.ofRoutine (hd.trans ?_))
      simp only [Routine.erase, hb.1, hb.2]

end

end Primer
