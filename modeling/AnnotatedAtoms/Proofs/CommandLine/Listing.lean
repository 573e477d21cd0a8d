import AnnotatedAtoms.Proofs.Binary64.Exact
import AnnotatedAtoms.Proofs.CommandLine.Answers
import AnnotatedAtoms.Proofs.Reading.Image
import Mathlib.Data.List.Forall2

/-!
# What a listing tells

Where no string goes over the end of a line, the atoms can be told from their listing. An atom has a
line of its own, which begins with the name of its kind and so not with a tab; behind the first tab
stands its text, whatever that is. The lines of the annotations are those that begin with a tab.

* `unlines_injective`: the lines of a text can be told from it;
* `eq_of_render_eq`: so can a readable value of a known kind;
* `withoutTabbed_listing`: the lines that begin with a tab are those of the annotations;
* `respond_tells_atoms`: what two equal answers have in common.
-/

namespace AnnotatedAtoms

open Literal

/-! ## Lines of a text -/

/-- The text of some lines. Each is ended by a newline. -/
def unlines (ls : List (List Char)) : List Char := ls.flatMap (· ++ ['\n'])

def isTabbed (l : List Char) : Bool := l.head? = some '\t'

/-- A text without its lines that begin with a tab. What stands behind the last newline is not a
line, and it stays. -/
def withoutTabbed (text : List Char) : List Char :=
  let pieces := text.splitOn '\n'
  unlines (pieces.dropLast.filter fun l => !isTabbed l) ++ pieces.getLastD []

variable {ls ms : List (List Char)}

theorem splitOn_unlines (h : ∀ l ∈ ls, '\n' ∉ l) : (unlines ls).splitOn '\n' = ls ++ [[]] := by
  induction ls with
  | nil => rfl
  | cons l ls ih =>
    have hcons : unlines (l :: ls) = l ++ '\n' :: unlines ls := by simp [unlines]
    rw [hcons, List.splitOn_append_cons_self_of_not_mem (h l List.mem_cons_self),
      ih fun l hl => h l (List.mem_cons_of_mem _ hl), List.cons_append]

theorem unlines_injective (hls : ∀ l ∈ ls, '\n' ∉ l) (hms : ∀ l ∈ ms, '\n' ∉ l)
    (h : unlines ls = unlines ms) : ls = ms := by
  have hsplit := congrArg (List.splitOn '\n') h
  rw [splitOn_unlines hls, splitOn_unlines hms] at hsplit
  exact List.append_cancel_right hsplit

theorem withoutTabbed_unlines (h : ∀ l ∈ ls, '\n' ∉ l) :
    withoutTabbed (unlines ls) = unlines (ls.filter fun l => !isTabbed l) := by
  simp [withoutTabbed, splitOn_unlines h]

/-! ## Values by their texts -/

theorem Kind.name_injective {k l : Kind} (h : k.name = l.name) : k = l := by
  cases k <;> cases l <;> first | rfl | exact absurd h (by decide)

theorem Kind.tab_not_mem_name (k : Kind) : '\t' ∉ k.name.toList := by
  cases k <;> decide

theorem Binary64.render_injective {x y : Binary64} (h : x.render = y.render) : x = y := by
  apply Binary64.chars_injective
  rw [← toList_render, h, toList_render]

namespace Value

theorem eq_of_render_eq {v w : Value} (hv : v.Readable) (hw : w.Readable)
    (hkind : v.kind = w.kind) (h : v.render = w.render) : v = w := by
  cases v with
  | none => cases w <;> first | rfl | cases hkind
  | complex z => cases hv
  | number x =>
    cases w with
    | number y => exact congrArg number (Binary64.render_injective h)
    | _ => cases hkind
  | symbol text =>
    cases w with
    | symbol text' => exact congrArg symbol h
    | _ => cases hkind
  | string text =>
    cases w with
    | string text' => exact congrArg string h
    | _ => cases hkind

end Value

/-! ## Lines of a listing -/

namespace Atom

/-- The line of an atom, without the newline. -/
def heading (a : Atom) : List Char := a.kind.name.toList ++ '\t' :: a.render.toList

def annotationHeading (entry : String × Atom) : List Char :=
  '\t' :: (entry.1 ++ " = " ++ entry.2.render).toList

def lines (withAnnotations : Bool) (a : Atom) : List (List Char) :=
  a.heading :: if withAnnotations then a.annotations.toList.map annotationHeading else []

theorem not_isTabbed_heading (a : Atom) : isTabbed a.heading = false := by
  unfold heading
  cases a.kind <;> rfl

theorem isTabbed_annotationHeading (entry : String × Atom) :
    isTabbed (annotationHeading entry) = true := rfl

/-- The name of the kind stands in front of the first tab, and the text behind it. -/
theorem kind_and_render_of_heading {a b : Atom} (h : a.heading = b.heading) :
    a.kind = b.kind ∧ a.render = b.render := by
  have hsplit := congrArg (List.splitOn '\t') h
  rw [heading, heading, List.splitOn_append_cons_self_of_not_mem (Kind.tab_not_mem_name _),
    List.splitOn_append_cons_self_of_not_mem (Kind.tab_not_mem_name _), List.cons.injEq,
    String.toList_inj] at hsplit
  have hkind := Kind.name_injective hsplit.1
  rw [heading, heading, hkind, List.append_cancel_left_eq, List.cons.injEq] at h
  exact ⟨hkind, String.toList_inj.mp h.2⟩

end Atom

theorem toList_listing (withAnnotations : Bool) (as : List Atom) :
    (listing withAnnotations as).toList = unlines (as.flatMap (Atom.lines withAnnotations)) := by
  rw [listing, String.toList_join, List.flatMap_map, unlines, List.flatMap_assoc]
  congr
  funext a
  cases withAnnotations with
  | false => simp [Atom.line, Atom.lines, Atom.heading]
  | true =>
    simp [Atom.line, Atom.lines, Atom.heading, Atom.annotationLines, Atom.annotationLine,
      Atom.annotationHeading, String.toList_join, List.flatMap_map]

theorem filter_not_isTabbed_lines (a : Atom) :
    ((a.lines true).filter fun l => !isTabbed l) = a.lines false := by
  have htabbed : ∀ l ∈ a.annotations.toList.map Atom.annotationHeading, isTabbed l = true :=
    List.forall_mem_map.mpr fun entry _ => Atom.isTabbed_annotationHeading entry
  simp only [Atom.lines, if_true]
  rw [List.filter_cons_of_pos (by simp [Atom.not_isTabbed_heading]),
    List.filter_eq_nil_iff.mpr fun l hl => by simp [htabbed l hl]]
  rfl

/-- The lines that begin with a tab are those of the annotations. -/
theorem withoutTabbed_listing {as : List Atom} (h : ∀ l ∈ as.flatMap (Atom.lines true), '\n' ∉ l) :
    withoutTabbed (listing true as).toList = (listing false as).toList := by
  rw [toList_listing, toList_listing, withoutTabbed_unlines h, List.filter_flatMap]
  congr
  funext a
  exact filter_not_isTabbed_lines a

/-! ## Atoms that are read -/

/-- The quoted tokens of a text do not go over the end of a line. -/
def StringsOnOneLine (source : String) : Prop :=
  ∀ ts, tokenize source = .ok ts → ∀ p ∈ ts, p.1.quoted = true → '\n' ∉ p.1.text.toList

theorem stringsOnOneLine_of_tokenize {source : String} {ts : List (Token × Nat)}
    (h : tokenize source = .ok ts)
    (hts : ∀ p ∈ ts, p.1.quoted = true → '\n' ∉ p.1.text.toList) : StringsOnOneLine source := by
  intro ts' h'
  cases h.symm.trans h'
  exact hts

/-- A token that is not in quotes ends where the line does. -/
theorem Token.newline_not_mem {t : Token} (h : t.piece.Valid) (hbare : t.quoted = false) :
    '\n' ∉ t.text.toList := by
  rw [valid_piece_iff, if_neg (by simp [hbare])] at h
  intro hc
  exact h.2 _ hc (by decide)

theorem Binary64.newline_not_mem_render {x : Binary64} (h : x.isFinite = true) :
    '\n' ∉ x.render.toList :=
  Token.newline_not_mem (t := (Value.number x).token) (Value.valid_piece_token h) rfl

/-- A token that could be cut from a text is shown on one line, unless it is in quotes. -/
theorem Value.newline_not_mem_render {t : Token} (h : t.piece.Valid)
    (hline : t.quoted = true → '\n' ∉ t.text.toList) : '\n' ∉ (ofToken t).render.toList := by
  rw [ofToken]
  split
  · rename_i x hread
    exact Binary64.newline_not_mem_render (read?_isFinite hread)
  · split_ifs with hopens hquoted
    · decide
    · exact hline hquoted
    · exact Token.newline_not_mem h (Bool.eq_false_iff.mpr hquoted)

namespace Atom

/-- An atom with a finite number as its line and no other annotation, whose value is readable and
shown on one line. -/
inductive OnOneLine : Atom → Prop where
  | mk {v : Value} {x : Binary64} (readable : v.Readable) (shown : '\n' ∉ v.render.toList)
      (finite : x.isFinite = true) :
      OnOneLine ⟨v, .cons lineName (above_none lineName) (ofNumber x) .nil⟩

theorem onOneLine_of_mem_readAll {source : String} {as : List Atom}
    (h : readAll source = .ok as) (hline : StringsOnOneLine source) : ∀ a ∈ as, a.OnOneLine := by
  obtain ⟨ts, hts, hlines, rfl⟩ := (readAll_eq_ok_iff source as).mp h
  intro a ha
  obtain ⟨p, hp, rfl⟩ := List.mem_map.mp ha
  have hvalid := valid_piece_of_mem_textTokens hts p hp
  have hquoted := hline ts hts p (List.mem_filter.mp hp).1
  exact .mk (Value.readable_ofToken hvalid) (Value.newline_not_mem_render hvalid hquoted)
    (Binary64.isFinite_of_toRat? (Binary64.toRat?_ofNat (hlines p hp)))

theorem annotationHeading_line (x : Binary64) :
    annotationHeading (lineName, ofNumber x) = "\tline = ".toList ++ x.render.toList := by
  simp [annotationHeading, lineName, ofNumber, ofValue, render, Value.render]

theorem newline_not_mem_heading {a : Atom} (h : '\n' ∉ a.render.toList) : '\n' ∉ a.heading := by
  have hname : '\n' ∉ a.kind.name.toList := by cases a.kind <;> decide
  simp [heading, hname, h]

namespace OnOneLine

variable {a b : Atom}

theorem value_of_heading (ha : a.OnOneLine) (hb : b.OnOneLine) (h : a.heading = b.heading) :
    a.kind = b.kind ∧ a.value = b.value := by
  obtain ⟨hkind, hrender⟩ := kind_and_render_of_heading h
  cases ha with
  | mk hv _ _ =>
    cases hb with
    | mk hw _ _ => exact ⟨hkind, Value.eq_of_render_eq hv hw hkind hrender⟩

theorem eq_of_lines (ha : a.OnOneLine) (hb : b.OnOneLine) (h : a.lines true = b.lines true) :
    a = b := by
  have hheading : a.heading = b.heading := (List.cons.inj h).1
  have hvalue := (ha.value_of_heading hb hheading).2
  cases ha with
  | @mk v x _ _ _ =>
    cases hb with
    | @mk w y _ _ _ =>
      have hline : annotationHeading (lineName, ofNumber x) =
          annotationHeading (lineName, ofNumber y) := (List.cons.inj (List.cons.inj h).2).1
      rw [annotationHeading_line, annotationHeading_line, List.append_cancel_left_eq,
        String.toList_inj] at hline
      have hv : v = w := hvalue
      rw [hv, Binary64.render_injective hline]

theorem newline_not_mem (h : a.OnOneLine) (withAnnotations : Bool) :
    ∀ l ∈ a.lines withAnnotations, '\n' ∉ l := by
  cases h with
  | @mk v x _ hshown hx =>
    intro l hl
    rcases List.mem_cons.mp hl with rfl | hl
    · exact newline_not_mem_heading hshown
    · cases withAnnotations with
      | false => cases hl
      | true =>
        rw [List.mem_singleton.mp hl, annotationHeading_line, List.mem_append, not_or]
        exact ⟨by decide, Binary64.newline_not_mem_render hx⟩

theorem length_lines (ha : a.OnOneLine) (hb : b.OnOneLine) (withAnnotations : Bool) :
    (a.lines withAnnotations).length = (b.lines withAnnotations).length := by
  cases ha
  cases hb
  cases withAnnotations <;> rfl

end OnOneLine

end Atom

/-! ## Listings that are the same -/

open Atom (OnOneLine)

variable {as bs : List Atom} {withAnnotations : Bool}

/-- All atoms have the same number of lines, so the lines are split between them in one way. -/
theorem forall₂_of_lines {R : Atom → Atom → Prop} (ha : ∀ a ∈ as, a.OnOneLine)
    (hb : ∀ b ∈ bs, b.OnOneLine)
    (hR : ∀ a b, a.OnOneLine → b.OnOneLine →
      a.lines withAnnotations = b.lines withAnnotations → R a b)
    (h : as.flatMap (Atom.lines withAnnotations) = bs.flatMap (Atom.lines withAnnotations)) :
    List.Forall₂ R as bs := by
  induction as generalizing bs with
  | nil =>
    cases bs with
    | nil => exact .nil
    | cons b bs => simp [Atom.lines] at h
  | cons a as ih =>
    cases bs with
    | nil => simp [Atom.lines] at h
    | cons b bs =>
      rw [List.forall_mem_cons] at ha hb
      rw [List.flatMap_cons, List.flatMap_cons] at h
      obtain ⟨hfirst, hrest⟩ := List.append_inj h (ha.1.length_lines hb.1 withAnnotations)
      exact .cons (hR a b ha.1 hb.1 hfirst) (ih ha.2 hb.2 hrest)

theorem newline_not_mem_lines (ha : ∀ a ∈ as, a.OnOneLine) :
    ∀ l ∈ as.flatMap (Atom.lines withAnnotations), '\n' ∉ l := by
  intro l hl
  obtain ⟨a, hmem, hl⟩ := List.mem_flatMap.mp hl
  exact (ha a hmem).newline_not_mem withAnnotations l hl

theorem lines_of_listing (ha : ∀ a ∈ as, a.OnOneLine) (hb : ∀ b ∈ bs, b.OnOneLine)
    (h : listing withAnnotations as = listing withAnnotations bs) :
    as.flatMap (Atom.lines withAnnotations) = bs.flatMap (Atom.lines withAnnotations) := by
  rw [← String.toList_inj, toList_listing, toList_listing] at h
  exact unlines_injective (newline_not_mem_lines ha) (newline_not_mem_lines hb) h

variable (files : String → Option ByteArray) {flags : List String}

theorem stdout_respond (h : Flags false withAnnotations flags) {source : String}
    (hread : Atom.readAll source = .ok as) :
    (respond files (flags ++ ["--", source])).stdout = listing withAnnotations as := by
  rw [respond_inline files h, Settings.answerSource, hread]
  rfl

/-- **A listing tells the atoms.** Where no string goes over the end of a line, two texts with the
same listing without annotations have atoms of the same kinds and with the same values, and two with
the same listing with annotations have the same atoms, on the same lines. The listing without
annotations is the other one without the lines that begin with a tab. -/
theorem respond_tells_atoms {plain full : List String} (hplain : Flags false false plain)
    (hfull : Flags false true full) {source : String} {as : List Atom}
    (hread : Atom.readAll source = .ok as) (hline : StringsOnOneLine source) :
    (∀ source' bs, Atom.readAll source' = .ok bs → StringsOnOneLine source' →
      ((respond files (plain ++ ["--", source])).stdout =
          (respond files (plain ++ ["--", source'])).stdout →
        List.Forall₂ (fun a b => a.kind = b.kind ∧ a.value = b.value) as bs) ∧
      ((respond files (full ++ ["--", source])).stdout =
          (respond files (full ++ ["--", source'])).stdout → as = bs)) ∧
    (respond files (plain ++ ["--", source])).stdout.toList =
      withoutTabbed (respond files (full ++ ["--", source])).stdout.toList := by
  have ha := Atom.onOneLine_of_mem_readAll hread hline
  rw [stdout_respond files hplain hread, stdout_respond files hfull hread]
  constructor
  · intro source' bs hread' hline'
    have hb := Atom.onOneLine_of_mem_readAll hread' hline'
    rw [stdout_respond files hplain hread', stdout_respond files hfull hread']
    constructor
    · intro h
      refine forall₂_of_lines ha hb ?_ (lines_of_listing ha hb h)
      intro a b ha hb hlines
      exact ha.value_of_heading hb (List.cons.inj hlines).1
    · intro h
      rw [← List.forall₂_eq_eq_eq]
      exact forall₂_of_lines ha hb (fun _ _ ha hb => ha.eq_of_lines hb) (lines_of_listing ha hb h)
  · exact (withoutTabbed_listing (newline_not_mem_lines ha)).symm

/-- A string may hold a tab, and what stands behind it may look like the line of an annotation. -/
theorem respond_tells_atoms_tabbed_string :
    let shown flags source := (respond (fun _ => none) (flags ++ ["--", source])).stdout
    ∃ as bs, Atom.readAll "\"\tline = 2\" x" = .ok as ∧
      Atom.readAll "\"\tline = 2\"\n(x)" = .ok bs ∧
      List.Forall₂ (fun a b => a.kind = b.kind ∧ a.value = b.value) as bs ∧
      shown ["-p"] "\"\tline = 2\" x" ≠ shown ["-p"] "\"\tline = 2\"\n(x)" ∧
      (shown [] "\"\tline = 2\" x").toList =
        withoutTabbed (shown ["-p"] "\"\tline = 2\" x").toList := by
  intro shown
  have hplain : Flags false false [] := ⟨by decide, by rfl⟩
  have hfull : Flags false true ["-p"] := ⟨by decide, by rfl⟩
  have htokens : tokenize "\"\tline = 2\" x" =
      .ok [(.quotation "\tline = 2", 1), (.bare "x", 1)] := by cbv
  have htokens' : tokenize "\"\tline = 2\"\n(x)" = .ok [(.quotation "\tline = 2", 1),
      (.bare "(", 2), (.bare "x", 2), (.bare ")", 2)] := by cbv
  have hread : Atom.readAll "\"\tline = 2\" x" =
      .ok [.placed (.quotation "\tline = 2") 1, .placed (.bare "x") 1] :=
    (Atom.readAll_eq_ok_iff _ _).mpr ⟨_, htokens, by decide, rfl⟩
  have hread' : Atom.readAll "\"\tline = 2\"\n(x)" =
      .ok [.placed (.quotation "\tline = 2") 1, .placed (.bare "x") 2] :=
    (Atom.readAll_eq_ok_iff _ _).mpr ⟨_, htokens', by decide, rfl⟩
  have hline := stringsOnOneLine_of_tokenize htokens (by decide)
  have hline' := stringsOnOneLine_of_tokenize htokens' (by decide)
  obtain ⟨hsame, htabbed⟩ := respond_tells_atoms (fun _ => none) hplain hfull hread hline
  obtain ⟨hvalues, hatoms⟩ := hsame _ _ hread' hline'
  refine ⟨_, _, hread, hread', hvalues ?_, ?_, htabbed⟩
  · rw [stdout_respond _ hplain hread, stdout_respond _ hplain hread']
    simp [listing, Atom.line, Atom.placed, Atom.kind, Atom.render]
  · intro h
    have hlines : Binary64.ofNat 1 = Binary64.ofNat 2 := by
      simpa [Atom.placed, Atom.ofNumber, Atom.ofValue] using hatoms h
    have hone := Binary64.toRat?_ofNat (n := 1) (by decide)
    rw [hlines, Binary64.toRat?_ofNat (by decide)] at hone
    simp at hone

end AnnotatedAtoms
