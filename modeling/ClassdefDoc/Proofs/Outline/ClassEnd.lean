import ClassdefDoc.Proofs.Outline.Items
import ClassdefDoc.Proofs.Parse.Local
import ClassdefDoc.Proofs.Parse.SharedStart
import ClassdefDoc.Proofs.Scan.Cut

/-!
# The end of the class

What stands behind the `end` that closes the class of a file has no influence on the pseudo-code
of the file. The tokens of the text that is cut off there are those of the class and the end of
the file (`scan_upTo`), reading the class goes the same way (`Read.local_classPart`), and the
two texts correspond at the places of the tokens that are left (`Likeness.shared`).
-/

namespace ClassdefDoc

open Read Likeness

/-! ## The token that closes the class -/

theorem ClassCourse.tokens_eq (k : ClassCourse) : ∃ init, k.tokens = init ++ [k.close] := by
  refine ⟨(.layout k.lead :: .header [k.opening] :: k.inner : List Stretch).flatMap (·.tokens), ?_⟩
  simp [ClassCourse.tokens, ClassCourse.stretches, Stretch.tokens]

/-- Up to where the tokens `rest` follow outside brackets, the scanner passes the tokens before them. -/
theorem exists_chain_before {text : Text} {ts rest : List Token} (h : scan text = .ok (ts ++ rest))
    (hplace : Ahead text [] rest) : ∃ s, Chain Scanner.step (.start text) ts s ∧ s.brackets = [] := by
  obtain ⟨n, past, s, hpast, hbrackets, -, hyields⟩ := hplace
  obtain rfl : ts = past :=
    List.append_cancel_right (Except.ok.inj (h.symm.trans (scan_of_yields hpast hyields)))
  exact ⟨s, hpast, List.map_eq_nil_iff.1 hbrackets⟩

/-! ## The class -/

namespace ClassDecl

variable {limits : Limits} {text : Text} {c : ClassDecl}

/-- The token that closes the class of a file: the one taken last when the class is read. -/
def closing? (limits : Limits) (text : Text) : Option Token := do
  let tokens ← (scan text).toOption
  let (_, r) ← (classPart limits text ⟨tokens, none, []⟩).toOption
  r.last

/-- The course of the class of a file, and what the reader leaves behind it. -/
theorem exists_course_of_parse (h : parse limits text = .ok c) :
    ∃ (k : ClassCourse) (r : Reader), scan text = .ok (k.tokens ++ r.ahead) ∧ k.Gives limits c ∧
      classPart limits text ⟨k.tokens ++ r.ahead, none, []⟩ = .ok (c, r) ∧ r.last = some k.close ∧
      At text [] r ∧ c.members.findSome? c.accessorFault? = none := by
  obtain ⟨tokens, hscan, htokens⟩ := parse_eq_ok_iff.1 h
  obtain ⟨-, ⟨r', hfile⟩, haccessors⟩ := ofTokens_eq_ok_iff.1 htokens
  rw [classFile_eq_classPart] at hfile
  obtain ⟨c', r, hclass, hrest⟩ := bind_eq_ok_iff.1 hfile
  obtain ⟨_, _, -, hpure⟩ := bind_eq_ok_iff.1 hrest
  obtain ⟨rfl, -⟩ := Prod.mk.inj (Except.ok.inj hpure)
  obtain ⟨k, hk, hahead, hlast, hplace⟩ := classPart_course ⟨rfl, ahead_of_scan hscan, rfl⟩ hclass
  obtain rfl : tokens = k.tokens ++ r.ahead := hahead
  exact ⟨k, r, hscan, hk, hclass, hlast, hplace, haccessors⟩

/-- Behind its last token a class file goes on with any token at the end. -/
theorem ofTokens_of_classPart {run : List Token} {r : Reader} {e : Token}
    (hclass : classPart limits text ⟨run ++ r.ahead, none, []⟩ = .ok (c, r)) (hplace : At text [] r)
    (haccessors : c.members.findSome? c.accessorFault? = none) (he : e.kind = .eof) :
    ofTokens limits text (run ++ [e]) = .ok c := by
  have hgoes : GoesOn r.ahead [e] := by
    refine ⟨Ahead.ne_nil hplace, fun t ht => ?_, List.cons_ne_nil _ _⟩
    by_contra hkind
    have hahead : Ahead text [] [t] := ht ▸ hplace
    obtain ⟨stack, n, -, hat, -⟩ := hahead.next hkind
    exact Ahead.ne_nil ⟨n, hat⟩ rfl
  obtain ⟨run', hrun, hsame⟩ := local_classPart hclass
  obtain rfl : run = run' := List.append_cancel_right hrun
  obtain ⟨-, -, hclass'⟩ := hsame [e] hgoes
  have hstop : localFunction? limits text { r with ahead := [e] } = .ok (none, { r with ahead := [e] }) := by
    have hskip : skipLayout false { r with ahead := [e] } = .ok ((), { r with ahead := [e] }) := by
      show Except.ok _ = _
      simp [he, isLayout]
    have hpeek : peek { r with ahead := [e] } = .ok (e, { r with ahead := [e] }) :=
      peek_eq (sees_of_ahead rfl (by rw [he]; rfl))
    rw [localFunction?, bind_eq hskip, bind_eq hpeek, he]
    rfl
  have hfunctions : many (localFunction? limits text) { r with ahead := [e] } =
      .ok ([], { r with ahead := [e] }) := by
    simp only [many, collect, hstop]
  refine ofTokens_eq_ok_iff.2 ⟨by simp [he], ⟨{ r with ahead := [e] }, ?_⟩, haccessors⟩
  rw [classFile_eq_classPart]
  refine bind_eq_ok_iff.2 ⟨c, _, hclass', bind_eq_ok_iff.2 ⟨(), _, map_eq hfunctions, rfl⟩⟩

/-- The class of a file is that of the part up to the token that closes it. -/
theorem parse_upTo_closing (h : parse limits text = .ok c) :
    ∃ (k : ClassCourse) (rest : List Token) (before : Text),
    scan text = .ok (k.tokens ++ rest) ∧ k.Gives limits c ∧ closing? limits text = some k.close ∧
      text.slice? 0 k.close.endOffset = some before ∧ parse limits before = .ok c := by
  obtain ⟨k, r, hscan, hk, hclass, hlast, hplace, haccessors⟩ := exists_course_of_parse h
  obtain ⟨s, hchain, hbrackets⟩ := exists_chain_before hscan hplace
  obtain ⟨init, hinit⟩ := k.tokens_eq
  rw [hinit] at hchain
  obtain ⟨before, after, e, rfl, hoffset, he, hbefore⟩ :=
    scan_upTo hchain hbrackets (isContinuation_of_structural? hk.close)
  rw [← hinit] at hbefore
  have hclosing : closing? limits (before ++ after) = some k.close := by
    simp only [closing?, hscan, Except.toOption, bind, Option.bind_some, hclass]
    exact hlast
  refine ⟨k, r.ahead, before, hscan, hk, hclosing, Text.slice?_zero rfl hoffset, ?_⟩
  -- the tokens that are left are read from the whole text, and the same way from its start
  have hwhole : ofTokens limits (before ++ after) (k.tokens ++ [e]) = .ok c :=
    ofTokens_of_classPart hclass hplace haccessors he
  have hagree : Agree (shared (List.prefix_append before after) List.prefix_rfl).LikeClass
      (ofTokens limits (before ++ after) (k.tokens ++ [e])) (ofTokens limits before (k.tokens ++ [e])) :=
    agree_ofTokens (likeStream_shared (laid_of_scan hbefore) rfl)
  rw [hwhole] at hagree
  refine parse_eq_ok_iff.2 ⟨_, hbefore, ?_⟩
  generalize ofTokens limits before (k.tokens ++ [e]) = result at hagree ⊢
  cases hagree with
  | ok hc => rw [hc.eq_of_shared]

end ClassDecl

/-- Text behind the class has no influence: up to the token that closes its
class, a source has the same pseudo-code with the same warnings. -/
theorem Options.pseudocode_upTo_closing {o : Options} {s : Source}
    {p : Pseudocode} (h : o.pseudocode s = .ok p) :
    ∃ (c : ClassDecl) (k : ClassCourse) (rest : List Token) (before : Text),
      ClassDecl.parse o.limits s.text = .ok c ∧
      scan s.text = .ok (k.tokens ++ rest) ∧ k.Gives o.limits c ∧
      ClassDecl.closing? o.limits s.text = some k.close ∧
      s.text.slice? 0 k.close.endOffset = some before ∧ o.pseudocode { s with text := before } = .ok p := by
  obtain ⟨c, outline, found, hparse, houtline, rfl⟩ := pseudocode_eq_ok_iff.1 h
  obtain ⟨k, rest, before, hscan, hk, hclosing, hslice, hbefore⟩ := ClassDecl.parse_upTo_closing hparse
  exact ⟨c, k, rest, before, hparse, hscan, hk, hclosing, hslice,
    pseudocode_eq_ok_iff.2 ⟨c, outline, found, hbefore, houtline, rfl⟩⟩

/-- A class with a comment on the line of its `end` and a function below. -/
def followedSource : Source where
  path := "A.m"
  text := "classdef A\nproperties (Gone)\nx = 'é' % last\nend\nend % behind\nfunction f\n%\x7b\n%\x7d\nend\n"

theorem Options.pseudocode_upTo_closing_followed :
    ∃ (p : Pseudocode) (c : ClassDecl) (k : ClassCourse) (rest : List Token),
    ({} : Options).pseudocode followedSource = .ok p ∧ ClassDecl.parse {} followedSource.text = .ok c ∧
      scan followedSource.text = .ok (k.tokens ++ rest) ∧ k.Gives {} c ∧
      ClassDecl.closing? {} followedSource.text = some k.close ∧
      followedSource.text.slice? 0 k.close.endOffset =
      some "classdef A\nproperties (Gone)\nx = 'é' % last\nend\nend".toList ∧
      ({} : Options).pseudocode ⟨"A.m", "classdef A\nproperties (Gone)\nx = 'é' % last\nend\nend"⟩ =
      .ok p := by
  have hclose : ∀ close ∈ ClassDecl.closing? {} followedSource.text,
      followedSource.text.slice? 0 close.endOffset =
        some "classdef A\nproperties (Gone)\nx = 'é' % last\nend\nend".toList := by decide +kernel
  obtain ⟨p, hp⟩ := exists_of_isOk (x := ({} : Options).pseudocode followedSource) (by decide +kernel)
  obtain ⟨c, k, rest, before, hparse, hscan, hk, hclosing, hslice, hbefore⟩ :=
    Options.pseudocode_upTo_closing hp
  have hcut := hclose k.close hclosing
  obtain rfl := Option.some.inj (hslice.symm.trans hcut)
  exact ⟨p, c, k, rest, hp, hparse, hscan, hk, hclosing, hcut, hbefore⟩

end ClassdefDoc
