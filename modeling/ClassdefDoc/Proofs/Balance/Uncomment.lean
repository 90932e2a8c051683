import ClassdefDoc.Proofs.Balance.Balanced
import ClassdefDoc.Proofs.Collect
import ClassdefDoc.Proofs.Outline.SourceOrder

/-!
# Macros and the code of the pseudo-code

`codeLines` are the lines of a text that are left when its comments and then its blank lines are taken
out. The pseudo-code is made of items, and behind each of them the reader is back in code at the start of
a line (`settled_of_mem`), so its lines of code are those of its items (`codeLines_render`). A
documentation block leaves no line of code. So replacement texts of macros never get out of the comments:
two tables that lead to the same types lead to the same lines of code (`Options.codeLines_eq_of_macros`).
-/

namespace ClassdefDoc

open List Binding Text DocText
open OutlineItem (render bannerText)

variable {c : ClassDecl} {macros macros' : MacroTable} {rs : List Resolved}

/-! ## Lines -/

namespace Text

/-- The lines that are not blank. -/
def contentLines (t : Text) : List Text := (split '\n' t).filter (!isBlank ·)

@[simp] theorem contentLines_nil : contentLines [] = [] := rfl

/-- What is before the end of a line and what is behind it. -/
theorem contentLines_append {a : Text} (ha : a.getLast? = some '\n') (b : Text) :
    contentLines (a ++ b) = contentLines a ++ contentLines b := by
  obtain ⟨u, rfl⟩ := getLast?_eq_some_iff.1 ha
  have hend : contentLines (u ++ ['\n']) = contentLines u := by
    rw [contentLines, split_append_sep, filter_append]
    exact append_nil _
  rw [hend, contentLines, append_assoc, singleton_append, split_append_sep, filter_append]
  rfl

end Text

namespace Balance

variable {a t : Text}

/-! ## Text without comments -/

/-- The characters that are part of no comment. -/
def uncomment (t : Text) : Text := ((roles t).filter (·.1 != .comment)).map (·.2)

/-- The lines of a text without its comments, blank lines apart. -/
def codeLines (t : Text) : List Text := Text.contentLines (uncomment t)

/-- The text ends with a line, and the reader is back in code there. -/
structure Settled (t : Text) : Prop where
  run : Mode.code.run t = .code
  whole : t.getLast? = some '\n'

theorem uncomment_append (ha : Mode.code.run a = .code) (b : Text) :
    uncomment (a ++ b) = uncomment a ++ uncomment b := by
  rw [uncomment, roles_append ha, filter_append, map_append, uncomment, uncomment]

/-- A line end that leads back to code is code. -/
theorem getLast?_uncomment (h : Settled t) : (uncomment t).getLast? = some '\n' := by
  obtain ⟨u, rfl⟩ := getLast?_eq_some_iff.1 h.whole
  have hnext : (Mode.code.run u).next '\n' = .code := by simpa using h.run
  have htells : ∃ x, (Mode.code.run u).tells '\n' = x ++ [(.code, '\n')] := by
    cases hmode : Mode.code.run u with
    | code => exact ⟨[], rfl⟩
    | slash => exact ⟨[(.code, '/')], rfl⟩
    | lineComment => exact ⟨[], rfl⟩
    | block star =>
      rw [hmode] at hnext
      cases star <;> cases hnext
    | quoted | escaped =>
      rw [hmode] at hnext
      cases hnext
  obtain ⟨x, hx⟩ := htells
  have hroles : roles (u ++ ['\n']) = Mode.code.told u ++ x ++ [(.code, '\n')] := by
    rw [roles, h.run, Mode.told_append, Mode.told_cons, hx]
    simp [Mode.waiting]
  rw [uncomment, hroles, filter_append, map_append]
  exact getLast?_concat

theorem codeLines_append (ha : Settled a) (b : Text) : codeLines (a ++ b) = codeLines a ++ codeLines b := by
  rw [codeLines, uncomment_append ha.run, contentLines_append (getLast?_uncomment ha), codeLines, codeLines]

theorem uncomment_of_comment (h : TakenFor .comment .code .code t) : uncomment t = [] := by
  rw [uncomment, h.roles]
  simp

/-- A documentation block has no line of code. -/
theorem codeLines_block (h : IsBlock t) : codeLines t = [] := by
  rcases h with rfl | ⟨block, rfl, hblock⟩
  · rfl
  · rw [codeLines, Page.line, uncomment_append hblock.run, uncomment_of_comment hblock]
    rfl

/-! ## Items -/

theorem Neutral.run (h : Neutral t) : Mode.code.run t = .code := run_of_read (h [])

theorem OpensBrace.run (h : OpensBrace t) : Mode.code.run t = .code := run_of_read (h [])

variable {text : Text} {l : Layout} {head : ClassHead} {entries : List Entry} {e : Entry}

/-- Behind each item of an outline the reader is back in code. -/
theorem settled_of_mem (hl : PlainLayout l) (hname : Name.isIdentifier head.name)
    (hsuper : ∀ n ∈ head.superclasses, n.IsValid) (he : ∀ e ∈ entries, Sound text e) {line : Nat}
    {free : List CommentBlock} {i : OutlineItem} (hi : i ∈ Outline.ofClass l line head entries free) :
    Settled (i.render l) := by
  refine ⟨?_, i.getLast?_render l⟩
  simp only [Outline.ofClass, mem_append, mem_cons] at hi
  rcases hi with (((hi | hi) | hi) | rfl | hi) | rfl | hi
  · split_ifs at hi
    · obtain rfl := mem_singleton.1 hi
      exact neutral_banner.run
    · cases hi
  · obtain ⟨b, -, rfl⟩ := mem_map.1 hi
    exact (neutral_remark b).run
  · obtain ⟨n, hn, rfl⟩ := mem_map.1 hi
    exact (opensBrace_namespace (hl.namespaces n hn)).run
  · exact (opensBrace_headItem hname hsuper).run
  · rcases mem_members hi with ⟨b, rfl⟩ | ⟨r, rfl⟩ | ⟨e, hmem, rfl⟩
    · exact (neutral_remark b).run
    · exact (neutral_regionItem r).run
    · exact (neutral_entryItem hl (he e hmem)).run
  · rfl
  · obtain ⟨n, -, rfl⟩ := mem_map.1 hi
    rfl

/-- The lines of code of an outline are those of its items. -/
theorem codeLines_render {o : Outline} (h : ∀ i ∈ o, Settled (i.render l)) :
    codeLines (o.render l) = (o.map fun i => codeLines (i.render l)).flatten := by
  induction o with
  | nil => rfl
  | cons i o ih =>
    obtain ⟨hi, ho⟩ := forall_mem_cons.1 h
    rw [Outline.render, flatMap_cons, codeLines_append hi, map_cons, flatten_cons, ← ih ho, Outline.render]

/-! ## Documentation and code -/

theorem codeLines_blank_behind {block : Text} (h : IsBlock block) : codeLines (block ++ Page.blank) = [] := by
  rcases id h with rfl | ⟨inner, hline, -⟩
  · rfl
  · rw [codeLines_append ⟨h.neutral.run, hline ▸ getLast?_line inner⟩, codeLines_block h]
    rfl

/-- The lines of code of a member depend on its documentation through the types only. -/
theorem codeLines_entry (hl : PlainLayout l) (he : Sound text e)
    {d : DocText} (hd : d.SameTypes e.doc) : codeLines (render l (.entry { e with doc := d })) =
      codeLines (render l (.entry e)) := by
  have hlines {e' : Entry} (heq : e'.declaration l = e.declaration l) :
      codeLines (render l (.entry e')) = codeLines (e.declaration l) := by
    obtain ⟨block, hrender, hblock⟩ := e'.exists_block l
    rw [render, hrender, heq]
    simp only [join_cons, join_nil, append_nil, append_assoc]
    rw [codeLines_append ⟨(neutral_declaration hl he).run, e.getLast?_declaration l⟩,
      codeLines_blank_behind hblock, append_nil]
  rw [hlines (Entry.declaration_congr hd), hlines rfl]

/-- The documentation of a class leaves no line of code. -/
theorem codeLines_head (hname : Name.isIdentifier head.name) (hsuper : ∀ n ∈ head.superclasses, n.IsValid)
    (doc : DocText) : codeLines (render l (.head { head with doc := doc })) =
      codeLines (render l (.head head)) := by
  have hcode {h : ClassHead} (hname : Name.isIdentifier h.name) (hsuper : ∀ n ∈ h.superclasses, n.IsValid) :
      codeLines (h.render l) = codeLines h.lines := by
    rw [h.render_eq, codeLines_append ⟨(opensBrace_head hname hsuper).run, getLast?_line _⟩,
      codeLines_block (Balance.isBlock_ofClass hname _ _ _), append_nil]
  rw [render, render, hcode hname hsuper, hcode (h := { head with doc := doc }) hname hsuper]
  rfl

end Balance

/-! ## Macros -/

/-- The documentation of the members gives the same types with either table. -/
def ClassDecl.SameTypes (c : ClassDecl) (macros macros' : MacroTable) : Prop :=
  ∀ n < c.members.length, (ofDocumentation macros ((ofClass c).2.ofMember n)).SameTypes
    (ofDocumentation macros' ((ofClass c).2.ofMember n))

/-- With either table the members have the same entries, up to documentation that gives the same types. -/
theorem ClassDecl.forall₂_entries (h : c.SameTypes macros macros') (hrs : c.blocks.length ≤ rs.length) :
    Forall₂ (fun e e' => ∃ d : DocText, e' = { e with doc := d } ∧ d.SameTypes e.doc)
      (c.entries macros (ofClass c).2 rs) (c.entries macros' (ofClass c).2 rs) := by
  have hlength := congrArg List.length (c.map_member_entries macros (ofClass c).2 hrs)
  rw [length_map, entries, length_map, length_zipIdx] at hlength
  rw [entries, entries, forall₂_map_left_iff, forall₂_map_right_iff, forall₂_same]
  rintro ⟨⟨m, r⟩, n⟩ hmem
  refine ⟨_, rfl, (h n ?_).symm⟩
  rw [← hlength]
  exact snd_lt_of_mem_zipIdx hmem

namespace Balance

/-- The outlines of a class with either table have the same lines of code. -/
theorem codeLines_ofClass {text : Text} {l : Layout} (hl : PlainLayout l) (hc : c.WellFormed text)
    (hmarks : ∀ m ∈ c.members, ∀ b ∈ m.body?, CodeMarkFree b.pieces)
    (h : c.SameTypes macros macros') (hrs : c.blocks.length ≤ rs.length) (notes : List Text) :
    codeLines ((Outline.ofClass l c.header.first (c.head macros notes) (c.entries macros (ofClass c).2 rs)
      (ofClass c).2.free).render l) =
    codeLines ((Outline.ofClass l c.header.first (c.head macros' notes) (c.entries macros' (ofClass c).2 rs)
      (ofClass c).2.free).render l) := by
  have hsound (macros : MacroTable) (e : Entry) (he : e ∈ c.entries macros (ofClass c).2 rs) : Sound text e :=
    sound_of_mem_entries hc hmarks he
  have hsettled (macros : MacroTable) : ∀ i ∈ Outline.ofClass l c.header.first (c.head macros notes)
      (c.entries macros (ofClass c).2 rs) (ofClass c).2.free, Settled (i.render l) := fun i hi =>
    settled_of_mem hl hc.name hc.superclasses (hsound macros) hi
  rw [codeLines_render (hsettled macros), codeLines_render (hsettled macros')]
  refine congrArg List.flatten ?_
  rw [← forall₂_eq_eq_eq, forall₂_map_left_iff, forall₂_map_right_iff]
  refine Outline.forall₂_ofClass (R := fun i i' => codeLines (i.render l) =
    codeLines (i'.render l)) (fun _ => rfl) ?_ ?_
    (forall₂_same.2 fun _ _ => ⟨rfl, rfl⟩)
  · refine ((forall₂_and_left _ _).2 ⟨hsound macros, ClassDecl.forall₂_entries h hrs⟩).imp fun e e' he => ?_
    obtain ⟨hsound, d, rfl, hdoc⟩ := he
    exact ⟨rfl, rfl, (codeLines_entry hl hsound hdoc).symm⟩
  · exact codeLines_head (show Name.isIdentifier (c.head macros' notes).name =
      true from hc.name) hc.superclasses _

end Balance

/-- Replacement texts of macros stay in the comments: two tables with which the members have
the same types lead to the same error, or to pseudo-code with the same lines of code. -/
theorem Options.codeLines_eq_of_macros {o : Options} {s : Source}
    {macros macros' : MacroTable} (hcheck : o.check = .ok ())
    (htype : Balance.Plain o.layout.placeholders.typeToken)
    (hreturn : Balance.Plain o.layout.placeholders.noReturn)
    (hmarks : ∀ c, s.parse o.limits = .ok c → ∀ m ∈ c.members, ∀ b ∈ m.body?, Balance.CodeMarkFree b.pieces)
    (hsame : ∀ c, s.parse o.limits = .ok c → c.SameTypes macros macros') :
    (∃ e, { o with macros := macros }.pseudocode s = .error e ∧
      { o with macros := macros' }.pseudocode s = .error e) ∨
    (∃ p p', { o with macros := macros }.pseudocode s = .ok p ∧
    { o with macros := macros' }.pseudocode s = .ok p' ∧
      Balance.codeLines p.text = Balance.codeLines p'.text) := by
  rw [pseudocode_eq, pseudocode_eq]
  cases hparse : ClassDecl.parse o.limits s.text with
  | error f => exact .inl ⟨_, rfl, rfl⟩
  | ok c =>
    have hsource : s.parse o.limits = .ok c := by rw [Source.parse, hparse]; rfl
    cases hresolve : c.resolve with
    | error f =>
      have hfails (l : Layout) (macros : MacroTable) : c.outline l macros = .error f := by
        rw [ClassDecl.outline, hresolve]
        rfl
      simp only [Except.mapError, bind, Except.bind, hfails]
      exact .inl ⟨_, rfl, rfl⟩
    | ok r =>
      obtain ⟨found, notes, rs⟩ := r
      have hlength : c.blocks.length ≤ rs.length := (ClassDecl.blocks_of_resolve hresolve).length_eq.le
      have hcode := Balance.codeLines_ofClass (Balance.plainLayout_of_check hcheck htype hreturn s.path)
        (ClassDecl.wellFormed_of_parse hparse) (hmarks c hsource) (hsame c hsource) hlength notes
      have houtline (l : Layout) (macros : MacroTable) : c.outline l macros = _ :=
        ClassDecl.outline_eq_ok_iff.2 ⟨found, notes, rs, hresolve, rfl, rfl⟩
      simp only [Except.mapError, bind, Except.bind, houtline]
      exact .inr ⟨_, _, rfl, rfl, hcode⟩

/-- A class whose documentation refers to a macro. -/
def macroSource : Source where
  path := "A.m"
  text :=
    "classdef A\n% $\x7bm\x7d\nproperties\nx = 1; % $\x7bm\x7d @type a.b\nend\nmethods\nfunction f(self, y)\n% $\x7bm\x7d\n" ++
    "z = [y];\nend\nend\nend\n"

/-- A replacement text that would end its comment and go on with code, and one that leaves nothing. -/
def breakout : MacroTable := ⟨[("m", "*/ evil(\x7b \" // \nParameters: /*")]⟩

def vanishing : MacroTable := ⟨[("m", "")]⟩

theorem Options.codeLines_eq_of_macros_breakout : ∃ p p',
    ({ macros := breakout } : Options).pseudocode macroSource = .ok p ∧
    ({ macros := vanishing } : Options).pseudocode macroSource = .ok p' ∧ p.text ≠ p'.text ∧
    Balance.codeLines p.text = Balance.codeLines p'.text := by
  have hclass : ∀ c, macroSource.parse {} = .ok c →
      (∀ m ∈ c.members, ∀ b ∈ m.body?, Balance.CodeMarkFree b.pieces) ∧ ∀ n < c.members.length,
        (ofDocumentation breakout ((ofClass c).2.ofMember n)).types =
          (ofDocumentation vanishing ((ofClass c).2.ofMember n)).types ∧
        (ofDocumentation breakout ((ofClass c).2.ofMember n)).declaredType =
          (ofDocumentation vanishing ((ofClass c).2.ofMember n)).declaredType := by decide +kernel
  have hsame (c : ClassDecl) (hc : macroSource.parse {} = .ok c) : c.SameTypes breakout vanishing :=
    fun n hn =>
    ⟨fun name => by rw [((hclass c hc).2 n hn).1], ((hclass c hc).2 n hn).2⟩
  obtain ⟨q, hq, q', hq', hdiffer⟩ : ∃ p, ({ macros := breakout } : Options).pseudocode macroSource = .ok p ∧
      ∃ p', ({ macros := vanishing } : Options).pseudocode macroSource = .ok p' ∧ p.text ≠ p'.text := by
    decide +kernel
  rcases Options.codeLines_eq_of_macros (o := {}) rfl (by decide) (by decide) (fun c hc =>
    (hclass c hc).1) hsame with
    ⟨e, he, -⟩ | ⟨p, p', hp, hp', hcode⟩
  · cases hq.symm.trans he
  · cases hq.symm.trans hp
    cases hq'.symm.trans hp'
    exact ⟨q, q', hq, hq', hdiffer, hcode⟩

end ClassdefDoc
