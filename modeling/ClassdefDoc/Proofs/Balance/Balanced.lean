import ClassdefDoc.Proofs.Balance.Body
import ClassdefDoc.Proofs.Outline.Page

/-!
# The pseudo-code is balanced

Every item of an outline is neutral, except for the class and its namespaces, which open a brace that an item
at the end closes. So the pseudo-code of a source is balanced (`balanced_pseudocode`), if the code in its
method bodies has no comment marks of its own and the placeholders are plain.
-/

namespace ClassdefDoc.Balance

open List Text Name Outline Entry Member DottedName

variable {t a b : Text} {o : Options} {c : ClassDecl}

variable {entries : List Entry} {m : Method} {macros : MacroTable}
  {type : Option DottedName} {value : Option Text}

/-! ## Members -/

/-- What a layout must be, so that the pseudo-code stays balanced. -/
structure PlainLayout (l : Layout) : Prop where
  placeholders : PlainPlaceholders l.placeholders
  label : '\n' ∉ l.guardLabel
  namespaces : ∀ n ∈ l.namespaces, Plain n

/-- What makes the pseudo-code of a member neutral. -/
structure Sound (text : Text) (e : Entry) : Prop where
  member : e.member.WellFormed text
  doc : e.doc.Typed
  marks : ∀ b ∈ e.member.body?, CodeMarkFree b.pieces

variable {text : Text} {l : Layout} {e : Entry}

theorem plain_name (h : e.member.WellFormed text) : Plain e.member.name := by
  obtain ⟨n, hn, hname⟩ := h.name
  rw [hname]
  exact plain_of_isSpelled (isSpelled_dotted hn)

theorem neutral_value (e : Entry) (value : Option Text) :
    Neutral (match e.value? value with
      | some v => join [" = ", v]
      | none => []) := by
  split
  · rename_i v hv
    obtain ⟨w, -, rfl⟩ := Option.map_eq_some_iff.1 hv
    exact .cons (Plain.neutral (by decide)) (.cons (neutral_default w) .nil)
  · exact .nil

theorem getLast?_line (t : Text) : (Page.line t).getLast? = some '\n' := getLast?_concat

section

variable (hl : PlainLayout l) (he : Sound text e)
include hl he

theorem neutral_property (hdetail : e.member.detail = .property type value) : Neutral (e.declaration l) := by
  have hmember := he.member.detail
  rw [hdetail] at hmember
  rw [declaration, hdetail]
  refine neutral_line <| .cons (Plain.neutral (by decide)) <| .cons (Plain.neutral ?_) <|
    .cons (plain_declaredType hl.placeholders hmember he.doc.declaredType).neutral <|
    .cons (Plain.neutral (by decide)) <| .cons (plain_name he.member).neutral <|
    .cons (neutral_value e value) <|
    .cons (Plain.neutral (by decide)) .nil
  split_ifs
  · decide
  · exact .nil

theorem neutral_event (hdetail : e.member.detail = .event) : Neutral (e.declaration l) := by
  rw [declaration, hdetail]
  exact neutral_line <| .cons (Plain.neutral (by decide)) <| .cons hl.placeholders.eventType.neutral <|
    .cons (Plain.neutral (by decide)) <| .cons (plain_name he.member).neutral <|
    .cons (Plain.neutral (by decide)) .nil

theorem neutral_signature (hm : m.WellFormed text) : Neutral (e.signature l.placeholders m) := by
  have hparams : ∀ p ∈ e.params m, Plain p := by
    intro p hmem
    have hmem : p ∈ m.params := by
      unfold params at hmem
      split_ifs at hmem
      · exact hmem
      · exact mem_of_mem_drop hmem
    rcases hm.params p hmem with h | rfl
    · exact plain_of_isIdentifier h
    · decide
  have hreturns : Plain (if e.isConstructor then []
      else join [l.placeholders.returns m.returns e.doc.types, " "]) := by
    split_ifs
    · exact .nil
    · exact .cons (plain_returns hl.placeholders he.doc.types fun n hn =>
        plain_of_isIdentifier (hm.returns n hn)) <|
        .cons (by decide) .nil
  have hlist := neutral_enclosed .paren "(" ")" (fun _ => rfl)
    (fun _ => rfl) (plain_params hl.placeholders he.doc.types hparams).neutral
  exact .cons hreturns.neutral <| .cons (plain_name he.member).neutral hlist

end

/-- A guard is a line comment up to its line end. -/
theorem neutral_guard (hlabel : '\n' ∉ l.guardLabel) (hname : '\n' ∉ e.member.sourceName) :
    Neutral (e.guard l.guardLabel) := by
  intro stack
  have hmark : read ⟨.code, stack⟩ "#if 0 // ".toList = some ⟨.lineComment, stack⟩ := rfl
  have hcomment : '\n' ∉ l.guardLabel ++ (": '".toList ++ (e.member.sourceName ++ "'".toList)) := by
    simp [hlabel, hname]
  simp only [Entry.guard, Page.line, join_cons, join_nil, append_nil]
  rw [append_assoc, read_append_of hmark, read_append_of (read_lineComment hcomment stack)]
  rfl

theorem newline_notMem_of_isSpelled (h : IsSpelled t) : '\n' ∉ t := fun hc => by
  rcases h _ hc with h | h <;> revert h <;> decide

theorem newline_notMem_sourceName (h : e.member.WellFormed text) : '\n' ∉ e.member.sourceName := by
  unfold sourceName
  split
  · rename_i a ha
    have hproperty : isIdentifier a.property := by
      have hdetail := h.detail
      unfold accessor? method? at ha
      split at ha
      · rename_i m hm
        rw [hm] at hdetail
        exact hdetail.accessor a ha
      · cases ha
    have hword : '\n' ∉ a.kind.word := by cases a.kind <;> decide
    have := newline_notMem_of_isSpelled (isSpelled_of_isIdentifier hproperty)
    simp [hword, this]
  · obtain ⟨n, hn, hname⟩ := h.name
    rw [hname]
    exact newline_notMem_of_isSpelled (isSpelled_dotted hn)

theorem neutral_opening (hl : PlainLayout l) (he : Sound text e) (hm : m.WellFormed text) :
    Neutral (e.opening l m) := by
  have hsignature := neutral_signature hl he hm
  unfold opening
  split
  · exact (neutral_guard hl.label (newline_notMem_sourceName he.member)).append hsignature
  · refine .cons (Plain.neutral (by decide)) <| .cons (Plain.neutral ?_) <| .cons hsignature .nil
    split_ifs <;> decide

theorem neutral_ending (hm : m.WellFormed text) (hmarks : ∀ b ∈ m.body, CodeMarkFree b.pieces) :
    Neutral m.ending := by
  unfold Method.ending
  split_ifs
  · exact Plain.neutral (by decide)
  · split
    · rename_i b hb
      intro stack
      have hbrace : read ⟨.code, stack⟩ " \x7b".toList = some ⟨.code, .brace :: stack⟩ := rfl
      obtain ⟨mode, hread, hmode⟩ := read_body (hm.body b hb) (hmarks b hb) (.brace :: stack)
      simp only [join_cons, join_nil, append_nil]
      rw [read_append_of hbrace, read_append_of hread]
      rcases hmode with rfl | rfl <;> rfl
    · exact Plain.neutral (by decide)

theorem plain_closing (m : Method) : Plain m.closing := by
  unfold Method.closing
  split_ifs <;> decide

theorem method_wellFormed (he : Sound text e) (hdetail : e.member.detail = .method m) :
    m.WellFormed text := by
  have hmember := he.member.detail
  rwa [hdetail] at hmember

theorem neutral_declaration (hl : PlainLayout l) (he : Sound text e) : Neutral (e.declaration l) := by
  cases hdetail : e.member.detail with
  | property => exact neutral_property hl he hdetail
  | event => exact neutral_event hl he hdetail
  | method m =>
    have hm := method_wellFormed he hdetail
    have hmarks : ∀ b ∈ m.body, CodeMarkFree b.pieces := fun b hb =>
      he.marks b (by simpa [body?, method?, hdetail] using hb)
    rw [← methodLines_eq_declaration hdetail, methodLines_eq]
    exact .cons (neutral_opening hl he hm) <| .cons (neutral_ending hm hmarks) <|
      .cons (plain_closing m).neutral .nil

theorem neutral_entry (hl : PlainLayout l) (he : Sound text e) : Neutral (e.render l) := by
  obtain ⟨block, hrender, hblock⟩ := e.exists_block l
  rw [hrender]
  exact (neutral_declaration hl he).append hblock.neutral

/-! ## Outlines -/

theorem neutral_region (r : Region) : Neutral r.text := by
  have haccess : Plain r.access.word := by cases r.access <;> decide
  refine .cons haccess.neutral <| .cons (Plain.neutral (by decide)) <| .cons ?_ .nil
  split_ifs
  · exact .nil
  · intro stack
    have hopen : read ⟨.code, stack⟩ " /* ( ".toList = some ⟨.block false, stack⟩ := rfl
    have hstar : '*' ∉ joinWith ", " (r.modifiers.map (·.word)) := by
      intro h
      rcases mem_joinWith h with h | ⟨t, ht, h⟩
      · revert h
        decide
      · obtain ⟨m, -, rfl⟩ := mem_map.1 ht
        revert h
        cases m <;> decide
    simp only [join_cons, join_nil, append_nil]
    rw [read_append_of hopen, read_append_of ((buried_of_noStar hstar).comment.read (by decide) stack)]
    rfl

theorem neutral_banner : Neutral OutlineItem.bannerText := by
  have hbanner : OutlineItem.bannerText = Comment.ofLines [" (Autoinserted by mdoxy)",
      " * This file was generated from a class definition file for the documentation generator.",
      " * It can neither be run nor compiled. Method bodies are kept for the source browser,",
      " * with comments and literals rewritten.", ""] ++ "\n\n".toList := by decide +kernel
  rw [hbanner]
  exact (neutral_comment _).append (Plain.neutral (by decide))

/-- What stands between the head of a class and its end. -/
theorem mem_members {region : Option Region} {free : List CommentBlock}
    {item : OutlineItem} (h : item ∈ members region free entries) :
    (∃ b, item = .remark b) ∨ (∃ r, item = .region r) ∨ ∃ e ∈ entries, item = .entry e := by
  induction entries generalizing region free with
  | nil =>
    obtain ⟨b, -, rfl⟩ := mem_map.1 h
    exact .inl ⟨b, rfl⟩
  | cons e entries ih =>
    simp only [members, mem_append, mem_cons] at h
    rcases h with (h | h) | rfl | h
    · obtain ⟨b, -, rfl⟩ := mem_map.1 h
      exact .inl ⟨b, rfl⟩
    · split_ifs at h
      · cases h
      · exact .inr (.inl ⟨_, mem_singleton.1 h⟩)
    · exact .inr (.inr ⟨e, mem_cons_self, rfl⟩)
    · rcases ih h with h | h | ⟨e, he, rfl⟩
      · exact .inl h
      · exact .inr (.inl h)
      · exact .inr (.inr ⟨e, mem_cons_of_mem _ he, rfl⟩)

theorem neutral_remark (b : CommentBlock) : Neutral (OutlineItem.render l (.remark b)) :=
  neutral_line (.cons (Plain.neutral (by decide)) (.cons (neutral_comment _) .nil))

theorem neutral_regionItem (r : Region) : Neutral (OutlineItem.render l (.region r)) :=
  .cons (Plain.neutral (by decide)) <| .cons (neutral_line (.cons (Plain.neutral (by decide))
    (.cons (neutral_region r) .nil))) <| .cons (Plain.neutral (by decide)) .nil

theorem neutral_entryItem (hl : PlainLayout l) (he : Sound text e) :
    Neutral (OutlineItem.render l (.entry e)) :=
  .cons (neutral_entry hl he) <| .cons (Plain.neutral (by decide)) .nil

theorem neutral_members (hl : PlainLayout l) (he : ∀ e ∈ entries, Sound text e) (region : Option Region)
    (free : List CommentBlock) : Neutral ((members region free entries).render l) := by
  refine .flatMap fun item hitem => ?_
  rcases mem_members hitem with ⟨b, rfl⟩ | ⟨r, rfl⟩ | ⟨e, hmem, rfl⟩
  · exact neutral_remark b
  · exact neutral_regionItem r
  · exact neutral_entryItem hl (he e hmem)

/-- Text behind which one more brace is open. -/
def OpensBrace (t : Text) : Prop := ∀ stack, read ⟨.code, stack⟩ t = some ⟨.code, .brace :: stack⟩

theorem opensBrace_line (h : Plain t) : OpensBrace (Page.line (t ++ " \x7b".toList)) := fun stack => by
  rw [Page.line, append_assoc, read_append_of (h.neutral stack)]
  rfl

theorem OpensBrace.append (ha : OpensBrace a) (hb : Neutral b) : OpensBrace (a ++ b) :=
  fun stack => by rw [read_append_of (ha stack), hb]

section

variable {h : ClassHead} (hname : isIdentifier h.name) (hsuper : ∀ n ∈ h.superclasses, n.IsValid)
include hname hsuper

theorem opensBrace_head : OpensBrace h.lines := by
  have hbases : Plain (if h.superclasses.isEmpty then []
      else join ["\n  :public ", joinWith ",\n   public " (h.superclasses.map (·.qualified))]) := by
    split_ifs
    · exact .nil
    · refine .cons (by decide) (.cons (.joinWith (by decide) fun t ht => ?_) .nil)
      obtain ⟨n, hn, rfl⟩ := mem_map.1 ht
      exact plain_qualify (isSpelled_dotted (hsuper n hn))
  have hline := opensBrace_line <|
    (Plain.append (a := "class ".toList) (by decide) (plain_of_isIdentifier hname)).append hbases
  simpa [ClassHead.lines] using hline

theorem opensBrace_headItem : OpensBrace (OutlineItem.render l (.head h)) := by
  rw [OutlineItem.render, h.render_eq]
  exact (opensBrace_head hname hsuper).append (isBlock_ofClass hname l.group h.doc h.notes).neutral

end

theorem opensBrace_namespace {n : Text} (hn : Plain n) :
    OpensBrace (OutlineItem.render l (.openNamespace n)) := by
  have hline := opensBrace_line (Plain.append (a := "namespace ".toList) (by decide) hn)
  simpa [OutlineItem.render] using hline

/-- Namespaces open one brace each. -/
theorem read_openNamespaces {names : List Text} (h : ∀ n ∈ names, Plain n) (stack : List Bracket) :
    read ⟨.code, stack⟩ (Outline.render l (names.map .openNamespace)) =
      some ⟨.code, List.replicate names.length .brace ++ stack⟩ := by
  induction names generalizing stack with
  | nil => rfl
  | cons n names ih =>
    obtain ⟨hn, hnames⟩ := forall_mem_cons.1 h
    rw [map_cons, Outline.render, flatMap_cons, read_append_of (opensBrace_namespace hn stack)]
    refine (ih hnames _).trans ?_
    rw [length_cons, replicate_succ', append_assoc]
    rfl

/-- The ends of namespaces close one brace each. -/
theorem read_closeNamespaces (names : List Text) (stack : List Bracket) :
    read ⟨.code, List.replicate names.length .brace ++ stack⟩
      (Outline.render l (names.map fun _ => .closeNamespace)) = some ⟨.code, stack⟩ := by
  induction names with
  | nil => rfl
  | cons n names ih => exact ih

theorem read_ofClass (hl : PlainLayout l) {head : ClassHead} (hname : isIdentifier head.name)
    (hsuper : ∀ n ∈ head.superclasses, n.IsValid) (he : ∀ e ∈ entries, Sound text e)
    (line : Nat) (free : List CommentBlock) :
    read {} ((ofClass l line head entries free).render l) = some {} := by
  have hbanner : Neutral (Outline.render l (if l.banner then [.banner] else [])) := by
    split_ifs
    · simpa [Outline.render, OutlineItem.render] using neutral_banner
    · exact .nil
  have hremarks : Neutral (Outline.render l (remarksAbove line free)) := by
    refine .flatMap fun item hitem => ?_
    obtain ⟨b, -, rfl⟩ := mem_map.1 hitem
    exact neutral_remark b
  have hopen := (hbanner.append hremarks) []
  have hhead : OpensBrace (OutlineItem.render l (.head head)) := opensBrace_headItem hname hsuper
  have happend (a b : Outline) : Outline.render l (a ++ b) = Outline.render l a ++ Outline.render l b :=
    flatMap_append
  have hcons (i : OutlineItem) (a : Outline) : Outline.render l (i :: a) = i.render l ++ Outline.render l a :=
    flatMap_cons
  have hclose (stack : List Bracket) :
      read ⟨.code, .brace :: stack⟩ (OutlineItem.render l .closeClass) = some ⟨.code, stack⟩ := rfl
  simp only [ofClass, happend, hcons, append_assoc]
  rw [← append_assoc, read_append_of hopen, read_append_of (read_openNamespaces hl.namespaces []),
    read_append_of (hhead _), read_append_of (neutral_members hl he _ _ _),
    read_append_of (hclose _)]
  exact read_closeNamespaces l.namespaces []

/-! ## Sources -/

theorem ok_of_forIn {ok : Text → Bool} {e : Text → Text → LayoutError}
    {fields : List (Text × Text)} {u : PUnit} (h : (forIn fields PUnit.unit fun x _ =>
      match x with
      | (field, value) =>
        if (!ok value) = true then do
          throw (e field value)
          pure (ForInStep.yield PUnit.unit)
        else pure (ForInStep.yield PUnit.unit) : Except LayoutError PUnit) =
        .ok u) : ∀ x ∈ fields, ok x.2 := by
  induction fields with
  | nil => simp
  | cons x fields ih =>
    rw [forIn_cons] at h
    by_cases hx : ok x.2
    · simp only [hx, Bool.not_true, Bool.false_eq_true, ↓reduceIte] at h
      exact forall_mem_cons.2 ⟨hx, ih h⟩
    · simp only [hx, Bool.not_false, ↓reduceIte] at h
      cases h

theorem identifiers_of_check {p : Placeholders} (h : p.check = .ok ()) :
    isIdentifier p.singleReturn ∧ isIdentifier p.multiReturn ∧
      isIdentifier p.eventType := by
  unfold Placeholders.check at h
  obtain ⟨_, hnames, -⟩ := of_bind_eq_ok h
  simpa using ok_of_forIn hnames

theorem layout_of_check (h : l.check = .ok ()) :
    (∀ n ∈ l.namespaces, isIdentifier n) ∧ '\n' ∉ l.guardLabel ∧ l.placeholders.check = .ok () := by
  simp only [Layout.check] at h
  cases hfind : l.namespaces.find? (!Name.isIdentifier ·) with
  | some name =>
    simp only [hfind] at h
    split at h
    · split_ifs at h <;> cases h
    · cases h
  | none =>
    simp only [hfind] at h
    by_cases hlabel : l.guardLabel.contains '\n'
    · simp only [hlabel, if_true] at h
      split at h
      · split_ifs at h <;> cases h
      · cases h
    · simp only [hlabel, Bool.false_eq_true, if_false] at h
      refine ⟨by simpa using hfind, by simpa using hlabel, ?_⟩
      split at h
      · split_ifs at h
        · cases h
        · exact h
      · exact h

theorem plain_namespaceOf (package : Text) : Plain (namespaceOf package) := by
  have hname : Plain (package.map fun c => if isContinue c then c else '_') := by
    intro c hc
    obtain ⟨d, -, rfl⟩ := mem_map.1 hc
    split_ifs with hd
    · exact isPlain_of_isContinue hd
    · decide
  unfold namespaceOf
  simp only
  split_ifs
  · exact hname
  · exact .cons (by decide) (.cons hname .nil)

/-- The layout of a source, of which only the namespaces depend on its path. -/
theorem layoutFor_spec (hcheck : o.check = .ok ()) (path : Text) :
    (∀ n ∈ (o.layoutFor path).1.namespaces, Plain n) ∧
      (o.layoutFor path).1.guardLabel = o.layout.guardLabel ∧
      (o.layoutFor path).1.placeholders = o.layout.placeholders := by
  obtain ⟨hnames, -, -⟩ := layout_of_check hcheck
  unfold Options.layoutFor
  split_ifs
  · refine ⟨fun n hn => ?_, rfl, rfl⟩
    obtain ⟨package, -, rfl⟩ := mem_map.1 hn
    exact plain_namespaceOf package
  · exact ⟨fun n hn => plain_of_isIdentifier (hnames n hn), rfl, rfl⟩

theorem plainLayout_of_check (hcheck : o.check = .ok ()) (htype : Plain o.layout.placeholders.typeToken)
    (hreturn : Plain o.layout.placeholders.noReturn) (path : Text) : PlainLayout (o.layoutFor path).1 := by
  obtain ⟨-, hlabel, hplaceholders⟩ := layout_of_check hcheck
  obtain ⟨hsingle, hmulti, hevent⟩ := identifiers_of_check hplaceholders
  obtain ⟨hspaces, hguard, hholders⟩ := layoutFor_spec hcheck path
  refine ⟨?_, hguard ▸ hlabel, hspaces⟩
  rw [hholders]
  exact ⟨htype, hreturn, plain_of_isIdentifier hsingle, plain_of_isIdentifier hmulti,
    plain_of_isIdentifier hevent⟩

theorem sound_of_mem_entries (hc : c.WellFormed text)
    (hmarks : ∀ m ∈ c.members, ∀ b ∈ m.body?, CodeMarkFree b.pieces)
    {binding : Binding} {resolved : List Resolved} (he : e ∈ c.entries macros binding resolved) :
    Sound text e := by
  obtain ⟨⟨⟨m, r⟩, n⟩, hmem, rfl⟩ := mem_map.1 he
  have hm : m ∈ c.members := by
    obtain ⟨⟨b, r'⟩, hb, hm⟩ := mem_flatMap.1 (fst_mem_of_mem_zipIdx hmem)
    obtain ⟨m', hm', heq⟩ := mem_map.1 hm
    cases heq
    exact mem_flatMap.2 ⟨b, (of_mem_zip hb).1, hm'⟩
  exact ⟨hc.members m hm, DocText.typed_ofDocumentation _ _, hmarks m hm⟩

/-- The pseudo-code of a source is balanced, whatever its comments, documentation, values and literals are. -/
theorem balanced_pseudocode {o : Options} {s : Source} {p : Pseudocode} (hcheck : o.check = .ok ())
    (htype : Plain o.layout.placeholders.typeToken) (hreturn : Plain o.layout.placeholders.noReturn)
    (hmarks : ∀ c, s.parse o.limits = .ok c → ∀ m ∈ c.members, ∀ b ∈ m.body?, CodeMarkFree b.pieces)
    (h : o.pseudocode s = .ok p) : balanced p.text = true := by
  obtain ⟨c, outline, found, hparse, houtline, rfl⟩ := Options.pseudocode_eq_ok_iff.1 h
  obtain ⟨resolving, notes, resolved, -, rfl, -⟩ := ClassDecl.outline_eq_ok_iff.1 houtline
  have hwell := ClassDecl.wellFormed_of_parse hparse
  have hsource : s.parse o.limits = .ok c := by rw [Source.parse, hparse]; rfl
  have hsound : ∀ e ∈ c.entries o.macros (Binding.ofClass c).2 resolved, Sound s.text e := fun e he =>
    sound_of_mem_entries hwell (hmarks c hsource) he
  have hname : isIdentifier (c.head o.macros notes).name = true := hwell.name
  rw [balanced,
    read_ofClass (plainLayout_of_check hcheck htype hreturn s.path) hname hwell.superclasses hsound]
  rfl

/-- A class whose comments, literals and values hold unmatched brackets, and whose code meets a comment with
a slash. -/
def slashSource : Source where
  path := "+geo/Grid.m"
  text := "classdef Grid < base.Set\nproperties\nsize = \x7b'\x7d', \"(\"\x7d; % a */ [\nend\nmethods\n" ++
    "function r = get.size(self)\nr = [self.n ./% half\n2]'; %\x7d\nend\n" ++
    "function [a, b] = cut(self, ~)\n%\x7b\n]\n%\x7d\na = \x7b'(', ... )\n1\x7d; b = \"*/\";\nend\nend\nend\n"

theorem balanced_slash_before_comment :
    ∃ p, ({} : Options).pseudocode slashSource = .ok p ∧ balanced p.text = true := by
  have hmarks : ∀ c, slashSource.parse {} = .ok c →
      ∀ m ∈ c.members, ∀ b ∈ m.body?, CodeMarkFree b.pieces := by decide +kernel
  obtain ⟨p, hp⟩ := exists_of_isOk (x := ({} : Options).pseudocode slashSource) (by decide +kernel)
  exact ⟨p, hp, balanced_pseudocode (o := {}) rfl (by decide) (by decide) hmarks hp⟩

end ClassdefDoc.Balance
