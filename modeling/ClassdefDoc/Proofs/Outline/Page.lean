import ClassdefDoc.Proofs.Balance.Parts
import ClassdefDoc.Proofs.Outline.Items

/-!
# The pieces of a page

A page of pseudo-code is written item by item. `OutlineItem.WrittenAs` says what stands
on the page for an item: a free comment, the marker of a region, the lines that open a
class or declare a member, with at most one documentation block behind them. So a page
is made up of pieces, one for each item of its outline (`Outline.exists_pieces`).
-/

namespace ClassdefDoc

open List Text Page Balance

variable {l : Layout} {e : Entry} {h : ClassHead}

/-! ## Members -/

/-- The line above an accessor. -/
def Member.guardLine (m : Member) (label : Text) : Text := join ["#if 0 // ", label, ": '", m.sourceName, "'"]

/-- The lines that declare a member. -/
def Entry.declaration (l : Layout) (e : Entry) : Text :=
  match e.member.detail with
  | .property type value =>
    line (join ["    ", if e.isConstant then "static const " else [],
      l.placeholders.declaredType type e.doc.declaredType, " ", e.member.name,
      match e.value? value with
      | some v => join [" = ", v]
      | none => [],
      ";"])
  | .method m =>
    join [match m.accessor with
      | some _ => line (e.member.guardLine l.guardLabel)
      | none => join ["    ",
      if e.attributes.has .static then "static " else if m.isAbstract then "virtual " else []],
      if e.isConstructor then [] else join [l.placeholders.returns m.returns e.doc.types, " "],
      e.member.name, "(", l.placeholders.params (e.params m) e.doc.types, ")", m.ending, m.closing]
  | .event => line (join ["    ", l.placeholders.eventType, " ", e.member.name, ";"])

theorem Entry.methodLines_eq_declaration {m : Method} (hm : e.member.detail = .method m) :
    e.methodLines l m = e.declaration l := by
  simp only [methodLines_eq, declaration, hm, opening, signature, Entry.guard, Member.guardLine]
  cases m.accessor <;> simp only [join_cons, join_nil, append_assoc, append_nil]

/-- A declaration depends on the documentation through the types only. -/
theorem Entry.declaration_congr {d : DocText} (hd : d.SameTypes e.doc) :
    ({ e with doc := d } : Entry).declaration l = e.declaration l := by
  cases hdetail : e.member.detail with
  | property =>
    simp only [declaration, hdetail, hd.declaredType]
    rfl
  | event => simp only [declaration, hdetail]
  | method m =>
    calc ({ e with doc := d } : Entry).declaration l
        = ({ e with doc := d } : Entry).methodLines l m :=
          (methodLines_eq_declaration (by exact hdetail)).symm
      _ = e.methodLines l m := by simp only [methodLines, signature_congr hd, Entry.guard]
      _ = e.declaration l := methodLines_eq_declaration hdetail

/-- A declaration ends with its line. -/
theorem Entry.getLast?_declaration (l : Layout) (e : Entry) : (e.declaration l).getLast? = some '\n' := by
  cases hdetail : e.member.detail with
  | property | event =>
    rw [declaration, hdetail]
    exact getLast?_concat
  | method m =>
    have hclosing : m.closing.getLast? = some '\n' := by
      unfold Method.closing
      split_ifs <;> rfl
    rw [← methodLines_eq_declaration hdetail, methodLines_eq]
    simp only [join_cons, join_nil, append_nil, getLast?_append, hclosing, Option.some_or]

/-- A member is written with its declaration and at most one documentation block. -/
theorem Entry.exists_block (l : Layout) (e : Entry) :
    ∃ block, e.render l = e.declaration l ++ block ∧ IsBlock block := by
  cases hdetail : e.member.detail with
  | method m =>
    rw [← methodLines_eq_declaration hdetail, render, hdetail]
    exact ⟨_, rfl, isBlock_ofMember _ _ _ _⟩
  | property | event =>
    rw [render, declaration, hdetail]
    exact ⟨_, rfl, isBlock_ofMember _ _ _ _⟩

/-! ## The class -/

/-- The lines that open a class. -/
def ClassHead.lines (h : ClassHead) : Text :=
  line (join ["class ", h.name,
    if h.superclasses.isEmpty then []
    else join ["\n  :public ", joinWith ",\n   public " (h.superclasses.map (·.qualified))], " \x7b"])

theorem Text.joinWith_map_append (sep lead t : Text) (ts : List Text) :
    joinWith sep (t :: ts.map (lead ++ ·)) = joinWith (sep ++ lead) (t :: ts) := by
  induction ts generalizing t with
  | nil => simp
  | cons u ts ih =>
    have hlead (t : Text) (ts : List Text) : joinWith sep ((lead ++ t) :: ts) =
        lead ++ joinWith sep (t :: ts) := by
      cases ts <;> simp
    rw [map_cons, joinWith_cons_cons, hlead, ih, joinWith_cons_cons]
    simp only [append_assoc]

theorem ClassHead.render_eq (l : Layout) (h : ClassHead) :
    h.render l = h.lines ++ DocBlock.ofClass h.name l.group h.doc h.notes := by
  rw [render, lines]
  cases h.superclasses with
  | nil => rfl
  | cons first rest =>
    have hbases : joinWith ",\n" (join ["  :public ", first.qualified] ::
        rest.map fun base => join ["   public ", base.qualified]) =
        "  :public ".toList ++ joinWith ",\n   public " ((first :: rest).map (·.qualified)) := by
      have hmap := joinWith_map_append ",\n" "   public " (join ["  :public ", first.qualified])
        (rest.map (·.qualified))
      rw [map_map] at hmap
      rw [map_cons]
      refine Eq.trans ?_ (hmap.trans ?_)
      · simp [Function.comp_def]
      · cases rest <;> simp
    simp only [hbases]
    simp [line]

/-! ## Whole lines -/

/-- An item of an outline is written on whole lines. -/
theorem OutlineItem.getLast?_render (l : Layout) (i : OutlineItem) : (i.render l).getLast? = some '\n' := by
  cases i with
  | head h =>
    simp only [render, h.render_eq, DocBlock.ofClass, Text.join_cons,
      Text.join_nil, append_nil, getLast?_append]
    rfl
  | banner =>
    show bannerText.getLast? = some '\n'
    decide +kernel
  | region | entry =>
    simp only [render, Text.join_cons, Text.join_nil, append_nil, getLast?_append]
    rfl
  | remark | openNamespace | closeClass | closeNamespace => exact getLast?_concat

theorem Outline.getLast?_render (l : Layout) (o : Outline) :
    o.render l = [] ∨ (o.render l).getLast? = some '\n' := by
  rcases o.eq_nil_or_concat' with rfl | ⟨o, i, rfl⟩
  · exact .inl rfl
  · right
    rw [render, flatMap_append, flatMap_singleton, getLast?_append, i.getLast?_render]
    rfl

/-! ## Regions -/

/-- Texts without the separator's first character are told apart by what is written. -/
theorem Text.joinWith_inj {c : Char} (gap : Text) {ts ts' : List Text} (hts : ∀ t ∈ ts, c ∉ t)
    (hts' : ∀ t ∈ ts', c ∉ t) (hne : ts ≠ []) (hne' : ts' ≠ [])
    (heq : joinWith (c :: gap) ts = joinWith (c :: gap) ts') : ts = ts' := by
  have hcons (t u : Text) (us : List Text) :
      joinWith (c :: gap) (t :: u :: us) = t ++ c :: (gap ++ joinWith (c :: gap) (u :: us)) := by simp
  have hone (t u v : Text) (us : List Text) (ht : c ∉ t) :
      joinWith (c :: gap) [t] ≠ joinWith (c :: gap) (u :: v :: us) := by
    rw [joinWith_singleton]
    rintro rfl
    simp at ht
  induction ts generalizing ts' with
  | nil => exact absurd rfl hne
  | cons t ts ih =>
    obtain ⟨t', ts', rfl⟩ := exists_cons_of_ne_nil hne'
    obtain ⟨ht, hrest⟩ := forall_mem_cons.1 hts
    obtain ⟨ht', hrest'⟩ := forall_mem_cons.1 hts'
    cases ts with
    | nil =>
      cases ts' with
      | nil => simpa using heq
      | cons u' us' => exact absurd heq (hone t t' u' us' ht)
    | cons u us =>
      cases ts' with
      | nil => exact absurd heq.symm (hone t' t u us ht')
      | cons u' us' =>
        rw [hcons, hcons] at heq
        obtain ⟨rfl, hbehind⟩ := cut_eq_cut ht ht' heq
        rw [ih hrest hrest' (cons_ne_nil _ _) (cons_ne_nil _ _) (append_cancel_left hbehind)]

theorem Region.text_eq (r : Region) : r.text = r.access.word ++ ':' :: (if r.modifiers.isEmpty then []
    else " /* ( ".toList ++ (joinWith ", " (r.modifiers.map (·.word)) ++ " ) */".toList)) := by
  rw [text, join_cons, join_cons, join_cons, join_nil, append_nil,
    join_cons, join_cons, join_cons, join_nil, append_nil]
  rfl

/-- A marker tells its region. -/
theorem Region.text_injective : Function.Injective Region.text := by
  rintro ⟨access, modifiers⟩ ⟨access', modifiers'⟩ h
  have hword (m : Modifier) : ',' ∉ m.word := by cases m <;> decide
  have hmodifier (m : Modifier) : Modifier.ofWord? m.word = some m := by cases m <;> decide
  have haccess (a : Access) : ':' ∉ a.word := by cases a <;> decide
  rw [text_eq, text_eq] at h
  obtain ⟨hsame, h⟩ := cut_eq_cut (haccess access) (haccess access') h
  obtain rfl : access = access' := by
    revert hsame
    cases access <;> cases access' <;> decide
  have hwords : modifiers.map (·.word) = modifiers'.map (·.word) := by
    cases modifiers with
    | nil =>
      cases modifiers' with
      | nil => rfl
      | cons m' ms' => cases congrArg List.isEmpty h
    | cons m ms =>
      cases modifiers' with
      | nil => cases congrArg List.isEmpty h
      | cons m' ms' =>
        have hno (ms : List Modifier) : ∀ t ∈ ms.map (·.word), ',' ∉ t := by
          intro t ht
          obtain ⟨m, -, rfl⟩ := mem_map.1 ht
          exact hword m
        refine joinWith_inj [' '] (hno _) (hno _) (cons_ne_nil _ _) (cons_ne_nil _ _) ?_
        exact append_cancel_right (append_cancel_left h)
  have hinj : Function.Injective Modifier.word := fun m m' heq =>
    Option.some.inj ((hmodifier m).symm.trans (heq ▸ hmodifier m'))
  rw [map_injective_iff.2 hinj hwords]

/-! ## Pieces -/

/-- What is written for a free comment. -/
def CommentBlock.written (b : CommentBlock) : Text :=
  join ["  /*", Comment.escape (joinWith "\n" b.lines), " */\n"]

/-- What stands on the page for an item. -/
inductive OutlineItem.WrittenAs (l : Layout) : OutlineItem → Text → Prop
  | banner : WrittenAs l .banner bannerText
  | remark (b : CommentBlock) : WrittenAs l (.remark b) b.written
  | openNamespace (name : Text) :
    WrittenAs l (.openNamespace name) (line (join ["namespace ", name, " \x7b"]))
  | head {h : ClassHead} {block : Text} : IsBlock block → WrittenAs l (.head h) (h.lines ++ block)
  | region (r : Region) : WrittenAs l (.region r) (join ["\n  ", r.text, "\n\n"])
  | entry {e : Entry} {block : Text} : IsBlock block →
    WrittenAs l (.entry e) (join [e.declaration l, block, "\n"])
  | closeClass : WrittenAs l .closeClass "\x7d;\n"
  | closeNamespace : WrittenAs l .closeNamespace "\x7d\n"

/-- A part of a page with the item that it shows. -/
structure Piece (l : Layout) where
  item : OutlineItem
  text : Text
  written : item.WrittenAs l text

theorem Piece.filterMap_item {α : Type} (f : OutlineItem → Option α) (pieces : List (Piece l)) :
    pieces.filterMap (fun x => f x.item) = (pieces.map (·.item)).filterMap f := by
  rw [filterMap_map]
  rfl

/-- The pieces that are remarks hold the written comments. -/
theorem Piece.map_text_remarks (pieces : List (Piece l)) :
    (pieces.filter (·.item.remark?.isSome)).map (·.text) = (pieces.filterMap (·.item.remark?)).map
    (·.written) := by
  induction pieces with
  | nil => rfl
  | cons x pieces ih =>
    obtain ⟨item, text, written⟩ := x
    cases written with
    | remark b => simpa [OutlineItem.remark?] using ih
    | _ => exact ih

theorem OutlineItem.writtenAs_render (i : OutlineItem) (hname : ∀ h, i = .head h → Name.isIdentifier h.name) :
    i.WrittenAs l (i.render l) := by
  cases i with
  | head h =>
    rw [render, h.render_eq]
    exact .head (Balance.isBlock_ofClass (hname h rfl) l.group h.doc h.notes)
  | entry e =>
    obtain ⟨block, hrender, hblock⟩ := e.exists_block l
    have htext : render l (.entry e) = join [e.declaration l, block, "\n"] := by
      simp [render, hrender, blank, line]
    exact htext ▸ .entry hblock
  | remark b =>
    have htext : render l (.remark b) = b.written := by
      simp [render, Comment.ofLines, CommentBlock.written, line]
    exact htext ▸ .remark b
  | region r =>
    have htext : render l (.region r) = join ["\n  ", r.text, "\n\n"] := by
      simp [render, blank, line]
    exact htext ▸ .region r
  | banner => exact .banner
  | openNamespace name => exact .openNamespace name
  | closeClass => exact .closeClass
  | closeNamespace => exact .closeNamespace

/-- A page is made up of one piece for each item. -/
theorem Outline.exists_pieces {o : Outline} (hname : ∀ h, .head h ∈ o → Name.isIdentifier h.name) :
    ∃ pieces : List (Piece l), pieces.map (·.item) = o ∧ o.render l = pieces.flatMap (·.text) := by
  induction o with
  | nil => exact ⟨[], rfl, rfl⟩
  | cons i o ih =>
    obtain ⟨pieces, hitems, htext⟩ := ih fun h hh => hname h (mem_cons_of_mem i hh)
    have hi : i.WrittenAs l (i.render l) := i.writtenAs_render fun h hh => hname h (hh ▸ mem_cons_self)
    refine ⟨⟨i, i.render l, hi⟩ :: pieces, by rw [map_cons, hitems], ?_⟩
    rw [flatMap_cons, ← htext]
    rfl

/-- The pseudo-code of a source is made up of the pieces for its class. -/
theorem Options.exists_pieces {o : Options} {s : Source} {p : Pseudocode} (h : o.pseudocode s = .ok p) :
    ∃ c notes resolved, ∃ pieces : List (Piece (o.layoutFor s.path).1),
      ClassDecl.parse o.limits s.text = .ok c ∧
      Forall₂ (fun b r => (resolveBlock b.kind b.attributes).2 = .ok r) c.blocks resolved ∧
      pieces.map (·.item) = Outline.ofClass (o.layoutFor s.path).1 c.header.first (c.head o.macros notes)
        (c.entries o.macros (Binding.ofClass c).2 resolved) (Binding.ofClass c).2.free ∧
      p.text = pieces.flatMap (·.text) := by
  obtain ⟨c, outline, found, hparse, houtline, rfl⟩ := pseudocode_eq_ok_iff.1 h
  obtain ⟨resolving, notes, resolved, hresolve, rfl, -⟩ := ClassDecl.outline_eq_ok_iff.1 houtline
  have hname (h : ClassHead) (hh : .head h ∈ Outline.ofClass (o.layoutFor s.path).1 c.header.first
      (c.head o.macros notes) (c.entries o.macros (Binding.ofClass c).2 resolved)
      (Binding.ofClass c).2.free) :
      Name.isIdentifier h.name = true := by
    have hmem : h ∈ [c.head o.macros notes] := Outline.filterMap_head?_ofClass ▸ mem_filterMap.2 ⟨_, hh, rfl⟩
    obtain rfl := mem_singleton.1 hmem
    exact (ClassDecl.wellFormed_of_parse hparse).name
  obtain ⟨pieces, hitems, htext⟩ := Outline.exists_pieces (l := (o.layoutFor s.path).1) hname
  exact ⟨c, notes, resolved, pieces, hparse, ClassDecl.blocks_of_resolve hresolve, hitems, htext⟩

end ClassdefDoc
