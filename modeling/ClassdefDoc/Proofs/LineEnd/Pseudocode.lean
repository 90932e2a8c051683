import ClassdefDoc.Proofs.Balance.Body
import ClassdefDoc.Proofs.Collect
import ClassdefDoc.Proofs.LineEnd.Binding
import ClassdefDoc.Proofs.LineEnd.Default
import ClassdefDoc.Proofs.LineEnd.Scan
import ClassdefDoc.Proofs.Outline.Items

/-!
# Pseudo-code with carriage returns

The classes of a text and of its form with carriage returns are alike, so their outlines have corresponding
items (`Likeness.agree_outline`). What an item writes differs by carriage returns only
(`Likeness.LikeItem.bare_render`): names and types are the same, code and comments differ by returns, and
escaping a text moves none of them. Main result: a file and its form with carriage returns have the same
pseudo-code up to carriage returns, or the same kind of error on the same line (`Options.pseudocode_crlf`).
-/

namespace ClassdefDoc

open List

open Text (Sown Ended bare)

namespace Text

theorem bare_join_cons (t : Text) (ts : List Text) : bare (join (t :: ts)) = bare t ++ bare (join ts) := by
  rw [join, flatten_cons, bare_append, join]

/-- What is written for corresponding elements may differ by returns. -/
theorem bare_flatMap_eq {α : Type} {R : α → α → Prop} {f : α → Text} {xs ys : List α} (h : Forall₂ R xs ys)
    (hf : ∀ x y, R x y → bare (f y) = bare (f x)) : bare (ys.flatMap f) = bare (xs.flatMap f) := by
  induction h with
  | nil => rfl
  | cons hxy _ ih => rw [flatMap_cons, flatMap_cons, bare_append, bare_append, hf _ _ hxy, ih]

theorem Sown.joined (x : Text) {t t' : Text} (h : Sown t t') : Sown (join [x, t]) (join [x, t']) := by
  simp only [join, flatten_cons, flatten_nil, append_nil]
  exact h.behind x

end Text

/-! ## Documentation blocks -/

namespace DocBlock

variable {d d' : DocText} {t t' : Text} {ls ls' notes notes' : List Text}

theorem bare_line (h : Sown t t') : bare (line t') = bare (line t) := by
  unfold line
  rw [h.isBlank_eq]
  split_ifs
  · rfl
  · simp only [Page.line, Text.bare_append, Text.bare_join_cons, h.escape.bare_eq]

theorem bare_lines (h : Forall₂ Sown ls ls') : bare (ls'.flatMap line) = bare (ls.flatMap line) :=
  Text.bare_flatMap_eq h fun _ _ => bare_line

theorem isEmpty_eq_of_forall₂ (h : Forall₂ Sown notes notes') : notes'.isEmpty = notes.isEmpty := by
  cases h <;> rfl

theorem bare_body (hd : d.Alike d') (hnotes : Forall₂ Sown notes notes') :
    bare (body d' notes') = bare (body d notes) := by
  have hlines : bare (d'.lines.flatMap line) = bare (d.lines.flatMap line) :=
    bare_lines (hd.lines.imp fun _ _ hl => hl.sown)
  have hnoted : bare (notes'.flatMap fun note => line (Text.join ["@note ", note])) =
      bare (notes.flatMap fun note => line (Text.join ["@note ", note])) :=
    Text.bare_flatMap_eq hnotes fun _ _ hn => bare_line (hn.joined _)
  unfold body
  simp only [Text.bare_join_cons, hlines, hnoted, hd.hasText_eq, isEmpty_eq_of_forall₂ hnotes]

theorem bare_ofMember (header : Text) (hd : d.Alike d') (hnotes : Forall₂ Sown notes notes')
    (htrailer : Forall₂ Sown ls ls') : bare (ofMember header d' notes' ls') =
    bare (ofMember header d notes ls) := by
  unfold ofMember
  rw [hd.hasText_eq, isEmpty_eq_of_forall₂ hnotes]
  split_ifs
  · rfl
  · simp only [Text.bare_join_cons, bare_body hd hnotes, bare_lines htrailer]

theorem bare_ofClass (name : Text) (group : Option Text) (hd : d.Alike d')
    (hnotes : Forall₂ Sown notes notes') :
    bare (ofClass name group d' notes') = bare (ofClass name group d notes) := by
  simp only [ofClass, Text.bare_join_cons, bare_body hd hnotes]

end DocBlock

/-! ## Members -/

theorem Comment.bare_ofLines {ls ls' : List Text} (h : Forall₂ Ended ls ls') :
    bare (ofLines ls') = bare (ofLines ls) := by
  have hlines : Sown (Text.joinWith "\n" ls) (Text.joinWith "\n" ls') :=
    .joinWith (by decide) (by decide) (h.imp fun _ _ hl => hl.sown)
  simp only [ofLines, Text.bare_join_cons, hlines.escape.bare_eq]

namespace Likeness

variable {text : Text} {h : '\r' ∉ text}

theorem LikePiece.bare_render {p p' : BodyPiece} (hp : (crlf text h).LikePiece p p') :
    bare p'.render = bare p.render := by
  cases hp with
  | @code t t' ht =>
    have hbare : bare t' = t := ht.bare_eq
    calc bare t' = bare (bare t') := (Text.bare_bare t').symm
      _ = bare t := congrArg bare hbare
  | comment hls => exact Comment.bare_ofLines hls
  | literal => rfl

theorem LikeBody.bare_render {b b' : Body} (hb : (crlf text h).LikeBody b b') (opening : Text) :
    bare (b'.render opening) = bare (b.render opening) := by
  obtain ⟨ps, ps', hps, hps', hpieces⟩ := hb.pieces
  have hrender : bare (b'.pieces.flatMap (·.render)) = bare (b.pieces.flatMap (·.render)) := by
    rw [hps, hps', Balance.render_joinCode, Balance.render_joinCode]
    exact Text.bare_flatMap_eq hpieces fun _ _ hp => hp.bare_render
  simp only [Body.render, Page.line, Text.bare_append, Text.bare_join_cons, hrender]

/-- Members with what their pseudo-code depends on. -/
structure LikeEntry (K : Likeness) (e e' : Entry) : Prop where
  member : K.LikeMember e.member e'.member
  attributes : LikeResolved e.attributes e'.attributes
  doc : e.doc.Alike e'.doc
  isConstructor : e'.isConstructor = e.isConstructor
  accessorNote : e'.accessorNote = e.accessorNote

namespace LikeEntry

variable {e e' : Entry} {K : Likeness} {v v' : Option Text} {m m' : Method}

section

variable (he : K.LikeEntry e e')
include he

theorem has (m : Modifier) : e'.attributes.has m = e.attributes.has m := by
  rw [Resolved.has, Resolved.has, he.attributes.modifiers]

theorem value? (hv : Option.Rel Text.SamePart v v') : Option.Rel Sown (e.value? v) (e'.value? v') := by
  unfold Entry.value? Entry.isConstant
  rw [he.has]
  cases hv with
  | some hv => exact .some (Default.sown_render hv)
  | none =>
    simp only [Option.none_or]
    split_ifs
    · exact .some (.refl _)
    · exact .none

theorem bare_property (p : Placeholders) (type : Option DottedName) (hv : Option.Rel Text.SamePart v v') :
    bare (e'.property p type v') = bare (e.property p type v) := by
  have hnotes : Forall₂ Sown (e.attributes.notes ++ e.accessorNote.toList)
      (e'.attributes.notes ++ e'.accessorNote.toList) := by
    rw [he.accessorNote]
    exact rel_append he.attributes.notes (forall₂_same.2 fun _ _ => .refl _)
  unfold Entry.property Entry.isConstant
  simp only [he.has, he.doc.declaredType, ← he.member.name, Text.bare_append]
  refine (he.value? hv).casesOn (fun hw => ?_) ?_
  · simp only [Option.toList_some, map_cons, map_nil]
    rw [DocBlock.bare_ofMember _ he.doc hnotes (.cons (hw.joined _) .nil)]
    simp only [Page.line, Text.bare_append, Text.bare_join_cons, hw.bare_eq]
  · simp only [Option.toList_none, map_nil]
    rw [DocBlock.bare_ofMember _ he.doc hnotes .nil]

theorem signature (hm : K.LikeMethod m m') (p : Placeholders) : e'.signature p m' = e.signature p m := by
  unfold Entry.signature Entry.params
  simp only [he.has, he.isConstructor, he.doc.types, ← he.member.name, ← hm.params, ← hm.returns]

end

theorem bare_methodLines (he : (crlf text h).LikeEntry e e')
    (hm : (crlf text h).LikeMethod m m') (l : Layout) :
    bare (e'.methodLines l m') = bare (e.methodLines l m) := by
  have hbody := hm.body
  unfold Entry.methodLines Entry.guard
  simp only [he.signature hm, he.has, ← hm.accessor, ← hm.isAbstract, ← he.member.sourceName]
  generalize m.body = b, m'.body = b' at hbody ⊢
  cases m.accessor with
  | some a =>
    cases hbody with
    | none => rfl
    | some hb => simp only [Text.bare_join_cons, hb.bare_render]
  | none =>
    by_cases habstract : m.isAbstract
    · simp only [habstract, if_true]
    · simp only [habstract, Bool.false_eq_true, if_false]
      cases hbody with
      | none => rfl
      | some hb => exact hb.bare_render _

theorem bare_render (he : (crlf text h).LikeEntry e e') (l : Layout) :
    bare (e'.render l) = bare (e.render l) := by
  unfold Entry.render
  refine he.member.detail.casesOn (fun hv => he.bare_property _ _ hv) (fun hm => ?_) ?_
  · simp only [Entry.method, Text.bare_append, he.bare_methodLines hm, he.signature hm]
    rw [DocBlock.bare_ofMember _ he.doc he.attributes.notes .nil]
  · simp only [Entry.event, Text.bare_append, ← he.member.name]
    rw [DocBlock.bare_ofMember _ he.doc he.attributes.notes (forall₂_same.2 fun _ _ => .refl _)]

end LikeEntry

/-! ## Outlines -/

inductive LikeItem (K : Likeness) : OutlineItem → OutlineItem → Prop
  | same (i : OutlineItem) : LikeItem K i i
  | remark {b b' : CommentBlock} : K.LikeComment b b' → LikeItem K (.remark b) (.remark b')
  | head {n s d d' notes notes'} : DocText.Alike d d' → Forall₂ Sown notes notes' →
    LikeItem K (.head ⟨n, s, d, notes⟩) (.head ⟨n, s, d', notes'⟩)
  | entry {e e' : Entry} : K.LikeEntry e e' → LikeItem K (.entry e) (.entry e')

theorem LikeItem.bare_render {i i' : OutlineItem} (hi : (crlf text h).LikeItem i i') (l : Layout) :
    bare (i'.render l) = bare (i.render l) := by
  cases hi with
  | same => rfl
  | remark hb =>
    simp only [OutlineItem.render, Page.line, Text.bare_append,
      Text.bare_join_cons, Comment.bare_ofLines hb.lines]
  | head hd hnotes =>
    simp only [OutlineItem.render, ClassHead.render, Text.bare_append, DocBlock.bare_ofClass _ _ hd hnotes]
  | entry he => simp only [OutlineItem.render, Text.bare_join_cons, he.bare_render]

theorem bare_render {o o' : Outline} (ho : Forall₂ (crlf text h).LikeItem o o') (l : Layout) :
    bare (o'.render l) = bare (o.render l) :=
  Text.bare_flatMap_eq ho fun _ _ hi => hi.bare_render l

/-! ## Classes -/

section Forall₂

variable {α β γ δ : Type} {R : α → β → Prop} {S : γ → δ → Prop} {xs : List α} {ys : List β}

theorem forall₂_zip {zs : List γ} {ws : List δ} (hxs : Forall₂ R xs ys) (hzs : Forall₂ S zs ws) :
    Forall₂ (fun p q => R p.1 q.1 ∧ S p.2 q.2) (xs.zip zs) (ys.zip ws) := by
  induction hxs generalizing zs ws with
  | nil => exact .nil
  | cons hx _ ih =>
    cases hzs with
    | nil => exact .nil
    | cons hz hzs => exact .cons ⟨hx, hz⟩ (ih hzs)

theorem forall₂_zipIdx (hxs : Forall₂ R xs ys) (n : Nat) :
    Forall₂ (fun p q => R p.1 q.1 ∧ p.2 = q.2) (xs.zipIdx n) (ys.zipIdx n) := by
  induction hxs generalizing n with
  | nil => exact .nil
  | cons hx _ ih => exact .cons ⟨hx, rfl⟩ (ih (n + 1))

end Forall₂

variable {c c' : ClassDecl}

theorem accessorNote?_eq {K : Likeness} (hc : K.LikeClass c c') (property : Text) :
    c'.accessorNote? property = c.accessorNote? property := by
  have haccessors :=
    congrArg (List.filterMap id) (map_eq_of_forall₂ (forall₂_members hc) fun _ _ hm => hm.accessor?)
  simp only [filterMap_map, Function.id_comp] at haccessors
  rw [ClassDecl.accessorNote?, ClassDecl.accessorNote?, haccessors]

theorem forall₂_entries (hc : (crlf text h).LikeClass c c') (macros : MacroTable) {b b' : Binding}
    (hb : (crlf text h).LikeBinding b b') {rs rs' : List Resolved} (hrs : Forall₂ LikeResolved rs rs') :
    Forall₂ (crlf text h).LikeEntry (c.entries macros b rs) (c'.entries macros b' rs') := by
  have hattributed : Forall₂ (fun q q' => (crlf text h).LikeMember q.1 q'.1 ∧ LikeResolved q.2 q'.2)
      ((c.blocks.zip rs).flatMap fun p => p.1.members.map (·, p.2))
        ((c'.blocks.zip rs').flatMap fun p => p.1.members.map (·, p.2)) :=
    rel_flatMap (forall₂_zip hc.blocks hrs) fun _ _ hp => rel_map (fun _ _ hm => ⟨hm, hp.2⟩) hp.1.members
  refine rel_map ?_ (forall₂_zipIdx hattributed 0)
  rintro ⟨⟨m, r⟩, n⟩ ⟨⟨m', r'⟩, _⟩ ⟨⟨hm, hr⟩, rfl⟩
  have hname : m.name = m'.name := hm.name
  refine ⟨hm, hr, DocText.alike_ofDocumentation macros (hb.ofMember n), ?_, ?_⟩
  · simp only [ClassDecl.isConstructor, ← hm.kind, ← hm.accessor?, ← hname, ← hc.name]
  · simp only [accessorNote?_eq hc, ← hname]

/-- The outlines of classes that are alike. -/
theorem agree_outline (hc : (crlf text h).LikeClass c c') (l : Layout) (macros : MacroTable) :
    Agree (fun x x' => Forall₂ (crlf text h).LikeItem x.1 x'.1)
    (c.outline l macros) (c'.outline l macros) := by
  have hbinding := likeBinding_ofClass hc
  refine (agree_resolve hc).bind ?_
  rintro ⟨found, notes, rs⟩ ⟨found', notes', rs'⟩ ⟨hnotes, hrs⟩
  refine .ok ?_
  have hhead : (crlf text h).LikeItem (.head (c.head macros notes)) (.head (c'.head macros notes')) := by
    unfold ClassDecl.head
    rw [hc.name, hc.superclasses]
    exact .head (DocText.alike_ofDocumentation macros hbinding.ofHeader) hnotes
  show Forall₂ _ (Outline.ofClass l c.header.first (c.head macros notes) _ _)
    (Outline.ofClass l c'.header.first (c'.head macros notes') _ _)
  rw [hc.header]
  refine Outline.forall₂_ofClass .same ((forall₂_entries hc macros hbinding hrs).imp fun e e' he => ?_) hhead
    (hbinding.free.imp fun b b' hb => ⟨hb.firstLine, .remark hb⟩)
  exact ⟨he.member.header, he.attributes.region.symm, .entry he⟩

end Likeness

/-- A carriage return before each line end of a file changes nothing but the carriage
returns of its pseudo-code; and if there is an error, neither its kind nor its line. -/
theorem Options.pseudocode_crlf (o : Options) (path text : Text) (h : '\r' ∉ text) :
    (∃ p p', o.pseudocode ⟨path, text⟩ = .ok p ∧ o.pseudocode ⟨path, Text.crlf text⟩ = .ok p' ∧
      bare p'.text = bare p.text) ∨
    (∃ e e', o.pseudocode ⟨path, text⟩ = .error e ∧ o.pseudocode ⟨path, Text.crlf text⟩ =
      .error e' ∧ e'.kind = e.kind ∧
      e'.position.line = e.position.line) := by
  rw [pseudocode_eq, pseudocode_eq]
  have hparse := ClassDecl.agree_parse o.limits text h
  simp only
  generalize ClassDecl.parse o.limits text = x, ClassDecl.parse o.limits (Text.crlf text) = x' at hparse ⊢
  cases hparse with
  | error hf => exact .inr ⟨_, _, rfl, rfl, hf.kind.symm, hf.line.symm⟩
  | @ok c c' hc =>
    have houtline := Likeness.agree_outline hc (o.layoutFor path).1 o.macros
    simp only [Except.mapError, bind, Except.bind]
    generalize c.outline (o.layoutFor path).1 o.macros = y, c'.outline (o.layoutFor path).1 o.macros =
      y' at houtline ⊢
    cases houtline with
    | error hf => exact .inr ⟨_, _, rfl, rfl, hf.kind.symm, hf.line.symm⟩
    | ok hitems => exact .inl ⟨_, _, rfl, rfl, Likeness.bare_render hitems _⟩

/-- An attribute, a default value and a body that run over several lines. -/
def linedText : Text :=
  "classdef A\n% About A.\nproperties (Description = [1\n2], Description = 3)\nx = [1,\n'*/'] % @type a.b\nend\nmethods\nfunction f(a)\n%\x7b\nnote\n%\x7d\ny = [1\n2];\nend\nend\nend\n"

theorem Options.pseudocode_crlf_lines :
    '\r' ∉ linedText ∧ ∃ p p', ({} : Options).pseudocode ⟨"A.m", linedText⟩ = .ok p ∧
    ({} : Options).pseudocode ⟨"A.m", Text.crlf linedText⟩ = .ok p' ∧
    '\r' ∈ p'.text ∧ bare p'.text = bare p.text := by
  have hfree : '\r' ∉ linedText := by decide +kernel
  obtain ⟨q, hq, hmem⟩ : ∃ p, ({} : Options).pseudocode ⟨"A.m", Text.crlf linedText⟩ = .ok p ∧
      '\r' ∈ p.text := by decide +kernel
  refine ⟨hfree, ?_⟩
  rcases Options.pseudocode_crlf {} "A.m" linedText hfree with ⟨p, p', hp, hp', hbare⟩ | ⟨e, e', -, he', -, -⟩
  · cases hq.symm.trans hp'
    exact ⟨p, q, hp, hq, hmem, hbare⟩
  · cases hq.symm.trans he'

end ClassdefDoc
