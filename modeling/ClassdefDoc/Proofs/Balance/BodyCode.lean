import ClassdefDoc.Proofs.Balance.Uncomment
import ClassdefDoc.Proofs.Parse.Shape

/-!
# Code of method bodies

The pieces of a body should be read as what they are: code as code, comments as comments, literals as
quoted text (`Body.roles`). Code is copied as it is, so this holds if and only if no code has a mark that
starts a comment, and none ends in a slash before a comment (`Body.Clear`). One direction goes along the
pieces (`roles_pieces`). The other comes from the roles alone: no slash that is code has a star or a
slash behind it (`isChain_roles`), so that a body that is not clear cannot be read as it should.

The brackets of the code of a body are the bracket tokens that it is cut out of (`Cuts.brackets`).
All this goes for the bodies in the pseudo-code of a source (`Options.keepsBodies_iff`).
-/

namespace ClassdefDoc

open List

variable {b : Body} {m : Member} {d : Method} {e : Entry}

/-! ## What pieces should be read as -/

/-- What the characters of a piece should be read as. -/
def BodyPiece.role : BodyPiece → Balance.Role
  | code _ => .code
  | comment _ => .comment
  | literal _ => .quoted

def BodyPiece.roles (p : BodyPiece) : List (Balance.Role × Char) := p.render.map (p.role, ·)

/-- The first piece is no code that ends in a slash, or the second is no comment. -/
def BodyPiece.Apart (p q : BodyPiece) : Prop :=
  p.role = .code → p.render.getLast? = some '/' → q.role ≠ .comment

instance (p q : BodyPiece) : Decidable (p.Apart q) :=
  inferInstanceAs (Decidable (p.role = .code → p.render.getLast? = some '/' → q.role ≠ .comment))

theorem Member.detail_of_method? (h : m.method? = some d) :
    m.detail = .method d := by
  unfold Member.method? at h
  split at h <;> cases h
  assumption

namespace Body

def text (b : Body) : Text := b.pieces.flatMap (·.render)

def roles (b : Body) : List (Balance.Role × Char) := b.pieces.flatMap (·.roles)

/-- Neither the code of a body nor code and a comment behind it make up a mark that starts a comment. -/
structure Clear (b : Body) : Prop where
  marks : Balance.CodeMarkFree b.pieces
  apart : b.pieces.IsChain BodyPiece.Apart

instance (b : Body) : Decidable b.Clear :=
  decidable_of_iff (Balance.CodeMarkFree b.pieces ∧ b.pieces.IsChain BodyPiece.Apart) ⟨fun h => ⟨h.1, h.2⟩,
    fun h => ⟨h.1, h.2⟩⟩

/-- The tokens that a body is cut out of. -/
def HasTokens (text : Text) (b : Body) (ts : List Token) : Prop :=
  ∃ s s' close s'', b.CutBetween text s ts s' close s''

/-- In a page the body stands behind `before` in braces, and is read as it should. -/
structure ReadIn (b : Body) (page before after : Text) : Prop where
  page_eq : page = before ++ "\x7b".toList ++ b.text ++ "\x7d".toList ++ after
  roles_eq : Balance.roles page =
    Balance.roles before ++ [(.code, '{')] ++ b.roles ++ [(.code, '}')] ++ Balance.roles after

end Body

namespace Balance

variable {a before : Text}

/-! ## Reading pieces -/

theorem isChain_joinCode (pieces : List BodyPiece) :
    (Body.joinCode pieces).IsChain fun p q => p.role = .code → q.role ≠ .code := by
  refine (Body.isChain_joinCode pieces).imp fun p q h hp hq => ?_
  cases p with
  | comment | literal => cases hp
  | code =>
    cases q with
    | comment | literal => cases hq
    | code => cases h

/-- The reader is in code, but for a slash that waits. -/
def Mode.IsCode (m : Mode) : Prop := m = .code ∨ m = .slash

/-- The reader goes on in code with what cannot start a comment behind a slash. -/
theorem roles_append_of_isCode {b : Text} (ha : (Mode.code.run a).IsCode) (hb : StartsApart b) :
    roles (a ++ b) = roles a ++ roles b := by
  rcases ha with ha | ha
  · exact roles_append ha b
  · exact roles_append_of_slash ha hb

theorem isCode_append {b : Text} (ha : (Mode.code.run a).IsCode)
    (hb : StartsApart b) (hrun : (Mode.code.run b).IsCode) :
    (Mode.code.run (a ++ b)).IsCode := by
  rw [Mode.run_append]
  rcases ha with ha | ha <;> rw [ha]
  · exact hrun
  · by_cases hne : b = []
    · exact hne ▸ .inr rfl
    · rwa [(Mode.slash_told hb hne).1]

variable {p : BodyPiece} {pieces : List BodyPiece}

/-- What follows a slash and is neither code nor a comment is quoted. -/
theorem startsApart_pieces (h : ∀ q ∈ pieces.head?, q.role ≠ .code ∧ q.role ≠ .comment) :
    StartsApart (pieces.flatMap (·.render)) := by
  cases pieces with
  | nil => exact fun c hc => absurd hc (Option.not_mem_none c)
  | cons q pieces =>
    obtain ⟨hcode, hcomment⟩ := h q rfl
    cases q with
    | code => exact absurd rfl hcode
    | comment => exact absurd rfl hcomment
    | literal value =>
      rintro c ⟨⟩
      decide

/-- A piece by itself is read as it should. A slash may wait behind it only if it is code. -/
theorem roles_piece (hquote : '"' ∉ codeOf p.roles) (hmarks : ∀ t, p = .code t → MarkFree t) :
    roles p.render = p.roles ∧ (Mode.code.run p.render = .code ∨
      Mode.code.run p.render = .slash ∧ p.role = .code ∧ p.render.getLast? = some '/') := by
  cases p with
  | comment lines =>
    exact ⟨(isComment_ofLines lines).takenFor.roles, .inl (isComment_ofLines lines).takenFor.run⟩
  | literal value => exact ⟨(takenFor_quote value).roles, .inl (takenFor_quote value).run⟩
  | code t =>
    rw [BodyPiece.roles, BodyPiece.role, codeOf_map_code] at hquote
    obtain ⟨hrun, hroles⟩ := roles_code hquote (hmarks t rfl)
    refine ⟨hroles, ?_⟩
    rw [hrun, modeBehind]
    split_ifs with hlast
    · exact .inr ⟨rfl, rfl, hlast⟩
    · exact .inl rfl

/-- Pieces are read as they should, if no mark is in code or arises where code meets what follows. -/
theorem roles_pieces (hquote : '"' ∉ codeOf (pieces.flatMap (·.roles))) (hmarks : CodeMarkFree pieces)
    (hapart : pieces.IsChain BodyPiece.Apart)
    (hjoined : pieces.IsChain fun p q => p.role = .code → q.role ≠ .code) :
    (Mode.code.run (pieces.flatMap (·.render))).IsCode ∧ roles
    (pieces.flatMap (·.render)) = pieces.flatMap (·.roles) := by
  induction pieces with
  | nil => exact ⟨.inl rfl, rfl⟩
  | cons p pieces ih =>
    simp only [flatMap_cons, codeOf_append, mem_append, not_or] at hquote
    rw [isChain_cons] at hapart hjoined
    obtain ⟨hrun, hroles⟩ := ih hquote.2 (fun t ht => hmarks t (mem_cons_of_mem _ ht)) hapart.2 hjoined.2
    obtain ⟨hpiece, hbehind⟩ := roles_piece hquote.1 fun t ht => hmarks t (ht ▸ mem_cons_self)
    simp only [flatMap_cons]
    rw [← hpiece, ← hroles]
    rcases hbehind with hcode | ⟨hslash, hrole, hlast⟩
    · rw [Mode.run_append, hcode]
      exact ⟨hrun, roles_append hcode _⟩
    · have hstarts := startsApart_pieces fun q hq => ⟨hjoined.1 q hq hrole, hapart.1 q hq hrole hlast⟩
      exact ⟨isCode_append (.inr hslash) hstarts hrun, roles_append_of_slash hslash hstarts⟩

/-- A comment does not follow a slash that is read as code. -/
theorem apart_of_isChain {q : BodyPiece} {rest : List (Role × Char)}
    (h : (p.roles ++ (q.roles ++ rest)).IsChain NoMark) :
    p.Apart q := by
  intro hrole hlast hcomment
  obtain ⟨u, hu⟩ := getLast?_eq_some_iff.1 hlast
  cases q with
  | code | literal => cases hcomment
  | comment lines =>
    obtain ⟨more, hmore⟩ : ∃ more, (BodyPiece.comment lines).roles = (.comment, '/') :: more := ⟨_, rfl⟩
    have hmark : [(Role.code, '/'), (.comment, '/')] <:+: p.roles ++
        ((BodyPiece.comment lines).roles ++ rest) :=
      ⟨u.map (Role.code, ·), more ++ rest, by rw [BodyPiece.roles, hrole, hu, hmore]; simp⟩
    exact (noMark_of_adjacent h hmark rfl).2 rfl

theorem isChain_apart (h : (pieces.flatMap (·.roles)).IsChain NoMark) : pieces.IsChain BodyPiece.Apart := by
  induction pieces with
  | nil => exact .nil
  | cons p pieces ih =>
    rw [flatMap_cons] at h
    refine isChain_cons.2 ⟨fun q hq => ?_, ih h.right_of_append⟩
    obtain ⟨rest, rfl⟩ := head?_eq_some_iff.1 hq
    rw [flatMap_cons] at h
    exact apart_of_isChain h

/-- A body that is read as it should is clear. -/
theorem clear_of_isChain (h : b.roles.IsChain NoMark) : b.Clear := by
  refine ⟨fun t ht => ?_, isChain_apart h⟩
  obtain ⟨before, after, hpieces⟩ := append_of_mem ht
  have hpart : t.map (Role.code, ·) <:+: b.roles :=
    ⟨before.flatMap (·.roles), after.flatMap (·.roles), by
      rw [Body.roles, hpieces, flatMap_append, flatMap_cons, append_assoc]
      rfl⟩
  have hmark (c : Char) (hc : ['/', c] <:+: t) : c ≠ '*' ∧ c ≠ '/' :=
    noMark_of_adjacent h ((hc.map (Role.code, ·)).trans hpart) rfl
  exact ⟨fun hc => (hmark _ hc).1 rfl, fun hc => (hmark _ hc).2 rfl⟩

/-! ## Brackets -/

variable {s s' : Scanner} {past pending ahead : Text} {t : Token} {ts : List Token} {own : List BodyPiece}

/-- The code that stands for a token that is not code. -/
theorem plain_codeOf_piece (h : Body.pieceOf t = some own) : Plain (codeOf (own.flatMap (·.roles))) := by
  have hcomment (lines : List Text) : codeOf (BodyPiece.comment lines).roles = [] :=
    codeOf_map_of_ne (r := .comment) (by decide) _
  have hliteral (value : Text) : codeOf (BodyPiece.literal value).roles = [] :=
    codeOf_map_of_ne (r := .quoted) (by decide) _
  unfold Body.pieceOf at h
  split at h <;> cases h
  · simp [hcomment, Plain.nil]
  · simp [hcomment, Plain.nil]
  · simp [hliteral, Plain.nil]
  · rw [flatMap_cons, codeOf_append]
    refine Plain.append (by decide) ?_
    split_ifs
    · exact .nil
    · simp [hcomment, Plain.nil]

theorem filterMap_bracket?_cons (t : Token) (ts : List Token) :
    (t :: ts).filterMap (·.kind.bracket?) = t.kind.bracket?.toList ++ ts.filterMap (·.kind.bracket?) := by
  rw [filterMap_cons]
  cases t.kind.bracket? <;> rfl

/-- The brackets of the code between two states of the scanner are the bracket tokens there. -/
theorem Cuts.brackets (h : Cuts s past pending ahead ts s' pieces) (hquote : '"' ∉ pending) :
    '"' ∉ codeOf (pieces.flatMap (·.roles)) ∧ (codeOf (pieces.flatMap (·.roles))).filter isBracket =
      pending.filter isBracket ++ ts.filterMap (·.kind.bracket?) := by
  have hcode (u : Text) : codeOf (BodyPiece.code u).roles = u := codeOf_map_code u
  induction h with
  | stop htook =>
    have hgap := plain_gap htook
    rw [flatMap_singleton, hcode, filter_append, hgap.filter_isBracket, mem_append, not_or]
    exact ⟨⟨hquote, hgap.quote_notMem⟩, rfl⟩
  | code htook hkind _ ih =>
    have hgap := plain_gap htook
    obtain ⟨hlexeme, hbracket⟩ := filter_lexeme htook.reads hkind
    obtain ⟨hnone, hfilter⟩ := ih (by simp [hquote, hgap.quote_notMem, hlexeme])
    refine ⟨hnone, hfilter.trans ?_⟩
    rw [filter_append, filter_append, hgap.filter_isBracket, hbracket, append_nil, append_assoc,
      filterMap_bracket?_cons]
  | piece htook hpiece _ ih =>
    have hgap := plain_gap htook
    have hown := plain_codeOf_piece hpiece
    obtain ⟨hnone, hfilter⟩ := ih (plain_hidden htook).quote_notMem
    rw [(plain_hidden htook).filter_isBracket] at hfilter
    simp only [cons_append, flatMap_cons, flatMap_append, codeOf_append, hcode, mem_append, not_or,
      filter_append, hgap.filter_isBracket, hown.filter_isBracket, hfilter, append_nil, nil_append]
    rw [filterMap_bracket?_cons, bracket?_of_piece hpiece]
    exact ⟨⟨⟨hquote, hgap.quote_notMem⟩, hown.quote_notMem, hnone⟩, rfl⟩

/-! ## Bodies -/

variable {text : Text} {b : Body}

theorem brackets_body {close : Token} {s'' : Scanner} (h : b.CutBetween text s ts s' close s'') :
    '"' ∉ codeOf b.roles ∧ (codeOf b.roles).filter isBracket = ts.filterMap (·.kind.bracket?) := by
  obtain ⟨past, ahead, pieces, hcuts, hb⟩ := exists_cuts h
  have hroles : b.roles = pieces.flatMap (·.roles) := by
    rw [Body.roles, hb, flatMap_joinCode rfl fun _ _ => map_append]
  rw [hroles]
  exact hcuts.brackets not_mem_nil

theorem roles_body (h : b.CutFrom text) (hclear : b.Clear) :
    (Mode.code.run b.text).IsCode ∧ roles b.text = b.roles := by
  obtain ⟨s, ts, s', close, s'', hcut⟩ := h
  obtain ⟨pieces, -, hb⟩ := hcut.pieces
  exact roles_pieces (brackets_body hcut).1 hclear.marks hclear.apart (hb ▸ isChain_joinCode pieces)

/-- A clear body is read as it should wherever the reader is in code. -/
theorem readIn_of_clear (h : b.CutFrom text) (hclear : b.Clear)
    (hbefore : Mode.code.run before = .code) (after : Text) :
    b.ReadIn (before ++ "\x7b".toList ++ b.text ++ "\x7d".toList ++ after) before after where
  page_eq := rfl
  roles_eq := by
    obtain ⟨hcode, hroles⟩ := roles_body h hclear
    have hbrace : StartsApart ("\x7d".toList ++ after) := by
      rintro c ⟨⟩
      decide
    simp only [append_assoc]
    rw [roles_append hbefore, roles_append (a := "\x7b".toList) rfl,
      roles_append_of_isCode hcode hbrace, hroles, roles_append (a := "\x7d".toList) rfl]
    rfl

theorem clear_of_readIn {page after : Text} (h : b.ReadIn page before after) : b.Clear := by
  have hpart : b.roles <:+: roles page :=
    ⟨roles before ++ [(.code, '{')],
      [(.code, '}')] ++ roles after, by rw [h.roles_eq]; simp only [append_assoc]⟩
  have hpage := isChain_roles page
  have hbody := hpage.infix hpart
  exact clear_of_isChain hbody

/-! ## Outlines -/

variable {l : Layout}

theorem run_render {o : Outline} (h : ∀ i ∈ o, Settled (i.render l)) :
    Mode.code.run (o.render l) = .code := by
  induction o with
  | nil => rfl
  | cons i o ih =>
    obtain ⟨hi, ho⟩ := forall_mem_cons.1 h
    rw [Outline.render, flatMap_cons, Mode.run_append, hi.run]
    exact ih ho

/-- The body of a method stands in braces behind its signature. -/
theorem exists_render_entry {m : Method} (hm : e.member.method? = some m) (hb : m.body = some b)
    (hconcrete : m.isAbstract = false) : ∃ tail, OutlineItem.render l (.entry e) =
      e.opening l m ++ " ".toList ++ "\x7b".toList ++ b.text ++ "\x7d".toList ++ tail := by
  have hdetail := Member.detail_of_method? hm
  have hending : m.ending = Text.join [" \x7b", b.text, "\x7d"] := by
    simp only [Method.ending, hconcrete, Bool.and_false, Bool.false_eq_true, if_false, hb, Body.text]
  refine ⟨m.closing ++
    (DocBlock.ofMember (Text.join ["@fn ", e.signature l.placeholders m]) e.doc e.attributes.notes [] ++
    Page.blank), ?_⟩
  simp only [OutlineItem.render, Entry.render, hdetail, Entry.method,
    Entry.methodLines_eq, hending, Text.join_cons, Text.join_nil, append_nil, append_assoc]
  rfl

end Balance

/-- The bodies in the outline are read as they should, and their brackets are those of their tokens. -/
def Outline.KeepsBodies (text : Text) (l : Layout) (o : Outline) : Prop :=
  ∀ (before : Outline) (e : Entry) (after : Outline) (m : Method) (b : Body),
    o = before ++ .entry e :: after →
      e.member.method? = some m → m.body = some b →
    (∃ tail,
    b.ReadIn (o.render l) (before.render l ++ e.opening l m ++ " ".toList) (tail ++ after.render l)) ∧
    ∃ ts, b.HasTokens text ts ∧ (Balance.codeOf b.roles).filter Balance.isBracket =
    ts.filterMap (·.kind.bracket?)

namespace Balance

variable {text : Text} {l : Layout} {head : ClassHead} {entries : List Entry} {line : Nat}
  {free : List CommentBlock}

/-- Clear bodies are read as they should. -/
theorem keepsBodies_of_clear (hl : PlainLayout l) (hname : Name.isIdentifier head.name)
    (hsuper : ∀ n ∈ head.superclasses, n.IsValid) (he : ∀ e ∈ entries, Sound text e)
    (hclear : ∀ e ∈ entries, ∀ m b, e.member.method? = some m →
      m.body = some b → m.isAbstract = false ∧ b.Clear) :
    (Outline.ofClass l line head entries free).KeepsBodies text l := by
  intro before e after m b hsplit hm hb
  have hsettled (i : OutlineItem) (hi : i ∈ before ++ .entry e :: after) : Settled (i.render l) :=
    settled_of_mem hl hname hsuper he (hsplit ▸ hi)
  have hmem : .entry e ∈ Outline.ofClass l line head entries free := hsplit ▸ mem_append_right _ mem_cons_self
  have hentry : e ∈ entries := Outline.entry_mem_ofClass_iff.1 hmem
  have hdetail := Member.detail_of_method? hm
  have hwell := method_wellFormed (he e hentry) hdetail
  obtain ⟨hconcrete, hclear⟩ := hclear e hentry m b hm hb
  constructor
  · obtain ⟨tail, htail⟩ := exists_render_entry (l := l) hm hb hconcrete
    have hbefore : Mode.code.run (before.render l ++ e.opening l m ++ " ".toList) = .code := by
      rw [Mode.run_append, Mode.run_append, run_render fun i hi => hsettled i (mem_append_left _ hi),
        (neutral_opening hl (he e hentry) hwell).run]
      rfl
    have hpage : (Outline.ofClass l line head entries free).render l =
        before.render l ++ e.opening l m ++ " ".toList ++
        "\x7b".toList ++ b.text ++ "\x7d".toList ++ (tail ++ after.render l) := by
      rw [hsplit, Outline.render, flatMap_append, flatMap_cons, htail]
      simp only [Outline.render, append_assoc]
    exact ⟨tail, hpage ▸ readIn_of_clear (hwell.body b hb) hclear hbefore _⟩
  · obtain ⟨s, ts, s', close, s'', hcut⟩ := hwell.body b hb
    exact ⟨ts, ⟨s, s', close, s'', hcut⟩, (brackets_body hcut).2⟩

/-- Bodies that are read as they should are clear. -/
theorem clear_of_keepsBodies (h : (Outline.ofClass l line head entries free).KeepsBodies text l)
    (he : e ∈ entries) (hb : b ∈ e.member.body?) : b.Clear := by
  have hmem : .entry e ∈ Outline.ofClass l line head entries free := Outline.entry_mem_ofClass_iff.2 he
  obtain ⟨before, after, hsplit⟩ := append_of_mem hmem
  obtain ⟨m, hm, hbody⟩ := Option.bind_eq_some_iff.1 hb
  obtain ⟨⟨tail, hread⟩, -⟩ := h before e after m b hsplit hm hbody
  exact clear_of_readIn hread

end Balance

namespace ClassDecl

/-- A method with a body is not abstract. -/
theorem isAbstract_of_body {limits : Limits} {text : Text} {c : ClassDecl}
    (h : parse limits text = .ok c) (hm : m ∈ c.members) (hd : m.method? = some d)
    (hb : d.body = some b) : d.isAbstract = false := by
  obtain ⟨block, hblock, hmember⟩ := mem_flatMap.1 hm
  obtain ⟨-, hsame, hbody, -⟩ := (regular_of_parse h).1 block hblock m hmember
  rw [hsame d hd, ← Bool.not_eq_true]
  intro habstract
  have hnone := hbody habstract
  simp [Member.body?, hd, hb] at hnone

end ClassDecl

/-- The bodies of a source are read as they should in its pseudo-code if and
only if they are clear: then each character of their code is code, and the
brackets between the braces of a method are the bracket tokens of its body. -/
theorem Options.keepsBodies_iff {o : Options} {s : Source} {p : Pseudocode} (hcheck : o.check = .ok ())
    (htype : Balance.Plain o.layout.placeholders.typeToken)
    (hreturn : Balance.Plain o.layout.placeholders.noReturn) (h : o.pseudocode s = .ok p) :
    ∃ c outline found, ClassDecl.parse o.limits s.text = .ok c ∧
      c.outline (o.layoutFor s.path).1 o.macros = .ok (outline, found) ∧
      p.text = outline.render (o.layoutFor s.path).1 ∧
      ((∀ m ∈ c.members, ∀ b ∈ m.body?, b.Clear) ↔ outline.KeepsBodies s.text (o.layoutFor s.path).1) := by
  obtain ⟨c, outline, found, hparse, houtline, rfl⟩ := pseudocode_eq_ok_iff.1 h
  obtain ⟨resolving, notes, resolved, hresolve, rfl, -⟩ := ClassDecl.outline_eq_ok_iff.1 houtline
  have hwell := ClassDecl.wellFormed_of_parse hparse
  have hmembers :=
    c.map_member_entries o.macros (Binding.ofClass c).2 (ClassDecl.blocks_of_resolve hresolve).length_eq.le
  refine ⟨c, _, found, hparse, houtline, rfl, fun hclear => ?_, fun hkeeps m hm b hb => ?_⟩
  · refine Balance.keepsBodies_of_clear (Balance.plainLayout_of_check hcheck htype hreturn s.path)
      hwell.name hwell.superclasses
      (fun e he => Balance.sound_of_mem_entries hwell (fun m hm b hb => (hclear m hm b hb).marks) he)
        fun e he m b hm hb => ?_
    have hmember : e.member ∈ c.members := hmembers ▸ List.mem_map_of_mem he
    exact ⟨ClassDecl.isAbstract_of_body hparse hmember hm hb,
      hclear _ hmember b (by simp [Member.body?, hm, hb])⟩
  · rw [← hmembers] at hm
    obtain ⟨e, he, rfl⟩ := List.mem_map.1 hm
    exact Balance.clear_of_keepsBodies hkeeps he hb

/-- A class with a slash before a literal, and brackets in literals and comments. -/
def clearSource : Source where
  path := "A.m"
  text :=
    "classdef A\nmethods\nfunction r = f(self, x)\nr = \x7bx /'(' ... ]\n, [x(1) / 2]\x7d; % ) /*\nend\n" ++
    "function g(self)\nend\nend\nend\n"

theorem Options.keepsBodies_slash_before_literal :
    ∃ p c outline found, ({} : Options).pseudocode clearSource = .ok p ∧
    ClassDecl.parse {} clearSource.text = .ok c ∧ (c.members.filterMap (·.body?)).length = 2 ∧
    c.outline (({} : Options).layoutFor clearSource.path).1 {} = .ok (outline, found) ∧
    p.text = outline.render (({} : Options).layoutFor clearSource.path).1 ∧
    outline.KeepsBodies clearSource.text (({} : Options).layoutFor clearSource.path).1 := by
  have hclear : ∀ c, ClassDecl.parse {} clearSource.text = .ok c →
      (c.members.filterMap (·.body?)).length = 2 ∧ ∀ m ∈ c.members, ∀ b ∈ m.body?, b.Clear := by
        decide +kernel
  obtain ⟨p, hp⟩ := exists_of_isOk (x := ({} : Options).pseudocode clearSource) (by decide +kernel)
  obtain ⟨c, outline, found, hparse, houtline, htext, hiff⟩ :=
    Options.keepsBodies_iff (o := {}) rfl (by decide) (by decide) hp
  obtain ⟨hlength, hclear⟩ := hclear c hparse
  exact ⟨p, c, outline, found, hp, hparse, hlength, houtline, htext, hiff.1 hclear⟩

/-- A class with a command whose argument ends in a mark that starts a comment. -/
def commandSource : Source where
  path := "A.m"
  text := "classdef A\nmethods\nfunction f(self)\nls /tmp/*\nend\nend\nend\n"

/-- The end of the command is code, but it is read as the start of a comment that does not end. -/
theorem Options.command_read_as_comment : ∃ p c, ({} : Options).pseudocode commandSource = .ok p ∧
    ClassDecl.parse {} commandSource.text = .ok c ∧
    (c.members.filterMap (·.body?)).map (·.pieces) = [[.code "\nls /tmp/*\n"]] ∧
    "\nls /tmp".toList.map (Balance.Role.code, ·) ++
    "/*\n".toList.map (Balance.Role.comment, ·) <:+: Balance.roles p.text ∧
    Balance.balanced p.text = false := by
  obtain ⟨p, hp, hpage⟩ : ∃ p, ({} : Options).pseudocode commandSource = .ok p ∧
      "\nls /tmp".toList.map (Balance.Role.code, ·) ++
      "/*\n".toList.map (Balance.Role.comment, ·) <:+: Balance.roles p.text ∧
      Balance.balanced p.text = false := by decide +kernel
  obtain ⟨c, hc, hpieces⟩ : ∃ c, ClassDecl.parse {} commandSource.text = .ok c ∧
      (c.members.filterMap (·.body?)).map (·.pieces) = [[.code "\nls /tmp/*\n"]] := by decide +kernel
  exact ⟨p, c, hp, hc, hpieces, hpage⟩

end ClassdefDoc
