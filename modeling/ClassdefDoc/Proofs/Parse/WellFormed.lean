import ClassdefDoc.Proofs.Parse.Parallel
import ClassdefDoc.Proofs.Parse.Quiet

/-!
# What a parsed class is made of

A class that is read from a text has identifiers for names, and each method body is cut out of the
text between two places at which no bracket is open (`ClassDecl.wellFormed_of_parse`). What is found
out about each member where it is read holds of all members of the class (`Read.classFile_members`).
-/

namespace ClassdefDoc

open List Body DottedName Name
open ClassDecl (ofTokens parse)

variable {limit inner : Nat} {name : Text} {t : Token} {s : Scanner} {w : Keyword} {kind : BlockKind}

variable {text : Text} {c : ClassDecl} {close : Token} {limits : Limits} {pieces : List BodyPiece}
  {rest tokens ts : List Token}

/-! ## Bodies -/

/-- The body is what lies between two places of `text` outside brackets, the second before an `end`. -/
structure Body.CutBetween (text : Text) (b : Body) (s : Scanner) (ts : List Token) (s' : Scanner)
    (close : Token) (s'' : Scanner) : Prop where
  inText : s.Over text
  opened : s.brackets = []
  chain : Chain Scanner.step s ts s'
  closed : s'.brackets = []
  step : Scanner.step s' = .ok (.item close s'')
  kind : close.kind = .keyword .close
  scanned : ∃ before after, scan text = .ok (before ++ ts ++ close :: after)
  pieces : ∃ pieces, cut text close.offset s.cursor.offset ts = some pieces ∧
    b.pieces = joinCode pieces

def Body.CutFrom (text : Text) (b : Body) : Prop := ∃ s ts s' close s'', b.CutBetween text s ts s' close s''

/-- What the search for the end of a body does with a token depends on its
kind and the constructs that are open. -/
theorem Body.splitAtEnd_cons (limit : Nat) (name : Text) (inner : Nat) (k : TokenKind) :
    (∃ n, k ≠ .eof ∧ ∀ t ts, t.kind = k →
        splitAtEnd limit name inner (t :: ts) = (splitAtEnd limit name n ts).map fun r => (t :: r.1, r.2)) ∨
      (k = .keyword .close ∧ ∀ t ts, t.kind = k → splitAtEnd limit name inner (t :: ts) = .ok ([], t, ts)) ∨
      ∃ cause, (∀ b, cause ≠ .broken b) ∧ ∀ t ts, t.kind = k →
        splitAtEnd limit name inner (t :: ts) = .error ⟨cause, t.span.start⟩ := by
  cases k with
  | eof =>
    exact .inr (.inr ⟨.unexpectedEnd _,
      fun _ => by rintro ⟨⟩, fun t ts ht => by simp only [splitAtEnd, ht]; rfl⟩)
  | keyword w =>
    by_cases hclose : w = .close
    · subst hclose
      cases inner with
      | zero => exact .inr (.inl ⟨rfl, fun t ts ht => by simp only [splitAtEnd, ht]⟩)
      | succ n => exact .inl ⟨n, by rintro ⟨⟩, fun t ts ht => by simp only [splitAtEnd, ht]⟩
    · by_cases hopens : w.opensConstruct
      · by_cases hlimit : limit < inner + 2
        · exact .inr (.inr ⟨.unsupported _, fun _ => by rintro ⟨⟩, fun t ts ht => by
            simp only [splitAtEnd, ht, hopens, hlimit, if_true]; rfl⟩)
        · refine .inl ⟨inner + 1, by rintro ⟨⟩, fun t ts ht => ?_⟩
          simp only [splitAtEnd, ht, hopens, hlimit, if_true, if_false]
      · refine .inl ⟨inner, by rintro ⟨⟩, fun t ts ht => ?_⟩
        simp only [splitAtEnd, ht, hopens, Bool.false_eq_true, if_false]
  | _ => exact .inl ⟨inner, by rintro ⟨⟩, fun t ts ht => by simp only [splitAtEnd, ht]⟩

section

variable (h : splitAtEnd limit name inner ts = .ok (tokens, close, rest))
include h

/-- What closes a body does not depend on what follows. -/
theorem Body.splitAtEnd_append : ts = tokens ++ close :: rest ∧
      close.kind = .keyword .close ∧ ∀ us, splitAtEnd limit name inner (tokens ++ close :: us) = .ok (tokens,
        close, us) := by
  induction ts generalizing inner tokens with
  | nil => cases h
  | cons t ts ih =>
    obtain ⟨n, -, hkeep⟩ | ⟨hkind, hclose⟩ | ⟨_, -, herror⟩ := splitAtEnd_cons limit name inner t.kind
    · rw [hkeep t ts rfl] at h
      cases hrest : splitAtEnd limit name n ts with
      | error e => simp [hrest, Except.map] at h
      | ok r =>
        obtain ⟨tokens, close, rest⟩ := r
        rw [hrest] at h
        cases h
        obtain ⟨rfl, hkind, hsame⟩ := ih hrest
        exact ⟨rfl, hkind, fun us => by rw [cons_append, hkeep t _ rfl, hsame]; rfl⟩
    · cases (hclose t ts rfl).symm.trans h
      exact ⟨rfl, hkind, fun us => hclose close us rfl⟩
    · cases (herror t ts rfl).symm.trans h

theorem Body.suffix_of_splitAtEnd : rest <:+ ts :=
  ⟨tokens ++ [close], by rw [(splitAtEnd_append h).1, append_assoc]; rfl⟩

end

/-- A token of the comment that opens a body is layout, and what follows it is part of that comment too. -/
theorem Body.docLength_cons (previous : Option Nat) (t : Token) (ts : List Token) :
    docLength previous (t :: ts) = 0 ∨ (Read.isLayout t.kind ∧ t.kind.isContinuation = false ∧
      ∃ line, docLength previous (t :: ts) ≤ docLength line ts + 1) := by
  rw [Body.docLength.eq_def]
  simp only
  split
  all_goals rename_i hkind
  iterate 3
    · split
      · exact .inl rfl
      · rename_i hrest
        exact .inr ⟨by simp [hkind, Read.isLayout], by simp [hkind, TokenKind.isContinuation], previous,
          by omega⟩
  · split_ifs
    · exact .inr ⟨by simp [hkind, Read.isLayout], by simp [hkind, TokenKind.isContinuation], _, le_rfl⟩
    · exact .inl rfl
  · split_ifs
    · exact .inr ⟨by simp [hkind, Read.isLayout], by simp [hkind, TokenKind.isContinuation], none,
        by omega⟩
    · exact .inl rfl
  · exact .inl rfl

theorem Body.isLayout_of_mem_doc {previous : Option Nat} (h : t ∈ ts.take (docLength previous ts)) :
    Read.isLayout t.kind ∧ t.kind.isContinuation = false := by
  induction ts generalizing previous with
  | nil => simp at h
  | cons u ts ih =>
    rcases docLength_cons previous u ts with hzero | ⟨hlayout, hcont, line, hle⟩
    · rw [hzero] at h
      cases h
    · rcases mem_cons.1 (take_subset_take_left _ hle h) with rfl | h
      · exact ⟨hlayout, hcont⟩
      · exact ih h

theorem Scanner.Yields.split (hs : s.Over text) (h : s.Yields (ts ++ t :: rest)) (hkind : t.kind ≠ .eof) :
    ∃ s' s'', Chain Scanner.step s ts s' ∧ Scanner.step s' = .ok (.item t s'') ∧ s''.Yields rest := by
  obtain ⟨s', hchain, hyields⟩ := h.of_append
  cases hyields with
  | done hdone =>
    obtain ⟨past, ahead, hcursor, -⟩ := hs.of_chain hchain
    obtain ⟨-, rfl, -⟩ := Scanner.ended_of_step hcursor hdone
    exact absurd rfl hkind
  | item hstep hrest => exact ⟨s', _, hchain, hstep, hrest⟩

/-- Layout leaves the brackets as they are, and the scanner stands behind the last of it. -/
theorem Scanner.chain_layout {s' : Scanner} (h : Chain Scanner.step s ts s') (hs : s.Over text)
    (hts : ∀ t ∈ ts, Read.isLayout t.kind ∧ t.kind.isContinuation = false) :
    s'.brackets.map (·.1) = s.brackets.map (·.1) ∧
      s'.cursor.offset = (ts.getLast?.map Token.endOffset).getD s.cursor.offset := by
  induction h with
  | nil s => exact ⟨rfl, rfl⟩
  | @cons s t next ts s' hstep hchain ih =>
    obtain ⟨⟨hlayout, hcont⟩, hts⟩ := forall_mem_cons.1 hts
    obtain ⟨hbrackets, hoffset⟩ := ih (hs.of_step hstep) hts
    have hafter := Scanner.after_of_step hs hstep
    rw [(Read.after_of_isLayout hlayout).2, Option.some.injEq] at hafter
    refine ⟨hbrackets.trans hafter.symm, hoffset.trans ?_⟩
    rw [Scanner.offset_of_step hs hstep hcont, getLast?_cons]
    cases ts.getLast? <;> rfl

/-- A body is cut out behind the token before it or behind the comment that opens it. -/
theorem Body.cutBetween_of_cut {b : Body} {before : Token}
    (h : AheadAt text [] before.endOffset (tokens ++ close :: rest)) (hkind : close.kind = .keyword .close)
    (hcut : cut text close.offset (Body.start tokens (some before) close)
      (tokens.drop (docLength none tokens)) = some pieces)
    (hb : b.pieces = joinCode pieces) :
    (∃ s s' s'', b.CutBetween text s (tokens.drop (docLength none tokens)) s' close s'') ∧ Ahead text
    [] rest := by
  obtain ⟨past, s, hpast, hstack, hoffset, hyields⟩ := h
  have hover := (Scanner.over_start text).of_chain hpast
  have hscan := scan_of_yields hpast hyields
  obtain ⟨s', s'', hchain, hclose, hrest⟩ := hyields.split hover (by simp [hkind])
  rw [← take_append_drop (docLength none tokens) tokens] at hchain
  obtain ⟨m, hchainDoc, hchainBody⟩ := hchain.of_append
  obtain ⟨hbrackets, hstart⟩ := Scanner.chain_layout hchainDoc hover fun t ht => isLayout_of_mem_doc ht
  have hahead : Ahead text (s'.brackets.map (·.1)) (close :: rest) :=
    ⟨_, _, s', hpast.append (hchainDoc.append hchainBody), rfl, rfl, .item hclose hrest⟩
  have hclosed := hahead.keyword hkind
  have hcutAt : cut text close.offset m.cursor.offset (tokens.drop (docLength none tokens)) =
      some pieces := by
    rw [← hcut, hstart, hoffset, Body.start]
    cases (tokens.take (docLength none tokens)).getLast? <;> rfl
  refine ⟨⟨m, s', s'', hover.of_chain hchainDoc, ?_, hchainBody,
    ?_, hclose, hkind, ⟨past ++ tokens.take (docLength none tokens), rest, ?_⟩, pieces, hcutAt, hb⟩, ?_⟩
  · exact map_eq_nil_iff.1 (hbrackets.trans hstack)
  · exact map_eq_nil_iff.1 hclosed
  · rw [hscan, append_assoc past, take_append_drop, append_assoc]
  · rw [hclosed] at hahead
    exact hahead.tail (by simp [hkind]) (by simp [hkind, Bracket.after])

theorem Read.body_spec :
    Triple (After text []) (body limit text name) fun b r => b.CutFrom text ∧ At text [] r := by
  rintro r b s ⟨last, hlast, hat⟩ hrun
  obtain ⟨tokens, close, rest, pieces, hsplit, hcut, rfl, rfl⟩ := body_eq_ok_iff.1 hrun
  obtain ⟨happend, hkind, -⟩ := Body.splitAtEnd_append hsplit
  rw [happend] at hat
  rw [hlast] at hcut
  obtain ⟨⟨s₁, s₂, s₃, hbetween⟩, hrest⟩ := cutBetween_of_cut (b := ⟨_, joinCode pieces⟩) hat hkind hcut rfl
  exact ⟨⟨s₁, _, s₂, close, s₃, hbetween⟩, hrest⟩

/-! ## Members -/

structure Method.WellFormed (text : Text) (m : Method) : Prop where
  params : ∀ p ∈ m.params, isIdentifier p ∨ p = ['~']
  returns : ∀ p ∈ m.returns, isIdentifier p
  accessor : ∀ a ∈ m.accessor, isIdentifier a.property
  body : ∀ b ∈ m.body, b.CutFrom text

def Detail.WellFormed (text : Text) : Detail → Prop
  | property type _ => ∀ n ∈ type, n.IsValid
  | method m => m.WellFormed text
  | event => True

structure Member.WellFormed (text : Text) (m : Member) : Prop where
  name : ∃ n : DottedName, n.IsValid ∧ m.name = n.dotted
  detail : m.detail.WellFormed text

/-- Whether the methods of a block are abstract. -/
def Block.isAbstract (b : Block) : Bool := b.kind == .methods && Attribute.anyAsserted b.attributes "Abstract"

namespace Read

variable {stack₀ : List Bracket} {r₀ : Reader} {isAbstract : Bool} {k : TokenKind} {P : Reader → Prop}

/-- The next token ends a statement. -/
def Ends (r : Reader) : Prop := ∃ u, Sees u r ∧ endsStatement u.kind

theorem endStatement_ends : Triple P endStatement fun _ r => P r ∧ Ends r :=
  peek_spec.bind fun u => .ite (fun hu => .pure fun _ hr => ⟨hr.1, u, hr.2, hu⟩) fun _ => .unexpected

theorem property_moved : Triple (Moved text stack₀ r₀ []) (property text)
    fun m r => m.WellFormed text ∧ Moved text stack₀ r₀ [] r ∧ Ends r := by
  refine expectIdentifier_moved.bind fun x => .assume fun hx => ?_
  refine (propertyType_moved.pre fun _ hr => hr.toMoved).bind fun type =>
    .assume fun htype => sees_spec.bind fun b => ?_
  extract_lets ended
  have hended (value : Option Text) : Triple (Moved text stack₀ r₀ []) (ended value)
      fun m r => m.WellFormed text ∧ Moved text stack₀ r₀ [] r ∧ Ends r :=
    lastLine_spec.bind fun _ => endStatement_ends.bind fun _ => .pure fun _ hr =>
      ⟨⟨exists_of_isIdentifier hx, htype⟩, hr⟩
  refine .ite (fun hb => ?_) fun _ => (Triple.pure fun _ hr => hr.1).bind hended
  refine ((discard_moved (by simp) rfl rfl).pre fun r hr => ⟨hr.1, hr.2 hb⟩).bind fun _ => ?_
  exact Triple.bind (.map (defaultValue_moved.pre fun _ hr => hr.toMoved)) hended

theorem event_moved : Triple (Moved text stack₀ r₀ []) event
    fun m r => m.WellFormed text ∧ Moved text stack₀ r₀ [] r ∧ Ends r :=
  expectIdentifier_moved.bind fun _ => .assume fun hx => lastLine_spec.bind fun _ =>
    endStatement_ends.bind fun _ =>
    .pure fun _ hr => ⟨⟨exists_of_isIdentifier hx, trivial⟩, hr.1.toMoved, hr.2⟩

/-! ## Methods -/

theorem functionMember_spec (hk : k ≠ .eof) (hafter : Bracket.after [] k = some []) :
    Triple (fun r => At text [] r ∧ SeesKind k r) (functionMember limits text isAbstract)
      fun m r => m.WellFormed text ∧ At text [] r := by
  refine (advance_kind_spec hk hafter).bind fun first => ?_
  refine (signature_spec.pre fun _ hr => hr.at).bind fun s => .assume fun hs => ?_
  refine lastLine_spec.bind fun _ => endHeader_spec.bind fun _ => ?_
  refine .ite (fun _ => ?_) fun _ => ?_
  · refine (Triple.pure (Q := fun o r => o = none ∧ At text [] r) fun _ hr => ⟨rfl, hr.at⟩).bind
      fun body => .assume fun hbody => .pure fun _ hr => ⟨⟨hs.name, ?_⟩, hr⟩
    exact ⟨hs.params, hs.returns, hs.accessor, by simp [hbody]⟩
  · refine (Triple.map (f := some) (R := fun o r => (∀ b ∈ o, b.CutFrom text) ∧ At text [] r) ?_).bind
      fun body => .assume fun hbody => .pure fun _ hr => ⟨⟨hs.name, ?_⟩, hr⟩
    · exact body_spec.mono fun b _ hr => ⟨fun _ h => Option.some.inj h ▸ hr.1, hr.2⟩
    · exact ⟨hs.params, hs.returns, hs.accessor, hbody⟩

theorem prototype_moved : Triple (Moved text stack₀ r₀ []) (prototype isAbstract)
    fun m r => m.WellFormed text ∧ Moved text stack₀ r₀ [] r ∧ Ends r := by
  refine peek_spec.bind fun first => (signature_moved.pre fun _ hr => hr.1).bind fun s => .assume fun hs => ?_
  refine lastLine_spec.bind fun _ => endStatement_ends.bind fun _ =>
    .pure fun _ hr => ⟨⟨hs.name, ?_⟩, hr.1.toMoved, hr.2⟩
  exact ⟨hs.params, hs.returns, hs.accessor, by simp⟩

/-! ## Blocks and classes -/

/-- A word that stands for a keyword is taken like any other word. -/
theorem after_of_structural? (h : structural? k = some w) : k ≠ .eof ∧ Bracket.after [] k = some [] := by
  unfold structural? at h
  split at h
  · exact ⟨by simp, rfl⟩
  · exact ⟨by simp, rfl⟩
  · cases h

theorem isComment_of_structural? (hword : structural? t.kind = some w) : t.kind.isComment = false := by
  cases hk : t.kind <;> simp_all [structural?, TokenKind.isComment]

theorem isContinuation_of_structural? (hword : structural? k = some w) : k.isContinuation = false := by
  cases k with
  | continuation => cases hword
  | _ => rfl

theorem Meets.at_take {r q s : Reader} (h : Meets r t q) (hr : At text [] r)
    (hword : structural? t.kind = some w) (htake : discard advance q = .ok ((), s)) : At text [] s := by
  obtain ⟨hk, hafter⟩ := after_of_structural? hword
  exact (take_spec hk hafter ⟨h.at hr, t, h.sees, rfl⟩ htake).at

theorem member?_spec :
    Triple (At text []) (member? limits text kind isAbstract)
      (Round (·.WellFormed text) (At text []) (At text [])) := by
  intro r o s hr hrun
  cases member?_meeting rfl hrun with
  | close hq hword htake => exact .none (hq.at_take hr hword htake)
  | @item t q s x m hq hx hm =>
    have statement (h : Triple (Moved text [] q []) x fun m r => m.WellFormed text ∧
        Moved text [] q [] r ∧ Ends r) :
        m.WellFormed text ∧ At text [] s :=
      (h (.refl (hq.at hr)) hm).imp_right fun h => h.1.place
    suffices h : m.WellFormed text ∧ At text [] s from .some h.1 h.2
    cases hx with
    | function hword =>
      obtain ⟨hk, hafter⟩ := after_of_structural? hword
      exact functionMember_spec hk hafter ⟨hq.at hr, t, hq.sees, rfl⟩ hm
    | property => exact statement property_moved
    | event => exact statement event_moved
    | prototype => exact statement prototype_moved

variable {limits : Limits} {α : Type} {J : Reader → Prop}

/-- What holds of a reader between statements stays where the reader passes a part of a header, or layout. -/
structure Kept (text : Text) (J : Reader → Prop) : Prop where
  place : ∀ r, J r → At text [] r
  moved : ∀ r r', J r → Moved text [] r [] r' → J r'
  layout : Triple J (skipLayout true) fun _ r => J r

theorem kept_at : Kept text (At text []) := ⟨fun _ hr => hr, fun _ _ _ hr => hr.place, skipLayout_spec⟩

theorem Kept.exists {ι : Type} {J : ι → Reader → Prop} (h : ∀ i, Kept text (J i)) :
    Kept text fun r => ∃ i, J i r where
  place := by
    rintro r ⟨i, hr⟩
    exact (h i).place r hr
  moved := by
    rintro r r' ⟨i, hr⟩ hmoved
    exact ⟨i, (h i).moved r r' hr hmoved⟩
  layout := .exists_pre fun i => (h i).layout.mono fun _ _ hr => ⟨i, hr⟩

namespace Kept

variable (h : Kept text J)
include h

theorem and (p : Prop) : Kept text fun r => p ∧ J r where
  place r hr := h.place r hr.2
  moved r r' hr hmoved := ⟨hr.1, h.moved r r' hr.2 hmoved⟩
  layout := .assume fun hp => h.layout.mono fun _ _ hr => ⟨hp, hr⟩

theorem take (hk : k ≠ .eof) (hcomment : k.isComment = false) (hafter : Bracket.after [] k = some []) :
    Triple (fun r => J r ∧ SeesKind k r) advance fun _ r => J r := by
  rintro r a r' ⟨hr, hsees⟩ hrun
  exact h.moved r r' hr (take_moved hk (by simp [hcomment]) hafter ⟨.refl (h.place r hr), hsees⟩ hrun).toMoved

theorem takeWord (hword : structural? t.kind = some w) :
    Triple (fun r => J r ∧ Sees t r) advance fun _ r => J r := by
  obtain ⟨hk, hafter⟩ := after_of_structural? hword
  exact (h.take hk (isComment_of_structural? hword) hafter).seen rfl

theorem header {A : α → Prop} {m : Read α}
    (hm : ∀ r₁, Triple (Moved text [] r₁ []) m fun a r => A a ∧ Moved text [] r₁ [] r) :
    Triple J m fun a r => A a ∧ J r := by
  intro r a r' hr hrun
  exact (hm r (.refl (h.place r hr)) hrun).imp_right (h.moved r r' hr)

theorem attributes : Triple J (attributes text) fun _ r => J r :=
  (h.header (A := fun _ => True) fun _ => attributes_moved.mono fun _ _ hr => ⟨trivial, hr⟩).mono
    fun _ _ hr => hr.2

theorem dottedName {what : Text} : Triple J (dottedName what) fun n r => n.IsValid ∧ J r :=
  h.header fun _ => dottedName_moved.mono fun _ _ hr => hr.imp_right Landed.toMoved

theorem superclass? : Triple J superclass? (Round IsValid J J) := by
  refine peek_spec.bind fun t => ?_
  extract_lets found
  have hfound (more : Bool) : Triple J (found more) (Round IsValid J J) := by
    refine .ite (fun _ => ?_) fun _ => .pure fun _ hr => .none hr
    exact h.layout.bind fun _ => .map (h.dottedName.mono fun _ _ hr => .some hr.1 hr.2)
  have separated {k : TokenKind} (hkind : t.kind = k) (hk : k ≠ .eof) (hcomment : k.isComment = false)
      (hafter : Bracket.after [] k = some []) : Triple (fun r => J r ∧ Sees t r)
        (do discard advance; let more ← pure true; found more) (Round IsValid J J) :=
    Triple.bind (.discard ((h.take hk hcomment hafter).seen hkind)) fun _ =>
      (Triple.pure fun _ hr => hr).bind hfound
  split
  · exact separated ‹_› (by simp) rfl rfl
  · exact separated ‹_› (by simp) rfl rfl
  · refine (Triple.get (Q := fun _ r => J r) fun _ hr => hr.1).bind fun r => ?_
    exact (Triple.pure fun _ hr => hr).bind hfound
  · exact (Triple.pure fun _ hr => hr.1).bind hfound

theorem superclasses : Triple J superclasses fun ns r => (∀ n ∈ ns, n.IsValid) ∧ J r := by
  refine .ifSees ?_ (.pure fun _ hr => ⟨by simp, hr⟩)
  refine Triple.bind (Q := fun _ r => J r) (.discard (h.take (by simp) rfl rfl)) fun _ => ?_
  refine h.dottedName.bind fun first => .assume fun hfirst =>
    (Triple.many h.superclass?).bind fun rest => .pure fun _ hr => ?_
  exact ⟨forall_mem_cons.2 ⟨hfirst, hr.1⟩, hr.2⟩

end Kept

/-- The head of a class, from its word on. -/
theorem classHead_kept {L : Reader → Prop} {J : Token → Reader → Prop}
    (hlead : Triple P (skipLayout true) fun _ r => L r)
    (hopen : ∀ t, t.kind = .keyword .classdef → Triple (fun r => L r ∧ Sees t r) advance fun _ r => J t r)
    (hJ : ∀ t, Kept text (J t)) :
    Triple P (classHead text) fun c r => (c.blocks = [] ∧ c.comments = []) ∧ isIdentifier c.name ∧
      (∀ n ∈ c.superclasses, n.IsValid) ∧ ∃ t, (t.kind = .keyword .classdef ∧ c.header.first = t.line) ∧
      J t r := by
  refine hlead.bind fun _ => peek_spec.bind fun t => ?_
  split
  · rename_i hkind
    refine Triple.bind (.discard (hopen t hkind)) fun _ => (hJ t).attributes.bind fun attributes => ?_
    refine ((hJ t).header fun _ => expectIdentifier_moved.mono fun _ _ hr => hr.imp_right Landed.toMoved).bind
      fun name => .assume fun hname => (hJ t).superclasses.bind fun superclasses => .assume fun hsuper => ?_
    exact lastLine_spec.bind fun _ => endHeader_spec.bind fun _ =>
      .pure fun _ hr => ⟨⟨rfl, rfl⟩, hname, hsuper, t, ⟨hkind, rfl⟩, hr⟩
  · exact .refuse_bind
  · exact .refuse_bind

theorem classHead_spec : Triple (At text []) (classHead text) fun c r => ((c.blocks = [] ∧ c.comments = []) ∧
    isIdentifier c.name ∧ ∀ n ∈ c.superclasses, n.IsValid) ∧ At text [] r := by
  refine (classHead_kept skipLayout_spec (fun t hkind => ?_) fun _ => kept_at).mono ?_
  · exact kept_at.takeWord (by rw [hkind]; rfl)
  · rintro c r ⟨hempty, hname, hsuper, t, -, hr⟩
    exact ⟨⟨hempty, hname, hsuper⟩, hr⟩

/-- What holds of a reader stays where the reader passes a header of a block, or layout. -/
structure Passable (text : Text) (J : Reader → Prop) : Prop where
  word : ∀ {t w}, structural? t.kind = some w → Triple (fun r => J r ∧ Sees t r) advance fun _ r => J r
  attributes : Triple J (attributes text) fun _ r => J r
  layout : Triple J (skipLayout true) fun _ r => J r

theorem Kept.passable (h : Kept text J) : Passable text J := ⟨h.takeWord, h.attributes, h.layout⟩

section Blocks

variable {I C : List Member → Reader → Prop} {A : BlockKind → Bool → Member → Prop}
  (hI : ∀ ms, Passable text (I ms))
  (hmember : ∀ ms kind isAbstract, Triple (I ms) (member? limits text kind isAbstract) fun o r =>
    I (ms ++ o.toList) r ∧ ∀ m ∈ o.toList, A kind isAbstract m)
include hI hmember

theorem block_kept (ms : List Member) (hword : structural? t.kind = some w) :
    Triple (fun r => I ms r ∧ Sees t r) (block limits text kind) fun b r =>
      I (ms ++ b.members) r ∧ ∀ m ∈ b.members, A b.kind b.isAbstract m := by
  refine ((hI ms).word hword).bind fun keyword => (hI ms).attributes.bind fun attributes =>
    endHeader_spec.bind fun _ => ?_
  have hmembers (isAbstract : Bool) : Triple (I ms) (many (member? limits text kind isAbstract)) fun as r =>
      I (ms ++ as) r ∧ ∀ m ∈ as, A kind isAbstract m := by
    refine (Triple.manyFrom (I := fun as r => I (ms ++ as) r ∧ ∀ m ∈ as, A kind isAbstract m)
      fun as => ?_).pre fun _ hr => by simpa using hr
    rintro r o s ⟨hr, has⟩ hrun
    obtain ⟨hs, ho⟩ := hmember _ kind isAbstract hr hrun
    cases o with
    | none => exact ⟨by simpa using hs, has⟩
    | some a => exact ⟨by simpa using hs, forall_mem_append.2 ⟨has, ho⟩⟩
  exact (hmembers _).bind fun members => .pure fun _ hr => hr

/-- The blocks of a class, up to the `end` that closes it. -/
theorem blocks_kept (hclose : ∀ ms t, structural? t.kind = some .close →
      Triple (fun r => I ms r ∧ Fresh r ∧ Sees t r) advance fun _ r => C ms r) :
    Triple (I []) (many (block? limits text name)) fun bs r =>
      C (bs.flatMap (·.members)) r ∧ ∀ b ∈ bs, ∀ m ∈ b.members, A b.kind b.isAbstract m := by
  refine (Triple.manyFrom (I := fun bs r => I (bs.flatMap (·.members)) r ∧
    ∀ b ∈ bs, ∀ m ∈ b.members, A b.kind b.isAbstract m) fun bs => ?_).pre fun _ hr => by simpa using hr
  rintro r o s ⟨hr, hbs⟩ hrun
  cases block?_meeting rfl hrun with
  | close hq hword htake =>
    exact ⟨Triple.discard (R := fun _ => C _) (hclose _ _ hword) ⟨(hI _).layout hr hq.skip,
      hq.fresh, hq.sees⟩ htake, hbs⟩
  | item hq hx hb =>
    cases hx with
    | block hword =>
      obtain ⟨hs, hb⟩ := block_kept hI hmember _ hword ⟨(hI _).layout hr hq.skip, hq.sees⟩ hb
      exact ⟨by simpa using hs, forall_mem_append.2 ⟨hbs, forall_mem_singleton.2 hb⟩⟩

end Blocks

section Members

variable {A : Member → Prop}
  (hA : ∀ kind isAbstract,
  Triple (At text []) (member? limits text kind isAbstract) (Round A (At text []) (At text [])))
include hA

theorem member?_at (kind : BlockKind) (isAbstract : Bool) :
    Triple (At text []) (member? limits text kind isAbstract) fun o r =>
      At text [] r ∧ ∀ m ∈ o.toList, A m := by
  refine (hA kind isAbstract).mono fun o r hr => ?_
  cases o with
  | none => exact ⟨hr.stop rfl, by simp⟩
  | some m => exact ⟨(hr.item m rfl).2, forall_mem_singleton.2 (hr.item m rfl).1⟩

theorem blocks_members : Triple (At text []) (many (block? limits text name)) fun bs r =>
    (∀ m ∈ bs.flatMap (·.members), A m) ∧ At text [] r := by
  refine (blocks_kept (I := fun _ => At text []) (C := fun _ => At text []) (fun _ => kept_at.passable)
    (fun _ => member?_at hA) fun _ t hword => ?_).mono fun bs r hr => ⟨fun m hm => ?_, hr.1⟩
  · exact (kept_at.takeWord hword).pre fun _ hr => ⟨hr.1, hr.2.2⟩
  · obtain ⟨b, hb, hm⟩ := mem_flatMap.1 hm
    exact hr.2 b hb m hm

theorem classFile_members : Triple (At text []) (classFile limits text) fun c _ =>
    isIdentifier c.name ∧ (∀ n ∈ c.superclasses, n.IsValid) ∧ ∀ m ∈ c.members, A m := by
  rw [classFile_eq_classPart, classPart_eq_classHead]
  refine Triple.bind (Q := fun c _ => isIdentifier c.name ∧ (∀ n ∈ c.superclasses, n.IsValid) ∧
    ∀ m ∈ c.members, A m)
    (classHead_spec.bind fun c => .assume fun hc => ?_) fun c =>
      .given fun hc => .skip fun _ => .pure fun _ _ => hc
  exact (blocks_members hA).bind fun bs => .assume fun hbs =>
    .skip fun _ => .pure fun _ _ => ⟨hc.2.1, hc.2.2, hbs⟩

end Members

theorem block?_at : Triple (At text []) (block? limits text name) fun _ r => At text [] r := by
  intro r o s hr hrun
  cases block?_meeting rfl hrun with
  | close hq hword htake => exact hq.at_take hr hword htake
  | item hq hx hb =>
    cases hx with
    | block hword =>
      exact (block_kept (I := fun _ => At text []) (fun _ => kept_at.passable)
        (fun _ => member?_at fun _ _ => member?_spec) [] hword ⟨hq.at hr, hq.sees⟩ hb).1

end Read

/-- The names of a class are identifiers, and its members are well formed. -/
structure ClassDecl.WellFormed (text : Text) (c : ClassDecl) : Prop where
  name : isIdentifier c.name
  superclasses : ∀ n ∈ c.superclasses, n.IsValid
  members : ∀ m ∈ c.members, m.WellFormed text

/-- Tokens make a class if the reader accepts them and all accessors are in order. -/
theorem ClassDecl.ofTokens_eq_ok_iff :
    ofTokens limits text tokens = .ok c ↔ tokens.getLast?.map (·.kind) = some .eof ∧
      (∃ r, Read.classFile limits text ⟨tokens, none, []⟩ = .ok (c, r)) ∧
      c.members.findSome? c.accessorFault? = none := by
  unfold ofTokens
  by_cases hlast : tokens.getLast?.map (·.kind) = some .eof
  · simp only [ne_eq, hlast, not_true_eq_false, ↓reduceIte, true_and]
    cases hfile : Read.classFile limits text ⟨tokens, none, []⟩ with
    | error e => simp [StateT.run, hfile, bind, Except.bind]
    | ok x =>
      obtain ⟨d, r⟩ := x
      simp only [StateT.run, hfile, bind, Except.bind]
      cases hfault : d.members.findSome? d.accessorFault? with
      | none =>
        constructor
        · rintro ⟨⟩
          exact ⟨⟨r, rfl⟩, hfault⟩
        · rintro ⟨⟨_, ⟨⟩⟩, -⟩
          rfl
      | some f =>
        constructor
        · rintro ⟨⟩
        · rintro ⟨⟨_, ⟨⟩⟩, hnone⟩
          rw [hfault] at hnone
          cases hnone
  · constructor
    · intro h
      simp [hlast, bind, Except.bind, throw, throwThe, MonadExceptOf.throw] at h
    · rintro ⟨h, -⟩
      exact absurd h hlast

theorem ClassDecl.parse_eq_ok_iff :
    parse limits text = .ok c ↔
      ∃ tokens, scan text = .ok tokens ∧ ofTokens limits text tokens = .ok c := by
  unfold parse
  cases scan text with
  | error e => simp [bind, Except.bind]
  | ok tokens => simp [bind, Except.bind]

/-- A class that is parsed is read from the tokens of its text. -/
theorem ClassDecl.exists_run_of_parse (h : parse limits text = .ok c) :
    ∃ tokens r, scan text = .ok tokens ∧ Read.classFile limits text ⟨tokens, none, []⟩ = .ok (c, r) := by
  obtain ⟨tokens, hscan, htokens⟩ := ClassDecl.parse_eq_ok_iff.1 h
  obtain ⟨-, ⟨r, hfile⟩, -⟩ := ClassDecl.ofTokens_eq_ok_iff.1 htokens
  exact ⟨tokens, r, hscan, hfile⟩

/-- What is read from a text is well formed. -/
theorem ClassDecl.wellFormed_of_parse (h : parse limits text = .ok c) : c.WellFormed text := by
  obtain ⟨tokens, r, hscan, hfile⟩ := ClassDecl.exists_run_of_parse h
  obtain ⟨hname, hsuper, hmembers⟩ :=
    Read.classFile_members (fun _ _ => Read.member?_spec) (ahead_of_scan hscan) hfile
  exact ⟨hname, hsuper, hmembers⟩

end ClassdefDoc
