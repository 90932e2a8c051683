import ClassdefDoc.Proofs.Parse.Follow
import ClassdefDoc.Proofs.Scan.Order

/-!
# Where the bodies of a class are read

`bodyTokens?` finds the tokens of a body by the place where its function is declared:
they follow the signature and end before the `end` that closes the function. Every
body of a class is cut out of these tokens (`ClassDecl.exists_cut_of_parse`).
-/

namespace ClassdefDoc

open List

variable {b : Body} {before rest inner : List Token} {c : ClassDecl}
  {limits : Limits} {m : Member} {text : Text} {t close : Token}

/-- The tokens of the body of the function that is declared at `p`, and the `end` that closes it. -/
def bodyTokens? (limits : Limits) (tokens : List Token) (p : Position) : Option (List Token × Token) := do
  let function : Read Read.Signature := do discard Read.advance; Read.signature
  let (s, r) ← (function ⟨tokens.dropWhile (fun t => decide (t.span.start ≠ p)), none, []⟩).toOption
  let (inner, close, _) ← (Body.splitAtEnd limits.nesting s.name 0 r.ahead).toOption
  pure (inner, close)

/-- The offset of the `end` that closes the body of a member. -/
def Member.bodyEnd? (limits : Limits) (tokens : List Token) (m : Member) : Option Nat :=
  m.body?.bind fun _ => (bodyTokens? limits tokens m.position).map (·.2.offset)

/-- A token of a text is the first one at its place. -/
theorem dropWhile_start_of_scan (h : scan text = .ok (before ++ t :: rest))
    (ht : t.kind ≠ .eof) : (before ++ t :: rest).dropWhile (fun u => decide (u.span.start ≠ t.span.start)) =
    t :: rest := by
  have hbefore : ∀ u ∈ before, decide (u.span.start ≠ t.span.start) := by
    intro u hu
    have hprecedes := (pairwise_append.1 (precedes_of_scan h)).2.2 u hu t mem_cons_self ht
    refine decide_eq_true fun heq => Position.Before.irrefl t.span.start ?_
    rw [← heq]
    exact heq ▸ hprecedes.before
  rw [dropWhile_append_of_pos hbefore, dropWhile_cons_of_neg (by simp)]

/-- A token is found by its place. -/
theorem eq_of_start {rest' : List Token} {t' : Token} (h : scan text = .ok (before ++ t :: rest))
    (ht : t.kind ≠ .eof) (hsuffix : t' :: rest' <:+ before ++ t :: rest)
    (ht' : t'.kind ≠ .eof) (hstart : t.span.start = t'.span.start) :
    t' :: rest' = t :: rest := by
  have hdrop := dropWhile_start_of_scan h ht
  obtain ⟨past, hpast⟩ := hsuffix
  rw [← hpast] at h hdrop
  rw [← hdrop, hstart, dropWhile_start_of_scan h ht']

namespace Shift

/-- A text with itself. -/
def same (text : Text) (tokens : List Token) : Shift where
  text := text
  text' := text
  tokens := tokens
  tokens' := tokens
  start := 0
  lines := 0
  lines' := 0
  offset := Eq
  opens := Eq
  opens_of_offset := id
  isSome_slice? := by
    rintro i _ j _ rfl rfl h
    exact h
  slice?_eq := by
    rintro i _ j _ - rfl rfl
    rfl

variable {text : Text} {tokens : List Token} {r r' : Reader}

theorem same_readers {ts : List Token} (h : ts <:+ tokens) (last : Option Token)
    (comments comments' : List LooseComment) :
    (same text tokens).Readers ⟨ts, last, comments⟩ ⟨ts, last, comments'⟩ := by
  refine ⟨forall₂_same.2 fun t _ => ⟨rfl, rfl, rfl, Nat.zero_le _, rfl⟩, h, h, ?_⟩
  cases last with
  | none => exact .none
  | some t => exact .some ⟨rfl, rfl⟩

/-- Readers at the same place have the same tokens ahead. -/
theorem Readers.ahead_eq (h : (same text tokens).Readers r r') : r'.ahead = r.ahead := by
  have hsuffix : r'.ahead <:+ r.ahead :=
    suffix_of_suffix_length_le h.suffix' h.suffix (by rw [h.ahead.length_eq])
  exact hsuffix.eq_of_length h.ahead.length_eq.symm

end Shift

namespace Read

variable {α : Type} {limits : Limits} {text : Text} {tokens rest : List Token} {r s q : Reader} {m : Member}
  {isAbstract : Bool} {kind : BlockKind}

/-- The tokens of a body stand among all tokens. -/
theorem infix_of_bodyTokens? {p : Position}
    (h : bodyTokens? limits tokens p = some (inner, close)) : inner ++ [close] <:+: tokens := by
  have run {ε β : Type} {x : Except ε β} {a : β} (hx : x.toOption = some a) : x = .ok a := by
    cases x with
    | error => cases hx
    | ok => exact congrArg Except.ok (Option.some.inj hx)
  obtain ⟨⟨signature', r⟩, hfunction, h⟩ := Option.bind_eq_some_iff.1 h
  obtain ⟨⟨inner', close', rest⟩, hsplit, h⟩ := Option.bind_eq_some_iff.1 h
  obtain ⟨rfl, rfl⟩ := Prod.mk.inj (Option.some.inj h)
  obtain ⟨_, q, hadvance, hsignature⟩ := bind_eq_ok_iff.1 (run hfunction)
  have hsuffix := ((taking_signature.suffix hsignature).trans (taking_take.suffix hadvance)).trans
    (dropWhile_suffix _)
  rw [(Body.splitAtEnd_append (run hsplit)).1] at hsuffix
  exact List.IsInfix.trans ⟨[], rest, by simp⟩ hsuffix.isInfix

/-- The function `m` is read: its first word `t` at `q`, its signature at
`q₁` and its body, if it has one, at `q₂`. -/
structure FunctionRun (limits : Limits) (text : Text) (isAbstract : Bool)
    (m : Member) (t : Token) (q q₁ q₂ s : Reader) : Prop where
  take : advance q = .ok (t, q₁)
  run : ∃ signature' line body', signature q₁ = .ok (signature', q₂) ∧ endHeader q₂ = .ok ((), q₂) ∧
    (if isAbstract then pure none else some <$> body limits.nesting text signature'.name : Read (Option Body))
    q₂ = .ok (body', s) ∧
    m = methodOf signature' body' isAbstract ⟨t.line, line⟩ t

theorem functionMember_run (ht : Sees t q) (h : functionMember limits text isAbstract q = .ok (m, s)) :
    ∃ q₁ q₂, FunctionRun limits text isAbstract m t q q₁ q₂ s := by
  obtain ⟨first, q₁, htake, h⟩ := bind_eq_ok_iff.1 h
  obtain ⟨signature', q₂, hsignature, h⟩ := bind_eq_ok_iff.1 h
  obtain ⟨line, q₃, hline, h⟩ := bind_eq_ok_iff.1 h
  obtain ⟨_, q₄, hheader, h⟩ := bind_eq_ok_iff.1 h
  obtain ⟨body', q₅, hbody, ⟨⟩⟩ : ∃ body' q₅,
      (if isAbstract then pure none else some <$> body limits.nesting text signature'.name : Read
      (Option Body)) q₄ = .ok (body', q₅) ∧
        (pure (methodOf signature' body' isAbstract ⟨first.line, line⟩ first) : Read Member) q₅ =
        .ok (m, s) := by
    cases isAbstract <;> exact bind_eq_ok_iff.1 h
  obtain rfl : q₃ = q₂ := lastLine_spec (P := (· = q₂)) rfl hline
  obtain rfl : q₄ = q₃ := endHeader_spec (P := (· = q₃)) rfl hheader
  obtain rfl : first = t := Option.some.inj ((advance_last htake).1.symm.trans ht)
  exact ⟨q₁, q₄, htake, signature', line, body', hsignature, hheader, hbody, rfl⟩

theorem FunctionRun.suffix {q₁ q₂ : Reader}
    (h : FunctionRun limits text isAbstract m t q q₁ q₂ s) : q₂.ahead <:+ q₁.ahead := by
  obtain ⟨_, -, -, hsignature, -⟩ := h.run
  exact taking_signature.suffix hsignature

/-- The parts of a function with a body. -/
theorem of_functionMember (h : functionMember limits text false r = .ok (m, s)) :
    ∃ first q signature' q₁ b, advance r = .ok (first, q) ∧ signature q = .ok (signature', q₁) ∧
      body limits.nesting text signature'.name q₁ = .ok (b, s) ∧
      m.position = first.span.start ∧ m.body? = some b := by
  obtain ⟨first, _, hfirst, -⟩ := bind_eq_ok_iff.1 h
  obtain ⟨q, q₁, htake, signature', line, _, hsignature, -, hbody, rfl⟩ :=
    functionMember_run (advance_last hfirst).1 h
  obtain ⟨b, rfl, hb⟩ := of_map hbody
  exact ⟨first, q, signature', q₁, b, htake, hsignature, hb, rfl, rfl⟩

/-- A body ends at the token that its reader takes last. -/
theorem of_body {limit : Nat} {name : Text} (h : body limit text name r = .ok (b, s)) :
    ∃ inner close, Body.splitAtEnd limit name 0 r.ahead = .ok (inner, close, s.ahead) ∧
      s.last = some close := by
  obtain ⟨inner, close, rest, pieces, hsplit, -, -, rfl⟩ := body_eq_ok_iff.1 h
  exact ⟨inner, close, hsplit, rfl⟩

/-- What is read behind the word of a header is read again where the word stands. -/
theorem exists_header {x : Read α} {A : α → α → Prop}
    {w : Keyword} {a : α} (hscan : scan text = .ok tokens)
    (hx : (Shift.same text tokens).Follows x x A) (hsuffix : r.ahead <:+ tokens)
    (hahead : r.ahead = t :: rest) (hword : structural? t.kind = some w)
    (htake : advance r = .ok (t, q)) (hrun : x q = .ok (a, s)) :
    tokens.dropWhile (fun u => decide (u.span.start ≠ t.span.start)) = t :: rest ∧ ∃ a' s', A a a' ∧
      (do discard advance; x) ⟨t :: rest, none, []⟩ = .ok (a', s') ∧ s'.ahead = s.ahead := by
  have hcont := isContinuation_of_structural? hword
  have hq : q.ahead <:+ tokens := (taking_advance.suffix htake).trans hsuffix
  obtain ⟨a', s', hrun', ha, hreaders⟩ := hx (Shift.same_readers hq q.last q.comments []) hrun
  refine ⟨?_, a', s', ha, bind_eq_ok_iff.2 ⟨(), _, map_eq (a := t) ?_, hrun'⟩, hreaders.ahead_eq⟩
  · obtain ⟨before, rfl⟩ := hsuffix
    rw [hahead]
    exact dropWhile_start_of_scan (hahead ▸ hscan) (after_of_structural? hword).1
  · rw [advance_run, hahead, significant_cons hcont] at htake
    rw [advance_run, significant_cons hcont]
    cases rest <;> cases htake <;> rfl

/-- The tokens of a body are found where its function is declared. -/
theorem bodyTokens?_of_functionMember (hscan : scan text = .ok tokens)
    (hsuffix : r.ahead <:+ tokens) (hahead : r.ahead = t :: rest)
    (hword : structural? t.kind = some .function) (h : functionMember limits text false r = .ok (m, s)) :
    ∃ inner close, bodyTokens? limits tokens m.position = some (inner, close) ∧ s.last = some close ∧
      ∃ first q signature' q₁ b, advance r = .ok (first, q) ∧ signature q = .ok (signature', q₁) ∧
        body limits.nesting text signature'.name q₁ = .ok (b, s) ∧ m.body? = some b ∧
        Body.splitAtEnd limits.nesting signature'.name 0 q₁.ahead = .ok (inner, close, s.ahead) ∧
        m.position = t.span.start ∧
        ∃ q₂, (do discard advance; signature : Read Signature) ⟨t :: rest,
          none, []⟩ = .ok (signature', q₂) ∧ q₂.ahead = q₁.ahead := by
  obtain ⟨first, q, signature', q₁, b, hfirst, hsignature, hbody, hposition, hsome⟩ := of_functionMember h
  obtain ⟨inner, close, hsplit, hlast⟩ := of_body hbody
  obtain rfl : first = t :=
    Option.some.inj ((advance_last hfirst).1.symm.trans
    (sees_of_ahead hahead (isContinuation_of_structural? hword)))
  obtain ⟨hdrop, _, q₂, rfl, hrun, hahead'⟩ :=
    exists_header hscan Shift.follows_signature hsuffix hahead hword hfirst hsignature
  refine ⟨inner, close, ?_, hlast, first, q, signature', q₁,
    b, hfirst, hsignature, hbody, hsome, hsplit, hposition, q₂, hrun, hahead'⟩
  simp only [bodyTokens?, hposition, hdrop, hrun, Except.toOption,
    Option.bind_eq_bind, Option.bind_some, hahead', hsplit, Option.pure_def]

/-- Behind the layout at `r` the function `m` with a body is read. -/
structure Function (limits : Limits) (text : Text) (r : Reader)
    (m : Member) (q : Reader) (t : Token) (rest : List Token) (s : Reader) : Prop where
  skip : skipLayout true r = .ok ((), q)
  ahead : q.ahead = t :: rest
  word : structural? t.kind = some .function
  run : functionMember limits text false q = .ok (m, s)

/-- In an abstract block a function has no body. -/
theorem functionMember_abstract {P : Reader → Prop} :
    Triple P (functionMember limits text true) fun m _ => m.body? = none :=
  .skip fun _ => .skip fun _ => .skip fun _ => .skip fun _ =>
    (Triple.pure (Q := fun o _ => o = none) fun _ _ => rfl).bind
    fun _ => .given fun hnone => .pure fun _ _ => hnone

/-- A member with a body is a function. -/
theorem member?_function (h : member? limits text kind isAbstract r = .ok (some m, s))
    (hbody : m.body?.isSome) :
    ∃ q t rest, Function limits text r m q t rest s := by
  cases member?_meeting rfl h with
  | @item t q _ x _ hq hx hm =>
    have starts (hx : Triple (Sees t) x fun m _ => Starts t m) :
        ∃ q t rest, Function limits text r m q t rest s := by
      rw [(hx hq.sees hm).body] at hbody
      cases hbody
    cases hx with
    | function hword =>
      cases isAbstract with
      | true =>
        rw [functionMember_abstract (P := fun _ => True) trivial hm] at hbody
        cases hbody
      | false =>
        obtain ⟨rest, hrest⟩ := hq.fresh.sees hq.sees
        exact ⟨q, t, rest, hq.skip, hrest, hword, hm⟩
    | property => exact starts property_starts
    | event => exact starts event_starts
    | prototype => exact starts prototype_starts

/-- A member with a body ends at the token that its reader takes last. -/
theorem bodyEnd?_of_member? (hscan : scan text = .ok tokens) (hsuffix : r.ahead <:+ tokens)
    (h : member? limits text kind isAbstract r = .ok (some m, s)) (hbody : m.body?.isSome) :
    m.bodyEnd? limits tokens = s.last.map (·.offset) := by
  obtain ⟨q, t, rest, hq⟩ := member?_function h hbody
  have hqsuffix : q.ahead <:+ tokens := (near_skipLayout.suffix hq.skip).trans hsuffix
  obtain ⟨inner, close, htokens, hlast, -⟩ :=
    bodyTokens?_of_functionMember hscan hqsuffix hq.ahead hq.word hq.run
  obtain ⟨b, hb⟩ := Option.isSome_iff_exists.1 hbody
  rw [Member.bodyEnd?, hb, Option.bind_some, htokens, hlast]
  rfl

/-! ## The members of a class -/

/-- The member is read in some place of the text outside brackets. -/
def Placed (limits : Limits) (text : Text) (m : Member) : Prop :=
  ∃ kind isAbstract r s, At text [] r ∧ member? limits text kind isAbstract r = .ok (some m, s)

theorem member?_placed : Triple (At text []) (member? limits text kind isAbstract)
    (Round (Placed limits text) (At text []) (At text [])) := by
  intro r o s hr hrun
  have hround := member?_spec hr hrun
  refine ⟨fun m hm => ⟨⟨kind, isAbstract, r, s, hr, hm ▸ hrun⟩, (hround.item m hm).2⟩, hround.stop⟩

theorem classFile_placed :
    Triple (At text []) (classFile limits text) fun c _ => ∀ m ∈ c.members, Placed limits text m :=
  (classFile_members fun _ _ => member?_placed).mono fun _ _ hc => hc.2.2

/-- The tokens ahead are the last ones of the text. -/
theorem At.scan {stack : List Bracket} (h : At text stack r) :
    ∃ past, ClassdefDoc.scan text = .ok (past ++ r.ahead) := by
  obtain ⟨n, past, s, hpast, -, -, hyields⟩ := h
  exact ⟨past, scan_of_yields hpast hyields⟩

/-- The body `b` of the function `m`: a signature is read up to the token `last`, the tokens `inner` and the
`end` that closes the body follow, and those of them that do not document the function are cut into pieces. -/
structure BodyRun (limits : Limits) (text : Text) (tokens : List Token)
    (m : Member) (b : Body) (last : Token) (inner : List Token)
    (close : Token) (rest : List Token) (pieces : List BodyPiece) : Prop where
  found : bodyTokens? limits tokens m.position = some (inner, close)
  signature : ∃ q x q', q.ahead <:+ tokens ∧ signature q = .ok (x, q') ∧ q'.ahead = inner ++ close :: rest
  place : AheadAt text [] last.endOffset (inner ++ close :: rest)
  kind : close.kind = .keyword .close
  doc : b.doc = Body.docOf (inner.take (Body.docLength none inner))
  cut : Body.cut text close.offset (Body.start inner (some last) close)
    (inner.drop (Body.docLength none inner)) = some pieces
  pieces : b.pieces = Body.joinCode pieces

theorem Function.exists_body (h : Function limits text r m q t rest s)
    (hat : At text [] r) (hscan : scan text = .ok tokens) (hb : m.body? = some b) :
    ∃ last inner close rest pieces, BodyRun limits text tokens m b last inner close rest pieces := by
  have hq : At text [] q := skipLayout_spec hat h.skip
  have hsuffix : q.ahead <:+ tokens := by
    obtain ⟨past, hpast⟩ := hq.scan
    exact ⟨past, Except.ok.inj (hpast.symm.trans hscan)⟩
  obtain ⟨inner, close, htokens, -, first, q₁, signature', q₂,
      b', hfirst, hsignature, hbody, hsome, hsplit, -⟩ :=
    bodyTokens?_of_functionMember hscan hsuffix h.ahead h.word h.run
  have hsees : SeesKind t.kind q := ⟨t, sees_of_ahead h.ahead (isContinuation_of_structural? h.word), rfl⟩
  obtain ⟨hkind, hafter⟩ := after_of_structural? h.word
  have hat₁ : After text [] q₁ := advance_kind_spec hkind hafter ⟨hq, hsees⟩ hfirst
  obtain ⟨-, last, hlast, hahead⟩ := signature_spec hat₁.at hsignature
  obtain ⟨_, _, _, pieces, hsplit', hcut, rfl, rfl⟩ := body_eq_ok_iff.1 hbody
  obtain ⟨⟩ := hsplit'.symm.trans hsplit
  obtain rfl := Option.some.inj (hb.symm.trans hsome)
  obtain ⟨happend, hclose, -⟩ := Body.splitAtEnd_append hsplit
  exact ⟨last, inner, close, _, pieces, htokens,
    ⟨q₁, signature', q₂, (taking_advance.suffix hfirst).trans hsuffix, hsignature, happend⟩,
    happend ▸ hahead, hclose, rfl, hlast ▸ hcut, rfl⟩

end Read

theorem ClassDecl.placed_of_parse (h : ClassDecl.parse limits text = .ok c)
    (hm : m ∈ c.members) : ∃ tokens, scan text = .ok tokens ∧ Read.Placed limits text m := by
  obtain ⟨tokens, r, hscan, hfile⟩ := ClassDecl.exists_run_of_parse h
  exact ⟨tokens, hscan, Read.classFile_placed (ahead_of_scan hscan) hfile m hm⟩

theorem ClassDecl.exists_body_of_parse
    (h : ClassDecl.parse limits text = .ok c) (hm : m ∈ c.members) (hb : m.body? = some b) :
    ∃ tokens last inner close rest pieces,
      scan text = .ok tokens ∧ Read.BodyRun limits text tokens m b last inner close rest pieces := by
  obtain ⟨tokens, hscan, kind, isAbstract, r, s, hat, hmember⟩ := ClassDecl.placed_of_parse h hm
  obtain ⟨q, t, rest, hfunction⟩ := Read.member?_function hmember (by rw [hb]; rfl)
  obtain ⟨last, inner, close, rest, pieces, hbody⟩ := hfunction.exists_body hat hscan hb
  exact ⟨tokens, last, inner, close, rest, pieces, hscan, hbody⟩

theorem Read.BodyRun.exists_cut {tokens : List Token} {last : Token}
    {pieces : List BodyPiece} (h : BodyRun limits text tokens m b last inner close rest pieces) :
    ∃ s₁ s₂ s₃, b.CutBetween text s₁ (inner.drop (Body.docLength none inner)) s₂ close s₃ :=
  (Body.cutBetween_of_cut h.place h.kind h.cut h.pieces).1

/-- The body of a method is cut out of the tokens between its signature and its `end`. -/
theorem ClassDecl.exists_cut_of_parse
    (h : ClassDecl.parse limits text = .ok c) (hm : m ∈ c.members) (hb : m.body? = some b) :
    ∃ tokens inner close, scan text = .ok tokens ∧
      bodyTokens? limits tokens m.position = some (inner, close) ∧
      b.doc = Body.docOf (inner.take (Body.docLength none inner)) ∧
      ∃ s₁ s₂ s₃, b.CutBetween text s₁ (inner.drop (Body.docLength none inner)) s₂ close s₃ := by
  obtain ⟨tokens, last, inner, close, rest, pieces, hscan, hbody⟩ := ClassDecl.exists_body_of_parse h hm hb
  exact ⟨tokens, inner, close, hscan, hbody.found, hbody.doc, hbody.exists_cut⟩

end ClassdefDoc
