import ClassdefDoc.Proofs.Parse.BodyEnd
import ClassdefDoc.Proofs.Parse.Shape
import ClassdefDoc.Proofs.Print.Written
import ClassdefDoc.Proofs.Scan.Join

/-!
# Headers of blocks and functions

How a block and a function are read: the layout before it, the word that it starts
with, the rest of its header, and what follows (`BlockRun`, `FunctionRun`).
-/

namespace ClassdefDoc.Read

/-! ## Words -/

/-- Behind the layout at `r` the word `t` stands at `q` and is taken. -/
structure WordRun (record : Bool) (t : Token) (r q q₁ : Reader) : Prop where
  skip : skipLayout record r = .ok ((), q)
  ahead : ∃ rest, q.ahead = t :: rest
  kind : isLayout t.kind = false ∧ t.kind ≠ .eof
  take : advance q = .ok (t, q₁)

namespace WordRun

variable {record : Bool} {t : Token} {r q q₁ : Reader} {tokens : List Token}

theorem peek (h : WordRun record t r q q₁) : Read.peek q = .ok (t, q) := by
  obtain ⟨rest, hrest⟩ := h.ahead
  exact peek_eq (sees_of_ahead hrest (isContinuation_of_not_isLayout h.kind.1))

theorem suffix (h : WordRun record t r q q₁) (hr : r.ahead <:+ tokens) :
    q.ahead <:+ tokens ∧ q₁.ahead <:+ tokens := by
  have hq : q.ahead <:+ tokens := (near_skipLayout.suffix h.skip).trans hr
  exact ⟨hq, (taking_advance.suffix h.take).trans hq⟩

end WordRun

/-! ## Blocks -/

/-- Behind the layout at `r` the block `b` is read: its first word `t` at
`q`, its attributes at `q₁` and its members at `q₂`. -/
structure BlockRun (limits : Limits) (text : Text) (b : Block) (t : Token) (r q q₁ q₂ s : Reader) : Prop where
  skip : skipLayout true r = .ok ((), q)
  ahead : ∃ rest, q.ahead = t :: rest
  word : structural? t.kind = some b.kind.keyword
  take : advance q = .ok (t, q₁)
  attributes : attributes text q₁ = .ok (b.attributes, q₂)
  header : endHeader q₂ = .ok ((), q₂)
  members : many (member? limits text b.kind b.isAbstract) q₂ = .ok (b.members, s)
  position : b.position = t.span.start

variable {limits : Limits} {text name : Text} {t : Token} {b : Block}
  {m : Member} {kind : BlockKind} {isAbstract : Bool} {r q s q₁ q₂ : Reader}

theorem block_run (ht : Sees t q) :
    Triple (· = q) (block limits text kind) fun b s => b.kind = kind ∧ ∃ q₁ q₂, advance q = .ok (t, q₁) ∧
    Read.attributes text q₁ = .ok (b.attributes, q₂) ∧ endHeader q₂ = .ok ((), q₂) ∧
    many (member? limits text b.kind b.isAbstract) q₂ = .ok (b.members, s) ∧ b.position = t.span.start := by
  rintro _ b s rfl hrun
  obtain ⟨keyword, q₁, htake, hrun⟩ := bind_eq_ok_iff.1 hrun
  obtain ⟨attributes, q₂, hattributes, hrun⟩ := bind_eq_ok_iff.1 hrun
  obtain ⟨_, q₃, hheader, hrun⟩ := bind_eq_ok_iff.1 hrun
  obtain ⟨members, q₄, hmembers, ⟨⟩⟩ := bind_eq_ok_iff.1 hrun
  obtain rfl : q₃ = q₂ := endHeader_spec (P := (· = q₂)) rfl hheader
  obtain rfl : keyword = t := Option.some.inj ((advance_last htake).1.symm.trans ht)
  exact ⟨rfl, q₁, q₃, htake, hattributes, hheader, hmembers, rfl⟩

theorem block?_run (h : block? limits text name r = .ok (some b, s)) :
    ∃ t q q₁ q₂, BlockRun limits text b t r q q₁ q₂ s := by
  cases block?_meeting rfl h with
  | @item t q _ _ _ hq hx hb =>
    cases hx with
    | block hword =>
      obtain ⟨rfl, q₁, q₂, htake, hattributes, hheader, hmembers, hposition⟩ := block_run hq.sees rfl hb
      exact ⟨t, q, q₁, q₂, hq.skip, hq.fresh.sees hq.sees, hword,
        htake, hattributes, hheader, hmembers, hposition⟩

section

variable (h : BlockRun limits text b t r q q₁ q₂ s)
include h

theorem BlockRun.wordRun : WordRun true t r q q₁ :=
  ⟨h.skip, h.ahead, isLayout_of_structural? h.word, h.take⟩

theorem BlockRun.suffix {tokens : List Token} (hr : r.ahead <:+ tokens) : q₂.ahead <:+ tokens :=
  (near_attributes.suffix h.attributes).trans (h.wordRun.suffix hr).2

theorem BlockRun.block? : Read.block? limits text name r = .ok (some b, s) := by
  have hblock : block limits text b.kind q = .ok (b, s) := by
    rw [block, bind_eq h.take, bind_eq h.attributes, bind_eq h.header]
    refine (bind_eq h.members).trans ?_
    rw [← h.position]
    rfl
  rw [Read.block?, bind_eq h.skip, bind_eq h.wordRun.peek, h.word]
  obtain ⟨kind, attributes, members, position⟩ := b
  cases kind <;> exact map_eq hblock

end

/-! ## Members -/

/-- Behind the layout before a member stands its first token; if that is the
word of a function, a function is read. -/
theorem member?_run (h : member? limits text kind isAbstract r = .ok (some m, s)) :
    ∃ t q rest, skipLayout true r = .ok ((), q) ∧
    q.ahead = t :: rest ∧ t.kind ≠ .eof ∧ m.position = t.span.start ∧
      (structural? t.kind = some .function → kind = .methods ∧
        functionMember limits text isAbstract q = .ok (m, s)) := by
  cases member?_meeting rfl h with
  | @item t q _ x _ hq hx hm =>
    obtain ⟨rest, hrest⟩ := hq.fresh.sees hq.sees
    refine ⟨t, q, rest, hq.skip, hrest, ?_⟩
    have plain (ht : structural? t.kind = none) (hends : endsStatement t.kind = false)
        (hx : Triple (Sees t) x fun m _ => Starts t m) :
        t.kind ≠ .eof ∧ m.position = t.span.start ∧
          (structural? t.kind = some .function → kind = .methods ∧
          functionMember limits text isAbstract q = .ok (m, s)) :=
      ⟨(by rintro h; simp [h, endsStatement, TokenKind.endsStatement] at hends), (hx hq.sees hm).position,
        fun hword => (by rw [ht] at hword; cases hword)⟩
    cases hx with
    | function hword =>
      obtain ⟨q₁, q₂, -, signature', line, body', -, -, -, rfl⟩ := functionMember_run hq.sees hm
      exact ⟨(after_of_structural? hword).1, rfl, fun _ => ⟨rfl, hm⟩⟩
    | property ht hends => exact plain ht hends property_starts
    | event ht hends => exact plain ht hends event_starts
    | prototype ht hends => exact plain ht hends prototype_starts

theorem functionMember_of_parts {signature' : Signature}
    {body' : Option Body} (htake : advance q = .ok (t, q₁))
    (hsignature : signature q₁ = .ok (signature', q₂)) (hheader : endHeader q₂ = .ok ((), q₂))
    (hbody : (if isAbstract then pure none else some <$>
      body limits.nesting text signature'.name : Read (Option Body)) q₂ = .ok (body', s)) :
    ∃ line, functionMember limits text isAbstract q =
      .ok (methodOf signature' body' isAbstract ⟨t.line, line⟩ t, s) := by
  obtain ⟨line, hline⟩ : ∃ line, lastLine q₂ = .ok (line, q₂) := ⟨_, lastLine_run q₂⟩
  refine ⟨line, ?_⟩
  rw [functionMember, bind_eq htake, bind_eq hsignature, bind_eq hline, bind_eq hheader]
  cases isAbstract <;> exact bind_eq hbody

/-! ## The token that ends a header -/

/-- Kinds that end a header: a name, a list in parentheses, or the word that opens a block. -/
def endsHeader : TokenKind → Bool
  | .identifier _ | .delimiter (.closing .paren) => true
  | .keyword k => k != .close
  | _ => false

/-- The tokens ahead follow a token that may end a header. -/
def Behind (tokens : List Token) (r : Reader) : Prop :=
  ∃ past t, tokens = past ++ t :: r.ahead ∧ endsHeader t.kind

section

variable {α : Type} {tokens : List Token}

theorem Behind.suffix (h : Behind tokens r) : r.ahead <:+ tokens := by
  obtain ⟨past, t, rfl, -⟩ := h
  exact ⟨past ++ [t], by simp⟩

theorem Onward.keeps {x : Read α} (hx : Onward x) :
    Triple (·.ahead <:+ tokens) x fun _ s => s.ahead <:+ tokens :=
  fun _ _ _ hr hrun => (hx hrun).suffix.trans hr

variable (hend : ∀ t, [t] <:+ tokens → t.kind = .eof) {what : Text}

include hend

theorem advance_behind (ht : endsHeader t.kind) :
    Triple (fun r => r.ahead <:+ tokens ∧ Sees t r) advance fun _ s => Behind tokens s := by
  rintro r a s ⟨hr, hsees⟩ hrun
  obtain ⟨rest, hrest⟩ := List.head?_eq_some_iff.1 hsees
  have hsuffix : t :: rest <:+ tokens := hrest ▸ (List.dropWhile_suffix _).trans hr
  obtain ⟨past, hpast⟩ := hsuffix
  cases rest with
  | nil =>
    rw [hend t ⟨past, hpast⟩] at ht
    cases ht
  | cons u us =>
    cases (advance_eq hrest).symm.trans hrun
    exact ⟨past, t, hpast.symm, ht⟩

theorem take_behind {k : TokenKind} (hk : endsHeader k) :
    Triple (fun r => r.ahead <:+ tokens ∧ SeesKind k r) (discard advance) fun _ s => Behind tokens s := by
  refine .discard ?_
  rintro r a s ⟨hr, t, hsees, rfl⟩ hrun
  exact advance_behind hend hk ⟨hr, hsees⟩ hrun

theorem expectIdentifier_behind :
    Triple (·.ahead <:+ tokens) (expectIdentifier what) fun _ s => Behind tokens s :=
  .identifier fun _ _ hkind => advance_behind hend (by rw [hkind]; rfl)

theorem segment_behind :
    Triple (Behind tokens) (segment what) (Round (fun _ => True) (Behind tokens) (Behind tokens)) := by
  refine .ifSees ((Onward.advance.discard.keeps.pre fun _ hr => hr.1.suffix).bind fun _ => ?_)
    (.pure fun _ hr => .none hr)
  exact (expectIdentifier_behind hend).bind fun _ => .pure fun _ hs => .some trivial hs

theorem names_behind {ignored : Bool} :
    Triple (·.ahead <:+ tokens) (names .paren ignored what) fun _ s => Behind tokens s := by
  refine (Triple.many (A := fun _ => True) (I := (·.ahead <:+ tokens)) (R := Behind tokens) ?_).bind
    fun found => .pure fun _ hs => hs.2
  refine Onward.skipLines.keeps.bind fun _ => peek_spec.bind fun t => ?_
  have taken {o : Option Text} :
      Triple (fun r => r.ahead <:+ tokens ∧ Sees t r) (do discard advance; pure (some o))
      (Round (fun _ => True) (·.ahead <:+ tokens) (Behind tokens)) :=
    (Onward.advance.discard.keeps.pre fun _ hr => hr.1).bind fun _ => .pure fun _ hs => .some trivial hs
  split
  · exact taken
  · exact taken
  · exact .ite (fun _ => taken) fun _ => .unexpected
  · refine .ite (fun hkind => ?_) fun _ => .unexpected
    exact ((take_behind hend rfl).seen hkind).bind fun _ => .pure fun _ hs => .none hs

/-- A signature ends with a name or its parameters. -/
theorem signature_behind : Triple (·.ahead <:+ tokens) signature fun _ s => Behind tokens s := by
  refine Onward.returnNames.keeps.bind fun returns => (expectIdentifier_behind hend).bind fun first => ?_
  refine (Triple.many (segment_behind hend)).bind fun rest => .ifSees ?_ ?_
  · refine (Onward.advance.discard.keeps.pre fun _ hr => hr.1.2.suffix).bind fun _ => ?_
    exact (names_behind hend).bind fun params => .pure fun _ hs => hs
  · exact (Triple.pure (Q := fun _ => Behind tokens) fun _ hr => hr.2).bind fun params =>
      .pure fun _ hs => hs

theorem attributeItem?_behind :
    Triple (·.ahead <:+ tokens) (attributeItem? text) fun o s => o = none → Behind tokens s := by
  rw [attributeItem?_eq]
  refine Onward.skipLines.keeps.bind fun _ =>
    .ifSees ((take_behind hend rfl).bind fun _ => .pure fun _ hs _ => hs) ?_
  -- any other path gives an attribute
  have ended {name : Text} {value : AttributeValue} {position : Position} :
      Triple (fun _ => True) (itemEnd name value position) fun o s => o = none → Behind tokens s :=
    itemEnd_eq.mono fun o _ ho => by rw [ho]; rintro ⟨⟩
  refine .skip fun negated => ?_
  extract_lets item
  have hitem (x : Unit) : Triple (fun _ => True) (item x) fun o s => o = none → Behind tokens s :=
    .skip fun _ => .skip fun _ => .skip fun assigned =>
      .ite (fun _ => .skip fun _ => .skip fun _ => .skip fun _ => ended) fun _ => ended
  exact .ite (fun _ => .skip hitem) fun _ => hitem ()

/-- An attribute list ends with its parenthesis. -/
theorem attributes_behind : Triple (Behind tokens) (attributes text) fun _ s => Behind tokens s := by
  refine .ifSees ((Onward.advance.discard.keeps.pre fun _ hr => hr.1.suffix).bind fun _ => ?_)
    (.pure fun _ hr => hr)
  refine (Triple.many (A := fun _ => True) (I := (·.ahead <:+ tokens)) (R := Behind tokens) ?_).mono
    fun _ _ hs => hs.2
  intro r o s hr hrun
  exact ⟨fun a _ => ⟨trivial, Onward.attributeItem?.keeps hr hrun⟩, attributeItem?_behind hend hr hrun⟩

end

end ClassdefDoc.Read
