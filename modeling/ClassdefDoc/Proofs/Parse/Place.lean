import ClassdefDoc.Class.Parse
import ClassdefDoc.Proofs.Parse.Triple
import ClassdefDoc.Proofs.Scan.Run

/-!
# Where a reader stands

The tokens ahead of a reader are the last tokens of its text (`scan_of_yields`), from a
state of the scanner on, so that the reader stands where certain brackets are open
(`Read.At`). Taking a token opens or closes brackets as the token says
(`advance_spec`). `Read.After` says that nothing is passed behind the token taken last.
-/

namespace ClassdefDoc

open List
open Scanner (start took_of_step over_start ended_of_step)

variable {s s' : Scanner} {k : TokenKind} {b : Bracket} {brackets : List (Bracket × Position)}
  {p : Position} {record : Bool}

/-- The tokens that a scanner gives from a state on, with the one at the end of the text. -/
inductive Scanner.Yields : Scanner → List Token → Prop
  | done {s e} : Scanner.step s = .ok (.done e) → Yields s [e]
  | item {s t s' ts} : Scanner.step s = .ok (.item t s') → Yields s' ts → Yields s (t :: ts)

theorem Scanner.yields_of_chain {ts : List Token} {e : Token} (h : Chain step s ts s')
    (hdone : step s' = .ok (.done e)) : s.Yields (ts ++ [e]) := by
  induction h with
  | nil s => exact .done hdone
  | cons hstep _ ih => exact .item hstep (ih hdone)

/-- What a scanner yields behind the tokens `past` of a text are the other tokens of the text. -/
theorem scan_of_yields {text : Text} {past ts : List Token}
    (hpast : Chain Scanner.step (start text) past s) (h : s.Yields ts) : scan text = .ok (past ++ ts) := by
  induction h generalizing past with
  | @done s e hdone => exact scan_eq_ok_iff.2 ⟨past, s, e, hpast, hdone, rfl⟩
  | @item s t s' ts hstep _ ih =>
    rw [append_cons]
    exact ih (hpast.append (.cons hstep (.nil s')))

theorem Scanner.Yields.of_append {ts us : List Token} {u : Token} (h : s.Yields (ts ++ u :: us)) :
    ∃ s', Chain Scanner.step s ts s' ∧ s'.Yields (u :: us) := by
  induction ts generalizing s with
  | nil => exact ⟨s, .nil s, h⟩
  | cons t ts ih =>
    rw [cons_append] at h
    generalize hlist : ts ++ u :: us = rest at h
    cases h with
    | done => simp at hlist
    | item hstep hrest =>
      obtain ⟨s', hchain, hyields⟩ := ih (hlist ▸ hrest)
      exact ⟨s', .cons hstep hchain, hyields⟩

/-- The scanner takes the tokens of a text one behind another. -/
theorem exists_yields_of_scan {text : Text} {before after : List Token} {t : Token}
    (h : scan text = .ok (before ++ t :: after)) :
    ∃ s, Chain Scanner.step (start text) before s ∧ s.Yields (t :: after) := by
  obtain ⟨ts, s, e, hchain, hdone, hsplit⟩ := scan_eq_ok_iff.1 h
  exact Scanner.Yields.of_append (hsplit ▸ Scanner.yields_of_chain hchain hdone)

/-- The brackets that are open behind a token of kind `k`. -/
def Bracket.after (stack : List Bracket) : TokenKind → Option (List Bracket)
  | .delimiter (.opening b) => some (b :: stack)
  | .delimiter (.closing b) =>
    match stack with
    | top :: rest => if top = b then some rest else none
    | [] => none
  | _ => some stack

theorem Bracket.after_of_other {stack : List Bracket}
    (hopen : ∀ b, k = .delimiter (.opening b) → False)
    (hclose : ∀ b, k = .delimiter (.closing b) → False) : Bracket.after stack k = some stack := by
  unfold Bracket.after
  split
  · exact (hopen _ rfl).elim
  · exact (hclose _ rfl).elim
  · rfl

/-- A closing bracket closes the innermost one. -/
theorem Bracket.after_closing {stack stack' : List Bracket}
    (h : Bracket.after stack (.delimiter (.closing b)) = some stack') :
    stack = b :: stack' := by
  cases stack with
  | nil => cases h
  | cons top stack =>
    simp only [Bracket.after] at h
    split_ifs at h with htop
    rw [htop, Option.some.inj h]

/-- `ts` are the tokens of `text` from offset `n` on, where the brackets `stack` are open. -/
def AheadAt (text : Text) (stack : List Bracket) (n : Nat) (ts : List Token) : Prop :=
  ∃ past s, Chain Scanner.step (start text) past s ∧ s.brackets.map (·.1) = stack ∧
    s.cursor.offset = n ∧ s.Yields ts

/-- `ts` are the tokens of `text` from some place on where the brackets `stack` are open. -/
def Ahead (text : Text) (stack : List Bracket) (ts : List Token) : Prop := ∃ n, AheadAt text stack n ts

variable {text : Text} {stack stack' : List Bracket} {t : Token} {ts : List Token}

theorem ahead_of_scan {tokens : List Token} (h : scan text = .ok tokens) : Ahead text [] tokens := by
  obtain ⟨ts, s, e, hchain, hdone, rfl⟩ := scan_eq_ok_iff.1 h
  exact ⟨_, [], _, .nil _, rfl, rfl, Scanner.yields_of_chain hchain hdone⟩

/-- The scanner keeps the brackets as their order says. -/
theorem Scanner.map_bracketsAfter (brackets : List (Bracket × Position)) (k : TokenKind) (p : Position) :
    (bracketsAfter brackets k p).toOption.map (·.map (·.1)) = Bracket.after (brackets.map (·.1)) k := by
  cases k with
  | delimiter d =>
    cases d with
    | closing b =>
      cases brackets with
      | nil => rfl
      | cons top rest =>
        simp only [bracketsAfter, Bracket.after, map_cons]
        split_ifs <;> rfl
    | _ => rfl
  | _ => rfl

theorem Bracket.after_of_bracketsAfter {brackets' : List (Bracket × Position)}
    (h : Scanner.bracketsAfter brackets k p = .ok brackets') :
    Bracket.after (brackets.map (·.1)) k = some (brackets'.map (·.1)) := by
  rw [← Scanner.map_bracketsAfter brackets k p, h]
  rfl

theorem Scanner.bracketsAfter_of_after
    (h : Bracket.after (brackets.map (·.1)) k = some stack) :
    ∃ brackets', bracketsAfter brackets k p = .ok brackets' ∧ brackets'.map (·.1) = stack := by
  rw [← map_bracketsAfter brackets k p] at h
  cases hafter : bracketsAfter brackets k p with
  | error e =>
    rw [hafter] at h
    cases h
  | ok brackets' =>
    rw [hafter] at h
    exact ⟨brackets', rfl, Option.some.inj h⟩

theorem Scanner.after_of_step (hs : s.Over text) (h : Scanner.step s = .ok (.item t s')) :
    Bracket.after (s.brackets.map (·.1)) t.kind = some (s'.brackets.map (·.1)) := by
  obtain ⟨past, ahead, hcursor, rfl⟩ := hs
  obtain ⟨gap, lexeme, hidden, rest, rfl, htook⟩ := took_of_step hcursor h
  exact Bracket.after_of_bracketsAfter htook.brackets_eq

/-- The scanner stands behind the token it took, unless that hides a line end. -/
theorem Scanner.offset_of_step (hs : s.Over text)
    (h : Scanner.step s = .ok (.item t s')) (hcont : t.kind.isContinuation = false) :
    s'.cursor.offset = t.endOffset := by
  obtain ⟨past, ahead, hcursor, -⟩ := hs
  obtain ⟨gap, lexeme, hidden, rest, -, htook⟩ := took_of_step hcursor h
  rw [htook.endOffset_eq, htook.cursor_eq, htook.hidden_eq_nil hcont, append_nil, Cursor.between_offset]

section

variable (h : Ahead text stack (t :: ts))
include h

/-- What follows a token of the text; a continuation also hides a line end. -/
theorem Ahead.next (hkind : t.kind ≠ .eof) :
    ∃ stack' n, Bracket.after stack t.kind = some stack' ∧ AheadAt text stack' n ts ∧
      (t.kind.isContinuation = false → n = t.endOffset) := by
  obtain ⟨n, past, s, hpast, rfl, -, hyields⟩ := h
  have hover := (over_start text).of_chain hpast
  cases hyields with
  | done hdone =>
    obtain ⟨past, ahead, hcursor, -⟩ := hover
    obtain ⟨-, rfl, -⟩ := ended_of_step hcursor hdone
    exact absurd rfl hkind
  | @item _ _ s' _ hstep hrest =>
    exact ⟨_, _, Scanner.after_of_step hover hstep,
      ⟨_, s', hpast.append (.cons hstep (.nil s')), rfl, rfl, hrest⟩, Scanner.offset_of_step hover hstep⟩

theorem Ahead.tail (hkind : t.kind ≠ .eof)
    (hafter : Bracket.after stack t.kind = some stack') : Ahead text stack' ts := by
  obtain ⟨stack', n, hafter', hat, -⟩ := h.next hkind
  obtain rfl := Option.some.inj (hafter.symm.trans hafter')
  exact ⟨n, hat⟩

/-- A closing bracket closes the innermost one. -/
theorem Ahead.closing
    (hkind : t.kind = .delimiter (.closing b)) : ∃ rest, stack = b :: rest ∧ Ahead text rest ts := by
  obtain ⟨stack', n, hafter, hat, -⟩ := h.next (by simp [hkind])
  rw [hkind] at hafter
  exact ⟨stack', Bracket.after_closing hafter, n, hat⟩

/-- The end of the text is the last token, and no bracket is open there. -/
theorem Ahead.eof (hkind : t.kind = .eof) : ts = [] ∧ stack = [] := by
  obtain ⟨n, past, s, hpast, rfl, -, hyields⟩ := h
  obtain ⟨before, ahead, hcursor, -⟩ := (over_start text).of_chain hpast
  cases hyields with
  | done hdone =>
    obtain ⟨-, -, hbrackets⟩ := ended_of_step hcursor hdone
    exact ⟨rfl, by rw [hbrackets]; rfl⟩
  | item hstep =>
    obtain ⟨gap, lexeme, hidden, rest, -, htook⟩ := took_of_step hcursor hstep
    exact absurd hkind htook.reads.kind_ne_eof

/-- The form of a token of the text. -/
theorem Ahead.reads (hkind : t.kind ≠ .eof) :
    ∃ around after, around.innermost = stack.head? ∧ Lexeme.Reads around t.kind t.lexeme after := by
  obtain ⟨n, past, s, hpast, rfl, -, hyields⟩ := h
  obtain ⟨before, ahead, hcursor, -⟩ := (over_start text).of_chain hpast
  cases hyields with
  | done hdone =>
    obtain ⟨-, rfl, -⟩ := ended_of_step hcursor hdone
    exact absurd rfl hkind
  | item hstep =>
    obtain ⟨gap, lexeme, hidden, rest, -, htook⟩ := took_of_step hcursor hstep
    refine ⟨s.sees before gap, hidden ++ rest, ?_, ?_⟩
    · rw [head?_map]
      rfl
    · rw [htook.lexeme_eq]
      exact htook.reads

theorem Ahead.isIdentifier {w : Text} (hkind : t.kind = .identifier w) :
    Name.isIdentifier w := by
  obtain ⟨_, _, -, hreads⟩ := h.reads (by simp [hkind])
  rw [hkind] at hreads
  cases hreads with
  | identifier hw => exact hw

/-- Keywords stand outside brackets. -/
theorem Ahead.keyword {k : Keyword} (hkind : t.kind = .keyword k) :
    stack = [] := by
  obtain ⟨_, _, hinner, hreads⟩ := h.reads (by simp [hkind])
  rw [hkind] at hreads
  cases hreads with
  | keyword _ hnone => exact head?_eq_none_iff.1 (hinner.symm.trans hnone)

end

theorem Ahead.ne_nil (h : Ahead text stack ts) : ts ≠ [] := by
  obtain ⟨n, past, s, -, -, -, hyields⟩ := h
  cases hyields <;> exact cons_ne_nil _ _

/-- Tokens that are no brackets are passed with the same brackets open. -/
theorem Ahead.dropWhile {p : TokenKind → Bool} (h : Ahead text stack ts)
    (hp : ∀ k, p k → k ≠ .eof ∧ Bracket.after stack k = some stack) :
    Ahead text stack (ts.dropWhile (p ·.kind)) := by
  induction ts with
  | nil => exact h
  | cons t ts ih =>
    rw [dropWhile_cons]
    split_ifs with ht
    · obtain ⟨hne, hafter⟩ := hp _ ht
      exact ih (h.tail hne hafter)
    · exact h

namespace Read

variable {k : TokenKind} {r : Reader}

/-! ## Places of a reader -/

/-- The reader stands in `text` where the brackets `stack` are open. -/
def At (text : Text) (stack : List Bracket) (r : Reader) : Prop := Ahead text stack r.ahead

/-- The reader stands directly behind the token it took last. -/
def After (text : Text) (stack : List Bracket) (r : Reader) : Prop :=
  ∃ t, r.last = some t ∧ AheadAt text stack t.endOffset r.ahead

theorem After.at (h : After text stack r) : At text stack r := by
  obtain ⟨t, -, hahead⟩ := h
  exact ⟨_, hahead⟩

/-- The next token of the reader is of kind `k`. -/
def SeesKind (k : TokenKind) (r : Reader) : Prop := ∃ t, Sees t r ∧ t.kind = k

theorem At.ahead_significant (h : At text stack r) :
    Ahead text stack (significant r.ahead) :=
  h.dropWhile (p := TokenKind.isContinuation) fun k hk => by
    cases k <;> simp_all [TokenKind.isContinuation, Bracket.after]

theorem At.sees (h : At text stack r) (ht : Sees t r) :
    ∃ rest, significant r.ahead = t :: rest ∧ Ahead text stack (t :: rest) := by
  obtain ⟨rest, hrest⟩ := head?_eq_some_iff.1 ht
  exact ⟨rest, hrest, hrest ▸ h.ahead_significant⟩

/-- A token that is seen is no continuation. -/
theorem Sees.isContinuation (h : Sees t r) : t.kind.isContinuation = false := by
  have := head?_dropWhile_not (·.kind.isContinuation) r.ahead
  rw [show r.ahead.dropWhile (·.kind.isContinuation) = significant r.ahead from rfl, h] at this
  simpa using this

variable {P : Reader → Prop}

theorem peek_spec : Triple P peek fun t r => P r ∧ Sees t r := by
  intro r t r' hr hrun
  obtain ⟨rfl, hsees⟩ := of_peek hrun
  exact ⟨hr, hsees⟩

/-- Taking a token opens and closes brackets as the token says. -/
theorem advance_spec (hkind : t.kind ≠ .eof) (hafter : Bracket.after stack t.kind = some stack') :
    Triple (fun r => At text stack r ∧ Sees t r) advance fun a r => a = t ∧ After text stack' r := by
  rintro r a r' ⟨hat, hsees⟩ hrun
  obtain ⟨rest, hrest, hahead⟩ := hat.sees hsees
  obtain ⟨stack', n, hafter', htail, hn⟩ := hahead.next hkind
  obtain rfl := Option.some.inj (hafter.symm.trans hafter')
  rw [hn hsees.isContinuation] at htail
  obtain ⟨u, us, rfl⟩ := exists_cons_of_ne_nil (Ahead.ne_nil ⟨_, htail⟩)
  cases (advance_eq hrest).symm.trans hrun
  exact ⟨rfl, t, rfl, htail⟩

/-- The same for a token of which only the kind is known. -/
theorem advance_kind_spec (hkind : k ≠ .eof) (hafter : Bracket.after stack k = some stack') :
    Triple (fun r => At text stack r ∧ SeesKind k r) advance fun _ r => After text stack' r := by
  rintro r _ r' ⟨hat, t, hsees, rfl⟩ hrun
  exact (advance_spec hkind hafter ⟨hat, hsees⟩ hrun).2

theorem take_spec (hkind : k ≠ .eof) (hafter : Bracket.after stack k = some stack') :
    Triple (fun r => At text stack r ∧ SeesKind k r) (discard advance) fun _ r => After text stack' r :=
  .discard (advance_kind_spec hkind hafter)

theorem sees_spec : Triple P (sees k) fun b r => P r ∧ (b → SeesKind k r) :=
  peek_spec.bind fun t => .pure fun _ hr => ⟨hr.1, fun hb => ⟨t, hr.2, beq_iff_eq.1 hb⟩⟩

/-- A choice by the token that is seen. -/
theorem Triple.ifSees {α : Type} {x y : Read α} {Q : α → Reader → Prop}
    (hx : Triple (fun r => P r ∧ SeesKind k r) x Q) (hy : Triple P y Q) :
    Triple P (do if ← sees k then x else y) Q :=
  sees_spec.bind fun _ => .ite (fun hb => hx.pre fun _ hr => ⟨hr.1, hr.2 hb⟩) fun _ => hy.pre fun _ hr => hr.1

/-- What is known of a kind is used for a token of that kind. -/
theorem Triple.seen {α : Type} {x : Read α} {Q : α → Reader → Prop}
    (hx : Triple (fun r => P r ∧ SeesKind k r) x Q) (hkind : t.kind = k) :
    Triple (fun r => P r ∧ Sees t r) x Q :=
  hx.pre fun _ hr => ⟨hr.1, t, hr.2, hkind⟩

/-- A name is taken where it is seen. -/
theorem Triple.identifier {what : Text} {Q : Token × Text → Reader → Prop}
    (h : ∀ t w, t.kind = .identifier w → Triple (fun r => P r ∧ Sees t r) advance fun _ r => Q (t, w) r) :
    Triple P (expectIdentifier what) Q := by
  refine peek_spec.bind fun t => ?_
  split
  · rename_i w hkind
    exact Triple.bind (.discard (h t w hkind)) fun _ => .pure fun _ hr => hr
  · exact .unexpected

theorem seesIdentifier_spec :
    Triple P seesIdentifier fun b r => P r ∧ (b → ∃ w, SeesKind (.identifier w) r) := by
  refine peek_spec.bind fun t => ?_
  split
  · rename_i w hkind
    exact .pure fun _ hr => ⟨hr.1, fun _ => ⟨w, t, hr.2, hkind⟩⟩
  · exact .pure fun _ hr => ⟨hr.1, (by rintro ⟨⟩)⟩

theorem lastLine_spec : Triple P lastLine fun _ r => P r := by
  refine (Triple.get fun _ hr => hr).bind fun r => ?_
  split
  · exact .pure fun _ hr => hr
  · exact .pure fun _ hr => hr

theorem endStatement_spec : Triple P endStatement fun _ r => P r :=
  peek_spec.bind fun _ => .ite (fun _ => .pure fun _ hr => hr.1) fun _ => .unexpected

theorem endHeader_spec : Triple P endHeader fun _ r => P r := by
  refine peek_spec.bind fun _ => ?_
  split
  · exact .pure fun _ hr => hr.1
  · exact .pure fun _ hr => hr.1
  · exact .ite (fun _ => .pure fun _ hr => hr.1) fun _ => .unexpected

/-- Layout opens and closes no bracket. -/
theorem after_of_isLayout (h : isLayout k) :
    k ≠ .eof ∧ Bracket.after stack k = some stack := by
  unfold isLayout at h
  split at h <;> simp_all [Bracket.after]

theorem skipLayout_spec :
    Triple (At text stack) (skipLayout record) fun _ r => At text stack r :=
  .modify fun _ hr => hr.dropWhile fun _ => after_of_isLayout

end Read

/-! ## Members and blocks -/

def BlockKind.keyword : BlockKind → Keyword
  | properties => .properties
  | methods => .methods
  | events => .events

namespace Read

variable {α : Type} {text name : Text} {stack : List Bracket}
  {r q s : Reader} {t : Token} {limits : Limits} {kind : BlockKind} {isAbstract : Bool}

/-- The reader stands behind layout. -/
def Fresh (r : Reader) : Prop := ∀ t, r.ahead.head? = some t → isLayout t.kind = false

theorem skipLayout_fresh {P : Reader → Prop} :
    Triple P (skipLayout record) fun _ r => Fresh r := by
  refine .modify fun r _ t ht => ?_
  have := head?_dropWhile_not (isLayout ·.kind) r.ahead
  rw [show (r.ahead.dropWhile (isLayout ·.kind)).head? = some t from ht] at this
  simpa using this

/-- Behind layout the next token is the first one ahead. -/
theorem Fresh.sees (h : Fresh r) (ht : Sees t r) : ∃ rest, r.ahead = t :: rest := by
  cases hahead : r.ahead with
  | nil =>
    rw [Sees, hahead] at ht
    cases ht
  | cons u rest =>
    have hu := h u (by rw [hahead]; rfl)
    have hcont : u.kind.isContinuation = false := by
      cases hk : u.kind <;> simp_all [isLayout, TokenKind.isContinuation]
    rw [Sees, hahead, significant, dropWhile_cons_of_neg (by simp [hcont]),
      head?_cons, Option.some.injEq] at ht
    exact ⟨rest, by rw [ht]⟩

/-- Behind the layout at `r` the token `t` is next, at `q`. -/
structure Meets (r : Reader) (t : Token) (q : Reader) : Prop where
  skip : skipLayout true r = .ok ((), q)
  fresh : Fresh q
  sees : Sees t q

theorem Meets.at (h : Meets r t q) (hr : At text stack r) : At text stack q := skipLayout_spec hr h.skip

theorem Triple.meets {f : Token → Read α} {Q : α → Reader → Prop}
    (h : ∀ t q, Meets r t q → Triple (· = q) (f t) Q) :
    Triple (· = r) (do skipLayout true; let t ← peek; f t) Q := by
  refine Triple.bind (Q := fun _ q => skipLayout true r =
    .ok ((), q)) (by rintro _ ⟨⟩ q rfl hskip; exact hskip) fun _ => ?_
  refine peek_spec.bind fun t q a s hq hrun => ?_
  exact h t q ⟨hq.1, skipLayout_fresh (P := fun _ => True) trivial hq.1, hq.2⟩ rfl hrun

/-- One round over the members of a block or the blocks of a class: behind
layout it takes the `end`, or reads what `D` says. -/
inductive Meeting (D : Token → Read α → Prop) (r : Reader) : Option α → Reader → Prop
  | close {t : Token} {q s : Reader} : Meets r t q → structural? t.kind = some .close →
    discard advance q = .ok ((), s) → Meeting D r none s
  | item {t : Token} {q s : Reader} {x : Read α} {a : α} : Meets r t q →
    D t x → x q = .ok (a, s) → Meeting D r (some a) s

section

variable {D : Token → Read α → Prop} (hq : Meets r t q)

include hq

theorem Meets.close (ht : structural? t.kind = some .close) :
    Triple (· = q) (do discard advance; pure none) (Meeting D r) := by
  rintro _ o s rfl hrun
  obtain ⟨⟨⟩, q', htake, ⟨⟩⟩ := bind_eq_ok_iff.1 hrun
  exact .close hq ht htake

theorem Meets.item {x : Read α} (hx : D t x) : Triple (· = q) (some <$> x) (Meeting D r) :=
  .map fun _ _ _ heq hrun => .item hq hx (heq ▸ hrun)

end

/-- What is read as a member that starts with a token, in a block of a kind. -/
inductive Declares (limits : Limits) (text : Text) (isAbstract : Bool) :
    BlockKind → Token → Read Member → Prop
  | function {t : Token} : structural? t.kind = some .function →
    Declares limits text isAbstract .methods t (functionMember limits text isAbstract)
  | property {t : Token} : structural? t.kind = none → endsStatement t.kind = false →
    Declares limits text isAbstract .properties t (property text)
  | event {t : Token} : structural? t.kind = none → endsStatement t.kind = false →
    Declares limits text isAbstract .events t event
  | prototype {t : Token} : structural? t.kind = none → endsStatement t.kind = false →
    Declares limits text isAbstract .methods t (prototype isAbstract)

theorem member?_meeting :
    Triple (· = r) (member? limits text kind isAbstract)
    (Meeting (Declares limits text isAbstract kind) r) := by
  refine .meets fun t q hq => ?_
  split
  · exact hq.close ‹_›
  · exact hq.item (.function ‹_›)
  · exact .refuse
  · exact hq.item (.property ‹_› (by simp [*, endsStatement, TokenKind.endsStatement]))
  · exact hq.item (.event ‹_› (by simp [*, endsStatement, TokenKind.endsStatement]))
  · exact hq.item (.prototype ‹_› (by simp [*, endsStatement, TokenKind.endsStatement]))
  · exact hq.item (.prototype ‹_› (by simp [*, endsStatement, TokenKind.endsStatement]))
  · exact .unexpected

/-- What is read as a block that starts with a token. -/
inductive OpensBlock (limits : Limits) (text : Text) : Token → Read Block → Prop
  | block {t : Token} {kind : BlockKind} : structural? t.kind = some kind.keyword →
    OpensBlock limits text t (block limits text kind)

theorem block?_meeting : Triple (· = r) (block? limits text name) (Meeting (OpensBlock limits text) r) := by
  refine .meets fun t q hq => ?_
  split
  · exact hq.close ‹_›
  · exact hq.item (.block ‹_›)
  · exact hq.item (.block ‹_›)
  · exact hq.item (.block ‹_›)
  iterate 4
    · exact .refuse
  · exact .unexpected

end Read

end ClassdefDoc
