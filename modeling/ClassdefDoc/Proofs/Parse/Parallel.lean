import ClassdefDoc.Class.Parse
import ClassdefDoc.Proofs.Parse.Triple
import Mathlib.Data.List.Forall2
import Mathlib.Tactic

/-!
# Readings in parallel

Two texts whose tokens correspond are read in parallel. What their readings have in common
differs: both may go the same way and fail in the same way, or the second may only be known
to succeed if the first does. `Parallel` lists what the reading functions need of such a
relation between readings, of the functions that look at single tokens and of what is read
from slices of the texts. What the other reading functions keep is proved once from it.
-/

namespace ClassdefDoc

open List

section Forall₂

variable {α β γ : Type} {R : α → β → Prop} {xs : List α} {ys : List β}

theorem rel_or {a b : Option α} {a' b' : Option β} (h : Option.Rel R a a') (hb : Option.Rel R b b') :
    Option.Rel R (a.or b) (a'.or b') := by
  cases h with
  | none => exact hb
  | some h => exact .some h

theorem map_eq_of_forall₂ {f : α → γ} {g : β → γ} (h : Forall₂ R xs ys) (hf : ∀ x y, R x y → f x = g y) :
    xs.map f = ys.map g := by
  induction h with
  | nil => rfl
  | cons hxy _ ih => rw [map_cons, map_cons, hf _ _ hxy, ih]

theorem rel_find? {p : α → Bool} {q : β → Bool} (h : Forall₂ R xs ys) (hp : ∀ x y, R x y → p x = q y) :
    Option.Rel R (xs.find? p) (ys.find? q) := by
  induction h with
  | nil => exact .none
  | cons hxy _ ih =>
    rw [find?_cons, find?_cons, hp _ _ hxy]
    split
    · exact .some hxy
    · exact ih

end Forall₂

/-! ## Kinds -/

/-- Kinds that differ at most in what a comment or a continuation says. -/
inductive TokenKind.Alike : TokenKind → TokenKind → Prop
  | same (k : TokenKind) : Alike k k
  | comment (l l' : Text) : Alike (.comment l) (.comment l')
  | blockComment (ls ls' : List Text) : Alike (.blockComment ls) (.blockComment ls')
  | continuation (l l' : Text) : Alike (.continuation l) (.continuation l')

namespace TokenKind.Alike

variable {k k' l : TokenKind}

@[elab_as_elim]
theorem elim {F : TokenKind → TokenKind → Prop} (h : k.Alike k')
    (same : ∀ k, F k k) (comment : ∀ l l', F (.comment l) (.comment l'))
    (blockComment : ∀ ls ls', F (.blockComment ls) (.blockComment ls'))
    (continuation : ∀ l l', F (.continuation l) (.continuation l')) : F k k' := by
  cases h with
  | same => exact same k
  | comment l l' => exact comment l l'
  | blockComment ls ls' => exact blockComment ls ls'
  | continuation l l' => exact continuation l l'

theorem endsStatement (h : k.Alike k') : Read.endsStatement k = Read.endsStatement k' := by cases h <;> rfl

/-- Kinds that are alike are the same, if one is neither a comment nor a continuation. -/
theorem eq_iff (h : k.Alike k') (hl : l.isComment = false) (hl' : l.isContinuation = false) :
    k = l ↔ k' = l := by
  cases h with
  | same => exact Iff.rfl
  | comment | blockComment =>
    constructor <;>
    · rintro rfl
      cases hl
  | continuation =>
    constructor <;>
    · rintro rfl
      cases hl'

end TokenKind.Alike

/-! ## Reading functions in parts -/

namespace Read

/-- What is read of an attribute behind its value. -/
def itemEnd (name : Text) (value : AttributeValue) (position : Position) : Read (Option Attribute) := do
  skipLines
  let separator ← peek
  if separator.kind = .delimiter .comma then discard advance
  else if separator.kind ≠
    .delimiter (.closing .paren) then unexpected separator "',' or ')' in attribute list"
  pure (some ⟨name, value, position⟩)

/-- What is read of an attribute behind the sign of assignment. -/
def itemValue (text name : Text) (position : Position) : Read (Option Attribute) := do
  skipLines
  let value ← attributeValue text
  itemEnd name value position

/-- What is read of an attribute behind its name. -/
def itemRest (text : Text) (negated : Bool) (name : Text) (position : Position) :
    Read (Option Attribute) := do
  skipLines
  let assigned ← sees (.operator .assign)
  if !negated && assigned then do
    discard advance
    itemValue text name position
  else itemEnd name (.flag !negated) position

theorem attributeItem?_eq (text : Text) : attributeItem? text = (do
    skipLines
    if ← sees (.delimiter (.closing .paren)) then
      discard advance
      return none
    let negated ← sees (.operator .tilde)
    if negated then discard advance
    let (token, name) ← expectIdentifier "attribute name"
    itemRest text negated name token.span.start : Read (Option Attribute)) := rfl

theorem itemEnd_eq {P : Reader → Prop} {name : Text} {value : AttributeValue} {position : Position} :
    Triple P (itemEnd name value position) fun o _ => o = some ⟨name, value, position⟩ :=
  .skip fun _ => .skip fun _ => .ite (fun _ => .skip fun _ => .pure fun _ _ => rfl) fun _ =>
    .ite (fun _ => .unexpected_bind) fun _ => .pure fun _ _ => rfl

/-- What is read of a function behind its first word. -/
def functionRest (limits : Limits) (text : Text) (isAbstract : Bool) (first : Token) : Read Member := do
  let s ← signature
  let header := ⟨first.line, ← lastLine⟩
  endHeader
  let body ← if isAbstract then pure none else some <$> body limits.nesting text s.name
  pure (methodOf s body isAbstract header first)

/-- What is read of a block behind its first word. -/
def blockRest (limits : Limits) (text : Text) (kind : BlockKind) (keyword : Token) : Read Block := do
  let attributes ← attributes text
  endHeader
  let isAbstract := kind == .methods && Attribute.anyAsserted attributes "Abstract"
  let members ← many (member? limits text kind isAbstract)
  pure ⟨kind, attributes, members, keyword.span.start⟩

/-- What is read of the head of a class behind its attributes. -/
def headEnd (line : Nat) (attributes : List Attribute) : Read ClassDecl := do
  let (token, name) ← expectIdentifier "class name"
  let superclasses ← superclasses
  let header := ⟨line, ← lastLine⟩
  endHeader
  pure ⟨name, superclasses, attributes, [], [], header, token.span.start⟩

/-- The class of a file before its blocks. -/
def classHead (text : Text) : Read ClassDecl := do
  skipLayout true
  let t ← peek
  match t.kind with
  | .keyword .classdef => pure ()
  | .eof => refuse (.unsupported "a file without a class definition") t.span.start
  | _ => refuse (.unsupported "a file that does not start with 'classdef'") t.span.start
  discard advance
  let attributes ← attributes text
  let (token, name) ← expectIdentifier "class name"
  let superclasses ← superclasses
  let header := ⟨t.line, ← lastLine⟩
  endHeader
  pure ⟨name, superclasses, attributes, [], [], header, token.span.start⟩

/-- The class of a file, up to the `end` that closes it. -/
def classPart (limits : Limits) (text : Text) : Read ClassDecl := do
  skipLayout true
  let t ← peek
  match t.kind with
  | .keyword .classdef => pure ()
  | .eof => refuse (.unsupported "a file without a class definition") t.span.start
  | _ => refuse (.unsupported "a file that does not start with 'classdef'") t.span.start
  discard advance
  let attributes ← attributes text
  let (token, name) ← expectIdentifier "class name"
  let superclasses ← superclasses
  let header := ⟨t.line, ← lastLine⟩
  endHeader
  let blocks ← many (block? limits text name)
  let comments := LooseComment.group (← get).comments
  pure ⟨name, superclasses, attributes, blocks, comments, header, token.span.start⟩

theorem classPart_eq_classHead (limits : Limits) (text : Text) :
    classPart limits text = classHead text >>= fun c =>
    many (block? limits text c.name) >>= fun bs => get >>= fun r =>
      pure { c with blocks := bs, comments := LooseComment.group r.comments } := by
  unfold classPart classHead
  simp only [bind_assoc]
  refine bind_congr fun _ => bind_congr fun t => ?_
  split <;> simp only [*, bind_assoc, pure_bind]

/-- What follows a class in its file is read and dropped. -/
theorem classFile_eq_classPart (limits : Limits) (text : Text) : classFile limits text =
    classPart limits text >>= fun c => discard (many (localFunction? limits text)) >>= fun _ => pure c := by
  unfold classFile classPart
  simp only [bind_assoc]
  refine bind_congr fun _ => bind_congr fun t => ?_
  split <;> simp only [*, bind_assoc, pure_bind]

end Read

/-! ## Relations between readings -/

theorem AttributeValue.flag_rfl (b : Bool) : AttributeValue.flag b = .flag b := rfl

/-- A relation between readings of two texts, with the tokens, readers and
lines that correspond, and the parts of a class. -/
structure Parallel where
  text : Text
  text' : Text
  Rel {α : Type} : Read α → Read α → (α → α → Prop) → Prop
  token : Token → Token → Prop
  reader : Reader → Reader → Prop
  line : Nat → Nat → Prop
  value : AttributeValue → AttributeValue → Prop
  item : Attribute → Attribute → Prop
  part : Text → Text → Prop
  body : Body → Body → Prop
  member : Member → Member → Prop
  rel_pure {α : Type} {A : α → α → Prop} {a a' : α} : A a a' → Rel (pure a) (pure a') A
  rel_bind {α β : Type} {A : α → α → Prop} {B : β → β → Prop} {x x' : Read α} {f f' : α → Read β} :
    Rel x x' A → (∀ a a', A a a' → Rel (f a) (f' a') B) → Rel (x >>= f) (x' >>= f') B
  rel_many {α : Type} {A : α → α → Prop} {step step' : Read (Option α)} :
    Rel step step' (Option.Rel A) → Rel (Read.many step) (Read.many step') (Forall₂ A)
  rel_refuse {α : Type} {A : α → α → Prop} {t t' : Token} {cause cause' : Cause} : token t t' →
    cause.kind = cause'.kind →
    Rel (Read.refuse cause t.span.start) (Read.refuse cause' t'.span.start) A
  kind {t t' : Token} : token t t' → t.kind.Alike t'.kind
  wordAfterLines {r r' : Reader} : reader r r' → Read.wordAfterLines r.ahead = Read.wordAfterLines r'.ahead
  get : Rel get get reader
  peek : Rel Read.peek Read.peek token
  peekSecond : Rel Read.peekSecond Read.peekSecond token
  advance : Rel Read.advance Read.advance token
  skipLines : Rel Read.skipLines Read.skipLines Eq
  skipLayout (record : Bool) : Rel (Read.skipLayout record) (Read.skipLayout record) Eq
  lastLine : Rel Read.lastLine Read.lastLine line
  skipGroup : Rel Read.skipGroup Read.skipGroup Eq
  attributeValue : Rel (Read.attributeValue text) (Read.attributeValue text') value
  defaultValue : Rel (Read.defaultValue text) (Read.defaultValue text') part
  bodies (limit : Nat) (name : Text) : Rel (Read.body limit text name) (Read.body limit text' name) body
  flag (b : Bool) : value (.flag b) (.flag b)
  item_mk {t t' : Token} {name : Text} {v v' : AttributeValue} : token t t' → value v v' →
    item ⟨name, v, t.span.start⟩ ⟨name, v', t'.span.start⟩
  name_eq {a a' : Attribute} : item a a' → a.name = a'.name
  asserted_eq {a a' : Attribute} : item a a' → a.asserted = a'.asserted
  property_mk {t t' : Token} {name : Text} {type : Option DottedName} {v v' : Option Text} {l l' : Nat} :
    token t t' →
    Option.Rel part v v' → line l l' →
    member ⟨name, .property type v, ⟨t.line, l⟩, t.span.start⟩ ⟨name,
    .property type v', ⟨t'.line, l'⟩, t'.span.start⟩
  event_mk {t t' : Token} {name : Text} {l l' : Nat} : token t t' → line l l' →
    member ⟨name, .event, ⟨t.line, l⟩, t.span.start⟩ ⟨name, .event, ⟨t'.line, l'⟩, t'.span.start⟩
  method_mk {t t' : Token} {s : Read.Signature} {b b' : Option Body} {isAbstract : Bool} {l l' : Nat} :
    token t t' →
    Option.Rel body b b' → line l l' →
    member (Read.methodOf s b isAbstract ⟨t.line, l⟩ t) (Read.methodOf s b' isAbstract ⟨t'.line, l'⟩ t')

namespace Parallel

variable (M : Parallel) {α β : Type} {A : α → α → Prop} {B : β → β → Prop} {x x' y y' : Read α}
  {f f' : α → Read β} {t t' : Token} {k : TokenKind} {what name : Text} {limits : Limits} {isAbstract : Bool}
  {kind : BlockKind} {as as' : List Attribute}

namespace Rel

variable {M} {c : Prop}

theorem pure {a a' : α} (h : A a a') : M.Rel (Pure.pure a) (Pure.pure a') A := M.rel_pure h

theorem bind (hx : M.Rel x x' A) (hf : ∀ a a', A a a' → M.Rel (f a) (f' a') B) :
    M.Rel (x >>= f) (x' >>= f') B := M.rel_bind hx hf

theorem bind_eq (hx : M.Rel x x' Eq) (hf : ∀ a, M.Rel (f a) (f' a) B) : M.Rel (x >>= f) (x' >>= f') B :=
  hx.bind fun a _ h => h ▸ hf a

theorem map {g g' : α → β} (hx : M.Rel x x' A) (hg : ∀ a a', A a a' → B (g a) (g' a')) :
    M.Rel (g <$> x) (g' <$> x') B := by
  rw [map_eq_pure_bind, map_eq_pure_bind]
  exact hx.bind fun a a' ha => pure (hg a a' ha)

theorem discard (hx : M.Rel x x' A) : M.Rel (Functor.discard x) (Functor.discard x') Eq :=
  map (g := Function.const α ()) hx fun _ _ _ => rfl

theorem ite {c' : Prop} [Decidable c] [Decidable c'] (hc : c ↔ c') (hx : M.Rel x x' A) (hy : M.Rel y y' A) :
    M.Rel (if c then x else y) (if c' then x' else y') A := by
  by_cases h : c
  · rwa [if_pos h, if_pos (hc.1 h)]
  · rwa [if_neg h, if_neg (mt hc.2 h)]

/-- A step that is only taken under a condition. -/
theorem when [Decidable c] {z z' : Read Unit} {g g' : Unit → Read α}
    (hz : M.Rel z z' Eq) (hg : M.Rel (g ()) (g' ()) A) :
    M.Rel (if c then z >>= g else g ()) (if c then z' >>= g' else g' ()) A :=
  ite Iff.rfl (hz.bind_eq fun _ => hg) hg

/-- Equal items make equal lists. -/
theorem many_eq {step step' : Read (Option α)} (h : M.Rel step step' (Option.Rel Eq)) :
    M.Rel (Read.many step) (Read.many step') Eq := by
  have hmany := M.rel_many h
  rwa [forall₂_eq_eq_eq] at hmany

end Rel

/-! ## Taking tokens -/

theorem unexpected (ht : M.token t t') :
    M.Rel (Read.unexpected t what : Read α) (Read.unexpected t' what) A := by
  unfold Read.unexpected
  refine (M.kind ht).elim (fun k => ?_) (fun _ _ => M.rel_refuse ht rfl) (fun _ _ =>
    M.rel_refuse ht rfl) fun _ _ => M.rel_refuse ht rfl
  cases k <;> exact M.rel_refuse ht rfl

/-- What follows a refusal does not matter. -/
theorem refuse_bind {cause cause' : Cause} (ht : M.token t t') (hcause : cause.kind = cause'.kind) :
    M.Rel (Read.refuse cause t.span.start >>= f) (Read.refuse cause' t'.span.start >>= f') B :=
  (M.rel_refuse (A := fun _ _ => False) ht hcause).bind fun _ _ => False.elim

theorem unexpected_bind (ht : M.token t t') :
    M.Rel (Read.unexpected t what >>= f) (Read.unexpected t' what >>= f') B :=
  (M.unexpected (A := fun _ _ => False) ht).bind fun _ _ => False.elim

theorem take : M.Rel (discard Read.advance) (discard Read.advance) Eq := M.advance.discard

theorem sees (hk : k.isComment = false) (hk' : k.isContinuation = false) :
    M.Rel (Read.sees k) (Read.sees k) Eq := by
  refine M.peek.bind fun t t' ht => .pure ?_
  rw [Bool.eq_iff_iff, beq_iff_eq, beq_iff_eq]
  exact (M.kind ht).eq_iff hk hk'

theorem seesIdentifier : M.Rel Read.seesIdentifier Read.seesIdentifier Eq := by
  refine M.peek.bind fun t t' ht => ?_
  refine (M.kind ht).elim (fun k => ?_) (fun _ _ => .pure rfl) (fun _ _ => .pure rfl) fun _ _ => .pure rfl
  split <;> exact .pure rfl

theorem expectIdentifier : M.Rel (Read.expectIdentifier what) (Read.expectIdentifier what)
    fun x x' => M.token x.1 x'.1 ∧ x.2 = x'.2 := by
  refine M.peek.bind fun t t' ht => ?_
  refine (M.kind ht).elim (fun k => ?_) (fun _ _ => M.unexpected ht) (fun _ _ => M.unexpected ht) fun _ _ =>
    M.unexpected ht
  split
  · exact M.take.bind_eq fun _ => .pure ⟨ht, rfl⟩
  · exact M.unexpected ht

/-- A reading that starts with a name. -/
theorem name_bind {f f' : Token × Text → Read β}
    (hf : ∀ t t' w, M.token t t' → M.Rel (f (t, w)) (f' (t', w)) B) :
    M.Rel (Read.expectIdentifier what >>= f) (Read.expectIdentifier what >>= f') B := by
  refine M.expectIdentifier.bind ?_
  rintro ⟨t, w⟩ ⟨t', _⟩ ⟨ht, rfl⟩
  exact hf t t' w ht

theorem expect (hk : k.isComment = false) (hk' : k.isContinuation = false) :
    M.Rel (Read.expect k what) (Read.expect k what) Eq :=
  M.peek.bind fun _ _ ht => .ite ((M.kind ht).eq_iff hk hk') M.take (M.unexpected ht)

theorem endStatement : M.Rel Read.endStatement Read.endStatement Eq :=
  M.peek.bind fun _ _ ht => .ite (by rw [(M.kind ht).endsStatement]) (.pure rfl) (M.unexpected ht)

theorem endHeader : M.Rel Read.endHeader Read.endHeader Eq := by
  refine M.peek.bind fun t t' ht => ?_
  have ended (k : TokenKind) :
      M.Rel (if Read.endsStatement k then Pure.pure () else Read.unexpected t "end of statement".toList)
      (if Read.endsStatement k then Pure.pure () else Read.unexpected t' "end of statement".toList) Eq :=
    .ite Iff.rfl (.pure rfl) (M.unexpected ht)
  refine (M.kind ht).elim (fun k => ?_) (fun l _ => ended (.comment l)) (fun ls _ => ended (.blockComment ls))
    fun l _ => ended (.continuation l)
  split
  · exact .pure rfl
  · exact .pure rfl
  · exact ended _

/-! ## Names -/

theorem segment : M.Rel (Read.segment what) (Read.segment what) (Option.Rel Eq) := by
  refine (M.sees rfl rfl).bind_eq fun b =>
    .ite Iff.rfl (M.take.bind_eq fun _ => M.name_bind fun _ _ _ _ => ?_) (.pure .none)
  exact .pure (.some rfl)

theorem dottedName : M.Rel (Read.dottedName what) (Read.dottedName what) Eq :=
  M.name_bind fun _ _ _ _ => M.segment.many_eq.bind_eq fun _ => .pure rfl

theorem names {b : Bracket} {ignored : Bool} :
    M.Rel (Read.names b ignored what) (Read.names b ignored what) Eq := by
  refine (Rel.many_eq (M.skipLines.bind_eq fun _ => M.peek.bind fun t t' ht => ?_)).bind_eq fun _ => .pure rfl
  refine (M.kind ht).elim (fun k => ?_) (fun _ _ => M.unexpected ht) (fun _ _ => M.unexpected ht) fun _ _ =>
    M.unexpected ht
  split
  · exact M.take.bind_eq fun _ => .pure (.some rfl)
  · exact M.take.bind_eq fun _ => .pure (.some rfl)
  · exact .ite Iff.rfl (M.take.bind_eq fun _ => .pure (.some rfl)) (M.unexpected ht)
  · exact .ite Iff.rfl (M.take.bind_eq fun _ => .pure .none) (M.unexpected ht)

theorem returnNames : M.Rel Read.returnNames Read.returnNames Eq := by
  refine (M.sees rfl rfl).bind_eq fun b => .ite Iff.rfl ?_ (M.peekSecond.bind fun t t' ht => ?_)
  · exact M.take.bind_eq fun _ => M.names.bind_eq fun _ => (M.expect rfl rfl).bind_eq fun _ => .pure rfl
  · refine .ite ((M.kind ht).eq_iff rfl rfl) (M.name_bind fun _ _ _ _ => ?_) (.pure rfl)
    exact M.take.bind_eq fun _ => .pure rfl

theorem signature : M.Rel Read.signature Read.signature Eq := by
  refine M.returnNames.bind_eq fun returns => M.name_bind fun _ _ first _ =>
    M.segment.many_eq.bind_eq fun rest => ?_
  refine (M.sees rfl rfl).bind_eq fun b => .ite Iff.rfl ?_ (.pure rfl)
  exact M.take.bind_eq fun _ => M.names.bind_eq fun _ => .pure rfl

theorem superclass? : M.Rel Read.superclass? Read.superclass? (Option.Rel Eq) := by
  refine M.peek.bind fun t t' ht => ?_
  extract_lets found
  have hfound (more : Bool) : M.Rel (found more) (found more) (Option.Rel Eq) :=
    .ite Iff.rfl ((M.skipLayout _).bind_eq fun _ => M.dottedName.map fun _ _ h => .some h) (.pure .none)
  have hnone : M.Rel (Pure.pure false >>= found) (Pure.pure false >>= found) (Option.Rel Eq) := hfound false
  refine (M.kind ht).elim (fun k => ?_) (fun _ _ => hnone) (fun _ _ => hnone) fun _ _ => hnone
  split
  · exact M.take.bind_eq fun _ => hfound true
  · exact M.take.bind_eq fun _ => hfound true
  · refine M.get.bind fun r r' hr => ?_
    rw [M.wordAfterLines hr]
    exact hfound _
  · exact hnone

theorem superclasses : M.Rel Read.superclasses Read.superclasses Eq := by
  refine (M.sees rfl rfl).bind_eq fun b => .ite Iff.rfl ?_ (.pure rfl)
  exact M.take.bind_eq fun _ => M.dottedName.bind_eq fun _ => M.superclass?.many_eq.bind_eq fun _ => .pure rfl

/-! ## Attributes -/

section Attributes

variable {p p' : Position} (hitem : ∀ v v', M.value v v' → M.item ⟨name, v, p⟩ ⟨name, v', p'⟩)
include hitem

theorem itemEnd {v v' : AttributeValue} (hv : M.value v v') :
    M.Rel (Read.itemEnd name v p) (Read.itemEnd name v' p') (Option.Rel M.item) := by
  refine M.skipLines.bind_eq fun _ => M.peek.bind fun u u' hu => ?_
  have hdone : Option.Rel M.item (some ⟨name, v, p⟩) (some ⟨name, v', p'⟩) := .some (hitem v v' hv)
  refine .ite ((M.kind hu).eq_iff rfl rfl) (M.take.bind_eq fun _ => .pure hdone) ?_
  exact .ite (not_congr ((M.kind hu).eq_iff rfl rfl)) (M.unexpected_bind hu) (.pure hdone)

theorem itemValue :
    M.Rel (Read.itemValue M.text name p) (Read.itemValue M.text' name p') (Option.Rel M.item) :=
  M.skipLines.bind_eq fun _ => M.attributeValue.bind fun _ _ hv => M.itemEnd hitem hv

theorem itemRest {negated : Bool} :
    M.Rel (Read.itemRest M.text negated name p) (Read.itemRest M.text' negated name p')
    (Option.Rel M.item) := by
  refine M.skipLines.bind_eq fun _ => (M.sees rfl rfl).bind_eq fun assigned =>
    .ite Iff.rfl ?_ (M.itemEnd hitem (M.flag _))
  exact M.take.bind_eq fun _ => M.itemValue hitem

end Attributes

theorem attributeItem? :
    M.Rel (Read.attributeItem? M.text) (Read.attributeItem? M.text') (Option.Rel M.item) := by
  rw [Read.attributeItem?_eq, Read.attributeItem?_eq]
  refine M.skipLines.bind_eq fun _ => (M.sees rfl rfl).bind_eq fun closes => ?_
  refine .ite Iff.rfl (M.take.bind_eq fun _ => .pure .none) ((M.sees rfl rfl).bind_eq fun negated => ?_)
  exact .when M.take (M.name_bind fun _ _ _ ht => M.itemRest fun _ _ => M.item_mk ht)

theorem attributes : M.Rel (Read.attributes M.text) (Read.attributes M.text') (Forall₂ M.item) :=
  (M.sees rfl rfl).bind_eq fun _ =>
    .ite Iff.rfl (M.take.bind_eq fun _ => M.rel_many M.attributeItem?) (.pure .nil)

variable {M} in
theorem anyAsserted_eq (h : Forall₂ M.item as as') (name : Text) :
    Attribute.anyAsserted as name = Attribute.anyAsserted as' name := by
  induction h with
  | nil => rfl
  | cons ha _ ih =>
    simp only [Attribute.anyAsserted, any_cons, M.asserted_eq ha, M.name_eq ha] at ih ⊢
    rw [ih]

/-! ## Members -/

theorem propertyType : M.Rel Read.propertyType Read.propertyType Eq := by
  refine (M.sees rfl rfl).bind_eq fun b => .ite Iff.rfl ?_ ((M.sees rfl rfl).bind_eq fun paren => ?_)
  · refine M.take.bind_eq fun _ => M.dottedName.bind_eq fun type => ?_
    refine (Rel.discard (M.rel_many (A := M.token) (M.seesIdentifier.bind_eq fun b => ?_))).bind_eq
      fun _ => .pure rfl
    exact .ite Iff.rfl (M.advance.map fun _ _ ht => .some ht) (.pure .none)
  · refine .when M.skipGroup (M.seesIdentifier.bind_eq fun b => ?_)
    extract_lets typed
    have htyped (type : Option DottedName) : M.Rel (typed type) (typed type) Eq :=
      (M.sees rfl rfl).bind_eq fun _ => .when M.skipGroup (.pure rfl)
    exact .ite Iff.rfl ((M.dottedName.map (B := Eq) fun _ _ h => congrArg some h).bind_eq htyped)
      (htyped none)

theorem property : M.Rel (Read.property M.text) (Read.property M.text') M.member := by
  refine M.name_bind fun token token' name htoken => M.propertyType.bind_eq fun type =>
    (M.sees rfl rfl).bind_eq fun b => ?_
  extract_lets ended ended'
  have hended (v v' : Option Text) (hv : Option.Rel M.part v v') : M.Rel (ended v) (ended' v') M.member :=
    M.lastLine.bind fun _ _ hline => M.endStatement.bind_eq fun _ => .pure (M.property_mk htoken hv hline)
  refine .ite Iff.rfl ?_ (hended none none .none)
  exact M.take.bind_eq fun _ => (M.defaultValue.map fun _ _ hv => .some hv).bind hended

theorem event : M.Rel Read.event Read.event M.member :=
  M.name_bind fun _ _ _ ht => M.lastLine.bind fun _ _ hline =>
    M.endStatement.bind_eq fun _ => .pure (M.event_mk ht hline)

theorem functionRest (hmethod : ∀ s b b' l l', Option.Rel M.body b b' → M.line l l' →
      M.member (Read.methodOf s b isAbstract ⟨t.line, l⟩ t)
      (Read.methodOf s b' isAbstract ⟨t'.line, l'⟩ t')) :
    M.Rel (Read.functionRest limits M.text isAbstract t)
    (Read.functionRest limits M.text' isAbstract t') M.member := by
  refine M.signature.bind_eq fun s => M.lastLine.bind fun l l' hline => M.endHeader.bind_eq fun _ => ?_
  refine .ite Iff.rfl (.pure (hmethod s none none l l' .none hline)) ?_
  exact ((M.bodies _ _).map fun _ _ hb => .some hb).bind fun b b' hb => .pure (hmethod s b b' l l' hb hline)

theorem functionMember :
    M.Rel (Read.functionMember limits M.text isAbstract)
    (Read.functionMember limits M.text' isAbstract) M.member :=
  M.advance.bind fun _ _ ht => M.functionRest fun _ _ _ _ _ => M.method_mk ht

theorem prototype : M.Rel (Read.prototype isAbstract) (Read.prototype isAbstract) M.member :=
  M.peek.bind fun _ _ ht => M.signature.bind_eq fun _ => M.lastLine.bind fun _ _ hline =>
    M.endStatement.bind_eq fun _ => .pure (M.method_mk ht .none hline)

theorem member? :
    M.Rel (Read.member? limits M.text kind isAbstract) (Read.member? limits M.text' kind isAbstract)
    (Option.Rel M.member) := by
  refine (M.skipLayout _).bind_eq fun _ => M.peek.bind fun t t' ht => ?_
  refine (M.kind ht).elim (fun k => ?_) (fun _ _ => M.unexpected ht) (fun _ _ => M.unexpected ht) fun _ _ =>
    M.unexpected ht
  split
  · exact M.take.bind_eq fun _ => .pure .none
  · exact M.functionMember.map fun _ _ hm => .some hm
  · exact M.rel_refuse ht rfl
  · exact M.property.map fun _ _ hm => .some hm
  · exact M.event.map fun _ _ hm => .some hm
  · exact M.prototype.map fun _ _ hm => .some hm
  · exact M.prototype.map fun _ _ hm => .some hm
  · exact M.unexpected ht

/-! ## Blocks and classes -/

section Blocks

variable {B : Member → Member → Prop} {C : Block → Block → Prop}
  (hmember : ∀ kind isAbstract,
  M.Rel (Read.member? limits M.text kind isAbstract) (Read.member? limits M.text' kind isAbstract)
  (Option.Rel B))
include hmember

theorem blockRest (hblock : ∀ as as' ms ms', Forall₂ M.item as as' → Forall₂ B ms ms' →
      C ⟨kind, as, ms, t.span.start⟩ ⟨kind, as', ms', t'.span.start⟩) :
    M.Rel (Read.blockRest limits M.text kind t) (Read.blockRest limits M.text' kind t') C := by
  refine M.attributes.bind fun as as' has => M.endHeader.bind_eq fun _ => ?_
  rw [anyAsserted_eq has]
  exact (M.rel_many (hmember _ _)).bind fun ms ms' hms => .pure (hblock as as' ms ms' has hms)

theorem block? (hblock : ∀ kind t t' as as' ms ms', M.token t t' → Forall₂ M.item as as' → Forall₂ B ms ms' →
      C ⟨kind, as, ms, t.span.start⟩ ⟨kind, as', ms', t'.span.start⟩) :
    M.Rel (Read.block? limits M.text name) (Read.block? limits M.text' name) (Option.Rel C) := by
  refine (M.skipLayout _).bind_eq fun _ => M.peek.bind fun t t' ht => ?_
  have declared (kind : BlockKind) :
      M.Rel (some <$> Read.block limits M.text kind) (some <$> Read.block limits M.text' kind)
      (Option.Rel C) :=
    Rel.map (M.advance.bind fun _ _ ht => M.blockRest hmember fun _ _ _ _ =>
      hblock kind _ _ _ _ _ _ ht) fun _ _ hb => .some hb
  refine (M.kind ht).elim (fun k => ?_) (fun _ _ => M.unexpected ht) (fun _ _ => M.unexpected ht) fun _ _ =>
    M.unexpected ht
  split
  · exact M.take.bind_eq fun _ => .pure .none
  · exact declared _
  · exact declared _
  · exact declared _
  · exact M.rel_refuse ht rfl
  · exact M.rel_refuse ht rfl
  · exact M.rel_refuse ht rfl
  · exact M.rel_refuse ht rfl
  · exact M.unexpected ht

end Blocks

theorem localFunction? :
    M.Rel (Read.localFunction? limits M.text) (Read.localFunction? limits M.text') (Option.Rel Eq) := by
  refine (M.skipLayout _).bind_eq fun _ => M.peek.bind fun t t' ht => ?_
  refine (M.kind ht).elim (fun k => ?_) (fun _ _ => M.unexpected ht) (fun _ _ => M.unexpected ht) fun _ _ =>
    M.unexpected ht
  split
  · exact .pure .none
  · exact .ite Iff.rfl (M.functionMember.discard.bind_eq fun _ => .pure (.some rfl)) (M.rel_refuse ht rfl)
  · exact M.unexpected ht

section Classes

variable {C : ClassDecl → ClassDecl → Prop}

theorem headEnd {line line' : Nat}
    (hhead : ∀ name supers l l' t t', M.line l l' → M.token t t' →
      C ⟨name, supers, as, [], [], ⟨line, l⟩, t.span.start⟩ ⟨name,
        supers, as', [], [], ⟨line', l'⟩, t'.span.start⟩) :
    M.Rel (Read.headEnd line as) (Read.headEnd line' as') C :=
  M.name_bind fun _ _ _ ht => M.superclasses.bind_eq fun _ =>
    M.lastLine.bind fun _ _ hline => M.endHeader.bind_eq fun _ =>
    .pure (hhead _ _ _ _ _ _ hline ht)

theorem classHead (hhead : ∀ name supers as as' u u' l l' t t',
    M.token u u' → Forall₂ M.item as as' → M.line l l' →
      M.token t t' → C ⟨name, supers, as, [], [], ⟨u.line, l⟩,
        t.span.start⟩ ⟨name, supers, as', [], [], ⟨u'.line, l'⟩, t'.span.start⟩) :
    M.Rel (Read.classHead M.text) (Read.classHead M.text') C := by
  refine (M.skipLayout _).bind_eq fun _ => M.peek.bind fun t t' ht => ?_
  refine (M.kind ht).elim (fun k => ?_) (fun _ _ => M.refuse_bind ht rfl) (fun _ _ => M.refuse_bind ht rfl)
    fun _ _ => M.refuse_bind ht rfl
  split
  · refine M.take.bind_eq fun _ => M.attributes.bind fun as as' has => M.headEnd fun _ _ _ _ _ _ => ?_
    exact hhead _ _ as as' _ _ _ _ _ _ ht has
  · exact M.refuse_bind ht rfl
  · exact M.refuse_bind ht rfl

end Classes

end Parallel

end ClassdefDoc
