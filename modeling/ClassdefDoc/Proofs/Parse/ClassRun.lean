import ClassdefDoc.Proofs.Parse.Fork

/-!
# A class with a fork

A class is read as its head, its blocks and the functions behind it (`ClassRun`). Where two texts fork
in a block of the class or in a function behind it, and are read side by side behind the fork, the
classes of both are the same but for their places, and their bodies end at the same `end` (`SameClass`).
-/

namespace ClassdefDoc

open List Shift LooseComment
open ClassDecl (parse unplaced parse_eq_ok_iff ofTokens_eq_ok_iff)

variable {c : ClassDecl} {as : List Attribute}

namespace Read

variable {t : Token} {q q₁ q₂ : Reader}

/-- Behind the layout at `r` the head of the class `c` is read: its first
word `t` at `q`, its attributes at `q₁` and its name at `q₂`. -/
structure HeadRun (text : Text) (c : ClassDecl) (t : Token) (r q q₁ q₂ s : Reader) : Prop where
  skip : skipLayout true r = .ok ((), q)
  ahead : ∃ rest, q.ahead = t :: rest
  word : t.kind = .keyword .classdef
  take : advance q = .ok (t, q₁)
  attributes : Read.attributes text q₁ = .ok (c.attributes, q₂)
  rest : headEnd t.line c.attributes q₂ = .ok (c, s)

theorem attributes_of_headEnd {line : Nat} {r s : Reader} (h : headEnd line as r = .ok (c, s)) :
    c.attributes = as := by
  obtain ⟨_, _, -, h⟩ := bind_eq_ok_iff.1 h
  obtain ⟨_, _, -, h⟩ := bind_eq_ok_iff.1 h
  obtain ⟨_, _, -, h⟩ := bind_eq_ok_iff.1 h
  obtain ⟨_, _, -, ⟨⟩⟩ := bind_eq_ok_iff.1 h
  rfl

theorem classHead_run {text : Text} {r : Reader} :
    Triple (· = r) (classHead text) fun c s => ∃ t q q₁ q₂, HeadRun text c t r q q₁ q₂ s := by
  refine Triple.bind (Q := fun _ q => skipLayout true r = .ok ((), q) ∧ Fresh q) ?_ fun _ =>
    peek_spec.bind fun t => ?_
  · rintro _ _ q rfl hskip
    exact ⟨hskip, skipLayout_fresh (P := fun _ => True) trivial hskip⟩
  split
  · rename_i hkind
    rintro q c s ⟨⟨hskip, hfresh⟩, hsees⟩ hrun
    obtain ⟨_, q₁, hdiscard, hrun⟩ := bind_eq_ok_iff.1 hrun
    obtain ⟨t', htake⟩ := of_discard hdiscard
    obtain rfl : t' = t := Option.some.inj ((advance_last htake).1.symm.trans hsees)
    obtain ⟨as, q₂, hattributes, hrest⟩ := bind_eq_ok_iff.1 hrun
    obtain rfl := attributes_of_headEnd hrest
    exact ⟨t', q, q₁, q₂, hskip, hfresh.sees hsees, hkind, htake, hattributes, hrest⟩
  · exact .refuse_bind
  · exact .refuse_bind

theorem HeadRun.wordRun {text : Text}
    {r s : Reader} (h : HeadRun text c t r q q₁ q₂ s) :
    WordRun true t r q q₁ :=
  ⟨h.skip, h.ahead, by rw [h.word]; exact ⟨rfl, by simp⟩, h.take⟩

theorem HeadRun.classHead {text : Text}
    {r s : Reader} (h : HeadRun text c t r q q₁ q₂ s) :
    Read.classHead text r = .ok (c, s) := by
  rw [Read.classHead, bind_eq h.skip, bind_eq h.wordRun.peek, h.word]
  refine (bind_eq (map_eq h.take)).trans ?_
  exact (bind_eq h.attributes).trans h.rest

/-- The class `c` is read from `r` on: its blocks at `r₁` and the functions behind it at `r₂`. -/
structure ClassRun (limits : Limits) (text : Text) (c : ClassDecl) (r r₁ r₂ s : Reader) : Prop where
  head : classHead text r = .ok ({ c with blocks := [], comments := [] }, r₁)
  blocks : many (block? limits text c.name) r₁ = .ok (c.blocks, r₂)
  comments : c.comments = group r₂.comments
  functions : ∃ us, many (localFunction? limits text) r₂ = .ok (us, s)

variable {limits : Limits} {text : Text} {c : ClassDecl} {r s : Reader}

theorem classFile_run (hat : At text [] r) (h : classFile limits text r = .ok (c, s)) :
    ∃ r₁ r₂, ClassRun limits text c r r₁ r₂ s := by
  rw [classFile_eq_classPart] at h
  obtain ⟨d, r₂, hclass, h⟩ := bind_eq_ok_iff.1 h
  obtain ⟨_, _, hdiscard, ⟨⟩⟩ := bind_eq_ok_iff.1 h
  rw [classPart_eq_classHead] at hclass
  obtain ⟨head, r₁, hhead, hclass⟩ := bind_eq_ok_iff.1 hclass
  obtain ⟨blocks, _, hblocks, ⟨⟩⟩ := bind_eq_ok_iff.1 hclass
  obtain ⟨⟨⟨hempty, hnone⟩, -⟩, -⟩ := classHead_spec hat hhead
  obtain ⟨name, superclasses, attributes, _, _, header, position⟩ := head
  obtain rfl : _ = [] := hempty
  obtain rfl : _ = [] := hnone
  obtain ⟨us, hfunctions⟩ := of_discard hdiscard
  exact ⟨r₁, r₂, hhead, hblocks, rfl, us, hfunctions⟩

/-- A class that is parsed is read from the tokens of its text. -/
theorem exists_classRun {tokens : List Token} (hparse : parse limits text = .ok c)
    (hscan : scan text = .ok tokens) :
    ∃ r₁ r₂ s, ClassRun limits text c ⟨tokens, none, []⟩ r₁ r₂ s := by
  obtain ⟨_, s, hscan', hfile⟩ := ClassDecl.exists_run_of_parse hparse
  obtain rfl := Except.ok.inj (hscan.symm.trans hscan')
  obtain ⟨r₁, r₂, hrun⟩ := classFile_run (ahead_of_scan hscan) hfile
  exact ⟨r₁, r₂, s, hrun⟩

theorem ClassRun.classPart {r₁ r₂ : Reader} (h : ClassRun limits text c r r₁ r₂ s) :
    Read.classPart limits text r = .ok (c, r₂) := by
  rw [classPart_eq_classHead, bind_eq h.head]
  refine (bind_eq h.blocks).trans ?_
  obtain ⟨-, -, hcomments, -⟩ := h
  cases c
  cases hcomments
  rfl

theorem ClassRun.classFile {r₁ r₂ : Reader} (h : ClassRun limits text c r r₁ r₂ s) :
    Read.classFile limits text r = .ok (c, s) := by
  obtain ⟨us, hfunctions⟩ := h.functions
  rw [classFile_eq_classPart, bind_eq h.classPart]
  exact bind_eq (map_eq hfunctions)

theorem turning_localFunction? : Turning (localFunction? limits text) := by
  refine near_skipLayout.bind fun _ => near_peek.bind fun t => ?_
  split
  · exact .pure (by rintro ⟨⟩)
  · refine .ite (Local.first (taking_functionMember.discard) fun _ => .pure id) .refuse
  · exact .unexpected

/-! ## The block among others -/

/-- A block is read at `p`, behind the blocks `before`; the blocks `behind`
and the end of the class follow. -/
structure BlockAmong (limits : Limits) (text : Text) (tokens : List Token)
    (c : ClassDecl) (b : Block) (before behind : List Block)
    (t : Token) (r₁ p q q₁ q₂ p₁ r₂ : Reader) : Prop where
  blocks : c.blocks = before ++ b :: behind
  past : Chain (turn (block? limits text c.name)) r₁ before p
  rest : Collected (turn (block? limits text c.name)) p₁ behind r₂
  place : At text [] p
  suffix : p.ahead <:+ tokens
  run : BlockRun limits text b t p q q₁ q₂ p₁

variable {tokens : List Token} {b : Block} {r₁ r₂ : Reader}

theorem ClassRun.exists_block (hscan : scan text = .ok tokens)
    (hrun : ClassRun limits text c ⟨tokens, none, []⟩ r₁ r₂ s) (hb : b ∈ c.blocks) :
    ∃ before behind t p q q₁ q₂ p₁, BlockAmong limits text tokens c b before behind t r₁ p q q₁ q₂ p₁ r₂ := by
  obtain ⟨before, behind, hblocks⟩ := append_of_mem hb
  obtain ⟨p₂, hchain, hdone⟩ := (collected_of_collect hrun.blocks).chain
  rw [hblocks] at hchain
  obtain ⟨p, hpast, hrest⟩ := hchain.of_append
  have hat : At text [] p := by
    refine hpast.keeps (fun hr hturn => ?_) (classHead_spec (ahead_of_scan hscan) hrun.head).2
    exact block?_at hr (step_of_turn hturn)
  have hsuffix : p.ahead <:+ tokens :=
    (Fork.suffix_of_chain closing_block?.turning hpast).trans (near_classHead.suffix hrun.head)
  cases hrest with
  | @cons _ _ p₁ _ _ hturn hbehind =>
    obtain ⟨t, q, q₁, q₂, hblock⟩ := block?_run (step_of_turn hturn)
    exact ⟨before, behind, t, p, q, q₁, q₂, p₁, hblocks, hpast, hbehind.collected hdone, hat, hsuffix, hblock⟩

end Read

/-! ## Classes that are the same but for their places -/

namespace ClassDecl

theorem members_bare (c : ClassDecl) : c.bare.members = c.members.map (·.bare) := by
  simp only [members, bare, flatMap_map, map_flatMap]
  rfl

theorem hasProperty_bare (c : ClassDecl) (name : Text) : c.bare.hasProperty name = c.hasProperty name := by
  have hkind (m : Member) : m.bare.kind = m.kind := by
    cases hdetail : m.detail <;> simp [Member.bare, Member.kind, Detail.bare, Detail.kind, hdetail]
  simp only [hasProperty, members_bare, any_map, Function.comp_def, hkind]
  rfl

/-- Accessors are checked without regard to places and to what bodies hold. -/
theorem accessorFault?_bare (c : ClassDecl) (m : Member) :
    (c.bare.accessorFault? m.bare).isSome = (c.accessorFault? m).isSome := by
  unfold accessorFault?
  cases hdetail : m.detail with
  | property | event => simp [Member.bare, Detail.bare, hdetail]
  | method d =>
    obtain ⟨params, returns, body, isAbstract, accessor⟩ := d
    simp only [Member.bare, Detail.bare, hdetail]
    cases accessor with
    | none => rfl
    | some accessor =>
      dsimp only
      rw [hasProperty_bare]
      split_ifs <;> rfl

theorem accessors_of_bare {c' : ClassDecl} (h : c.bare = c'.bare)
    (hc : c.members.findSome? c.accessorFault? = none) :
    c'.members.findSome? c'.accessorFault? = none := by
  have hiff (c : ClassDecl) : c.members.findSome? c.accessorFault? = none ↔
      ∀ m ∈ c.bare.members, (c.bare.accessorFault? m).isSome = false := by
    simp only [findSome?_eq_none_iff, members_bare, forall_mem_map, accessorFault?_bare]
    simp only [Option.isSome_eq_false_iff, Option.isNone_iff_eq_none]
  rw [hiff] at hc ⊢
  rwa [← h]

end ClassDecl

namespace Shift

open Read

variable {D : Shift} {limits : Limits} {c c' : ClassDecl} {s : Reader}

/-- Classes that are the same but for their places, with bodies that end at the same `end`. -/
structure SameClass (D : Shift) (limits : Limits) (c c' : ClassDecl) : Prop where
  bare : c.bare = c'.bare
  members : Forall₂ (D.SameMember limits) c.members c'.members

theorem sameClass_of_blocks
    (hhead : { c with blocks := [], comments := [] }.bare = { c' with blocks := [], comments := [] }.bare)
    (hbs : Forall₂ (D.SameBlock limits) c.blocks c'.blocks) : D.SameClass limits c c' := by
  refine ⟨?_, rel_flatMap hbs fun _ _ hb => hb.members⟩
  have hbare : c.blocks.map (·.bare) = c'.blocks.map (·.bare) := map_eq_of_forall₂ hbs fun _ _ h => h.bare
  simp only [ClassDecl.bare, unplaced, ClassDecl.mk.injEq] at hhead ⊢
  exact ⟨hhead.1, hhead.2.1, hhead.2.2.1, hbare, trivial, trivial, trivial⟩

/-! ## The head of a class in step -/

theorem follows_headEnd (line line' : Nat) {as' : List Attribute}
    (has : as.map (·.unplaced) = as'.map (·.unplaced)) :
    D.Follows (headEnd line as) (headEnd line' as') fun c c' => c.bare = c'.bare :=
  D.parallel.headEnd fun _ _ _ _ _ _ _ _ => by simp only [ClassDecl.bare, unplaced, has]

/-- A class that is read from the second text is its class, if it is the same but for its places. -/
theorem parse_of_classFile (hD : D.Scanned) (hc : parse limits D.text = .ok c)
    (hfile : classFile limits D.text' ⟨D.tokens', none, []⟩ = .ok (c', s)) (hbare : c.bare = c'.bare) :
    parse limits D.text' = .ok c' := by
  obtain ⟨tokens, hscan, htokens⟩ := parse_eq_ok_iff.1 hc
  obtain ⟨-, -, haccessors⟩ := ofTokens_eq_ok_iff.1 htokens
  refine parse_eq_ok_iff.2 ⟨_, hD.scan_eq',
    ofTokens_eq_ok_iff.2 ⟨?_, ⟨s, hfile⟩, ClassDecl.accessors_of_bare hbare haccessors⟩⟩
  obtain ⟨ts, _, e, -, -, he⟩ := scan_eq_ok_iff.1 hD.scan_eq'
  rw [he, getLast?_concat, Option.map_some]
  exact congrArg some (eof_of_suffix hD.scan_eq' (he ▸ suffix_append _ _))

end Shift

namespace Fork

open Read

variable {F : Fork} {limits : Limits} {c : ClassDecl} {p p₁ r₁ r₂ s : Reader} {u : Token} {z : List Token}

section

variable (hrun : ClassRun limits F.text c ⟨F.tokens, none, []⟩ r₁ r₂ s) {before : List Block}
include hrun

/-- Up to a token before the fork the head of the class and its first blocks are read from both texts. -/
theorem exists_head (hu : isLayout u.kind = false)
    (hr₁ : u :: z ++ F.tail <:+ r₁.ahead) : ∃ d r₁', classHead F.text' ⟨F.tokens', none, []⟩ =
      .ok ({ c with blocks := [], comments := [] }, r₁') ∧ F.Before d r₁ r₁' := by
  obtain ⟨d, head, r₁', hhead', hhead, hr₁'⟩ :=
    F.before_start.near near_classHead near_classHead Likeness.twin_classHead hrun.head hu hr₁
  obtain rfl : _ = head := hhead.eq_of_shared
  exact ⟨d, r₁', hhead', hr₁'⟩

theorem exists_blocks (hpast : Chain (turn (block? limits F.text c.name)) r₁ before p)
    (hu : isLayout u.kind = false) (hp : u :: z ++ F.tail <:+ p.ahead) :
    ∃ d r₁' p', classHead F.text' ⟨F.tokens', none, []⟩ =
      .ok ({ c with blocks := [], comments := [] }, r₁') ∧
      Chain (turn (block? limits F.text' c.name)) r₁' before p' ∧ F.Before d p p' := by
  obtain ⟨_, r₁', hhead', hr₁'⟩ :=
    exists_head hrun hu (hp.trans (suffix_of_chain closing_block?.turning hpast))
  obtain ⟨d, before', p', hpast', hbefore', hp'⟩ :=
    hr₁'.chain closing_block?.turning closing_block?.turning Likeness.twin_block? hu hpast hp
  obtain rfl : before = before' := Likeness.eq_of_forall₂ Likeness.LikeBlock.eq_of_shared hbefore'
  exact ⟨d, r₁', p', hhead', hpast', hp'⟩

/-- The fork is in a block of the class. -/
theorem exists_class_of_block {behind : List Block} {b : Block}
    (hblocks : c.blocks = before ++ b :: behind)
    (hpast : Chain (turn (block? limits F.text c.name)) r₁ before p)
    (hbehind : Collected (turn (block? limits F.text c.name)) p₁ behind r₂)
    (hu : isLayout u.kind = false) (hp : u :: z ++ F.tail <:+ p.ahead)
    (hfork : ∀ {d p'}, F.Before d p p' → ∃ b' p₁', block? limits F.text' c.name p' = .ok (some b', p₁') ∧
      F.SameBlock limits b b' ∧ F.Resync 1 p₁ p₁') :
    ∃ c' s', classFile limits F.text' ⟨F.tokens', none, []⟩ = .ok (c', s') ∧ F.SameClass limits c c' := by
  obtain ⟨_, r₁', p', hhead', hpast', hp'⟩ := exists_blocks hrun hpast hu hp
  obtain ⟨b', p₁', hround', hb, hp₁⟩ := hfork hp'
  obtain ⟨behind', r₂', hbehind', hrest, hr₂⟩ : ∃ behind' r₂',
      Collected (turn (block? limits F.text' c.name)) p₁' behind' r₂' ∧
      Forall₂ (F.SameBlock limits) behind behind' ∧ F.Resync 0 r₂ r₂' :=
    collected_of_steps (fun hr hround => Resync.block? F.scanned hr hround) hbehind hp₁
  have hcollected : Collected (turn (block? limits F.text' c.name)) r₁' (before ++ b' :: behind') r₂' :=
    Chain.append_collected hpast' (.item (by rw [turn, hround']) hbehind')
  have hmany := many_of_closing closing_block? (ne_nil_of_meeting fun _ =>
    block?_meeting) F.scan_eq' hr₂.suffix' hcollected
  obtain ⟨us, hfunctions⟩ := hrun.functions
  obtain ⟨us', s', hfunctions'⟩ := hr₂.localFunctions hfunctions
  refine ⟨{ c with blocks := before ++ b' :: behind', comments := group r₂'.comments }, s',
    ClassRun.classFile ⟨hhead', hmany, rfl, us', hfunctions'⟩, ?_⟩
  refine sameClass_of_blocks rfl ?_
  rw [hblocks]
  refine rel_append (forall₂_same.2 fun b hb => ?_) (.cons hb hrest)
  obtain ⟨q, q', hround, hq, hq'⟩ := exists_round_of_mem closing_block?.turning hpast hb
  exact sameBlock_before hround (hq.trans (near_classHead.suffix hrun.head)) (hp.trans hq')

/-- The fork is in a function behind the class. -/
theorem exists_class_of_function {before behind : List Unit}
    (hpast : Chain (turn (localFunction? limits F.text)) r₂ before p)
    (hbehind : Collected (turn (localFunction? limits F.text)) p₁ behind s) (hu : isLayout u.kind = false)
    (hp : u :: z ++ F.tail <:+ p.ahead) (hfork : ∀ {d p'}, F.Before d p p' → ∃ p₁',
      localFunction? limits F.text' p' = .ok (some (), p₁') ∧
      F.Readers p₁ p₁') :
    ∃ c' s', classFile limits F.text' ⟨F.tokens', none, []⟩ = .ok (c', s') ∧ F.SameClass limits c c' := by
  have hr₂ : u :: z ++ F.tail <:+ r₂.ahead := hp.trans (suffix_of_chain turning_localFunction? hpast)
  have hr₁ : u :: z ++ F.tail <:+ r₁.ahead := hr₂.trans (closing_block?.turning.many.suffix hrun.blocks)
  have hsuffix : r₁.ahead <:+ F.tokens := near_classHead.suffix hrun.head
  obtain ⟨_, r₁', hhead', hr₁'⟩ := exists_head hrun hu hr₁
  obtain ⟨_, bs, r₂', hblocks', hbs, hr₂'⟩ :=
    hr₁'.near closing_block?.turning.many closing_block?.turning.many
    (Likeness.Twin.many Likeness.twin_block?) hrun.blocks hu hr₂
  obtain rfl : c.blocks = bs := Likeness.eq_of_forall₂ Likeness.LikeBlock.eq_of_shared hbs
  obtain ⟨_, before', p', hpast', -, hp'⟩ :=
    hr₂'.chain turning_localFunction? turning_localFunction? Likeness.twin_localFunction? hu hpast hp
  obtain ⟨p₁', hround', hp₁⟩ := hfork hp'
  obtain ⟨behind', s', hbehind', -⟩ := follows_localFunction?.collected hbehind hp₁
  have hturn' : turn (localFunction? limits F.text') p' = .ok (.item () p₁') := by rw [turn, hround']
  have hfunctions' := many_localFunctions (Chain.append_collected hpast' (.item hturn' hbehind'))
  refine ⟨{ c with comments := group r₂'.comments }, s',
    ClassRun.classFile ⟨hhead', hblocks', rfl, _, hfunctions'⟩, ?_⟩
  refine sameClass_of_blocks rfl (forall₂_same.2 fun b hb => ?_)
  obtain ⟨p₂, hchain, hdone⟩ := (collected_of_collect hrun.blocks).chain
  obtain ⟨q, q', hround, hq, hq'⟩ := exists_round_of_mem closing_block?.turning hchain hb
  exact sameBlock_before hround (hq.trans hsuffix)
    ((hr₂.trans (closing_block?.suffix (stop_of_turn hdone))).trans hq')

end

end Fork

end ClassdefDoc
