import ClassdefDoc.Proofs.Parse.ClassRun
import ClassdefDoc.Proofs.Parse.Insertion

/-!
# Layout in attribute lists

A line end, or a comment with its line end, may be written between the tokens of an
attribute list of a class or of one of its blocks, and the names and values of the
attributes stay the same (`ClassDecl.exists_parse_inserted`), but not behind a value: a
value goes on up to the comma or the parenthesis behind it, and takes in the line.
-/

namespace ClassdefDoc

open Read List Insertion Shift

/-- The names and values of the attributes of a class and of its blocks. -/
def ClassDecl.attributeLists (c : ClassDecl) : List (List (Text × AttributeValue)) :=
  (c.attributes :: c.blocks.map (·.attributes)).map (·.map fun a => (a.name, a.value))

theorem ClassDecl.attributeLists_bare (c : ClassDecl) : c.bare.attributeLists = c.attributeLists := by
  simp [attributeLists, bare, Block.bare, unplaced, Block.unplaced, Attribute.unplaced, Function.comp_def]

/-- The token `t` behind `past` is the first word of the class or of one of its blocks. -/
inductive ListHeader (c : ClassDecl) (past : List Token) (t : Token) : Prop
  | head : (∀ u ∈ past, isLayout u.kind) → t.kind = .keyword .classdef → ListHeader c past t
  | block {b : Block} : b ∈ c.blocks → t.span.start = b.position → ListHeader c past t

namespace Insertion

variable {I : Insertion} {limits : Limits} {past ts d : List Token} {c : ClassDecl} {t : Token} {b : Block}
  {slot : Slot} {r₁ r₂ s q₁ q₂ p p₁ q p' : Reader}

/-- The list of the second text is read behind the same word. -/
theorem exists_list {record : Bool}
    (hbefore : I.Before d p p') (hp : p.ahead <:+ I.tokens) (hword : WordRun record t p q q₁)
    (hq₁ : q₁.ahead = ts ++ I.tail) :
    ∃ q' q₁', WordRun record t p' q' q₁' ∧ q₁'.ahead = ts ++ I.tail' := by
  obtain ⟨z, q', q₁', hword', hq₁'⟩ := hbefore.word hp hword (d := ts) (by rw [hq₁])
  obtain rfl : z = ts := append_cancel_right (hq₁'.ahead.symm.trans hq₁)
  exact ⟨q', q₁', hword', hq₁'.ahead'⟩

/-- A block with the line in its attributes, behind which the readings go on side by side. -/
theorem exists_block {name : Text}
    (hbefore : I.Before d p p') (hp : p.ahead <:+ I.tokens) (hrun : BlockRun limits I.text b t p q q₁ q₂ p₁)
    (hwithin : slot.Within ts) (hts : ts ⊆ I.before) (hq₁ : q₁.ahead = ts ++ I.tail) :
    ∃ b' p₁', block? limits I.text' name p' = .ok (some b', p₁') ∧
      I.SameBlock limits b b' ∧ I.Readers p₁ p₁' := by
  obtain ⟨q', q₁', hword', hq₁'⟩ := exists_list hbefore hp hrun.wordRun hq₁
  obtain ⟨as', q₂', hattributes', has, hq₂⟩ := exists_attributes hwithin hts hq₁ hq₁' hrun.attributes
  obtain ⟨_, q₃', hheader', -, -⟩ := follows_endHeader hq₂ hrun.header
  obtain rfl : q₃' = q₂' := endHeader_spec (P := (· = q₂')) rfl hheader'
  obtain ⟨ms', p₁', hmembers', hms, hp₁⟩ := (follows_member? I.scanned).many hq₂ hrun.members
  have habstract : b.isAbstract = Block.isAbstract ⟨b.kind, as', ms', t.span.start⟩ := by
    simp only [Block.isAbstract, Attribute.anyAsserted_unplaced has]
  rw [habstract] at hmembers'
  exact ⟨⟨b.kind, as', ms', t.span.start⟩, p₁',
    BlockRun.block? (q := q') ⟨hword'.skip, hword'.ahead, hrun.word,
    hword'.take, hattributes', hheader', hmembers', rfl⟩, sameBlock_of_members has hms, hp₁⟩

section

variable (hrun : ClassRun limits I.text c ⟨I.tokens, none, []⟩ r₁ r₂ s)
include hrun

/-- A class with the line in the attributes of its head. -/
theorem exists_class_of_head
    (hhead : HeadRun I.text { c with blocks := [], comments := [] } t ⟨I.tokens, none, []⟩ q q₁ q₂ r₁)
    (hwithin : slot.Within ts) (hts : ts ⊆ I.before)
    (hq₁ : q₁.ahead = ts ++ I.tail) :
    ∃ c' s', classFile limits I.text' ⟨I.tokens', none, []⟩ = .ok (c', s') ∧ I.SameClass limits c c' := by
  obtain ⟨q', q₁', hword', hq₁'⟩ := exists_list I.before_start suffix_rfl hhead.wordRun hq₁
  obtain ⟨as', q₂', hattributes', has, hq₂⟩ := exists_attributes hwithin hts hq₁ hq₁' hhead.attributes
  obtain ⟨head', r₁', hrest', hbare, hr₁⟩ := follows_headEnd t.line t.line has hq₂ hhead.rest
  obtain rfl := attributes_of_headEnd hrest'
  have hhead' : classHead I.text' ⟨I.tokens', none, []⟩ = .ok (head', r₁') :=
    HeadRun.classHead ⟨hword'.skip, hword'.ahead, hhead.word, hword'.take, hattributes', hrest'⟩
  obtain ⟨⟨⟨hblocks, hcomments⟩, -⟩, -⟩ := classHead_spec (ahead_of_scan I.scan_eq') hhead'
  have hname := congrArg ClassDecl.name hbare
  change c.name = head'.name at hname
  obtain ⟨bs', r₂', hblocks', hbs, hr₂⟩ := (follows_block? I.scanned).many hr₁ hrun.blocks
  obtain ⟨us, hfunctions⟩ := hrun.functions
  obtain ⟨us', s', hfunctions', -, -⟩ := follows_localFunction?.many hr₂ hfunctions
  rw [hname] at hblocks'
  obtain ⟨name, superclasses, attributes, blocks, comments, header, position⟩ := head'
  obtain rfl : blocks = [] := hblocks
  obtain rfl : comments = [] := hcomments
  exact ⟨⟨name, superclasses, attributes, bs', LooseComment.group r₂'.comments, header, position⟩, s',
    ClassRun.classFile ⟨hhead', hblocks', rfl, us', hfunctions'⟩, sameClass_of_blocks hbare hbs⟩

/-- The class with the line is the same but for its places. -/
theorem exists_class
    (hheader : ListHeader c past t) (hbefore : I.before = past ++ t :: ts) (hwithin : slot.Within ts) :
    ∃ c' s', classFile limits I.text' ⟨I.tokens', none, []⟩ = .ok (c', s') ∧ I.SameClass limits c c' := by
  have hts : ts ⊆ I.before := fun u hu => by simp [hbefore, hu]
  have htokens : I.tokens = past ++ t :: (ts ++ I.tail) := by simp [I.tokens_eq, hbefore]
  cases hheader with
  | head hpast ht =>
    obtain ⟨t', q, q₁, q₂, hhead⟩ := classHead_run rfl hrun.head
    have hq : q.ahead = t :: (ts ++ I.tail) := by
      have hskip : q.ahead = I.tokens.dropWhile (isLayout ·.kind) := by
        cases hhead.skip
        rfl
      rw [hskip, htokens, dropWhile_append_of_pos hpast, dropWhile_cons_of_neg (by simp [ht, isLayout])]
    have hq₁ := (List.cons.inj ((hhead.wordRun.ahead_eq I.scan_eq suffix_rfl).symm.trans hq)).2
    exact exists_class_of_head hrun hhead hwithin hts hq₁
  | block hb hstart =>
    obtain ⟨before, behind, t', p, q, q₁, q₂, p₁, h⟩ := hrun.exists_block I.scan_eq hb
    have hword := h.run.wordRun
    have hscan := I.scan_eq
    have hsuffix := hword.ahead_eq hscan h.suffix ▸ (hword.suffix h.suffix).1
    rw [htokens] at hscan hsuffix
    have hkind := kind_ne_eof_of_scan hscan (append_ne_nil_of_right_ne_nil _ I.tail_ne)
    have hq₁ := (List.cons.inj (eq_of_start hscan hkind hsuffix hword.kind.2
      (hstart.trans h.run.position))).2
    refine Fork.exists_class_of_block hrun h.blocks h.past h.rest hword.kind.1 (z := ts) ?_ fun hp => ?_
    · rw [cons_append, ← hq₁]
      exact hword.cons_suffix I.scan_eq h.suffix
    · obtain ⟨b', p₁', hround', hb, hp₁⟩ := exists_block hp h.suffix h.run hwithin hts hq₁
      exact ⟨b', p₁', hround', hb, hp₁.resync 1⟩

end

end Insertion

/-! ## Parsing -/

/-- A line may be written between two tokens of an attribute list, if it does not stand behind a value. -/
theorem ClassDecl.exists_parse_inserted {limits : Limits}
    {lead gap rest line : Text} {c : ClassDecl} {past ts after : List Token}
    {t w : Token} {slot : Slot} (hparse : ClassDecl.parse limits (lead ++ (gap ++ rest)) = .ok c)
    (hscan : scan (lead ++ (gap ++ rest)) = .ok (past ++ t :: ts ++ w :: after))
    (hheader : ListHeader c past t) (hwithin : slot.Within ts)
    (hplace : LinePlace lead gap rest line (past ++ t :: ts) w) :
    ∃ c', ClassDecl.parse limits (lead ++ (line ++ (gap ++ rest))) = .ok c' ∧
      c'.attributeLists = c.attributeLists := by
  obtain ⟨I, htext, htext', hbefore, htail⟩ := exists_insertion hscan hplace
  have htokens : I.tokens = past ++ t :: ts ++ w :: after := by rw [I.tokens_eq, hbefore, htail]
  rw [← htext] at hparse hscan
  obtain ⟨r₁, r₂, s, hrun⟩ := exists_classRun hparse (htokens ▸ hscan)
  obtain ⟨c', s', hfile', hsame⟩ := exists_class hrun hheader hbefore hwithin
  refine ⟨c', htext' ▸ parse_of_classFile I.scanned hparse hfile' hsame.bare, ?_⟩
  rw [← attributeLists_bare c', ← hsame.bare, attributeLists_bare]

/-- The start of a class up to the value of an attribute. -/
def listStart : Text := "classdef (Sealed, A ="

theorem ClassDecl.exists_parse_inserted_comment :
    ∃ c c', ClassDecl.parse {} (listStart ++ ([' '] ++ "b) C\nend\n".toList)) = .ok c ∧
      ClassDecl.parse {} (listStart ++ ("% who\n".toList ++ ([' '] ++ "b) C\nend\n".toList))) = .ok c' ∧
      c'.attributeLists = c.attributeLists := by
  obtain ⟨c, hc, tokens, hscan, hkinds, hopen, hlead, hoffset⟩ :
      ∃ c, ClassDecl.parse {} (listStart ++ ([' '] ++ "b) C\nend\n".toList)) = .ok c ∧
      ∃ tokens, scan (listStart ++ ([' '] ++ "b) C\nend\n".toList)) = .ok tokens ∧
        (tokens.take 7).map (·.kind) = [.keyword .classdef, .delimiter (.opening .paren),
          .identifier "Sealed".toList, .delimiter .comma, .identifier ['A'], .operator .assign,
          .identifier ['b']] ∧
        0 < depth (tokens.take 6) ∧ (∀ u ∈ tokens.take 6, u.endOffset ≤ Text.bytes listStart) ∧
        ∀ w ∈ tokens[6]?, w.offset = Text.bytes (listStart ++ [' ']) := by decide +kernel
  simp only [List.map_eq_cons_iff, List.map_eq_nil_iff] at hkinds
  obtain ⟨t, _, htake, ht, p, _, rfl, hp, n, _, rfl, hn, k, _, rfl, hk, m, _, rfl, hm, e, _, rfl, he,
    w, _, rfl, hw, rfl⟩ := hkinds
  obtain ⟨after, rfl⟩ : ∃ after, tokens = [] ++ t :: [p, n, k, m, e] ++ w :: after :=
    ⟨tokens.drop 7, by simpa [htake] using (List.take_append_drop 7 tokens).symm⟩
  have hwithin : Slot.assign.Within [p, n, k, m, e] :=
    .mk (c := []) (List.forall_mem_nil _) hp
      ((((Slot.Leads.nil.step (.name hn)).step (.comma hk)).step (.name hm)).step (.assign he))
  have hline : listStart.IsLine "% who\n".toList :=
    @Text.IsLine.comment _ " who".toList (by decide) (by decide)
  obtain ⟨c', hc', hsame⟩ :=
    ClassDecl.exists_parse_inserted hc hscan (.head (List.forall_mem_nil _) ht) hwithin
      ⟨hopen, hlead, List.forall_mem_singleton.2 rfl, hoffset w rfl, hline, by simp [he, TokenKind.isComment],
        by simp [hw], fun h => absurd h (by decide)⟩
  exact ⟨c, c', hc, hc', hsame⟩

/-- A value is read up to the separator behind it, so that it takes in the line end. -/
theorem ClassDecl.attributeLists_inserted_value :
    (ClassDecl.parse {} ("classdef A\nproperties (Access = private".toList ++
      ")\nend\nend\n".toList)).toOption.map (·.attributeLists) =
        some [[], [("Access".toList, .word "private".toList)]] ∧
      (ClassDecl.parse {} ("classdef A\nproperties (Access = private".toList ++
        ("\n".toList ++ ")\nend\nend\n".toList))).toOption.map
        (·.attributeLists) = some [[], [("Access".toList, .raw "private\n".toList)]] := by
  decide +kernel

end ClassdefDoc
