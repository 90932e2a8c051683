import ClassdefDoc.Proofs.Outline.Page
import ClassdefDoc.Proofs.Scan.Order

/-!
# The order of the pseudo-code

Members, the class and free comments stand on the page as they stand in the source,
and each member stands below the marker of its region (`faithful_of_pseudocode`).
The lines of tokens tell their order (`lines_of_scan`), so that cutting the free
comments at the line of a declaration cuts them where the declaration stands.
-/

namespace ClassdefDoc

open List LooseComment
open Position (Before)

variable {tokens : List Token} {t : Token} {xs ys : Outline} {e : Entry} {keys : List Region} {l : Layout}

/-! ## Order in the source -/

/-- A comment starts above a statement if and only if it stands before it. -/
structure Position.Apart (line : Nat) (p : Position) (line' : Nat) (q : Position) : Prop where
  before : line < line' → p.Before q
  after : ¬line < line' → q.Before p

theorem lines_of_scan {text : Text} (h : scan text = .ok tokens) {u : Token} (ht : t ∈ tokens)
    (hu : u ∈ tokens) (hcomment : t.kind.isComment) (hlayout : Read.isLayout u.kind = false)
    (heof : u.kind ≠ .eof) : Position.Apart t.line t.span.start u.line u.span.start := by
  have hne : t ≠ u := by
    rintro rfl
    cases hk : t.kind <;> simp_all [TokenKind.isComment, Read.isLayout]
  have htof : t.kind ≠ .eof := by
    intro hk
    rw [hk] at hcomment
    cases hcomment
  have hline : u.kind ≠ .newline := by
    intro hk
    rw [hk] at hlayout
    cases hlayout
  have hpair : tokens.Pairwise fun a b => (b.kind ≠ .eof → a.Precedes b) ∨ (a.kind ≠ .eof → b.Precedes a) :=
    (precedes_of_scan h).imp .inl
  have hsymm : Std.Symm fun a b : Token => (b.kind ≠ .eof → a.Precedes b) ∨ (a.kind ≠ .eof → b.Precedes a) :=
    ⟨fun _ _ hab => hab.symm⟩
  rcases hpair.forall ht hu hne with hprecedes | hprecedes
  · have hbefore := hprecedes heof
    exact ⟨fun _ => hbefore.before, fun hlt => absurd (hbefore.below hcomment hline) hlt⟩
  · have hafter := (hprecedes htof).before
    exact ⟨fun hlt => absurd hlt (Nat.not_lt.2 hafter.line_le), fun _ => hafter⟩

namespace ClassCourse

variable {k : ClassCourse} {limits : Limits} {c : ClassDecl} {text : Text} {rest : List Token}

theorem between_sublist (ss : List Stretch) : (ss.flatMap (·.between)).Sublist (ss.flatMap (·.tokens)) := by
  induction ss with
  | nil => exact .refl _
  | cons s ss ih =>
    rw [flatMap_cons, flatMap_cons]
    refine List.Sublist.append ?_ ih
    cases s with
    | layout ts => exact .refl ts
    | header ts => exact nil_sublist ts
    | member m head body => exact nil_sublist (head ++ body)

/-- The first tokens of members, in their order. -/
structure Firsts (ms : List Member) (firsts : List Token) : Prop where
  positions : ms.map (·.position) = firsts.map (·.span.start)
  kinds : ∀ t ∈ firsts, t.kind ≠ .eof
  begins : ∀ m ∈ ms, ∃ t ∈ firsts, m.Begins t

theorem Firsts.cons {m : Member} {ms : List Member} {firsts : List Token} (hbegins : m.Begins t)
    (h : Firsts ms firsts) : Firsts (m :: ms) (t :: firsts) := by
  refine ⟨by simp [hbegins.position, h.positions], forall_mem_cons.2 ⟨hbegins.kind, h.kinds⟩, ?_⟩
  refine forall_mem_cons.2 ⟨⟨t, mem_cons_self, hbegins⟩, fun m' hm' => ?_⟩
  obtain ⟨t', ht', hbegins'⟩ := h.begins m' hm'
  exact ⟨t', mem_cons_of_mem t ht', hbegins'⟩

theorem exists_firsts {ss : List Stretch} (h : ∀ s ∈ ss, s.Valid limits) :
    ∃ firsts, List.Sublist firsts (ss.flatMap (·.tokens)) ∧ Firsts (ss.filterMap (·.member?)) firsts := by
  induction ss with
  | nil => exact ⟨[], .refl _, rfl, forall_mem_nil _, forall_mem_nil _⟩
  | cons s ss ih =>
    obtain ⟨hs, hss⟩ := forall_mem_cons.1 h
    obtain ⟨firsts, hsub, hfirsts⟩ := ih hss
    cases s with
    | layout ts | header ts => exact ⟨firsts, hsub.trans (sublist_append_right _ _), hfirsts⟩
    | member m head body =>
      obtain ⟨t, ht, hbegins⟩ := Member.Spans.first hs
      obtain ⟨more, rfl⟩ := head?_eq_some_iff.1 ht
      refine ⟨t :: firsts, ?_, hfirsts.cons hbegins⟩
      exact (hsub.trans (sublist_append_right _ _)).cons_cons t

namespace Gives

variable {b : CommentBlock} {m : Member}

theorem members_eq (h : k.Gives limits c) : k.stretches.filterMap (·.member?) = c.members := by
  rw [← h.members, stretches]
  simp [Stretch.member?]

/-- The tokens of some positions stand in the order of the text. -/
theorem pairwise_starts {ts : List Token} (hscan : scan text = .ok tokens) (hsub : ts.Sublist tokens)
    (hkinds : ∀ t ∈ ts, t.kind ≠ .eof) : (ts.map (·.span.start)).Pairwise Before := by
  rw [pairwise_map]
  refine List.Pairwise.imp_of_mem ?_ ((precedes_of_scan hscan).sublist hsub)
  exact fun _ hu hprecedes => (hprecedes (hkinds _ hu)).before

section

variable (h : k.Gives limits c) (hscan : scan text = .ok (k.tokens ++ rest))
include h

theorem exists_begins (hm : m ∈ c.members) : ∃ t ∈ k.tokens, m.Begins t := by
  obtain ⟨firsts, hsub, hfirsts⟩ := exists_firsts h.valid
  rw [h.members_eq] at hfirsts
  obtain ⟨t, ht, hbegins⟩ := hfirsts.begins m hm
  exact ⟨t, hsub.subset ht, hbegins⟩

/-- The starts of the blocks are among those of the comments between statements. -/
theorem starts_sublist : (c.comments.map start).Sublist (k.between.filterMap tokenStart?) := by
  rw [h.comments, ← map_start_ofToken?]
  exact starts_group _

/-- A block starts with a comment between statements. -/
theorem exists_comment (hb : b ∈ c.comments) :
    ∃ t ∈ k.between, t.kind.isComment ∧ b.firstLine = t.line ∧ b.position = t.span.start := by
  obtain ⟨t, ht, hstart⟩ := mem_filterMap.1 (h.starts_sublist.subset (mem_map_of_mem hb))
  obtain ⟨hcomment, heq⟩ := tokenStart?_eq_some_iff.1 hstart
  obtain ⟨hline, hposition⟩ := Prod.mk.inj heq
  exact ⟨t, ht, hcomment, hline.symm, hposition.symm⟩

include hscan

/-- The members start one behind another. -/
theorem pairwise_members : c.members.Pairwise fun m m' => m.position.Before m'.position := by
  obtain ⟨firsts, hsub, hfirsts⟩ := exists_firsts h.valid
  rw [h.members_eq] at hfirsts
  have hstarts := pairwise_starts hscan (hsub.trans (sublist_append_left _ rest)) hfirsts.kinds
  rwa [← hfirsts.positions, pairwise_map] at hstarts

/-- The blocks start one behind another. -/
theorem pairwise_comments : c.comments.Pairwise fun b b' => b.position.Before b'.position := by
  have hsub : k.between.Sublist (k.tokens ++ rest) :=
    (between_sublist k.stretches).trans (sublist_append_left _ rest)
  have hstarts : (k.between.filterMap tokenStart?).Pairwise fun x y => x.2.Before y.2 := by
    refine pairwise_filterMap.2 (((precedes_of_scan hscan).sublist hsub).imp ?_)
    intro t u hprecedes x hx y hy
    obtain ⟨-, rfl⟩ := tokenStart?_eq_some_iff.1 hx
    obtain ⟨hcomment, rfl⟩ := tokenStart?_eq_some_iff.1 hy
    refine (hprecedes fun hk => ?_).before
    rw [hk] at hcomment
    cases hcomment
  have hblocks := hstarts.sublist h.starts_sublist
  rwa [pairwise_map] at hblocks

/-- The line of a statement tells which blocks stand before it. -/
theorem apart_of_mem (hb : b ∈ c.comments) (ht : t ∈ k.tokens)
    (hlayout : Read.isLayout t.kind = false) (heof : t.kind ≠ .eof) :
    Position.Apart b.firstLine b.position t.line t.span.start := by
  obtain ⟨u, hu, hcomment, hline, hposition⟩ := h.exists_comment hb
  rw [hline, hposition]
  exact lines_of_scan hscan (mem_append_left _ ((between_sublist _).subset hu))
    (mem_append_left _ ht) hcomment hlayout heof

theorem apart_member (hb : b ∈ c.comments) (hm : m ∈ c.members) :
    Position.Apart b.firstLine b.position m.header.first m.position := by
  obtain ⟨t, ht, hbegins⟩ := h.exists_begins hm
  rw [hbegins.line, hbegins.position]
  exact h.apart_of_mem hscan hb ht hbegins.isLayout hbegins.kind

theorem apart_opening (hb : b ∈ c.comments) :
    Position.Apart b.firstLine b.position c.header.first k.opening.span.start := by
  rw [h.line]
  exact h.apart_of_mem hscan hb (by simp [tokens, stretches, Stretch.tokens])
    (by rw [h.opening]; rfl) (by rw [h.opening]; simp)

/-- The members stand behind the word that opens the class. -/
theorem opening_before (hm : m ∈ c.members) : k.opening.span.start.Before m.position := by
  have hvalid : ∀ s ∈ k.inner, s.Valid limits := fun s hs => h.valid s (by simp [stretches, hs])
  obtain ⟨firsts, hsub, hfirsts⟩ := exists_firsts hvalid
  rw [h.members] at hfirsts
  obtain ⟨t, ht, hbegins⟩ := hfirsts.begins m hm
  have htokens : k.tokens ++ rest =
      k.lead ++ k.opening :: (k.inner.flatMap (·.tokens) ++ ([k.close] ++ rest)) := by
    simp [tokens, stretches, Stretch.tokens]
  have hpair := precedes_of_scan hscan
  rw [htokens] at hpair
  obtain ⟨hbehind, -⟩ := pairwise_cons.1 (pairwise_append.1 hpair).2.1
  rw [hbegins.position]
  exact (hbehind t (mem_append_left _ (hsub.subset ht)) hbegins.kind).before

end

end Gives

end ClassCourse

/-! ## Order in the outline -/

/-- Where what an item shows stands in the source; the class stands at `opening`. -/
def OutlineItem.position? (opening : Position) : OutlineItem → Option Position
  | remark b => some b.position
  | head _ => some opening
  | entry e => some e.member.position
  | _ => none

namespace Outline

variable {opening p : Position} {after before : Outline} {entries : List Entry}
  {free : List CommentBlock} {line : Nat} {region : Option Region} {x : OutlineItem} {b : CommentBlock}

/-- Comments and members stand in the order of the source, and lines tell
the order of a comment and a member. -/
structure Ordered (free : List CommentBlock) (entries : List Entry) : Prop where
  comments : free.Pairwise fun b b' => b.position.Before b'.position
  lines : free.Pairwise fun b b' => b.firstLine ≤ b'.firstLine
  members : entries.Pairwise fun e e' => e.member.position.Before e'.member.position
  apart : ∀ b ∈ free, ∀ e ∈ entries,
    Position.Apart b.firstLine b.position e.member.header.first e.member.position

theorem Ordered.sublist {free' : List CommentBlock} {entries' : List Entry} (h : Ordered free entries)
    (hfree : free'.Sublist free) (hentries : entries'.Sublist entries) : Ordered free' entries' :=
  ⟨h.comments.sublist hfree, h.lines.sublist hfree, h.members.sublist hentries,
    fun b hb e he => h.apart b (hfree.subset hb) e (hentries.subset he)⟩

/-- Comments that are not above a line start on it or below. -/
theorem not_lt_of_mem_dropAbove
    (h : free.Pairwise fun b b' => b.firstLine ≤ b'.firstLine) (hb : b ∈ dropAbove line free) :
    ¬b.firstLine < line := by
  induction free with
  | nil => cases hb
  | cons a free ih =>
    obtain ⟨ha, hfree⟩ := pairwise_cons.1 h
    rw [dropAbove, dropWhile_cons] at hb
    split_ifs at hb with hline
    · exact ih hfree hb
    · rcases mem_cons.1 hb with rfl | hb
      · simpa using hline
      · have := ha b hb
        simp only [decide_eq_true_eq] at hline
        omega

theorem filterMap_position?_map_remark (bs : List CommentBlock) :
    (bs.map OutlineItem.remark).filterMap (·.position? opening) = bs.map (·.position) := by
  simp [filterMap_map, OutlineItem.position?]

/-- What the members and the comments of an outline come from. -/
theorem mem_position?_members (h : p ∈ (members region free entries).filterMap (·.position? opening)) :
    (∃ b ∈ free, p = b.position) ∨ ∃ e ∈ entries, p = e.member.position := by
  obtain ⟨item, hitem, hp⟩ := mem_filterMap.1 h
  cases item with
  | remark b =>
    have hb : b ∈ (members region free entries).filterMap (·.remark?) := mem_filterMap.2 ⟨_, hitem, rfl⟩
    rw [filterMap_remark?_members] at hb
    exact .inl ⟨b, hb, (Option.some.inj hp).symm⟩
  | entry e =>
    have he : e ∈ (members region free entries).filterMap (·.declaration?) := mem_filterMap.2 ⟨_, hitem, rfl⟩
    rw [filterMap_declaration?_members] at he
    exact .inr ⟨e, he, (Option.some.inj hp).symm⟩
  | head h =>
    have hh : h ∈ (members region free entries).filterMap (·.head?) := mem_filterMap.2 ⟨_, hitem, rfl⟩
    rw [filterMap_head?_members] at hh
    cases hh
  | _ => cases hp

/-- What is put behind a place stays behind it: the comments above are
before it, it is before all the rest. -/
theorem pairwise_cut {before rest : List Position} (hbefore : before.Pairwise Before)
    (hrest : rest.Pairwise Before) (hp : ∀ q ∈ before, q.Before p) (hp' : ∀ q ∈ rest, p.Before q) :
    (before ++ p :: rest).Pairwise Before := by
  refine pairwise_append.2 ⟨hbefore, pairwise_cons.2 ⟨hp', hrest⟩, fun q hq q' hq' => ?_⟩
  rcases mem_cons.1 hq' with rfl | hq'
  · exact hp q hq
  · exact (hp q hq).trans (hp' q' hq')

section

variable (h : Ordered free entries)
include h

/-- A statement stands behind the comments above it and before the others,
and before the members that follow. -/
theorem pairwise_around (hfree : ∀ b ∈ free, Position.Apart b.firstLine b.position line p)
    (hentries : ∀ e ∈ entries, p.Before e.member.position)
    (hrest : ((members region (dropAbove line free) entries).filterMap (·.position? opening)).Pairwise Before)
    : ((remarksAbove line free).filterMap (·.position? opening) ++
      p :: (members region (dropAbove line free) entries).filterMap (·.position? opening)).Pairwise
      Before := by
  rw [remarksAbove, filterMap_position?_map_remark]
  refine pairwise_cut ?_ hrest ?_ ?_
  · rw [pairwise_map]
    exact h.comments.sublist (takeWhile_sublist _)
  · intro q hq
    obtain ⟨b, hb, rfl⟩ := mem_map.1 hq
    exact (hfree b ((takeWhile_sublist _).subset hb)).before (by simpa using mem_takeWhile_imp hb)
  · intro q hq
    rcases mem_position?_members hq with ⟨b, hb, rfl⟩ | ⟨e, he, rfl⟩
    · exact (hfree b ((dropWhile_sublist _).subset hb)).after (not_lt_of_mem_dropAbove h.lines hb)
    · exact hentries e he

theorem pairwise_members (region : Option Region) :
    ((members region free entries).filterMap (·.position? opening)).Pairwise Before := by
  induction entries generalizing region free with
  | nil =>
    rw [members, filterMap_position?_map_remark, pairwise_map]
    exact h.comments
  | cons e entries ih =>
    have hentries := sublist_cons_self e entries
    rw [members_cons, filterMap_append, filterMap_append, filterMap_marker fun _ => rfl,
      append_nil, filterMap_cons]
    exact pairwise_around (h.sublist (.refl free) hentries) (fun b hb =>
      h.apart b hb e mem_cons_self) (pairwise_cons.1 h.members).1
      (ih (h.sublist (dropWhile_sublist _) hentries) _)

theorem pairwise_ofClass (hfree : ∀ b ∈ free, Position.Apart b.firstLine b.position line opening)
    (hentries : ∀ e ∈ entries, opening.Before e.member.position) (l : Layout) (head : ClassHead) :
    ((ofClass l line head entries free).filterMap (·.position? opening)).Pairwise Before := by
  rw [filterMap_ofClass rfl (fun _ => rfl) rfl rfl, append_assoc]
  exact pairwise_around h hfree hentries
    (pairwise_members (h.sublist (dropWhile_sublist _) (.refl entries)) none)

end

/-- If the items stand in the order of the source, the remarks before an
item are those before it in the source. -/
theorem remark_mem_iff {outline : Outline}
    (h : (outline.filterMap (·.position? opening)).Pairwise Before) (hsplit : outline = before ++ x :: after)
    (hx : x.position? opening = some p) (hb : .remark b ∈ outline) (hne : .remark b ≠ x) :
    .remark b ∈ before ↔ b.position.Before p := by
  subst hsplit
  rw [filterMap_append, filterMap_cons_some hx] at h
  obtain ⟨-, hrest, hacross⟩ := pairwise_append.1 h
  constructor
  · intro hmem
    exact hacross _ (mem_filterMap.2 ⟨_, hmem, rfl⟩) p mem_cons_self
  · intro hbefore
    rcases mem_append.1 hb with hmem | hmem
    · exact hmem
    · rcases mem_cons.1 hmem with heq | hmem
      · exact absurd heq hne
      · have hafter := (pairwise_cons.1 hrest).1 b.position (mem_filterMap.2 ⟨_, hmem, rfl⟩)
        exact absurd (hbefore.trans hafter) (Before.irrefl _)

/-! ## Regions -/

/-- An item that is not in the first part of a list is in the rest. -/
theorem split_right (h : xs ++ ys = before ++ x :: after)
    (hx : x ∉ xs) : ∃ more, before = xs ++ more ∧ ys = more ++ x :: after := by
  rcases append_eq_append_iff.1 h with ⟨more, rfl, hys⟩ | ⟨more, rfl, hmore⟩
  · exact ⟨more, rfl, hys⟩
  · cases more with
    | nil => exact ⟨[], by simp, hmore.symm⟩
    | cons y more =>
      rw [cons_append, List.cons.injEq] at hmore
      exact absurd (by simp [hmore.1]) hx

/-- Behind the region `region` the last marker before a member is that of its region. -/
theorem getLast?_region?_members {tail : Outline} (htail : .entry e ∉ tail)
    (h : members region free entries ++ tail = before ++ .entry e :: after) :
    (region.toList ++ before.filterMap (·.region?)).getLast? = some e.attributes.region := by
  induction entries generalizing region free before with
  | nil =>
    have hmem : OutlineItem.entry e ∈ members region free [] ++ tail := by rw [h]; simp
    simp [members, htail] at hmem
  | cons a entries ih =>
    have hmarked : (region.toList ++ (remarksAbove a.member.header.first free ++
        marker region a.attributes.region).filterMap (·.region?)).getLast? = some a.attributes.region := by
      rw [filterMap_append, remarksAbove, filterMap_map_remark fun _ => rfl, nil_append]
      by_cases hregion : region = some a.attributes.region
      · simp [marker, hregion]
      · simp [marker, hregion, OutlineItem.region?]
    have hno : OutlineItem.entry e ∉ remarksAbove a.member.header.first free ++
        marker region a.attributes.region := by
      unfold remarksAbove marker
      split_ifs <;> simp
    rw [members_cons, append_assoc] at h
    obtain ⟨more, rfl, hmore⟩ := split_right h hno
    cases more with
    | nil =>
      rw [nil_append, cons_append, List.cons.injEq, OutlineItem.entry.injEq] at hmore
      rw [append_nil, ← hmore.1]
      exact hmarked
    | cons y more =>
      rw [cons_append, cons_append, List.cons.injEq] at hmore
      obtain ⟨rfl, hmore⟩ := hmore
      have hlast := ih hmore
      rw [getLast?_append] at hlast
      rw [filterMap_append, filterMap_cons_none rfl, ← append_assoc, getLast?_append, hmarked]
      exact hlast

theorem getLast?_region?_ofClass {head : ClassHead}
    (h : ofClass l line head entries free = before ++ .entry e :: after) :
    (before.filterMap (·.region?)).getLast? = some e.attributes.region := by
  let front : Outline := (if l.banner then [.banner] else []) ++
    remarksAbove line free ++ l.namespaces.map .openNamespace ++ [.head head]
  have hfront : .entry e ∉ front := by
    unfold front remarksAbove
    split_ifs <;> simp
  have hregions : front.filterMap (·.region?) = [] := by
    unfold front remarksAbove
    split_ifs <;> simp [filterMap_map, OutlineItem.region?]
  have hof : ofClass l line head entries free = front ++ (members none (dropAbove line free) entries ++
      (.closeClass :: l.namespaces.map fun _ => .closeNamespace)) := by
    simp [ofClass, front]
  rw [hof] at h
  obtain ⟨more, rfl, hmore⟩ := split_right h hfront
  rw [filterMap_append, hregions]
  exact getLast?_region?_members (by simp) hmore

end Outline

/-! ## The outline of a source -/

namespace ClassDecl

/-- The members of a class with what the blocks around them mean. -/
theorem map_entries (c : ClassDecl) (macros : MacroTable) (binding : Binding) (resolved : List Resolved) :
    (c.entries macros binding resolved).map (fun e => (e.member, e.attributes)) =
      (c.blocks.zip resolved).flatMap fun x => x.1.members.map (·, x.2) := by
  rw [entries, map_map]
  exact zipIdx_map_fst 0 _

/-- The members of a class, each with the region of its block. -/
def keyed (c : ClassDecl) (keys : List Region) : List (Member × Region) :=
  (c.blocks.zip keys).flatMap fun x => x.1.members.map (·, x.2)

theorem map_region_entries (c : ClassDecl) (macros : MacroTable)
    (binding : Binding) (resolved : List Resolved) :
    (c.entries macros binding resolved).map (fun e => (e.member, e.attributes.region)) =
      c.keyed (resolved.map (·.region)) := by
  have hmap := congrArg (List.map fun x : Member × Resolved => (x.1, x.2.region))
    (c.map_entries macros binding resolved)
  rw [map_map, map_flatMap] at hmap
  rw [keyed, zip_map_right, flatMap_map]
  simpa [Function.comp_def] using hmap

theorem map_fst_keyed {c : ClassDecl} (h : c.blocks.length ≤ keys.length) :
    (c.keyed keys).map (·.1) = c.members := by
  calc (c.keyed keys).map (·.1)
      = (c.blocks.zip keys).flatMap (·.1.members) := by simp [keyed, map_flatMap, Function.comp_def]
    _ = ((c.blocks.zip keys).map (·.1)).flatMap (·.members) := by rw [flatMap_map]
    _ = c.members := by rw [map_fst_zip h, members]

/-- Each member has its entry. -/
theorem map_member_entries (c : ClassDecl) (macros : MacroTable)
    (binding : Binding) {resolved : List Resolved} (h : c.blocks.length ≤ resolved.length) :
    (c.entries macros binding resolved).map (·.member) = c.members := by
  have hkeys : c.blocks.length ≤ (resolved.map (·.region)).length := by rwa [length_map]
  rw [← map_fst_keyed hkeys, ← c.map_region_entries macros binding, map_map]
  rfl

end ClassDecl

/-- The pieces of a page show the class as it stands in its source: each member once, in file order and
with the region of its block; comments before what follows them; and a marker where the region changes. -/
structure Piece.Faithful {l : Layout} (pieces : List (Piece l)) (c : ClassDecl) (opening : Position)
    (keys : List Region) : Prop where
  members : (pieces.filterMap (·.item.declaration?)).map (·.member) = c.members
  keyed : (pieces.filterMap (·.item.declaration?)).map (fun e => (e.member, e.attributes.region)) =
    c.keyed keys
  heads : ∃ head, pieces.filterMap (·.item.head?) = [head]
  remarks : pieces.filterMap (·.item.remark?) = (Binding.ofClass c).2.free
  /-- A comment is written before a member if it stands before it. -/
  above_entry : ∀ before x after e, pieces = before ++ x :: after → x.item = .entry e →
    ∀ b ∈ (Binding.ofClass c).2.free, (∃ y ∈ before, y.item = .remark b) ↔ b.position.Before e.member.position
  /-- A comment is written before the class if it stands before it. -/
  above_head : ∀ before x after h, pieces = before ++ x :: after → x.item = .head h →
    ∀ b ∈ (Binding.ofClass c).2.free, (∃ y ∈ before, y.item = .remark b) ↔ b.position.Before opening
  /-- The markers are the regions of the members without repetitions. -/
  regions : pieces.filterMap (·.item.region?) = ((c.keyed keys).map (·.2)).destutter (· ≠ ·)
  /-- A member stands below the marker of its region. -/
  region_entry : ∀ before x after e, pieces = before ++ x :: after → x.item = .entry e →
    (before.filterMap (·.item.region?)).getLast? = some e.attributes.region

/-- Each region is that of the attributes of its block. -/
def ClassDecl.HasRegions (c : ClassDecl) (keys : List Region) : Prop :=
  Forall₂ (fun b key => ∃ r, (resolveBlock b.kind b.attributes).2 = .ok r ∧ r.region = key) c.blocks keys

theorem Binding.free_sublist (c : ClassDecl) : (Binding.ofClass c).2.free.Sublist c.comments :=
  (Binding.places_ofClass c).free.1

namespace ClassCourse.Gives

variable {k : ClassCourse} {limits : Limits} {c : ClassDecl}
  {text : Text} {rest : List Token} {entries : List Entry}

variable (h : k.Gives limits c) (hscan : scan text = .ok (k.tokens ++ rest))
include h hscan

/-- The comments and the members of a class stand in the order of the source. -/
theorem ordered (hentries : entries.map (·.member) = c.members) :
    Outline.Ordered (Binding.ofClass c).2.free entries := by
  have hfree := Binding.free_sublist c
  have hmember : ∀ e ∈ entries, e.member ∈ c.members := fun e he => hentries ▸ mem_map_of_mem he
  have hpositions := (h.pairwise_comments hscan).sublist hfree
  refine ⟨hpositions, ?_, ?_, fun b hb e he => h.apart_member hscan (hfree.subset hb) (hmember e he)⟩
  · refine List.Pairwise.imp_of_mem ?_ hpositions
    intro b b' hb hb' hbefore
    obtain ⟨t, -, -, hline, hposition⟩ := h.exists_comment (hfree.subset hb)
    obtain ⟨t', -, -, hline', hposition'⟩ := h.exists_comment (hfree.subset hb')
    rw [hline, hline']
    rw [hposition, hposition'] at hbefore
    exact hbefore.line_le
  · have hmembers := h.pairwise_members hscan
    rwa [← hentries, pairwise_map] at hmembers

/-- The items of the outline stand in the order of the source. -/
theorem pairwise_outline (hentries : entries.map (·.member) = c.members) (l : Layout) (head : ClassHead) :
    ((Outline.ofClass l c.header.first head entries (Binding.ofClass c).2.free).filterMap
      (·.position? k.opening.span.start)).Pairwise Before := by
  refine Outline.pairwise_ofClass (h.ordered hscan hentries) (fun b hb => ?_) (fun e he => ?_) l head
  · exact h.apart_opening hscan ((Binding.free_sublist c).subset hb)
  · exact h.opening_before hscan (hentries ▸ mem_map_of_mem he)

theorem faithful (hlength : c.blocks.length ≤ keys.length)
    (hkeyed : entries.map (fun e => (e.member, e.attributes.region)) = c.keyed keys)
    {head : ClassHead} {pieces : List (Piece l)} (hitems : pieces.map (·.item) =
      Outline.ofClass l c.header.first head entries (Binding.ofClass c).2.free) :
    Piece.Faithful pieces c k.opening.span.start keys := by
  have hmembers : entries.map (·.member) = c.members := by
    rw [← ClassDecl.map_fst_keyed hlength, ← hkeyed, map_map]
    rfl
  have hview {α : Type} (f : OutlineItem → Option α) : pieces.filterMap (fun x => f x.item) =
      (Outline.ofClass l c.header.first head entries (Binding.ofClass c).2.free).filterMap f := by
    rw [Piece.filterMap_item, hitems]
  have hsplit {before after : List (Piece l)} {x : Piece l} (h : pieces = before ++ x :: after) :
      Outline.ofClass l c.header.first head entries (Binding.ofClass c).2.free =
        before.map (·.item) ++ x.item :: after.map (·.item) := by
    rw [← hitems, h, map_append, map_cons]
  have hremark (b : CommentBlock) (hb : b ∈ (Binding.ofClass c).2.free) : OutlineItem.remark b ∈
      Outline.ofClass l c.header.first head entries (Binding.ofClass c).2.free := by
    have hmem : b ∈ pieces.filterMap (·.item.remark?) := by rwa [hview, Outline.filterMap_remark?_ofClass]
    rw [hview] at hmem
    obtain ⟨item, hitem, hsome⟩ := mem_filterMap.1 hmem
    cases item <;> cases hsome
    exact hitem
  have hsorted := h.pairwise_outline hscan hmembers l head
  have habove {before after : List (Piece l)} {x : Piece l} {p : Position} (h : pieces = before ++ x :: after)
      (hx : x.item.position? k.opening.span.start = some p) (hno : x.item.remark? = none) (b : CommentBlock)
      (hb : b ∈ (Binding.ofClass c).2.free) : (∃ y ∈ before, y.item = .remark b) ↔ b.position.Before p := by
    rw [← mem_map]
    exact Outline.remark_mem_iff hsorted (hsplit h) hx (hremark b hb) fun heq => by cases heq ▸ hno
  refine ⟨?_, ?_, ⟨head, ?_⟩, ?_, fun before x after e heq hx b hb => ?_,
    fun before x after h' heq hx b hb => ?_, ?_, fun before x after e heq hx => ?_⟩
  · rwa [hview, Outline.filterMap_declaration?_ofClass]
  · rwa [hview, Outline.filterMap_declaration?_ofClass]
  · rw [hview, Outline.filterMap_head?_ofClass]
  · rw [hview, Outline.filterMap_remark?_ofClass]
  · exact habove heq (hx ▸ rfl) (hx ▸ rfl) b hb
  · exact habove heq (hx ▸ rfl) (hx ▸ rfl) b hb
  · rw [hview, Outline.filterMap_ofClass rfl (fun _ => rfl) rfl rfl, Outline.filterMap_region?_members,
      Outline.remarksAbove, Outline.filterMap_map_remark fun _ => rfl, ← hkeyed, map_map]
    rfl
  · have hlast := Outline.getLast?_region?_ofClass (hx ▸ hsplit heq)
    rwa [← Piece.filterMap_item] at hlast

end ClassCourse.Gives

/-- The pseudo-code of a source is made up of pieces that show its class as
it stands in the source, and the markers tell regions apart. -/
theorem faithful_of_pseudocode {o : Options} {s : Source} {p : Pseudocode} (h : o.pseudocode s = .ok p) :
    Function.Injective Region.text ∧ ∃ c keys, ∃ pieces : List (Piece (o.layoutFor s.path).1),
      ClassDecl.parse o.limits s.text = .ok c ∧ c.HasRegions keys ∧ p.text = pieces.flatMap (·.text) ∧
      ∃ (k : ClassCourse) (rest : List Token), scan s.text = .ok (k.tokens ++ rest) ∧ k.Gives o.limits c ∧
        c.members.Pairwise (fun m m' => m.position.Before m'.position) ∧
        Piece.Faithful pieces c k.opening.span.start keys := by
  obtain ⟨c, notes, resolved, pieces, hparse, hblocks, hitems, htext⟩ := Options.exists_pieces h
  obtain ⟨tokens, hscan, k, rest, rfl, hgives⟩ := ClassDecl.course_of_parse hparse
  have hregions : c.HasRegions (resolved.map (·.region)) := by
    rw [ClassDecl.HasRegions, List.forall₂_map_right_iff]
    exact hblocks.imp fun b r hr => ⟨r, hr, rfl⟩
  refine ⟨Region.text_injective, c, _, pieces, hparse, hregions, htext, k, rest, hscan, hgives,
    hgives.pairwise_members hscan, ?_⟩
  exact hgives.faithful hscan hregions.length_eq.le (c.map_region_entries _ _ resolved) hitems

/-- A hidden member and two others, with free comments before the class and between its blocks. -/
def regionsSource : Source where
  path := "A.m"
  text := "% first\n\nclassdef A\nproperties (Hidden)\nx; y\nend\n\n% second\n\nevents\nz\nend\nend\n"

theorem faithful_hidden_members :
    ∃ p, ({} : Options).pseudocode regionsSource = .ok p ∧ ∃ c keys,
      ∃ pieces : List (Piece (({} : Options).layoutFor regionsSource.path).1),
      ClassDecl.parse {} regionsSource.text = .ok c ∧ c.HasRegions keys ∧ p.text = pieces.flatMap (·.text) ∧
      (pieces.filterMap (·.item.declaration?)).map (·.member.name) = [['x'], ['y'], ['z']] ∧
      (pieces.filter (·.item.remark?.isSome)).map (·.text) =
        ["  /* first */\n".toList, "  /* second */\n".toList] ∧
      ∃ (k : ClassCourse) (rest : List Token), scan regionsSource.text = .ok (k.tokens ++ rest) ∧
        k.Gives {} c ∧
        c.members.Pairwise (fun m m' => m.position.Before m'.position) ∧
        Piece.Faithful pieces c k.opening.span.start keys := by
  have hparsed : ∀ c, ClassDecl.parse {} regionsSource.text = .ok c →
      c.members.map (·.name) = [['x'], ['y'], ['z']] ∧ (Binding.ofClass c).2.free.map (·.written) =
        ["  /* first */\n".toList, "  /* second */\n".toList] := by decide +kernel
  obtain ⟨p, hp⟩ := exists_of_isOk (x := ({} : Options).pseudocode regionsSource) (by decide +kernel)
  obtain ⟨-, c, keys, pieces, hparse, hregions, htext, k, rest, hscan, hgives, horder, hfaithful⟩ :=
    faithful_of_pseudocode hp
  obtain ⟨hnames, hfree⟩ := hparsed c hparse
  refine ⟨p, hp, c, keys, pieces, hparse, hregions, htext, ?_, ?_, k, rest, hscan, hgives, horder, hfaithful⟩
  · rw [← hnames, ← hfaithful.members, List.map_map]
    rfl
  · rw [Piece.map_text_remarks, hfaithful.remarks, hfree]

end ClassdefDoc
