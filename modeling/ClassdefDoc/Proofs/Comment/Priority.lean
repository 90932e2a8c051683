import ClassdefDoc.Proofs.Comment.Placement

/-!
# Which comment documents what

The comment that opens a body documents its method. Any other site is documented by the first
block without a tag that trails it, or else by the first block without a tag that stands directly
above it and trails nothing (`ClassDecl.Primary`). `ClassDecl.documented_by_priority` says that a
binding follows the rule, and that the findings on ambiguous blocks are those of the blocks that
trail one site and head another, and of the free blocks above a site that is documented.
-/

namespace ClassdefDoc

open List Placed Site
open Text (isBlank words)

variable {s : Site} {sites : List Site} {α : Type} {R : Nat → Diagnostic → Prop} {p : Option (List Text)}
  {b : CommentBlock} {n : Nat}

/-! ## The rule -/

namespace CommentBlock

/-- The first line of the block that is not blank starts with a tag and a name. -/
def Tagged (b : CommentBlock) : Prop :=
  ∃ blanks line rest tag name more, b.lines = blanks ++ line :: rest ∧ (∀ l ∈ blanks, isBlank l) ∧
    isBlank line = false ∧ words line = tag :: name :: more ∧
      tag ∈ ["@var".toList, "@property".toList, "@fn".toList, "@event".toList]

/-- The block starts where the header of a site without a body ends: on the
same line, or on the next one if the block has its lines to itself. -/
def StartsBehind (b : CommentBlock) (s : Site) : Prop :=
  s.hasBody = false ∧ b.firstLine = if b.ownLine then s.header.last + 1 else s.header.last

/-- The site `n` is the last one that the block starts behind. -/
structure Trails (b : CommentBlock) (sites : List Site) (n : Nat) : Prop where
  site : ∃ s, sites[n]? = some s ∧ b.StartsBehind s
  last : ∀ m s, n < m → sites[m]? = some s → ¬b.StartsBehind s

/-- The site `n` is the first one on the line below the block, which has its lines to itself. -/
structure Leads (b : CommentBlock) (sites : List Site) (n : Nat) : Prop where
  ownLine : b.ownLine
  site : ∃ s, sites[n]? = some s ∧ s.header.first = b.lastLine + 1
  first : ∀ m s, m < n → sites[m]? = some s → s.header.first ≠ b.lastLine + 1

end CommentBlock

namespace ClassDecl

/-- Block number `i` is the first one without a tag that trails the site `n`. -/
structure Trailing (c : ClassDecl) (i n : Nat) : Prop where
  block : ∃ b, c.comments[i]? = some b ∧ ¬b.Tagged ∧ b.Trails c.sites n
  first : ∀ j b, j < i → c.comments[j]? = some b → ¬b.Tagged → ¬b.Trails c.sites n

/-- Block number `i` has no tag, documents no site that it trails, and leads to the site `n`. -/
structure Heading (c : ClassDecl) (i n : Nat) : Prop where
  block : ∃ b, c.comments[i]? = some b ∧ ¬b.Tagged ∧ b.Leads c.sites n
  unbound : ∀ m, ¬c.Trailing i m

/-- Block number `i` is the first one that heads the site `n`. -/
structure Leading (c : ClassDecl) (i n : Nat) : Prop where
  heading : c.Heading i n
  first : ∀ j < i, ¬c.Heading j n

/-- The documentation that the site `n` should have. -/
inductive Primary (c : ClassDecl) (n : Nat) : Option (List Text) → Prop
  | opening {s : Site} {lines : List Text} : c.sites[n]? = some s →
    s.opening = some lines → Primary c n (some lines)
  | trailing {s : Site} {i : Nat} {b : CommentBlock} : c.sites[n]? = some s →
    s.opening = none → c.Trailing i n →
    c.comments[i]? = some b → Primary c n (some b.lines)
  | leading {s : Site} {i : Nat} {b : CommentBlock} : c.sites[n]? = some s → s.opening = none →
    (∀ j, ¬c.Trailing j n) → c.Leading i n → c.comments[i]? = some b → Primary c n (some b.lines)
  | none {s : Site} : c.sites[n]? = some s → s.opening = none →
    (∀ j, ¬c.Trailing j n) → (∀ j, ¬c.Leading j n) →
    Primary c n none

/-- The finding on block number `i`, which documents the site that it trails
though it leads to another one. -/
def TrailingWins (c : ClassDecl) (i : Nat) (d : Diagnostic) : Prop :=
  ∃ b n m, c.comments[i]? = some b ∧ c.Trailing i n ∧ b.Leads c.sites m ∧ m ≠ n ∧
    d = ⟨.trailingWins (labelOf c.sites n) (labelOf c.sites m), b.position, none⟩

/-- The finding on block number `i`, which has no tag and is free though it
leads to a site, which is documented. -/
def LeadingUnused (c : ClassDecl) (i : Nat) (d : Diagnostic) : Prop :=
  ∃ b n, ¬b.Tagged ∧ (Binding.ofClass c).2.places[i]? = some (b, .free) ∧ b.Leads c.sites n ∧
    ((Binding.ofClass c).2.primaryAt n).isSome ∧ d = ⟨.leadingUnused (labelOf c.sites n), b.position, none⟩

end ClassDecl

/-! ## Targets of one block -/

theorem DocTag.kindOf?_isSome_iff {tag : Text} : (kindOf? tag).isSome ↔
    tag ∈ ["@var".toList, "@property".toList, "@fn".toList, "@event".toList] := by
  unfold kindOf?
  generalize "@var".toList = var, "@property".toList = property, "@fn".toList =
    method, "@event".toList = event
  split_ifs <;> grind

theorem DocTag.ofBlock?_eq_none_iff : ofBlock? b = none ↔ ¬b.Tagged := by
  have htagged : b.Tagged ↔ ∃ line rest tag name more, b.lines.dropWhile isBlank = line :: rest ∧
      words line = tag :: name :: more ∧ (kindOf? tag).isSome := by
    simp only [kindOf?_isSome_iff]
    constructor
    · rintro ⟨blanks, line, rest, tag, name, more, hlines, hblanks, hline, hwords, htag⟩
      refine ⟨line, rest, tag, name, more, ?_, hwords, htag⟩
      rw [hlines, dropWhile_append_of_pos hblanks, dropWhile_cons_of_neg (by simp [hline])]
    · rintro ⟨line, rest, tag, name, more, hdrop, hwords, htag⟩
      have hline : isBlank line = false := by
        have := head?_dropWhile_not isBlank b.lines
        rw [hdrop] at this
        simpa using this
      refine ⟨b.lines.takeWhile isBlank, line, rest, tag, name,
        more, ?_, fun l hl => mem_takeWhile_imp hl, hline, hwords, htag⟩
      rw [← hdrop, takeWhile_append_dropWhile]
  rw [htagged, ofBlock?]
  cases hdrop : b.lines.dropWhile isBlank with
  | nil => simp
  | cons line rest =>
    rcases hwords : words line with _ | ⟨tag, _ | ⟨name, more⟩⟩
    · simp [hwords]
    · simp [hwords]
    · simp only [hwords, Option.map_eq_none_iff]
      cases hkind : kindOf? tag <;> simp [hwords, hkind]

theorem Site.precedes_iff : s.precedes b ↔ b.StartsBehind s := by
  simp [precedes, CommentBlock.StartsBehind]

theorem Site.trailed?_eq_some_iff :
    trailed? sites b = some n ↔ b.Trails sites n := by
  have hmem (n : Nat) (s : Site) : (s, n) ∈ sites.zipIdx.filter (·.1.precedes b) ↔
      sites[n]? = some s ∧ b.StartsBehind s := by
    rw [mem_filter, mk_mem_zipIdx_iff_getElem?, precedes_iff]
  have hsorted : (sites.zipIdx.filter (·.1.precedes b)).Pairwise fun x y => x.2 < y.2 := by
    refine (pairwise_map.1 ?_).filter _
    rw [zipIdx_map_snd]
    exact pairwise_lt_range'
  have htrails {n : Nat} (h : trailed? sites b = some n) : b.Trails sites n := by
    obtain ⟨⟨s, n⟩, hlast, rfl⟩ := Option.map_eq_some_iff.1 h
    obtain ⟨before, hbefore⟩ := getLast?_eq_some_iff.1 hlast
    refine ⟨⟨s, (hmem n s).1 (mem_of_getLast? hlast)⟩, fun m u hm hu hbehind => ?_⟩
    have hu := (hmem m u).2 ⟨hu, hbehind⟩
    rw [hbefore] at hu hsorted
    rcases mem_append.1 hu with hu | hu
    · exact absurd ((pairwise_append.1 hsorted).2.2 _ hu _ mem_cons_self) (Nat.lt_asymm hm)
    · cases mem_singleton.1 hu
      exact Nat.lt_irrefl _ hm
  refine ⟨htrails, fun h => ?_⟩
  obtain ⟨s, hs, hbehind⟩ := h.site
  cases hm : trailed? sites b with
  | none =>
    rw [trailed?, Option.map_eq_none_iff, getLast?_eq_none_iff] at hm
    exact absurd ((hmem n s).2 ⟨hs, hbehind⟩) (hm ▸ not_mem_nil)
  | some m =>
    obtain ⟨u, hu, hbehind'⟩ := (htrails hm).site
    rcases Nat.lt_trichotomy n m with hlt | rfl | hlt
    · exact absurd hbehind' (h.last m u hlt hu)
    · rfl
    · exact absurd hbehind ((htrails hm).last n s hlt hs)

theorem Site.headed?_eq_some_iff :
    headed? sites b = some n ↔ b.Leads sites n := by
  have hfollows (s : Site) : s.follows b ↔ b.ownLine ∧ s.header.first = b.lastLine + 1 := by simp [follows]
  rw [headed?, findIdx?_eq_some_iff_getElem]
  constructor
  · rintro ⟨hn, hsite, hbefore⟩
    obtain ⟨hown, hfirst⟩ := (hfollows _).1 hsite
    refine ⟨hown, ⟨sites[n], getElem?_eq_getElem hn, hfirst⟩, fun m s hm hs heq => hbefore m hm ?_⟩
    obtain ⟨hm', rfl⟩ := List.getElem?_eq_some_iff.1 hs
    exact (hfollows _).2 ⟨hown, heq⟩
  · rintro ⟨hown, ⟨s, hs, hfirst⟩, hbefore⟩
    obtain ⟨hn, rfl⟩ := List.getElem?_eq_some_iff.1 hs
    refine ⟨hn, (hfollows _).2 ⟨hown, hfirst⟩, fun m hm hm' => ?_⟩
    exact hbefore m _ hm (getElem?_eq_getElem (hm.trans hn)) ((hfollows _).1 hm').2

/-! ## Bindings -/

/-- The findings `ds` are those that `R` gives to numbers, one for each number in increasing order. -/
def Reports (R : Nat → Diagnostic → Prop) (ds : List Diagnostic) : Prop :=
  ∃ is : List Nat, is.Pairwise (· < ·) ∧ Forall₂ R is ds ∧ ∀ i d, R i d → i ∈ is

theorem forall₂_filterMap {β : Type} (g : α → Option β) (xs : List α) :
    Forall₂ (fun x y => g x = some y) (xs.filter fun x => (g x).isSome) (xs.filterMap g) := by
  induction xs with
  | nil => exact .nil
  | cons x xs ih =>
    rw [filter_cons, filterMap_cons]
    cases hx : g x with
    | none => exact ih
    | some y => exact .cons hx ih

/-- What is found on the items of a list, one after another. -/
theorem reports_filterMap {f : α → Option Diagnostic} {xs : List α}
    (h : ∀ i d, R i d ↔ ∃ x, xs[i]? = some x ∧ f x = some d) : Reports R (xs.filterMap f) := by
  have hnumbered : xs.filterMap f = xs.zipIdx.filterMap fun x => f x.1 := by
    conv_lhs => rw [← zipIdx_map_fst 0 xs, filterMap_map]
    rfl
  refine ⟨(xs.zipIdx.filter fun x => (f x.1).isSome).map (·.2), ?_, ?_, fun i d hR => ?_⟩
  · have hsorted := pairwise_lt_range' (s := 0) (n := xs.length)
    rw [← zipIdx_map_snd] at hsorted
    exact hsorted.sublist (filter_sublist.map _)
  · rw [hnumbered, forall₂_map_left_iff]
    refine ((forall₂_and_left _ _).2 ⟨fun x hx => mem_of_mem_filter hx,
      forall₂_filterMap (fun x : α × Nat => f x.1) _⟩).imp ?_
    rintro ⟨x, i⟩ d ⟨hx, hd⟩
    exact (h i d).2 ⟨x, mk_mem_zipIdx_iff_getElem?.1 hx, hd⟩
  · obtain ⟨x, hx, hd⟩ := (h i d).1 hR
    exact mem_map.2 ⟨(x, i), mem_filter.2 ⟨mk_mem_zipIdx_iff_getElem?.2 hx, by simp [hd]⟩, rfl⟩

theorem Reports.exists_of_mem {ds : List Diagnostic} (h : Reports R ds) {d : Diagnostic}
    (hd : d ∈ ds) : ∃ i, R i d := by
  obtain ⟨is, -, hall, -⟩ := h
  obtain ⟨k, hk, rfl⟩ := mem_iff_getElem.1 hd
  exact ⟨_, (forall₂_iff_get.1 hall).2 k (by rw [hall.length_eq]; exact hk) hk⟩

namespace Binding

variable {c : ClassDecl} {i n : Nat} {b : CommentBlock}

/-- The findings of a binding: those on tags, then those of the two passes. -/
theorem findings_eq (c : ClassDecl) : (ofClass c).1 = (c.comments.map (byTag c.members)).flatMap (·.2) ++
    (List.zip (tagged c) (trailingGrants c)).filterMap (fun x => win? c.sites x.1 x.2) ++
    (List.zip (trailed c) (leadingGrants c)).filterMap (fun x => unused? c.sites x.1 x.2) := by
  show _ ++ (byTrailing c.sites (opened c) (tagged c)).2.2 ++
    (byLeading c.sites (documented c) (byTrailing c.sites (opened c) (tagged c)).1).2 = _
  rw [trailed_eq, byLeading_eq, byTrailing_eq_grant]
  rfl

/-! ## What a binding does -/

theorem place_byTag : (byTag c.members b).1.place = none ↔ ¬b.Tagged := by
  rw [← DocTag.ofBlock?_eq_none_iff, byTag]
  cases DocTag.ofBlock? b with
  | none => simp
  | some tag => cases htag : tag.member? c.members <;> simp [htag]

/-- A site without a body has no comment that opens it. -/
theorem not_opened_of_trails (h : b.Trails c.sites n) : n ∉ opened c := by
  obtain ⟨s, hs, hbody, -⟩ := h.site
  rw [opened_iff hs, not_not]
  rcases mem_cons.1 (mem_of_getElem? hs) with rfl | hmember
  · rfl
  · obtain ⟨m, -, rfl⟩ := mem_map.1 hmember
    cases hm : m.body? with
    | none => simp [Member.site, hm]
    | some body => simp [Member.site, hm] at hbody

/-- A block wants a site that it trails. -/
theorem getElem?_wishes_tagged : (wishes (Site.trailed? c.sites) (tagged c))[i]? = some (some n) ↔
    ∃ b, c.comments[i]? = some b ∧ ¬b.Tagged ∧ b.Trails c.sites n := by
  simp only [getElem?_wishes, trailed?_eq_some_iff, ← place_byTag (c := c)]
  constructor
  · rintro ⟨p, hp, hopen, htrails⟩
    obtain ⟨b, hb, rfl⟩ : ∃ b, c.comments[i]? = some b ∧ (byTag c.members b).1 = p := by
      simpa [tagged] using hp
    rw [(tagged_byTag c.members b).2] at htrails
    exact ⟨b, hb, hopen, htrails⟩
  · rintro ⟨b, hb, hopen, htrails⟩
    exact ⟨_, getElem?_tagged hb, hopen, by rwa [(tagged_byTag c.members b).2]⟩

/-- In the first pass a block is granted the site that it is the first to trail. -/
theorem getElem?_trailingGrants : (trailingGrants c)[i]? = some (some n) ↔ c.Trailing i n := by
  rw [trailingGrants, getElem?_grant, getElem?_wishes_tagged]
  simp only [ne_eq, getElem?_wishes_tagged]
  constructor
  · rintro ⟨hblock, -, hfirst⟩
    exact ⟨hblock, fun j b hj hb htag htrails => hfirst j hj ⟨b, hb, htag, htrails⟩⟩
  · rintro ⟨⟨b, hb, htag, htrails⟩, hfirst⟩
    refine ⟨⟨b, hb, htag, htrails⟩, not_opened_of_trails htrails, ?_⟩
    rintro j hj ⟨b', hb', htag', htrails'⟩
    exact hfirst j b' hj hb' htag' htrails'

/-- A block has no place behind the first pass if it has no tag and documents no site that it trails. -/
theorem place_granted {g : Option Nat} (hg : (trailingGrants c)[i]? = some g) :
    ((byTag c.members b).1.granted g).place = none ↔ ¬b.Tagged ∧ ∀ n, ¬c.Trailing i n := by
  simp only [← getElem?_trailingGrants, hg]
  cases g with
  | none => simpa [granted] using place_byTag
  | some n => simp [granted]

/-- A block heads a site in the second pass. -/
theorem getElem?_wishes_trailed :
    (wishes (Site.headed? c.sites) (trailed c))[i]? = some (some n) ↔ c.Heading i n := by
  simp only [getElem?_wishes, headed?_eq_some_iff]
  constructor
  · rintro ⟨p, hp, hopen, hleads⟩
    have hb := comments_of_trailed hp
    obtain ⟨g, g', hg, -, htrailed, -⟩ := exists_grants hb
    rw [← Option.some.inj (htrailed.symm.trans hp), place_granted hg] at hopen
    obtain ⟨htag, hunbound⟩ := hopen
    exact ⟨⟨_, hb, htag, hleads⟩, hunbound⟩
  · rintro ⟨⟨b, hb, htag, hleads⟩, hunbound⟩
    obtain ⟨g, g', hg, -, htrailed, -⟩ := exists_grants hb
    refine ⟨_, htrailed, (place_granted hg).2 ⟨htag, hunbound⟩, ?_⟩
    rwa [block_granted, (tagged_byTag c.members b).2]

/-- In the second pass a block is granted the site that it is the first to
head, if the site is not documented. -/
theorem getElem?_leadingGrants :
    (leadingGrants c)[i]? = some (some n) ↔ c.Leading i n ∧ n ∉ opened c ∧ ∀ j, ¬c.Trailing j n := by
  rw [leadingGrants, getElem?_grant, mem_documented_iff]
  simp only [ne_eq, getElem?_wishes_trailed, getElem?_trailingGrants, not_or, not_exists]
  constructor
  · rintro ⟨hheading, ⟨htrailing, hopened⟩, hfirst⟩
    exact ⟨⟨hheading, hfirst⟩, hopened, htrailing⟩
  · rintro ⟨⟨hheading, hfirst⟩, hopened, htrailing⟩
    exact ⟨hheading, ⟨htrailing, hopened⟩, hfirst⟩

/-- The blocks that document the site `n`. -/
theorem getElem?_places_primary : (ofClass c).2.places[i]? = some (b, .primary n) ↔ c.comments[i]? = some b ∧
    (c.Trailing i n ∨ c.Leading i n ∧ n ∉ opened c ∧ ∀ j, ¬c.Trailing j n) := by
  rw [getElem?_places_granted, getElem?_trailingGrants, getElem?_leadingGrants]

/-! ## Documentation -/

theorem primaryAt_of_places (h : (ofClass c).2.places[i]? = some (b, .primary n)) :
    (ofClass c).2.primaryAt n = some b.lines :=
  ((places_ofClass c).primary b n (mem_of_getElem? h)).2.2

theorem primaryAt_of_opening (hs : c.sites[n]? = some s) {lines : List Text} (h : s.opening = some lines) :
    (ofClass c).2.primaryAt n = some lines := by
  rw [primaryAt, sites_ofClass, hs, Option.bind_some, h]
  rfl

theorem primaryAt_eq_none (hs : c.sites[n]? = some s) (h : s.opening = none)
    (htrailing : ∀ i, ¬c.Trailing i n) (hleading : ∀ i, ¬c.Leading i n) :
    (ofClass c).2.primaryAt n = none := by
  have hblock : (ofClass c).2.blockAt? n = none := by
    rw [blockAt?, Option.map_eq_none_iff, find?_eq_none]
    rintro ⟨b, place⟩ hmem hplace
    obtain ⟨i, hi⟩ := mem_iff_getElem?.1 hmem
    obtain rfl : place = .primary n := by simpa using hplace
    rcases (getElem?_places_primary.1 hi).2 with htrails | ⟨hleads, -⟩
    · exact htrailing i htrails
    · exact hleading i hleads
  rw [primaryAt, sites_ofClass, hs, Option.bind_some, h, hblock]
  rfl

theorem primaryAt_of_primary (h : c.Primary n p) : (ofClass c).2.primaryAt n = p := by
  cases h with
  | opening hs hopening => exact primaryAt_of_opening hs hopening
  | trailing hs hopening hi hb => exact primaryAt_of_places (getElem?_places_primary.2 ⟨hb, .inl hi⟩)
  | leading hs hopening htrailing hi hb =>
    have hopened : n ∉ opened c := by rw [opened_iff hs, hopening]; simp
    exact primaryAt_of_places (getElem?_places_primary.2 ⟨hb, .inr ⟨hi, hopened, htrailing⟩⟩)
  | none hs hopening htrailing hleading => exact primaryAt_eq_none hs hopening htrailing hleading

theorem exists_primary (hn : n < c.sites.length) : ∃ p, c.Primary n p := by
  have hs := getElem?_eq_getElem hn
  cases hopening : c.sites[n].opening with
  | some lines => exact ⟨_, .opening hs hopening⟩
  | none =>
    by_cases htrailing : ∃ i, c.Trailing i n
    · obtain ⟨i, hi⟩ := htrailing
      obtain ⟨b, hb, -⟩ := hi.block
      exact ⟨_, .trailing hs hopening hi hb⟩
    rw [not_exists] at htrailing
    by_cases hleading : ∃ i, c.Leading i n
    · obtain ⟨i, hi⟩ := hleading
      obtain ⟨b, hb, -⟩ := hi.heading.block
      exact ⟨_, .leading hs hopening htrailing hi hb⟩
    · exact ⟨_, .none hs hopening htrailing (not_exists.1 hleading)⟩

/-- A site has the documentation that it should have. -/
theorem primaryAt_eq_iff (hn : n < c.sites.length) :
    (ofClass c).2.primaryAt n = p ↔ c.Primary n p := by
  refine ⟨?_, primaryAt_of_primary⟩
  rintro rfl
  obtain ⟨p, hp⟩ := exists_primary hn
  rwa [primaryAt_of_primary hp]

/-- A site that a block heads is documented, by that block or otherwise. -/
theorem primaryAt_of_heading (h : c.Heading i n) : ((ofClass c).2.primaryAt n).isSome := by
  obtain ⟨b, -, -, hleads⟩ := h.block
  obtain ⟨s, hs, -⟩ := hleads.site
  by_contra hnone
  rw [Option.not_isSome_iff_eq_none, primaryAt_eq_iff (List.getElem?_eq_some_iff.1 hs).1] at hnone
  cases hnone with
  | none _ _ _ hleading =>
    -- the first block that heads the site leads to it
    induction i using Nat.strong_induction_on with
    | _ i ih => exact hleading i ⟨h, ih⟩

/-! ## Findings -/

theorem reports_trailingWins : Reports c.TrailingWins
    ((List.zip (tagged c) (trailingGrants c)).filterMap fun x => win? c.sites x.1 x.2) := by
  refine reports_filterMap fun i d => ?_
  constructor
  · rintro ⟨b, n, m, hb, htrailing, hleads, hne, rfl⟩
    refine ⟨((byTag c.members b).1, some n), ?_, ?_⟩
    · exact getElem?_zip_eq_some.2 ⟨getElem?_tagged hb, getElem?_trailingGrants.2 htrailing⟩
    · rw [win?, (tagged_byTag c.members b).2, headed?_eq_some_iff.2 hleads, Option.bind_some, if_neg hne]
  · rintro ⟨⟨p, g⟩, hx, hwin⟩
    obtain ⟨hp, hg⟩ := getElem?_zip_eq_some.1 hx
    cases g with
    | none => cases hwin
    | some n =>
      obtain ⟨m, hm, hd⟩ := Option.bind_eq_some_iff.1 hwin
      split_ifs at hd with hne
      have hb : c.comments[i]? = some p.block := by rw [← blocks_tagged, getElem?_map, hp]; rfl
      exact ⟨p.block, n, m, hb, getElem?_trailingGrants.1 hg,
        headed?_eq_some_iff.1 hm, hne, (Option.some.inj hd).symm⟩

theorem reports_leadingUnused : Reports c.LeadingUnused
    ((List.zip (trailed c) (leadingGrants c)).filterMap fun x => unused? c.sites x.1 x.2) := by
  refine reports_filterMap fun i d => ?_
  constructor
  · rintro ⟨b, n, htag, hplaces, hleads, -, rfl⟩
    obtain ⟨g, g', hg, hg', htrailed, hsettled⟩ := exists_grants (comments_of_places hplaces)
    have hfree : Place.free = _ := congrArg Prod.snd (Option.some.inj (hplaces.symm.trans hsettled))
    -- neither pass grants a site to a block that is free
    obtain ⟨rfl, rfl⟩ : g = none ∧ g' = none := by
      cases g with
      | some m => cases hfree
      | none =>
        rw [granted, settled, place_byTag.2 htag] at hfree
        cases g' with
        | some m => cases hfree
        | none => exact ⟨rfl, rfl⟩
    refine ⟨(_, none), getElem?_zip_eq_some.2 ⟨htrailed, hg'⟩, ?_⟩
    simp [unused?, place_byTag.2 htag, (tagged_byTag c.members b).2, headed?_eq_some_iff.2 hleads]
  · rintro ⟨⟨p, g'⟩, hx, hunused⟩
    obtain ⟨hp, hg'⟩ := getElem?_zip_eq_some.1 hx
    simp only [unused?] at hunused
    split_ifs at hunused with hsome
    obtain ⟨hopen, rfl⟩ : p.place = none ∧ g' = none := by simpa using hsome
    obtain ⟨n, hn, rfl⟩ := Option.map_eq_some_iff.1 hunused
    have hheading := getElem?_wishes_trailed.1 (getElem?_wishes.2 ⟨p, hp, hopen, hn⟩)
    obtain ⟨b, hb, htag, -⟩ := hheading.block
    obtain rfl := Option.some.inj (hb.symm.trans (comments_of_trailed hp))
    refine ⟨p.block, n, htag, ?_, headed?_eq_some_iff.1 hn, primaryAt_of_heading hheading, rfl⟩
    rw [places_eq, getElem?_zipWith, hp, hg']
    simp [settled, hopen]

/-- The findings of the two passes are those on ambiguous blocks. -/
theorem filter_ambiguity (c : ClassDecl) :
    (ofClass c).1.filter (·.finding.kind = "AssociationAmbiguity".toList) =
    (List.zip (tagged c) (trailingGrants c)).filterMap (fun x => win? c.sites x.1 x.2) ++
      (List.zip (trailed c) (leadingGrants c)).filterMap (fun x => unused? c.sites x.1 x.2) := by
  have htags : ((c.comments.map (byTag c.members)).flatMap (·.2)).filter
      (·.finding.kind = "AssociationAmbiguity".toList) = [] := by
    rw [filter_eq_nil_iff]
    intro d hd
    obtain ⟨x, hx, hd⟩ := mem_flatMap.1 hd
    obtain ⟨b, -, rfl⟩ := mem_map.1 hx
    unfold byTag at hd
    split at hd
    · cases hd
    · split at hd
      · cases hd
      · rw [mem_singleton.1 hd]
        show ¬decide ("UnresolvedDocTarget".toList = "AssociationAmbiguity".toList) = true
        decide
  rw [findings_eq, filter_append, filter_append, htags, nil_append]
  rw [filter_eq_self.2 fun d hd => ?_, filter_eq_self.2 fun d hd => ?_]
  · obtain ⟨i, b, n, -, -, -, -, rfl⟩ := reports_leadingUnused.exists_of_mem hd
    exact decide_eq_true rfl
  · obtain ⟨i, b, n, m, -, -, -, -, rfl⟩ := reports_trailingWins.exists_of_mem hd
    exact decide_eq_true rfl

end Binding

/-- A binding follows the rule. What opens its body documents a method; any other site is documented by the
first block without a tag that trails it, or else by the first one above it that trails nothing. A tagged
block never does. A finding on an ambiguous block is made exactly for each block that documents a site
though it leads to another one, and for each free block without a tag above a site, which is documented. -/
theorem ClassDecl.documented_by_priority (c : ClassDecl) :
    (∀ p, (Binding.ofClass c).2.ofHeader.primary = p ↔ c.Primary 0 p) ∧
    (∀ i < c.members.length, ∀ p, ((Binding.ofClass c).2.ofMember i).primary = p ↔ c.Primary (i + 1) p) ∧
    (∀ (i : Nat) (b : CommentBlock) (n : Nat),
      b.Tagged → (Binding.ofClass c).2.places[i]? ≠ some (b, .primary n)) ∧
    ∃ wins unused, (Binding.ofClass c).1.filter (·.finding.kind = "AssociationAmbiguity".toList) =
      wins ++ unused ∧
      Reports c.TrailingWins wins ∧ Reports c.LeadingUnused unused := by
  have hlength : c.sites.length = c.members.length + 1 := by simp [sites]
  refine ⟨fun p => ?_, fun i hi p => ?_, fun i b n htag hplaces => ?_, _, _, Binding.filter_ambiguity c,
    Binding.reports_trailingWins, Binding.reports_leadingUnused⟩
  · have hn : 0 < c.sites.length := by omega
    exact Binding.primaryAt_eq_iff hn
  · have hn : i + 1 < c.sites.length := by omega
    exact Binding.primaryAt_eq_iff hn
  · obtain ⟨hb, hgranted⟩ := Binding.getElem?_places_primary.1 hplaces
    have huntagged : ∃ b, c.comments[i]? = some b ∧ ¬b.Tagged := by
      rcases hgranted with htrailing | ⟨hleading, -⟩
      · exact htrailing.block.imp fun _ h => ⟨h.1, h.2.1⟩
      · exact hleading.heading.block.imp fun _ h => ⟨h.1, h.2.1⟩
    obtain ⟨b', hb', htag'⟩ := huntagged
    exact htag' (Option.some.inj (hb.symm.trans hb') ▸ htag)

/-- A block between two properties, one above them, and a comment that opens a body. -/
def sharedComment : Text :=
  "classdef A\nproperties\n% above\nx = 1;\n% below\ny\nend\nmethods\nfunction f(a)\n% opens\nend\nend\nend\n"

theorem ClassDecl.documented_by_priority_shared : ∃ c, parse {} sharedComment = .ok c ∧ c.members.length = 3 ∧
    c.Primary 0 none ∧ c.Primary 1 (some [" below".toList]) ∧
    c.Primary 2 none ∧ c.Primary 3 (some [" opens".toList]) ∧
    (Binding.ofClass c).1.map (·.finding) =
      [.trailingWins "'x'".toList "'y'".toList, .leadingUnused "'x'".toList] := by
  obtain ⟨c, hc, hmembers, hheader, hx, hy, hf, hfindings⟩ : ∃ c, parse {} sharedComment = .ok c ∧
      c.members.length = 3 ∧ (Binding.ofClass c).2.ofHeader.primary = none ∧
      ((Binding.ofClass c).2.ofMember 0).primary = some [" below".toList] ∧
      ((Binding.ofClass c).2.ofMember 1).primary = none ∧
      ((Binding.ofClass c).2.ofMember 2).primary = some [" opens".toList] ∧
      (Binding.ofClass c).1.map (·.finding) =
        [.trailingWins "'x'".toList "'y'".toList, .leadingUnused "'x'".toList] := by decide +kernel
  obtain ⟨hclass, hmember, -⟩ := documented_by_priority c
  exact ⟨c, hc, hmembers, (hclass _).1 hheader, (hmember 0 (by omega) _).1 hx, (hmember 1 (by omega) _).1 hy,
    (hmember 2 (by omega) _).1 hf, hfindings⟩

end ClassdefDoc
