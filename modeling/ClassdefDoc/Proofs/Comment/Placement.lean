import ClassdefDoc.Documentation.Binding
import ClassdefDoc.Proofs.Comment.Group

/-!
# Where comments go

A binding gives each comment block of a class one place (`Binding.places_ofClass`): it documents
one site that nothing else documents, adds to one member, or is free. The passes that place
blocks by what they trail and by what they head are one rule with different wishes: each block
without a place wants one site, and of the blocks that want the same site the first one gets it,
if the site is not taken (`grant`). So the sites that blocks document are all different.
-/

namespace ClassdefDoc

open List Placed Site DocTag

variable {tag : DocTag} {sites : List Site} {taken : List Nat}

variable {b : CommentBlock} {n i : Nat} {lines : List Text}

/-- The site that a place documents. -/
def Place.site? : Place → Option Nat
  | .primary n => some n
  | _ => none

/-- The lines that a place adds to a member. -/
def Place.supplement? (n : Nat) : Place → Option (List Text)
  | .supplement m lines => if m = n then some lines else none
  | _ => none

theorem Place.eq_of_supplement? {place : Place} (h : place.supplement? n = some lines) :
    place = .supplement n lines := by
  cases place with
  | supplement m lines' =>
    obtain ⟨rfl, rfl⟩ : m = n ∧ lines' = lines := by simpa [supplement?] using h
    rfl
  | _ => cases h

/-! ## Tags -/

/-- The lines of a tagged block: blank ones, the line with the tag, and the lines that are kept. -/
structure DocTag.Heads (tag : DocTag) (lines : List Text) : Prop where
  split : ∃ blanks line, lines = blanks ++ line :: tag.lines ∧ (∀ b ∈ blanks, Text.isBlank b) ∧
    ∃ word more, Text.words line = word :: tag.target :: more ∧ kindOf? word = some tag.kind

theorem DocTag.heads_of_ofBlock? (h : ofBlock? b = some tag) : tag.Heads b.lines := by
  unfold ofBlock? at h
  split at h
  · cases h
  · rename_i first rest hfirst
    split at h
    · rename_i word target more hwords
      obtain ⟨kind, hkind, rfl⟩ := Option.map_eq_some_iff.1 h
      refine ⟨b.lines.takeWhile Text.isBlank, first, ?_, fun l hl => mem_takeWhile_imp hl,
        word, more, hwords, hkind⟩
      rw [← hfirst, takeWhile_append_dropWhile]
    · cases h

theorem DocTag.lt_of_member? {members : List Member} (h : tag.member? members = some n) :
    n < members.length := by
  rcases Option.or_eq_some_iff.1 h with h | ⟨-, h⟩
  · exact (findIdx?_eq_some_iff_getElem.1 h).1
  · exact (findIdx?_eq_some_iff_getElem.1 h).1

/-- What a tag decides about a block. -/
inductive Placed.Tagged (members : List Member) (p : Placed) : Prop
  | open : p.place = none → Tagged members p
  | free : p.place = some .free → Tagged members p
  | supplement {n : Nat} {tag : DocTag} : p.place = some (.supplement n tag.lines) → n < members.length →
    tag.Heads p.block.lines → Tagged members p

theorem Placed.tagged_byTag (members : List Member) (b : CommentBlock) :
    (byTag members b).1.Tagged members ∧ (byTag members b).1.block = b := by
  unfold byTag
  split
  · exact ⟨.open rfl, rfl⟩
  · rename_i tag htag
    split
    · rename_i n hn
      exact ⟨.supplement rfl (lt_of_member? hn) (heads_of_ofBlock? htag), rfl⟩
    · exact ⟨.free rfl, rfl⟩

/-! ## Sites -/

theorem Site.lt_of_trailed? (h : trailed? sites b = some n) : n < sites.length := by
  obtain ⟨x, hx, rfl⟩ := Option.map_eq_some_iff.1 h
  have hmem := (mem_filter.1 (mem_of_getLast? hx)).1
  obtain ⟨s, i⟩ := x
  exact (mk_mem_zipIdx_iff_getElem?.1 hmem |> List.getElem?_eq_some_iff.1).1

theorem Site.lt_of_headed? (h : headed? sites b = some n) : n < sites.length :=
  (findIdx?_eq_some_iff_getElem.1 h).1

/-! ## First come, first served -/

/-- Grants wishes in their order: a wish is granted unless what it asks for is taken. -/
def grant (taken : List Nat) : List (Option Nat) → List (Option Nat)
  | [] => []
  | none :: wishes => none :: grant taken wishes
  | some n :: wishes =>
    if n ∈ taken then none :: grant taken wishes else some n :: grant (n :: taken) wishes

theorem grant_cons (taken : List Nat) (wish : Option Nat) (wishes : List (Option Nat)) :
    grant taken (wish :: wishes) =
    wish.filter (· ∉ taken) :: grant ((wish.filter (· ∉ taken)).toList ++ taken) wishes := by
  cases wish with
  | none => rfl
  | some n => by_cases hn : n ∈ taken <;> simp [grant, Option.filter_some, hn]

@[simp] theorem length_grant (taken : List Nat) (wishes : List (Option Nat)) :
    (grant taken wishes).length = wishes.length := by
  fun_induction grant taken wishes <;> simp_all

/-- The first wish for something that is not taken is granted, and no other wish for it is. -/
theorem getElem?_grant {wishes : List (Option Nat)} : (grant taken wishes)[i]? = some (some n) ↔
      wishes[i]? = some (some n) ∧ n ∉ taken ∧ ∀ j < i, wishes[j]? ≠ some (some n) := by
  induction wishes generalizing taken i with
  | nil => simp [grant]
  | cons wish wishes ih =>
    rw [grant_cons]
    cases i with
    | zero => simp [Option.filter_eq_some_iff]
    | succ i =>
      -- earlier wishes are the first one and those before number `i` among the others
      have hearlier : (∀ j < i + 1, (wish :: wishes)[j]? ≠ some (some n)) ↔
          wish ≠ some n ∧ ∀ j < i, wishes[j]? ≠ some (some n) := by
        rw [Nat.forall_lt_succ_left]
        simp
      have htaken : n ∉ (wish.filter (· ∉ taken)).toList ++ taken ↔ n ∉ taken ∧ wish ≠ some n := by
        simp only [mem_append, Option.mem_toList, Option.filter_eq_some_iff, decide_eq_true_eq]
        tauto
      rw [hearlier, getElem?_cons_succ, getElem?_cons_succ, ih, htaken]
      tauto

theorem eq_of_grant {wishes : List (Option Nat)} {j : Nat} (hi : (grant taken wishes)[i]? = some (some n))
    (hj : (grant taken wishes)[j]? = some (some n)) : i = j := by
  rw [getElem?_grant] at hi hj
  rcases Nat.lt_trichotomy i j with hlt | rfl | hlt
  · exact absurd hi.1 (hj.2.2 i hlt)
  · rfl
  · exact absurd hj.1 (hi.2.2 j hlt)

/-! ## The two passes -/

namespace Placed

variable {ps : List Placed} {i n : Nat}

/-- What the blocks without a place want. -/
def wishes (target : CommentBlock → Option Nat) (ps : List Placed) : List (Option Nat) :=
  ps.map fun p => if p.place.isSome then none else target p.block

theorem getElem?_wishes {target : CommentBlock → Option Nat} : (wishes target ps)[i]? = some (some n) ↔
    ∃ p, ps[i]? = some p ∧ p.place = none ∧ target p.block = some n := by
  rw [wishes, getElem?_map, Option.map_eq_some_iff]
  refine exists_congr fun p => and_congr_right fun _ => ?_
  cases p.place <;> simp

/-- A block with the site that it is granted, if it is. -/
def granted (p : Placed) : Option Nat → Placed
  | some n => ⟨p.block, some (.primary n)⟩
  | none => p

theorem block_granted (p : Placed) (g : Option Nat) : (p.granted g).block = p.block := by
  cases g <;> rfl

/-- The finding on a block that is granted the site it trails: it heads another one. -/
def win? (sites : List Site) (p : Placed) : Option Nat → Option Diagnostic
  | some n => (headed? sites p.block).bind fun m =>
      if m = n then none
      else some ⟨.trailingWins (labelOf sites n) (labelOf sites m), p.block.position, none⟩
  | none => none

/-- Blocks are granted the sites that they trail. -/
theorem byTrailing_eq_grant (sites : List Site) (documented : List Nat) (ps : List Placed) :
    let grants := grant documented (wishes (trailed? sites) ps)
    byTrailing sites documented ps = (List.zipWith granted ps grants,
      (grants.filterMap id).reverse ++ documented, (List.zip ps grants).filterMap fun x =>
      win? sites x.1 x.2) := by
  induction ps generalizing documented with
  | nil => rfl
  | cons p ps ih =>
    simp only [wishes, map_cons, grant_cons] at ih ⊢
    rw [byTrailing]
    split
    · rename_i n hplace htrailed
      by_cases hn : n ∈ documented
      · simp [hplace, htrailed, Option.filter_some, hn, ih, granted, win?]
      · cases hheaded : headed? sites p.block with
        | none => simp [hplace, htrailed, Option.filter_some, hn, ih, granted, win?, hheaded]
        | some m => by_cases hm : m = n <;> simp [hplace, htrailed,
          Option.filter_some, hn, ih, granted, win?, hheaded, hm]
    · rename_i hno
      have hwish : (if p.place.isSome then none else trailed? sites p.block) = none := by
        cases hplace : p.place with
        | none => exact Option.eq_none_iff_forall_ne_some.2 fun n => hno n hplace
        | some place => rfl
      simp [hwish, ih, granted, win?]

/-- The block with its place: the one it has, or the site that it is granted. -/
def settled (p : Placed) (g : Option Nat) : CommentBlock × Place :=
  (p.block, p.place.getD ((g.map Place.primary).getD .free))

/-- The finding on a block that is not granted the site it heads. -/
def unused? (sites : List Site) (p : Placed) (g : Option Nat) : Option Diagnostic :=
  if p.place.isSome || g.isSome then none
  else (headed? sites p.block).map fun n => ⟨.leadingUnused (labelOf sites n), p.block.position, none⟩

/-- Blocks are granted the sites that they head. -/
theorem byLeading_eq_grant (sites : List Site) (documented : List Nat) (ps : List Placed) :
    let grants := grant documented (wishes (headed? sites) ps)
    byLeading sites documented ps = (List.zipWith settled ps grants,
      (List.zip ps grants).filterMap fun x => unused? sites x.1 x.2) := by
  induction ps generalizing documented with
  | nil => rfl
  | cons p ps ih =>
    simp only [wishes, map_cons, grant_cons] at ih ⊢
    rw [byLeading]
    split
    · rename_i place hplace
      simp [hplace, settled, unused?, ih]
    · rename_i n hplace hheaded
      by_cases hn : n ∈ documented <;> simp [hplace, hheaded, Option.filter_some, hn, settled, unused?, ih]
    · rename_i hplace hheaded
      simp [hplace, hheaded, settled, unused?, ih]

end Placed

/-! ## Bindings -/

/-- Each comment block of a class has one place. -/
structure Binding.Places (b : Binding) (c : ClassDecl) : Prop where
  /-- The places are those of the class's blocks, in file order. -/
  blocks : b.places.map (·.1) = c.comments
  /-- A block that documents a site is its documentation, which nothing else is. -/
  primary : ∀ block n, (block, .primary n) ∈ b.places → n < c.sites.length ∧
    (c.sites[n]?.bind (·.opening)) = none ∧ b.primaryAt n = some block.lines
  /-- No two blocks document one site. -/
  unique : ∀ n, b.places.countP (·.2 == .primary n) ≤ 1
  /-- A block that adds to a member does so with the lines below its tag. -/
  supplement : ∀ block n lines, (block, .supplement n lines) ∈ b.places → n < c.members.length ∧
    ∃ tag : DocTag, tag.lines = lines ∧ tag.Heads block.lines
  /-- What is added to a member comes from blocks in file order, one for each place. -/
  supplementary : ∀ n, ∃ blocks : List CommentBlock, blocks.Sublist c.comments ∧
    blocks.length = b.places.countP (fun x => (x.2.supplement? n).isSome) ∧
    Forall₂ (fun block lines => (block, .supplement n lines) ∈ b.places) blocks (b.ofMember n).supplementary
  /-- The free blocks stand in file order, one for each place. -/
  free : b.free.Sublist c.comments ∧ b.free.length = b.places.countP (·.2 == .free)

namespace Binding

variable {b b' : CommentBlock} {c : ClassDecl} {i j n : Nat}

theorem sites_ofClass (c : ClassDecl) : (ofClass c).2.sites = c.sites := rfl

/-- The sites of a class with a comment that opens a body. -/
def opened (c : ClassDecl) : List Nat := (c.sites.zipIdx.filter (·.1.opening.isSome)).map (·.2)

theorem opened_iff {s : Site} (hs : c.sites[n]? = some s) : n ∈ opened c ↔ s.opening ≠ none := by
  simp only [opened, mem_map, mem_filter, Prod.exists, mk_mem_zipIdx_iff_getElem?, Option.isSome_iff_ne_none]
  constructor
  · rintro ⟨s', m, ⟨hs', hopening⟩, rfl⟩
    rwa [Option.some.inj (hs.symm.trans hs')]
  · exact fun hopening => ⟨s, n, ⟨hs, hopening⟩, rfl⟩

/-- The blocks of a class with the places that their tags give them. -/
def tagged (c : ClassDecl) : List Placed := (c.comments.map (byTag c.members)).map (·.1)

theorem getElem?_tagged (hb : c.comments[i]? = some b) : (tagged c)[i]? = some (byTag c.members b).1 := by
  rw [tagged, getElem?_map, getElem?_map, hb]
  rfl

theorem blocks_tagged (c : ClassDecl) : (tagged c).map (·.block) = c.comments := by
  simp only [tagged, map_map]
  exact map_id'' (fun b => (tagged_byTag c.members b).2) c.comments

/-- The sites that blocks are granted because they trail them. -/
def trailingGrants (c : ClassDecl) : List (Option Nat) :=
  grant (opened c) (Placed.wishes (trailed? c.sites) (tagged c))

/-- The blocks behind the first pass. -/
def trailed (c : ClassDecl) : List Placed := List.zipWith Placed.granted (tagged c) (trailingGrants c)

/-- The sites that are documented behind the first pass. -/
def documented (c : ClassDecl) : List Nat := (Placed.byTrailing c.sites (opened c) (tagged c)).2.1

/-- The sites that blocks are granted because they lead to them. -/
def leadingGrants (c : ClassDecl) : List (Option Nat) :=
  grant (documented c) (Placed.wishes (headed? c.sites) (trailed c))

/-- Behind the first pass a site is documented by what opens its body or by a block that trails it. -/
theorem mem_documented_iff :
    n ∈ documented c ↔ (∃ i : Nat, (trailingGrants c)[i]? = some (some n)) ∨ n ∈ opened c := by
  rw [documented, byTrailing_eq_grant, ← mem_iff_getElem?]
  simp [trailingGrants]

theorem trailed_eq (c : ClassDecl) : (Placed.byTrailing c.sites (opened c) (tagged c)).1 = trailed c := by
  rw [byTrailing_eq_grant]
  rfl

theorem byLeading_eq (c : ClassDecl) : Placed.byLeading c.sites (documented c) (trailed c) =
    (List.zipWith Placed.settled (trailed c) (leadingGrants c),
      (List.zip (trailed c) (leadingGrants c)).filterMap fun x => Placed.unused? c.sites x.1 x.2) :=
  byLeading_eq_grant ..

theorem places_eq (c : ClassDecl) :
    (ofClass c).2.places = List.zipWith Placed.settled (trailed c) (leadingGrants c) := by
  show (Placed.byLeading c.sites (documented c) (Placed.byTrailing c.sites (opened c) (tagged c)).1).1 = _
  rw [trailed_eq, byLeading_eq]

/-- Block number `i` with what the two passes grant it. -/
theorem exists_grants (hb : c.comments[i]? = some b) :
    ∃ g g', (trailingGrants c)[i]? = some g ∧ (leadingGrants c)[i]? = some g' ∧
    (trailed c)[i]? = some ((byTag c.members b).1.granted g) ∧
    (ofClass c).2.places[i]? = some (((byTag c.members b).1.granted g).settled g') := by
  have hi := (List.getElem?_eq_some_iff.1 hb).1
  have hlength : (trailingGrants c).length = c.comments.length := by
    simp [trailingGrants, Placed.wishes, tagged]
  have hlength' : (leadingGrants c).length = c.comments.length := by
    simp [leadingGrants, Placed.wishes, trailed, hlength, tagged]
  obtain ⟨g, hg⟩ : ∃ g, (trailingGrants c)[i]? = some g := ⟨_, getElem?_eq_getElem (hlength.symm ▸ hi)⟩
  obtain ⟨g', hg'⟩ : ∃ g, (leadingGrants c)[i]? = some g := ⟨_, getElem?_eq_getElem (hlength'.symm ▸ hi)⟩
  have htrailed : (trailed c)[i]? = some ((byTag c.members b).1.granted g) := by
    rw [trailed, getElem?_zipWith, getElem?_tagged hb, hg]
  exact ⟨g, g', hg, hg', htrailed, by rw [places_eq, getElem?_zipWith, htrailed, hg']⟩

theorem comments_of_trailed {p : Placed} (h : (trailed c)[i]? = some p) : c.comments[i]? = some p.block := by
  obtain ⟨q, g, hq, -, rfl⟩ := getElem?_zipWith_eq_some.1 h
  rw [← blocks_tagged, getElem?_map, hq, block_granted]
  rfl

theorem comments_of_places {x : CommentBlock × Place} (h : (ofClass c).2.places[i]? = some x) :
    c.comments[i]? = some x.1 := by
  rw [places_eq] at h
  obtain ⟨p, g, hp, -, rfl⟩ := getElem?_zipWith_eq_some.1 h
  exact comments_of_trailed hp

theorem blocks_places (c : ClassDecl) : (ofClass c).2.places.map (·.1) = c.comments := by
  refine List.ext_getElem? fun i => ?_
  cases hx : (ofClass c).2.places[i]? with
  | some x => rw [getElem?_map, hx, comments_of_places hx, Option.map_some]
  | none =>
    rw [getElem?_map, hx]
    cases hb : c.comments[i]? with
    | none => rfl
    | some b =>
      obtain ⟨g, g', -, -, -, hplaces⟩ := exists_grants hb
      cases hx.symm.trans hplaces

/-- The blocks that document the site `n`. -/
theorem getElem?_places_granted : (ofClass c).2.places[i]? = some (b, .primary n) ↔ c.comments[i]? = some b ∧
    ((trailingGrants c)[i]? = some (some n) ∨ (leadingGrants c)[i]? = some (some n)) := by
  constructor
  · intro h
    have hb := comments_of_places h
    obtain ⟨g, g', hg, hg', -, hplaces⟩ := exists_grants hb
    have hplace : Place.primary n = _ := congrArg Prod.snd (Option.some.inj (h.symm.trans hplaces))
    refine ⟨hb, ?_⟩
    rw [hg, hg']
    cases g with
    | some m =>
      cases hplace
      exact .inl rfl
    | none =>
      rcases (tagged_byTag c.members b).1 with htag | htag | ⟨htag,
        -, -⟩ <;> rw [Placed.granted, Placed.settled, htag] at hplace
      · cases g' with
        | none => cases hplace
        | some m =>
          cases hplace
          exact .inr rfl
      · cases hplace
      · cases hplace
  · rintro ⟨hb, hgranted⟩
    obtain ⟨g, g', hg, hg', htrailed, hplaces⟩ := exists_grants hb
    rw [hplaces, Placed.settled, block_granted, (tagged_byTag c.members b).2]
    rcases hgranted with htrailing | hleading
    · cases hg.symm.trans htrailing
      rfl
    · obtain ⟨p, hp, hopen, -⟩ := getElem?_wishes.1 (getElem?_grant.1 hleading).1
      cases hp.symm.trans htrailed
      cases hg'.symm.trans hleading
      rw [hopen]
      rfl

/-- No two blocks document one site. -/
theorem eq_of_places_primary (h : (ofClass c).2.places[i]? = some (b, .primary n))
    (h' : (ofClass c).2.places[j]? = some (b', .primary n)) : i = j := by
  have free {i j : Nat} (hi : (trailingGrants c)[i]? = some (some n))
      (hj : (leadingGrants c)[j]? = some (some n)) : False :=
    (getElem?_grant.1 hj).2.1 (mem_documented_iff.2 (.inl ⟨i, hi⟩))
  rcases (getElem?_places_granted.1 h).2 with hi | hi <;> rcases (getElem?_places_granted.1 h').2 with hj | hj
  · exact eq_of_grant hi hj
  · exact (free hi hj).elim
  · exact (free hj hi).elim
  · exact eq_of_grant hi hj

theorem nodup_sites (c : ClassDecl) : ((ofClass c).2.places.filterMap (·.2.site?)).Nodup := by
  have hsite {x : CommentBlock × Place} {n : Nat} (h : x.2.site? = some n) : x = (x.1, .primary n) := by
    obtain ⟨b, place⟩ := x
    cases place <;> cases h
    rfl
  refine pairwise_filterMap.2 (pairwise_iff_getElem.2 fun i j hi hj hij n hn m hm heq => ?_)
  subst heq
  have hi := (getElem?_eq_getElem hi).trans (congrArg some (hsite hn))
  have hj := (getElem?_eq_getElem hj).trans (congrArg some (hsite hm))
  exact absurd (eq_of_places_primary hi hj) hij.ne

theorem countP_primary (places : List (CommentBlock × Place)) (n : Nat) :
    places.countP (·.2 == .primary n) = (places.filterMap (·.2.site?)).count n := by
  rw [List.count, countP_filterMap]
  congr 1
  funext x
  cases x.2 <;> simp [Place.site?]

section

variable (h : (ofClass c).2.places[i]? = some (b, .primary n))
include h

/-- The site of a block that documents one has that block. -/
theorem blockAt?_of_places : (ofClass c).2.blockAt? n = some b := by
  cases hfind : (ofClass c).2.places.find? (·.2 == .primary n) with
  | none =>
    have := find?_eq_none.1 hfind _ (mem_of_getElem? h)
    simp at this
  | some x =>
    obtain ⟨b', place⟩ := x
    obtain rfl : place = .primary n := by simpa using find?_some hfind
    obtain ⟨j, hj⟩ := mem_iff_getElem?.1 (mem_of_find?_eq_some hfind)
    obtain rfl := eq_of_places_primary h hj
    cases h.symm.trans hj
    rw [blockAt?, hfind]
    rfl

/-- The sites that blocks document have no documentation of their own. -/
theorem opening_of_places : ∃ s, c.sites[n]? = some s ∧ s.opening = none := by
  obtain ⟨hclosed, hlt⟩ : n ∉ opened c ∧ n < c.sites.length := by
    rcases (getElem?_places_granted.1 h).2 with hg | hg
    · obtain ⟨hwish, hclosed, -⟩ := getElem?_grant.1 hg
      obtain ⟨p, -, -, htrailed⟩ := getElem?_wishes.1 hwish
      exact ⟨hclosed, lt_of_trailed? htrailed⟩
    · obtain ⟨hwish, hfree, -⟩ := getElem?_grant.1 hg
      obtain ⟨p, -, -, hheaded⟩ := getElem?_wishes.1 hwish
      exact ⟨fun hopened => hfree (mem_documented_iff.2 (.inr hopened)), lt_of_headed? hheaded⟩
  have hs := getElem?_eq_getElem hlt
  exact ⟨_, hs, by simpa using mt (opened_iff hs).2 hclosed⟩

end

/-- A block that neither documents a site nor is free has the place that its tag gives it. -/
theorem place_of_places (h : (ofClass c).2.places[i]? = some (b, .supplement n lines)) :
    (byTag c.members b).1.place = some (.supplement n lines) := by
  obtain ⟨g, g', -, -, -, hplaces⟩ := exists_grants (comments_of_places h)
  have hplace : Place.supplement n lines = _ := congrArg Prod.snd (Option.some.inj (h.symm.trans hplaces))
  cases g with
  | some m => cases hplace
  | none =>
    rcases (tagged_byTag c.members b).1 with htag | htag | ⟨htag,
      -, -⟩ <;> rw [Placed.granted, Placed.settled, htag] at hplace
    · cases g' <;> cases hplace
    · cases hplace
    · cases hplace
      exact htag

/-- What is added to a member, with the blocks it comes from. -/
theorem forall₂_supplement? (places : List (CommentBlock × Place)) (n : Nat) :
    Forall₂ (fun block lines => (block, .supplement n lines) ∈ places)
      ((places.filter fun x => (x.2.supplement? n).isSome).map (·.1))
      (places.filterMap (·.2.supplement? n)) := by
  induction places with
  | nil => exact .nil
  | cons x places ih =>
    have hrest := ih.imp fun _ _ hmem => mem_cons_of_mem x hmem
    cases hadds : x.2.supplement? n with
    | none => simpa [hadds] using hrest
    | some lines =>
      rw [filter_cons_of_pos (by simp [hadds]), map_cons, filterMap_cons, hadds]
      refine .cons ?_ hrest
      rw [← Place.eq_of_supplement? hadds]
      exact mem_cons_self

theorem supplementary_ofMember (b : Binding) (n : Nat) :
    (b.ofMember n).supplementary = b.places.filterMap (·.2.supplement? n) := by
  refine filterMap_congr fun x _ => ?_
  obtain ⟨block, place⟩ := x
  cases place <;> rfl

/-- Every block has one place. -/
theorem places_ofClass (c : ClassDecl) : (Binding.ofClass c).2.Places c := by
  have hsublist (p : CommentBlock × Place → Bool) :
      ((ofClass c).2.places.filter p |>.map (·.1)).Sublist c.comments := by
    rw [← blocks_places c]
    exact filter_sublist.map _
  refine ⟨blocks_places c, fun block n hmem => ?_, fun n => ?_, fun block n lines hmem => ?_,
    fun n => ⟨_, hsublist _, ?_, supplementary_ofMember _ n ▸ forall₂_supplement? _ n⟩, hsublist _, ?_⟩
  · obtain ⟨i, hi⟩ := mem_iff_getElem?.1 hmem
    obtain ⟨s, hs, hopening⟩ := opening_of_places hi
    have hopening : (c.sites[n]?.bind (·.opening)) = none := by rw [hs, Option.bind_some, hopening]
    refine ⟨(List.getElem?_eq_some_iff.1 hs).1, hopening, ?_⟩
    rw [primaryAt, sites_ofClass, hopening, blockAt?_of_places hi]
    rfl
  · rw [countP_primary]
    exact nodup_iff_count_le_one.1 (nodup_sites c) n
  · obtain ⟨i, hi⟩ := mem_iff_getElem?.1 hmem
    have hplace := place_of_places hi
    obtain ⟨htagged, hblock⟩ := tagged_byTag c.members block
    rcases htagged with htag | htag | ⟨htag, hlt, hheads⟩
    · cases htag.symm.trans hplace
    · cases htag.symm.trans hplace
    · cases htag.symm.trans hplace
      exact ⟨hlt, _, rfl, hblock ▸ hheads⟩
  · rw [length_map, countP_eq_length_filter]
  · rw [free, length_map, countP_eq_length_filter]

end Binding

end ClassdefDoc
