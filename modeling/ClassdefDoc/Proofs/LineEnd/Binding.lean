import ClassdefDoc.Proofs.Comment.Placement
import ClassdefDoc.Proofs.LineEnd.DocText
import ClassdefDoc.Proofs.Parse.Twin

/-!
# Binding comments with carriage returns

A comment is bound by the lines it stands on and by its first two words, and neither changes with the
carriage returns at the end of its lines. So the comments of a text and of its form with returns go to the
same places (`Likeness.likeBinding_ofClass`), and what is bound to a declaration differs by the returns only.
-/

namespace ClassdefDoc

open List
open Placed (byTag byTrailing byLeading)
open Binding (ofClass tagged opened)

open Text (Ended)

variable {p p' : Place}

section Forall₂

variable {α β : Type} {R : α → β → Prop} {xs : List α} {ys : List β}

theorem findIdx?_eq_of_forall₂ {p : α → Bool} {q : β → Bool}
    (h : Forall₂ R xs ys) (hp : ∀ x y, R x y → p x = q y) :
    xs.findIdx? p = ys.findIdx? q := by
  have hmap := congrArg (List.findIdx? id) (map_eq_of_forall₂ h hp)
  simpa [findIdx?_map] using hmap

/-- The numbers of the elements with a property. -/
theorem zipIdx_filter_eq_of_forall₂ {p : α → Bool} {q : β → Bool}
    (h : Forall₂ R xs ys) (hp : ∀ x y, R x y → p x = q y) :
    (xs.zipIdx.filter (p ·.1)).map (·.2) = (ys.zipIdx.filter (q ·.1)).map (·.2) := by
  have hmap := congrArg (fun bs => (bs.zipIdx.filter (·.1)).map (·.2)) (map_eq_of_forall₂ h hp)
  simpa [zipIdx_map, filter_map, Function.comp_def] using hmap

theorem rel_getElem? (h : Forall₂ R xs ys) (n : Nat) : Option.Rel R xs[n]? ys[n]? := by
  induction h generalizing n with
  | nil => exact .none
  | cons hxy _ ih =>
    cases n with
    | zero => exact .some hxy
    | succ n => exact ih n

theorem isSome_eq_of_rel {o : Option α} {o' : Option β} (h : Option.Rel R o o') : o.isSome = o'.isSome := by
  cases h <;> rfl

end Forall₂

/-- Sites on the same lines, with openings that differ by returns. -/
structure Site.Alike (s s' : Site) : Prop where
  header : s.header = s'.header
  hasBody : s.hasBody = s'.hasBody
  opening : Option.Rel (Forall₂ Ended) s.opening s'.opening

inductive Place.Alike : Place → Place → Prop
  | primary (n : Nat) : Alike (.primary n) (.primary n)
  | supplement (n : Nat) {ls ls' : List Text} : Forall₂ Ended ls ls' →
    Alike (.supplement n ls) (.supplement n ls')
  | free : Alike .free .free

theorem Place.Alike.eq_primary_iff (h : p.Alike p') (n : Nat) :
    (p == .primary n) = (p' == .primary n) := by
  cases h <;> rfl

theorem Place.Alike.eq_free_iff (h : p.Alike p') : (p == .free) = (p' == .free) := by
  cases h <;> rfl

namespace Likeness

variable {text : Text} {h : '\r' ∉ text} {b b' : CommentBlock}
  {ms ms' : List Member} {sites sites' : List Site} {ps ps' : List Placed}
  {K : Likeness} {documented documented' : List Nat} {m m' : Member} {c c' : ClassDecl}

/-! ## Sites -/

theorem LikeMember.body? (hm : K.LikeMember m m') :
    Option.Rel K.LikeBody m.body? m'.body? := by
  unfold Member.body?
  exact hm.method?.casesOn (fun hd => hd.body) .none

theorem alike_site (hm : (crlf text h).LikeMember m m') : m.site.Alike m'.site := by
  refine ⟨hm.header, isSome_eq_of_rel hm.body?, ?_⟩
  show Option.Rel _ ((m.body?.bind (·.doc)).map (·.lines)) ((m'.body?.bind (·.doc)).map (·.lines))
  refine hm.body?.casesOn (fun hb => ?_) .none
  simp only [Option.bind_some]
  exact hb.doc.casesOn (fun hd => .some hd.lines) .none

theorem forall₂_sites (hc : (crlf text h).LikeClass c c') :
    Forall₂ Site.Alike c.sites c'.sites := by
  refine .cons ⟨hc.header, rfl, .none⟩ ?_
  rw [forall₂_map_left_iff, forall₂_map_right_iff]
  exact (forall₂_members hc).imp fun _ _ hm => alike_site hm

theorem trailed?_eq (hsites : Forall₂ Site.Alike sites sites') (hb : K.LikeComment b b') :
    Site.trailed? sites b = Site.trailed? sites' b' := by
  have hprecedes (s s' : Site) (hs : s.Alike s') : s.precedes b = s'.precedes b' := by
    rw [Site.precedes, Site.precedes, hs.header, hs.hasBody, hb.firstLine, hb.ownLine]
  rw [Site.trailed?, Site.trailed?, ← getLast?_map, ← getLast?_map,
    zipIdx_filter_eq_of_forall₂ hsites hprecedes]

theorem headed?_eq (hsites : Forall₂ Site.Alike sites sites') (hb : K.LikeComment b b') :
    Site.headed? sites b = Site.headed? sites' b' := by
  refine findIdx?_eq_of_forall₂ hsites fun s s' hs => ?_
  rw [Site.follows, Site.follows, hs.header, hb.lastLine, hb.ownLine]

/-! ## Places -/

structure LikePlaced (K : Likeness) (p p' : Placed) : Prop where
  block : K.LikeComment p.block p'.block
  place : Option.Rel Place.Alike p.place p'.place

/-- A tag is on the first line that is not blank, and its words have no return at the end. -/
theorem rel_ofBlock? (hb : (crlf text h).LikeComment b b') :
    Option.Rel (fun t t' => t.kind = t'.kind ∧ t.target = t'.target ∧ Forall₂ Ended t.lines t'.lines)
      (DocTag.ofBlock? b) (DocTag.ofBlock? b') := by
  unfold DocTag.ofBlock?
  refine (DocText.forall₂_dropWhile_isBlank hb.lines).casesOn .none fun hfirst hrest => ?_
  simp only [hfirst.words_eq]
  split
  · rename_i tag target _ _
    cases DocTag.kindOf? tag with
    | none => exact .none
    | some kind => exact .some ⟨rfl, rfl, hrest⟩
  · exact .none

theorem member?_eq {t t' : DocTag} (hms : Forall₂ K.LikeMember ms ms') (hkind : t.kind = t'.kind)
    (htarget : t.target = t'.target) : t.member? ms = t'.member? ms' := by
  rw [DocTag.member?, DocTag.member?, hkind, htarget]
  refine congrArg₂ Option.or (findIdx?_eq_of_forall₂ hms fun m m' hm =>
    ?_) (findIdx?_eq_of_forall₂ hms fun m m' hm => ?_)
  · rw [hm.kind, hm.sourceName]
  · rw [hm.sourceName]

theorem likePlaced_byTag (hms : Forall₂ (crlf text h).LikeMember ms ms')
    (hb : (crlf text h).LikeComment b b') :
    (crlf text h).LikePlaced (byTag ms b).1 (byTag ms' b').1 := by
  unfold byTag
  refine (rel_ofBlock? hb).casesOn (fun ht => ?_) ⟨hb, .none⟩
  obtain ⟨hkind, htarget, hlines⟩ := ht
  simp only [member?_eq hms hkind htarget]
  split
  · exact ⟨hb, .some (.supplement _ hlines)⟩
  · exact ⟨hb, .some .free⟩

/-- The same sites get the blocks that trail them. -/
theorem forall₂_byTrailing (hsites : Forall₂ Site.Alike sites sites')
    (hps : Forall₂ K.LikePlaced ps ps') (hdocumented : documented = documented') :
    Forall₂ K.LikePlaced (byTrailing sites documented ps).1 (byTrailing sites' documented' ps').1 ∧
      (byTrailing sites documented ps).2.1 = (byTrailing sites' documented' ps').2.1 := by
  subst hdocumented
  induction hps generalizing documented with
  | nil => exact ⟨.nil, rfl⟩
  | @cons p p' ps ps' hp _ ih =>
    simp only [byTrailing, trailed?_eq hsites hp.block]
    refine hp.place.casesOn (fun _ => ⟨.cons hp ih.1, ih.2⟩) ?_
    cases Site.trailed? sites' p'.block with
    | none => exact ⟨.cons hp ih.1, ih.2⟩
    | some n =>
      simp only
      split_ifs
      · exact ⟨.cons hp ih.1, ih.2⟩
      · exact ⟨.cons ⟨hp.block, .some (.primary n)⟩ ih.1, ih.2⟩

/-- A block and its place in both. -/
def LikeBound (K : Likeness) (p p' : CommentBlock × Place) : Prop := K.LikeComment p.1 p'.1 ∧ p.2.Alike p'.2

theorem forall₂_byLeading (hsites : Forall₂ Site.Alike sites sites')
    (hps : Forall₂ K.LikePlaced ps ps') (hdocumented : documented = documented') :
    Forall₂ K.LikeBound (byLeading sites documented ps).1 (byLeading sites' documented' ps').1 := by
  subst hdocumented
  induction hps generalizing documented with
  | nil => exact .nil
  | @cons p p' ps ps' hp _ ih =>
    simp only [byLeading, headed?_eq hsites hp.block]
    refine hp.place.casesOn (fun hplace => .cons ⟨hp.block, hplace⟩ ih) ?_
    cases Site.headed? sites' p'.block with
    | none => exact .cons ⟨hp.block, .free⟩ ih
    | some n =>
      simp only
      split_ifs
      · exact .cons ⟨hp.block, .free⟩ ih
      · exact .cons ⟨hp.block, .primary n⟩ ih

/-! ## Bindings -/

structure LikeBinding (K : Likeness) (b b' : Binding) : Prop where
  sites : Forall₂ Site.Alike b.sites b'.sites
  places : Forall₂ K.LikeBound b.places b'.places

theorem likeBinding_ofClass (hc : (crlf text h).LikeClass c c') :
    (crlf text h).LikeBinding (ofClass c).2 (ofClass c').2 := by
  have hsites := forall₂_sites hc
  have htagged : Forall₂ (crlf text h).LikePlaced (tagged c) (tagged c') := by
    simp only [tagged, forall₂_map_left_iff, forall₂_map_right_iff]
    exact hc.comments.imp fun _ _ hb => likePlaced_byTag (forall₂_members hc) hb
  have hopened : opened c = opened c' :=
    zipIdx_filter_eq_of_forall₂ hsites fun _ _ hs => isSome_eq_of_rel hs.opening
  obtain ⟨htrailing, hdocumented⟩ := forall₂_byTrailing hsites htagged hopened
  exact ⟨hsites, forall₂_byLeading hsites htrailing hdocumented⟩

variable {n n' : Binding}

theorem LikeBinding.blockAt? (hb : K.LikeBinding n n') (site : Nat) :
    Option.Rel K.LikeComment (n.blockAt? site) (n'.blockAt? site) := by
  unfold Binding.blockAt?
  exact (rel_find? hb.places fun _ _ hp => hp.2.eq_primary_iff site).casesOn (fun hp => .some hp.1) .none

section

variable (hb : (crlf text h).LikeBinding n n')
include hb

theorem LikeBinding.primaryAt (site : Nat) :
    Option.Rel (Forall₂ Ended) (n.primaryAt site) (n'.primaryAt site) := by
  refine rel_or ?_ ?_
  · exact (rel_getElem? hb.sites site).casesOn (fun hs => hs.opening) .none
  · exact (hb.blockAt? site).casesOn (fun hc => .some hc.lines) .none

theorem LikeBinding.ofHeader : n.ofHeader.Alike n'.ofHeader :=
  ⟨hb.primaryAt 0, .nil⟩

theorem LikeBinding.ofMember (m : Nat) : (n.ofMember m).Alike (n'.ofMember m) := by
  refine ⟨hb.primaryAt (m + 1), rel_filterMap ?_ hb.places⟩
  rintro ⟨block, place⟩ ⟨block', place'⟩ ⟨-, hplace⟩
  cases hplace with
  | supplement k hlines =>
    simp only
    split_ifs
    · exact .some hlines
    · exact .none
  | _ => exact .none

end

theorem LikeBinding.free (hb : K.LikeBinding n n') : Forall₂ K.LikeComment n.free n'.free := by
  refine rel_map (fun _ _ hp => hp.1) (rel_filter (fun p p' hp => ?_) hb.places)
  exact Bool.eq_iff_iff.1 hp.2.eq_free_iff

end Likeness

end ClassdefDoc
