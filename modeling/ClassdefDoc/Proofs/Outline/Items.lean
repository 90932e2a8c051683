import ClassdefDoc.Proofs.Comment.Placement
import ClassdefDoc.Pseudocode.OfSource
import Mathlib.Data.List.Destutter

/-!
# The items of an outline

The pseudo-code of a source is the outline of its class, item by item
(`Options.pseudocode_eq_ok_iff`). The outline has one remark for each free comment, one entry for
each member and a marker wherever the region changes, each kind in the order of what it comes from.
-/

namespace ClassdefDoc

open List

variable {c : ClassDecl}

/-! ## From a source to its outline -/

theorem Options.pseudocode_eq (o : Options) (s : Source) : o.pseudocode s =
    (do
      let c ← (ClassDecl.parse o.limits s.text).mapError fun fault => s.locate fault.toError
      let outline ← (c.outline (o.layoutFor s.path).1 o.macros).mapError fun fault => s.locate fault.toError
      .ok ⟨outline.1.render (o.layoutFor s.path).1,
        ((o.layoutFor s.path).2 ++ outline.2).map (·.inFile s.path)⟩) := rfl

theorem Options.pseudocode_eq_ok_iff {o : Options} {s : Source} {p : Pseudocode} :
    o.pseudocode s = .ok p ↔ ∃ c outline found, ClassDecl.parse o.limits s.text = .ok c ∧
      c.outline (o.layoutFor s.path).1 o.macros = .ok (outline, found) ∧
      p = ⟨outline.render (o.layoutFor s.path).1,
        ((o.layoutFor s.path).2 ++ found).map (·.inFile s.path)⟩ := by
  unfold Options.pseudocode Source.parse
  cases ClassDecl.parse o.limits s.text with
  | error e => simp [bind, Except.bind, Except.mapError]
  | ok c =>
    cases houtline : c.outline (o.layoutFor s.path).1 o.macros with
    | error e => simp [bind, Except.bind, Except.mapError, houtline]
    | ok x =>
      obtain ⟨outline, found⟩ := x
      simp only [bind, Except.bind, Except.mapError, houtline,
        pure, Except.pure, Except.ok.injEq, exists_and_left, Prod.mk.injEq, existsAndEq, true_and, eq_comm]

/-- The head of a class, with its notes. -/
def ClassDecl.head (c : ClassDecl) (macros : MacroTable) (notes : List Text) : ClassHead :=
  ⟨c.name, c.superclasses, DocText.ofDocumentation macros (Binding.ofClass c).2.ofHeader, notes⟩

theorem ClassDecl.outline_eq_ok_iff {layout : Layout}
    {macros : MacroTable} {outline : Outline} {found : List Diagnostic} :
    c.outline layout macros = .ok (outline, found) ↔
      ∃ resolving notes resolved, c.resolve = .ok (resolving, notes, resolved) ∧
        outline = Outline.ofClass layout c.header.first (c.head macros notes)
          (c.entries macros (Binding.ofClass c).2 resolved) (Binding.ofClass c).2.free ∧
        found = resolving ++ (Binding.ofClass c).1 ++ c.macroFindings macros (Binding.ofClass c).2 ++
          (c.entries macros (Binding.ofClass c).2 resolved).flatMap (·.findings) := by
  unfold ClassDecl.outline
  cases c.resolve with
  | error e => simp [bind, Except.bind]
  | ok x =>
    obtain ⟨resolving, notes, resolved⟩ := x
    constructor
    · rintro ⟨⟩
      exact ⟨resolving, notes, resolved, rfl, rfl, rfl⟩
    · rintro ⟨_, _, _, ⟨⟩, rfl, rfl⟩
      rfl

theorem mapM_eq_ok_iff {ε α β : Type} {f : α → Except ε β} {as : List α} {bs : List β} :
    as.mapM f = .ok bs ↔ Forall₂ (fun a b => f a = .ok b) as bs := by
  induction as generalizing bs with
  | nil => cases bs <;> simp [pure, Except.pure]
  | cons a as ih =>
    rw [mapM_cons]
    cases ha : f a with
    | error e => cases bs <;> simp [bind, Except.bind, ha]
    | ok b =>
      cases has : as.mapM f with
      | error e => cases bs <;> simp [bind, Except.bind, ← ih, has, ha]
      | ok bs' => cases bs <;> simp [bind, Except.bind, pure, Except.pure, ← ih, has, ha]

/-- Each block of a class that is resolved has its meaning. -/
theorem ClassDecl.blocks_of_resolve {resolving : List Diagnostic} {notes : List Text}
    {resolved : List Resolved} (h : c.resolve = .ok (resolving, notes, resolved)) :
    Forall₂ (fun b r => (resolveBlock b.kind b.attributes).2 = .ok r) c.blocks resolved := by
  unfold ClassDecl.resolve at h
  simp only [bind, Except.bind, pure, Except.pure] at h
  split at h
  · cases h
  · split at h
    · cases h
    · rename_i hresolved
      cases h
      have := mapM_eq_ok_iff.1 hresolved
      rwa [forall₂_map_left_iff] at this

/-! ## Kinds of items -/

namespace OutlineItem

def remark? : OutlineItem → Option CommentBlock
  | remark b => some b
  | _ => none

def head? : OutlineItem → Option ClassHead
  | head h => some h
  | _ => none

def region? : OutlineItem → Option Region
  | region r => some r
  | _ => none

def declaration? : OutlineItem → Option Entry
  | entry e => some e
  | _ => none

end OutlineItem

namespace Outline

variable {α : Type} {f : OutlineItem → Option α} {line : Nat}
  {region : Option Region} {free : List CommentBlock} {entries : List Entry}
  {l : Layout} {head : ClassHead} {e : Entry}

theorem filterMap_map_remark (h : ∀ b, f (.remark b) = none) (bs : List CommentBlock) :
    (bs.map OutlineItem.remark).filterMap f = [] := by
  simp [filterMap_map, h]

@[simp] theorem filterMap_remark?_map (bs : List CommentBlock) :
    (bs.map OutlineItem.remark).filterMap (·.remark?) = bs := by
  simp [filterMap_map, OutlineItem.remark?]

theorem remarksAbove_append_dropAbove :
    (remarksAbove line free).filterMap (·.remark?) ++ dropAbove line free = free := by
  rw [remarksAbove, filterMap_remark?_map, dropAbove, takeWhile_append_dropWhile]

/-! ## Members -/

/-- The marker before a member, if its region differs from the one before. -/
def marker (region : Option Region) (here : Region) :
    Outline := if region = some here then [] else [.region here]

theorem members_cons :
    members region free (e :: entries) =
    remarksAbove e.member.header.first free ++ marker region e.attributes.region ++
      .entry e :: members (some e.attributes.region) (dropAbove e.member.header.first free) entries := rfl

theorem filterMap_marker (h : ∀ r, f (.region r) = none) (here : Region) :
    (marker region here).filterMap f = [] := by
  unfold marker
  split_ifs <;> simp [h]

theorem filterMap_remark?_members : (members region free entries).filterMap (·.remark?) = free := by
  induction entries generalizing region free with
  | nil => exact filterMap_remark?_map free
  | cons e entries ih =>
    rw [members_cons, filterMap_append, filterMap_append, filterMap_marker fun _ => rfl,
      filterMap_cons_none rfl, ih, append_nil, remarksAbove_append_dropAbove]

/-- A view that shows nothing of remarks and markers. -/
theorem filterMap_members (hremark : ∀ b, f (.remark b) = none) (hregion : ∀ r, f (.region r) = none) :
    (members region free entries).filterMap f = entries.filterMap fun e => f (.entry e) := by
  induction entries generalizing region free with
  | nil => exact filterMap_map_remark hremark free
  | cons e entries ih =>
    rw [members_cons, filterMap_append, filterMap_append, filterMap_marker hregion, remarksAbove,
      filterMap_map_remark hremark, filterMap_cons, filterMap_cons, ih]
    rfl

theorem filterMap_declaration?_members :
    (members region free entries).filterMap (·.declaration?) = entries := by
  rw [filterMap_members (fun _ => rfl) fun _ => rfl]
  exact filterMap_some

theorem filterMap_head?_members : (members region free entries).filterMap (·.head?) = [] := by
  rw [filterMap_members (fun _ => rfl) fun _ => rfl]
  exact filterMap_eq_nil_iff.2 fun _ _ => rfl

/-- The markers of the members behind one of region `r` are those of all, without that one. -/
theorem filterMap_region?_members_some (r : Region) :
    r :: (members (some r) free entries).filterMap (·.region?) =
      (entries.map (·.attributes.region)).destutter' (· ≠ ·) r := by
  induction entries generalizing r free with
  | nil => rw [members, filterMap_map_remark fun _ => rfl]; rfl
  | cons e entries ih =>
    rw [members_cons, filterMap_append, filterMap_append, remarksAbove, filterMap_map_remark fun _ => rfl,
      filterMap_cons_none rfl, map_cons, destutter'_cons, ← @ih (dropAbove e.member.header.first free)]
    by_cases hregion : r = e.attributes.region
    · subst hregion
      simp [marker, ih]
    · simp [marker, hregion, OutlineItem.region?]

theorem filterMap_region?_members :
    (members none free entries).filterMap (·.region?) = (entries.map (·.attributes.region)).destutter
    (· ≠ ·) := by
  cases entries with
  | nil => exact filterMap_map_remark (fun _ => rfl) free
  | cons e entries =>
    rw [members_cons, filterMap_append, filterMap_append, remarksAbove, filterMap_map_remark fun _ => rfl,
      filterMap_cons_none rfl, map_cons, destutter_cons', ← filterMap_region?_members_some]
    rfl

/-! ## The whole outline -/

/-- A view that shows nothing of banner, namespaces and the end of the class. -/
theorem filterMap_ofClass (hbanner : f .banner = none) (hopen : ∀ n, f (.openNamespace n) = none)
    (hclass : f .closeClass = none) (hclose : f .closeNamespace = none) :
    (ofClass l line head entries free).filterMap f =
    (remarksAbove line free).filterMap f ++ (f (.head head)).toList ++
      (members none (dropAbove line free) entries).filterMap f := by
  have hlead : (if l.banner then ([.banner] : Outline) else []).filterMap f = [] := by
    split_ifs <;> simp [hbanner]
  have hnames : (l.namespaces.map OutlineItem.openNamespace).filterMap f = [] := by
    simp [filterMap_map, hopen]
  have hends : (l.namespaces.map fun _ => OutlineItem.closeNamespace).filterMap f = [] := by
    simp [hclose]
  rw [ofClass]
  simp only [filterMap_append, hlead, hnames, nil_append, append_nil, filterMap_cons, hclass, hends]
  cases f (.head head) <;> simp

theorem filterMap_remark?_ofClass : (ofClass l line head entries free).filterMap (·.remark?) = free := by
  rw [filterMap_ofClass rfl (fun _ => rfl) rfl rfl, filterMap_remark?_members]
  simpa [OutlineItem.remark?] using remarksAbove_append_dropAbove

theorem filterMap_declaration?_ofClass :
    (ofClass l line head entries free).filterMap (·.declaration?) = entries := by
  rw [filterMap_ofClass rfl (fun _ => rfl) rfl rfl, filterMap_declaration?_members,
    remarksAbove, filterMap_map_remark fun _ => rfl]
  rfl

theorem filterMap_head?_ofClass : (ofClass l line head entries free).filterMap (·.head?) = [head] := by
  rw [filterMap_ofClass rfl (fun _ => rfl) rfl rfl, filterMap_head?_members, remarksAbove,
    filterMap_map_remark fun _ => rfl]
  rfl

theorem entry_mem_ofClass_iff : .entry e ∈ ofClass l line head entries free ↔ e ∈ entries := by
  have hmem : e ∈ (ofClass l line head entries free).filterMap (·.declaration?) ↔ e ∈ entries := by
    rw [filterMap_declaration?_ofClass]
  rw [← hmem, mem_filterMap]
  refine ⟨fun h => ⟨_, h, rfl⟩, ?_⟩
  rintro ⟨i, hi, he⟩
  cases i <;> cases he
  exact hi

/-! ## Outlines of the same form -/

section Forms

variable {R : OutlineItem → OutlineItem → Prop} {free' : List CommentBlock} {entries' : List Entry}

/-- Comments that start on the same line. -/
abbrev SameLine (R : OutlineItem → OutlineItem → Prop) (b b' : CommentBlock) : Prop :=
  b.firstLine = b'.firstLine ∧ R (.remark b) (.remark b')

/-- Comments that start on the same line and entries with the same place and
region go to the same places of an outline. -/
theorem forall₂_above (hfree : Forall₂ (SameLine R) free free') (line : Nat) :
    Forall₂ R (remarksAbove line free) (remarksAbove line free') ∧
      Forall₂ (SameLine R) (dropAbove line free) (dropAbove line free') := by
  induction hfree with
  | nil => exact ⟨.nil, .nil⟩
  | cons hb hrest ih =>
    simp only [remarksAbove, dropAbove, takeWhile_cons, dropWhile_cons, hb.1]
    split
    · exact ⟨.cons hb.2 ih.1, ih.2⟩
    · exact ⟨.nil, .cons hb hrest⟩

variable (hR : ∀ i, R i i) (hentries : Forall₂ (fun e e' => e.member.header = e'.member.header ∧
  e.attributes.region = e'.attributes.region ∧ R (.entry e) (.entry e')) entries entries')
include hR hentries

theorem forall₂_members (region : Option Region) (hfree : Forall₂ (SameLine R) free free') :
    Forall₂ R (members region free entries) (members region free' entries') := by
  induction hentries generalizing region free free' with
  | nil => exact rel_map (fun _ _ hb => hb.2) hfree
  | cons he _ ih =>
    obtain ⟨hheader, hregion, hentry⟩ := he
    obtain ⟨habove, hbelow⟩ := forall₂_above hfree _
    rw [members_cons, members_cons, ← hheader, ← hregion]
    exact rel_append (rel_append habove (forall₂_same.2 fun i _ => hR i)) (.cons hentry (ih _ hbelow))

theorem forall₂_ofClass {head' : ClassHead} (hhead : R (.head head) (.head head'))
    (hfree : Forall₂ (SameLine R) free free') :
    Forall₂ R (ofClass l line head entries free) (ofClass l line head' entries' free') := by
  have hsame (items : Outline) : Forall₂ R items items := forall₂_same.2 fun i _ => hR i
  obtain ⟨habove, hbelow⟩ := forall₂_above hfree line
  exact rel_append (rel_append (rel_append (rel_append (hsame _) habove) (hsame _))
    (.cons hhead (forall₂_members hR hentries none hbelow))) (hsame _)

end Forms

end Outline

end ClassdefDoc
