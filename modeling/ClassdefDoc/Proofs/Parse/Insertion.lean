import ClassdefDoc.Proofs.Parse.AttributeSlot
import ClassdefDoc.Proofs.Scan.Insert

/-!
# A line more in an attribute list

An `Insertion` is a line end, or a comment with its line end, that a second text has in an attribute list,
where it does not stand behind a value. The attributes are the same in both texts (`exists_attributes`).
-/

namespace ClassdefDoc

open Read List Text

theorem LineTokens.isLineLayout {ts : List Token} (h : LineTokens ts) :
    ∀ t ∈ ts, Read.isLineLayout t.kind := by
  cases h with
  | newline ht => simp [ht, Read.isLineLayout]
  | comment ht hu => simp [ht, hu, Read.isLineLayout]

/-- A line that the second text has before the token `first`, with the tokens `inserted`. -/
structure Insertion extends Fork where
  inserted : List Token
  first : Token
  rest : List Token
  first' : Token
  rest' : List Token
  tail_eq : tail = first :: rest
  tail_eq' : tail' = inserted ++ first' :: rest'
  lineTokens : LineTokens inserted
  before_le : ∀ u ∈ before, u.endOffset ≤ bytes lead
  same : Forall₂ toShift.SameToken (first :: rest) (first' :: rest')

namespace Insertion

variable {I : Insertion} {slot : Slot} {ts : List Token} {u : Token}
  {comments comments' : List LooseComment} {as : List Attribute} {q q' s : Reader}

theorem sameParts (I : Insertion) : SameParts I.text I.text' I.before := by
  intro t _ u hu
  obtain ⟨x, hx⟩ := I.lead_text
  obtain ⟨y, hy⟩ := I.lead_text'
  rw [← hx, ← hy]
  exact slice?_of_le (I.before_le u hu) x y

/-- Behind the line both texts are read side by side. -/
theorem readers (hu : u ∈ I.before) :
    I.Readers ⟨I.tail, some u, comments⟩ ⟨I.first' :: I.rest', some u, comments'⟩ where
  ahead := I.tail_eq ▸ I.same
  suffix := I.tokens_eq ▸ suffix_append _ _
  suffix' := by
    rw [I.tokens_eq', I.tail_eq']
    exact (suffix_append _ _).trans (suffix_append _ _)
  last := .some ⟨Fork.opens_of_mem hu, I.opens_self (I.before_le u hu)⟩

/-- The line in a text. -/
theorem exists_insertion {lead gap rest line : Text} {before after : List Token} {w : Token}
    (hscan : scan (lead ++ (gap ++ rest)) = .ok (before ++ w :: after))
    (hplace : LinePlace lead gap rest line before w) :
    ∃ I : Insertion, I.text = lead ++ (gap ++ rest) ∧ I.text' = lead ++ (line ++ (gap ++ rest)) ∧
      I.before = before ∧ I.tail = w :: after := by
  obtain ⟨inserted, w', after', e', hscan', hinserted, hkept, he, hlaid⟩ := exists_scan_inserted hscan hplace
  rw [append_assoc] at hscan'
  have hcut : lead ++ line ++ (gap ++ rest) = lead ++ (line ++ (gap ++ rest)) := append_assoc ..
  rw [← hcut] at hscan' ⊢
  have hle : bytes lead ≤ bytes (lead ++ line) := by simp [bytes_append]
  exact ⟨⟨.between prefix_rfl (prefix_append _ _) hle hscan hscan' (cons_ne_nil _ _)
    (append_ne_nil_of_right_ne_nil _ (cons_ne_nil _ _)) he hlaid, inserted, w, after, w', after', rfl, rfl,
    hinserted, hplace.ends_le, hkept.imp fun _ _ =>
    Shift.sameToken_of_kept prefix_rfl (prefix_append _ _) hle⟩, rfl, rfl, rfl, rfl⟩

/-- What is left of the attribute at the line is read side by side. -/
theorem exists_rest {K : Text → Read (Option Attribute)} {o : Option Attribute} (hK : slot.Rest K)
    (hu : u ∈ I.before) (hrun : K I.text ⟨I.tail, some u, comments⟩ = .ok (o, s)) :
    ∃ o' s', K I.text' ⟨I.tail', some u, comments'⟩ = .ok (o', s') ∧
      Option.Rel (fun a a' => a.unplaced = a'.unplaced) o o' ∧ I.Readers s s' := by
  rw [I.tail_eq', hK.lines I.lineTokens.isLineLayout]
  cases hK with
  | start => exact Shift.follows_attributeItem? (readers hu) hrun
  | name => exact (Shift.parallel _).itemRest (fun _ _ hv => by rw [hv]; rfl) (readers hu) hrun
  | assign => exact (Shift.parallel _).itemValue (fun _ _ hv => by rw [hv]; rfl) (readers hu) hrun

/-- The attribute list with the line. -/
theorem exists_attributes (h : slot.Within ts) (hts : ts ⊆ I.before) (hq : q.ahead = ts ++ I.tail)
    (hq' : q'.ahead = ts ++ I.tail') (hrun : attributes I.text q = .ok (as, s)) :
    ∃ as' s', attributes I.text' q' = .ok (as', s') ∧ as.map (·.unplaced) = as'.map (·.unplaced) ∧
      I.Readers s s' := by
  obtain ⟨hc, ht, hleads⟩ := h
  obtain ⟨hopen, hpre⟩ := cons_subset.1 (append_subset.1 hts).2
  obtain ⟨ahead, last, comments⟩ := q
  obtain ⟨ahead', last', comments'⟩ := q'
  obtain rfl : ahead = _ := hq.trans (append_assoc ..)
  obtain rfl : ahead' = _ := hq'.trans (append_assoc ..)
  rw [cons_append, attributes_append hc ht (append_ne_nil_of_right_ne_nil _ I.tail_ne)] at hrun
  rw [cons_append, attributes_append hc ht (append_ne_nil_of_right_ne_nil _ I.tail_ne')]
  obtain ⟨hcollected, hlength⟩ := of_collect hrun
  obtain @⟨before, behind, K, u, r, r', rfl, hK, hu, hread, hitem, hbefore, hitem'⟩ :=
    hleads.reached I.sameParts hpre hopen I.tail_ne I.tail_ne' hcollected comments'
  -- the attribute at the line is the first of these rounds, and behind it the readings go on side by side
  obtain ⟨behind', s', hread', hbehind, hs⟩ : ∃ behind' s',
      Collected (turn (attributeItem? I.text')) r' behind' s' ∧
      Forall₂ (fun a a' => a.unplaced = a'.unplaced) behind behind' ∧ I.Readers s s' := by
    refine collected_of_steps (R := fun q q' => I.Readers q q' ∨ q = r ∧ q' = r')
      (S := I.Readers) (fun {q q' o s} hr hround => ?_) hread (.inr ⟨rfl, rfl⟩)
    obtain ⟨o', s', hround', ho, hs⟩ : ∃ o' s', attributeItem? I.text' q' = .ok (o', s') ∧
        Option.Rel (fun a a' => a.unplaced = a'.unplaced) o o' ∧ I.Readers s s' := by
      rcases hr with hr | ⟨rfl, rfl⟩
      · exact Shift.follows_attributeItem? hr hround
      · rw [hitem] at hround
        rw [hitem']
        exact exists_rest hK hu hround
    refine ⟨o', s', hround', ho, ?_⟩
    split_ifs
    · exact .inl hs
    · exact hs
  refine ⟨before ++ behind', s', (hbefore.append_collected hread').collect_eq ?_, ?_, hs⟩
  · have hinserted : I.tail.length ≤ I.tail'.length := by
      rw [I.tail_eq, I.tail_eq', length_append, ← I.same.length_eq]
      omega
    simp only [length_append, ← hbehind.length_eq] at hlength ⊢
    omega
  · rw [map_append, map_append, map_eq_of_forall₂ hbehind fun _ _ h => h]

end Insertion

end ClassdefDoc
