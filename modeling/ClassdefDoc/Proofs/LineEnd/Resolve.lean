import ClassdefDoc.Proofs.Attributes.Modifiers
import ClassdefDoc.Proofs.LineEnd.Place
import ClassdefDoc.Proofs.Parse.Twin
import ClassdefDoc.Pseudocode.OfSource

/-!
# Attributes with carriage returns

A value that runs over several lines has carriage returns inside, in its normal form as many as
line ends (`Likeness.normal_crlf`). Flags and access levels are single words, so the returns
change neither their meaning nor the fault that is found in them; the values that conflict are
the same ones, and only the notes on them quote the returns (`Likeness.LikeResolved`).
-/

namespace ClassdefDoc

open List
open AttributeKey (add ofList conflicts accessOf)

/-! ## Results of loops -/

namespace Agree

variable {α β γ δ : Type} {R : α → β → Prop} {S : γ → δ → Prop} {xs : List α} {ys : List β}

theorem mapM {f : α → Except Fault γ} {g : β → Except Fault δ} (h : Forall₂ R xs ys)
    (hf : ∀ x y, R x y → Agree S (f x) (g y)) : Agree (Forall₂ S) (xs.mapM f) (ys.mapM g) := by
  induction h with
  | nil => exact .ok .nil
  | cons hxy _ ih =>
    rw [mapM_cons, mapM_cons]
    exact (hf _ _ hxy).bind fun _ _ hab => ih.bind fun _ _ hrest => .ok (.cons hab hrest)

theorem filterMapM {f : α → Except Fault (Option γ)} {g : β → Except Fault (Option δ)} (h : Forall₂ R xs ys)
    (hf : ∀ x y, R x y → Agree (Option.Rel S) (f x) (g y)) :
    Agree (Forall₂ S) (xs.filterMapM f) (ys.filterMapM g) := by
  induction h with
  | nil => exact .ok .nil
  | cons hxy _ ih =>
    rw [filterMapM_cons, filterMapM_cons]
    refine (hf _ _ hxy).bind fun o o' ho => ?_
    cases ho with
    | none => exact ih
    | some hab => exact ih.bind fun _ _ hrest => .ok (.cons hab hrest)

theorem foldlM {f : γ → α → Except Fault γ} {g : δ → β → Except Fault δ} (h : Forall₂ R xs ys)
    (hf : ∀ a b x y, S a b → R x y → Agree S (f a x) (g b y)) {a : γ} {b : δ} (hab : S a b) :
    Agree S (xs.foldlM f a) (ys.foldlM g b) := by
  induction h generalizing a b with
  | nil => exact .ok hab
  | cons hxy _ ih =>
    rw [foldlM_cons, foldlM_cons]
    exact (hf _ _ _ _ hab hxy).bind fun _ _ hnext => ih hnext

end Agree

/-! ## Words and carriage returns -/

namespace Text

/-- A text on one line stays as it is, and no other text becomes it. -/
theorem crlf_eq_iff {t w : Text} (hw : '\n' ∉ w) : crlf t = w ↔ t = w := by
  constructor
  · intro h
    exact crlf_injective (h.trans (crlf_of_notMem hw).symm)
  · rintro rfl
    exact crlf_of_notMem hw

theorem toLower_eq_newline_iff {c : Char} : c.toLower = '\n' ↔ c = '\n' := by
  rw [← Char.toNat_inj, ← Char.toNat_inj, toNat_toLower, show '\n'.toNat = 10 from rfl]
  split_ifs <;> omega

theorem lower_crlf (t : Text) : lower (crlf t) = crlf (lower t) := by
  refine crlf_induction t rfl (fun t ih => congrArg ('\r' :: '\n' :: ·) ih) fun c t hc ih => ?_
  rw [lower, lower, map_cons, map_cons, crlf_cons_of_ne (mt toLower_eq_newline_iff.1 hc)]
  exact congrArg (c.toLower :: ·) ih

theorem newline_notMem_lower {w : Text} (h : '\n' ∉ w) : '\n' ∉ lower w := by
  intro hmem
  obtain ⟨c, hc, heq⟩ := mem_map.1 hmem
  rw [toLower_eq_newline_iff.1 heq] at hc
  exact h hc

/-- What separates the parts starts with no slash, so returns may stand at their ends. -/
theorem Sown.joinWith {sep : Text} (hsep : sep.head? ≠ some '/') (hsep' : sep ≠ []) {parts parts' : List Text}
    (h : Forall₂ Sown parts parts') : Sown (joinWith sep parts) (joinWith sep parts') := by
  induction h with
  | nil => exact .nil
  | @cons p p' rest rest' hp hrest ih =>
    cases hrest with
    | nil =>
      rw [Text.joinWith, Text.joinWith, intercalate_singleton, intercalate_singleton]
      exact hp
    | @cons q q' rest rest' hq hrest =>
      rw [Text.joinWith, Text.joinWith, intercalate_cons_cons,
        intercalate_cons_cons, append_assoc, append_assoc]
      refine hp.append (ih.behind sep) ?_
      rwa [head?_append_of_ne_nil _ hsep']

end Text

open Text (Sown)

namespace Likeness

variable {text : Text} {h : '\r' ∉ text} {v v' : AttributeValue} {as as' : List Attribute}
  {keys keys' : List AttributeKey} {k k' : AttributeKey} {K : Likeness}

/-! ## Values -/

theorem normal_crlf (hv : (crlf text h).LikeValue v v') : v'.normal = Text.crlf v.normal := by
  cases hv with
  | @flag b => cases b <;> rfl
  | word hw => exact (Text.crlf_of_notMem (Text.newline_notMem_lower hw)).symm
  | raw hp => exact hp.trim_eq

theorem truth?_crlf (hv : (crlf text h).LikeValue v v') : v'.truth? = v.truth? := by
  cases hv with
  | flag => rfl
  | word => rfl
  | @raw p p' hp =>
    have hword (w : Text) (hw : '\n' ∉ w) : Text.crlf (Text.lower (Text.trim p)) = w ↔
        Text.lower (Text.trim p) = w :=
      Text.crlf_eq_iff hw
    simp only [AttributeValue.truth?, hp.trim_eq, Text.lower_crlf, hword _ (by decide : '\n' ∉ "true".toList),
      hword _ (by decide : '\n' ∉ "1".toList), hword _ (by decide : '\n' ∉ "false".toList),
      hword _ (by decide : '\n' ∉ "0".toList)]

/-! ## Keys -/

/-- All occurrences of one key in two lists. -/
structure LikeKey (K : Likeness) (k k' : AttributeKey) : Prop where
  name : k.name = k'.name
  values : Forall₂ K.LikeValue k.values k'.values
  line : k.position.line = k'.position.line

theorem LikeKey.key (hk : K.LikeKey k k') : k.key = k'.key := congrArg Text.lower hk.name

theorem forall₂_add {a a' : Attribute} (ha : K.LikeAttribute a a') (hkeys : Forall₂ K.LikeKey keys keys') :
    Forall₂ K.LikeKey (add a keys) (add a' keys') := by
  induction hkeys with
  | nil => exact .cons ⟨ha.name, .cons ha.value .nil, K.line_eq_of_place ha.position⟩ .nil
  | cons hk hrest ih =>
    simp only [add, hk.key, ha.name]
    split_ifs
    · exact .cons ⟨hk.name, rel_append hk.values (.cons ha.value .nil), hk.line⟩ hrest
    · exact .cons hk ih

theorem forall₂_ofList (has : Forall₂ K.LikeAttribute as as') :
    Forall₂ K.LikeKey (ofList as) (ofList as') := by
  have hfold (keys keys' : List AttributeKey) (hkeys : Forall₂ K.LikeKey keys keys') :
      Forall₂ K.LikeKey (as.foldl (fun keys a => add a keys) keys)
        (as'.foldl (fun keys a => add a keys) keys') := by
    induction has generalizing keys keys' with
    | nil => exact hkeys
    | cons ha _ ih => exact ih _ _ (forall₂_add ha hkeys)
  exact hfold [] [] .nil

section

variable (hk : (crlf text h).LikeKey k k')
include hk

/-- Values that differ still differ with returns inside. -/
theorem distinct_crlf : k'.distinct = k.distinct.map Text.crlf := by
  have hfold (seen : List Text) :
      (k'.values.map (·.normal)).foldl (fun seen v => if seen.contains v then seen else seen ++ [v])
      (seen.map Text.crlf) =
        ((k.values.map (·.normal)).foldl (fun seen v =>
        if seen.contains v then seen else seen ++ [v]) seen).map
          Text.crlf := by
    have hvalues := hk.values
    generalize k.values = vs, k'.values = vs' at hvalues ⊢
    induction hvalues generalizing seen with
    | nil => rfl
    | @cons v v' vs vs' hv _ ih =>
      have hseen : (seen.map Text.crlf).contains v'.normal = seen.contains v.normal := by
        rw [normal_crlf hv, Bool.eq_iff_iff, contains_iff_mem, contains_iff_mem,
          mem_map_of_injective fun _ _ => Text.crlf_injective]
      rw [map_cons, map_cons, foldl_cons, foldl_cons, hseen]
      split_ifs
      · exact ih seen
      · rw [normal_crlf hv, ← ih]
        simp
  exact hfold []

theorem conflicts_crlf : k'.conflicts = k.conflicts := by
  rw [conflicts, conflicts, distinct_crlf hk, length_map]

theorem agree_flag : Agree Eq k.flag k'.flag := by
  refine Agree.foldlM hk.values ?_ rfl
  rintro b _ v v' rfl hv
  simp only [truth?_crlf hv]
  cases v.truth? with
  | none => exact .error ⟨rfl, hk.line⟩
  | some => exact .ok rfl

theorem agree_accessOf_key (hv : (crlf text h).LikeValue v v') :
    Agree Eq (k.accessOf v) (k'.accessOf v') := by
  cases hv with
  | flag => exact .error ⟨rfl, hk.line⟩
  | @word w =>
    simp only [accessOf]
    cases Access.ofWord? w with
    | none => exact .error ⟨rfl, hk.line⟩
    | some a => exact .ok rfl
  | @raw p p' hp =>
    have hmark : p'.contains '?' = p.contains '?' := by
      rw [← hp.bare_eq, Bool.eq_iff_iff, contains_iff_mem, contains_iff_mem, Text.bare, mem_filter]
      simp
    simp only [accessOf, hmark]
    split_ifs
    · exact .error ⟨rfl, hk.line⟩
    · exact .error ⟨rfl, hk.line⟩

theorem agree_access : Agree Eq k.access k'.access := by
  refine Agree.foldlM hk.values ?_ rfl
  rintro level _ v v' rfl hv
  exact (agree_accessOf_key hk hv).map fun _ _ => congrArg _

end

/-! ## Lists -/

theorem forall₂_conflictNotes (owner : AttributeOwner) (hkeys : Forall₂ (crlf text h).LikeKey keys keys') :
    Forall₂ Sown (owner.conflictNotes keys) (owner.conflictNotes keys') := by
  induction hkeys with
  | nil => exact .nil
  | @cons k k' keys keys' hk _ ih =>
    simp only [AttributeOwner.conflictNotes, filter_cons, conflicts_crlf hk] at ih ⊢
    split_ifs
    · refine .cons ?_ ih
      have hvalues : Sown (Text.joinWith ", " k.distinct) (Text.joinWith ", " k'.distinct) := by
        rw [distinct_crlf hk]
        exact .joinWith (by decide) (by decide) (forall₂_map_right_iff.2 (forall₂_same.2 fun d _ => .crlf d))
      simp only [Text.join, flatten_cons, flatten_nil, append_nil, hk.name]
      exact ((((hvalues.behind _).behind _).behind _).behind _).behind _
    · exact ih

section

variable (hkeys : Forall₂ (crlf text h).LikeKey keys keys')
include hkeys

theorem agree_modifiersOf : Agree Eq (Resolved.modifiersOf keys) (Resolved.modifiersOf keys') := by
  refine Agree.bind (A := Forall₂ Eq) (Agree.filterMapM hkeys fun k k' hk => ?_) ?_
  · rw [hk.key]
    cases Modifier.ofWord? k'.key with
    | none => exact .ok .none
    | some m =>
      refine (agree_flag hk).bind_eq fun b => ?_
      cases b with
      | false => exact .ok .none
      | true => exact .ok (.some rfl)
  · intro set set' hset
    rw [forall₂_eq_eq_eq] at hset
    rw [hset]
    exact .ok rfl

theorem agree_accessOf? (key : Text) :
    Agree Eq (Resolved.accessOf? keys key) (Resolved.accessOf? keys' key) := by
  unfold Resolved.accessOf?
  exact (rel_find? hkeys fun _ _ hk => by rw [hk.key]).casesOn (fun hk =>
    (agree_access hk).map fun _ _ => congrArg some) (.ok rfl)

end

theorem agree_accessOf (kind : BlockKind) (hkeys : Forall₂ (crlf text h).LikeKey keys keys') :
    Agree Eq (Resolved.accessOf kind keys) (Resolved.accessOf kind keys') := by
  have haccess := agree_accessOf? hkeys
  cases kind with
  | properties =>
    exact (haccess _).bind_eq fun _ => (haccess _).bind_eq fun _ => (haccess _).bind_eq fun _ => .ok rfl
  | methods => exact (haccess _).bind_eq fun _ => .ok rfl
  | events => exact (haccess _).bind_eq fun _ => (haccess _).bind_eq fun _ => .ok rfl

/-- The same region and the same modifiers, with notes that differ by returns. -/
structure LikeResolved (r r' : Resolved) : Prop where
  region : r'.region = r.region
  modifiers : r'.modifiers = r.modifiers
  notes : Forall₂ Sown r.notes r'.notes

theorem agree_resolveBlock (kind : BlockKind) (has : Forall₂ (crlf text h).LikeAttribute as as') :
    Agree LikeResolved (resolveBlock kind as).2 (resolveBlock kind as').2 := by
  have hkeys := forall₂_ofList has
  refine (agree_modifiersOf hkeys).bind_eq fun modifiers => (agree_accessOf kind hkeys).bind_eq ?_
  rintro ⟨access, notes⟩
  exact .ok ⟨rfl, rfl, rel_append (forall₂_same.2 fun _ _ => .refl _) (forall₂_conflictNotes _ hkeys)⟩

theorem agree_resolveClass (has : Forall₂ (crlf text h).LikeAttribute as as') :
    Agree (Forall₂ Sown) (resolveClass as).2 (resolveClass as').2 := by
  have hkeys := forall₂_ofList has
  refine Agree.bind (A := Forall₂ Sown) (Agree.filterMapM (R := Eq) (forall₂_same.2 fun _ _ => rfl) ?_) ?_
  · rintro ⟨key, note⟩ _ rfl
    have hfind := rel_find? (p := (·.key == key)) (q := (·.key == key)) hkeys fun _ _ hk => by rw [hk.key]
    dsimp only
    refine hfind.casesOn (fun hk => ?_) (.ok .none)
    refine (agree_flag hk).bind_eq fun b => ?_
    cases b with
    | false => exact .ok .none
    | true => exact .ok (.some (.refl _))
  · exact fun notes notes' hnotes => .ok (rel_append hnotes (forall₂_conflictNotes _ hkeys))

/-- The notes on a class and the meaning of its blocks. -/
theorem agree_resolve {c c' : ClassDecl} (hc : (crlf text h).LikeClass c c') :
    Agree (fun r r' => Forall₂ Sown r.2.1 r'.2.1 ∧
      Forall₂ LikeResolved r.2.2 r'.2.2) c.resolve c'.resolve := by
  have hblocks : Forall₂ (fun b b' => Agree LikeResolved b.2 b'.2)
      (c.blocks.map fun b => resolveBlock b.kind b.attributes) (c'.blocks.map fun b =>
        resolveBlock b.kind b.attributes) := by
    rw [forall₂_map_left_iff, forall₂_map_right_iff]
    refine hc.blocks.imp fun b b' hb => ?_
    rw [hb.kind]
    exact agree_resolveBlock _ hb.attributes
  exact (agree_resolveClass hc.attributes).bind fun _ _ hnotes =>
    (Agree.mapM hblocks fun _ _ hb => hb).bind fun _ _ hresolved => .ok ⟨hnotes, hresolved⟩

end Likeness

end ClassdefDoc
