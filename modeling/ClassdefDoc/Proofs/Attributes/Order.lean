import ClassdefDoc.Proofs.Attributes.Meaning

/-!
# The order of attributes

The attributes of a list may stand in any order: the region, the modifiers and the notes
on them stay the same, and so do the keys that conflict and their values
(`resolveBlock_perm`). What depends on the order is how a conflicting key is spelt,
namely as it is written first, and in which order conflicts and their values are listed.
-/

namespace ClassdefDoc

open List AttributeOwner Text

/-! ## Conflicts -/

/-- A key as it is written first and its different values in normal form. -/
structure Conflict where
  name : Text
  values : List Text
  deriving DecidableEq, Repr

namespace Conflict

/-- The conflict that a finding reports. -/
def ofFinding? : Finding → Option Conflict
  | .conflictingAttribute name _ values => some ⟨name, values⟩
  | _ => none

/-- The note on a conflict. -/
def note (kind : BlockKind) (c : Conflict) : Text :=
  join ["This ", (block kind).noun, " has conflicting values for attribute <tt>", c.name, "</tt>: ",
    joinWith ", " c.values]

/-- Two lists tell of conflicts of the same keys, each between the same values. -/
structure Same (cs cs' : List Conflict) : Prop where
  keys : (cs.map (lower ·.name)).Perm (cs'.map (lower ·.name))
  once : (cs.map (lower ·.name)).Nodup
  values : ∀ c ∈ cs, ∀ c' ∈ cs', lower c.name = lower c'.name → c.values.Perm c'.values

end Conflict

/-- The conflicts that some findings report. -/
def conflictsOf (findings : List Diagnostic) : List Conflict :=
  findings.filterMap (Conflict.ofFinding? ·.finding)

theorem conflictsOf_findings (owner : AttributeOwner) (keys : List AttributeKey) :
    conflictsOf (owner.findings keys) = (keys.filter (·.conflicts)).map fun k => ⟨k.name, k.distinct⟩ := by
  have hunknown (ks : List AttributeKey) :
      (ks.map fun k => (⟨.unknownAttribute k.name owner.text, k.position, none⟩ : Diagnostic)).filterMap
        (Conflict.ofFinding? ·.finding) = [] := by
    simp [filterMap_map, Conflict.ofFinding?]
  have hconflicting (ks : List AttributeKey) :
      (ks.map fun k =>
      (⟨.conflictingAttribute k.name owner.text k.distinct, k.position, none⟩ : Diagnostic)).filterMap
        (Conflict.ofFinding? ·.finding) = ks.map fun k => ⟨k.name, k.distinct⟩ := by
    rw [filterMap_map]
    exact congrFun filterMap_eq_map ks
  rw [conflictsOf, AttributeOwner.findings, filterMap_append, hunknown, hconflicting, nil_append]

theorem conflictNotes_eq (kind : BlockKind) (keys : List AttributeKey) : (block kind).conflictNotes keys =
    (conflictsOf ((block kind).findings keys)).map (Conflict.note kind) := by
  rw [conflictsOf_findings, map_map]
  rfl

/-! ## Keys of lists in another order -/

namespace AttributeKey

variable {as bs : List Attribute} {k k' : AttributeKey}

theorem distinct_perm (h : k.values.Perm k'.values) : k.distinct.Perm k'.distinct := by
  refine (perm_ext_iff_of_nodup k.nodup_distinct k'.nodup_distinct).2 fun t => ?_
  simp only [mem_distinct, h.mem_iff]

theorem conflicts_eq (h : k.values.Perm k'.values) : k.conflicts = k'.conflicts := by
  rw [conflicts, conflicts, (distinct_perm h).length_eq]

theorem values_perm (h : as.Perm bs) (hk : k ∈ ofList as) (hk' : k' ∈ ofList bs) (hkey : k.key = k'.key) :
    k.values.Perm k'.values := by
  rw [values_eq_valuesOf hk, values_eq_valuesOf hk', hkey]
  exact Attribute.valuesOf_perm h _

/-- A key that conflicts does so in any order. -/
theorem mem_conflicting_of_perm (h : as.Perm bs) {w : Text}
    (hw : w ∈ ((ofList as).filter (·.conflicts)).map key) :
    w ∈ ((ofList bs).filter (·.conflicts)).map key := by
  obtain ⟨k, hk, rfl⟩ := mem_map.1 hw
  obtain ⟨hk, hconflicts⟩ := mem_filter.1 hk
  obtain ⟨a, ha, hname⟩ := mem_keys_ofList.1 (mem_map_of_mem hk)
  obtain ⟨k', hk', hkey⟩ := exists_key (h.mem_iff.1 ha)
  have hsame : k.key = k'.key := hname.symm.trans hkey.symm
  rw [hsame]
  exact mem_map_of_mem (mem_filter.2 ⟨hk', conflicts_eq (values_perm h hk hk' hsame) ▸ hconflicts⟩)

theorem nodup_conflicting (as : List Attribute) : (((ofList as).filter (·.conflicts)).map key).Nodup :=
  (nodup_ofList as).sublist (filter_sublist.map key)

end AttributeKey

theorem conflicts_same {as bs : List Attribute} (h : as.Perm bs) (owner : AttributeOwner) :
    Conflict.Same (conflictsOf (owner.findings (AttributeKey.ofList as)))
    (conflictsOf (owner.findings (AttributeKey.ofList bs))) := by
  have hkeys (ks : List AttributeKey) :
      (ks.map fun k => (⟨k.name, k.distinct⟩ : Conflict)).map (lower ·.name) =
      ks.map AttributeKey.key := map_map
  rw [conflictsOf_findings, conflictsOf_findings]
  refine ⟨?_, ?_, fun c hc c' hc' hname => ?_⟩
  · rw [hkeys, hkeys]
    refine (perm_ext_iff_of_nodup (AttributeKey.nodup_conflicting as) (AttributeKey.nodup_conflicting bs)).2
      fun w => ?_
    exact ⟨AttributeKey.mem_conflicting_of_perm h, AttributeKey.mem_conflicting_of_perm h.symm⟩
  · rw [hkeys]
    exact AttributeKey.nodup_conflicting as
  · obtain ⟨k, hk, rfl⟩ := mem_map.1 hc
    obtain ⟨k', hk', rfl⟩ := mem_map.1 hc'
    exact AttributeKey.distinct_perm
      (AttributeKey.values_perm h (mem_filter.1 hk).1 (mem_filter.1 hk').1 hname)

/-! ## The meaning of lists in another order -/

namespace Attribute

variable {as bs : List Attribute}

theorem modifiersOf_perm (h : as.Perm bs) : modifiersOf as = modifiersOf bs :=
  filter_congr fun _ _ => h.any_eq

theorem accessOf_perm (kind : BlockKind) (h : as.Perm bs) : accessOf kind as = accessOf kind bs := by
  cases kind <;> simp only [accessOf, levelOf, level?_perm h]

end Attribute

/-- Two lists with the same attributes are both refused or mean the same,
but for the order and the spelling in which conflicts are listed. -/
theorem resolveBlock_perm (kind : BlockKind) {as bs : List Attribute} (h : as.Perm bs) :
    Conflict.Same (conflictsOf (resolveBlock kind as).1) (conflictsOf (resolveBlock kind bs).1) ∧
    ((∃ f f', (resolveBlock kind as).2 = .error f ∧ (resolveBlock kind bs).2 = .error f') ∨
      ∃ r r' notes, (resolveBlock kind as).2 = .ok r ∧ (resolveBlock kind bs).2 = .ok r' ∧
        r.region = r'.region ∧
        r.modifiers = r'.modifiers ∧
        r.notes = notes ++ (conflictsOf (resolveBlock kind as).1).map (Conflict.note kind) ∧
        r'.notes = notes ++ (conflictsOf (resolveBlock kind bs).1).map (Conflict.note kind)) := by
  refine ⟨conflicts_same h (.block kind), ?_⟩
  by_cases htold : ∀ a ∈ as, a.Told kind
  · have hr := resolveBlock_eq_ok_iff.2 ⟨htold, rfl⟩
    have hr' := resolveBlock_eq_ok_iff.2 ⟨fun a ha => htold a (h.mem_iff.2 ha), rfl⟩
    rw [Attribute.modifiersOf_perm h, Attribute.accessOf_perm kind h, conflictNotes_eq] at hr
    rw [conflictNotes_eq] at hr'
    exact .inr ⟨_, _, _, hr, hr', rfl, rfl, rfl, rfl⟩
  · have hrefused {cs : List Attribute} (hcs : ¬∀ a ∈ cs, a.Told kind) :
        ∃ f, (resolveBlock kind cs).2 = .error f := by
      cases hr : (resolveBlock kind cs).2 with
      | error f => exact ⟨f, rfl⟩
      | ok r => exact absurd (resolveBlock_eq_ok_iff.1 hr).1 hcs
    obtain ⟨f, hf⟩ := hrefused htold
    obtain ⟨f', hf'⟩ := hrefused fun hall => htold fun a ha => hall a (h.mem_iff.1 ha)
    exact .inl ⟨f, f', hf, hf'⟩

/-- A list with a conflict between a level, another one and the first again in capitals. -/
def threeLevels : List Attribute :=
  [⟨"Access", .word "private", .start⟩, ⟨"hidden", .flag true, .start⟩, ⟨"access", .word "public", .start⟩,
    ⟨"ACCESS", .word "PRIVATE", .start⟩]

theorem resolveBlock_threeLevels : threeLevels.Perm threeLevels.reverse ∧ ∃ r r' notes,
    (resolveBlock .methods threeLevels).2 = .ok r ∧
    (resolveBlock .methods threeLevels.reverse).2 = .ok r' ∧ r.region = r'.region ∧
      r.notes = notes ++ [Conflict.note .methods ⟨"Access", ["private", "public"]⟩] ∧
      r'.notes = notes ++ [Conflict.note .methods ⟨"ACCESS", ["private", "public"]⟩] := by
  have hperm : threeLevels.Perm threeLevels.reverse := threeLevels.reverse_perm.symm
  have hconflicts : conflictsOf (resolveBlock .methods threeLevels).1 = [⟨"Access", ["private", "public"]⟩] ∧
      conflictsOf (resolveBlock .methods threeLevels.reverse).1 = [⟨"ACCESS", ["private", "public"]⟩] := by
        decide +kernel
  refine ⟨hperm, ?_⟩
  rcases (resolveBlock_perm .methods hperm).2 with ⟨f, f', hf,
    -⟩ | ⟨r, r', notes, hr, hr', hregion, -, hnotes, hnotes'⟩
  · have hok : (resolveBlock .methods threeLevels).2.isOk := by decide +kernel
    rw [hf] at hok
    cases hok
  · rw [hconflicts.1] at hnotes
    rw [hconflicts.2] at hnotes'
    exact ⟨r, r', notes, hr, hr', hregion, hnotes, hnotes'⟩

end ClassdefDoc
