import ClassdefDoc.Proofs.Attributes.Unknown
import Mathlib.Data.List.MinMax

/-!
# What an attribute list means

The meaning of a block's attribute list is told from its attributes without grouping them: a
list is refused if an access level or a modifier has a value that stands for none
(`Attribute.Told`), and otherwise each modifier is set by any true value and each access level
is the strictest one given (`resolveBlock_eq_ok_iff`). For properties, `resolveBlock_properties`
says how the levels of `SetAccess`, `GetAccess` and `Access` give the region and the note on it.
-/

namespace ClassdefDoc

open List Text
open Access (rank ofWord?)

variable {as bs : List Attribute}

/-! ## The values of a key -/

theorem Attribute.valuesOf_perm (h : as.Perm bs) (name : Text) : (valuesOf as name).Perm (valuesOf bs name) :=
  (h.filter _).map _

namespace AttributeKey

variable {attributes : List Attribute} {k : AttributeKey}

theorem values_ne_nil (hk : k ∈ ofList attributes) : k.values ≠ [] := by
  obtain ⟨a, ha, hname⟩ := mem_keys_ofList.1 (mem_map_of_mem hk)
  exact ne_nil_of_mem ((mem_values_iff hk).2 ⟨a, ha, hname, rfl⟩)

end AttributeKey

/-! ## Access levels -/

theorem Access.rank_injective : Function.Injective rank := by
  intro a b
  cases a <;> cases b <;> decide

theorem Access.rank_strictest (a b : Access) : (a.strictest b).rank = max a.rank b.rank := by
  cases a <;> cases b <;> decide

/-- The access level that a value stands for: that of a word by itself. -/
def AttributeValue.level? : AttributeValue → Option Access
  | word w => ofWord? w
  | _ => none

namespace AttributeKey

variable {k : AttributeKey} {a : Access} {v : AttributeValue}

theorem accessOf_eq_ok_iff : k.accessOf v = .ok a ↔ v.level? = some a := by
  cases v with
  | flag b => simp [accessOf, AttributeValue.level?]
  | word w =>
    rw [accessOf, AttributeValue.level?]
    cases ofWord? w <;> simp
  | raw t =>
    simp only [accessOf, AttributeValue.level?]
    split_ifs <;> simp

/-- The strictest level of a start and of some more. -/
theorem argmax_strictest (a b : Access) (levels : List Access) :
    (a :: b :: levels).argmax rank = (a.strictest b :: levels).argmax rank := by
  rw [argmax_cons, argmax_cons, argmax_cons]
  cases levels.argmax rank with
  | none => cases a <;> cases b <;> decide
  | some c => cases a <;> cases b <;> cases c <;> decide

theorem argmax_public {levels : List Access} (h : levels ≠ []) :
    (Access.public :: levels).argmax rank = levels.argmax rank := by
  rw [argmax_cons]
  cases hmax : levels.argmax rank with
  | none => exact absurd (argmax_eq_none.1 hmax) h
  | some c => cases c <;> decide

/-- A key has a level if all of its values have, and it is the strictest one. -/
theorem access_eq_ok_iff (hne : k.values ≠ []) : k.access = .ok a ↔
    (∀ v ∈ k.values, v.level? ≠ none) ∧ (k.values.filterMap (·.level?)).argmax rank = some a := by
  have hfold : ∀ (vs : List AttributeValue) (start : Access),
      vs.foldlM (fun level v => (k.accessOf v).map level.strictest) start = .ok a ↔
        (∀ v ∈ vs, v.level? ≠ none) ∧ (start :: vs.filterMap (·.level?)).argmax rank = some a := by
    intro vs
    induction vs with
    | nil => simp [pure, Except.pure]
    | cons v vs ih =>
      intro start
      rw [foldlM_cons, forall_mem_cons]
      cases hv : k.accessOf v with
      | error f =>
        have hnone : v.level? = none := by
          cases hlevel : v.level? with
          | none => rfl
          | some b =>
            rw [accessOf_eq_ok_iff.2 hlevel] at hv
            cases hv
        refine iff_of_false (by rintro ⟨⟩) fun h => h.1.1 hnone
      | ok b =>
        have hlevel := accessOf_eq_ok_iff.1 hv
        show vs.foldlM (fun level v => (k.accessOf v).map level.strictest) (start.strictest b) = .ok a ↔ _
        rw [ih, filterMap_cons_some hlevel, argmax_strictest]
        simp [hlevel]
  rw [access, hfold]
  refine and_congr_right fun hall => ?_
  rw [argmax_public]
  obtain ⟨v, hv⟩ := exists_mem_of_ne_nil _ hne
  obtain ⟨b, hb⟩ := Option.ne_none_iff_exists'.1 (hall v hv)
  exact ne_nil_of_mem (mem_filterMap.2 ⟨v, hv, hb⟩)

end AttributeKey

namespace Attribute

/-- The strictest of the access levels that a list gives under `name`. -/
def level? (attributes : List Attribute) (name : Text) : Option Access :=
  ((valuesOf attributes name).filterMap (·.level?)).argmax rank

theorem level?_perm (h : as.Perm bs) (name : Text) : level? as name = level? bs name := by
  have hlevels := (valuesOf_perm h name).filterMap (·.level?)
  unfold level?
  cases hmax : ((valuesOf bs name).filterMap (·.level?)).argmax rank with
  | none =>
    rw [argmax_eq_none] at hmax ⊢
    exact (hmax ▸ hlevels).eq_nil
  | some b =>
    cases hmax' : ((valuesOf as name).filterMap (·.level?)).argmax rank with
    | none =>
      rw [argmax_eq_none.1 hmax'] at hlevels
      rw [hlevels.nil_eq.symm] at hmax
      cases hmax
    | some a =>
      refine congrArg some (Access.rank_injective (Nat.le_antisymm ?_ ?_))
      · exact le_of_mem_argmax (hlevels.mem_iff.1 (argmax_mem hmax')) hmax
      · exact le_of_mem_argmax (hlevels.mem_iff.2 (argmax_mem hmax)) hmax'

end Attribute

theorem Resolved.accessOf?_eq_ok_iff (attributes : List Attribute) (name : Text) {o : Option Access} :
    accessOf? (AttributeKey.ofList attributes) (lower name) = .ok o ↔
      (∀ a ∈ attributes, sameWord a.name name → a.value.level? ≠ none) ∧
      o = Attribute.level? attributes name := by
  have htold : (∀ a ∈ attributes, sameWord a.name name → a.value.level? ≠ none) ↔
      ∀ v ∈ Attribute.valuesOf attributes name, v.level? ≠ none := by
    rw [Attribute.valuesOf, forall_mem_map]
    simp
  have hvalues := AttributeKey.valuesAt_ofList attributes name
  unfold AttributeKey.valuesAt at hvalues
  rw [htold, eq_comm (a := o)]
  unfold accessOf? Attribute.level?
  rw [← hvalues]
  cases hfind : (AttributeKey.ofList attributes).find? (·.key == lower name) with
  | none => simp
  | some k =>
    have hk := mem_of_find?_eq_some hfind
    have haccess (a : Access) := AttributeKey.access_eq_ok_iff (a := a) (AttributeKey.values_ne_nil hk)
    simp only [Option.map_some, Option.getD_some]
    cases o with
    | none =>
      refine iff_of_false (fun h => ?_) fun h => ?_
      · cases hka : k.access with
        | ok a | error f => simp [hka, Except.map] at h
      · obtain ⟨hall, hnone⟩ := h
        obtain ⟨v, hv⟩ := exists_mem_of_ne_nil _ (AttributeKey.values_ne_nil hk)
        obtain ⟨b, hb⟩ := Option.ne_none_iff_exists'.1 (hall v hv)
        exact ne_nil_of_mem (mem_filterMap.2 ⟨v, hv, hb⟩) (argmax_eq_none.1 hnone)
    | some a =>
      rw [← haccess a]
      cases hka : k.access <;> simp [Except.map]

/-! ## Lists that are not refused -/

namespace Attribute

/-- The names under which a kind of block takes an access level. -/
def accessNames : BlockKind → List Text
  | .properties => ["Access", "SetAccess", "GetAccess"]
  | .methods => ["Access"]
  | .events => ["ListenAccess", "NotifyAccess"]

/-- The value of an attribute stands for an access level or a truth value, where its name asks for one. -/
structure Told (kind : BlockKind) (a : Attribute) : Prop where
  access : ∀ name ∈ accessNames kind, sameWord a.name name → a.value.level? ≠ none
  modifier : ∀ m : Modifier, sameWord m.word a.name → a.value.truth? ≠ none

/-- The modifiers that a list sets. -/
def modifiersOf (attributes : List Attribute) : List Modifier :=
  Modifier.all.filter fun m => attributes.any fun a => sameWord m.word a.name && a.value.truth? == some true

/-- The access level under `name`, or else that under `Access`, or else public. -/
def levelOf (attributes : List Attribute) (name : Text) : Access :=
  ((level? attributes name).or (level? attributes "Access")).getD .public

/-- The access level of a block and the note on it. -/
def accessOf (kind : BlockKind) (attributes : List Attribute) : Access × List Text :=
  match kind with
  | .properties =>
    let set := levelOf attributes "SetAccess"
    let get := levelOf attributes "GetAccess"
    (set.strictest get, Resolved.accessNote kind "SetAccess" "GetAccess" set get)
  | .methods => ((level? attributes "Access").getD .public, [])
  | .events =>
    let listen := (level? attributes "ListenAccess").getD .public
    let notify := (level? attributes "NotifyAccess").getD .public
    (listen, Resolved.accessNote kind "ListenAccess" "NotifyAccess" listen notify)

end Attribute

namespace Resolved

variable {kind : BlockKind} {attributes : List Attribute} {ms : List Modifier}

/-- The modifiers of a list can be told if every value of a modifier can. -/
theorem exists_modifiersOf : (∃ ms, modifiersOf (AttributeKey.ofList attributes) = .ok ms) ↔
    ∀ a ∈ attributes, ∀ m : Modifier, sameWord m.word a.name → a.value.truth? ≠ none := by
  rw [modifiersOf_eq]
  constructor
  · rintro ⟨ms, h⟩ a ha m hm
    obtain ⟨set, hset, -⟩ := of_bind_eq_ok h
    obtain ⟨k, hk, hkey⟩ := AttributeKey.exists_key ha
    obtain ⟨o, ho⟩ := (of_filterMapM_eq_ok hset).1 k hk
    have hword : Modifier.ofWord? k.key = some m := by
      rw [hkey]
      exact Modifier.ofWord?_lower.2 hm
    rw [modifierOf, hword] at ho
    obtain ⟨b, hflag, -⟩ := of_bind_eq_ok ho
    exact (AttributeKey.flag_eq_ok hflag).1 _ ((AttributeKey.mem_values_iff hk).2 ⟨a, ha, hkey.symm, rfl⟩)
  · intro h
    cases hset : (AttributeKey.ofList attributes).filterMapM modifierOf with
    | ok set => exact ⟨_, rfl⟩
    | error f =>
      -- the key at which it fails has a value that is neither true nor false
      obtain ⟨before, k, after, hsplit, hk, -⟩ := filterMapM_eq_error_iff.1 hset
      have hmem : k ∈ AttributeKey.ofList attributes := by rw [hsplit]; simp
      unfold modifierOf at hk
      split at hk
      · cases hk
      · rename_i m hm
        rcases of_bind_eq_error hk with hflag | ⟨b, -, hb⟩
        · obtain ⟨v, hv, hnone, -⟩ := AttributeKey.flag_eq_error hflag
          obtain ⟨a, ha, hname, rfl⟩ := (AttributeKey.mem_values_iff hmem).1 hv
          exact absurd hnone (h a ha m (Modifier.ofWord?_lower.1 (by rwa [hname])))
        · cases hb

theorem modifiersOf_ofList (h : modifiersOf (AttributeKey.ofList attributes) = .ok ms) :
    ms = Attribute.modifiersOf attributes := by
  obtain ⟨set, hset, hms⟩ := of_bind_eq_ok h
  obtain rfl := Except.ok.inj hms
  refine filter_congr fun m _ => Bool.eq_iff_iff.2 ?_
  rw [contains_iff_mem, ← Modifier.mem_setOf_iff, mem_modifiersOf_ofList h]
  simp

theorem accessOf_eq_ok_iff {x : Access × List Text} : accessOf kind (AttributeKey.ofList attributes) = .ok x ↔
    (∀ a ∈ attributes, ∀ name ∈ Attribute.accessNames kind, sameWord a.name name → a.value.level? ≠ none) ∧
      x = Attribute.accessOf kind attributes := by
  have hgiven (hall : ∀ name ∈ Attribute.accessNames kind, ∃ o,
      accessOf? (AttributeKey.ofList attributes) (lower name) = .ok o) :
      accessOf kind (AttributeKey.ofList attributes) = .ok (Attribute.accessOf kind attributes) := by
    have hfound (name : Text) (hname : name ∈ Attribute.accessNames kind) :
        accessOf? (AttributeKey.ofList attributes) (lower name) = .ok (Attribute.level? attributes name) := by
      obtain ⟨o, ho⟩ := hall name hname
      rw [ho, ((accessOf?_eq_ok_iff attributes name).1 ho).2]
    cases kind with
    | properties =>
      have hboth : accessOf? _ "access" = _ := hfound "Access" (by simp [Attribute.accessNames])
      have hset : accessOf? _ "setaccess" = _ := hfound "SetAccess" (by simp [Attribute.accessNames])
      have hget : accessOf? _ "getaccess" = _ := hfound "GetAccess" (by simp [Attribute.accessNames])
      rw [accessOf, hboth, hset, hget]
      rfl
    | methods =>
      have hboth : accessOf? _ "access" = _ := hfound "Access" (by simp [Attribute.accessNames])
      rw [accessOf, hboth]
      rfl
    | events =>
      have hlisten : accessOf? _ "listenaccess" = _ := hfound "ListenAccess" (by simp [Attribute.accessNames])
      have hnotify : accessOf? _ "notifyaccess" = _ := hfound "NotifyAccess" (by simp [Attribute.accessNames])
      rw [accessOf, hlisten, hnotify]
      rfl
  constructor
  · intro h
    have hall : ∀ name ∈ Attribute.accessNames kind, ∃ o,
        accessOf? (AttributeKey.ofList attributes) (lower name) = .ok o := by
      cases kind with
      | properties =>
        obtain ⟨both, hboth, h⟩ := of_bind_eq_ok h
        obtain ⟨set, hset, h⟩ := of_bind_eq_ok h
        obtain ⟨get, hget, h⟩ := of_bind_eq_ok h
        exact forall_mem_cons.2 ⟨⟨both, hboth⟩,
          forall_mem_cons.2 ⟨⟨set, hset⟩, forall_mem_singleton.2 ⟨get, hget⟩⟩⟩
      | methods =>
        obtain ⟨both, hboth, h⟩ := of_bind_eq_ok h
        exact forall_mem_singleton.2 ⟨both, hboth⟩
      | events =>
        obtain ⟨listen, hlisten, h⟩ := of_bind_eq_ok h
        obtain ⟨notify, hnotify, h⟩ := of_bind_eq_ok h
        exact forall_mem_cons.2 ⟨⟨listen, hlisten⟩, forall_mem_singleton.2 ⟨notify, hnotify⟩⟩
    refine ⟨fun a ha name hname => ?_, Except.ok.inj (h.symm.trans (hgiven hall))⟩
    obtain ⟨o, ho⟩ := hall name hname
    exact ((accessOf?_eq_ok_iff attributes name).1 ho).1 a ha
  · rintro ⟨hall, rfl⟩
    exact hgiven fun name hname => ⟨_,
      (accessOf?_eq_ok_iff attributes name).2 ⟨fun a ha => hall a ha name hname, rfl⟩⟩

end Resolved

/-- A list is refused if a value cannot be told, and otherwise its meaning
does not depend on how its attributes are grouped. -/
theorem resolveBlock_eq_ok_iff {kind : BlockKind} {attributes : List Attribute} {r : Resolved} :
    (resolveBlock kind attributes).2 = .ok r ↔ (∀ a ∈ attributes, a.Told kind) ∧ r = {
      region :=
  ⟨(Attribute.accessOf kind attributes).1, (Attribute.modifiersOf attributes).filter (·.splitsRegion)⟩
      modifiers := Attribute.modifiersOf attributes
      notes := ((Resolved.notedModifiers kind).filter ((Attribute.modifiersOf attributes).contains ·)).map
          (Resolved.modifierNote kind) ++
        (Attribute.accessOf kind attributes).2 ++
        (AttributeOwner.block kind).conflictNotes (AttributeKey.ofList attributes) } := by
  constructor
  · intro h
    obtain ⟨ms, hms, h⟩ := of_bind_eq_ok h
    obtain ⟨x, hx, h⟩ := of_bind_eq_ok h
    obtain rfl := Resolved.modifiersOf_ofList hms
    obtain ⟨haccess, rfl⟩ := Resolved.accessOf_eq_ok_iff.1 hx
    exact ⟨fun a ha => ⟨haccess a ha, Resolved.exists_modifiersOf.1 ⟨_, hms⟩ a ha⟩, (Except.ok.inj h).symm⟩
  · rintro ⟨htold, rfl⟩
    obtain ⟨ms, hms⟩ := Resolved.exists_modifiersOf.2 fun a ha => (htold a ha).modifier
    have hx := Resolved.accessOf_eq_ok_iff.2 ⟨fun a ha => (htold a ha).access, rfl⟩
    obtain rfl := Resolved.modifiersOf_ofList hms
    simp only [resolveBlock, Resolved.ofKeys, hms, hx]
    rfl

/-! ## Access to properties -/

namespace AttributeValue

variable {v : AttributeValue}

/-- The value is one word, the name of an access level in any case. -/
def NamesAccess (v : AttributeValue) : Prop :=
  ∃ w, v = .word w ∧ lower w ∈ ["public".toList, "protected".toList, "private".toList, "immutable".toList]

/-- The value is a flag or a text for true or false, with or without blanks around it. -/
def NamesTruth : AttributeValue → Prop
  | flag _ => True
  | word t | raw t => lower (trim t) ∈ ["true".toList, "false".toList, "1".toList, "0".toList]

theorem level?_ne_none_iff : v.level? ≠ none ↔ v.NamesAccess := by
  cases v with
  | flag b | raw t => simp [level?, NamesAccess]
  | word w =>
    have hmem : (word w).NamesAccess ↔ lower w = "public".toList ∨ lower w = "protected".toList ∨
        lower w = "private".toList ∨ lower w = "immutable".toList := by
      simp only [NamesAccess, word.injEq, exists_eq_left', mem_cons, not_mem_nil, or_false]
    rw [hmem, level?, ofWord?]
    split_ifs with hpublic hprotected hprivate
    · exact iff_of_true (by rintro ⟨⟩) (.inl hpublic)
    · exact iff_of_true (by rintro ⟨⟩) (.inr (.inl hprotected))
    · rw [Bool.or_eq_true, decide_eq_true_iff, decide_eq_true_iff] at hprivate
      exact iff_of_true (by rintro ⟨⟩) (.inr (.inr hprivate))
    · rw [Bool.or_eq_true, decide_eq_true_iff, decide_eq_true_iff] at hprivate
      exact iff_of_false (fun h => h rfl) fun h => h.elim hpublic fun h => h.elim hprotected hprivate

theorem truth?_ne_none_iff : v.truth? ≠ none ↔ v.NamesTruth := by
  have htext (t : Text) : (word t).truth? ≠ none ↔ (word t).NamesTruth := by
    have hmem : (word t).NamesTruth ↔ (lower (trim t) = "true".toList ∨ lower (trim t) = "1".toList) ∨
        (lower (trim t) = "false".toList ∨ lower (trim t) = "0".toList) := by
      simp only [NamesTruth, mem_cons, not_mem_nil, or_false]
      rw [or_or_or_comm, or_assoc]
    rw [hmem, truth?]
    simp only [Bool.or_eq_true, decide_eq_true_iff]
    split_ifs with htrue hfalse
    · exact iff_of_true (by rintro ⟨⟩) (.inl htrue)
    · exact iff_of_true (by rintro ⟨⟩) (.inr hfalse)
    · exact iff_of_false (fun h => h rfl) fun h => h.elim htrue hfalse
  cases v with
  | flag b => simp [truth?, NamesTruth]
  | word t => exact htext t
  | raw t => exact htext t

end AttributeValue

/-- Whether a note says that the access to a property is not unique. -/
def notesAccess (note : Text) : Bool :=
  "This property has non-unique access specifier: ".toList.isPrefixOf note

theorem filter_notesAccess_modifierNotes (ms : List Modifier) :
    (ms.map (Resolved.modifierNote .properties)).filter notesAccess = [] := by
  refine filter_eq_nil_iff.2 fun note hnote => ?_
  obtain ⟨m, -, rfl⟩ := mem_map.1 hnote
  cases m <;> decide

theorem filter_notesAccess_conflictNotes (keys : List AttributeKey) :
    ((AttributeOwner.block .properties).conflictNotes keys).filter notesAccess = [] := by
  refine filter_eq_nil_iff.2 fun note hnote => ?_
  obtain ⟨k, -, rfl⟩ := mem_map.1 hnote
  exact Bool.eq_false_iff.1 rfl

theorem filter_notesAccess_accessNote (set get : Access) :
    (Resolved.accessNote .properties "SetAccess" "GetAccess" set get).filter notesAccess =
      if set =
      get then [] else [join ["This property has non-unique access specifier: <tt>SetAccess = ", set.word,
        ", GetAccess = ", get.word, "</tt>"]] := by
  cases set <;> cases get <;> decide

theorem Attribute.told_properties_iff {a : Attribute} : a.Told .properties ↔
    (lower a.name ∈ ["access".toList, "setaccess".toList, "getaccess".toList] → a.value.NamesAccess) ∧
      ((∃ m : Modifier, sameWord m.word a.name) → a.value.NamesTruth) := by
  have hname : lower a.name ∈ ["access".toList, "setaccess".toList, "getaccess".toList] ↔
      ∃ name ∈ accessNames .properties, sameWord a.name name := by
    have hlower : ["access".toList, "setaccess".toList, "getaccess".toList] =
        (accessNames .properties).map lower := by decide
    rw [hlower, mem_map]
    simp only [sameWord, beq_iff_eq]
    exact exists_congr fun name => and_congr_right fun _ => eq_comm
  rw [hname, ← AttributeValue.level?_ne_none_iff, ← AttributeValue.truth?_ne_none_iff]
  constructor
  · rintro ⟨haccess, hmodifier⟩
    refine ⟨?_, ?_⟩
    · rintro ⟨name, hmem, hsame⟩
      exact haccess name hmem hsame
    · rintro ⟨m, hm⟩
      exact hmodifier m hm
  · rintro ⟨haccess, hmodifier⟩
    exact ⟨fun name hmem hsame => haccess ⟨name, hmem, hsame⟩, fun m hm => hmodifier ⟨m, hm⟩⟩

/-- A list of attributes of properties is refused for a value that names no access level or no truth value.
Otherwise the stricter of the two levels is that of the region, and a note spells out both if they differ. -/
theorem resolveBlock_properties (attributes : List Attribute) :
    ((∃ f, (resolveBlock .properties attributes).2 = .error f) ↔ ∃ a ∈ attributes,
      Text.lower a.name ∈ ["access".toList, "setaccess".toList, "getaccess".toList] ∧ ¬a.value.NamesAccess ∨
        (∃ m : Modifier, Text.sameWord m.word a.name = true) ∧ ¬a.value.NamesTruth) ∧
    ∀ r, (resolveBlock .properties attributes).2 = .ok r →
      r.region.access.rank =
        max (Attribute.levelOf attributes "SetAccess").rank (Attribute.levelOf attributes "GetAccess").rank ∧
      r.notes.filter notesAccess =
        if Attribute.levelOf attributes "SetAccess" = Attribute.levelOf attributes "GetAccess" then []
        else [Text.join ["This property has non-unique access specifier: <tt>SetAccess = ",
          (Attribute.levelOf attributes "SetAccess").word, ", GetAccess = ",
          (Attribute.levelOf attributes "GetAccess").word,
          "</tt>"]] := by
  constructor
  · have hok : (∃ r, (resolveBlock .properties attributes).2 = .ok r) ↔
        ∀ a ∈ attributes, a.Told .properties := by
      simp only [resolveBlock_eq_ok_iff, exists_and_left, exists_eq, and_true]
    have herror : (∃ f, (resolveBlock .properties attributes).2 = .error f) ↔
        ¬∃ r, (resolveBlock .properties attributes).2 = .ok r := by
      cases (resolveBlock .properties attributes).2 <;> simp
    rw [herror, hok]
    push Not
    refine exists_congr fun a => and_congr_right fun _ => ?_
    rw [Attribute.told_properties_iff, not_and_or, Classical.not_imp, Classical.not_imp]
  · intro r h
    obtain ⟨-, rfl⟩ := resolveBlock_eq_ok_iff.1 h
    refine ⟨Access.rank_strictest _ _, ?_⟩
    rw [List.filter_append, List.filter_append, filter_notesAccess_modifierNotes,
      filter_notesAccess_conflictNotes, List.nil_append, List.append_nil]
    exact filter_notesAccess_accessNote _ _

/-- Two levels are given under `SetAccess`, of which the stricter one
counts, and the one under `Access` counts for neither. -/
def twiceSetAccess : List Attribute :=
  [⟨"SetAccess", .word "protected", .start⟩, ⟨"Access", .word "public", .start⟩,
    ⟨"setaccess", .word "Immutable", .start⟩, ⟨"GetAccess", .word "PROTECTED", .start⟩,
    ⟨"Hidden", .raw " 1 ", .start⟩]

theorem resolveBlock_twiceSetAccess :
    ∃ r, (resolveBlock .properties twiceSetAccess).2 = .ok r ∧ r.region.access.rank = 2 ∧
    r.notes.filter notesAccess =
      ["This property has non-unique access specifier: <tt>SetAccess = private, GetAccess = protected</tt>".toList] := by
  obtain ⟨r, hr⟩ := exists_of_isOk (x := (resolveBlock .properties twiceSetAccess).2) (by decide +kernel)
  have hlevels : Attribute.levelOf twiceSetAccess "SetAccess" = .private ∧
      Attribute.levelOf twiceSetAccess "GetAccess" = .protected := by decide +kernel
  obtain ⟨hrank, hnotes⟩ := (resolveBlock_properties twiceSetAccess).2 r hr
  rw [hlevels.1, hlevels.2] at hrank hnotes
  rw [if_neg (by decide)] at hnotes
  exact ⟨r, hr, hrank, hnotes.trans (by decide +kernel)⟩

end ClassdefDoc
