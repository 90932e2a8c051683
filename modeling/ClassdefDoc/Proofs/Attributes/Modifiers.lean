import ClassdefDoc.Attributes.Resolve
import ClassdefDoc.Proofs.Parse.Shape

/-!
# Which modifiers a block has

An attribute list sets a modifier if one of the attributes of that name is true, in whatever order
they stand (`Resolved.has_iff`). A method is abstract on other terms: the reader of a file takes a
block for abstract only if `Abstract` is bare or has the one word `true`, while the modifier is
also set by the number `1` and by a quoted word with blanks around it. `Block.has_abstract_iff`
says how far the two agree, and `Block.abstract_number` is a block where they do not.
-/

namespace ClassdefDoc

open List Text

variable {w : Text}

/-! ## Keys -/

/-- The values that a list gives under `name`, in any case. -/
def Attribute.valuesOf (attributes : List Attribute) (name : Text) : List AttributeValue :=
  (attributes.filter fun a => sameWord a.name name).map (·.value)

namespace AttributeKey

variable {a : Attribute} {keys : List AttributeKey} {attributes : List Attribute}
  {w : Text} {v : AttributeValue} {k : AttributeKey}

theorem key_eq_lower (k : AttributeKey) : lower k.key = k.key := lower_lower k.name

theorem ofList_concat (attributes : List Attribute) (a : Attribute) :
    ofList (attributes ++ [a]) = add a (ofList attributes) :=
  foldl_concat ..

theorem map_key_add (a : Attribute) (keys : List AttributeKey) : (add a keys).map key =
    if lower a.name ∈ keys.map key then keys.map key else keys.map key ++ [lower a.name] := by
  induction keys with
  | nil => rfl
  | cons k keys ih =>
    rw [add]
    by_cases hname : k.key = lower a.name
    · rw [if_pos hname, if_pos (hname ▸ mem_cons_self)]
      rfl
    · rw [if_neg hname, map_cons, ih, map_cons]
      by_cases hmem : lower a.name ∈ keys.map key
      · rw [if_pos hmem, if_pos (mem_cons_of_mem _ hmem)]
      · rw [if_neg hmem, if_neg (by simpa [Ne.symm hname] using hmem)]
        rfl

/-- No two keys have one name. -/
theorem nodup_ofList (attributes : List Attribute) : ((ofList attributes).map key).Nodup := by
  induction attributes using List.reverseRecOn with
  | nil => exact .nil
  | append_singleton as a ih =>
    rw [ofList_concat, map_key_add]
    split_ifs with hmem
    · exact ih
    · exact concat_eq_append ▸ ih.concat hmem

theorem mem_keys_ofList : w ∈ (ofList attributes).map key ↔ ∃ a ∈ attributes, lower a.name = w := by
  induction attributes using List.reverseRecOn with
  | nil => simp [ofList]
  | append_singleton as a ih =>
    simp only [ofList_concat, map_key_add, mem_append, mem_singleton,
      or_and_right, exists_or, exists_eq_left, ← ih]
    split_ifs with hmem
    · exact ⟨.inl, fun h => h.elim id fun h => h ▸ hmem⟩
    · rw [mem_append, mem_singleton, eq_comm (a := w)]

/-- Every attribute has a key. -/
theorem exists_key (ha : a ∈ attributes) : ∃ k ∈ ofList attributes, k.key = lower a.name :=
  mem_map.1 (mem_keys_ofList.2 ⟨a, ha, rfl⟩)

/-- The values that some keys hold under `w`. -/
def valuesAt (keys : List AttributeKey) (w : Text) : List AttributeValue :=
  ((keys.find? (·.key == w)).map (·.values)).getD []

theorem valuesAt_add (a : Attribute) (keys : List AttributeKey) (w : Text) :
    valuesAt (add a keys) w = valuesAt keys w ++ if lower a.name = w then [a.value] else [] := by
  induction keys with
  | nil =>
    by_cases hw : lower a.name = w <;> simp [valuesAt, add, key, hw]
  | cons k keys ih =>
    have hkey (values : List AttributeValue) : key { k with values := values } = k.key := rfl
    rw [add]
    by_cases hname : k.key = lower a.name
    · by_cases hw : lower a.name = w <;> simp [valuesAt, hkey, hname, hw]
    · rw [if_neg hname]
      by_cases hw : k.key = w
      · have hother : lower a.name ≠ w := fun h => hname (hw.trans h.symm)
        simp [valuesAt, hw, hother]
      · have hskip (keys : List AttributeKey) : valuesAt (k :: keys) w = valuesAt keys w := by
          simp [valuesAt, hw]
        rw [hskip, hskip, ih]

/-- The keys of a list hold its values, in their order. -/
theorem valuesAt_ofList (attributes : List Attribute) (name : Text) :
    valuesAt (ofList attributes) (lower name) = Attribute.valuesOf attributes name := by
  induction attributes using List.reverseRecOn with
  | nil => rfl
  | append_singleton as a ih =>
    rw [ofList_concat, valuesAt_add, ih]
    by_cases hname : lower a.name = lower name <;> simp [Attribute.valuesOf, sameWord, hname]

section

variable (hk : k ∈ ofList attributes)
include hk

theorem find?_of_mem : (ofList attributes).find? (·.key == k.key) = some k := by
  have hsome : ((ofList attributes).find? (·.key == k.key)).isSome := find?_isSome.2 ⟨k, hk, by simp⟩
  obtain ⟨k', hk'⟩ := Option.isSome_iff_exists.1 hsome
  have hkey : k'.key = k.key := by simpa using find?_some hk'
  rw [hk', inj_on_of_nodup_map (nodup_ofList attributes) (mem_of_find?_eq_some hk') hk hkey]

theorem values_eq_valuesOf : k.values = Attribute.valuesOf attributes k.key := by
  rw [← valuesAt_ofList, key_eq_lower, valuesAt, find?_of_mem hk]
  rfl

/-- The values of a key are those of the attributes of its name. -/
theorem mem_values_iff : v ∈ k.values ↔ ∃ a ∈ attributes, lower a.name = k.key ∧ a.value = v := by
  rw [values_eq_valuesOf hk, Attribute.valuesOf]
  simp [sameWord, key_eq_lower, and_assoc]

end

/-- One more value of a flag. -/
def flagStep (k : AttributeKey) (asserted : Bool) (v : AttributeValue) : Except Fault Bool :=
  match v.truth? with
  | some b => .ok (asserted || b)
  | none => .error ⟨.notBoolean k.name v.text, k.position⟩

/-- A flag is refused for one of its values, or is true if one of them is. -/
theorem flag_cases (k : AttributeKey) :
    (∃ v ∈ k.values, v.truth? = none ∧ k.flag = .error ⟨.notBoolean k.name v.text, k.position⟩) ∨
      (∀ v ∈ k.values, v.truth? ≠ none) ∧ k.flag = .ok (k.values.any (·.truth? == some true)) := by
  have hfold (vs : List AttributeValue) (asserted : Bool) :
      (∃ v ∈ vs, v.truth? = none ∧ vs.foldlM k.flagStep asserted = .error ⟨.notBoolean k.name v.text,
      k.position⟩) ∨
        (∀ v ∈ vs, v.truth? ≠ none) ∧
        vs.foldlM k.flagStep asserted = .ok (asserted || vs.any (·.truth? == some true)) := by
    induction vs generalizing asserted with
    | nil => exact .inr ⟨forall_mem_nil _, by simp [pure, Except.pure]⟩
    | cons v vs ih =>
      rw [foldlM_cons, flagStep]
      cases hv : v.truth? with
      | none => exact .inl ⟨v, mem_cons_self, hv, rfl⟩
      | some b =>
        rcases ih (asserted || b) with ⟨u, hu, hnone, hrun⟩ | ⟨hall, hrun⟩
        · exact .inl ⟨u, mem_cons_of_mem v hu, hnone, hrun⟩
        · refine .inr ⟨forall_mem_cons.2 ⟨by simp [hv], hall⟩, hrun.trans ?_⟩
          cases b <;> simp [hv]
  have hrun := hfold k.values false
  rwa [Bool.false_or] at hrun

/-- A flag that can be told is true if one of its values is. -/
theorem flag_eq_ok {b : Bool} (h : k.flag = .ok b) :
    (∀ v ∈ k.values, v.truth? ≠ none) ∧ (b ↔ ∃ v ∈ k.values, v.truth? = some true) := by
  rcases k.flag_cases with ⟨v, -, -, hflag⟩ | ⟨hall, hflag⟩
  · cases h.symm.trans hflag
  · cases h.symm.trans hflag
    exact ⟨hall, by simp⟩

end AttributeKey

/-! ## Modifiers -/

namespace Modifier

variable {m : Modifier}

theorem word_injective {m' : Modifier} (h : lower m.word = lower m'.word) : m = m' := by
  cases m <;> cases m' <;> first | rfl | exact absurd h (by decide)

theorem mem_all (m : Modifier) : m ∈ all := by
  cases m <;> decide

theorem ofWord?_eq_some_iff : ofWord? w = some m ↔ sameWord m.word w := by
  have hfound {m : Modifier} (h : ofWord? w = some m) : sameWord m.word w := by
    simpa using find?_some h
  refine ⟨hfound, fun h => ?_⟩
  have hsome : (ofWord? w).isSome := find?_isSome.2 ⟨m, mem_all m, h⟩
  obtain ⟨m', hm'⟩ := Option.isSome_iff_exists.1 hsome
  rw [hm', word_injective ((beq_iff_eq.1 (hfound hm')).trans (beq_iff_eq.1 h).symm)]

theorem ofWord?_lower : ofWord? (lower w) = some m ↔ sameWord m.word w := by
  rw [ofWord?_eq_some_iff, sameWord, sameWord, lower_lower]

theorem mem_setOf_iff {ms : List Modifier} : m ∈ setOf ms ↔ m ∈ ms := by
  simp [setOf, mem_all]

end Modifier

/-- What a function that may fail keeps of a list. -/
theorem of_filterMapM_eq_ok {α β ε : Type} {f : α → Except ε (Option β)} {xs : List α} {ys : List β}
    (h : xs.filterMapM f = .ok ys) : (∀ x ∈ xs, ∃ o, f x = .ok o) ∧ ∀ y, y ∈ ys ↔
    ∃ x ∈ xs, f x = .ok (some y) := by
  induction xs generalizing ys with
  | nil =>
    cases h
    simp
  | cons x xs ih =>
    rw [filterMapM_cons] at h
    obtain ⟨o, hx, h⟩ := of_bind_eq_ok h
    cases o with
    | none =>
      obtain ⟨hall, hmem⟩ := ih h
      exact ⟨forall_mem_cons.2 ⟨⟨none, hx⟩, hall⟩, fun y => by simp [hmem, hx]⟩
    | some z =>
      obtain ⟨zs, hzs, h⟩ := of_bind_eq_ok h
      cases h
      obtain ⟨hall, hmem⟩ := ih hzs
      exact ⟨forall_mem_cons.2 ⟨⟨some z, hx⟩, hall⟩, fun y => by simp [hmem, hx, eq_comm]⟩

namespace Resolved

variable {keys : List AttributeKey} {ms : List Modifier} {m : Modifier}

theorem mem_modifiersOf (h : modifiersOf keys = .ok ms) :
    m ∈ ms ↔ ∃ k ∈ keys, Modifier.ofWord? k.key = some m ∧ ∃ v ∈ k.values, v.truth? = some true := by
  unfold modifiersOf at h
  obtain ⟨set, hset, hms⟩ := of_bind_eq_ok h
  cases hms
  obtain ⟨hall, hmem⟩ := of_filterMapM_eq_ok hset
  rw [Modifier.mem_setOf_iff, hmem]
  refine exists_congr fun k => and_congr_right fun hk => ?_
  obtain ⟨o, ho⟩ := hall k hk
  cases hword : Modifier.ofWord? k.key with
  | none => simp [pure, Except.pure]
  | some m' =>
    rw [hword] at ho
    obtain ⟨b, hflag, -⟩ := of_bind_eq_ok ho
    rw [← (AttributeKey.flag_eq_ok hflag).2, hflag]
    cases b <;> simp [bind, Except.bind, pure, Except.pure]

variable {kind : BlockKind} {attributes : List Attribute} {r : Resolved}

theorem mem_modifiersOf_ofList (h : modifiersOf (AttributeKey.ofList attributes) = .ok ms) :
    m ∈ ms ↔ ∃ a ∈ attributes, sameWord m.word a.name ∧ a.value.truth? = some true := by
  rw [mem_modifiersOf h]
  constructor
  · rintro ⟨k, hk, hword, v, hv, htrue⟩
    obtain ⟨a, ha, hname, rfl⟩ := (AttributeKey.mem_values_iff hk).1 hv
    exact ⟨a, ha, Modifier.ofWord?_lower.1 (hname ▸ hword), htrue⟩
  · rintro ⟨a, ha, hword, htrue⟩
    obtain ⟨k, hk, hkey⟩ := AttributeKey.exists_key ha
    have hvalue : a.value ∈ k.values := (AttributeKey.mem_values_iff hk).2 ⟨a, ha, hkey.symm, rfl⟩
    exact ⟨k, hk, hkey ▸ Modifier.ofWord?_lower.2 hword, a.value, hvalue, htrue⟩

theorem modifiers_of_resolveBlock (h : (resolveBlock kind attributes).2 = .ok r) :
    modifiersOf (AttributeKey.ofList attributes) = .ok r.modifiers ∧
      r.region.modifiers = r.modifiers.filter (·.splitsRegion) := by
  obtain ⟨ms, hms, h⟩ := of_bind_eq_ok h
  obtain ⟨x, -, h⟩ := of_bind_eq_ok h
  cases h
  exact ⟨hms, rfl⟩

/-- A list sets a modifier if one of the attributes of its name is true. -/
theorem has_iff (h : (resolveBlock kind attributes).2 = .ok r) (m : Modifier) :
    r.has m ↔ ∃ a ∈ attributes, sameWord m.word a.name ∧ a.value.truth? = some true := by
  rw [has, contains_iff_mem, mem_modifiersOf_ofList (modifiers_of_resolveBlock h).1]

end Resolved

/-! ## Abstract methods -/

/-- The value is true but not written as the one word `true`: it is a
number, or blanks stand around the word. -/
def AttributeValue.SpeltOtherwise : AttributeValue → Prop
  | flag _ => False
  | word w => lower (trim w) = "1".toList ∨ lower (trim w) = "true".toList ∧ trim w ≠ w
  | raw t => lower (trim t) = "1".toList ∨ lower (trim t) = "true".toList

theorem AttributeValue.truth?_word :
    (word w).truth? = some true ↔ lower (trim w) = "true".toList ∨ lower (trim w) = "1".toList := by
  simp only [truth?]
  split_ifs with h h' <;> simp_all

/-- What is asserted is true; so are some values that are not asserted. -/
theorem Attribute.truth?_eq_some_true_iff {a : Attribute} :
    a.value.truth? = some true ↔ a.asserted ∨ a.value.SpeltOtherwise := by
  obtain ⟨name, value, position⟩ := a
  cases value with
  | flag b => simp [AttributeValue.truth?, asserted, AttributeValue.SpeltOtherwise]
  | raw t =>
    have htruth : (AttributeValue.raw t).truth? = (AttributeValue.word t).truth? := rfl
    simp only [htruth, AttributeValue.truth?_word, asserted,
      AttributeValue.SpeltOtherwise, Bool.false_eq_true, false_or]
    exact or_comm
  | word w =>
    have hasserted : sameWord w "true" ↔ lower w = "true".toList := beq_iff_eq
    have htrim (h : lower w = "true".toList) : lower (trim w) = "true".toList := by
      rw [lower_trim, h]
      decide
    simp only [AttributeValue.truth?_word, asserted, AttributeValue.SpeltOtherwise, hasserted]
    constructor
    · rintro (htrue | hone)
      · by_cases hw : trim w = w
        · exact .inl (hw ▸ htrue)
        · exact .inr (.inr ⟨htrue, hw⟩)
      · exact .inr (.inl hone)
    · rintro (htrue | hone | ⟨htrue, -⟩)
      · exact .inl (htrim htrue)
      · exact .inr hone
      · exact .inl htrue

theorem Attribute.anyAsserted_iff {attributes : List Attribute} {name : Text} :
    anyAsserted attributes name ↔ ∃ a ∈ attributes, sameWord a.name name ∧ a.asserted := by
  simp [anyAsserted]

/-- The methods of a block are abstract as its reader sees it, and its
region is marked as abstract if the modifier is set. Both are the case alike
exactly if `Abstract` is asserted or no value of it is spelt otherwise. -/
theorem Block.has_abstract_iff {limits : Limits} {text : Text} {c : ClassDecl} {b : Block} {r : Resolved}
    (hparse : ClassDecl.parse limits text = .ok c) (hb : b ∈ c.blocks) (hkind : b.kind = .methods)
    (hr : (resolveBlock b.kind b.attributes).2 = .ok r) :
    (∀ m ∈ b.members, ∃ d, m.method? = some d ∧ d.isAbstract = Attribute.anyAsserted b.attributes "Abstract" ∧
      (d.isAbstract = true → d.body = none)) ∧
    (.abstract ∈ r.region.modifiers ↔ r.has .abstract = true) ∧
    ((Attribute.anyAsserted b.attributes "Abstract" = true ↔ r.has .abstract = true) ↔
      (Attribute.anyAsserted b.attributes "Abstract" = true ∨
        ∀ a ∈ b.attributes, Text.sameWord a.name "Abstract" = true → ¬a.value.SpeltOtherwise)) := by
  refine ⟨fun m hm => ?_, ?_, ?_⟩
  · have hfits := (ClassDecl.regular_of_parse hparse).fits b hb m hm
    have hasserted : b.isAbstract = Attribute.anyAsserted b.attributes "Abstract" := by
      simp [isAbstract, hkind]
    rw [hkind, hasserted] at hfits
    obtain ⟨d, hd, habstract, hbody⟩ := hfits.exists_method
    exact ⟨d, hd, habstract, fun h => hbody (habstract ▸ h)⟩
  · rw [(Resolved.modifiers_of_resolveBlock hr).2]
    simp [Modifier.splitsRegion, Resolved.has]
  · have hsame (w : Text) : sameWord Modifier.abstract.word w = sameWord w "Abstract" := by
      rw [sameWord, sameWord, Bool.beq_comm]
      rfl
    have hhas : r.has .abstract = true ↔ Attribute.anyAsserted b.attributes "Abstract" = true ∨
        ∃ a ∈ b.attributes, sameWord a.name "Abstract" = true ∧ a.value.SpeltOtherwise := by
      rw [Resolved.has_iff hr, Attribute.anyAsserted_iff, ← exists_or]
      refine exists_congr fun a => ?_
      rw [hsame, Attribute.truth?_eq_some_true_iff, ← and_or_left, ← and_or_left]
    have hnone : (∀ a ∈ b.attributes, sameWord a.name "Abstract" = true → ¬a.value.SpeltOtherwise) ↔
        ¬∃ a ∈ b.attributes, sameWord a.name "Abstract" = true ∧ a.value.SpeltOtherwise := by
      push Not
      rfl
    rw [hhas, hnone, iff_self_or, imp_iff_or_not]

/-- One value is spelt otherwise and another one asserts the attribute. -/
def abstractTwice : Text := "classdef A\nmethods (Abstract = '1', abstract = TRUE)\nfunction f(a)\nend\nend\n"

theorem Block.has_abstract_asserted : ∃ c b r, ClassDecl.parse {} abstractTwice = .ok c ∧ b ∈ c.blocks ∧
    b.kind = .methods ∧ (resolveBlock b.kind b.attributes).2 = .ok r ∧
    Attribute.anyAsserted b.attributes "Abstract" = true ∧ r.has .abstract = true := by
  obtain ⟨c, hc, b, hb, hmethods, r, hr, hasserted⟩ : ∃ c, ClassDecl.parse {} abstractTwice = .ok c ∧
      ∃ b ∈ c.blocks, b.kind = .methods ∧ ∃ r, (resolveBlock b.kind b.attributes).2 = .ok r ∧
        Attribute.anyAsserted b.attributes "Abstract" = true := by decide +kernel
  exact ⟨c, b, r, hc, hb, hmethods, hr, hasserted,
    ((Block.has_abstract_iff hc hb hmethods hr).2.2.2 (.inl hasserted)).1 hasserted⟩

/-- A block that is made abstract by a number. -/
def abstractNumber : Text := "classdef A\nmethods (Abstract = 1)\nf(a)\nend\nend\n"

/-- The region of a block can be marked as abstract while its methods are not abstract. -/
theorem Block.abstract_number :
    ∃ c b r, ClassDecl.parse {} abstractNumber = .ok c ∧ b ∈ c.blocks ∧ b.kind = .methods ∧
    (resolveBlock b.kind b.attributes).2 = .ok r ∧ Attribute.anyAsserted b.attributes "Abstract" = false ∧
    r.has .abstract = true := by
  obtain ⟨c, hc, b, hb, hkind, r, hr, hasserted⟩ : ∃ c, ClassDecl.parse {} abstractNumber = .ok c ∧
      ∃ b ∈ c.blocks, b.kind = .methods ∧ ∃ r, (resolveBlock b.kind b.attributes).2 = .ok r ∧
        Attribute.anyAsserted b.attributes "Abstract" = false ∧ r.has .abstract = true := by decide +kernel
  exact ⟨c, b, r, hc, hb, hkind, hr, hasserted⟩

end ClassdefDoc
