import ClassdefDoc.Proofs.Attributes.Modifiers

/-!
# Unknown attributes

Each kind of block knows some attribute names, and reports the others as ignored. Without the unknown
attributes of a list the findings are the same but for those on them. The meaning of the list is the
same exactly if it is refused for a known attribute, or if the unknown ones set no modifier, are no
modifiers without a truth value, and do not conflict with each other (`resolveBlock_known_iff`). The
modifiers are the same words in all kinds of blocks, so `Static` marks the region of a block of
properties, which does not know it (`resolveBlock_static_properties`).
-/

namespace ClassdefDoc

open List AttributeOwner Text

/-! ## Lists that are read item by item -/

/-- One of the parts of a computation that fails does. -/
theorem of_bind_eq_error {ε α β : Type} {x : Except ε α} {f : α → Except ε β}
    {e : ε} (h : x >>= f = .error e) :
    x = .error e ∨ ∃ a, x = .ok a ∧ f a = .error e := by
  cases x with
  | error e' =>
    cases h
    exact .inl rfl
  | ok a => exact .inr ⟨a, rfl, h⟩

section FilterMapM

variable {α β ε : Type} {f : α → Except ε (Option β)} {xs : List α} {e : ε}

/-- Items that give nothing may be left out. -/
theorem filterMapM_filter {q : α → Bool} (h : ∀ x ∈ xs, q x = false → f x = .ok none) :
    (xs.filter q).filterMapM f = xs.filterMapM f := by
  induction xs with
  | nil => rfl
  | cons x xs ih =>
    have hrest := ih fun y hy => h y (mem_cons_of_mem x hy)
    cases hq : q x with
    | true => rw [filter_cons_of_pos hq, filterMapM_cons, filterMapM_cons, hrest]
    | false =>
      rw [filter_cons_of_neg (by simp [hq]), filterMapM_cons, h x mem_cons_self hq, hrest]
      rfl

theorem filterMapM_cons_error {x : α} {o : Option β} (hx : f x = .ok o) (h : xs.filterMapM f = .error e) :
    (x :: xs).filterMapM f = .error e := by
  rw [filterMapM_cons, hx, h]
  cases o <;> rfl

/-- The first item that fails decides the error. -/
theorem filterMapM_eq_error_iff : xs.filterMapM f = .error e ↔
    ∃ before x after, xs = before ++ x :: after ∧ f x = .error e ∧ ∀ y ∈ before, ∃ o, f y = .ok o := by
  constructor
  · intro h
    induction xs with
    | nil => cases h
    | cons x xs ih =>
      rw [filterMapM_cons] at h
      rcases of_bind_eq_error h with hx | ⟨o, hx, h⟩
      · exact ⟨[], x, xs, rfl, hx, forall_mem_nil _⟩
      have hrest : xs.filterMapM f = .error e := by
        cases o with
        | none => exact h
        | some b =>
          rcases of_bind_eq_error h with h | ⟨bs, -, ⟨⟩⟩
          exact h
      obtain ⟨before, y, after, rfl, hy, hbefore⟩ := ih hrest
      exact ⟨x :: before, y, after, rfl, hy, forall_mem_cons.2 ⟨⟨o, hx⟩, hbefore⟩⟩
  · rintro ⟨before, x, after, rfl, hx, hbefore⟩
    induction before with
    | nil =>
      rw [nil_append, filterMapM_cons, hx]
      rfl
    | cons y before ih =>
      obtain ⟨⟨o, hy⟩, hbefore⟩ := forall_mem_cons.1 hbefore
      exact filterMapM_cons_error hy (ih hbefore)

end FilterMapM

/-! ## Keys -/

namespace AttributeKey

variable {a : Attribute} {keys : List AttributeKey} {attributes : List Attribute}
  {k : AttributeKey} {f : Fault}

theorem add_filter (known : Text → Bool) (a : Attribute) (keys : List AttributeKey) :
    (add a keys).filter (known ·.key) =
    if known (lower a.name) then add a (keys.filter (known ·.key)) else keys.filter (known ·.key) := by
  induction keys with
  | nil =>
    simp only [add, filter_nil, filter_cons, key]
  | cons k keys ih =>
    have hkey (values : List AttributeValue) : key { k with values := values } = k.key := rfl
    rw [add]
    by_cases hname : k.key = lower a.name
    · cases hknown : known (lower a.name) <;> simp [hname, hkey, hknown, add]
    · rw [if_neg hname, filter_cons, filter_cons, ih]
      cases known (lower a.name) <;> cases known k.key <;> simp [add, hname]

/-- The keys of the attributes with some names are the keys with these names. -/
theorem ofList_filter (known : Text → Bool) (attributes : List Attribute) :
    ofList (attributes.filter fun a => known (lower a.name)) = (ofList attributes).filter (known ·.key) := by
  induction attributes using List.reverseRecOn with
  | nil => rfl
  | append_singleton as a ih =>
    rw [ofList_concat, add_filter, ← ih, filter_append, filter_cons]
    split_ifs
    · exact ofList_concat ..
    · rw [filter_nil, append_nil]

/-- Values are collected once each. -/
theorem distinct_foldl (vs seen : List Text) (h : seen.Nodup) :
    let all := vs.foldl (fun seen v => if seen.contains v then seen else seen ++ [v]) seen
    all.Nodup ∧ ∀ v, v ∈ all ↔ v ∈ seen ∨ v ∈ vs := by
  induction vs generalizing seen with
  | nil => simpa using h
  | cons v vs ih =>
    rw [foldl_cons]
    split_ifs with hv
    · obtain ⟨hnodup, hmem⟩ := ih seen h
      refine ⟨hnodup, fun w => ?_⟩
      have hseen : v ∈ seen := by simpa using hv
      have : w = v → w ∈ seen := fun hw => hw ▸ hseen
      rw [hmem, mem_cons]
      tauto
    · have hseen : v ∉ seen := by simpa using hv
      obtain ⟨hnodup, hmem⟩ := ih (seen ++ [v]) (nodup_append.2 ⟨h, by simp, by
        intro w hw u hu
        rintro rfl
        exact hseen (mem_singleton.1 hu ▸ hw)⟩)
      refine ⟨hnodup, fun w => ?_⟩
      rw [hmem, mem_append, mem_singleton, mem_cons]
      tauto

theorem nodup_distinct (k : AttributeKey) :
    k.distinct.Nodup := (distinct_foldl (k.values.map AttributeValue.normal) [] .nil).1

theorem mem_distinct {t : Text} : t ∈ k.distinct ↔ ∃ v ∈ k.values, v.normal = t := by
  rw [distinct, (distinct_foldl _ [] .nil).2]
  simp

/-- A key conflicts if two of its values are not the same in normal form. -/
theorem conflicts_eq_false_iff :
    k.conflicts = false ↔ ∀ v ∈ k.values, ∀ v' ∈ k.values, v.normal = v'.normal := by
  have hshort : k.conflicts = false ↔ k.distinct.length ≤ 1 := by simp [conflicts]
  rw [hshort]
  constructor
  · intro h v hv v' hv'
    have hone : v.normal ∈ k.distinct := mem_distinct.2 ⟨v, hv, rfl⟩
    have hother : v'.normal ∈ k.distinct := mem_distinct.2 ⟨v', hv', rfl⟩
    rcases hlist : k.distinct with _ | ⟨t, _ | ⟨u, rest⟩⟩
    · simp [hlist] at hone
    · rw [hlist, mem_singleton] at hone hother
      rw [hone, hother]
    · simp [hlist] at h
  · intro h
    rcases hlist : k.distinct with _ | ⟨t, _ | ⟨u, rest⟩⟩
    · simp
    · simp
    · obtain ⟨v, hv, rfl⟩ := mem_distinct.1 (show t ∈ k.distinct by simp [hlist])
      obtain ⟨v', hv', rfl⟩ := mem_distinct.1 (show u ∈ k.distinct by simp [hlist])
      have hnodup := k.nodup_distinct
      rw [hlist, h v hv v' hv'] at hnodup
      simp at hnodup

/-- A flag that cannot be told is refused for one of its values. -/
theorem flag_eq_error (h : k.flag = .error f) :
    ∃ v ∈ k.values, v.truth? = none ∧ f = ⟨.notBoolean k.name v.text, k.position⟩ := by
  rcases k.flag_cases with ⟨v, hv, hnone, hflag⟩ | ⟨-, hflag⟩
  · exact ⟨v, hv, hnone, Except.error.inj (h.symm.trans hflag)⟩
  · cases h.symm.trans hflag

/-- A flag whose values are all false. -/
theorem flag_eq_false (h : ∀ v ∈ k.values, v.truth? = some false) : k.flag = .ok false := by
  rcases k.flag_cases with ⟨v, hv, hnone, -⟩ | ⟨-, hflag⟩
  · cases (h v hv).symm.trans hnone
  · rw [hflag, any_eq_false.2 fun v hv => by simp [h v hv]]

/-- An access level is refused for one of its values. -/
theorem exists_accessOf_eq_error (h : k.access = .error f) : ∃ v ∈ k.values, k.accessOf v = .error f := by
  have hfold : ∀ (vs : List AttributeValue) (level : Access),
      vs.foldlM (fun level v => (k.accessOf v).map level.strictest) level = .error f →
      ∃ v ∈ vs, k.accessOf v = .error f := by
    intro vs
    induction vs with
    | nil => rintro level ⟨⟩
    | cons v vs ih =>
      intro level hrun
      rw [foldlM_cons] at hrun
      cases hv : k.accessOf v with
      | ok a =>
        rw [hv] at hrun
        obtain ⟨u, hu, herror⟩ := ih _ hrun
        exact ⟨u, mem_cons_of_mem v hu, herror⟩
      | error f' =>
        rw [hv] at hrun
        cases hrun
        exact ⟨v, mem_cons_self, hv⟩
  exact hfold k.values .public h

/-- An access level is never refused for its truth value, and always where its key stands. -/
theorem access_eq_error (h : k.access = .error f) :
    (∀ name text, f.cause ≠ .notBoolean name text) ∧ f.position = k.position := by
  obtain ⟨v, -, hv⟩ := exists_accessOf_eq_error h
  unfold accessOf at hv
  split at hv
  · split at hv
    · cases hv
    · cases hv
      exact ⟨by rintro _ _ ⟨⟩, rfl⟩
  · split_ifs at hv
    all_goals
      cases hv
      exact ⟨by rintro _ _ ⟨⟩, rfl⟩
  · cases hv
    exact ⟨by rintro _ _ ⟨⟩, rfl⟩

end AttributeKey

/-! ## Known and unknown attributes -/

/-- Whether the name of an attribute is known. -/
def AttributeOwner.knows (owner : AttributeOwner) (a : Attribute) : Bool :=
  owner.knownKeys.contains (lower a.name)

/-- Whether a finding is about an attribute that is not known. -/
def Finding.concernsUnknown (owner : AttributeOwner) : Finding → Bool
  | unknownAttribute _ _ => true
  | conflictingAttribute key _ _ => !owner.knownKeys.contains (lower key)
  | _ => false

/-- An attribute of a list that sets no modifier, has a truth value if it is
a modifier, and does not conflict with the others of its name. -/
structure Attribute.Inert (attributes : List Attribute) (a : Attribute) : Prop where
  modifier : ∀ m : Modifier, sameWord m.word a.name → a.value.truth? = some false
  agrees : ∀ a' ∈ attributes, lower a'.name = lower a.name → a'.value.normal = a.value.normal

/-- A key that sets no modifier, has truth values if it is a modifier, and does not conflict. -/
structure AttributeKey.Inert (k : AttributeKey) : Prop where
  modifier : ∀ m, Modifier.ofWord? k.key = some m → ∀ v ∈ k.values, v.truth? = some false
  agrees : k.conflicts = false

/-- The attributes of some names are inert if their keys are. -/
theorem AttributeKey.inert_iff (attributes : List Attribute) (p : Text → Prop) :
    (∀ k ∈ ofList attributes, p k.key → k.Inert) ↔ ∀ a ∈ attributes, p
    (lower a.name) → a.Inert attributes := by
  constructor
  · intro h a ha hp
    obtain ⟨k, hk, hkey⟩ := exists_key ha
    have hvalue {a' : Attribute} (ha' : a' ∈ attributes) (hname : lower a'.name = lower a.name) :
        a'.value ∈ k.values := (mem_values_iff hk).2 ⟨a', ha', by rw [hname, hkey], rfl⟩
    obtain ⟨hmodifier, hagrees⟩ := h k hk (by rwa [hkey])
    refine ⟨fun m hm => hmodifier m ?_ _ (hvalue ha rfl), fun a' ha' hname => ?_⟩
    · rw [hkey]
      exact Modifier.ofWord?_lower.2 hm
    · exact conflicts_eq_false_iff.1 hagrees _ (hvalue ha' hname) _ (hvalue ha rfl)
  · intro h k hk hp
    have hinert {v : AttributeValue} (hv : v ∈ k.values) :
        ∃ a ∈ attributes, lower a.name = k.key ∧ a.value = v ∧ a.Inert attributes := by
      obtain ⟨a, ha, hname, rfl⟩ := (mem_values_iff hk).1 hv
      exact ⟨a, ha, hname, rfl, h a ha (by rwa [hname])⟩
    refine ⟨fun m hm v hv => ?_, conflicts_eq_false_iff.2 fun v hv v' hv' => ?_⟩
    · obtain ⟨a, ha, hname, rfl, hmodifier, -⟩ := hinert hv
      exact hmodifier m (Modifier.ofWord?_lower.1 (by rwa [hname]))
    · obtain ⟨a, ha, hname, rfl, -⟩ := hinert hv
      obtain ⟨a', ha', hname', rfl, -, hagrees⟩ := hinert hv'
      exact hagrees a ha (hname.trans hname'.symm)

namespace Resolved

variable {kind : BlockKind} {keys : List AttributeKey} {k : AttributeKey} {f : Fault} {w : Text}

/-! ## Access levels -/

theorem accessOf?_filter {known : Text → Bool} (hw : known w) (keys : List AttributeKey) :
    accessOf? (keys.filter (known ·.key)) w = accessOf? keys w := by
  have hfind : (keys.filter (known ·.key)).find? (·.key == w) = keys.find? (·.key == w) := by
    rw [find?_filter]
    congr 1
    funext k
    by_cases hk : k.key = w <;> simp [hk, hw]
  rw [accessOf?, accessOf?, hfind]

/-- Access levels are given by known keys. -/
theorem accessOf_filter (kind : BlockKind) (keys : List AttributeKey) :
    accessOf kind (keys.filter ((block kind).knownKeys.contains ·.key)) = accessOf kind keys := by
  cases kind <;> simp only [accessOf]
  · rw [accessOf?_filter (by decide), accessOf?_filter (by decide), accessOf?_filter (by decide)]
  · rw [accessOf?_filter (by decide)]
  · rw [accessOf?_filter (by decide), accessOf?_filter (by decide)]

theorem accessOf?_eq_error (h : accessOf? keys w = .error f) :
    (∀ name text, f.cause ≠ .notBoolean name text) ∧ ∃ k ∈ keys, f.position = k.position := by
  unfold accessOf? at h
  split at h
  · cases h
  · rename_i k hk
    cases haccess : k.access with
    | ok a =>
      rw [haccess] at h
      cases h
    | error f' =>
      rw [haccess] at h
      cases h
      obtain ⟨hcause, hposition⟩ := AttributeKey.access_eq_error haccess
      exact ⟨hcause, k, mem_of_find?_eq_some hk, hposition⟩

theorem accessOf_eq_error (h : accessOf kind keys = .error f) :
    (∀ name text, f.cause ≠ .notBoolean name text) ∧ ∃ k ∈ keys, f.position = k.position := by
  cases kind with
  | properties =>
    rcases of_bind_eq_error h with h | ⟨both, -, h⟩
    · exact accessOf?_eq_error h
    rcases of_bind_eq_error h with h | ⟨set, -, h⟩
    · exact accessOf?_eq_error h
    rcases of_bind_eq_error h with h | ⟨get, -, h⟩
    · exact accessOf?_eq_error h
    · cases h
  | methods =>
    rcases of_bind_eq_error h with h | ⟨both, -, h⟩
    · exact accessOf?_eq_error h
    · cases h
  | events =>
    rcases of_bind_eq_error h with h | ⟨listen, -, h⟩
    · exact accessOf?_eq_error h
    rcases of_bind_eq_error h with h | ⟨notify, -, h⟩
    · exact accessOf?_eq_error h
    · cases h

/-! ## Modifiers -/

/-- The modifier that a key sets, if it does. -/
def modifierOf (k : AttributeKey) : Except Fault (Option Modifier) :=
  match Modifier.ofWord? k.key with
  | none => pure none
  | some m => do pure (if ← k.flag then some m else none)

theorem modifiersOf_eq (keys : List AttributeKey) :
    modifiersOf keys = keys.filterMapM modifierOf >>= fun set => pure (Modifier.setOf set) := rfl

theorem modifierOf_of_inert (h : k.Inert) : modifierOf k = .ok none := by
  unfold modifierOf
  split
  · rfl
  · rename_i m hm
    rw [AttributeKey.flag_eq_false (h.modifier m hm)]
    rfl

theorem modifierOf_eq_error (h : modifierOf k = .error f) :
    (∃ text, f.cause = .notBoolean k.name text) ∧ f.position = k.position := by
  unfold modifierOf at h
  split at h
  · cases h
  · rcases of_bind_eq_error h with h | ⟨b, -, h⟩
    · obtain ⟨v, -, -, rfl⟩ := AttributeKey.flag_eq_error h
      exact ⟨⟨_, rfl⟩, rfl⟩
    · cases h

/-- The key of a modifier is its word in small letters. -/
theorem key_of_ofWord? {m : Modifier} (h : Modifier.ofWord? k.key = some m) : k.key = lower m.word := by
  rw [Modifier.ofWord?_eq_some_iff, sameWord, beq_iff_eq, k.key_eq_lower] at h
  exact h.symm

/-! ## Without the unknown keys -/

/-- The meaning of some keys is refused for a modifier or for an access level. -/
theorem ofKeys_eq_error_iff : ofKeys kind keys = .error f ↔ keys.filterMapM modifierOf = .error f ∨
    (∃ set, keys.filterMapM modifierOf = .ok set) ∧ accessOf kind keys = .error f := by
  rw [ofKeys, modifiersOf_eq]
  cases keys.filterMapM modifierOf with
  | error f' => simp [bind, Except.bind]
  | ok set =>
    cases accessOf kind keys with
    | error f' | ok x => simp [bind, Except.bind, pure, Except.pure]

/-- The keys that a block knows. -/
abbrev knownOf (kind : BlockKind) (keys : List AttributeKey) : List AttributeKey :=
  keys.filter ((block kind).knownKeys.contains ·.key)

/-- If all flags of some keys can be told, those of the known ones can. -/
theorem exists_filterMapM_knownOf {set : List Modifier} (h : keys.filterMapM modifierOf = .ok set) :
    ∃ set', (knownOf kind keys).filterMapM modifierOf = .ok set' := by
  cases hknown : (knownOf kind keys).filterMapM modifierOf with
  | ok set' => exact ⟨set', rfl⟩
  | error f =>
    obtain ⟨before, x, after, hsplit, hx, -⟩ := filterMapM_eq_error_iff.1 hknown
    have hmem : x ∈ knownOf kind keys := by rw [hsplit]; simp
    obtain ⟨o, ho⟩ := (of_filterMapM_eq_ok h).1 x (mem_filter.1 hmem).1
    rw [hx] at ho
    cases ho

/-- A list that is refused for a known key is so without the unknown ones, and for nothing else. -/
theorem ofKeys_knownOf_eq_error_iff (h : ofKeys kind keys = .error f) :
    ofKeys kind (knownOf kind keys) = .error f ↔
    ∀ name text, f.cause = .notBoolean name text → (block kind).knownKeys.contains (lower name) := by
  constructor
  · intro hknown name text hcause
    rcases ofKeys_eq_error_iff.1 hknown with hflag | ⟨-, haccess⟩
    · obtain ⟨before, x, after, hsplit, hx, -⟩ := filterMapM_eq_error_iff.1 hflag
      have hmem : x ∈ knownOf kind keys := by rw [hsplit]; simp
      obtain ⟨⟨text', htext⟩, -⟩ := modifierOf_eq_error hx
      obtain ⟨rfl, -⟩ := Cause.notBoolean.inj (hcause.symm.trans htext)
      exact (mem_filter.1 hmem).2
    · exact absurd hcause ((accessOf_eq_error haccess).1 name text)
  · intro hcause
    rw [ofKeys_eq_error_iff, accessOf_filter]
    rcases ofKeys_eq_error_iff.1 h with hflag | ⟨⟨set, hset⟩, haccess⟩
    · obtain ⟨before, x, after, rfl, hx, hbefore⟩ := filterMapM_eq_error_iff.1 hflag
      obtain ⟨⟨text, htext⟩, -⟩ := modifierOf_eq_error hx
      refine .inl (filterMapM_eq_error_iff.2 ⟨knownOf kind before,
        x, knownOf kind after, ?_, hx, fun y hy => ?_⟩)
      · have hx : (block kind).knownKeys.contains x.key := hcause _ _ htext
        rw [knownOf, filter_append, filter_cons, if_pos hx]
      · exact hbefore y (mem_filter.1 hy).1
    · exact .inr ⟨exists_filterMapM_knownOf hset, haccess⟩

/-- Keys that are inert may be left out. -/
theorem ofKeys_knownOf_of_inert (h : ∀ k ∈ keys, (block kind).knownKeys.contains k.key = false → k.Inert) :
    ofKeys kind (knownOf kind keys) = ofKeys kind keys := by
  have hnotes : (block kind).conflictNotes (knownOf kind keys) =
      (block kind).conflictNotes keys := by
    rw [conflictNotes, conflictNotes, filter_filter]
    congr 1
    refine filter_congr fun k hk => ?_
    cases hknown : (block kind).knownKeys.contains k.key with
    | true => simp
    | false => simp [(h k hk hknown).agrees]
  rw [ofKeys, ofKeys, modifiersOf_eq, modifiersOf_eq,
    filterMapM_filter fun k hk hknown => modifierOf_of_inert (h k hk hknown), accessOf_filter, hnotes]

/-- Without its unknown keys a list has the same meaning only if they are inert. -/
theorem inert_of_ofKeys_knownOf {r : Resolved} (h : ofKeys kind keys = .ok r)
    (hknown : ofKeys kind (knownOf kind keys) = .ok r) :
    ∀ k ∈ keys, (block kind).knownKeys.contains k.key = false → k.Inert := by
  obtain ⟨ms, hms, h⟩ := of_bind_eq_ok h
  obtain ⟨x, hx, h⟩ := of_bind_eq_ok h
  obtain ⟨ms', hms', hknown⟩ := of_bind_eq_ok hknown
  obtain ⟨x', hx', hknown⟩ := of_bind_eq_ok hknown
  rw [accessOf_filter, hx] at hx'
  obtain rfl := Except.ok.inj hx'
  obtain rfl := Except.ok.inj h
  have hsame := Except.ok.inj hknown
  obtain rfl : ms' = ms := congrArg Resolved.modifiers hsame
  have hnotes : (block kind).conflictNotes (knownOf kind keys) =
      (block kind).conflictNotes keys :=
    append_cancel_left (congrArg Resolved.notes hsame)
  intro k hk hunknown
  refine ⟨fun m hm v hv => ?_, ?_⟩
  · -- a modifier that is set is set by a known key, which has another name
    obtain ⟨set, hset, -⟩ := of_bind_eq_ok hms
    obtain ⟨o, ho⟩ := (of_filterMapM_eq_ok hset).1 k hk
    rw [hm] at ho
    obtain ⟨b, hflag, -⟩ := of_bind_eq_ok ho
    cases htruth : v.truth? with
    | none => exact absurd htruth ((AttributeKey.flag_eq_ok hflag).1 v hv)
    | some b =>
      cases b with
      | false => rfl
      | true =>
        obtain ⟨k', hk', hm', -⟩ :=
          (mem_modifiersOf hms').1 ((mem_modifiersOf hms).2 ⟨k, hk, hm, v, hv, htruth⟩)
        have hknown' := (mem_filter.1 hk').2
        rw [key_of_ofWord? hm', ← key_of_ofWord? hm, hunknown] at hknown'
        cases hknown'
  · -- the known keys that conflict are all keys that do
    have hlength := congrArg List.length hnotes
    rw [conflictNotes, conflictNotes, length_map, length_map, filter_comm] at hlength
    have hall := filter_sublist.eq_of_length hlength
    cases hconflicts : k.conflicts with
    | false => rfl
    | true =>
      have hmem : k ∈ keys.filter (·.conflicts) := mem_filter.2 ⟨hk, hconflicts⟩
      rw [← hall] at hmem
      have hknown' := (mem_filter.1 hmem).2
      rw [hunknown] at hknown'
      cases hknown'

end Resolved

/-! ## Blocks -/

theorem AttributeOwner.findings_filter (owner : AttributeOwner) (keys : List AttributeKey) :
    owner.findings (keys.filter (owner.knownKeys.contains ·.key)) =
      (owner.findings keys).filter (!·.finding.concernsUnknown owner) := by
  simp only [findings, filter_append, filter_map, filter_filter]
  congr 1
  · rw [map_eq_nil_iff.2 (filter_eq_nil_iff.2 ?_), map_eq_nil_iff.2 (filter_eq_nil_iff.2 ?_)]
    · simp [Finding.concernsUnknown]
    · simp
  · congr 1
    refine filter_congr fun k _ => ?_
    simp [Finding.concernsUnknown, AttributeKey.key, Bool.and_comm]

/-- Without its unknown attributes a block's list has the same findings but for those on them. It has
the same meaning exactly if it is refused, but not for the value of an unknown attribute, or if the
unknown attributes set no modifier, have truth values if they are modifiers, and do not conflict. -/
theorem resolveBlock_known_iff (kind : BlockKind) (attributes : List Attribute) :
    (resolveBlock kind (attributes.filter (AttributeOwner.block kind).knows)).1 =
        (resolveBlock kind attributes).1.filter (!·.finding.concernsUnknown (.block kind)) ∧
    ((resolveBlock kind (attributes.filter (AttributeOwner.block kind).knows)).2 =
      (resolveBlock kind attributes).2 ↔
      (∃ fault, (resolveBlock kind attributes).2 = .error fault ∧ ∀ name text,
        fault.cause = .notBoolean name text →
        (AttributeOwner.block kind).knownKeys.contains (Text.lower name) = true) ∨
      ∀ a ∈ attributes, (AttributeOwner.block kind).knows a = false → a.Inert attributes) := by
  have hkeys : AttributeKey.ofList (attributes.filter (block kind).knows) =
      Resolved.knownOf kind (AttributeKey.ofList attributes) :=
    AttributeKey.ofList_filter ((block kind).knownKeys.contains ·) attributes
  have hinert := AttributeKey.inert_iff attributes fun w => (block kind).knownKeys.contains w = false
  simp only [resolveBlock, hkeys]
  refine ⟨findings_filter _ _, ?_⟩
  simp only [knows]
  rw [← hinert]
  cases hwhole : Resolved.ofKeys kind (AttributeKey.ofList attributes) with
  | error fault =>
    rw [Resolved.ofKeys_knownOf_eq_error_iff hwhole]
    constructor
    · exact fun h => .inl ⟨fault, rfl, h⟩
    · rintro (⟨_, ⟨⟩, h⟩ | h)
      · exact h
      · rw [← Resolved.ofKeys_knownOf_eq_error_iff hwhole, Resolved.ofKeys_knownOf_of_inert h, hwhole]
  | ok r =>
    constructor
    · exact fun h => .inr (Resolved.inert_of_ofKeys_knownOf hwhole h)
    · rintro (⟨_, ⟨⟩, -⟩ | h)
      rw [Resolved.ofKeys_knownOf_of_inert h, hwhole]

/-- A block of properties does not know `Static`, which marks its region all the same. -/
theorem resolveBlock_static_properties :
    (resolveBlock .properties [⟨"Static", .flag true, .start⟩]).1 =
        [⟨.unknownAttribute "Static".toList "properties block".toList, .start, none⟩] ∧
      (resolveBlock .properties [⟨"Static", .flag true, .start⟩]).2 = .ok
      ⟨⟨.public, [.static]⟩, [.static], []⟩ ∧
      ([⟨"Static", .flag true, .start⟩] : List Attribute).filter
      (AttributeOwner.block .properties).knows = [] ∧
      (resolveBlock .properties []).2 = .ok ⟨⟨.public, []⟩, [], []⟩ := by
  decide +kernel

end ClassdefDoc
