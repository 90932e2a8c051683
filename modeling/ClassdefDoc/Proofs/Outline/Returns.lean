import ClassdefDoc.Proofs.Balance.Parts

/-!
# Composite return values

A method with more than one return value returns a composite construct, which names them in order with
their types. Types have no comma and names no closing bracket, so the construct can be cut at the first of
each: it determines the names and their types (`returns_eq_returns_iff`), whatever the placeholders are.
-/

namespace ClassdefDoc

open List Text Name

theorem Text.append_joinWith (sep : Text) {parts : List Text} (h : parts ≠ []) :
    sep ++ joinWith sep parts = parts.flatMap (sep ++ ·) := by
  induction parts with
  | nil => exact absurd rfl h
  | cons part parts ih =>
    cases parts with
    | nil => simp
    | cons next parts =>
      rw [joinWith_cons_cons, append_assoc, ih (cons_ne_nil _ _), flatMap_cons (x := part), append_assoc]

namespace Placeholders

variable {types types' : TypeMap} {name name' : Text} {names names' : List Text}

/-- One return value of a composite construct. -/
def returnPart (p : Placeholders) (types : TypeMap) (name : Text) : Text :=
  join [p.singleReturn, "<", returnType types name, ",", name, ">"]

theorem returns_composite (p : Placeholders) (h : 2 ≤ names.length) : p.returns names types =
    join [p.multiReturn, "<", joinWith " ," (names.map (p.returnPart types)), " >"] := by
  unfold returns
  split
  · simp at h
  · simp at h
  · rfl

theorem comma_notMem_returnType (htypes : ∀ q ∈ types, IsSpelled q.2) (name : Text) :
    ',' ∉ returnType types name := by
  unfold returnType
  split
  · rename_i type htype
    obtain ⟨l₁, l₂, rfl, -⟩ := lookup_eq_some_iff.1 htype
    intro hc
    obtain ⟨s, hs, hc⟩ := mem_flatMap.1 hc
    have hc : ',' ∈ s := by simpa using hc
    have hspelled := htypes (name, type) (by simp) ',' (mem_of_mem_split (mem_of_mem_filter hs) hc)
    revert hspelled
    decide
  · decide

section

variable (p : Placeholders) (htypes : ∀ q ∈ types, IsSpelled q.2) (htypes' : ∀ q ∈ types', IsSpelled q.2)
include p htypes htypes'

/-- What stands before a cut in one return value, and what follows it, is the same. -/
theorem returnPart_append_inj {rest rest' : Text}
    (hname : isIdentifier name) (hname' : isIdentifier name')
    (h : p.returnPart types name ++ rest = p.returnPart types' name' ++ rest') :
    name = name' ∧ returnType types name = returnType types' name' ∧ rest = rest' := by
  have hangle {n : Text} (hn : isIdentifier n) : '>' ∉ n := fun hc =>
    absurd (isContinue_of_isIdentifier hn _ hc) (by decide)
  simp only [returnPart, join_cons, join_nil, append_assoc, append_cancel_left_eq] at h
  obtain ⟨htype, h⟩ :=
    cut_eq_cut (comma_notMem_returnType htypes name) (comma_notMem_returnType htypes' name') h
  obtain ⟨hnames, hrest⟩ := cut_eq_cut (hangle hname) (hangle hname') h
  exact ⟨hnames, htype, hrest⟩

/-- The list of return values up to its end can be read back: the second
character tells whether one more follows. -/
theorem flatMap_returnPart_inj
    (hnames : ∀ n ∈ names, isIdentifier n)
    (hnames' : ∀ n ∈ names', isIdentifier n)
    (h : names.flatMap (" ,".toList ++ p.returnPart types ·) ++ " >".toList =
      names'.flatMap (" ,".toList ++ p.returnPart types' ·) ++ " >".toList) :
    names = names' ∧ ∀ n ∈ names, returnType types n = returnType types' n := by
  induction names generalizing names' with
  | nil =>
    cases names' with
    | nil => exact ⟨rfl, forall_mem_nil _⟩
    | cons name' names' => exact absurd h (by simp)
  | cons name names ih =>
    cases names' with
    | nil => exact absurd h (by simp)
    | cons name' names' =>
      simp only [flatMap_cons, append_assoc, append_cancel_left_eq] at h
      obtain ⟨hname, hnames⟩ := forall_mem_cons.1 hnames
      obtain ⟨hname', hrest'⟩ := forall_mem_cons.1 hnames'
      obtain ⟨rfl, htype, hrest⟩ := p.returnPart_append_inj htypes htypes' hname hname' h
      obtain ⟨rfl, htypes⟩ := ih hnames hrest' hrest
      exact ⟨rfl, forall_mem_cons.2 ⟨htype, htypes⟩⟩

end

/-- Two composite constructs are the same exactly if they have the same names in
order, with the same types. The types are such as documentation text gives. -/
theorem returns_eq_returns_iff (p : Placeholders) (hlength : 2 ≤ names.length) (hlength' : 2 ≤ names'.length)
    (hnames : ∀ n ∈ names, Name.isIdentifier n) (hnames' : ∀ n ∈ names', Name.isIdentifier n)
    (htypes : ∀ q ∈ types, ∃ t rest, DocLine.typeAt? t = some (q.2, rest))
    (htypes' : ∀ q ∈ types', ∃ t rest, DocLine.typeAt? t = some (q.2, rest)) :
    p.returns names types = p.returns names' types' ↔
      names = names' ∧ ∀ n ∈ names, returnType types n = returnType types' n := by
  have hspelled {types : TypeMap} (htypes : ∀ q ∈ types, ∃ t rest, DocLine.typeAt? t = some (q.2, rest)) :
      ∀ q ∈ types, IsSpelled q.2 := fun q hq => by
    obtain ⟨t, rest, hat⟩ := htypes q hq
    exact DocLine.isSpelled_typeAt? hat
  rw [p.returns_composite hlength, p.returns_composite hlength']
  constructor
  · intro h
    have hjoin (types : TypeMap) {names : List Text} (hlength : 2 ≤ names.length) :
        " ,".toList ++ joinWith " ," (names.map (p.returnPart types)) =
        names.flatMap (" ,".toList ++ p.returnPart types ·) := by
      rw [append_joinWith, flatMap_map]
      rintro hnil
      simp [map_eq_nil_iff.1 hnil] at hlength
    simp only [join_cons, join_nil, append_nil, append_cancel_left_eq] at h
    have hlist := congrArg (" ,".toList ++ ·) h
    simp only [← append_assoc, hjoin _ hlength, hjoin _ hlength'] at hlist
    exact p.flatMap_returnPart_inj (hspelled htypes) (hspelled htypes') hnames hnames' hlist
  · rintro ⟨rfl, h⟩
    have hparts : names.map (p.returnPart types) = names.map (p.returnPart types') :=
      map_congr_left fun n hn => by rw [returnPart, returnPart, h n hn]
    rw [hparts]

/-- A type that stands in one map as it is and in the other with dots around it. -/
theorem returns_eq_returns_dots :
    ({} : Placeholders).returns ["a", "b"] [("b", "pkg.T")] = ({} : Placeholders).returns
    ["a", "b"] [("b", "pkg..T."), ("c", "x")] :=
  (returns_eq_returns_iff _ (by decide) (by decide) (by decide) (by decide)
    (by rintro q hq; rw [mem_singleton.1 hq]; exact ⟨"@type pkg.T", [], by decide⟩)
    (by
      intro q hq
      simp only [mem_cons, not_mem_nil, or_false] at hq
      rcases hq with rfl | rfl
      · exact ⟨"@type pkg..T.", [], by decide⟩
      · exact ⟨"@type x", [], by decide⟩)).2 ⟨rfl, by decide⟩

end Placeholders

end ClassdefDoc
