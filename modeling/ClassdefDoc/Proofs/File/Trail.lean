import ClassdefDoc.File.Tree
import Mathlib.Tactic

/-!
# Where paths lead

Names lead from a location to another one, their `target`, through the locations they are looked up in, their
`steps`; none of this depends on what a file tree holds. A tree decides only whether the steps can be taken:
`walk_eq_ok` and `walk_congr` say that it does so by what stands at them. The names of a path are those of the
directory it lies in and one more, apart from names that lead nowhere (`Path.exists_last`).
-/

namespace ClassdefDoc

open List FileTree

namespace Location

/-- The location that a name leads to. -/
def next (l : Location) (name : Text) : Location :=
  if name = [] || name = ".".toList then l
  else if name = "..".toList then l.dropLast
  else l ++ [name]

def target (l : Location) (names : List Text) : Location := names.foldl next l

/-- The locations that names are looked up in. -/
def steps (l : Location) : List Text → List Location
  | [] => []
  | name :: names => l :: steps (next l name) names

/-- The locations that names lead through and the one they lead to. -/
def trail (l : Location) (names : List Text) : List Location := steps l names ++ [target l names]

/-- The locations that names go up from. -/
def rises (l : Location) : List Text → List Location
  | [] => []
  | name :: names =>
    (if name = "..".toList then [l] else []) ++ rises (next l name) names

variable {l v : Location} {name : Text} {names : List Text}

theorem next_of_name (hname : name ≠ []) (hdots : isDots name = false) (l : Location) :
    next l name = l ++ [name] := by
  rw [isDots, Bool.or_eq_false_iff, decide_eq_false_iff_not, decide_eq_false_iff_not] at hdots
  rw [next, if_neg (by simpa using ⟨hname, hdots.1⟩), if_neg hdots.2]

section

variable (l : Location) (name : Text) (names names' : List Text)

theorem target_cons : target l (name :: names) = target (next l name) names := rfl

theorem target_append : target l (names ++ names') = target (target l names) names' :=
  foldl_append

theorem trail_cons : trail l (name :: names) = l :: trail (next l name) names := rfl

theorem rises_append : rises l (names ++ names') = rises l names ++ rises (target l names) names' := by
  induction names generalizing l with
  | nil => rfl
  | cons name names ih => simp only [cons_append, rises, ih, target_cons, append_assoc]

theorem rises_cons : rises l (name :: names) = rises l [name] ++ rises (next l name) names :=
  rises_append l [name] names

theorem mem_trail_start : l ∈ trail l names := by
  cases names <;> simp [trail, steps, target]

/-- One more name is looked up at the end of the trail. -/
theorem steps_concat : steps l (names ++ [name]) = trail l names := by
  induction names generalizing l with
  | nil => rfl
  | cons first names ih => rw [cons_append, steps, ih]; rfl

end

theorem mem_trail_concat : v ∈ trail l (names ++ [name]) ↔
    v ∈ trail l names ∨ v = target l (names ++ [name]) := by
  rw [trail, steps_concat, mem_append, mem_singleton]

theorem mem_trail_of_mem_rises (h : v ∈ rises l names) : v ∈ trail l names := by
  induction names generalizing l with
  | nil => cases h
  | cons name names ih =>
    rcases mem_append.1 h with h | h
    · split at h
      · rw [mem_singleton.1 h]
        exact mem_trail_start _ _
      · cases h
    · exact mem_cons_of_mem l (ih h)

theorem mem_trail_append {names' : List Text} (h : v ∈ trail l names) : v ∈ trail l (names ++ names') := by
  induction names generalizing l with
  | nil =>
    rw [mem_singleton.1 h]
    exact mem_trail_start l names'
  | cons name names ih =>
    rw [cons_append, trail_cons]
    exact (mem_cons.1 h).elim (fun heq => heq ▸ mem_cons_self) fun h => mem_cons_of_mem l (ih h)

/-- Each location of a trail is the target of some of the names. -/
theorem exists_of_mem_trail (h : v ∈ trail l names) :
    ∃ first rest, names = first ++ rest ∧ v = target l first := by
  induction names generalizing l with
  | nil => exact ⟨[], [], rfl, mem_singleton.1 h⟩
  | cons name names ih =>
    rcases mem_cons.1 h with rfl | h
    · exact ⟨[], name :: names, rfl, rfl⟩
    · obtain ⟨first, rest, rfl, rfl⟩ := ih h
      exact ⟨name :: first, rest, rfl, rfl⟩

/-! ## Names that lead nowhere -/

/-- Whether a name leads somewhere else. -/
def moves (name : Text) : Bool := !(name = [] || name = ".".toList)

/-- A step stays where it is, goes up or goes down. -/
theorem next_cases (l : Location) (name : Text) : (moves name = false ∧ next l name = l) ∨
    (l ∈ rises l [name] ∧ next l name = l.dropLast) ∨ (isDots name = false ∧ next l name = l ++ [name]) := by
  rw [next]
  split_ifs with hstay hup
  · exact .inl ⟨by rw [moves, hstay]; rfl, rfl⟩
  · exact .inr (.inl ⟨by simp [rises, hup], rfl⟩)
  · simp only [Bool.or_eq_true, decide_eq_true_eq, not_or] at hstay
    exact .inr (.inr ⟨by simp only [isDots, hstay.2, hup, decide_false, Bool.or_self], rfl⟩)

theorem next_of_not_moves (h : moves name = false) (l : Location) : next l name = l := by
  rw [moves, Bool.not_eq_false'] at h
  rw [next, if_pos h]

theorem target_filter (l : Location) (names : List Text) :
    target l (names.filter moves) = target l names := by
  induction names generalizing l with
  | nil => rfl
  | cons name names ih =>
    cases h : moves name with
    | true => rw [filter_cons_of_pos h, target_cons, target_cons, ih]
    | false => rw [filter_cons_of_neg (by simp [h]), target_cons, next_of_not_moves h, ih]

theorem target_of_empty (l : Location) (h : ∀ name ∈ names, name = []) : target l names = l := by
  induction names with
  | nil => rfl
  | cons name names ih =>
    obtain ⟨rfl, hrest⟩ := forall_mem_cons.1 h
    exact ih hrest

theorem mem_trail_filter (names : List Text) : v ∈ trail l (names.filter moves) ↔ v ∈ trail l names := by
  induction names generalizing l with
  | nil => rfl
  | cons name names ih =>
    cases h : moves name with
    | true => rw [filter_cons_of_pos h, trail_cons, trail_cons, mem_cons, mem_cons, ih]
    | false =>
      rw [filter_cons_of_neg (by simp [h]), trail_cons, next_of_not_moves h, mem_cons, ih]
      exact ⟨.inr, fun hv => hv.elim (fun heq => heq ▸ mem_trail_start _ _) id⟩

theorem rises_filter (l : Location) (names : List Text) : rises l (names.filter moves) = rises l names := by
  induction names generalizing l with
  | nil => rfl
  | cons name names ih =>
    cases h : moves name with
    | true => rw [filter_cons_of_pos h, rises, rises, ih]
    | false =>
      have hup : name ≠ "..".toList := by
        rintro rfl
        exact absurd h (by decide)
      rw [filter_cons_of_neg (by simp [h]), rises, next_of_not_moves h, if_neg hup, nil_append, ih]

end Location

/-! ## Paths -/

namespace Path

variable {home v : Location} {path : Text}

/-- The location that a path leads to from the working directory `home`. -/
def location (home : Location) (path : Text) : Location :=
  Location.target (start home path) (Text.split '/' path)

/-- The locations that a path leads through and the one it leads to. -/
def trail (home : Location) (path : Text) : List Location :=
  Location.trail (start home path) (Text.split '/' path)

/-- The locations that a path goes up from. -/
def rises (home : Location) (path : Text) : List Location :=
  Location.rises (start home path) (Text.split '/' path)

theorem location_mem_trail (home : Location) (path : Text) : location home path ∈ trail home path :=
  mem_append_right _ (mem_singleton_self _)

theorem Part.map_text_filterMap (names : List Text) :
    (names.filterMap Part.ofText?).map Part.text = names.filter Location.moves := by
  induction names with
  | nil => rfl
  | cons name names ih =>
    rw [filterMap_cons, filter_cons, Part.ofText?, Location.moves]
    split_ifs with hstay hup <;> simp_all [Part.text]

theorem Part.ofText?_ne_root {names : List Text} {p : Part} (h : p ∈ names.filterMap Part.ofText?) :
    (p != .root) := by
  obtain ⟨name, -, hp⟩ := mem_filterMap.1 h
  rw [Part.ofText?] at hp
  split_ifs at hp <;> cases hp <;> rfl

/-- What a path starts with before its names. -/
def opening (path : Text) : List Part :=
  if path.head? = some '/' then [.root]
  else if (Text.split '/' path).head? = some ".".toList then [.here] else []

/-- The parts of a path are its names that count, and what it starts with. -/
theorem parts_eq (path : Text) :
    parts path = opening path ++ (Text.split '/' path).filterMap Part.ofText? := by
  rw [parts.eq_def, opening]
  split
  · rfl
  · rename_i hpath
    rw [if_neg fun h => hpath _ (head?_eq_some_iff.1 h).choose_spec]
    split
    · rename_i hsplit
      simp only [hsplit, head?_cons, Option.some_inj]
      split_ifs with hhere
      · rw [hhere]
        rfl
      · rw [filterMap_cons]
        cases Part.ofText? _ <;> rfl
    · rename_i hsplit
      rw [hsplit]
      rfl

theorem opening_cases (path : Text) :
    opening path = [] ∨ opening path = [.root] ∨ opening path = [.here] := by
  rw [opening]
  split_ifs <;> simp

/-- The names of a path are those of the directory it lies in and one more, names that lead nowhere apart. -/
theorem exists_last (path : Text) : ∃ last : Option Text, (Text.split '/' path).filter Location.moves =
    (parentNames path).reverse.filter Location.moves ++ last.toList ∧
      (last = none → (parentNames path).reverse.filter Location.moves = []) := by
  rw [parentNames, reverse_reverse, parts_eq, ← Part.map_text_filterMap]
  have hroot (p : Part) (hp : p ∈ (Text.split '/' path).filterMap Part.ofText?) : (p != .root) :=
    Part.ofText?_ne_root hp
  have hmoves (p : Part) (hp : p ∈ (Text.split '/' path).filterMap Part.ofText?) : Location.moves p.text := by
    have hmem := mem_map_of_mem (f := Part.text) hp
    rw [Part.map_text_filterMap] at hmem
    exact (mem_filter.1 hmem).2
  rcases eq_nil_or_concat' ((Text.split '/' path).filterMap Part.ofText?) with hnone | ⟨ps, p, hsome⟩
  · rw [hnone]
    refine ⟨none, ?_⟩
    rcases opening_cases path with hlead | hlead | hlead <;> rw [hlead] <;> exact ⟨rfl, fun _ => rfl⟩
  · rw [hsome] at hroot hmoves ⊢
    refine ⟨some p.text, ?_, (by rintro ⟨⟩)⟩
    have hself : ((ps.filter (· != .root)).map Part.text).filter Location.moves = ps.map Part.text := by
      rw [filter_eq_self.2 fun q hq => hroot q (mem_append_left _ hq), filter_eq_self]
      intro name hname
      obtain ⟨q, hq, rfl⟩ := mem_map.1 hname
      exact hmoves q (mem_append_left _ hq)
    rw [← append_assoc, dropLast_concat, map_append]
    refine congrArg (· ++ _) ?_
    rcases opening_cases path with hlead | hlead | hlead <;> rw [hlead] <;> exact hself.symm

/-- The location of the directory that a path lies in. -/
def parent (home : Location) (path : Text) : Location :=
  Location.target (start home path) (parentNames path).reverse

/-- The locations that lead to the directory that a path lies in. -/
def above (home : Location) (path : Text) : List Location :=
  Location.trail (start home path) (parentNames path).reverse

theorem mem_rises_of_parent (h : v ∈ Location.rises (start home path) (parentNames path).reverse) :
    v ∈ rises home path := by
  obtain ⟨last, hlast, -⟩ := exists_last path
  rw [rises, ← Location.rises_filter, hlast, Location.rises_append, Location.rises_filter]
  exact mem_append_left _ h

theorem mem_trail_iff : v ∈ trail home path ↔ v ∈ above home path ∨ v = location home path := by
  obtain ⟨last, hlast, -⟩ := exists_last path
  rw [trail, ← Location.mem_trail_filter, location, ← Location.target_filter, above,
    ← Location.mem_trail_filter (parentNames path).reverse, hlast]
  cases last with
  | none =>
    simp only [Option.toList_none, append_nil, iff_self_or]
    rintro rfl
    exact mem_append_right _ (mem_singleton_self _)
  | some name => exact Location.mem_trail_concat

/-- A path leads to where it starts, up from its directory or to a name in it. -/
theorem location_cases (home : Location) (path : Text) : location home path = start home path ∨
    (parent home path ∈ rises home path ∧ location home path = (parent home path).dropLast) ∨
    ∃ name, location home path = parent home path ++ [name] := by
  obtain ⟨last, hlast, hnone⟩ := exists_last path
  have htarget : Location.target (start home path) ((parentNames path).reverse.filter Location.moves) =
      parent home path := Location.target_filter _ _
  rw [location, ← Location.target_filter, rises, ← Location.rises_filter, hlast, Location.target_append,
    Location.rises_append, htarget]
  cases last with
  | none =>
    rw [hnone rfl] at htarget
    exact .inl htarget.symm
  | some name =>
    rcases Location.next_cases (parent home path) name with ⟨hstay, -⟩ | ⟨hrise, h⟩ | ⟨-, h⟩
    · have hmem : name ∈ (Text.split '/' path).filter Location.moves := by simp [hlast]
      cases hstay.symm.trans (mem_filter.1 hmem).2
    · exact .inr (.inl ⟨mem_append_right _ hrise, h⟩)
    · exact .inr (.inr ⟨name, h⟩)

end Path

/-! ## Walking -/

namespace FileTree

open Location (next target steps)

variable {t t' : FileTree} {l : Location} {names : List Text}

theorem enter_eq (t : FileTree) (l : Location) (name : Text) :
    t.enter l name = match t.find? l with
      | none => .error .missing
      | some (.file _) => .error .notDirectory
      | some .dir => .ok (next l name) := by
  rw [enter]
  split <;> simp only [Location.next, *]
  split_ifs <;> rfl

theorem walk_cons (t : FileTree) (l : Location) (name : Text) (names : List Text) :
    t.walk l (name :: names) = match t.find? l with
      | none => .error .missing
      | some (.file _) => .error .notDirectory
      | some .dir => t.walk (next l name) names := by
  rw [walk, foldlM_cons, enter_eq]
  split <;> rfl

/-- Names lead to their target if and only if all steps can be taken. -/
theorem walk_eq_ok_iff {l' : Location} : t.walk l names = .ok l' ↔
    l' = target l names ∧ ∀ v ∈ steps l names, t.find? v = some .dir := by
  induction names generalizing l with
  | nil => simp [walk, target, steps, pure, Except.pure, eq_comm]
  | cons name names ih =>
    rw [walk_cons, steps, forall_mem_cons]
    split
    · simp [*]
    · simp [*]
    · simp [*, target]

theorem walk_eq_ok (h : ∀ v ∈ steps l names, t.find? v = some .dir) : t.walk l names = .ok (target l names) :=
  walk_eq_ok_iff.2 ⟨rfl, h⟩

theorem walk_congr (h : ∀ v ∈ steps l names, t.find? v = t'.find? v) : t.walk l names = t'.walk l names := by
  induction names generalizing l with
  | nil => rfl
  | cons name names ih =>
    rw [walk_cons, walk_cons, h l mem_cons_self, ih fun v hv => h v (mem_cons_of_mem l hv)]

theorem walk_missing (h : ∀ v ∈ steps l names, t.find? v = some .dir ∨ t.find? v = none)
    (hmissing : ∃ v ∈ steps l names, t.find? v = none) : t.walk l names = .error .missing := by
  induction names generalizing l with
  | nil => simp [steps] at hmissing
  | cons name names ih =>
    rw [walk_cons]
    rcases h l mem_cons_self with hl | hl
    · rw [hl]
      refine ih (fun v hv => h v (mem_cons_of_mem l hv)) ?_
      obtain ⟨v, hv, hnone⟩ := hmissing
      rcases mem_cons.1 hv with rfl | hv
      · cases hl.symm.trans hnone
      · exact ⟨v, hv, hnone⟩
    · rw [hl]

end FileTree

end ClassdefDoc
