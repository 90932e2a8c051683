import ClassdefDoc.Proofs.File.Trail
import ClassdefDoc.Proofs.Text

/-!
# The last name of a path

Going on from a path with a name adds one part (`parts_join`); going on with `.` adds none
(`parts_join_here`). A path has a last name exactly if its last part is one
(`exists_splitName?`), and a new extension changes that part only (`parts_withExtension`).
-/

namespace ClassdefDoc

open List

namespace Path

variable {a lead n path ext : Text} {part : Part} {ps : List Part}

/-! ## Parts of a path that goes on -/

theorem parts_slash (b : Text) : parts ('/' :: b) = .root :: (Text.split '/' b).filterMap Part.ofText? := rfl

theorem parts_append_slash (ha : a ≠ []) (b : Text) :
    parts (a ++ '/' :: b) = parts a ++ (Text.split '/' b).filterMap Part.ofText? := by
  have hopening : opening (a ++ '/' :: b) = opening a := by
    rw [opening, opening, Text.split_append_sep, head?_append_of_ne_nil _ ha,
      head?_append_of_ne_nil _ (Text.split_ne_nil '/' a)]
  rw [parts_eq, parts_eq, hopening, Text.split_append_sep, filterMap_append, append_assoc]

/-- A slash at the end of a path does not count. -/
theorem parts_concat_slash (ha : a ≠ []) : parts (a ++ ['/']) = parts a := by
  rw [parts_append_slash ha []]
  exact append_nil _

theorem parts_of_notMem (hn : '/' ∉ n) (hpart : Part.ofText? n = some part) : parts n = [part] := by
  have hopening : opening n = [] := by
    have hhead : n.head? ≠ some '/' := fun h => hn (mem_of_mem_head? h)
    rw [opening, if_neg hhead, Text.split_of_notMem hn, if_neg]
    rintro ⟨⟩
    cases hpart
  rw [parts_eq, hopening, Text.split_of_notMem hn, filterMap_cons, hpart]
  rfl

/-- A name behind a path that is empty or ends with a slash is one more part. -/
theorem parts_append_name (hlead : lead.getLast?.all (· == '/')) (hn : '/' ∉ n)
    (hpart : Part.ofText? n = some part) : parts (lead ++ n) = parts lead ++ [part] := by
  rcases eq_nil_or_concat lead with rfl | ⟨a, c, rfl⟩
  · exact parts_of_notMem hn hpart
  · rw [concat_eq_append] at hlead ⊢
    obtain rfl : c = '/' := by simpa using hlead
    have hnames : (Text.split '/' n).filterMap Part.ofText? = [part] := by
      rw [Text.split_of_notMem hn, filterMap_cons, hpart]
      rfl
    rw [append_assoc, singleton_append]
    cases a with
    | nil => rw [nil_append, parts_slash, hnames]; rfl
    | cons d a => rw [parts_append_slash (cons_ne_nil d a), hnames, parts_concat_slash (cons_ne_nil d a)]

theorem parts_join (hn : '/' ∉ n) (hpart : Part.ofText? n = some part) :
    parts (join path n) = parts path ++ [part] := by
  have hhead : n.head? ≠ some '/' := fun h => hn (mem_of_mem_head? h)
  rw [join, if_neg hhead]
  split_ifs with hend
  · exact parts_append_name hend hn hpart
  · have hpath : path ≠ [] := by
      rintro rfl
      exact hend rfl
    rw [append_cons, parts_append_name (by simp) hn hpart, parts_concat_slash hpath]

theorem parts_join_here (hpath : path ≠ []) : parts (join path ".") = parts path := by
  have hhere (a : Text) (ha : a ≠ []) : parts (a ++ "/.".toList) = parts a := by
    rw [show "/.".toList = '/' :: ['.'] from rfl, parts_append_slash ha]
    exact append_nil _
  rw [join, if_neg (by decide)]
  split_ifs with hend
  · obtain ⟨a, c, rfl⟩ := (eq_nil_or_concat path).resolve_left hpath
    rw [concat_eq_append] at hend ⊢
    obtain rfl : c = '/' := by simpa using hend
    rw [append_assoc]
    cases a with
    | nil => rfl
    | cons d a =>
      rw [parts_concat_slash (cons_ne_nil d a)]
      exact hhere _ (cons_ne_nil d a)
  · exact hhere path hpath

/-! ## The last name -/

theorem parts_dropTail (t : Text) :
    parts t.reverse = parts (dropTail t).reverse ∨ (dropTail t = [] ∧ parts t.reverse = [.root]) := by
  fun_induction dropTail t with
  | case1 rest ih =>
    rw [reverse_cons]
    cases rest with
    | nil => exact .inr ⟨rfl, rfl⟩
    | cons c rest => rwa [parts_concat_slash (by simp)]
  | case2 rest ih =>
    rw [reverse_cons, reverse_cons, append_assoc]
    cases rest with
    | nil => exact .inr ⟨rfl, rfl⟩
    | cons c rest =>
      have hdrop : parts ((c :: rest).reverse ++ (['/'] ++ ['.'])) = parts (c :: rest).reverse := by
        rw [singleton_append, parts_append_slash (by simp)]
        exact append_nil _
      rwa [hdrop]
  | case3 => exact .inl rfl

theorem dropTail_ne (t rest : Text) : dropTail t ≠ '/' :: rest ∧ dropTail t ≠ '.' :: '/' :: rest := by
  fun_induction dropTail t with
  | case1 _ ih => exact ih
  | case2 _ ih => exact ih
  | case3 t hslash hhere => exact ⟨fun h => hslash rest h, fun h => hhere rest h⟩

/-- A path without the slashes and points that end it, taken apart before what follows its last slash. -/
theorem exists_lastPiece (path : Text) : ∃ lead n, (dropTail path.reverse).reverse = lead ++ n ∧ '/' ∉ n ∧
    lead.getLast?.all (· == '/') ∧
    splitName? path = if n = [] || n = ".".toList || n = "..".toList then none else some (lead, n) := by
  have hcut := takeWhile_append_dropWhile (p := (· != '/')) (l := dropTail path.reverse)
  refine ⟨((dropTail path.reverse).dropWhile (· != '/')).reverse,
    ((dropTail path.reverse).takeWhile (· != '/')).reverse, ?_, ?_, ?_, rfl⟩
  · rw [← reverse_append, hcut]
  · intro hmem
    simpa using mem_takeWhile_imp (mem_reverse.1 hmem)
  · rw [getLast?_reverse]
    cases hhead : ((dropTail path.reverse).dropWhile (· != '/')).head? with
    | none => rfl
    | some c => simpa using Text.not_of_head?_dropWhile hhead

theorem ofText?_name (h : ¬(n = [] || n = ".".toList || n = "..".toList)) :
    Part.ofText? n = some (.name n) := by
  simp only [Bool.or_eq_true, decide_eq_true_eq, not_or] at h
  rw [Part.ofText?, if_neg (by simpa using h.1), if_neg h.2]

theorem parts_of_splitName? (h : splitName? path = some (lead, n)) : parts path = parts lead ++ [.name n] ∧
    lead.getLast?.all (· == '/') ∧ '/' ∉ n ∧ Part.ofText? n = some (.name n) := by
  obtain ⟨lead', n', hback, hslash, hlead, hsplit⟩ := exists_lastPiece path
  rw [hsplit] at h
  split_ifs at h with hname
  cases h
  have hpart := ofText?_name hname
  have hparts := parts_dropTail path.reverse
  rw [reverse_reverse, hback, parts_append_name hlead hslash hpart] at hparts
  rcases hparts with hparts | ⟨hnil, -⟩
  · exact ⟨hparts, hlead, hslash, hpart⟩
  · rw [hnil] at hback
    obtain ⟨-, rfl⟩ := append_eq_nil_iff.1 hback.symm
    exact absurd rfl hname

/-- Without a last name, a path is empty or ends in a part that is no name. -/
theorem parts_of_splitName?_eq_none (h : splitName? path = none) (ps : List Part) (n : Text) :
    parts path ≠ ps ++ [.name n] := by
  obtain ⟨lead, n', hback, hslash, hlead, hsplit⟩ := exists_lastPiece path
  rw [hsplit] at h
  split_ifs at h with hname
  have hparts := parts_dropTail path.reverse
  rw [reverse_reverse, hback] at hparts
  intro hlast
  rcases hparts with hparts | ⟨-, hparts⟩
  · simp only [Bool.or_eq_true, decide_eq_true_eq] at hname
    have hdrop : dropTail path.reverse = n'.reverse ++ lead.reverse := by
      rw [← reverse_append, ← hback, reverse_reverse]
    -- what precedes an empty piece or a point is empty, because no slash and no `/.` is left at the end
    have hempty (hn : n' = [] ∨ n' = ".".toList) : lead = [] := by
      rcases eq_nil_or_concat lead with rfl | ⟨a, c, rfl⟩
      · rfl
      · rw [concat_eq_append] at hlead hdrop
        obtain rfl : c = '/' := by simpa using hlead
        rw [reverse_append] at hdrop
        rcases hn with rfl | rfl
        · exact absurd hdrop (dropTail_ne _ _).1
        · exact absurd hdrop (dropTail_ne _ _).2
    rw [hparts] at hlast
    rcases hname with (rfl | rfl) | rfl
    · rw [hempty (.inl rfl)] at hlast
      exact absurd hlast.symm (by simp [parts, Text.split, Part.ofText?])
    · rw [hempty (.inr rfl)] at hlast
      cases (append_inj' ((nil_append [Part.here]).trans hlast) rfl).2
    · rw [parts_append_name hlead hslash rfl] at hlast
      cases (append_inj' hlast rfl).2
  · rw [hparts] at hlast
    cases (append_inj' ((nil_append [Part.root]).trans hlast) rfl).2

/-- A path has a last name exactly if its last part is one. -/
theorem exists_splitName? (h : parts path = ps ++ [.name n]) :
    ∃ lead, splitName? path = some (lead, n) ∧ parts lead = ps := by
  cases hsplit : splitName? path with
  | none => exact absurd h (parts_of_splitName?_eq_none hsplit ps n)
  | some p =>
    obtain ⟨lead, n'⟩ := p
    rw [(parts_of_splitName? hsplit).1] at h
    obtain ⟨hlead, hn⟩ := append_inj' h rfl
    cases hn
    exact ⟨lead, rfl, hlead⟩

/-! ## Stems and extensions -/

theorem mem_of_mem_stemOf {c : Char} (h : c ∈ stemOf n) : c ∈ n := by
  unfold stemOf at h
  split at h
  · exact h
  · exact h
  · rename_i point stem _ hdrop
    have hmem : c ∈ n.reverse.dropWhile (· != '.') := by
      rw [hdrop]
      exact mem_cons_of_mem point (mem_reverse.1 h)
    exact mem_reverse.1 ((dropWhile_suffix _).subset hmem)

theorem stemOf_ne_nil (h : n ≠ []) : stemOf n ≠ [] := by
  unfold stemOf
  split
  · exact h
  · exact h
  · rename_i hstem _
    simpa using hstem

/-- A name has no extension if no point follows its first character. -/
theorem stemOf_of_notMem (h : '.' ∉ n.tail) : stemOf n = n := by
  unfold stemOf
  cases n with
  | nil => rfl
  | cons c t =>
    have ht : ∀ d ∈ t.reverse, (d != '.') := by
      intro d hd
      rw [bne_iff_ne]
      rintro rfl
      exact h (mem_reverse.1 hd)
    rw [reverse_cons, dropWhile_append_of_pos ht]
    by_cases hc : c = '.'
    · subst hc
      rfl
    · rw [dropWhile_cons_of_pos (by simpa using hc)]
      rfl

/-- Extensions of outputs have no slash and no point. -/
structure IsExtension (ext : Text) : Prop where
  ne_nil : ext ≠ []
  slash_notMem : '/' ∉ ext
  point_notMem : '.' ∉ ext

theorem IsExtension.ofText? (h : IsExtension ext) (stem : Text) :
    Part.ofText? (stem ++ '.' :: ext) = some (.name (stem ++ '.' :: ext)) := by
  have hlast : (stem ++ '.' :: ext).getLast? ≠ some '.' := by
    rw [getLast?_append_of_ne_nil _ (cons_ne_nil _ _), getLast?_cons_of_ne_nil h.ne_nil]
    exact fun hpoint => h.point_notMem (mem_of_getLast? hpoint)
  apply ofText?_name
  simp only [Bool.or_eq_true, decide_eq_true_eq, not_or]
  refine ⟨⟨by simp, ?_⟩, ?_⟩
  · intro hdot
    exact hlast (by rw [hdot]; rfl)
  · intro hdots
    exact hlast (by rw [hdots]; rfl)

/-- A new extension changes the last name only. -/
theorem parts_withExtension (hext : IsExtension ext) (h : parts path = ps ++ [.name n]) :
    parts (withExtension path ext) = ps ++ [.name (stemOf n ++ '.' :: ext)] := by
  obtain ⟨lead, hsplit, rfl⟩ := exists_splitName? h
  obtain ⟨-, hlead, hslash, -⟩ := parts_of_splitName? hsplit
  have hstem : '/' ∉ stemOf n ++ '.' :: ext := by
    simp only [mem_append, mem_cons, not_or]
    exact ⟨fun hmem => hslash (mem_of_mem_stemOf hmem), by decide, hext.slash_notMem⟩
  have hnonempty : ext.isEmpty = false := by simpa using hext.ne_nil
  have hpath : withExtension path ext = lead ++ (stemOf n ++ '.' :: ext) := by
    simp [withExtension, hsplit, hnonempty]
  rw [hpath, parts_append_name hlead hstem (hext.ofText? _)]

theorem withExtension_of_parts (h : ∀ ps n, parts path ≠ ps ++ [.name n]) :
    withExtension path ext = path := by
  unfold withExtension
  split
  · rfl
  · rename_i hsplit
    exact absurd (parts_of_splitName? hsplit).1 (h _ _)

/-- The stem of a path is that of its last part. -/
theorem parts_of_stem? {stem : Text} (h : stem? path = some stem) :
    ∃ ps n, parts path = ps ++ [.name n] ∧ stem = stemOf n ∧ n ≠ [] ∧ '/' ∉ n := by
  obtain ⟨⟨lead, n⟩, hsplit, rfl⟩ := Option.map_eq_some_iff.1 h
  obtain ⟨hparts, -, hslash, hpart⟩ := parts_of_splitName? hsplit
  refine ⟨parts lead, n, hparts, rfl, ?_, hslash⟩
  rintro rfl
  cases hpart

theorem slash_notMem_of_name (h : .name n ∈ parts path) : '/' ∉ n := by
  have hmem : Part.name n ∈ (Text.split '/' path).filterMap Part.ofText? := by
    rw [parts_eq] at h
    rcases opening_cases path with hlead | hlead | hlead <;> simpa [hlead] using h
  have hpiece : n ∈ (Text.split '/' path).filter Location.moves := by
    rw [← Part.map_text_filterMap]
    exact mem_map_of_mem (f := Part.text) hmem
  exact Text.notMem_of_mem_split (mem_of_mem_filter hpiece)

end Path

end ClassdefDoc
