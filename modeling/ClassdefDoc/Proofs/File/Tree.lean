import ClassdefDoc.Proofs.File.Trail
import Mathlib.Data.List.TakeWhile

/-!
# Reading and writing in a file tree

In a closed tree the locations above a file or directory are directories. Names that go up only from
what the tree holds (`Grounded`) do not come back from where it holds nothing (`none_of_trail`). So
making directories fails exactly if a file is in the way (`makeDirs_ok` and `makeDirs_error`), and a
write changes nothing but the directories on the way to its path and the file it leads to
(`write_effect`). Writes whose paths do not lead to or through each other give the same result in any
order (`write_congr`), and a read does not see a write that its path does not lead to (`read_congr`).
-/

namespace ClassdefDoc

open List
open Location
    (steps_concat target_append target_cons rises rises_append rises_cons mem_trail_start mem_trail_concat)
open ClassdefDoc.Path (location start above parent)

namespace FileTree

open Location (next target steps trail)

variable {t t' : FileTree} {l v w : Location} {n : Node} {name : Text}
  {names : List Text} {vs : List Location}

/-! ## Finding -/

@[simp] theorem find?_root (t : FileTree) : t.find? [] = some .dir := rfl

theorem lookup_filter_ne (entries : List (Location × Node)) (h : v ≠ l) :
    (entries.filter (·.1 != l)).lookup v = entries.lookup v := by
  induction entries with
  | nil => rfl
  | cons e entries ih =>
    obtain ⟨w, n⟩ := e
    by_cases hw : w = l
    · rw [filter_cons_of_neg (by simp [hw]), ih, lookup_cons, hw, beq_false_of_ne h]
    · rw [filter_cons_of_pos (by simpa using hw), lookup_cons, lookup_cons, ih]

theorem find?_insert_self (t : FileTree) (hl : l ≠ []) (n : Node) : (t.insert l n).find? l = some n := by
  simp [find?, insert, hl]

theorem find?_insert_ne (t : FileTree) (n : Node) (h : v ≠ l) : (t.insert l n).find? v = t.find? v := by
  simp only [find?, insert, remove, lookup_cons, beq_false_of_ne h, lookup_filter_ne _ h]

/-! ## Closed trees -/

/-- The locations above what is found are directories, and so is the working directory. -/
structure Closed (t : FileTree) : Prop where
  above : ∀ v w, v <+: w → v ≠ w → t.find? w ≠ none → t.find? v = some .dir
  home : t.find? t.home = some .dir

theorem closed_of_entries (h : ∀ e ∈ t.entries, ∀ k < e.1.length, t.find? (e.1.take k) = some .dir)
    (hhome : t.find? t.home = some .dir) : t.Closed := by
  refine ⟨fun v w hvw hne hw => ?_, hhome⟩
  have hlength : v.length < w.length :=
    lt_of_le_of_ne hvw.length_le fun heq => hne (hvw.eq_of_length heq)
  rw [prefix_iff_eq_take.1 hvw]
  by_cases hroot : w = []
  · rw [hroot] at hlength
    cases hlength
  · rw [find?, if_neg (by simpa using hroot)] at hw
    obtain ⟨e, he, hkey⟩ : ∃ e ∈ t.entries, w = e.1 := by
      simpa [lookup_eq_none_iff] using hw
    rw [hkey] at hlength ⊢
    exact h e he _ hlength

namespace Closed

theorem find?_start (ht : t.Closed) (path : Text) : t.find? (start t.home path) = some .dir := by
  rw [start]
  split_ifs
  · rfl
  · exact ht.home

/-- Something new in a directory. -/
theorem insert (ht : t.Closed) (hl : t.find? l = some .dir)
    (hn : n = .dir ∨ t.find? (l ++ [name]) ≠ some .dir) : (t.insert (l ++ [name]) n).Closed := by
  have hkeep (v : Location) (hv : t.find? v = some .dir) :
      (t.insert (l ++ [name]) n).find? v = some .dir := by
    by_cases hvl : v = l ++ [name]
    · subst hvl
      rw [find?_insert_self t (by simp)]
      exact congrArg some (hn.resolve_right fun h => h hv)
    · rw [find?_insert_ne t n hvl, hv]
  refine ⟨fun v w hvw hne hw => hkeep v ?_, hkeep _ ht.home⟩
  by_cases hwl : w = l ++ [name]
  · subst hwl
    have hv : v <+: l := (prefix_concat_iff.1 hvw).resolve_left hne
    by_cases hvl : v = l
    · rw [hvl, hl]
    · exact ht.above v l hv hvl (by rw [hl]; rintro ⟨⟩)
  · rw [find?_insert_ne t n hwl] at hw
    exact ht.above v w hvw hne hw

/-- What stands below a missing location is missing. -/
theorem none_of_isPrefix (ht : t.Closed) (hvw : v <+: w) (hv : t.find? v = none) : t.find? w = none := by
  by_contra hw
  by_cases hne : v = w
  · exact hw (hne ▸ hv)
  · cases hv.symm.trans (ht.above v w hvw hne hw)

theorem dropLast (ht : t.Closed) (hl : t.find? l = some .dir) : t.find? l.dropLast = some .dir := by
  by_cases hne : l.dropLast = l
  · rw [hne, hl]
  · have habove := dropLast_prefix l
    exact ht.above _ _ habove hne (by rw [hl]; rintro ⟨⟩)

end Closed

/-! ## Names that go up from what is found -/

/-- Names go up only from where something is found. -/
def Grounded (t : FileTree) (l : Location) (names : List Text) : Prop := ∀ v ∈ rises l names, t.find? v ≠ none

theorem Grounded.of_append {names' : List Text} (h : t.Grounded l (names ++ names')) :
    t.Grounded l names ∧ t.Grounded (target l names) names' := by
  rw [Grounded, rises_append] at h
  exact ⟨fun v hv => h v (mem_append_left _ hv), fun v hv => h v (mem_append_right _ hv)⟩

/-- From where nothing is found such names go down, and come to nothing. -/
theorem isPrefix_target (ht : t.Closed) (h : t.Grounded l names) (hl : t.find? l = none) :
    l <+: target l names := by
  induction names generalizing l with
  | nil => exact prefix_rfl
  | cons name names ih =>
    have hnext : l <+: next l name := by
      rcases Location.next_cases l name with ⟨-, heq⟩ | ⟨hrise, -⟩ | ⟨-, heq⟩
      · rw [heq]
      · refine absurd hl (h l ?_)
        rw [rises_cons]
        exact mem_append_left _ hrise
      · rw [heq]
        exact prefix_append l [name]
    exact hnext.trans (ih (fun v hv => h v (mem_append_right _ hv)) (ht.none_of_isPrefix hnext hl))

theorem isPrefix_of_missing (ht : t.Closed) (h : t.Grounded l names) (hv : v ∈ trail l names)
    (hnone : t.find? v = none) : v <+: target l names := by
  obtain ⟨first, rest, rfl, rfl⟩ := Location.exists_of_mem_trail hv
  rw [target_append]
  exact isPrefix_target ht h.of_append.2 hnone

theorem none_of_missing (ht : t.Closed) (h : t.Grounded l names) (hv : v ∈ trail l names)
    (hnone : t.find? v = none) : t.find? (target l names) = none :=
  ht.none_of_isPrefix (isPrefix_of_missing ht h hv hnone) hnone

/-- A file stands at one of the locations. -/
def Blocked (t : FileTree) (vs : List Location) : Prop :=
  ∃ v ∈ vs, ∃ content, t.find? v = some (.file content)

theorem dir_or_none_of_not_blocked (h : ¬t.Blocked vs) (hv : v ∈ vs) :
    t.find? v = some .dir ∨ t.find? v = none := by
  cases hfind : t.find? v with
  | none => exact .inr rfl
  | some n =>
    cases n with
    | dir => exact .inl rfl
    | file content => exact absurd ⟨v, hv, content, hfind⟩ h

/-- Up to a file there are directories. -/
theorem walk_notDirectory (ht : t.Closed) (h : t.Grounded l names) (hblocked : t.Blocked (steps l names)) :
    t.walk l names = .error .notDirectory := by
  obtain ⟨v, hv, content, hfile⟩ := hblocked
  induction names generalizing l with
  | nil => cases hv
  | cons name names ih =>
    rw [walk_cons]
    split
    · rename_i hl
      obtain ⟨first, rest, hnames, rfl⟩ := Location.exists_of_mem_trail (mem_append_left _ hv)
      rw [hnames] at h
      cases (none_of_missing ht h.of_append.1 (mem_trail_start _ _) hl).symm.trans hfile
    · rfl
    · rename_i hl
      refine ih (fun v hv => h v (mem_append_right _ hv)) ((mem_cons.1 hv).resolve_left ?_)
      rintro rfl
      cases hl.symm.trans hfile

/-! ## Making directories -/

/-- One attempt to make a directory whose parent has the names `above`, last name first. -/
def settle (l : Location) (above : List Text) (name : Text) : StateM FileTree (Except FileError Unit) := do
  let t ← get
  match t.makeDir l above.reverse name with
  | .ok t => set t; pure (.ok ())
  | .error .exists => pure (if t.isDir l (name :: above).reverse then .ok () else .error .exists)
  | .error e => pure (.error e)

theorem makeDirs_cons (l : Location) (name : Text) (above : List Text) :
    makeDirs l (name :: above) = (do
      match ← settle l above name with
      | .error .missing =>
        match ← makeDirs l above with
        | .ok _ => settle l above name
        | .error e => pure (.error e)
      | done => pure done) :=
  rfl

variable {above : List Text} {t₁ t₂ : FileTree}

theorem makeDirs_of_settle {r : Except FileError Unit} (h : (settle l above name).run t = (r, t₁))
    (hr : r ≠ .error .missing) : (makeDirs l (name :: above)).run t = (r, t₁) := by
  rw [makeDirs_cons, StateT.run_bind, h]
  rcases r with ⟨_ | _⟩ | _ <;> first | rfl | exact absurd rfl hr

theorem makeDirs_of_missing (h : (settle l above name).run t = (.error .missing, t₁))
    (habove : (makeDirs l above).run t₁ = (.ok (), t₂)) :
    (makeDirs l (name :: above)).run t = (settle l above name).run t₂ := by
  rw [makeDirs_cons, StateT.run_bind, h]
  show ((makeDirs l above >>= _ : StateM FileTree (Except FileError Unit))).run t₁ = _
  rw [StateT.run_bind, habove]
  rfl

theorem makeDir_eq (t : FileTree) (l : Location) (parent : List Text) (name : Text) :
    t.makeDir l parent name = t.walk l (parent ++ [name]) >>= fun v =>
      if isDots name || (t.find? v).isSome then .error .exists else .ok (t.insert v .dir) := by
  simp only [makeDir, walk, foldlM_append, foldlM_cons, foldlM_nil, bind_assoc, bind_pure]

theorem settle_run (l : Location) (above : List Text) (name : Text) (t : FileTree) :
    (settle l above name).run t = match t.makeDir l above.reverse name with
      | .ok t₁ => (.ok (), t₁)
      | .error .exists => (if t.isDir l (above.reverse ++ [name]) then .ok () else .error .exists, t)
      | .error e => (.error e, t) := by
  rw [settle, StateT.run_bind, reverse_cons]
  show StateT.run (match t.makeDir l above.reverse name with
    | .ok t => _
    | .error .exists => _
    | .error e => _) t = _
  rcases t.makeDir l above.reverse name with ⟨_ | _⟩ | _ <;> rfl

/-- The directories above exist. -/
theorem settle_eq (name : Text) (ht : t.Closed) (hdirs : ∀ v ∈ trail l above.reverse, t.find? v = some .dir) :
    match t.find? (target l (above.reverse ++ [name])) with
    | some (.file _) => (settle l above name).run t = (.error .exists, t)
    | some .dir => (settle l above name).run t = (.ok (), t)
    | none => target l (above.reverse ++ [name]) = target l above.reverse ++ [name] ∧
      (settle l above name).run t = (.ok (), t.insert (target l (above.reverse ++ [name])) .dir) := by
  have hlast : t.find? (target l above.reverse) = some .dir :=
    hdirs _ (mem_append_right _ (mem_singleton_self _))
  have hcases : t.find? (target l (above.reverse ++ [name])) = some .dir ∨
      (isDots name = false ∧ target l (above.reverse ++ [name]) = target l above.reverse ++ [name]) := by
    rw [target_append, target_cons, target, foldl_nil]
    rcases Location.next_cases (target l above.reverse) name with ⟨-, heq⟩ | ⟨-, heq⟩ | hname
    · rw [heq]
      exact .inl hlast
    · rw [heq]
      exact .inl (ht.dropLast hlast)
    · exact .inr hname
  have hwalk : t.walk l (above.reverse ++ [name]) = .ok (target l (above.reverse ++ [name])) :=
    walk_eq_ok (by rwa [steps_concat])
  have hmake : t.makeDir l above.reverse name =
      if isDots name || (t.find? (target l (above.reverse ++ [name]))).isSome then .error .exists
      else .ok (t.insert (target l (above.reverse ++ [name])) .dir) := by
    rw [makeDir_eq, hwalk]
    rfl
  have hisDir : t.isDir l (above.reverse ++ [name]) =
      (t.find? (target l (above.reverse ++ [name])) == some .dir) := by
    rw [isDir, hwalk]
  rw [settle_run, hmake, hisDir]
  split
  · rename_i hfile
    rw [hfile, Option.isSome_some, Bool.or_true, if_pos rfl]
    rfl
  · rename_i hdir
    rw [hdir, Option.isSome_some, Bool.or_true, if_pos rfl]
    rfl
  · rename_i hnone
    obtain ⟨hdots, heq⟩ := hcases.resolve_left (by rw [hnone]; rintro ⟨⟩)
    rw [hdots, hnone, Option.isSome_none, Bool.or_self, if_neg Bool.false_ne_true]
    exact ⟨heq, rfl⟩

/-- The tree has directories at the locations `vs`, and is `t` elsewhere. -/
structure HasDirs (t : FileTree) (vs : List Location) (t₁ : FileTree) : Prop where
  closed : t₁.Closed
  home : t₁.home = t.home
  dirs : ∀ v ∈ vs, t₁.find? v = some .dir
  elsewhere : ∀ v, v ∉ vs → t₁.find? v = t.find? v

/-- One more directory. -/
theorem HasDirs.settle (h : t.HasDirs (trail l above.reverse) t₁)
    (hclear : ¬t.Blocked (trail l (above.reverse ++ [name]))) :
    ∃ t₂, (FileTree.settle l above name).run t₁ = (.ok (), t₂) ∧
      t.HasDirs (trail l (above.reverse ++ [name])) t₂ := by
  have hsettle := settle_eq name h.closed h.dirs
  have hnew (t₂ : FileTree) (hclosed : t₂.Closed) (hhome : t₂.home = t₁.home)
      (hdir : t₂.find? (target l (above.reverse ++ [name])) = some .dir)
      (hsame : ∀ v ≠ target l (above.reverse ++ [name]), t₂.find? v = t₁.find? v) :
      t.HasDirs (trail l (above.reverse ++ [name])) t₂ := by
    refine ⟨hclosed, hhome.trans h.home, fun v hv => ?_, fun v hv => ?_⟩
    · by_cases hlast : v = target l (above.reverse ++ [name])
      · rw [hlast, hdir]
      · rw [hsame v hlast, h.dirs v ((mem_trail_concat.1 hv).resolve_right hlast)]
    · rw [mem_trail_concat, not_or] at hv
      rw [hsame v hv.2, h.elsewhere v hv.1]
  split at hsettle
  · rename_i content hfile
    by_cases hmem : target l (above.reverse ++ [name]) ∈ trail l above.reverse
    · cases (h.dirs _ hmem).symm.trans hfile
    · rw [h.elsewhere _ hmem] at hfile
      exact absurd ⟨_, mem_append_right _ (mem_singleton_self _), content, hfile⟩ hclear
  · rename_i hdir
    exact ⟨t₁, hsettle, hnew t₁ h.closed rfl hdir fun _ _ => rfl⟩
  · obtain ⟨heq, hrun⟩ := hsettle
    have hlast := h.dirs _ (mem_append_right _ (mem_singleton_self (target l above.reverse)))
    rw [heq] at hrun hnew
    refine ⟨_, hrun,
      hnew _ (h.closed.insert hlast (.inl rfl)) rfl (find?_insert_self _ (by simp) _) fun v hv => ?_⟩
    exact find?_insert_ne _ _ hv

theorem makeDirs_ok (ht : t.Closed) (hl : t.find? l = some .dir)
    (hclear : ¬t.Blocked (trail l names.reverse)) :
    ∃ t₁, (makeDirs l names).run t = (.ok (), t₁) ∧ t.HasDirs (trail l names.reverse) t₁ := by
  induction names with
  | nil => exact ⟨t, rfl, ht, rfl, fun v hv => by rw [mem_singleton.1 hv]; exact hl, fun _ _ => rfl⟩
  | cons name above ih =>
    rw [reverse_cons] at hclear ⊢
    have habove : ¬t.Blocked (trail l above.reverse) := by
      rintro ⟨v, hv, hfile⟩
      exact hclear ⟨v, mem_trail_concat.2 (.inl hv), hfile⟩
    by_cases hmissing : ∃ v ∈ trail l above.reverse, t.find? v = none
    · obtain ⟨t₁, hrun, hdirs⟩ := ih habove
      have hwalk : t.walk l (above.reverse ++ [name]) = .error .missing := by
        refine walk_missing ?_ ?_ <;> rw [steps_concat]
        · exact fun v hv => dir_or_none_of_not_blocked habove hv
        · exact hmissing
      rw [makeDirs_of_missing (by rw [settle_run, makeDir_eq, hwalk]; rfl) hrun]
      exact hdirs.settle hclear
    · have hdirs : t.HasDirs (trail l above.reverse) t := ⟨ht, rfl, fun v hv =>
        (dir_or_none_of_not_blocked habove hv).resolve_right fun hnone => hmissing ⟨v, hv, hnone⟩,
        fun _ _ => rfl⟩
      obtain ⟨t₂, hsettle, hdirs⟩ := hdirs.settle hclear
      exact ⟨t₂, makeDirs_of_settle hsettle (by rintro ⟨⟩), hdirs⟩

/-- A file in the way keeps directories from being made. -/
theorem makeDirs_error (ht : t.Closed) (h : t.Grounded l (above.reverse ++ [name]))
    (hblocked : t.Blocked (trail l (above.reverse ++ [name]))) :
    (t.Blocked (trail l above.reverse) ∧ (makeDirs l (name :: above)).run t = (.error .notDirectory, t)) ∨
      (¬t.Blocked (trail l above.reverse) ∧ (makeDirs l (name :: above)).run t = (.error .exists, t)) := by
  by_cases habove : t.Blocked (trail l above.reverse)
  · have hwalk := walk_notDirectory ht h (by rwa [steps_concat])
    exact .inl ⟨habove, makeDirs_of_settle (by rw [settle_run, makeDir_eq, hwalk]; rfl) (by rintro ⟨⟩)⟩
  · refine .inr ⟨habove, makeDirs_of_settle ?_ (by rintro ⟨⟩)⟩
    obtain ⟨v, hv, content, hfile⟩ := hblocked
    obtain rfl := (mem_trail_concat.1 hv).resolve_left fun hv => habove ⟨v, hv, content, hfile⟩
    -- where nothing was found on the way, nothing would be found at its end
    have hdirs (u : Location) (hu : u ∈ trail l above.reverse) : t.find? u = some .dir := by
      refine (dir_or_none_of_not_blocked habove hu).resolve_right fun hnone => ?_
      cases (none_of_missing ht h (Location.mem_trail_append hu) hnone).symm.trans hfile
    have hsettle := settle_eq name ht hdirs
    rwa [hfile] at hsettle

/-! ## Putting a file in place -/

/-- The names of a path up to the last one that is not empty. -/
theorem exists_names {path : Text}
    (h : (Text.split '/' path).reverse.dropWhile List.isEmpty = name :: above) :
    name ≠ [] ∧ ∃ tail, (∀ name ∈ tail, name = []) ∧
    Text.split '/' path = above.reverse ++ [name] ++ tail := by
  have hname : ¬name.isEmpty := by
    have hhead := head?_dropWhile_not List.isEmpty (Text.split '/' path).reverse
    rw [h] at hhead
    simpa using hhead
  refine ⟨by simpa using hname, ((Text.split '/' path).reverse.takeWhile List.isEmpty).reverse, ?_, ?_⟩
  · intro name hmem
    simpa using mem_takeWhile_imp (mem_reverse.1 hmem)
  · have happend := takeWhile_append_dropWhile (p := List.isEmpty) (l := (Text.split '/' path).reverse)
    rw [h] at happend
    simpa using (congrArg List.reverse happend).symm

/-- Puts a file at a place, unless a directory stands there. -/
def putFile (t : FileTree) (l : Location) (text : Text) : Except FileError FileTree :=
  match t.find? l with
  | some .dir => .error .isDirectory
  | _ => .ok (t.insert l (.file (some text)))

theorem putFile_dir {text : Text} (h : t.find? l = some .dir) : t.putFile l text = .error .isDirectory := by
  rw [putFile, h]

theorem putFile_of_ne_dir {text : Text} (h : t.find? l ≠ some .dir) :
    t.putFile l text = .ok (t.insert l (.file (some text))) := by
  unfold putFile
  split
  · exact absurd ‹_› h
  · rfl

theorem replace_eq_bind {path : Text} (hempty : ¬path.isEmpty)
    (hnames : (Text.split '/' path).reverse.dropWhile List.isEmpty = name :: above)
    (text : Text) (t : FileTree) :
    t.replace path text = t.walk (start t.home path) (above.reverse ++ [[]]) >>= fun l =>
      if isDots name then .error .busy
      else if path.getLast? = some '/' then .error .notDirectory
      else t.putFile (l ++ [name]) text := by
  simp only [replace, if_neg hempty, hnames, walk, foldlM_append,
    foldlM_cons, foldlM_nil, bind_assoc, bind_pure]
  rfl

/-- The trees are alike on the way to a path. -/
structure SameWay (t t' : FileTree) (path : Text) : Prop where
  home : t'.home = t.home
  find : ∀ v ∈ Path.trail t.home path, t'.find? v = t.find? v

/-- What stands on the way to a path decides whether a file can be put in its place. -/
theorem replace_cases (path text : Text) (t : FileTree) :
    (∃ e, ∀ t' : FileTree, t.SameWay t' path → t'.replace path text = .error e) ∨
      (t.find? (location t.home path) ≠ some .dir ∧
        (∃ l name, location t.home path = l ++ [name] ∧ t.find? l = some .dir) ∧
        ∀ t' : FileTree, t.SameWay t' path →
          t'.replace path text = .ok (t'.insert (location t.home path) (.file (some text)))) := by
  by_cases hempty : path.isEmpty
  · exact .inl ⟨.missing, fun t' _ => by rw [replace, if_pos hempty]⟩
  cases hnames : (Text.split '/' path).reverse.dropWhile List.isEmpty with
  | nil => exact .inl ⟨.busy, fun t' _ => by rw [replace, if_neg hempty, hnames]⟩
  | cons name above =>
    obtain ⟨hname, tail, htail, hsplit⟩ := exists_names hnames
    have hwalk (t' : FileTree) (h : t.SameWay t' path) :
        t'.walk (start t'.home path) (above.reverse ++ [[]]) =
        t.walk (start t.home path) (above.reverse ++ [[]]) := by
      rw [h.home]
      refine walk_congr fun v hv => h.find v ?_
      rw [steps_concat] at hv
      rw [Path.trail, hsplit, append_assoc]
      exact Location.mem_trail_append hv
    cases hrun : t.walk (start t.home path) (above.reverse ++ [[]]) with
    | error e => exact .inl ⟨e, fun t' h => by rw [replace_eq_bind hempty hnames, hwalk t' h, hrun]; rfl⟩
    | ok l =>
      obtain ⟨rfl, hsteps⟩ := walk_eq_ok_iff.1 hrun
      rw [steps_concat] at hsteps
      rw [target_append] at hrun
      have hbind (t' : FileTree) (h : t.SameWay t' path) :=
        (replace_eq_bind hempty hnames text t').trans (congrArg (· >>= _) ((hwalk t' h).trans hrun))
      by_cases hdots : isDots name
      · exact .inl ⟨.busy, fun t' h => (hbind t' h).trans (if_pos hdots)⟩
      by_cases hslash : path.getLast? = some '/'
      · exact .inl ⟨.notDirectory, fun t' h => (hbind t' h).trans ((if_neg hdots).trans (if_pos hslash))⟩
      have hlast : location t.home path = target (start t.home path) above.reverse ++ [name] := by
        rw [location, hsplit, target_append, Location.target_of_empty _ htail, target_append, target_cons,
          Location.next_of_name hname (by simpa using hdots)]
        rfl
      have hput (t' : FileTree) (h : t.SameWay t' path) :
          t'.replace path text = t'.putFile (location t.home path) text := by
        rw [hlast]
        exact (hbind t' h).trans ((if_neg hdots).trans (if_neg hslash))
      have hsame (t' : FileTree) (h : t.SameWay t' path) := h.find _ (Path.location_mem_trail t.home path)
      by_cases hdir : t.find? (location t.home path) = some .dir
      · exact .inl ⟨.isDirectory, fun t' h => (hput t' h).trans (putFile_dir ((hsame t' h).trans hdir))⟩
      · refine .inr ⟨hdir, ⟨_, name, hlast, hsteps _ (mem_append_right _ (mem_singleton_self _))⟩,
          fun t' h => ?_⟩
        exact (hput t' h).trans (putFile_of_ne_dir fun heq => hdir ((hsame t' h).symm.trans heq))

/-! ## Writing -/

variable {path text : Text}

/-- The path's directory is made, unless a file is in the way, and then the file is put in place. -/
theorem write_run (path text : Text) (t : FileTree) :
    (write path text).run t = match (makeDirs (start t.home path) (parentNames path)).run t with
      | (.error e, t₁) => (.error e, t₁)
      | (.ok _, t₁) =>
        match t₁.replace path text with
        | .ok t₂ => (.ok (), t₂)
        | .error e => (.error e, t₁) := by
  rw [write, StateT.run_bind]
  show StateT.run (makeDirs (start t.home path) (parentNames path) >>= _) t = _
  rw [StateT.run_bind]
  rcases (makeDirs (start t.home path) (parentNames path)).run t with ⟨_ | _, t₁⟩
  · rfl
  · show StateT.run (match t₁.replace path text with
      | .ok t => _
      | .error e => _) t₁ = match t₁.replace path text with
        | .ok t₂ => _
        | .error e => _
    cases t₁.replace path text <;> rfl

/-- The path goes up only from what is found, and so do the names of its directory. -/
def GroundedPath (t : FileTree) (path : Text) : Prop := ∀ v ∈ Path.rises t.home path, t.find? v ≠ none

theorem GroundedPath.parent (h : t.GroundedPath path) :
    t.Grounded (start t.home path) (parentNames path).reverse :=
  fun v hv => h v (Path.mem_rises_of_parent hv)

/-- The two trees have files at the same locations on the way to a path. -/
structure SameFiles (t t' : FileTree) (path : Text) : Prop where
  home : t'.home = t.home
  files : ∀ v ∈ Path.above t.home path,
    (∃ content, t'.find? v = some (.file content)) ↔ ∃ content, t.find? v = some (.file content)

theorem SameFiles.blocked_iff (h : t.SameFiles t' path) (hvs : vs ⊆ Path.above t.home path) :
    t'.Blocked vs ↔ t.Blocked vs := by
  simp only [Blocked]
  exact exists_congr fun v => and_congr_right fun hv => h.files v (hvs hv)

/-- A file in the way stops a write before it changes anything. -/
theorem write_blocked (ht : t.Closed) (h : t.GroundedPath path)
    (hblocked : t.Blocked (Path.above t.home path)) (ht' : t'.Closed)
    (h' : t'.GroundedPath path) (hfiles : t.SameFiles t' path) :
    ∃ e, (write path text).run t = (.error e, t) ∧ (write path text).run t' = (.error e, t') := by
  have hground := h.parent
  have hground' := h'.parent
  have hblocked' := (hfiles.blocked_iff (Subset.refl _)).2 hblocked
  have hsub (vs : List Location) (hvs : vs ⊆ Path.above t.home path) := hfiles.blocked_iff hvs
  simp only [write_run]
  rw [hfiles.home] at hground' ⊢
  rw [Path.above] at hblocked hblocked' hsub
  cases hnames : parentNames path with
  | nil =>
    rw [hnames] at hblocked
    obtain ⟨v, hv, content, hfile⟩ := hblocked
    rw [mem_singleton.1 hv] at hfile
    cases (ht.find?_start path).symm.trans hfile
  | cons name above =>
    rw [hnames, reverse_cons] at hblocked hblocked' hground hground' hsub
    have habove := hsub (trail (start t.home path) above.reverse) fun v hv => mem_trail_concat.2 (.inl hv)
    rcases makeDirs_error ht hground hblocked with ⟨h, hrun⟩ | ⟨h, hrun⟩ <;>
      rcases makeDirs_error ht' hground' hblocked' with ⟨h', hrun'⟩ | ⟨h', hrun'⟩
    · exact ⟨_, by rw [hrun], by rw [hrun']⟩
    · exact absurd (habove.2 h) h'
    · exact absurd (habove.1 h') h
    · exact ⟨_, by rw [hrun], by rw [hrun']⟩

/-- What stands at a location is the same, or a directory is new. -/
def Grew (t t' : FileTree) (v : Location) : Prop :=
  t'.find? v = t.find? v ∨ (t.find? v = none ∧ t'.find? v = some .dir)

theorem Grew.isFile_iff (h : t.Grew t' v) :
    (∃ content, t'.find? v = some (.file content)) ↔ ∃ content, t.find? v = some (.file content) := by
  rcases h with hsame | ⟨hnone, hdir⟩
  · rw [hsame]
  · simp [hnone, hdir]

/-- What a write that ends with `r` has changed: directories on the way to
its path may be new, and if it succeeds the file has its text. -/
structure Wrote (path text : Text) (r : Except FileError Unit) (t t₁ : FileTree) : Prop where
  closed : t₁.Closed
  home : t₁.home = t.home
  elsewhere : ∀ v, v ∉ Path.trail t.home path → t₁.find? v = t.find? v
  above : ∀ v, v ≠ location t.home path → t.Grew t₁ v
  failed : r ≠ .ok () → t₁.find? (location t.home path) = t.find? (location t.home path)
  written : r = .ok () → t₁.find? (location t.home path) = some (.file (some text))

section

variable (ht : t.Closed)
include ht

section

variable (h : t.GroundedPath path)
include h

/-- A path does not lead through a missing location that it leads to. -/
theorem location_not_mem_above (hnone : t.find? (location t.home path) = none) :
    location t.home path ∉ Path.above t.home path := by
  intro hmem
  have hparent := isPrefix_of_missing ht h.parent hmem hnone
  rcases Path.location_cases t.home path with heq | ⟨hrise, -⟩ | ⟨name, heq⟩
  · cases (heq ▸ hnone).symm.trans (ht.find?_start path)
  · exact h _ hrise (ht.none_of_isPrefix hparent hnone)
  · have hlength := hparent.length_le
    rw [heq, Path.parent] at hlength
    simp at hlength

/-- Directories have been made, but no file is put in place. -/
theorem HasDirs.wrote (hclear : ¬t.Blocked (Path.above t.home path))
    (hdirs : t.HasDirs (Path.above t.home path) t₁) (e : FileError) : Wrote path text (.error e) t t₁ := by
  have hgrew (v : Location) : t.Grew t₁ v := by
    by_cases hv : v ∈ Path.above t.home path
    · rcases dir_or_none_of_not_blocked hclear hv with hdir | hnone
      · exact .inl ((hdirs.dirs v hv).trans hdir.symm)
      · exact .inr ⟨hnone, hdirs.dirs v hv⟩
    · exact .inl (hdirs.elsewhere v hv)
  refine ⟨hdirs.closed, hdirs.home, fun v hv => hdirs.elsewhere v ?_,
    fun v _ => hgrew v, fun _ => ?_, (by rintro ⟨⟩)⟩
  · exact fun hmem => hv (Path.mem_trail_iff.2 (.inl hmem))
  · rcases hgrew (location t.home path) with hsame | ⟨hnone, -⟩
    · exact hsame
    · exact hdirs.elsewhere _ (location_not_mem_above ht h hnone)

theorem write_effect (text : Text) :
    Wrote path text ((write path text).run t).1 t ((write path text).run t).2 := by
  by_cases hblocked : t.Blocked (Path.above t.home path)
  · obtain ⟨e, hrun, -⟩ : ∃ e, (write path text).run t = (.error e, t) ∧
        (write path text).run t = (.error e, t) :=
      write_blocked ht h hblocked ht h ⟨rfl, fun _ _ => Iff.rfl⟩
    rw [hrun]
    exact ⟨ht, rfl, fun _ _ => rfl, fun _ _ => .inl rfl, fun _ => rfl, (by rintro ⟨⟩)⟩
  obtain ⟨t₁, hmake, hdirs⟩ := makeDirs_ok ht (ht.find?_start path) hblocked
  have hwrote (e : FileError) : Wrote path text (.error e) t t₁ := hdirs.wrote ht h hblocked e
  rw [write_run, hmake]
  rcases replace_cases path text t₁ with ⟨e, hreplace⟩ | ⟨hdir, ⟨l, name, hlast, hl⟩, hreplace⟩
  · simp only [hreplace t₁ ⟨rfl, fun _ _ => rfl⟩]
    exact hwrote e
  · simp only [hreplace t₁ ⟨rfl, fun _ _ => rfl⟩]
    rw [hdirs.home] at hdir hlast ⊢
    have hclosed := hdirs.closed.insert (n := .file (some text)) hl (.inr (hlast ▸ hdir))
    have helse (v : Location) (hv : v ≠ location t.home path) :
        (t₁.insert (location t.home path) (.file (some text))).find? v = t₁.find? v := find?_insert_ne _ _ hv
    refine ⟨hlast ▸ hclosed, hdirs.home, fun v hv => ?_, fun v hv => ?_, fun h => absurd rfl h, fun _ => ?_⟩
    · rw [helse v fun heq => hv (heq ▸ Path.location_mem_trail _ _), (hwrote .busy).elsewhere v hv]
    · rw [Grew, helse v hv]
      exact (hwrote .busy).above v hv
    · exact find?_insert_self t₁ (by simp [hlast]) _

/-- The result of a write depends on the files on the way to its path and on what stands at it. -/
theorem write_congr (ht' : t'.Closed) (h' : t'.GroundedPath path) (text : Text) (hfiles : t.SameFiles t' path)
    (hlocation : t'.find? (location t.home path) = t.find? (location t.home path)) :
    ((write path text).run t').1 = ((write path text).run t).1 := by
  by_cases hblocked : t.Blocked (Path.above t.home path)
  · obtain ⟨e, hrun, hrun'⟩ : ∃ e, (write path text).run t = (.error e, t) ∧
        (write path text).run t' = (.error e, t') := write_blocked ht h hblocked ht' h' hfiles
    rw [hrun, hrun']
  have hclear' : ¬t'.Blocked (Path.above t'.home path) := by
    rwa [hfiles.home, hfiles.blocked_iff (Subset.refl _)]
  obtain ⟨t₁, hmake, hdirs⟩ := makeDirs_ok ht (ht.find?_start path) hblocked
  obtain ⟨t₂, hmake', hdirs'⟩ := makeDirs_ok ht' (ht'.find?_start path) hclear'
  have hsame : t₁.SameWay t₂ path := by
    refine ⟨by rw [hdirs'.home, hdirs.home, hfiles.home], fun v hv => ?_⟩
    rw [hdirs.home] at hv
    by_cases hmem : v ∈ Path.above t.home path
    · rw [hdirs.dirs v hmem, hdirs'.dirs v (by rw [hfiles.home]; exact hmem)]
    · rw [hdirs.elsewhere v hmem, hdirs'.elsewhere v (by rw [hfiles.home]; exact hmem),
        (Path.mem_trail_iff.1 hv).resolve_left hmem, hlocation]
  rw [write_run, hmake', write_run, hmake]
  rcases replace_cases path text t₁ with ⟨e, hreplace⟩ | ⟨-, -, hreplace⟩
  · simp only [hreplace t₁ ⟨rfl, fun _ _ => rfl⟩, hreplace t₂ hsame]
  · simp only [hreplace t₁ ⟨rfl, fun _ _ => rfl⟩, hreplace t₂ hsame]

end

/-! ## Reading -/

/-- A walk from a missing location ends at a missing one, if it goes up from no new directory. -/
theorem walk_below (hl : t.find? l = none) (hgrew : ∀ v ∈ trail l names, t.Grew t' v)
    (hrises : ∀ v ∈ rises l names, t'.find? v = t.find? v) : t'.walk l names = .error .missing ∨
      (t'.walk l names = .ok (target l names) ∧ t.find? (target l names) = none) := by
  induction names generalizing l with
  | nil => exact .inr ⟨rfl, hl⟩
  | cons name names ih =>
    rw [walk_cons]
    rcases hgrew l (mem_trail_start _ _) with hsame | ⟨-, hdir⟩
    · rw [hsame, hl]
      exact .inl rfl
    · rw [hdir]
      have hnext : t.find? (next l name) = none := by
        rcases Location.next_cases l name with ⟨-, heq⟩ | ⟨hrise, -⟩ | ⟨-, heq⟩
        · rw [heq, hl]
        · have hsame := hrises l (by rw [rises_cons]; exact mem_append_left _ hrise)
          cases hl.symm.trans (hsame.symm.trans hdir)
        · rw [heq]
          exact ht.none_of_isPrefix (prefix_append l [name]) hl
      exact ih hnext (fun v hv => hgrew v (mem_cons_of_mem l hv))
        fun v hv => hrises v (mem_append_right _ hv)

theorem walk_grew (hgrew : ∀ v ∈ trail l names, t.Grew t' v)
    (hrises : ∀ v ∈ rises l names, t'.find? v = t.find? v) : t'.walk l names = t.walk l names ∨
      (t.walk l names = .error .missing ∧ (t'.walk l names = .error .missing ∨
        (t'.walk l names = .ok (target l names) ∧ t.find? (target l names) = none))) := by
  induction names generalizing l with
  | nil => exact .inl rfl
  | cons name names ih =>
    rcases hgrew l (mem_trail_start _ _) with hsame | ⟨hnone, -⟩
    · rw [walk_cons, walk_cons, hsame]
      split
      · exact .inl rfl
      · exact .inl rfl
      · exact ih (fun v hv => hgrew v (mem_cons_of_mem l hv))
          fun v hv => hrises v (mem_append_right _ hv)
    · refine .inr ⟨?_, walk_below ht hnone hgrew hrises⟩
      rw [walk_cons, hnone]

end

/-- What is read where a node stands. -/
def readNode : Option Node → Except FileError Text
  | none => .error .missing
  | some .dir => .error .isDirectory
  | some (.file none) => .error .notText
  | some (.file (some text)) => .ok text

theorem read_eq (t : FileTree) (path : Text) :
    t.read path = if path.isEmpty then .error .missing
      else t.walk (start t.home path) (Text.split '/' path) >>= fun l => readNode (t.find? l) :=
  rfl

/-- New directories do not change what a path reads, if it goes up from none of them and leads to none. -/
theorem read_congr (ht : t.Closed) (hhome : t'.home = t.home)
    (hgrew : ∀ v ∈ Path.trail t.home path, t.Grew t' v)
    (hrises : ∀ v ∈ Path.rises t.home path, t'.find? v = t.find? v)
    (htarget : t'.find? (location t.home path) = t.find? (location t.home path)) :
    t'.read path = t.read path := by
  rw [read_eq, read_eq, hhome]
  congr 1
  rcases walk_grew ht hgrew hrises with hsame | ⟨hmissing, hmissing' | ⟨hok, hnone⟩⟩
  · rw [hsame]
    cases hwalk : t.walk (start t.home path) (Text.split '/' path) with
    | error e => rfl
    | ok l =>
      obtain ⟨rfl, -⟩ := walk_eq_ok_iff.1 hwalk
      exact congrArg readNode htarget
  · rw [hmissing, hmissing']
    rfl
  · rw [hmissing, hok]
    exact congrArg readNode (htarget.trans hnone)

end FileTree

end ClassdefDoc
