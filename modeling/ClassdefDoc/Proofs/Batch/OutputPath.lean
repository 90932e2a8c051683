import ClassdefDoc.Proofs.Batch.Plan
import ClassdefDoc.Proofs.File.Name

/-!
# Outputs of a batch

Below the output directory, the path of an output has the package directories of its input and a file
name. The file name is the input's stem with the extension put in place of an extension that the stem
still has. A stem `.` is no part of a path, so the extension goes to the directory before it, and a
stem `..` is a part that takes no extension. `OutputSlot` is what is left of packages and stem: two
inputs have one output exactly if they have one slot (`same_outputPath_iff`). For stems in which no
point follows the first character that is to have the same packages and the same stem (`slot_eq_iff`).
-/

namespace ClassdefDoc

open List

variable {stem ext : Text}

/-- What of an input decides its output. -/
inductive OutputSlot where
  /-- A file in the package directories, by its name without the extension. -/
  | file (packages : List Text) (name : Text)
  /-- The part `..` in the package directories. -/
  | above (packages : List Text)
  /-- The output directory with its own extension replaced. -/
  | outputDir
  deriving DecidableEq, Repr

namespace OutputSlot

def ofStem (packages : List Text) (stem : Text) : OutputSlot :=
  if stem = "..".toList then .above packages
  else if stem = ".".toList then
    match packages.getLast? with
    | none => .outputDir
    | some last => .file packages.dropLast (Path.stemOf ('+' :: last))
  else .file packages (Path.stemOf stem)

def ofInput (input : Text) : OutputSlot := ofStem (Path.packages input) ((Path.stem? input).getD "out")

/-- The parts of an output below the output directory. -/
def parts (ext : Text) : OutputSlot → List Path.Part
  | file packages name => packages.map (fun package => .name ('+' :: package)) ++ [.name (name ++ '.' :: ext)]
  | above packages => packages.map (fun package => .name ('+' :: package)) ++ [.up]
  | outputDir => []

variable {ext : Text} {packages packages' : List Text}

theorem map_package_injective :
    Function.Injective (List.map fun package : Text => Path.Part.name ('+' :: package)) := by
  refine map_injective_iff.2 fun a b h => ?_
  exact (List.cons.inj (Path.Part.name.inj h)).2

theorem parts_injective (ext : Text) : Function.Injective (parts ext) := by
  intro x y h
  cases x with
  | outputDir => cases y <;> simp [parts] at h ⊢
  | file packages name =>
    cases y with
    | outputDir => simp [parts] at h
    | file packages' name' =>
      obtain ⟨hpackages, hname⟩ := append_inj' h rfl
      have hname : name ++ '.' :: ext = name' ++ '.' :: ext := Path.Part.name.inj (List.cons.inj hname).1
      rw [map_package_injective hpackages, append_cancel_right hname]
    | above packages' => cases (append_inj' h rfl).2
  | above packages =>
    cases y with
    | outputDir => simp [parts] at h
    | file packages' name' => cases (append_inj' h rfl).2
    | above packages' => rw [map_package_injective (append_inj' h rfl).1]

end OutputSlot

namespace Path

variable {path : Text}

/-- The path of package directories below a directory. -/
def packageDir (dir : Text) (packages : List Text) : Text :=
  packages.foldl (fun dir package => join dir ('+' :: package)) dir

theorem parts_packageDir {packages : List Text} (h : ∀ package ∈ packages, '/' ∉ package) (dir : Text) :
    parts (packageDir dir packages) = parts dir ++ packages.map (fun package => .name ('+' :: package)) := by
  induction packages generalizing dir with
  | nil => exact (append_nil _).symm
  | cons package packages ih =>
    obtain ⟨hpackage, hrest⟩ := forall_mem_cons.1 h
    have hslash : '/' ∉ '+' :: package := not_mem_cons_of_ne_of_not_mem (by decide) hpackage
    have hpart : Part.ofText? ('+' :: package) = some (.name ('+' :: package)) := ofText?_name (by simp)
    rw [packageDir, foldl_cons, ← packageDir, ih hrest, parts_join hslash hpart, map_cons, append_assoc,
      singleton_append]

theorem slash_notMem_packages {package : Text} (h : package ∈ packages path) : '/' ∉ package := by
  obtain ⟨part, hmem, hpart⟩ := mem_filterMap.1 h
  split at hpart
  · rename_i name hname
    cases hpart
    cases part with
    | name n =>
      cases hname
      exact fun hslash => slash_notMem_of_name (mem_of_mem_dropLast hmem) (mem_cons_of_mem _ hslash)
    | root => cases hname
    | here => cases hname
    | up => cases hname
  · cases hpart

theorem slash_notMem_stem (h : stem? path = some stem) : stem ≠ [] ∧ '/' ∉ stem := by
  obtain ⟨ps, n, -, rfl, hn, hslash⟩ := parts_of_stem? h
  exact ⟨stemOf_ne_nil hn, fun hmem => hslash (mem_of_mem_stemOf hmem)⟩

end Path

theorem OutputSlot.parts_ofStem {packages : List Text} (hext : Path.IsExtension ext)
    (hpackages : ∀ package ∈ packages, '/' ∉ package) (hstem : stem ≠ []) (hslash : '/' ∉ stem)
    (h : ofStem packages stem ≠ .outputDir) (dir : Text) :
    Path.parts (Path.withExtension (Path.join (Path.packageDir dir packages) stem) ext) =
      Path.parts dir ++ (ofStem packages stem).parts ext := by
  rw [ofStem] at h ⊢
  by_cases hup : stem = "..".toList
  · have hparts : Path.parts (Path.join (Path.packageDir dir packages) stem) =
        Path.parts dir ++ packages.map (fun package => .name ('+' :: package)) ++ [.up] := by
      have hpart : Path.Part.ofText? stem = some .up := by rw [hup]; rfl
      rw [Path.parts_join hslash hpart, Path.parts_packageDir hpackages]
    have hlast (ps : List Path.Part) (n : Text) :
        Path.parts (Path.join (Path.packageDir dir packages) stem) ≠ ps ++ [.name n] := by
      rw [hparts]
      intro heq
      cases (append_inj' heq rfl).2
    rw [Path.withExtension_of_parts hlast, hparts, if_pos hup, append_assoc]
    rfl
  by_cases hhere : stem = ".".toList
  · rw [if_neg hup, if_pos hhere] at h ⊢
    rcases eq_nil_or_concat packages with rfl | ⟨outer, last, rfl⟩
    · exact absurd rfl h
    · rw [concat_eq_append] at hpackages ⊢
      have hdir : Path.parts (Path.packageDir dir (outer ++ [last])) =
          Path.parts dir ++ outer.map (fun package => .name ('+' :: package)) ++ [.name ('+' :: last)] := by
        rw [Path.parts_packageDir hpackages, map_append, append_assoc]
        rfl
      have hne : Path.packageDir dir (outer ++ [last]) ≠ [] := by
        intro hnil
        rw [hnil] at hdir
        exact absurd hdir (by simp [Path.parts, Text.split, Path.Part.ofText?])
      rw [hhere, Path.parts_withExtension hext ((Path.parts_join_here hne).trans hdir), append_assoc,
        getLast?_concat, dropLast_concat]
      rfl
  · have hpart : Path.Part.ofText? stem = some (.name stem) :=
      Path.ofText?_name (by simpa using ⟨⟨hstem, hhere⟩, hup⟩)
    have hparts : Path.parts (Path.join (Path.packageDir dir packages) stem) =
        Path.parts dir ++ packages.map (fun package => .name ('+' :: package)) ++ [.name stem] := by
      rw [Path.parts_join hslash hpart, Path.parts_packageDir hpackages]
    rw [Path.parts_withExtension hext hparts, if_neg hup, if_neg hhere, append_assoc]
    rfl

/-- The output directory with its extension replaced has no more parts than
before, unless it is the directory `.`. -/
theorem Path.length_parts_outputDir (hext : IsExtension ext) (dir : Text) :
    parts (withExtension (join dir ".") ext) = [.here] ∨
      (parts (withExtension (join dir ".") ext)).length = (parts dir).length := by
  by_cases hdir : dir = []
  · subst hdir
    exact .inl rfl
  · have hparts := parts_join_here hdir
    by_cases hname : ∃ ps n, parts dir = ps ++ [.name n]
    · obtain ⟨ps, n, hname⟩ := hname
      refine .inr ?_
      rw [parts_withExtension hext (hparts.trans hname), hname, length_append, length_append]
      rfl
    · refine .inr ?_
      rw [withExtension_of_parts (fun ps n hlast => hname ⟨ps, n, hparts.symm.trans hlast⟩), hparts]

namespace OutputSlot

theorem ofStem_eq_outputDir {packages : List Text} (h : ofStem packages stem = .outputDir) :
    packages = [] ∧ stem = ".".toList := by
  rw [ofStem] at h
  split_ifs at h with hup hhere
  split at h
  · rename_i hnone
    exact ⟨getLast?_eq_none_iff.1 hnone, hhere⟩
  · cases h

/-- A point in a stem counts only behind its first character. -/
theorem ofStem_eq {packages : List Text} (hstem : stem ≠ ".".toList) (hpoint : '.' ∉ stem.tail) :
    ofStem packages stem = .file packages stem := by
  have hup : stem ≠ "..".toList := by
    rintro rfl
    exact hpoint (by decide)
  rw [ofStem, if_neg hup, if_neg hstem, Path.stemOf_of_notMem hpoint]

end OutputSlot

namespace Batch

variable {b : Batch} {input p q : Text}

theorem outputPath_eq (b : Batch) (input : Text) : b.outputPath input =
    Path.withExtension (Path.join (Path.packageDir b.outputDir (Path.packages input))
      ((Path.stem? input).getD "out")) b.extension :=
  rfl

theorem parts_outputPath (hext : Path.IsExtension b.extension) (h : OutputSlot.ofInput input ≠ .outputDir) :
    Path.parts (b.outputPath input) =
    Path.parts b.outputDir ++ (OutputSlot.ofInput input).parts b.extension := by
  have hstem : (Path.stem? input).getD "out" ≠ [] ∧ '/' ∉ (Path.stem? input).getD "out" := by
    cases hstem : Path.stem? input with
    | none => decide
    | some stem => exact Path.slash_notMem_stem hstem
  exact OutputSlot.parts_ofStem hext (fun _ => Path.slash_notMem_packages) hstem.1 hstem.2 h b.outputDir

theorem outputPath_of_outputDir (h : OutputSlot.ofInput input = .outputDir) :
    b.outputPath input = Path.withExtension (Path.join b.outputDir ".") b.extension := by
  obtain ⟨hpackages, hstem⟩ := OutputSlot.ofStem_eq_outputDir h
  rw [outputPath_eq, hpackages, hstem]
  rfl

/-- A file below the output directory is not the output directory. -/
theorem parts_outputPath_ne (hext : Path.IsExtension b.extension) (hp : OutputSlot.ofInput p = .outputDir)
    (hq : OutputSlot.ofInput q ≠ .outputDir) : Path.parts (b.outputPath p) ≠ Path.parts (b.outputPath q) := by
  rw [outputPath_of_outputDir hp, parts_outputPath hext hq]
  intro heq
  have hlast : ∃ ps part, (OutputSlot.ofInput q).parts b.extension = ps ++ [part] ∧ part ≠ .here := by
    cases hslot : OutputSlot.ofInput q with
    | file packages name | above packages => exact ⟨_, _, rfl, by rintro ⟨⟩⟩
    | outputDir => exact absurd hslot hq
  obtain ⟨ps, part, hparts, hpart⟩ := hlast
  rw [hparts, ← append_assoc] at heq
  rcases Path.length_parts_outputDir hext b.outputDir with hhere | hlength
  · rw [hhere] at heq
    exact hpart (List.cons.inj (append_inj' ((nil_append [Path.Part.here]).trans heq) rfl).2).1.symm
  · rw [heq] at hlength
    simp only [length_append, length_singleton] at hlength
    omega

theorem same_outputPath_iff (hext : Path.IsExtension b.extension) :
    Path.same (b.outputPath p) (b.outputPath q) ↔ OutputSlot.ofInput p = OutputSlot.ofInput q := by
  rw [Path.same_iff]
  by_cases hp : OutputSlot.ofInput p = .outputDir <;> by_cases hq : OutputSlot.ofInput q = .outputDir
  · rw [outputPath_of_outputDir hp, outputPath_of_outputDir hq, hp, hq]
    exact iff_of_true rfl rfl
  · exact iff_of_false (parts_outputPath_ne hext hp hq) fun h => hq (h.symm.trans hp)
  · exact iff_of_false (parts_outputPath_ne hext hq hp).symm fun h => hp (h.trans hq)
  · rw [parts_outputPath hext hp, parts_outputPath hext hq, append_cancel_left_eq,
      (OutputSlot.parts_injective _).eq_iff]

end Batch

/-- Settings that are not refused have an extension that outputs can have. -/
theorem Settings.isExtension {s : Settings} (h : s.check = .ok ()) : Path.IsExtension s.outputExtension := by
  unfold check at h
  split_ifs at h with hbad
  simp only [Bool.or_eq_true, List.isEmpty_iff, any_eq_true, beq_iff_eq, not_or, not_exists, not_and] at hbad
  exact ⟨hbad.1, fun hmem => (hbad.2 _ hmem).1.1 rfl, fun hmem => (hbad.2 _ hmem).2 rfl⟩

namespace Path

/-- No point follows the first character of the stem, and the stem is not just a point. -/
def HasPlainStem (path : Text) : Prop := ∃ stem, stem? path = some stem ∧ stem ≠ ".".toList ∧ '.' ∉ stem.tail

end Path

theorem OutputSlot.ofInput_eq_iff {p q : Text} (hp : Path.HasPlainStem p) (hq : Path.HasPlainStem q) :
    ofInput p = ofInput q ↔ Path.packages p = Path.packages q ∧ Path.stem? p = Path.stem? q := by
  obtain ⟨stem, hstem, hdot, hpoint⟩ := hp
  obtain ⟨stem', hstem', hdot', hpoint'⟩ := hq
  rw [ofInput, ofInput, hstem, hstem', Option.getD_some, Option.getD_some,
    ofStem_eq hdot hpoint, ofStem_eq hdot' hpoint', file.injEq, Option.some.injEq]

namespace Batch

/-- With an extension that settings accept, two inputs have one output exactly if they have
one slot, which is to have the same packages and the same stem if no stem has a point
behind its first character. So an input collides exactly if an earlier one has its slot. -/
theorem same_output_iff_slot {s : Settings} (hs : s.check = .ok ()) (o : Options) (dir : Text) :
    let b : Batch := ⟨o, dir, s.outputExtension⟩
    (∀ p q, Path.same (b.outputPath p) (b.outputPath q) = true ↔
      OutputSlot.ofInput p = OutputSlot.ofInput q) ∧
      (∀ p q, Path.HasPlainStem p → Path.HasPlainStem q →
        (Path.same (b.outputPath p) (b.outputPath q) = true ↔
          Path.packages p = Path.packages q ∧ Path.stem? p = Path.stem? q)) ∧
      (∀ (inputs : List Text) (i : Nat) (input : Text), inputs[i]? = some input →
        ((∃ e, (b.plan inputs)[i]? = some (.error e)) ↔ ∃ q ∈ inputs.take i,
        OutputSlot.ofInput q = OutputSlot.ofInput input)) ∧
      ∀ (inputs : List Text) (i : Nat) (input : Text), inputs[i]? = some input →
      (∀ q ∈ inputs, Path.HasPlainStem q) →
        (∃ e, (b.plan inputs)[i]? = some (.error e)) →
        ∃ q ∈ inputs.take i, Path.packages q = Path.packages input ∧ Path.stem? q = Path.stem? input := by
  intro b
  have hext : Path.IsExtension b.extension := s.isExtension hs
  have hrejected (inputs : List Text) (i : Nat) (input : Text) (hinput : inputs[i]? = some input) :
      (∃ e, (b.plan inputs)[i]? = some (.error e)) ↔ ∃ q ∈ inputs.take i,
      OutputSlot.ofInput q = OutputSlot.ofInput input := by
    simp only [plan_getElem? hinput, Option.some.injEq, exists_given_eq_error_iff, same_outputPath_iff hext]
  refine ⟨fun p q => same_outputPath_iff hext, fun p q hp hq => ?_,
    hrejected, fun inputs i input hinput hplain he => ?_⟩
  · rw [same_outputPath_iff hext, OutputSlot.ofInput_eq_iff hp hq]
  · obtain ⟨q, hq, hslot⟩ := (hrejected inputs i input hinput).1 he
    exact ⟨q, hq,
      (OutputSlot.ofInput_eq_iff (hplain q (List.mem_of_mem_take hq))
      (hplain input (List.mem_of_getElem? hinput))).1 hslot⟩

/-- Hidden files of one package, found on two ways. -/
theorem same_output_hidden : Path.same ((⟨{}, "out", "cc"⟩ : Batch).outputPath "src/+g/.A.m")
    ((⟨{}, "out", "cc"⟩ : Batch).outputPath "./+g//.A.m") = true :=
  ((same_output_iff_slot (s := {}) rfl {} "out").2.1 "src/+g/.A.m" "./+g//.A.m" ⟨".A", by decide +kernel⟩
    ⟨".A", by decide +kernel⟩).2 (by decide +kernel)

/-- A point in the stem starts another extension, which is lost; and behind
a stem that is just a point, the package directory is taken for the file. -/
theorem collision_of_points :
    let b : Batch := ⟨{}, "out", "cc"⟩
    Path.stem? "a.b.m" = some "a.b" ∧ Path.stem? "a.c.m" = some "a.c" ∧
      b.plan ["a.b.m", "a.c.m"] = [.ok "out/a.cc", .error (.collision "a.c.m" "out/a.cc" "a.b.m")] ∧
      Path.packages "+p/..m" = ["p"] ∧ Path.packages "+p.m" = [] ∧
      b.plan ["+p/..m", "+p.m"] = [.ok "out/+p.cc", .error (.collision "+p.m" "out/+p.cc" "+p/..m")] := by
  decide +kernel

end Batch

end ClassdefDoc
