import ClassdefDoc.Pseudocode.Balance
import ClassdefDoc.Pseudocode.Comment
import ClassdefDoc.Pseudocode.Quoted
import Mathlib.Tactic

/-!
# What the reader takes characters for

To the reader of brackets each character of a text is code, or part of a comment, or
part of quoted text (`roles`). A slash waits for the next character: it may start a
comment. Only the characters that are code move the open brackets (`read_eq`).

`TakenFor r m m' t` says that the reader takes all of `t` for one thing and goes from mode `m` to
mode `m'`: quoted text (`takenFor_quote`) and comments (`isComment_ofLines`) are read so, whatever
they hold. `StaysIn` says more: the reader does not leave the comment or the quoted text on the way.
-/

namespace ClassdefDoc.Balance

open List Comment

variable {t a : Text} {stack : List Bracket} {m : Mode}

/-- What a character is part of. -/
inductive Role where
  | code | comment | quoted
  deriving DecidableEq, Repr

namespace Mode

/-- The mode behind a character of code. -/
def ofCode (c : Char) : Mode := if c = '/' then slash else if c = '"' then quoted else code

/-- The mode behind a character. -/
def next (m : Mode) (c : Char) : Mode :=
  match m with
  | code => ofCode c
  | slash => if c = '*' then block false else if c = '/' then lineComment else ofCode c
  | block star => if star && c = '/' then code else block (c == '*')
  | lineComment => if c = '\n' then code else lineComment
  | quoted => if c = '\\' then escaped else if c = '"' then code else quoted
  | escaped => quoted

/-- The role of a character of code, if it is no slash. -/
def tellsCode (c : Char) :
    List (Role × Char) := if c = '/' then [] else [(if c = '"' then .quoted else .code, c)]

/-- The characters whose roles are known once `c` is read. -/
def tells (m : Mode) (c : Char) : List (Role × Char) :=
  match m with
  | code => tellsCode c
  | slash => if c = '*' || c = '/' then [(.comment, '/'), (.comment, c)] else (.code, '/') :: tellsCode c
  | block _ => [(.comment, c)]
  | lineComment => [(if c = '\n' then .code else .comment, c)]
  | quoted | escaped => [(.quoted, c)]

/-- The mode behind a text. -/
def run (m : Mode) (t : Text) : Mode := t.foldl next m

/-- The characters whose roles are known once a text is read. -/
def told (m : Mode) : Text → List (Role × Char)
  | [] => []
  | c :: t => m.tells c ++ told (m.next c) t

/-- The slash that waits for the next character. -/
def waiting : Mode → Text
  | slash => ['/']
  | _ => []

variable (m : Mode) (c : Char) (a b t : Text)

@[simp] theorem run_nil : m.run [] = m := rfl

@[simp] theorem run_cons : m.run (c :: t) = (m.next c).run t := rfl

@[simp] theorem run_append : m.run (a ++ b) = (m.run a).run b := foldl_append

@[simp] theorem told_nil : m.told [] = [] := rfl

@[simp] theorem told_cons : m.told (c :: t) = m.tells c ++ (m.next c).told t := rfl

theorem told_append : m.told (a ++ b) = m.told a ++ (m.run a).told b := by
  induction a generalizing m with
  | nil => rfl
  | cons c a ih => rw [cons_append, told_cons, ih, told_cons, run_cons, append_assoc]

end Mode

/-- The characters of a text with their roles; a slash at the end is code. -/
def roles (t : Text) : List (Role × Char) := Mode.code.told t ++ (Mode.code.run t).waiting.map (.code, ·)

/-- Where the reader is back in code, the roles of what follows do not depend on what is before. -/
theorem roles_append (h : Mode.code.run a = .code) (b : Text) : roles (a ++ b) = roles a ++ roles b := by
  simp [roles, Mode.told_append, h, Mode.waiting]

/-- What follows does not make a comment of a slash before it. -/
def StartsApart (t : Text) : Prop := ∀ c ∈ t.head?, c ≠ '*' ∧ c ≠ '/'

/-- Behind a slash the reader goes on as in code, if what follows does not make a comment of it. -/
theorem Mode.slash_told (h : StartsApart t) (hne : t ≠ []) :
    slash.run t = code.run t ∧ slash.told t = (.code, '/') :: code.told t := by
  obtain ⟨c, t, rfl⟩ := exists_cons_of_ne_nil hne
  obtain ⟨hstar, hslash⟩ := h c rfl
  simp [next, tells, hstar, hslash]

/-- The roles of two texts, the first of which may end in a slash. -/
theorem roles_append_of_slash {b : Text} (h : Mode.code.run a = .slash) (hb : StartsApart b) :
    roles (a ++ b) = roles a ++ roles b := by
  by_cases hne : b = []
  · rw [hne, append_nil]
    exact (append_nil _).symm
  · obtain ⟨hrun, htold⟩ := Mode.slash_told hb hne
    simp [roles, Mode.told_append, h, hrun, htold, Mode.waiting]

/-- A slash that is code and the character behind it do not start a comment. -/
def NoMark (x y : Role × Char) : Prop := x = (.code, '/') → y.2 ≠ '*' ∧ y.2 ≠ '/'

theorem isChain_cons_of_ne {x : Role × Char} {rs : List (Role × Char)}
    (hx : x ≠ (.code, '/')) (h : rs.IsChain NoMark) : (x :: rs).IsChain NoMark :=
  isChain_cons.2 ⟨fun _ _ heq => absurd heq hx, h⟩

theorem isChain_told (m : Mode) (t : Text) :
    (m.told t ++ (m.run t).waiting.map (Role.code, ·)).IsChain NoMark := by
  induction t generalizing m with
  | nil => cases m <;> simp [Mode.waiting]
  | cons c t ih =>
    have hrest := ih (m.next c)
    rw [Mode.told_cons, Mode.run_cons, append_assoc]
    generalize (m.next c).told t ++ ((m.next c).run t).waiting.map (Role.code, ·) = rest at hrest
    have hcode : (Mode.tellsCode c ++ rest).IsChain NoMark := by
      by_cases hslash : c = '/'
      · rwa [Mode.tellsCode, if_pos hslash]
      · rw [Mode.tellsCode, if_neg hslash]
        exact isChain_cons_of_ne (by simp [hslash]) hrest
    cases m with
    | code => exact hcode
    | slash =>
      by_cases hmark : c = '*' ∨ c = '/'
      · simp only [Mode.tells, Bool.or_eq_true, decide_eq_true_eq, hmark, if_true]
        exact isChain_cons_of_ne (by simp) (isChain_cons_of_ne (by simp) hrest)
      · simp only [Mode.tells, Bool.or_eq_true, decide_eq_true_eq, hmark, if_false]
        refine isChain_cons.2 ⟨fun y hy _ => ?_, hcode⟩
        simp only [not_or] at hmark
        rw [Mode.tellsCode, if_neg hmark.2] at hy
        cases hy
        exact hmark
    | block star | quoted | escaped => exact isChain_cons_of_ne (by simp) hrest
    | lineComment =>
      refine isChain_cons_of_ne ?_ hrest
      split_ifs with hc
      · simp [hc]
      · simp

/-- No slash that is code starts a comment. -/
theorem isChain_roles (t : Text) : (roles t).IsChain NoMark := isChain_told .code t

theorem noMark_of_adjacent {x y : Role × Char} {rs : List (Role × Char)}
    (h : rs.IsChain NoMark) (hxy : [x, y] <:+: rs) :
    NoMark x y := by
  have hpair := h.infix hxy
  exact (isChain_cons_cons.1 hpair).1

/-! ## Brackets -/

/-- A character that opens or closes a bracket. -/
def isBracket (c : Char) : Bool := (Bracket.ofOpener? c).isSome || (Bracket.ofCloser? c).isSome

/-- The brackets that are open behind code. -/
def walk (stack : List Bracket) (t : Text) : Option (List Bracket) :=
  t.foldlM (fun stack c => (code stack c).map (·.stack)) stack

theorem walk_append (stack : List Bracket) (a b : Text) :
    walk stack (a ++ b) = (walk stack a).bind (walk · b) :=
  foldlM_append

theorem walk_append_of {stack' : List Bracket} (h : walk stack a = some stack')
    (b : Text) : walk stack (a ++ b) = walk stack' b := by
  rw [walk_append, h, Option.bind_some]

theorem walk_cons (stack : List Bracket) (c : Char) (t : Text) :
    walk stack (c :: t) = ((code stack c).map (·.stack)).bind (walk · t) := rfl

/-- Only brackets move the open brackets. -/
theorem walk_filter_isBracket (stack : List Bracket) (t : Text) :
    walk stack (t.filter isBracket) = walk stack t := by
  induction t generalizing stack with
  | nil => rfl
  | cons c t ih =>
    by_cases hc : isBracket c
    · rw [filter_cons_of_pos hc, walk_cons, walk_cons]
      cases (code stack c).map (·.stack) with
      | none => rfl
      | some stack' => exact ih stack'
    · obtain ⟨ho, hc'⟩ : Bracket.ofOpener? c = none ∧ Bracket.ofCloser? c = none := by
        simpa [isBracket] using hc
      have hstack : (code stack c).map (·.stack) = some stack := by
        simp only [code, ho, hc']
        split_ifs <;> rfl
      rw [filter_cons_of_neg hc, walk_cons, hstack, Option.bind_some, ih]

theorem walk_opener (b : Bracket) (stack : List Bracket) : walk stack [b.opener] = some (b :: stack) := by
  cases b <;> rfl

theorem walk_closer (b : Bracket) (stack : List Bracket) : walk (b :: stack) [b.closer] = some stack := by
  cases b <;> rfl

/-- The characters that are code. -/
def codeOf (rs : List (Role × Char)) : Text := (rs.filter (·.1 == .code)).map (·.2)

theorem codeOf_append (a b : List (Role × Char)) : codeOf (a ++ b) = codeOf a ++ codeOf b := by
  rw [codeOf, filter_append, map_append, codeOf, codeOf]

theorem codeOf_map_code (t : Text) : codeOf (t.map (.code, ·)) = t := by
  simp [codeOf, filter_map, Function.comp_def]

theorem codeOf_map_of_ne {r : Role} (hr : r ≠ .code) (t : Text) : codeOf (t.map (r, ·)) = [] := by
  simp [codeOf, hr]

theorem code_eq (stack : List Bracket) (c : Char) :
    code stack c = (walk stack (codeOf (Mode.tellsCode c))).map (⟨Mode.ofCode c, ·⟩) := by
  by_cases hslash : c = '/'
  · subst hslash
    rfl
  by_cases hquote : c = '"'
  · subst hquote
    rfl
  have htells : codeOf (Mode.tellsCode c) = [c] := by simp [Mode.tellsCode, codeOf, hslash, hquote]
  simp only [htells, Mode.ofCode, if_neg hslash, if_neg hquote, walk_cons, code]
  split
  · rfl
  · split
    · split_ifs <;> rfl
    · rfl
  · rfl

theorem step_eq (m : Mode) (stack : List Bracket) (c : Char) :
    step ⟨m, stack⟩ c = (walk stack (codeOf (m.tells c))).map (⟨m.next c, ·⟩) := by
  cases m with
  | code => exact code_eq stack c
  | slash =>
    by_cases hstar : c = '*'
    · subst hstar
      rfl
    by_cases hslash : c = '/'
    · subst hslash
      rfl
    have htells : codeOf (Mode.slash.tells c) = '/' :: codeOf (Mode.tellsCode c) := by
      simp [Mode.tells, hstar, hslash, codeOf]
    have hwalk : walk stack ('/' :: codeOf (Mode.tellsCode c)) = walk stack (codeOf (Mode.tellsCode c)) := rfl
    rw [htells, hwalk]
    simpa [step, hstar, hslash, Mode.next] using code_eq stack c
  | block star | quoted =>
    simp only [step, Mode.next]
    split_ifs <;> rfl
  | lineComment =>
    simp only [step, Mode.next, Mode.tells]
    split_ifs with hc
    · subst hc
      rfl
    · rfl
  | escaped => rfl

/-- Only the characters that are code move the open brackets. -/
theorem read_eq (m : Mode) (stack : List Bracket) (t : Text) :
    read ⟨m, stack⟩ t = (walk stack (codeOf (m.told t))).map (⟨m.run t, ·⟩) := by
  induction t generalizing m stack with
  | nil => rfl
  | cons c t ih =>
    rw [read, foldlM_cons, step_eq, Mode.told_cons, codeOf_append, walk_append, Mode.run_cons]
    cases walk stack (codeOf (m.tells c)) with
    | none => rfl
    | some stack' => exact ih (m.next c) stack'

/-- A slash at the end moves no brackets. -/
theorem read_code_eq (stack : List Bracket) (t : Text) :
    read ⟨.code, stack⟩ t = (walk stack (codeOf (roles t))).map (⟨Mode.code.run t, ·⟩) := by
  have hwait (stack : List Bracket) : walk stack (codeOf ((Mode.code.run t).waiting.map (.code, ·))) =
      some stack := by
    cases Mode.code.run t <;> rfl
  rw [read_eq, roles, codeOf_append, walk_append]
  cases walk stack (codeOf (Mode.code.told t)) with
  | none => rfl
  | some stack' => rw [Option.bind_some, hwait]

theorem run_of_read {s : State} (h : read ⟨m, stack⟩ t = some s) : m.run t = s.mode := by
  rw [read_eq, Option.map_eq_some_iff] at h
  obtain ⟨stack', -, rfl⟩ := h
  rfl

/-! ## Texts of one role -/

/-- The reader takes all of a text for one thing, on the way from one mode to another. -/
structure TakenFor (r : Role) (m m' : Mode) (t : Text) : Prop where
  run : m.run t = m'
  told : m.told t = t.map (r, ·)

namespace TakenFor

variable {r : Role} {m m' m'' : Mode} {a b t : Text}

theorem append (ha : TakenFor r m m' a) (hb : TakenFor r m' m'' b) : TakenFor r m m'' (a ++ b) where
  run := by rw [Mode.run_append, ha.run, hb.run]
  told := by rw [Mode.told_append, ha.told, ha.run, hb.told, map_append]

/-- Text that is no code leaves the open brackets as they are. -/
theorem read (h : TakenFor r m m' t) (hr : r ≠ .code) (stack : List Bracket) :
    read ⟨m, stack⟩ t = some ⟨m', stack⟩ := by
  rw [read_eq, h.told, codeOf_map_of_ne hr, h.run]
  rfl

theorem roles (h : TakenFor r .code .code t) : roles t = t.map (r, ·) := by
  simp [Balance.roles, h.told, h.run, Mode.waiting]

end TakenFor

/-! ## Texts inside one comment or one quotation -/

namespace Mode

def inBlock : Mode → Bool
  | block _ => true
  | _ => false

def inQuotes : Mode → Bool
  | quoted | escaped => true
  | _ => false

/-- Whether the reader is in modes of one kind all along a text. -/
def stays (p : Mode → Bool) (m : Mode) : Text → Bool
  | [] => p m
  | c :: t => p m && (m.next c).stays p t

variable {p : Mode → Bool}

theorem stays_append (m : Mode) (a b : Text) : m.stays p (a ++ b) = (m.stays p a && (m.run a).stays p b) := by
  induction a generalizing m with
  | nil => cases b <;> simp [stays]
  | cons c a ih => simp [stays, ih, Bool.and_assoc]

theorem run_of_stays (h : m.stays p t) : p (m.run t) := by
  rw [← append_nil t, stays_append, Bool.and_eq_true] at h
  exact h.2

end Mode

/-- On the way from one mode to another the reader is in modes of one kind. -/
structure StaysIn (p : Mode → Bool) (m m' : Mode) (t : Text) : Prop where
  run : m.run t = m'
  stays : m.stays p t

namespace StaysIn

variable {p : Mode → Bool} {m m' m'' : Mode} {a b t : Text}

theorem nil (h : p m) : StaysIn p m m [] := ⟨rfl, h⟩

theorem append (ha : StaysIn p m m' a) (hb : StaysIn p m' m'' b) : StaysIn p m m'' (a ++ b) where
  run := by rw [Mode.run_append, ha.run, hb.run]
  stays := by rw [Mode.stays_append, ha.stays, ha.run, hb.stays]; rfl

theorem flatMap {α : Type} {f : α → Text} {l : List α} (hm : p m) (h : ∀ x ∈ l, StaysIn p m m (f x)) :
    StaysIn p m m (l.flatMap f) := by
  induction l with
  | nil => exact nil hm
  | cons x l ih =>
    rw [flatMap_cons]
    exact (h x mem_cons_self).append (ih fun y hy => h y (mem_cons_of_mem _ hy))

/-- The mode behind the start of a text. -/
theorem of_prefix (h : StaysIn p m m' t) (ha : a <+: t) : p (m.run a) := by
  obtain ⟨b, rfl⟩ := ha
  have hstays := h.stays
  rw [Mode.stays_append, Bool.and_eq_true] at hstays
  exact Mode.run_of_stays hstays.1

theorem takenFor {r : Role} (hp : ∀ m c, p m → m.tells c = [(r, c)]) (h : StaysIn p m m' t) :
    TakenFor r m m' t := by
  refine ⟨h.run, ?_⟩
  have hstays := h.stays
  clear h
  induction t generalizing m with
  | nil => rfl
  | cons c t ih =>
    rw [Mode.stays, Bool.and_eq_true] at hstays
    rw [Mode.told_cons, hp m c hstays.1, ih hstays.2]
    rfl

theorem comment (h : StaysIn Mode.inBlock m m' t) : TakenFor .comment m m' t :=
  h.takenFor fun m c hm => by revert hm; cases m <;> simp [Mode.inBlock, Mode.tells]

theorem quoted (h : StaysIn Mode.inQuotes m m' t) : TakenFor .quoted m m' t :=
  h.takenFor fun m c hm => by revert hm; cases m <;> simp [Mode.inQuotes, Mode.tells]

end StaysIn

theorem staysIn_quoted_escape (t : Text) : StaysIn Mode.inQuotes .quoted .quoted (Quoted.escape t) := by
  rw [Quoted.escape_eq_flatMap]
  refine .flatMap rfl fun c _ => ?_
  by_cases hc : Quoted.needsEscape c
  · rw [if_pos hc]
    exact ⟨rfl, rfl⟩
  · have hplain : c ≠ '\\' ∧ c ≠ '"' ∧ c ≠ '\n' := by simpa [Quoted.needsEscape, and_assoc] using hc
    have hnext : Mode.quoted.next c = .quoted := by simp [Mode.next, hplain.1, hplain.2.1]
    rw [if_neg hc]
    exact ⟨hnext, by simp [Mode.stays, hnext, Mode.inQuotes]⟩

theorem takenFor_quote (t : Text) : TakenFor .quoted .code .code (Quoted.quote t) := by
  have hopen : TakenFor .quoted .code .quoted "\"".toList := ⟨rfl, rfl⟩
  have hclose : TakenFor .quoted .quoted .code "\"".toList := ⟨rfl, rfl⟩
  have hquote := hopen.append ((staysIn_quoted_escape t).quoted.append hclose)
  simpa [Quoted.quote, Text.join] using hquote

/-- Escaped text does not end a comment. Behind a star it must not start with a slash. -/
theorem staysIn_escape (t : Text) (star : Bool) (h : star → t.head? ≠ some '/') :
    ∃ star', StaysIn Mode.inBlock (.block star) (.block star') (escape t) := by
  fun_induction escape t generalizing star with
  | case1 cs ih =>
    obtain ⟨star', hrest⟩ := ih false (by simp)
    have hmark : StaysIn Mode.inBlock (.block star) (.block false) ['*', ' ', '/'] := by
      cases star <;> exact ⟨rfl, rfl⟩
    exact ⟨star', hmark.append hrest⟩
  | case2 c cs hc ih =>
    obtain ⟨star', hrest⟩ := ih (c == '*') (by
      intro hstar hhead
      obtain ⟨ds, rfl⟩ := head?_eq_some_iff.1 hhead
      exact hc ds (beq_iff_eq.1 hstar) rfl)
    have hnext : (Mode.block star).next c = .block (c == '*') := by
      rw [Mode.next, if_neg]
      simp only [Bool.and_eq_true, decide_eq_true_eq, not_and]
      rintro hstar rfl
      exact h hstar rfl
    have hstep : StaysIn Mode.inBlock (.block star) (.block (c == '*')) [c] :=
      ⟨hnext, by simp [Mode.stays, hnext, Mode.inBlock]⟩
    exact ⟨star', hstep.append hrest⟩
  | case3 => exact ⟨star, .nil rfl⟩

/-- The text stays in a block comment, and does not end with a star that may end it. -/
abbrev Buried (t : Text) : Prop := StaysIn Mode.inBlock (.block false) (.block false) t

theorem buried_escape_line (t : Text) : Buried (escape t ++ ['\n']) := by
  obtain ⟨star, hescape⟩ := staysIn_escape t false (by simp)
  have hend : StaysIn Mode.inBlock (.block star) (.block false) ['\n'] := by cases star <;> exact ⟨rfl, rfl⟩
  exact hescape.append hend

theorem buried_of_noStar (h : '*' ∉ t) : Buried t := by
  rw [← flatMap_singleton' t]
  refine .flatMap rfl fun c hc => ?_
  have hnext : (Mode.block false).next c = .block false := by
    have hstar : c ≠ '*' := fun heq => h (heq ▸ hc)
    simp [Mode.next, hstar]
  exact ⟨hnext, by simp [Mode.stays, hnext, Mode.inBlock]⟩

/-! ## Whole comments -/

/-- A text that is one block comment: it opens with its mark and is in the
comment up to the last character. -/
def IsComment (t : Text) : Prop :=
  ∃ inner, t = '/' :: '*' :: (inner ++ ['/']) ∧ StaysIn Mode.inBlock (.block false) (.block true) inner

theorem IsComment.takenFor (h : IsComment t) : TakenFor .comment .code .code t := by
  obtain ⟨inner, rfl, hinner⟩ := h
  have hopen : TakenFor .comment .code (.block false) ['/', '*'] := ⟨rfl, rfl⟩
  exact hopen.append (hinner.comment.append ⟨rfl, rfl⟩)

/-- A comment around escaped text ends at its own end. -/
theorem isComment_ofLines (lines : List Text) : IsComment (ofLines lines) := by
  obtain ⟨star, hinner⟩ := staysIn_escape (Text.joinWith "\n" lines) false (by simp)
  have hclose : StaysIn Mode.inBlock (.block star) (.block true) " *".toList := by
    cases star <;> exact ⟨rfl, rfl⟩
  exact ⟨_, by simp [ofLines, Text.join], hinner.append hclose⟩

end ClassdefDoc.Balance
