import ClassdefDoc.Text.Bytes
import Mathlib.Data.List.TakeWhile
import Mathlib.Tactic

/-!
# Cutting texts

A text is cut behind its longest part whose characters satisfy a predicate
(`take_takeWhile_length`, `drop_takeWhile_length`); what follows starts with a character that
does not satisfy it. Offsets of cuts are byte lengths (`slice?_of_eq`), and of two cuts the
one at the smaller offset comes first (`exists_append_of_bytes_le`). The pieces between
separators are cut at each of them (`split_append_sep`) and hold none (`notMem_of_mem_split`).
-/

namespace ClassdefDoc.Text

open List

variable {c sep : Char} {a' b' : Text} {m : Nat}

variable {a b t text : Text} {n : Nat} {p : Char → Bool}

theorem take_takeWhile_length (p : Char → Bool) (t : Text) :
    t.take (t.takeWhile p).length = t.takeWhile p := by
  have hcut : t.takeWhile p ++ t.dropWhile p = t := takeWhile_append_dropWhile
  nth_rewrite 2 [← hcut]
  exact take_left

theorem drop_takeWhile_length (p : Char → Bool) (t : Text) :
    t.drop (t.takeWhile p).length = t.dropWhile p := by
  have hcut : t.takeWhile p ++ t.dropWhile p = t := takeWhile_append_dropWhile
  nth_rewrite 2 [← hcut]
  exact drop_left

/-- What follows the longest part with `p` does not start with `p`. -/
theorem not_of_head?_dropWhile (h : (t.dropWhile p).head? = some c) : p c = false := by
  have := head?_dropWhile_not p t
  rwa [h] at this

theorem takeWhile_append_stop (ha : ∀ c ∈ a, p c)
    (hb : ∀ c, b.head? = some c → p c = false) : (a ++ b).takeWhile p = a := by
  rw [takeWhile_append_of_pos ha]
  cases b with
  | nil => simp
  | cons c b => rw [takeWhile_cons_of_neg (by simp [hb c rfl]), append_nil]

theorem dropWhile_append_stop (ha : ∀ c ∈ a, p c)
    (hb : ∀ c, b.head? = some c → p c = false) : (a ++ b).dropWhile p = b := by
  rw [dropWhile_append_of_pos ha]
  cases b with
  | nil => rfl
  | cons c b => rw [dropWhile_cons_of_neg (by simp [hb c rfl])]

/-! ## Joined texts -/

@[simp] theorem join_nil : join [] = [] := rfl

@[simp] theorem join_cons (t : Text) (ts : List Text) : join (t :: ts) = t ++ join ts := rfl

@[simp] theorem joinWith_nil (sep : Text) : joinWith sep [] = [] := rfl

@[simp] theorem joinWith_singleton (sep t : Text) : joinWith sep [t] = t := append_nil t

@[simp] theorem joinWith_cons_cons (sep t u : Text) (ts : List Text) :
    joinWith sep (t :: u :: ts) = t ++ sep ++ joinWith sep (u :: ts) := by
  simp [joinWith, List.intercalate]

theorem mem_joinWith {sep : Text} {parts : List Text} (h : c ∈ joinWith sep parts) :
    c ∈ sep ∨ ∃ p ∈ parts, c ∈ p := by
  induction parts with
  | nil => simp at h
  | cons p parts ih =>
    cases parts with
    | nil => exact .inr ⟨p, mem_singleton.2 rfl, by simpa using h⟩
    | cons q parts =>
      rw [joinWith_cons_cons, mem_append, mem_append] at h
      rcases h with (h | h) | h
      · exact .inr ⟨p, mem_cons_self, h⟩
      · exact .inl h
      · refine (ih h).imp_right fun ⟨r, hr, hc⟩ => ⟨r, mem_cons_of_mem _ hr, hc⟩

/-! ## Pieces -/

theorem split_ne_nil (sep : Char) (t : Text) : split sep t ≠ [] := by
  cases t with
  | nil => exact cons_ne_nil _ _
  | cons c t =>
    rw [split]
    split_ifs
    · exact cons_ne_nil _ _
    · split <;> exact cons_ne_nil _ _

theorem split_append_sep (sep : Char) (a b : Text) :
    split sep (a ++ sep :: b) = split sep a ++ split sep b := by
  induction a with
  | nil => simp [split]
  | cons c a ih =>
    rw [cons_append, split, split, ih]
    split_ifs
    · rfl
    · cases hsplit : split sep a with
      | nil => exact absurd hsplit (split_ne_nil sep a)
      | cons p ps => rfl

theorem split_of_notMem (h : sep ∉ t) : split sep t = [t] := by
  induction t with
  | nil => rfl
  | cons c t ih =>
    rw [mem_cons, not_or] at h
    rw [split, if_neg (Ne.symm h.1), ih h.2]

theorem notMem_of_mem_split (h : a ∈ split sep t) : sep ∉ a := by
  induction t generalizing a with
  | nil =>
    rw [mem_singleton.1 h]
    exact not_mem_nil
  | cons c t ih =>
    rw [split] at h
    split_ifs at h with hc
    · rcases mem_cons.1 h with rfl | h
      · exact not_mem_nil
      · exact ih h
    · cases hsplit : split sep t with
      | nil => exact absurd hsplit (split_ne_nil sep t)
      | cons p ps =>
        rw [hsplit] at h ih
        rcases mem_cons.1 h with rfl | h
        · exact not_mem_cons_of_ne_of_not_mem (Ne.symm hc) (ih mem_cons_self)
        · exact ih (mem_cons_of_mem p h)

/-! ## Letters in small -/

/-- An upper case letter becomes the small one, and all else stays. -/
theorem toNat_toLower (c : Char) :
    c.toLower.toNat = if 65 ≤ c.toNat ∧ c.toNat ≤ 90 then c.toNat + 32 else c.toNat := by
  have hrange : c.val ≥ 'A'.val ∧ c.val ≤ 'Z'.val ↔ 65 ≤ c.toNat ∧ c.toNat ≤ 90 := Iff.rfl
  split_ifs with h
  · have hval : c.toLower.val = c.val + ('a'.val - 'A'.val) := by
      show (dite _ _ _ : Char).val = _
      rw [dif_pos (hrange.2 h)]
    show c.toLower.val.toNat = c.val.toNat + 32
    have hnat : c.val.toNat ≤ 90 := h.2
    rw [hval, UInt32.toNat_add, show ('a'.val - 'A'.val).toNat = 32 from rfl]
    omega
  · have hc : c.toLower = c := dif_neg (mt hrange.1 h)
    rw [hc]

theorem lower_lower (t : Text) : lower (lower t) = lower t := by
  have hchar (c : Char) : c.toLower.toLower = c.toLower := by
    refine Char.toNat_inj.1 ?_
    simp only [toNat_toLower]
    split_ifs <;> omega
  simp [lower, hchar]

theorem isSpace_toLower (c : Char) : isSpace c.toLower = isSpace c := by
  unfold isSpace
  simp only [toNat_toLower]
  split_ifs with h
  · grind
  · rfl

theorem lower_trim (t : Text) : lower (trim t) = trim (lower t) := by
  have hspace : isSpace ∘ Char.toLower = isSpace := funext isSpace_toLower
  simp only [lower, trim, trimEnd, trimStart, dropWhile_map, ← map_reverse, hspace]

/-! ## Line ends -/

/-- A line ends before `t`: `t` is empty or starts with a line end. -/
def AtLineEnd (t : Text) : Prop := ∀ c, t.head? = some c → c = '\n'

theorem newline_notMem_firstLine (t : Text) : '\n' ∉ firstLine t := by
  intro h
  have := mem_takeWhile_imp h
  simp at this

theorem take_firstLine_length (t : Text) : t.take (firstLine t).length = firstLine t :=
  take_takeWhile_length _ t

theorem atLineEnd_drop_firstLine (t : Text) : AtLineEnd (t.drop (firstLine t).length) := by
  intro c hc
  rw [firstLine, drop_takeWhile_length] at hc
  simpa using not_of_head?_dropWhile hc

/-! ## Offsets -/

theorem bytes_pos (h : t ≠ []) : 0 < bytes t := by
  cases t with
  | nil => exact absurd rfl h
  | cons c t =>
    have := c.utf8Size_pos
    rw [bytes_cons]
    omega

/-- Of two cuts of a text, the one at the smaller offset comes first. -/
theorem exists_append_of_bytes_le (h : a ++ b = a' ++ b') (hn : bytes a ≤ bytes a') :
    ∃ m, a' = a ++ m ∧ b = m ++ b' := by
  rcases append_eq_append_iff.1 h with ⟨m, rfl, rfl⟩ | ⟨m, rfl, rfl⟩
  · exact ⟨m, rfl, rfl⟩
  · have hm : m = [] := by
      by_contra hne
      have := bytes_pos hne
      rw [bytes_append] at hn
      omega
    subst hm
    exact ⟨[], by simp, rfl⟩

/-- Two cuts of a text at one offset are the same. -/
theorem append_inj_of_bytes (h : a ++ b = a' ++ b') (hn : bytes a = bytes a') : a = a' ∧ b = b' := by
  obtain ⟨m, rfl, rfl⟩ := exists_append_of_bytes_le h hn.le
  have hm : m = [] := by
    by_contra hne
    have := bytes_pos hne
    rw [bytes_append] at hn
    omega
  subst hm
  exact ⟨(append_nil a).symm, rfl⟩

theorem slice?_of_eq {c : Text} (h : text = a ++ b ++ c) (hm : m = bytes a)
    (hn : n = bytes (a ++ b)) : slice? text m n = some b := by
  rw [h, hm, hn, slice?_middle]

theorem exists_append_of_dropBytes? {rest : Text} (h : dropBytes? n t = some rest) :
    ∃ a, t = a ++ rest ∧ n = bytes a := by
  induction t generalizing n with
  | nil =>
    cases n with
    | zero => exact ⟨[], Option.some.inj h, rfl⟩
    | succ n => cases h
  | cons c t ih =>
    cases n with
    | zero => exact ⟨[], Option.some.inj h, rfl⟩
    | succ n =>
      rw [dropBytes?] at h
      split_ifs at h with hle
      obtain ⟨a, rfl, ha⟩ := ih h
      exact ⟨c :: a, rfl, by rw [bytes_cons]; omega⟩

theorem exists_append_of_takeBytes? {m : Text} (h : takeBytes? n t = some m) :
    ∃ rest, t = m ++ rest ∧ n = bytes m := by
  induction t generalizing n m with
  | nil =>
    cases n with
    | zero =>
      cases h
      exact ⟨[], rfl, rfl⟩
    | succ n => cases h
  | cons c t ih =>
    cases n with
    | zero =>
      cases h
      exact ⟨c :: t, rfl, rfl⟩
    | succ n =>
      rw [takeBytes?] at h
      split_ifs at h with hle
      obtain ⟨m, hm, rfl⟩ := Option.map_eq_some_iff.1 h
      obtain ⟨rest, rfl, ha⟩ := ih hm
      exact ⟨rest, rfl, by rw [bytes_cons]; omega⟩

theorem slice?_eq_some_iff :
    slice? text m n = some b ↔ ∃ a c, text = a ++ b ++ c ∧ m = bytes a ∧ n = bytes (a ++ b) := by
  constructor
  · intro h
    rw [slice?] at h
    split_ifs at h with hle
    obtain ⟨rest, hdrop, htake⟩ := Option.bind_eq_some_iff.1 h
    obtain ⟨a, rfl, ha⟩ := exists_append_of_dropBytes? hdrop
    obtain ⟨c, rfl, hb⟩ := exists_append_of_takeBytes? htake
    exact ⟨a, c, by rw [append_assoc], ha, by rw [bytes_append]; omega⟩
  · rintro ⟨a, c, h, hm, hn⟩
    exact slice?_of_eq h hm hn

/-- Two neighbouring parts of a text. -/
theorem slice?_append {i j k : Nat} (ha : slice? text i j = some a) (hb : slice? text j k = some b) :
    slice? text i k = some (a ++ b) := by
  obtain ⟨x, y, rfl, rfl, rfl⟩ := slice?_eq_some_iff.1 ha
  obtain ⟨x', z, htext, hj, rfl⟩ := slice?_eq_some_iff.1 hb
  rw [append_assoc x'] at htext
  obtain ⟨rfl, rfl⟩ := append_inj_of_bytes htext hj
  exact slice?_of_eq (a := x) (c := z) (by simp) rfl (by rw [append_assoc])

/-- The first part of a text, cut out by its offset. -/
theorem slice?_zero (h : text = a ++ b) (hn : n = bytes a) :
    slice? text 0 n = some a :=
  slice?_of_eq (a := []) (c := b) h rfl hn

/-- Two texts that are cut at the same character, which stands in neither part before the cut. -/
theorem cut_eq_cut (ha : c ∉ a) (ha' : c ∉ a') (h : a ++ c :: b = a' ++ c :: b') :
    a = a' ∧ b = b' := by
  have hcut {x y : Text} (hx : c ∉ x) : (x ++ c :: y).takeWhile (· != c) = x :=
    takeWhile_append_stop (fun d hd => by simpa using fun heq : d = c => hx (heq ▸ hd)) (by simp)
  have hfirst : a = a' := by rw [← hcut ha, h, hcut ha']
  subst hfirst
  exact ⟨rfl, (cons.inj (append_cancel_left h)).2⟩

end ClassdefDoc.Text
